import LbBind.Update.Effect

/-! The update policy. Permission is looked up before anything is changed, but what is changed later
is permitted all the same: a type that is deleted with all others was there before, and then it was
looked at, or it was added by the same update, and then that was permitted. -/

namespace LbBind.Update

open Lib Call Diff List
open Rbtdb (Typepair)
open Zone

variable {ρ : Type} [LinearOrder ρ] {env : Env ρ} {rr : Rr ρ} {x x' : State ρ} {old : Contents ρ}
  {ts : List (Tuple ρ)} {grants : List (List ℕ) → ℕ → Bool}

section
variable {z : Contents ρ}

omit [LinearOrder ρ] in
lemma grants_of_prescan (hssu : env.ssutable = some grants) (h : prescanPolicy env z rr = .ok ())
    (htype : rr.type ≠ Rdatatype.any) : grants rr.name rr.type := by
  simp only [prescanPolicy, hssu, if_pos htype] at h
  split_ifs at h with hgrants
  exact hgrants

omit [LinearOrder ρ] in
lemma ssuCheckall_of_prescan (hssu : env.ssutable = some grants)
    (h : prescanPolicy env z rr = .ok ()) (htype : rr.type = Rdatatype.any) :
    ssuCheckall grants z rr.name := by
  simp only [prescanPolicy, hssu, if_neg (not_not_intro htype)] at h
  split_ifs at h with hgrants
  exact hgrants

end

def Granted (grants : List (List ℕ) → ℕ → Bool) (old : Contents ρ) (x : State ρ) : Prop :=
  ∀ r : Record ρ, ¬(r ∈ records x.ver ↔ r ∈ records old) → grants r.place.name r.type.base

lemma Granted.applied (h : Granted grants old x) (happlied : Applied env ts x x')
    (hts : ∀ t ∈ ts, grants t.name t.type.base) : Granted grants old x' := by
  intro r hr
  by_cases hmem : r ∈ ts.map Tuple.record
  · obtain ⟨t, ht, rfl⟩ := mem_map.mp hmem
    exact hts t ht
  · rw [happlied.mem_iff hmem] at hr
    exact h r hr

omit [LinearOrder ρ] in
lemma Granted.type (h : Granted grants old x) {name : List (List ℕ)}
    (hall : ssuCheckall grants old name) {s : Rdataset ρ}
    (hs : s ∈ (x.ver ⟨false, name⟩).rdatasets) (hrrsig : s.type.base ≠ Rdatatype.rrsig)
    (hnsec : s.type.base ≠ Rdatatype.nsec) : grants name s.type.base := by
  obtain ⟨r, hr, hplace, htype⟩ := exists_mem_records ((Node.find_eq_some_iff _ s s.type).mpr ⟨hs, rfl⟩)
  by_cases hold : r ∈ records old
  · obtain ⟨s', hs', -⟩ := hold
    rw [hplace, htype] at hs'
    obtain ⟨hmem, hs'type⟩ := (Node.find_eq_some_iff _ s' s.type).mp hs'
    have hgrants := all_eq_true.mp hall s' hmem
    simpa [hs'type, hrrsig, hnsec] using hgrants
  · have hgrants := h r (by simp [hr, hold])
    rwa [hplace, htype] at hgrants

lemma updateRr_granted (hssu : env.ssutable = some grants) (hscan : prescanRr env old rr = .ok ())
    (h : Granted grants old x) :
    Ensures (updateRr env rr) x fun _ x' => Granted grants old x' := by
  obtain ⟨hclass, hpolicy⟩ := prescanRr_ok hscan
  refine (updateRr_ends hclass).imp fun _ x' hx' => ?_
  obtain ⟨ts, happlied, heffect⟩ := hx'
  refine h.applied happlied ?_
  cases heffect with
  | none => simp
  | add cls adds =>
    intro t ht
    rw [(adds.name t ht).1, (adds.name t ht).2]
    exact grants_of_prescan hssu hpolicy (type_ne_any_of_prescan hclass (.inl cls))
  | delAny type dels apex below =>
    intro t ht
    obtain ⟨found, hfound, hp, rfl⟩ := dels t ht
    obtain ⟨s, hs, htype⟩ := mem_map.mp hfound
    have hdnssec : found.type.base ≠ Rdatatype.rrsig ∧ found.type.base ≠ Rdatatype.nsec := by
      by_cases hname : rr.name = env.origin
      · rw [apex hname] at hp
        simp only [typeNotSoaNorNs, Bool.not_eq_true', contains_eq_mem, mem_cons,
          decide_eq_false_iff_not, not_or] at hp
        exact ⟨hp.2.2.2.1, hp.2.2.2.2.1⟩
      · rw [below hname] at hp
        simp only [typeNotDnssec, Bool.not_eq_true', contains_eq_mem, mem_cons,
          decide_eq_false_iff_not, not_or] at hp
        exact ⟨hp.1, hp.2.1⟩
    rw [← htype] at hdnssec
    have hgrants := h.type (ssuCheckall_of_prescan hssu hpolicy type) hs hdnssec.1 hdnssec.2
    rwa [htype] at hgrants
  | delType type dels =>
    intro t ht
    rw [(dels.place ht).1, (dels.place ht).2]
    exact grants_of_prescan hssu hpolicy type
  | delRr cls dels =>
    intro t ht
    rw [(dels.place ht).1, (dels.place ht).2]
    exact grants_of_prescan hssu hpolicy (type_ne_any_of_prescan hclass (.inr cls))

lemma updateSection_inv {rest : List (Rr ρ)} (hssu : env.ssutable = some grants)
    (hscan : ∀ rr ∈ rest, prescanRr env old rr = .ok ()) (h : Granted grants old x) :
    Ensures (updateSection env rest) x fun _ x' => Granted grants old x' := by
  induction rest generalizing x with
  | nil => exact .pure h
  | cons rr rest ih =>
    exact (updateRr_granted hssu (hscan rr (.head _)) h).bind fun _ y hy => ih (fun rr' hrr' => hscan rr' (.tail _ hrr')) hy

/-- Every rdataset that an update changes is of a name and a type that the policy grants. -/
theorem updateSection_granted {rest : List (Rr ρ)} {nodes : Place → Bool}
    (hssu : env.ssutable = some grants) (hscan : prescan env old rest = .ok ())
    (hrun : (updateSection env rest).run ⟨old, [], false, nodes⟩ = some (.ok (), x)) (p : Place)
    (type : Typepair) (hchanged : (x.ver p).find type ≠ (old p).find type) :
    grants p.name type.base := by
  have hinv : Granted grants old x := by
    refine (updateSection_inv hssu (fun rr hrr => prescan_mem hscan hrr) ?_).1 () x hrun
    exact fun r hr => absurd Iff.rfl hr
  by_contra hgrants
  refine hchanged (find_eq_of_records fun r hp ht => ?_)
  by_contra hr
  have := hinv r hr
  rw [hp, ht] at this
  exact hgrants this

def exampleRdatas : Rdatas ℕ where
  data d := List.replicate (3 * d) 0
  casecompare _ d d' := d = d'
  casecompare_self := by simp
  casecompare_ns := by simp

def exampleGrants (name : List (List ℕ)) (_ : ℕ) : Bool := name = [[101], [119]]

def exampleEnv : Env ℕ where
  origin := [[101]]
  rdclass := 1
  privatetype := 65534
  rdatas := exampleRdatas
  checknames _ := true
  ssutable := some exampleGrants
  addnode nodes p := Function.update nodes p true
  addnode_self := by simp
  addnode_mono nodes p q h := by
    by_cases hq : q = p <;> simp [hq, h]

def exampleZone : Contents ℕ := fun p =>
  if p = ⟨false, [[101], [119]]⟩ then ⟨[.single ⟨16, 0⟩ 60 1], by simp⟩ else Node.empty

def exampleNodes (p : Place) : Bool := p = ⟨false, [[101]]⟩ || p = ⟨false, [[101], [119]]⟩

def exampleDeleteAll : Rr ℕ := ⟨[[101], [119]], 0, classAny, Rdatatype.any, 0, 0, fun _ _ => rfl⟩

def exampleSection : List (Rr ℕ) :=
  [⟨[[101], [119]], 60, 1, Rdatatype.a, 0, 2, fun _ _ => rfl⟩, exampleDeleteAll]

theorem updateSection_granted_addDelete : ∃ x : State ℕ,
    prescan exampleEnv exampleZone exampleSection = .ok () ∧
    (updateSection exampleEnv exampleSection).run ⟨exampleZone, [], false, exampleNodes⟩ = some (.ok (), x) ∧
    (x.ver ⟨false, [[101], [119]]⟩).find ⟨16, 0⟩ ≠
      (exampleZone ⟨false, [[101], [119]]⟩).find ⟨16, 0⟩ ∧
    exampleGrants [[101], [119]] 16 := by
  have hscan : prescan exampleEnv exampleZone exampleSection = .ok () := by rfl
  obtain ⟨x, hrun, hx⟩ := exists_of_any (c := updateSection exampleEnv exampleSection)
    (s := ⟨exampleZone, [], false, exampleNodes⟩)
    (q := fun x => (x.ver ⟨false, [[101], [119]]⟩).find ⟨16, 0⟩ = none) (by decide +kernel)
  have hchanged : (x.ver ⟨false, [[101], [119]]⟩).find ⟨16, 0⟩ ≠
      (exampleZone ⟨false, [[101], [119]]⟩).find ⟨16, 0⟩ := by
    rw [of_decide_eq_true hx]
    decide +kernel
  exact ⟨x, hscan, hrun, hchanged, updateSection_granted rfl hscan hrun ⟨false, [[101], [119]]⟩ ⟨16, 0⟩
    hchanged⟩

end LbBind.Update

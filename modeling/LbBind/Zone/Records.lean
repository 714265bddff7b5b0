import LbBind.Zone.Contents

/-! The records of a version of a zone. Two records of a type at a name have the same TTL, some
types have one record at most, and there is little that may stand beside a CNAME record. -/

namespace LbBind.Zone

open Function Rdataset Node Rdatatype

open Rbtdb (Typepair AddOptions)

variable {ρ : Type*}

@[ext]
structure Record (ρ : Type*) where
  place : Place
  type : Typepair
  ttl : ℕ
  rdata : ρ
  deriving DecidableEq

def Rdataset.Has (s : Rdataset ρ) (r : Record ρ) : Prop := r.ttl = s.ttl ∧ r.rdata ∈ s.rdatas

@[simp]
lemma Rdataset.has_single {type : Typepair} {ttl : ℕ} {d : ρ} {r : Record ρ} :
    (single type ttl d).Has r ↔ r.ttl = ttl ∧ r.rdata = d := by
  simp [Has, single]

def records (z : Contents ρ) : Set (Record ρ) :=
  {r | ∃ s, (z r.place).find r.type = some s ∧ s.Has r}

variable {z z' : Contents ρ} {p : Place} {n : Node ρ} {s old new : Rdataset ρ} {t u : Typepair}
  {r : Record ρ}

lemma mem_records : r ∈ records z ↔ ∃ s, (z r.place).find r.type = some s ∧ s.Has r := Iff.rfl

lemma mem_records_of_find (h : (z r.place).find r.type = some s) : r ∈ records z ↔ s.Has r := by
  rw [mem_records, h]
  simp

lemma not_mem_records_of_find (h : (z r.place).find r.type = none) : r ∉ records z := by
  rw [mem_records, h]
  simp

lemma exists_mem_records (h : (z p).find t = some s) :
    ∃ r ∈ records z, r.place = p ∧ r.type = t := by
  obtain ⟨d, hd⟩ := s.nonempty
  exact ⟨⟨p, t, s.ttl, d⟩, ⟨s, h, rfl, hd⟩, rfl, rfl⟩

section
variable (h : ∀ r : Record ρ, r.place = p → r.type = t → (r ∈ records z ↔ r ∈ records z'))
include h

lemma find_eq_some_of_records (hs : (z p).find t = some s) : (z' p).find t = some s := by
  have hmem : ∀ ttl d, (ttl = s.ttl ∧ d ∈ s.rdatas) ↔
      ∃ s', (z' p).find t = some s' ∧ ttl = s'.ttl ∧ d ∈ s'.rdatas := by
    intro ttl d
    have hiff := h ⟨p, t, ttl, d⟩ rfl rfl
    rw [mem_records_of_find (by exact hs)] at hiff
    exact hiff
  obtain ⟨d, hd⟩ := s.nonempty
  obtain ⟨s', hs', httl, -⟩ := (hmem s.ttl d).mp ⟨rfl, hd⟩
  have hrdatas : s.rdatas = s'.rdatas := by
    ext e
    have he := hmem s.ttl e
    rw [hs'] at he
    simpa [httl] using he
  have htype : s.type = s'.type :=
    (((z p).find_eq_some_iff s t).mp hs).2.trans (((z' p).find_eq_some_iff s' t).mp hs').2.symm
  rw [hs']
  cases s
  cases s'
  simp_all

lemma find_eq_of_records : (z p).find t = (z' p).find t := by
  cases hs : (z p).find t with
  | some s => exact (find_eq_some_of_records h hs).symm
  | none =>
    cases hs' : (z' p).find t with
    | none => rfl
    | some s' =>
      rw [find_eq_some_of_records (fun r hp ht => (h r hp ht).symm) hs'] at hs
      cases hs

end

lemma records_eq_iff : records z = records z' ↔ ∀ p t, (z p).find t = (z' p).find t := by
  constructor
  · intro h p t
    exact find_eq_of_records fun r _ _ => by rw [h]
  · intro h
    ext r
    rw [mem_records, mem_records, h]

lemma mem_records_update (h : ∀ u, u ≠ t → n.find u = (z p).find u) : r ∈ records (update z p n) ↔
      if r.place = p ∧ r.type = t then ∃ s, n.find t = some s ∧ s.Has r else r ∈ records z := by
  rw [mem_records]
  by_cases hp : r.place = p
  · rw [hp, Function.update_self]
    by_cases ht : r.type = t
    · rw [if_pos ⟨rfl, ht⟩, ht]
    · rw [if_neg fun hboth => ht hboth.2, h r.type ht, mem_records, hp]
  · rw [Function.update_of_ne hp, if_neg fun hboth => hp hboth.1, mem_records]

lemma mem_records_put {I : Set (Record ρ)} (hI : ∀ r ∈ I, r.place = p ∧ r.type = s.type)
    (h : ∀ r : Record ρ, r.place = p → r.type = s.type → (s.Has r ↔ r ∈ records z ∨ r ∈ I)) :
    r ∈ records (update z p ((z p).put s)) ↔ r ∈ records z ∨ r ∈ I := by
  rw [mem_records_update (t := s.type) fun u hu => find_put_of_ne hu, find_put, if_pos rfl]
  split_ifs with hr
  · simp [h r hr.1 hr.2]
  · exact ⟨.inl, fun hor => hor.resolve_right fun hmem => hr (hI r hmem)⟩

def cnameClash (t u : Typepair) : Prop := t = ⟨Rdatatype.cname, 0⟩ ∧ u ≠ ⟨Rdatatype.cname, 0⟩ ∧
    u.base ∉ [Rdatatype.key, Rdatatype.sig, Rdatatype.nsec, Rdatatype.rrsig]

instance : Decidable (cnameClash t u) :=
  inferInstanceAs (Decidable (t = ⟨Rdatatype.cname, 0⟩ ∧ u ≠ ⟨Rdatatype.cname, 0⟩ ∧ _ ∉ [_, _, _, _]))

lemma Node.cnameAndOther_iff : n.cnameAndOther ↔
    ∃ t s u s', n.find t = some s ∧ n.find u = some s' ∧ cnameClash t u := by
  simp only [cnameAndOther, Bool.and_eq_true, List.any_eq_true, decide_eq_true_eq,
    Bool.not_eq_true', List.contains_eq_mem, decide_eq_false_iff_not]
  constructor
  · rintro ⟨⟨s, hs, hcname⟩, s', hs', hne, hbase⟩
    exact ⟨s.type, s, s'.type, s', (n.find_eq_some_iff s s.type).mpr ⟨hs, rfl⟩,
      (n.find_eq_some_iff s' s'.type).mpr ⟨hs', rfl⟩, hcname, hne, hbase⟩
  · rintro ⟨t, s, u, s', hs, hs', hcname, hne, hbase⟩
    obtain ⟨hmem, rfl⟩ := (n.find_eq_some_iff s t).mp hs
    obtain ⟨hmem', rfl⟩ := (n.find_eq_some_iff s' u).mp hs'
    exact ⟨⟨s, hmem, hcname⟩, s', hmem', hne, hbase⟩

def Record.Conflict (r r' : Record ρ) : Prop :=
  r.place = r'.place ∧ (r.type = r'.type ∧ (r.ttl ≠ r'.ttl ∨ issingleton r.type.base) ∨
    cnameClash r.type r'.type ∨ cnameClash r'.type r.type)

instance {r' : Record ρ} : Decidable (r.Conflict r') :=
  inferInstanceAs (Decidable (r.place = r'.place ∧ (r.type = r'.type ∧ _ ∨ _)))

lemma Record.Conflict.symm {r' : Record ρ} (h : r.Conflict r') : r'.Conflict r := by
  obtain ⟨hp, ⟨ht, hor⟩ | hclash⟩ := h
  · exact ⟨hp.symm, .inl ⟨ht.symm, hor.imp Ne.symm (ht ▸ ·)⟩⟩
  · exact ⟨hp.symm, .inr hclash.symm⟩

variable [DecidableEq ρ]

lemma Rdataset.has_plus (h : new.ttl = old.ttl) : (old.plus new).Has r ↔ old.Has r ∨ new.Has r := by
  simp [Has, plus, h, and_or_left]

lemma mem_records_minus {d : Finset ρ} (hfind : (z p).find t = some s) :
    r ∈ records (update z p ((z p).update t (s.minus d))) ↔
      r ∈ records z ∧ ¬(r.place = p ∧ r.type = t ∧ r.rdata ∈ d) := by
  have htype := (((z p).find_eq_some_iff s t).mp hfind).2
  have hminus : ∀ s' ∈ s.minus d, s'.type = t := fun s' hs' => (type_minus hs').1.trans htype
  rw [mem_records_update (t := t) fun u hu => by rw [find_update hminus, if_neg hu],
    find_update hminus, if_pos rfl]
  split_ifs with hr
  · obtain ⟨rfl, rfl⟩ := hr
    rw [mem_records_of_find hfind]
    cases hs' : s.minus d with
    | none =>
      have hsub := minus_eq_none.mp hs'
      simpa [Rdataset.Has] using fun _ hmem => hsub hmem
    | some s' =>
      obtain ⟨-, httl, hrdatas⟩ := type_minus hs'
      simp [Rdataset.Has, httl, hrdatas, and_assoc]
  · exact ⟨fun hmem => ⟨hmem, fun hboth => hr ⟨hboth.1, hboth.2.1⟩⟩, fun hmem => hmem.1⟩

omit [DecidableEq ρ] in
lemma Node.cnameAndOther_of_warned
    (h : n.warned.1 = .success ∨ n.warned.1 = .unchanged ∨ n.warned.1 = .nxrrset) :
    n.cnameAndOther = false := by
  cases hcname : n.cnameAndOther with
  | false => rfl
  | true => simp [warned, hcname] at h

def exactly : AddOptions := ⟨true, true, true⟩

lemma Node.add_exactly_ok (h : (n.add exactly new).1 = .success ∨
    (n.add exactly new).1 = .unchanged ∨ (n.add exactly new).1 = .nxrrset) :
    (∃ old, n.find new.type = some old ∧ new.ttl = old.ttl ∧ new.rdatas ⊆ old.rdatas ∧
      (n.add exactly new).2 = n) ∨
    (n.find new.type = none ∧ (n.put new).cnameAndOther = false ∧ (n.add exactly new).2 = n.put new) ∨
    ∃ old, n.find new.type = some old ∧ new.ttl = old.ttl ∧ ¬new.rdatas ⊆ old.rdatas ∧
      ¬(1 < (old.rdatas ∪ new.rdatas).card ∧ issingleton new.type.base) ∧
      (n.put (old.plus new)).cnameAndOther = false ∧
      (n.add exactly new).2 = n.put (old.plus new) := by
  cases hfind : n.find new.type with
  | none =>
    simp only [add, hfind] at h ⊢
    exact .inr (.inl ⟨trivial, cnameAndOther_of_warned h, rfl⟩)
  | some old =>
    simp only [add, hfind, exactly, if_true, mergeRdataset, Bool.true_and, decide_eq_true_eq] at h ⊢
    by_cases httl : new.ttl = old.ttl
    · rw [if_neg (not_not_intro httl)] at h ⊢
      by_cases hsub : new.rdatas ⊆ old.rdatas
      · refine .inl ⟨old, rfl, httl, hsub, ?_⟩
        rw [mergeFailure, if_pos ⟨hsub, by simp [httl]⟩]
      · refine .inr (.inr ⟨old, rfl, httl, hsub, ?_⟩)
        rw [mergeFailure, if_neg fun hboth => hsub hboth.1] at h ⊢
        split_ifs at h ⊢ with hsingle hspace
        · simp at h
        · simp at h
        · exact ⟨hsingle, cnameAndOther_of_warned h, rfl⟩
    · simp [httl] at h

lemma Node.add_exactly_of_none (hfind : n.find new.type = none)
    (hcname : (n.put new).cnameAndOther = false) : n.add exactly new = (.success, n.put new) := by
  simp [add, hfind, warned, hcname]

lemma Node.add_exactly_of_some (hfind : n.find new.type = some old) (httl : new.ttl = old.ttl)
    (hsub : ¬new.rdatas ⊆ old.rdatas) (hsingle : issingleton new.type.base = false)
    (hspace : (old.rdatas ∪ new.rdatas).card ≤ 0xffff)
    (hcname : (n.put (old.plus new)).cnameAndOther = false) :
    n.add exactly new = (.success, n.put (old.plus new)) := by
  simp [add, hfind, exactly, mergeRdataset, httl, mergeFailure, hsub, hsingle,
    Nat.not_lt.mpr hspace, warned, hcname]

end LbBind.Zone

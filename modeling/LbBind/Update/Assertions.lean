import LbBind.Update.Policy

/-! The assertions of an update. Those on the length of rdata and on the SOA record of the zone hold
in every version that can be loaded. The one of `dns_db_findrdataset` does not hold for a record of
the old type SIG that covers a type, if its name has a node. -/

namespace LbBind.Update

open Lib Call Diff List
open Zone
open Rdatatype (cname nsec3param rrsig sig soa wks)

variable {ρ : Type} [LinearOrder ρ] {env : Env ρ} {rr : Rr ρ} {x : State ρ} {ts : List (Tuple ρ)}
  {p : Found ρ → Bool} {name : List (List ℕ)} {found : Found ρ} {ctx : Prepared ρ}

/-- What the parser has checked of rdata that is looked into. -/
def Sized (env : Env ρ) (type : ℕ) (d : ρ) : Prop :=
  (type = wks → 5 ≤ (env.rdatas.data d).length) ∧
    (type = nsec3param → 4 ≤ (env.rdatas.data d).length) ∧
    (type = soa → 20 < (env.rdatas.data d).length)

/-- No assertion fails. -/
abbrev Sound {α : Type} (c : Call (State ρ) Result α) (x : State ρ) : Prop :=
  Meets (· = x) c (fun _ _ => True) fun _ _ => True

lemma doOneTuple_sound {t : Tuple ρ} : Sound (doOneTuple env t) x := by
  refine .read (.start ?_)
  cases Diff.apply [t] x.ver <;> simp

lemma doDiff_sound : Sound (doDiff env ts) x := by
  induction ts generalizing x with
  | nil => exact .pure fun _ _ => trivial
  | cons t ts ih => exact doOneTuple_sound.next fun _ _ _ => ih

lemma deleteEach_sound {types : List Rbtdb.Typepair} : Sound (deleteEach env p name types) x := by
  induction types generalizing x with
  | nil => exact .pure fun _ _ => trivial
  | cons type types ih => exact .read (doDiff_sound.next fun _ _ _ => ih)

lemma deleteType_sound {type covers : ℕ} (h : Findable x.nodes name type covers) :
    Sound (deleteType env p name type covers) x :=
  .read (.check h doDiff_sound)

section
variable (hnew : Sized env rr.type rr.rdata)
include hnew
omit [LinearOrder ρ]

lemma replaces_sound (hold : Sized env found.type.base found.rdata) :
    Sound (replaces env rr found) x := by
  rw [replaces]
  refine .ite (fun _ => .pure fun _ _ => trivial) fun htype => ?_
  rw [not_not.mp htype] at hold
  refine .ite (fun _ => .pure fun _ _ => trivial) fun _ => ?_
  refine .ite (fun _ => .pure fun _ _ => trivial) fun _ => .ite (fun h => ?_) fun _ => ?_
  · exact .check ⟨hold.1 h, hnew.1 h⟩ (.pure fun _ _ => trivial)
  · refine .ite (fun h => ?_) fun _ => .pure fun _ _ => trivial
    rw [Bool.and_eq_true, decide_eq_true_eq] at h
    exact .check ⟨hold.2.1 h.1, hnew.2.1 h.1⟩ (.pure fun _ _ => trivial)

lemma addRrPrepare_sound {rest : List (Found ρ)}
    (hold : ∀ f ∈ rest, Sized env f.type.base f.rdata) : Sound (addRrPrepare env rr ctx rest) x := by
  induction rest generalizing x ctx with
  | nil => exact .pure fun _ _ => trivial
  | cons found rest ih =>
    refine Meets.next (Q := fun _ _ => True) ?_ fun _ _ _ => ih fun f hf => hold f (.tail _ hf)
    refine .ite (fun _ => .pure fun _ _ => trivial) fun _ => ?_
    refine (replaces_sound hnew (hold found (.head _))).next fun _ _ _ => ?_
    refine .ite (fun _ => .pure fun _ _ => trivial) fun _ => ?_
    exact .ite (fun _ => .pure fun _ _ => trivial) fun _ => .pure fun _ _ => trivial

end

/-- The records of a version have been checked, and there is one SOA record. -/
structure Checked (env : Env ρ) (z : Contents ρ) : Prop where
  sized : ∀ r ∈ records z, Sized env r.type.base r.rdata
  soa : ∀ r ∈ records z, ∀ r' ∈ records z, r.type.base = soa → r'.type.base = soa → r = r'

section
variable (hchecked : Checked env x.ver) (hany : rr.type ≠ Rdatatype.any)
include hchecked

lemma Checked.sized_found {type covers : ℕ} (h : type ≠ Rdatatype.any) :
    ∀ f ∈ foreachRr x.ver name type covers, Sized env f.type.base f.rdata := by
  intro f hf
  obtain ⟨htype, hmem⟩ := (mem_foreachRr h).mp hf
  rw [htype]
  exact hchecked.sized _ hmem

lemma checkSoaIncrement_sound :
    Meets (· = x) (checkSoaIncrement env rr) (fun _ y => y = x) fun _ _ => True := by
  refine .read ?_
  have hsized : ∀ f ∈ foreachRr x.ver env.origin soa 0, Sized env f.type.base f.rdata :=
    hchecked.sized_found (by decide)
  have hmem : ∀ f ∈ foreachRr x.ver env.origin soa 0,
      f.type = ⟨soa, 0⟩ ∧ (⟨findnode env.origin soa 0, ⟨soa, 0⟩, f.ttl, f.rdata⟩ : Record ρ) ∈
        records x.ver := fun f hf => (mem_foreachRr (by decide)).mp hf
  have hnodup : ((foreachRr x.ver env.origin soa 0).map Found.rdata).Nodup :=
    nodup_foreachRr (by decide)
  generalize foreachRr x.ver env.origin soa 0 = founds at *
  match founds with
  | [] => exact .fail fun _ _ => trivial
  | [f] =>
    have hf := (hmem f (.head _)).1
    exact .check ⟨rfl, (hsized f (.head _)).2.2 (by rw [hf])⟩ (.pure fun _ h => h)
  | f :: g :: rest =>
    have heq := hchecked.soa _ (hmem f (.head _)).2 _ (hmem g (.tail _ (.head _))).2 rfl rfl
    have hrdata : f.rdata = g.rdata := congrArg Record.rdata heq
    rw [map_cons, map_cons, hrdata] at hnodup
    exact absurd (.head _) (nodup_cons.mp hnodup).1

variable (hnew : Sized env rr.type rr.rdata)
include hany hnew

lemma addUnlessInternal_sound (hfind : rr.type ≠ env.privatetype →
    Findable x.nodes rr.name rr.type rr.covers) : Sound (addUnlessInternal env rr) x := by
  refine .ite (fun _ => .pure fun _ _ => trivial) fun hprivate => ?_
  refine .ite (fun _ => .pure fun _ _ => trivial) fun _ => .read (.check (hfind hprivate) ?_)
  refine (addRrPrepare_sound hnew (hchecked.sized_found hany)).next fun _ _ _ => ?_
  refine .ite (fun _ => .pure fun _ _ => trivial) fun _ => ?_
  exact doDiff_sound.next fun _ _ _ => doDiff_sound.next fun _ _ _ => doOneTuple_sound

end

/-- A record of type SIG is looked for under the type that it covers, at a name with a node. -/
def Aborts (env : Env ρ) (rr : Rr ρ) (x : State ρ) : Prop :=
  ¬Findable x.nodes rr.name rr.type rr.covers ∧ (rr.updateClass = env.rdclass →
    rr.type ≠ env.privatetype ∧ rrsetExists x.ver rr.name cname 0 = false)

omit [LinearOrder ρ] in
lemma findable_of_type (h : rr.type ≠ sig) : Findable x.nodes rr.name rr.type rr.covers := by
  by_cases hrrsig : rr.type = rrsig
  · exact .inr (.inr (.inr hrrsig))
  · exact .inr (.inr (.inl (rr.covers_eq h hrrsig)))

/-- An assertion fails in the processing of such a record. -/
lemma Aborts.run_eq (h : Aborts env rr x) (hclass : prescanClass env rr = .ok ()) :
    (updateRr env rr).run x = none := by
  have htype : rr.type = sig := by_contra fun hne => h.1 (findable_of_type hne)
  have hdelete (q : Found ρ → Bool) : (deleteType env q rr.name rr.type rr.covers).run x = none := by
    simp [deleteType, h.1]
  have hne : ∀ type, type ≠ sig → ¬rr.type = type := fun type hne heq => hne (heq ▸ htype)
  rw [updateRr]
  split_ifs with hzone hdelall hnone
  · obtain ⟨hprivate, hcname⟩ := h.2 hzone
    have hprepared : (addPrepared env rr).run x = none := by simp [addPrepared, h.1]
    have hinternal : (addUnlessInternal env rr).run x = none := by
      rw [addUnlessInternal, if_neg hprivate, if_neg (by simp [hne nsec3param (by decide)])]
      exact hprepared
    simp [addRr, hcname, hinternal, hne Rdatatype.md (by decide), hne Rdatatype.mf (by decide),
      hne Rdatatype.ns (by decide), hne Rdatatype.dname (by decide), hne cname (by decide),
      hne soa (by decide)]
  · rw [deleteRrset, if_neg (hne _ (by decide)),
      if_neg (by simp [hne soa (by decide), hne Rdatatype.ns (by decide)])]
    exact hdelete _
  · simp [deleteRr, hne soa (by decide), hne Rdatatype.ns (by decide), hdelete]
  · simp [prescanClass, hzone, hdelall, hnone] at hclass

lemma addRr_sound (hchecked : Checked env x.ver) (hany : rr.type ≠ Rdatatype.any)
    (hnew : Sized env rr.type rr.rdata) (h : ¬Findable x.nodes rr.name rr.type rr.covers →
      rr.type = env.privatetype ∨ rrsetExists x.ver rr.name cname 0) : Sound (addRr env rr) x := by
  refine .read ?_
  refine .ite (fun _ => .pure fun _ _ => trivial) fun _ => ?_
  refine .ite (fun _ => .pure fun _ _ => trivial) fun _ => ?_
  refine .ite (fun _ => .pure fun _ _ => trivial) fun _ => ?_
  refine .ite (fun _ => .pure fun _ _ => trivial) fun hcname => .ite (fun hsoa => ?_) fun _ => ?_
  · refine .ite (fun _ => .pure fun _ _ => trivial) fun _ => ?_
    refine (checkSoaIncrement_sound hchecked).next fun ok y hy => ?_
    refine .ite (fun _ => .pure fun _ _ => trivial) fun _ => .change ?_
    subst hy
    exact addUnlessInternal_sound hchecked hany hnew fun _ =>
      findable_of_type (x := y) (by rw [hsoa]; decide)
  · refine addUnlessInternal_sound hchecked hany hnew fun hprivate => ?_
    by_contra hfind
    have htype : rr.type = sig := by_contra fun hne => hfind (findable_of_type hne)
    refine hcname ?_
    rw [(h hfind).resolve_left hprivate, htype]
    decide

lemma updateRr_sound (hchecked : Checked env x.ver) (hclass : prescanClass env rr = .ok ())
    (hnew : rr.updateClass = env.rdclass → Sized env rr.type rr.rdata) (h : ¬Aborts env rr x) :
    Sound (updateRr env rr) x := by
  refine .ite (fun hzone => ?_) fun hzone => ?_
  · refine addRr_sound hchecked (type_ne_any_of_prescan hclass (.inl hzone)) (hnew hzone) fun hfind => ?_
    by_contra hcon
    rw [not_or, Bool.not_eq_true] at hcon
    exact h ⟨hfind, fun _ => hcon⟩
  · have hfind : Findable x.nodes rr.name rr.type rr.covers := by
      by_contra hfind
      exact h ⟨hfind, fun heq => absurd heq hzone⟩
    refine .ite (fun _ => ?_) fun _ => .ite (fun _ => ?_) fun _ => .pure fun _ _ => trivial
    · refine .ite (fun _ => .ite (fun _ => .read deleteEach_sound) fun _ => .read deleteEach_sound)
        fun _ => .ite (fun _ => .pure fun _ _ => trivial) fun _ => deleteType_sound hfind
    · exact .read (.ite (fun _ => .pure fun _ _ => trivial) fun _ =>
        .ite (fun _ => .pure fun _ _ => trivial) fun _ => deleteType_sound hfind)

end LbBind.Update

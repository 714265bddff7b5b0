import Mathlib.Data.Finset.Card
import LbBind.Rbtdb.History
import LbBind.Rdatatype

/-! The contents of a version of a zone: at each name some rdatasets of different types, with a TTL
and a set of rdatas each, taken up to `dns_rdata_compare`, and what `add` and `subtractrdataset` of
`lib/dns/rbtdb.c` make of the rdatasets of a name. -/

namespace LbBind.Zone

open List Rdatatype
open Rbtdb (Typepair AddOptions)

variable {ρ : Type*} [DecidableEq ρ]

structure Rdataset (ρ : Type*) where
  type : Typepair
  ttl : ℕ
  rdatas : Finset ρ
  nonempty : rdatas.Nonempty
  deriving DecidableEq

def Rdataset.single (type : Typepair) (ttl : ℕ) (rdata : ρ) : Rdataset ρ :=
  ⟨type, ttl, {rdata}, by simp⟩

/-- `dns_rdataslab_merge` on sets, which gives the union if it does not fail. The test for
`DNS_RDATASLAB_EXACT` compares a sum with itself and never fails. -/
def mergeFailure (type : Typepair) (force : Bool) (old new : Finset ρ) : Option Result :=
  if new ⊆ old ∧ ¬force then some .unchanged
  else if 1 < (old ∪ new).card ∧ issingleton type.base then some .singleton
  else if 0xffff < (old ∪ new).card then some .noSpace
  else none

/-- `dns_rdataslab_subtract` on sets, which gives the difference if it does not fail. -/
def subtractFailure (exact : Bool) (old sub : Finset ρ) : Option Result :=
  if exact ∧ ¬sub ⊆ old then some .notExact
  else if old \ sub = ∅ then some .nxrrset
  else if old \ sub = old then some .unchanged
  else none

def Rdataset.plus (old new : Rdataset ρ) : Rdataset ρ :=
  ⟨new.type, new.ttl, old.rdatas ∪ new.rdatas, old.nonempty.mono Finset.subset_union_left⟩

def Rdataset.minus (old : Rdataset ρ) (rdatas : Finset ρ) : Option (Rdataset ρ) :=
  if h : (old.rdatas \ rdatas).Nonempty then some ⟨old.type, old.ttl, old.rdatas \ rdatas, h⟩ else none

def mergeRdataset (options : AddOptions) (old new : Rdataset ρ) : Except Result (Rdataset ρ) :=
  if options.exactttl && new.ttl ≠ old.ttl then .error .notExact
  else
    match mergeFailure new.type (new.ttl ≠ old.ttl) old.rdatas new.rdatas with
    | some r => .error r
    | none => .ok (old.plus new)

def subtractRdataset (exact : Bool) (old sub : Rdataset ρ) : Except Result (Option (Rdataset ρ)) :=
  if exact && sub.ttl ≠ old.ttl then .error .notExact
  else
    match subtractFailure exact old.rdatas sub.rdatas with
    | some .nxrrset => .ok none
    | some r => .error r
    | none => .ok (old.minus sub.rdatas)

variable {old sub : Rdataset ρ} {rdatas : Finset ρ}

lemma Rdataset.minus_eq_none : old.minus rdatas = none ↔ old.rdatas ⊆ rdatas := by
  rw [minus]
  split_ifs with h
  · simpa using fun hsub => h.ne_empty (Finset.sdiff_eq_empty_iff_subset.mpr hsub)
  · simpa [Finset.sdiff_eq_empty_iff_subset] using h

lemma Rdataset.type_minus {rest : Rdataset ρ} (h : old.minus rdatas = some rest) :
    rest.type = old.type ∧ rest.ttl = old.ttl ∧ rest.rdatas = old.rdatas \ rdatas := by
  rw [minus] at h
  split_ifs at h
  cases h
  exact ⟨rfl, rfl, rfl⟩

lemma subtractRdataset_exact (httl : sub.ttl = old.ttl)
    (hsub : sub.rdatas ⊆ old.rdatas) :
    subtractRdataset true old sub = .ok (old.minus sub.rdatas) := by
  have hchanged : old.rdatas \ sub.rdatas ≠ old.rdatas := by
    intro heq
    obtain ⟨d, hd⟩ := sub.nonempty
    exact (Finset.mem_sdiff.mp (heq ▸ hsub hd)).2 hd
  rw [subtractRdataset, if_neg (by simp [httl]), subtractFailure, if_neg (by simp [hsub])]
  by_cases hempty : old.rdatas \ sub.rdatas = ∅
  · rw [if_pos hempty, Rdataset.minus_eq_none.mpr (Finset.sdiff_eq_empty_iff_subset.mp hempty)]
  · rw [if_neg hempty, if_neg hchanged]

lemma subtractRdataset_notExact
    (h : ¬(sub.ttl = old.ttl ∧ sub.rdatas ⊆ old.rdatas)) :
    subtractRdataset true old sub = .error .notExact := by
  rw [subtractRdataset]
  split_ifs with httl
  · rfl
  · have hsub : ¬sub.rdatas ⊆ old.rdatas := fun hsub => h ⟨by simpa using httl, hsub⟩
    rw [subtractFailure, if_pos ⟨rfl, hsub⟩]

structure Node (ρ : Type*) where
  rdatasets : List (Rdataset ρ)
  nodup : (rdatasets.map (·.type)).Nodup

namespace Node

variable (n : Node ρ) (r : Rdataset ρ) (type t : Typepair)

def empty : Node ρ := ⟨[], by simp⟩

def find : Option (Rdataset ρ) := n.rdatasets.find? fun r => r.type = type

omit [DecidableEq ρ] in
lemma map_type_replace (l : List (Rdataset ρ)) :
    (l.map fun r' => if r'.type = r.type then r else r').map (·.type) = l.map (·.type) := by
  rw [map_map]
  refine map_congr_left fun r' _ => ?_
  simp only [Function.comp]
  split_ifs with h
  · exact h.symm
  · rfl

def put : Node ρ := if h : r.type ∈ n.rdatasets.map (·.type) then
    ⟨n.rdatasets.map fun r' => if r'.type = r.type then r else r',
      (map_type_replace r n.rdatasets).symm ▸ n.nodup⟩
  else ⟨r :: n.rdatasets, nodup_cons.mpr ⟨h, n.nodup⟩⟩

def erase : Node ρ := ⟨n.rdatasets.filter fun r => r.type ≠ type,
    n.nodup.sublist (filter_sublist.map _)⟩

section
omit [DecidableEq ρ]

lemma find_eq_some_iff : n.find type = some r ↔ r ∈ n.rdatasets ∧ r.type = type := by
  constructor
  · intro h
    exact ⟨mem_of_find?_eq_some h, by simpa using find?_some h⟩
  · rintro ⟨hmem, rfl⟩
    rcases h : n.find r.type with _ | r'
    · simpa using find?_eq_none.mp h r hmem
    · have htype : r'.type = r.type := by simpa using find?_some h
      rw [inj_on_of_nodup_map n.nodup (mem_of_find?_eq_some h) hmem htype]

lemma find_eq_none_iff : n.find type = none ↔ ∀ r ∈ n.rdatasets, r.type ≠ type := by
  simp [find]

lemma mem_put (r' : Rdataset ρ) :
    r' ∈ (n.put r).rdatasets ↔ r' = r ∨ r' ∈ n.rdatasets ∧ r'.type ≠ r.type := by
  rw [put]
  split_ifs with h
  · simp only [mem_map]
    constructor
    · rintro ⟨r0, hmem, rfl⟩
      split_ifs with htype
      · exact .inl rfl
      · exact .inr ⟨hmem, htype⟩
    · rintro (rfl | ⟨hmem, htype⟩)
      · obtain ⟨r0, hmem, htype⟩ := mem_map.mp h
        exact ⟨r0, hmem, if_pos htype⟩
      · exact ⟨r', hmem, if_neg htype⟩
  · rw [mem_cons]
    refine or_congr_right ⟨fun hmem => ⟨hmem, fun htype => h ?_⟩, fun hmem => hmem.1⟩
    exact mem_map.mpr ⟨r', hmem, htype⟩

lemma find_put : (n.put r).find t = if t = r.type then some r else n.find t := by
  split_ifs with h
  · exact ((n.put r).find_eq_some_iff r t).mpr ⟨(mem_put n r r).mpr (.inl rfl), h.symm⟩
  · ext r'
    rw [find_eq_some_iff, find_eq_some_iff, mem_put]
    constructor
    · rintro ⟨rfl | hmem, rfl⟩
      · exact absurd rfl h
      · exact ⟨hmem.1, rfl⟩
    · rintro ⟨hmem, rfl⟩
      exact ⟨.inr ⟨hmem, h⟩, rfl⟩

lemma find_erase : (n.erase type).find t = if t = type then none else n.find t := by
  split_ifs with h
  · simp [find_eq_none_iff, erase, h]
  · ext r'
    rw [find_eq_some_iff, find_eq_some_iff, erase]
    simp only [mem_filter, decide_eq_true_eq, and_assoc]
    exact and_congr_right fun _ => ⟨fun h => h.2, fun htype => ⟨htype ▸ h, htype⟩⟩

end

def update : Option (Rdataset ρ) → Node ρ
  | some r => n.put r
  | none => n.erase type

def cnameAndOther : Bool := (n.rdatasets.any fun r => r.type = ⟨Rdatatype.cname, 0⟩) &&
    n.rdatasets.any fun r => r.type ≠ ⟨Rdatatype.cname, 0⟩ &&
      !List.contains [Rdatatype.key, Rdatatype.sig, Rdatatype.nsec, Rdatatype.rrsig] r.type.base

/-- The end of `add`: the warning about a CNAME with other data. -/
def warned : Result × Node ρ := (if n.cnameAndOther then .cnameAndOther else .success, n)

def add (options : AddOptions) (new : Rdataset ρ) : Result × Node ρ := match n.find new.type with
  | some old =>
    if options.merge then
      match mergeRdataset options old new with
      | .error e => (e, n)
      | .ok merged => (n.put merged).warned
    else (n.put new).warned
  | none => (n.put new).warned

def subtract (exact : Bool) (sub : Rdataset ρ) : Result × Node ρ := match n.find sub.type with
  | some old =>
    match subtractRdataset exact old sub with
    | .error e => (e, n)
    | .ok (some rest) => (.success, n.put rest)
    | .ok none => (.success, n.erase sub.type)
  | none => (if exact then .notExact else .unchanged, n)

variable {n type t}

omit [DecidableEq ρ] in
lemma find_put_of_ne {r : Rdataset ρ} (h : t ≠ r.type) : (n.put r).find t = n.find t := by
  rw [find_put, if_neg h]

variable {options : AddOptions} {old new : Rdataset ρ}

lemma mergeRdataset_eq_ok {merged : Rdataset ρ}
    (h : mergeRdataset options old new = .ok merged) : merged = old.plus new := by
  rw [mergeRdataset] at h
  split_ifs at h
  split at h
  · cases h
  · exact (Except.ok.inj h).symm

lemma type_subtractRdataset {exact : Bool} {sub rest : Rdataset ρ}
    (h : subtractRdataset exact old sub = .ok (some rest)) : rest.type = old.type := by
  rw [subtractRdataset] at h
  split_ifs at h
  split at h
  · cases h
  · cases h
  · exact (Rdataset.type_minus (Except.ok.inj h)).1

lemma find_add_of_ne (h : t ≠ new.type) : (n.add options new).2.find t = n.find t := by
  rw [add]
  split
  · split_ifs
    · split
      next => rfl
      next merged hmerge =>
        rw [mergeRdataset_eq_ok hmerge]
        exact find_put_of_ne h
    · exact find_put_of_ne h
  · exact find_put_of_ne h

lemma find_subtract_of_ne {exact : Bool} (h : t ≠ sub.type) :
    (n.subtract exact sub).2.find t = n.find t := by
  rw [subtract]
  split
  next old hfind =>
    split
    next => rfl
    next rest hrest =>
      refine find_put_of_ne ?_
      rwa [type_subtractRdataset hrest, ((n.find_eq_some_iff old sub.type).mp hfind).2]
    next => rw [find_erase, if_neg h]
  next => rfl

omit [DecidableEq ρ] in
lemma find_update {r : Option (Rdataset ρ)} (h : ∀ r' ∈ r, r'.type = type) :
    (n.update type r).find t = if t = type then r else n.find t := by
  cases r with
  | none => exact n.find_erase type t
  | some r =>
    obtain rfl := h r rfl
    exact n.find_put r t

lemma subtract_exact (hfind : n.find sub.type = some old)
    (httl : sub.ttl = old.ttl) (hsub : sub.rdatas ⊆ old.rdatas) :
    n.subtract true sub = (.success, n.update sub.type (old.minus sub.rdatas)) := by
  rw [subtract]
  simp only [hfind, subtractRdataset_exact httl hsub]
  cases old.minus sub.rdatas <;> rfl

lemma subtract_notExact
    (h : ∀ old, n.find sub.type = some old → ¬(sub.ttl = old.ttl ∧ sub.rdatas ⊆ old.rdatas)) :
    n.subtract true sub = (.notExact, n) := by
  rw [subtract]
  cases hfind : n.find sub.type with
  | none => rfl
  | some old => simp only [subtractRdataset_notExact (h old hfind)]

end Node

structure Place where
  nsec3 : Bool
  name : List (List ℕ)
  deriving DecidableEq

abbrev Contents (ρ : Type*) := Place → Node ρ

end LbBind.Zone

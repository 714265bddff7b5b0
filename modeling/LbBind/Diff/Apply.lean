import Mathlib.Data.List.SplitBy
import LbBind.Zone.Contents

/-! Applying a diff to a version of a zone (`lib/dns/diff.c`). Adjacent tuples for one rdataset
and with one operation are collected into an rdataset, and that is added to the version or
subtracted from it. -/

namespace LbBind.Diff

open Rbtdb (Typepair AddOptions)
open Zone List Rdatatype Function

variable {ρ : Type*} [DecidableEq ρ]

inductive Op
  | add
  | del
  | addresign
  | delresign
  deriving DecidableEq

def Op.adds : Op → Bool
  | add | addresign => true
  | del | delresign => false

structure Tuple (ρ : Type*) where
  op : Op
  name : List (List ℕ)
  ttl : ℕ
  type : Typepair
  rdata : ρ
  deriving DecidableEq

/-- `rdata_covers`: in a tuple only an RRSIG record covers a type. -/
def tupleType (type : Typepair) : Typepair :=
  ⟨type.base, if type.base = rrsig then type.covers else 0⟩

variable (name : List (List ℕ))

def place (type : Typepair) : Place :=
  ⟨type.base == nsec3 || type.covers == nsec3, name⟩

def sameGroup (t u : Tuple ρ) : Bool := t.name = u.name && t.op = u.op && t.type = u.type

omit [DecidableEq ρ] in
lemma sameGroup_iff {t u : Tuple ρ} :
    sameGroup t u ↔ t.name = u.name ∧ t.op = u.op ∧ t.type = u.type := by
  simp [sameGroup, and_assoc]

omit [DecidableEq ρ] in
lemma sameGroup_trans {t u v : Tuple ρ} (h1 : sameGroup t u) (h2 : sameGroup u v) :
    sameGroup t v := by
  rw [sameGroup_iff] at *
  exact ⟨h1.1.trans h2.1, h1.2.1.trans h2.2.1, h1.2.2.trans h2.2.2⟩

/-- The rdataset of some tuples, as `dns_rdatalist_tordataset` and `dns_rdataslab_fromrdataset`
make it. Its TTL is that of the first one. -/
def tordataset (t : Tuple ρ) (ts : List (Tuple ρ)) : Except Result (Rdataset ρ) :=
  let rdatas := ((t :: ts).map (·.rdata)).toFinset
  if 0xffff < (t :: ts).length then .error .noSpace
  else if 1 < rdatas.card && issingleton t.type.base then .error .singleton
  else .ok ⟨t.type, t.ttl, rdatas, ⟨t.rdata, by simp [rdatas]⟩⟩

omit [DecidableEq ρ] in
lemma sameGroup_of_mem_splitBy {ts g : List (Tuple ρ)} {t u : Tuple ρ}
    (h : t :: g ∈ ts.splitBy sameGroup) (hu : u ∈ g) : sameGroup t u := by
  have htrans : IsTrans (Tuple ρ) fun x y => sameGroup x y := ⟨fun _ _ _ => sameGroup_trans⟩
  exact (pairwise_cons.mp (isChain_of_mem_splitBy h).pairwise).1 u hu

omit [DecidableEq ρ] in
lemma splitBy_snoc (ts : List (Tuple ρ)) (t : Tuple ρ) :
    (ts ++ [t]).splitBy sameGroup = ts.splitBy sameGroup ++ [[t]] ∨
      ∃ gs u g, ts.splitBy sameGroup = gs ++ [u :: g] ∧ sameGroup u t ∧
        (ts ++ [t]).splitBy sameGroup = gs ++ [u :: g ++ [t]] := by
  by_cases hnil : ts = []
  · exact .inl (by simp [hnil, List.splitBy, List.splitBy.loop])
  by_cases hlast : sameGroup (ts.getLast hnil) t
  · right
    have hne : ts.splitBy sameGroup ≠ [] := splitBy_ne_nil.mpr hnil
    obtain ⟨gs, g, hsplit⟩ : ∃ gs g, ts.splitBy sameGroup = gs ++ [g] :=
      ⟨_, _, (dropLast_append_getLast hne).symm⟩
    have hmem : g ∈ ts.splitBy sameGroup := by simp [hsplit]
    obtain ⟨u, g, rfl⟩ := exists_cons_of_ne_nil (ne_nil_of_mem_splitBy hmem)
    have hgetLast : (u :: g).getLast (by simp) = ts.getLast hnil := by
      have := getLast_getLast_splitBy sameGroup hnil
      simpa [hsplit] using this
    have hut : sameGroup u t := by
      rcases mem_cons.mp (getLast_mem (cons_ne_nil u g)) with h | h
      · rw [← hgetLast, h] at hlast
        exact hlast
      · exact sameGroup_trans (hgetLast ▸ sameGroup_of_mem_splitBy hmem h) hlast
    refine ⟨gs, u, g, hsplit, hut, splitBy_eq_iff.mpr ⟨?_, ?_, ?_, ?_⟩⟩
    · have := flatten_splitBy sameGroup ts
      rw [hsplit] at this
      simp [← this]
    · have := nil_notMem_splitBy sameGroup ts
      simp_all
    · intro m hm
      rcases mem_append.mp hm with hm | hm
      · exact isChain_of_mem_splitBy (by simp [hsplit, hm] : m ∈ ts.splitBy sameGroup)
      · obtain rfl := mem_singleton.mp hm
        refine isChain_append.mpr ⟨isChain_of_mem_splitBy hmem, by simp, fun x hx y hy => ?_⟩
        obtain rfl : t = y := by simpa using hy
        rw [getLast?_eq_some_getLast (cons_ne_nil u g), hgetLast] at hx
        cases hx
        exact hlast
    · have hchain := isChain_getLast_head_splitBy sameGroup ts
      rw [hsplit, isChain_append] at hchain
      refine isChain_append.mpr ⟨hchain.1, by simp, fun x hx y hy => ?_⟩
      obtain rfl : u :: g ++ [t] = y := by simpa using hy
      obtain ⟨ha, hb, hfalse⟩ := hchain.2.2 x hx (u :: g) (by simp)
      exact ⟨ha, by simp, hfalse⟩
  · have happend := splitBy_append (r := sameGroup) (l := ts) (m := [t]) fun x hx y hy => by
      obtain rfl : t = y := by simpa using hy
      rw [getLast?_eq_some_getLast hnil] at hx
      cases hx
      simpa using hlast
    exact .inl happend

def passes (r : Result) : Bool := r = .success || r = .unchanged || r = .nxrrset

def change (z : Contents ρ) (p : Place) (c : Result × Node ρ) : Except Result (Contents ρ) :=
  if passes c.1 then .ok (update z p c.2) else .error c.1

def groupChange (op : Op) (rds : Rdataset ρ) (n : Node ρ) : Result × Node ρ :=
  if op.adds then n.add ⟨true, true, true⟩ rds else n.subtract true rds

def applyGroup (z : Contents ρ) : List (Tuple ρ) → Except Result (Contents ρ)
  | [] => .ok z
  | t :: ts => do
    let rds ← tordataset t ts
    let p := place t.name t.type
    change z p (groupChange t.op rds (z p))

def eachGroup (f : Contents ρ → List (Tuple ρ) → Except Result (Contents ρ)) (ts : List (Tuple ρ))
    (z : Contents ρ) : Except Result (Contents ρ) :=
  (ts.splitBy sameGroup).foldlM f z

def apply (ts : List (Tuple ρ)) (z : Contents ρ) : Except Result (Contents ρ) :=
  eachGroup applyGroup ts z

def iswildcard : Bool := name.getLast? = some [42]

variable (origin : List (List ℕ))

def loadGroup (z : Contents ρ) : List (Tuple ρ) →
    Except Result (Contents ρ)
  | [] => .ok z
  | t :: ts =>
    if t.type.base = soa && t.name ≠ origin then .error .notZoneTop
    else if iswildcard t.name && t.type.base = ns then .error .invalidNs
    else if iswildcard t.name && t.type.base = nsec3 then .error .invalidNsec3
    else do
      let rds ← tordataset t ts
      let p := place t.name t.type
      change z p ((z p).add ⟨true, false, false⟩ rds)

/-- `dns_diff_load`, into a database that is being loaded. -/
def load (ts : List (Tuple ρ)) (z : Contents ρ) :
    Except Result (Contents ρ) :=
  eachGroup (loadGroup origin) ts z

variable {z z' : Contents ρ} {t : Tuple ρ} {ts : List (Tuple ρ)} {rds : Rdataset ρ}

omit [DecidableEq ρ] in
lemma change_eq_ok {p : Place} {c : Result × Node ρ} (h : change z p c = .ok z') :
    passes c.1 ∧ z' = update z p c.2 := by
  rw [change] at h
  split_ifs at h with hpass
  exact ⟨hpass, (Except.ok.inj h).symm⟩

lemma type_tordataset (h : tordataset t ts = .ok rds) : rds.type = t.type ∧ rds.ttl = t.ttl := by
  simp only [tordataset] at h
  split_ifs at h
  cases h
  exact ⟨rfl, rfl⟩

lemma tordataset_singleton (t : Tuple ρ) :
    tordataset t [] = .ok (.single t.type t.ttl t.rdata) := by
  simp [tordataset, Rdataset.single]

lemma applyGroup_cons (h : applyGroup z (t :: ts) = .ok z') : ∃ rds, tordataset t ts = .ok rds ∧
    passes (groupChange t.op rds (z (place t.name t.type))).1 ∧
    z' = update z (place t.name t.type)
      (groupChange t.op rds (z (place t.name t.type))).2 := by
  cases hrds : tordataset t ts with
  | error e =>
    rw [applyGroup, hrds] at h
    cases h
  | ok rds =>
    rw [applyGroup, hrds] at h
    exact ⟨rds, rfl, change_eq_ok h⟩

lemma loadGroup_cons {origin : List (List ℕ)} (h : loadGroup origin z (t :: ts) = .ok z') :
    (t.type.base = soa → t.name = origin) ∧ ∃ rds, tordataset t ts = .ok rds ∧
    z' = update z (place t.name t.type)
      ((z (place t.name t.type)).add ⟨true, false, false⟩ rds).2 := by
  rw [loadGroup] at h
  split_ifs at h with htop hns hnsec3
  refine ⟨fun hsoa => by simpa [hsoa] using htop, ?_⟩
  cases hrds : tordataset t ts with
  | error e =>
    rw [hrds] at h
    cases h
  | ok rds =>
    rw [hrds] at h
    exact ⟨rds, rfl, (change_eq_ok h).2⟩

lemma find_groupChange_of_ne {op : Op} {n : Node ρ} {type : Typepair} (h : type ≠ rds.type) :
    (groupChange op rds n).2.find type = n.find type := by
  rw [groupChange]
  split_ifs
  · exact Node.find_add_of_ne h
  · exact Node.find_subtract_of_ne h

end LbBind.Diff

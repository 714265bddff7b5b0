import Mathlib.Data.Finset.Sort
import Mathlib.Data.Prod.Lex
import LbBind.Lib.Merge
import LbBind.Diff.Replay

/-! The differences between two versions of a zone (`lib/dns/journal.c`). Two iterators walk along
the names of the versions. The records of a name that only one version has are added or deleted,
and for a name that both have the records are sorted and those in both are left out. -/

namespace LbBind.Journal

open Lib Diff List
open Rbtdb (Typepair)
open Zone

variable {ρ : Type*} [LinearOrder ρ]

structure Db (ρ : Type*) where
  version : Contents ρ
  names : Bool → List (List (List ℕ))
  sorted : ∀ nsec3, (names nsec3).Pairwise (· < ·)
  complete : ∀ p, (version p).rdatasets ≠ [] → p.name ∈ names p.nsec3

def getNameDiff (z : Contents ρ) (op : Op) (p : Place) : List (Tuple ρ) :=
  (z p).rdatasets.flatMap fun s =>
    s.rdatas.sort.map fun d => ⟨op, p.name, s.ttl, tupleType s.type, d⟩

def rdataOrder (t u : Tuple ρ) : ℤ :=
  if (u.type.base : ℤ) - t.type.base ≠ 0 then (u.type.base : ℤ) - t.type.base
  else compareValues t.rdata u.rdata

variable (sorter : Sorter (Tuple ρ))

def diffSubtract (ts us : List (Tuple ρ)) : List (Tuple ρ) :=
  merge rdataOrder (fun t => [t]) (fun u => [u]) (fun t u => if t.ttl ≠ u.ttl then [t, u] else [])
    (sorter.sort rdataOrder ts) (sorter.sort rdataOrder us)

def diffNamespace (a b : Db ρ) (nsec3 : Bool) : List (Tuple ρ) :=
  merge compareValues (fun n => getNameDiff a.version .add ⟨nsec3, n⟩)
    (fun n => getNameDiff b.version .del ⟨nsec3, n⟩)
    (fun n m => diffSubtract sorter (getNameDiff a.version .add ⟨nsec3, n⟩)
      (getNameDiff b.version .del ⟨nsec3, m⟩))
    (a.names nsec3) (b.names nsec3)

/-- `dns_db_diffx`: the changes that make the first version from the second one. -/
def dbDiffx (a b : Db ρ) : List (Tuple ρ) :=
  diffNamespace sorter a b false ++ diffNamespace sorter a b true

/-- `aop` and `bop` of `ixfr_order`. -/
def deletes (t : Tuple ρ) : ℤ := if t.op.adds then 0 else 1

def isSoa (t : Tuple ρ) : ℤ := if t.type.base = Rdatatype.soa then 1 else 0

/-- `ixfr_order`: deletions come first, and SOA records before others. -/
def ixfrOrder (t u : Tuple ρ) : ℤ := if deletes u - deletes t ≠ 0 then deletes u - deletes t
  else if isSoa u - isSoa t ≠ 0 then isSoa u - isSoa t
  else (t.type.base : ℤ) - u.type.base

/-- The diff in the order in which `dns_journal_write_transaction` writes it. -/
def transactionDiff (a b : Db ρ) : List (Tuple ρ) :=
  sorter.sort ixfrOrder (dbDiffx sorter a b)

variable {z : Contents ρ} {op : Op} {p : Place} {t : Tuple ρ}

lemma mem_getNameDiff : t ∈ getNameDiff z op p ↔ t.op = op ∧ t.name = p.name ∧
    ∃ type, tupleType type = t.type ∧ (⟨p, type, t.ttl, t.rdata⟩ : Record ρ) ∈ Zone.records z := by
  simp only [getNameDiff, mem_flatMap, mem_map, Finset.mem_sort, Zone.mem_records]
  constructor
  · rintro ⟨s, hs, d, hd, rfl⟩
    exact ⟨rfl, rfl, s.type, rfl, s, ((z p).find_eq_some_iff s s.type).mpr ⟨hs, rfl⟩, rfl, hd⟩
  · rintro ⟨hop, hname, type, htype, s, hs, httl, hd⟩
    obtain ⟨hmem, rfl⟩ := ((z p).find_eq_some_iff s type).mp hs
    refine ⟨s, hmem, t.rdata, hd, ?_⟩
    obtain ⟨o, n, l, ty, d⟩ := t
    simp_all

def rdataKey (t : Tuple ρ) : ℕᵒᵈ ×ₗ ρ := toLex (OrderDual.toDual t.type.base, t.rdata)

omit [LinearOrder ρ] in
lemma rdataKey_eq_iff {t u : Tuple ρ} :
    rdataKey t = rdataKey u ↔ t.type.base = u.type.base ∧ t.rdata = u.rdata := by
  simp [rdataKey]

lemma rdataKey_lt_iff {t u : Tuple ρ} : rdataKey t < rdataKey u ↔
    u.type.base < t.type.base ∨ t.type.base = u.type.base ∧ t.rdata < u.rdata := by
  simp [rdataKey, Prod.Lex.toLex_lt_toLex]

lemma compares_rdataOrder : OrdersBy (rdataOrder (ρ := ρ)) rdataKey := by
  refine ⟨fun t u => ?_, fun t u => ?_⟩
  · rw [rdataKey_lt_iff, rdataOrder]
    split_ifs with h
    · omega
    · have hbase : t.type.base = u.type.base := by omega
      rw [compares_compareValues.neg]
      simp [hbase]
  · rw [rdataKey_lt_iff, rdataOrder]
    split_ifs with h
    · omega
    · have hbase : t.type.base = u.type.base := by omega
      rw [compares_compareValues.pos]
      simp [hbase]

def IsRecord (t : Tuple ρ) (r : Record ρ) : Prop :=
  r.place.name = t.name ∧ tupleType r.type = t.type ∧ r.ttl = t.ttl ∧ r.rdata = t.rdata

structure Kept (covers : ρ → ℕ) (z : Contents ρ) : Prop where
  free : changes.Free (Zone.records z)
  placed : ∀ r ∈ Zone.records z, r.place = place r.place.name r.type
  covered : ∀ r ∈ Zone.records z, r.type.base = Rdatatype.rrsig → r.type.covers = covers r.rdata
  once : ∀ r ∈ Zone.records z, ∀ r' ∈ Zone.records z, r.place.name = r'.place.name →
    r.type.base = r'.type.base → r.rdata = r'.rdata → r.type = r'.type
  bounded : Bounded (Zone.records z)

lemma nodup_getNameDiff {covers : ρ → ℕ} (h : Kept covers z) :
    ((getNameDiff z op p).map rdataKey).Nodup := by
  rw [getNameDiff, map_flatMap, nodup_flatMap]
  refine ⟨fun s _ => ?_, ?_⟩
  · rw [map_map]
    refine List.Nodup.map (fun d d' hd => ?_) (Finset.sort_nodup ..)
    exact (rdataKey_eq_iff.mp hd).2
  · refine (pairwise_map.mp (z p).nodup).imp_of_mem fun {s s'} hs hs' hne => ?_
    intro k hk hk'
    simp only [mem_map, Finset.mem_sort] at hk hk'
    obtain ⟨_, ⟨d, hd, rfl⟩, rfl⟩ := hk
    obtain ⟨_, ⟨d', hd', rfl⟩, heq⟩ := hk'
    obtain ⟨hbase, rfl⟩ := rdataKey_eq_iff.mp heq
    have hmem : ∀ s ∈ (z p).rdatasets, ∀ d ∈ s.rdatas,
        (⟨p, s.type, s.ttl, d⟩ : Record ρ) ∈ Zone.records z := fun s hs d hd =>
      ⟨s, ((z p).find_eq_some_iff s s.type).mpr ⟨hs, rfl⟩, rfl, hd⟩
    exact hne (h.once _ (hmem s hs _ hd) _ (hmem s' hs' _ hd') rfl hbase.symm rfl)

end LbBind.Journal

import LbBind.Rdataslab.Resort
import LbBind.Rdataslab.Subtract

/-! DNSSEC order of slabs. On slabs in DNSSEC order `rdata_in_slab` finds what they contain and
merging and subtracting are exact. The transformation for the load balancer lays the records out in
the order of iteration; where that is another order, later lookups miss records and later merges
duplicate them. -/

namespace LbBind.Rdataslab

open Lib List Rdatatype

variable {compare : List UInt8 → List UInt8 → ℤ}

section
variable (compare)

/-- A slab that holds an rdata equal to `d` under `dns_rdata_compare`. -/
def Contains (m : Mem) (type : ℕ) (d : List UInt8) : Prop := ∃ e ∈ slabData m type, compare e d = 0

structure OrderedSlab (m : Mem) (type : ℕ) : Prop where
  wellFormed : ∃ rdatas offs, WellFormed m type rdatas offs
  nonempty : 0 < count m
  inOrder : (slabData m type).Pairwise fun a b => compare a b < 0

/-- Merging `nslab` into `oslab` neither duplicates nor misses a record. -/
structure MergesExactly (oslab nslab : Mem) (type : ℕ) : Prop where
  success : ∀ reservelen flags garbage t,
    merge compare oslab nslab reservelen type flags garbage = some (.success, some t) →
    ((slabData t.base type).Pairwise fun a b => compare a b ≠ 0) ∧
      ∀ d, Contains compare t.base type d ↔
        Contains compare oslab type d ∨ Contains compare nslab type d
  unchanged : ∀ reservelen flags garbage,
    merge compare oslab nslab reservelen type flags garbage = some (.unchanged, none) →
    ∀ d, Contains compare nslab type d → Contains compare oslab type d

/-- Subtracting `sslab` from `mslab` neither duplicates nor misses a record. -/
structure SubtractsExactly (mslab sslab : Mem) (type : ℕ) : Prop where
  success : ∀ reservelen flags garbage t,
    subtract compare mslab sslab reservelen type flags garbage = some (.success, some t) →
    ((slabData t.base type).Pairwise fun a b => compare a b ≠ 0) ∧
      ∀ d, Contains compare t.base type d ↔
        Contains compare mslab type d ∧ ¬Contains compare sslab type d
  unchanged : ∀ reservelen flags garbage,
    subtract compare mslab sslab reservelen type flags garbage = some (.unchanged, none) →
    ∀ d, Contains compare mslab type d → ¬Contains compare sslab type d
  nxrrset : ∀ reservelen flags garbage,
    subtract compare mslab sslab reservelen type flags garbage = some (.nxrrset, none) →
    ∀ d, Contains compare mslab type d → Contains compare sslab type d

/-- What the rest of the code relies on: the slab is in DNSSEC order,
`rdata_in_slab` is right about it, and merging and subtracting it are exact. -/
structure Usable (m : Mem) (type : ℕ) : Prop where
  inOrder : (slabData m type).Pairwise fun a b => compare a b < 0
  finds : ∀ x, rdataInSlab compare m type x ↔ Contains compare m type x.data
  merges : ∀ n, OrderedSlab compare n type →
    MergesExactly compare m n type ∧ MergesExactly compare n m type
  subtracts : ∀ n, OrderedSlab compare n type →
    SubtractsExactly compare m n type ∧ SubtractsExactly compare n m type

end

variable {m : Mem} {type : ℕ} {rdatas : List Rdata} {offs : List ℕ}

lemma WellFormed.contains_iff (h : WellFormed m type rdatas offs) (d : List UInt8) :
    Contains compare m type d ↔ ∃ r ∈ rdatas, compare r.data d = 0 := by
  simp [Contains, h.slabData_eq]

lemma pairwise_ne_of_lt {l : List (List UInt8)} (h : l.Pairwise fun a b => compare a b < 0) :
    l.Pairwise fun a b => compare a b ≠ 0 :=
  h.imp fun hab => hab.ne

lemma WellFormed.inOrder_entries (h : WellFormed m type rdatas offs)
    (hord : (slabData m type).Pairwise fun a b => compare a b < 0) :
    InOrder compare (entries m type rdatas) := by
  rw [h.slabData_eq, pairwise_map] at hord
  rw [← map_fst_entries m type rdatas, pairwise_map] at hord
  exact hord

lemma contains_trans (hc : TotalPreorder compare) {d d' : List UInt8}
    (h : Contains compare m type d) (heq : compare d d' = 0) : Contains compare m type d' := by
  obtain ⟨e, he, hed⟩ := h
  exact ⟨e, he, hc.eq_zero_trans hed heq⟩

section
variable {oslab nslab mslab sslab : Mem} {type : ℕ} (hc : TotalPreorder compare)
include hc

lemma OrderedSlab.finds (h : OrderedSlab compare oslab type) (x : Rdata) :
    rdataInSlab compare oslab type x ↔ Contains compare oslab type x.data := by
  obtain ⟨rdatas, offs, hwf⟩ := h.wellFormed
  have hsorted := h.inOrder
  rw [hwf.slabData_eq, pairwise_map] at hsorted
  rw [hwf.layout.rdataInSlab_iff hc hsorted, hwf.contains_iff]

lemma OrderedSlab.isNew_iff (h : OrderedSlab compare oslab type) (e : Rdata × ℕ) :
    isNew compare oslab type e ↔ ¬Contains compare oslab type e.1.data := by
  rw [isNew, Bool.not_eq_true', ← Bool.not_eq_true, h.finds hc]

lemma mergedSlab_inOrder {ordatas nrdatas : List Rdata} {ooffs noffs : List ℕ}
    (ho : OrderedSlab compare oslab type) (how : WellFormed oslab type ordatas ooffs)
    (hnw : WellFormed nslab type nrdatas noffs) (hn : OrderedSlab compare nslab type) :
    InOrder compare (mergedSlab compare oslab nslab type ordatas nrdatas) := by
  refine mergedEntries_inOrder hc _ (how.inOrder_entries ho.inOrder)
    ((hnw.inOrder_entries hn.inOrder).filter _) fun a ha b hb heq => ?_
  refine (ho.isNew_iff hc b).mp (mem_filter.mp hb).2 ((how.contains_iff _).mpr ⟨a.1, ?_, heq⟩)
  exact map_fst_entries oslab type ordatas ▸ mem_map_of_mem ha

lemma OrderedSlab.remains_iff (h : OrderedSlab compare sslab type) (e : Rdata × ℕ) :
    remains compare sslab type e ↔ ¬Contains compare sslab type e.1.data := by
  obtain ⟨srdatas, soffs, hsw⟩ := h.wellFormed
  rw [remains, Bool.not_eq_true', ← Bool.not_eq_true, inSubtrahend_iff hsw.layout, hsw.contains_iff]
  simp only [show ∀ r : Rdata, compare e.1.data r.data = 0 ↔ compare r.data e.1.data = 0 from
    fun r => ⟨hc.eq_zero_symm, hc.eq_zero_symm⟩]

lemma OrderedSlab.mergesExactly (ho : OrderedSlab compare oslab type)
    (hn : OrderedSlab compare nslab type) : MergesExactly compare oslab nslab type := by
  obtain ⟨ordatas, ooffs, how⟩ := ho.wellFormed
  obtain ⟨nrdatas, noffs, hnw⟩ := hn.wellFormed
  -- a record of the new slab is in the old one or is added
  have hsplit : ∀ r ∈ nrdatas, Contains compare oslab type r.data ∨
      r ∈ (addedEntries compare oslab nslab type nrdatas).map Prod.fst := by
    intro r hr
    rw [← map_fst_entries nslab type nrdatas] at hr
    obtain ⟨e, he, rfl⟩ := mem_map.mp hr
    by_cases hin : Contains compare oslab type e.1.data
    · exact .inl hin
    · exact .inr (mem_map_of_mem (mem_filter.mpr ⟨he, (ho.isNew_iff hc e).mpr hin⟩))
  have hadded : ∀ r ∈ (addedEntries compare oslab nslab type nrdatas).map Prod.fst,
      r ∈ nrdatas := fun r hr => by
    rw [← map_fst_entries nslab type nrdatas]
    exact (filter_sublist.map Prod.fst).subset hr
  constructor
  · intro reservelen flags garbage t hmerge
    obtain ⟨region, heq, hwf⟩ := merge_spec compare rfl how hnw ho.nonempty hn.nonempty
      reservelen flags garbage
    rw [heq] at hmerge
    split_ifs at hmerge with h1 h2 h3 h4 <;>
      simp only [Option.some.injEq, Prod.mk.injEq, reduceCtorEq, false_and, true_and] at hmerge
    subst hmerge
    obtain ⟨offs, htw⟩ := (hwf (not_lt.mp h3) h4).wellFormed
    constructor
    · refine pairwise_ne_of_lt ?_
      rw [htw.slabData_eq, pairwise_map, pairwise_map]
      exact mergedSlab_inOrder hc ho how hnw hn
    · intro d
      rw [htw.contains_iff]
      simp only [mem_mergedSlab]
      constructor
      · rintro ⟨r, hr | hr, hrd⟩
        · exact .inl ((how.contains_iff d).mpr ⟨r, hr, hrd⟩)
        · exact .inr ((hnw.contains_iff d).mpr ⟨r, hadded r hr, hrd⟩)
      · rintro (h | h)
        · obtain ⟨r, hr, hrd⟩ := (how.contains_iff d).mp h
          exact ⟨r, .inl hr, hrd⟩
        · obtain ⟨r, hr, hrd⟩ := (hnw.contains_iff d).mp h
          rcases hsplit r hr with h | h
          · obtain ⟨r', hr', hrd'⟩ := (how.contains_iff d).mp (contains_trans hc h hrd)
            exact ⟨r', .inl hr', hrd'⟩
          · exact ⟨r, .inr h, hrd⟩
  · intro reservelen flags garbage hmerge d hd
    obtain ⟨region, heq, -⟩ := merge_spec compare rfl how hnw ho.nonempty hn.nonempty
      reservelen flags garbage
    rw [heq] at hmerge
    split_ifs at hmerge with h1 <;>
      simp only [Option.some.injEq, Prod.mk.injEq, reduceCtorEq, false_and] at hmerge
    obtain ⟨r, hr, hrd⟩ := (hnw.contains_iff d).mp hd
    rcases hsplit r hr with h | h
    · exact contains_trans hc h hrd
    · simp [h1.1] at h

lemma OrderedSlab.subtractsExactly (hm : OrderedSlab compare mslab type)
    (hs : OrderedSlab compare sslab type) : SubtractsExactly compare mslab sslab type := by
  obtain ⟨mrdatas, moffs, hmw⟩ := hm.wellFormed
  have hremains := hs.remains_iff hc
  have hentry : ∀ d, Contains compare mslab type d →
      ∃ e ∈ entries mslab type mrdatas, compare e.1.data d = 0 := fun d hd => by
    obtain ⟨r, hr, hrd⟩ := (hmw.contains_iff d).mp hd
    rw [← map_fst_entries mslab type mrdatas] at hr
    obtain ⟨e, he, rfl⟩ := mem_map.mp hr
    exact ⟨e, he, hrd⟩
  refine ⟨fun reservelen flags garbage t hsub => ?_, fun reservelen flags garbage hsub d hd => ?_,
    fun reservelen flags garbage hsub d hd => ?_⟩ <;>
    obtain ⟨region, heq, hwf⟩ := subtract_spec compare rfl hmw hm.nonempty hs.nonempty reservelen
      flags garbage <;>
    rw [heq] at hsub <;>
    split_ifs at hsub with h1 h2 h3 h4 <;>
    simp only [Option.some.injEq, Prod.mk.injEq, reduceCtorEq, false_and, true_and] at hsub
  · subst hsub
    obtain ⟨offs, htw⟩ := (hwf h4).wellFormed
    constructor
    · refine pairwise_ne_of_lt ?_
      rw [htw.slabData_eq, pairwise_map, pairwise_map]
      exact (hmw.inOrder_entries hm.inOrder).filter _
    · intro d
      rw [htw.contains_iff]
      constructor
      · rintro ⟨r, hr, hrd⟩
        obtain ⟨e, he, rfl⟩ := mem_map.mp hr
        obtain ⟨hmem, hrem⟩ := mem_filter.mp he
        refine ⟨(hmw.contains_iff d).mpr ⟨e.1, ?_, hrd⟩, fun hsd => (hremains e).mp hrem ?_⟩
        · exact map_fst_entries mslab type mrdatas ▸ mem_map_of_mem hmem
        · exact contains_trans hc hsd (hc.eq_zero_symm hrd)
      · rintro ⟨hd, hnot⟩
        obtain ⟨e, he, hed⟩ := hentry d hd
        refine ⟨e.1, mem_map_of_mem (mem_filter.mpr ⟨he, (hremains e).mpr fun hse => ?_⟩), hed⟩
        exact hnot (contains_trans hc hse hed)
  · obtain ⟨e, he, hed⟩ := hentry d hd
    have hrem := filter_eq_nil_iff.mp h3 e he
    rw [Bool.not_eq_true', Bool.not_eq_false] at hrem
    exact fun hsd => (hremains e).mp hrem (contains_trans hc hsd (hc.eq_zero_symm hed))
  · obtain ⟨e, he, hed⟩ := hentry d hd
    have hrem := mt (hremains e).mpr (filter_eq_nil_iff.mp h2 e he)
    exact contains_trans hc (not_not.mp hrem) hed

lemma OrderedSlab.usable (h : OrderedSlab compare mslab type) : Usable compare mslab type :=
  ⟨h.inOrder, h.finds hc, fun _ hn => ⟨h.mergesExactly hc hn, hn.mergesExactly hc h⟩,
    fun _ hn => ⟨h.subtractsExactly hc hn, hn.subtractsExactly hc h⟩⟩

end

/-- The transformation leaves a slab on which the rest of the code works if and
only if the rdataset's methods visit the records in the order in which they lie. -/
theorem transform_usable_iff (hc : TotalPreorder compare) {m : Mem} {rs : Rdataset}
    (h : OrderedSlab compare m rs.type) (addrStats : List AddrStats) : ∃ m' rs' addrStats',
      transformrdataset m rs addrStats = some (.success, m', rs', addrStats') ∧
      (Usable compare m' rs.type ↔ visitOrder m rs = recordStarts m) := by
  obtain ⟨rdatas, offs, hwf⟩ := h.wellFormed
  have hn : 1 ≤ rdatas.length := by
    have := h.nonempty
    rw [hwf.layout.count] at this
    exact this
  obtain ⟨m', htransform, hwf'⟩ := transformrdataset_wellFormed hwf hn addrStats
  refine ⟨m', _, _, htransform, ?_⟩
  have hdata : slabData m' rs.type = (visitOrder m rs).map fun s => (rdataAt m rs.type s).data := by
    rw [hwf'.slabData_eq, visited, map_map]
    rfl
  have hold := h.inOrder
  rw [slabData, pairwise_map] at hold
  constructor
  · intro husable
    have hnew := husable.inOrder
    rw [hdata, pairwise_map] at hnew
    have hperm : (visitOrder m rs).Perm (recordStarts m) := by
      rw [hwf.layout.recordStarts_eq]
      exact hwf.visitOrder_perm
    refine hperm.eq_of_pairwise (fun a b _ _ hab hba => ?_) hnew hold
    have := pos_of_sign_eq_neg (hc.antisymm _ _) hab
    omega
  · intro hvisit
    refine OrderedSlab.usable hc ⟨⟨_, _, hwf'⟩, ?_, ?_⟩
    · rw [hwf'.layout.count, hwf.length_visited]
      exact hn
    · rw [hdata, hvisit, pairwise_map]
      exact hold

def loadOrderSlab : Mem := fun q =>
  [0, 2, 0, 0, 0, 18, 0, 0, 0, 10, 0, 4, 0, 1, 10, 0, 0, 1, 0, 4, 0, 0, 10, 0, 0, 2].getD q 0

lemma loadOrderSlab_ordered : OrderedSlab regionCompare loadOrderSlab 1 := by
  refine ⟨⟨[⟨[10, 0, 0, 1], false⟩, ⟨[10, 0, 0, 2], false⟩], [18, 10], ?_⟩, by decide, by decide⟩
  exact ⟨⟨by decide, ⟨by decide, by decide⟩, ⟨by decide, by decide⟩, trivial⟩,
    ⟨by decide, by decide⟩, by decide, by simp [Fits, metaLength, rrsig], by decide⟩

theorem transform_usable_iff_loadOrderSlab : ∃ m' rs' addrStats',
    transformrdataset loadOrderSlab (tordataset 1) twoAddrStats =
      some (.success, m', rs', addrStats') ∧
    (Usable regionCompare m' 1 ↔
      visitOrder loadOrderSlab (tordataset 1) = recordStarts loadOrderSlab) :=
  transform_usable_iff regionCompare_totalPreorder loadOrderSlab_ordered twoAddrStats

def oneAddressSlab : Mem := fun q => [0, 1, 0, 0, 0, 6, 0, 4, 0, 0, 10, 0, 0, 1].getD q 0

set_option maxRecDepth 2000 in
/-- After the transformation 10.0.0.2 lies before 10.0.0.1, so `rdata_in_slab` does
not find 10.0.0.1, and merging it in again gives it twice. -/
theorem transform_breaks_order : ∃ m' rs' addrStats',
    transformrdataset loadOrderSlab (tordataset 1) twoAddrStats =
      some (.success, m', rs', addrStats') ∧
    slabData m' 1 = [[10, 0, 0, 2], [10, 0, 0, 1]] ∧
    rdataInSlab regionCompare m' 1 ⟨[10, 0, 0, 1], false⟩ = false ∧
    (merge regionCompare m' oneAddressSlab 0 1 ⟨false, false⟩ (fun _ => 0)).map
        (fun r => (r.1, r.2.map fun t => slabData t.base 1)) =
      some (.success, some [[10, 0, 0, 1], [10, 0, 0, 2], [10, 0, 0, 1]]) ∧
    ¬Usable regionCompare m' 1 := by
  refine ⟨_, _, _, rfl, by decide, by decide, by decide +kernel, fun h => ?_⟩
  exact absurd h.inOrder (by decide)

end LbBind.Rdataslab

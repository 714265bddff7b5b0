import LbBind.Rdataslab.Positions
import LbBind.Rdataslab.Reader

/-! What merging and subtracting slabs comes to: the result code, the rdata of the slab returned and
its load order. `dns_rdataslab_merge` overwrites the number of new rdata before it tests whether all
of them were added, so it never finds a merge to be inexact; and its length is an unsigned int. -/

namespace LbBind.Rdataslab

open Lib List Rdatatype
open Prod (fst mk)

variable {compare : List UInt8 → List UInt8 → ℤ}

instance (m : Mem) (type : ℕ) (d : List UInt8) : Decidable (Contains compare m type d) :=
  inferInstanceAs (Decidable (∃ e ∈ slabData m type, compare e d = 0))

def used (m : Mem) (type : ℕ) : ℕ :=
  2 + ((slabData m type).map fun d => 8 + metaLength type + d.length).sum

section
variable {m : Mem} {type : ℕ} {rdatas : List Rdata} {offs : List ℕ}

section
variable (h : WellFormed m type rdatas offs)
include h

lemma WellFormed.loadData_perm : (loadData m type).Perm (slabData m type) := by
  rw [loadData, h.offsetTable_eq, h.slabData_eq, ← map_rdataAt_starts h.layout.records]
  exact h.perm.map _

lemma WellFormed.slabData_entries :
    slabData m type = (entries m type rdatas).map fun e => e.1.data := by
  rw [h.slabData_eq]
  conv_lhs => rw [← map_fst_entries m type rdatas, map_map]
  rfl

lemma WellFormed.used_eq : used m type = endOf type (2 + rdatas.length * 4) rdatas := by
  have hsum : ∀ rs : List Rdata, ((rs.map (·.data)).map fun d => 8 + metaLength type + d.length).sum =
      rs.length * 4 + (rs.map (recordSize type)).sum := by
    intro rs
    induction rs with
    | nil => rfl
    | cons r t ih =>
      simp only [map_cons, sum_cons, length_cons, recordSize] at ih ⊢
      omega
  rw [used, h.slabData_eq, hsum, endOf]
  omega

lemma WellFormed.orderedSlab (hsorted : rdatas.Pairwise fun a b => compare a.data b.data < 0)
    (hne : rdatas ≠ []) : OrderedSlab compare m type where
  wellFormed := ⟨_, _, h⟩
  nonempty := h.layout.count ▸ length_pos_iff.mpr hne
  inOrder := by rwa [h.slabData_eq, pairwise_map]

end
end

lemma exists_wellFormed (type : ℕ) (rs : List Rdata) (hfits : ∀ r ∈ rs, Fits type r)
    (hcount : rs.length ≤ 0xffff) (hsmall : endOf type (2 + rs.length * 4) rs ≤ 2 ^ 32) :
    ∃ m offs, WellFormed m type rs offs := by
  have hlaid := putRecords_laid
    (Laid.nil (Mem.rd16_put (fun _ => 0) 0 rs.length (Nat.lt_succ_of_le hcount)) type rs.length)
    (rs.zipIdx.map fun y => ⟨some y.1, y.2⟩)
  simp only [kept_zipIdx, keptOrders_zipIdx, nil_append] at hlaid
  replace hlaid := hlaid hfits
  exact ⟨_, _, hlaid.wellFormed hfits (hlaid.stop ▸ hsmall) nodup_range' (by simp)⟩

def firstRecord : Mem := fun q => [0, 1, 0, 0, 0, 6, 0, 4, 0, 0, 10, 0, 0, 1].getD q 0

lemma firstRecord_ordered : OrderedSlab regionCompare firstRecord 1 where
  wellFormed := ⟨[⟨[10, 0, 0, 1], false⟩], [6], ⟨by decide, ⟨by decide, by decide⟩, trivial⟩,
    ⟨by decide, by decide⟩, by decide, by simp [Fits, metaLength, rrsig], by decide⟩
  nonempty := by decide
  inOrder := by decide

def secondRecord : Mem := fun q => [0, 1, 0, 0, 0, 6, 0, 4, 0, 0, 10, 0, 0, 2].getD q 0

lemma secondRecord_ordered : OrderedSlab regionCompare secondRecord 1 where
  wellFormed := ⟨[⟨[10, 0, 0, 2], false⟩], [6], ⟨by decide, ⟨by decide, by decide⟩, trivial⟩,
    ⟨by decide, by decide⟩, by decide, by simp [Fits, metaLength, rrsig], by decide⟩
  nonempty := by decide
  inOrder := by decide

lemma twoRecords_ordered : OrderedSlab regionCompare twoRecords 1 where
  wellFormed := ⟨_, _, twoRecords_wellFormed⟩
  nonempty := by decide
  inOrder := by decide

section
variable {oslab nslab garbage : Mem} {type reservelen : ℕ} {flags : Flags} {region : Region}

section
variable (compare)

def addedData (oslab nslab : Mem) (type : ℕ) : List (List UInt8) :=
  (loadData nslab type).filter fun d => !decide (Contains compare oslab type d)

def mergedOrder (oslab nslab : Mem) (type : ℕ) : List (List UInt8 × ℕ) :=
  (loadData oslab type).zipIdx ++
    ((loadData nslab type).zipIdx.filter fun x => !decide (Contains compare oslab type x.1)).map
      fun x => (x.1, count oslab + x.2)

def mergedLength (oslab nslab : Mem) (type : ℕ) : ℕ := used oslab type +
    ((addedData compare oslab nslab type).map fun d => 8 + metaLength type + d.length).sum

lemma map_fst_mergedOrder (oslab nslab : Mem) (type : ℕ) :
    (mergedOrder compare oslab nslab type).map fst =
      loadData oslab type ++ addedData compare oslab nslab type := by
  rw [mergedOrder, map_append, zipIdx_map_fst, map_map]
  exact congrArg _ (map_fst_filter_zipIdx (fun d => !decide (Contains compare oslab type d)) _ 0)

lemma pairwise_mergedOrder (oslab nslab : Mem) (type : ℕ) :
    (mergedOrder compare oslab nslab type).Pairwise fun x y => x.2 < y.2 := by
  refine pairwise_append.mpr ⟨pairwise_zipIdx _ 0, ?_, fun x hx y hy => ?_⟩
  · exact pairwise_map.mpr
      (((pairwise_zipIdx _ 0).filter _).imp fun h => Nat.add_lt_add_left h _)
  · obtain ⟨z, -, rfl⟩ := mem_map.mp hy
    have hlt := snd_lt_of_mem_zipIdx hx
    rw [length_loadData] at hlt
    omega

end

section
variable {ordatas nrdatas : List Rdata} {ooffs noffs : List ℕ} (hc : TotalPreorder compare)
  (ho : OrderedSlab compare oslab type) (how : WellFormed oslab type ordatas ooffs)
  (hnw : WellFormed nslab type nrdatas noffs)
include hc ho

lemma isNew_eq (e : Rdata × ℕ) :
    isNew compare oslab type e = !decide (Contains compare oslab type e.1.data) := by
  rw [Bool.eq_iff_iff, ho.isNew_iff hc e]
  simp

include hnw

lemma addedData_perm :
    ((addedEntries compare oslab nslab type nrdatas).map fun e => e.1.data).Perm
      (addedData compare oslab nslab type) := by
  have hperm := hnw.loadData_perm.symm.filter fun d => !decide (Contains compare oslab type d)
  rw [hnw.slabData_entries, filter_map] at hperm
  rw [addedEntries, filter_congr fun e _ => isNew_eq hc ho e]
  exact hperm

lemma addedEntries_eq_nil_iff :
    addedEntries compare oslab nslab type nrdatas = [] ↔ addedData compare oslab nslab type = [] := by
  have hlen := (addedData_perm hc ho hnw).length_eq
  rw [length_map] at hlen
  rw [← length_eq_zero_iff, ← length_eq_zero_iff, hlen]

include how

lemma length_mergedSlab_eq : (mergedSlab compare oslab nslab type ordatas nrdatas).length =
      count oslab + (addedData compare oslab nslab type).length := by
  rw [length_mergedSlab compare nslab nrdatas how, ← (addedData_perm hc ho hnw).length_eq,
    length_map]

lemma mergedLength_eq : mergedLength compare oslab nslab type =
    endOf type (2 + (mergedSlab compare oslab nslab type ordatas nrdatas).length * 4)
      ((mergedSlab compare oslab nslab type ordatas nrdatas).map fst) := by
  have hsum := ((addedData_perm hc ho hnw).map fun d => 8 + metaLength type + d.length).sum_eq
  have hsize : ∀ r : Rdata, recordSize type r + 4 = 8 + metaLength type + r.data.length := by
    intro r
    rw [recordSize]
    omega
  rw [← endOf_mergedSlab, mergedLength, used, ← hsum, how.slabData_eq]
  simp only [map_map, Function.comp_def, hsize]

lemma mem_mergedOrder (d : List UInt8) (o : ℕ) : (d, o) ∈ mergedOrder compare oslab nslab type ↔
      ∃ e ∈ mergedSlab compare oslab nslab type ordatas nrdatas, e.1.data = d ∧ e.2 = o := by
  simp only [mergedOrder, (mergedSlab_perm compare oslab nslab type ordatas nrdatas).mem_iff, mem_append,
    how.mem_loadData, mem_map, addedEntries, mem_filter, isNew_eq hc ho]
  constructor
  · rintro (⟨e, he, hd⟩ | ⟨⟨d', i⟩, ⟨hx, hnew⟩, heq⟩)
    · exact ⟨e, .inl he, hd⟩
    · cases heq
      obtain ⟨e, he, rfl, rfl⟩ := (hnw.mem_loadData d' i).mp hx
      exact ⟨_, .inr ⟨e, ⟨he, hnew⟩, rfl⟩, rfl, rfl⟩
  · rintro ⟨e, he | ⟨e, ⟨he, hnew⟩, rfl⟩, hd⟩
    · exact .inl ⟨e, he, hd⟩
    · obtain ⟨rfl, rfl⟩ := hd
      exact .inr ⟨(e.1.data, e.2), ⟨(hnw.mem_loadData _ _).mpr ⟨e, he, rfl, rfl⟩, hnew⟩, rfl⟩

end

variable (compare) in
structure IsMerge (oslab nslab : Mem) (type reservelen : ℕ) (region : Region) : Prop where
  slab : OrderedSlab compare region.base type
  contains : ∀ d, Contains compare region.base type d ↔
    Contains compare oslab type d ∨ Contains compare nslab type d
  loadorder : loadData region.base type = loadData oslab type ++ addedData compare oslab nslab type
  written : region.length = reservelen + used region.base type

lemma merge_isMerge (hc : TotalPreorder compare) (ho : OrderedSlab compare oslab type)
    (hn : OrderedSlab compare nslab type)
    (h : merge compare oslab nslab reservelen type flags garbage = some (.success, some region)) :
    IsMerge compare oslab nslab type reservelen region := by
  have hexactly := (ho.mergesExactly hc hn).success _ _ _ _ h
  obtain ⟨ordatas, ooffs, how⟩ := ho.wellFormed
  obtain ⟨nrdatas, noffs, hnw⟩ := hn.wellFormed
  obtain ⟨region', heq, hmade⟩ := merge_spec compare rfl how hnw ho.nonempty hn.nonempty reservelen flags
    garbage
  rw [heq] at h
  split_ifs at h with h1 h2 h3 h4 <;>
    simp only [Option.some.injEq, mk.injEq, reduceCtorEq, false_and, true_and] at h
  subst h
  replace hmade := hmade (not_lt.mp h3) h4
  obtain ⟨offs, hwf⟩ := hmade.wellFormed
  have hne : (mergedSlab compare oslab nslab type ordatas nrdatas).map fst ≠ [] := by
    rw [← length_pos_iff, length_map, length_mergedSlab compare nslab nrdatas how]
    have := ho.nonempty
    omega
  refine ⟨hwf.orderedSlab ?_ hne, hexactly.2, ?_, ?_⟩
  · exact pairwise_map.mpr (mergedSlab_inOrder hc ho how hnw hn)
  · rw [← map_fst_mergedOrder]
    exact hmade.loadData_eq (pairwise_mergedOrder ..) (mem_mergedOrder hc ho how hnw)
  · rw [hwf.used_eq, hmade.length_eq]

structure Headed where
  header : List UInt8
  slab : Mem

variable (compare) in
/-- `dns_rdataslab_merge` with the headers: that of the new slab is copied in front of the result.
The second part of a result is the length of the whole. -/
def mergeHeaded (oslab nslab : Headed) (type : ℕ)
    (flags : Flags) (garbage : Mem) : Option (Result × Option (Headed × ℕ)) :=
  (merge compare oslab.slab nslab.slab nslab.header.length type flags garbage).map fun x =>
    (x.1, x.2.map fun region => (⟨nslab.header, region.base⟩, region.length))

variable (compare) in
/-- The merge does what it is for: nothing new is no change, unless a slab is forced; else the slab
of both is returned under the new header. -/
def Merges (oslab nslab : Headed) (type : ℕ) (flags : Flags) (garbage : Mem) : Prop :=
  if addedData compare oslab.slab nslab.slab type = [] ∧ ¬flags.force then
    mergeHeaded compare oslab nslab type flags garbage = some (.unchanged, none)
  else
    ∃ base length, mergeHeaded compare oslab nslab type flags garbage =
        some (.success, some (⟨nslab.header, base⟩, length)) ∧
      IsMerge compare oslab.slab nslab.slab type nslab.header.length ⟨base, length⟩

lemma merge_eq (hc : TotalPreorder compare) (ho : OrderedSlab compare oslab type)
    (hn : OrderedSlab compare nslab type) (hsingle : issingleton type = false)
    (hcount : count oslab + (addedData compare oslab nslab type).length ≤ 0xffff) (reservelen : ℕ)
    (flags : Flags) (garbage : Mem) :
    ∃ region, merge compare oslab nslab reservelen type flags garbage =
      if addedData compare oslab nslab type = [] ∧ ¬flags.force then some (.unchanged, none)
      else if reservelen + mergedLength compare oslab nslab type < 2 ^ 32 then
        some (.success, some region)
      else none := by
  obtain ⟨ordatas, ooffs, how⟩ := ho.wellFormed
  obtain ⟨nrdatas, noffs, hnw⟩ := hn.wellFormed
  obtain ⟨region, heq, -⟩ := merge_spec compare rfl how hnw ho.nonempty hn.nonempty reservelen flags
    garbage
  refine ⟨region, heq.trans ?_⟩
  rw [← length_mergedSlab_eq hc ho how hnw] at hcount
  simp only [addedEntries_eq_nil_iff hc ho hnw, hsingle, Bool.false_eq_true, and_false, if_false,
    gt_iff_lt, not_lt.mpr hcount, ← mergedLength_eq hc ho how hnw]

/-- Merging is right, or has nothing to do, if and only if the length of the result fits an unsigned
int. -/
theorem mergeHeaded_iff (hc : TotalPreorder compare) {oslab nslab : Headed}
    (ho : OrderedSlab compare oslab.slab type) (hn : OrderedSlab compare nslab.slab type)
    (hsingle : issingleton type = false)
    (hcount : count oslab.slab + (addedData compare oslab.slab nslab.slab type).length ≤ 0xffff)
    (flags : Flags) (garbage : Mem) : Merges compare oslab nslab type flags garbage ↔
      (addedData compare oslab.slab nslab.slab type = [] ∧ ¬flags.force) ∨
        nslab.header.length + mergedLength compare oslab.slab nslab.slab type < 2 ^ 32 := by
  obtain ⟨region, heq⟩ := merge_eq hc ho hn hsingle hcount nslab.header.length flags garbage
  rw [Merges, mergeHeaded]
  by_cases hnone : addedData compare oslab.slab nslab.slab type = [] ∧ ¬flags.force
  · rw [if_pos hnone] at heq
    simp only [if_pos hnone, heq]
    exact ⟨fun _ => .inl hnone, fun _ => rfl⟩
  · rw [if_neg hnone] at heq
    rw [if_neg hnone, or_iff_right hnone]
    by_cases hsize : nslab.header.length + mergedLength compare oslab.slab nslab.slab type < 2 ^ 32
    · rw [if_pos hsize] at heq
      exact ⟨fun _ => hsize, fun _ => ⟨region.base, region.length, by rw [heq]; rfl,
        merge_isMerge hc ho hn heq⟩⟩
    · rw [if_neg hsize] at heq
      simpa [heq] using hsize

theorem mergeHeaded_iff_addresses :
    Merges regionCompare ⟨[1], firstRecord⟩ ⟨[2], twoRecords⟩ 1 ⟨false, false⟩ fun _ => 0 :=
  (mergeHeaded_iff regionCompare_totalPreorder firstRecord_ordered twoRecords_ordered rfl
    (by decide +kernel) _ _).mpr (.inr (by decide +kernel))

def numbered (length i : ℕ) : List UInt8 :=
  UInt8.ofNat (i / 256) :: UInt8.ofNat i :: List.replicate length 0

lemma regionCompare_numbered {i j : ℕ} (length : ℕ) (hij : i < j) (hj : j < 0x10000) :
    regionCompare (numbered length i) (numbered length j) < 0 := by
  simp only [numbered, regionCompare_cons, UInt8.lt_iff_toNat_lt, UInt8.toNat_ofNat']
  split_ifs <;> omega

lemma exists_numbered (k n length : ℕ) (hpos : 0 < n) (hlast : k + n ≤ 0x10000) (hn : n ≤ 0xffff)
    (hlength : length + 2 ≤ 0xffff) (hsmall : 2 + n * 4 + n * (length + 6) ≤ 2 ^ 32) :
    ∃ m, OrderedSlab regionCompare m 16 ∧
      slabData m 16 = (range' k n).map (numbered length) := by
  have hdata : ∀ r ∈ (range' k n).map (fun i => Rdata.mk (numbered length i) false),
      r.data.length = length + 2 := by
    intro r hr
    obtain ⟨i, -, rfl⟩ := mem_map.mp hr
    simp [numbered]
  have hsum := sum_le_card_nsmul
    (((range' k n).map fun i => Rdata.mk (numbered length i) false).map (recordSize 16))
    (length + 6) fun x hx => by
      obtain ⟨r, hr, rfl⟩ := mem_map.mp hx
      rw [recordSize, hdata r hr, show metaLength 16 = 0 from rfl]
      omega
  rw [length_map, length_map, length_range', smul_eq_mul] at hsum
  obtain ⟨m, offs, hwf⟩ := exists_wellFormed 16
    ((range' k n).map fun i => Rdata.mk (numbered length i) false)
    (fun r hr => by rw [Fits, hdata r hr]; exact hlength) (by simpa using hn)
    (by rw [endOf, length_map, length_range']; omega)
  refine ⟨m, hwf.orderedSlab ?_ ?_, ?_⟩
  · rw [pairwise_map]
    refine List.Pairwise.imp_of_mem (fun {i j} _ hj hij => ?_) pairwise_lt_range'
    rw [mem_range'_1] at hj
    exact regionCompare_numbered length hij (by omega)
  · rw [← length_pos_iff, length_map, length_range']
    exact hpos
  · rw [hwf.slabData_eq, map_map]
    rfl

lemma count_eq_of_slabData {m : Mem} (h : OrderedSlab compare m type)
    {l : List (List UInt8)} (hl : slabData m type = l) : count m = l.length := by
  obtain ⟨rdatas, offs, hwf⟩ := h.wellFormed
  rw [← hl, hwf.slabData_eq, length_map, hwf.layout.count]

lemma addedData_numbered {a b length : ℕ} (hlast : a + b ≤ 0x10000)
    (hn : OrderedSlab regionCompare nslab 16)
    (hodata : slabData oslab 16 = (range' 0 a).map (numbered length))
    (hndata : slabData nslab 16 = (range' a b).map (numbered length)) :
    (addedData regionCompare oslab nslab 16).Perm (slabData nslab 16) := by
  obtain ⟨rdatas, offs, hwf⟩ := hn.wellFormed
  refine (List.Perm.of_eq (filter_eq_self.mpr fun d hd => ?_)).trans hwf.loadData_perm
  have hd := hwf.loadData_perm.mem_iff.mp hd
  rw [hndata] at hd
  obtain ⟨j, hj, rfl⟩ := mem_map.mp hd
  rw [mem_range'_1] at hj
  rw [Bool.not_eq_true', decide_eq_false_iff_not]
  rintro ⟨e, he, heq⟩
  rw [hodata] at he
  obtain ⟨i, hi, rfl⟩ := mem_map.mp he
  rw [mem_range'_1] at hi
  exact (regionCompare_numbered length (by omega : i < j) (by omega)).ne heq

lemma sum_numbered (a b length : ℕ) :
    (((range' a b).map (numbered length)).map fun d => 8 + metaLength 16 + d.length).sum =
      b * (length + 10) := by
  have hconst : ((range' a b).map (numbered length)).map
      (fun d => 8 + metaLength 16 + d.length) = replicate b (length + 10) := by
    rw [eq_replicate_iff]
    refine ⟨by simp, fun x hx => ?_⟩
    obtain ⟨d, hd, rfl⟩ := mem_map.mp hx
    obtain ⟨i, -, rfl⟩ := mem_map.mp hd
    simp only [numbered, show metaLength 16 = 0 from rfl, length_cons, length_replicate]
    omega
  rw [hconst, sum_replicate, smul_eq_mul]

/-- Slabs of texts that need more than 32 bits for the length of both cannot be merged: the buffer
is too short. -/
lemma merge_numbered {a b length : ℕ} (hlast : a + b ≤ 0xffff) (hb : 0 < b)
    (ho : OrderedSlab regionCompare oslab 16) (hn : OrderedSlab regionCompare nslab 16)
    (hodata : slabData oslab 16 = (range' 0 a).map (numbered length))
    (hndata : slabData nslab 16 = (range' a b).map (numbered length))
    (hlarge : 2 ^ 32 ≤ 2 + a * (length + 10) + b * (length + 10)) (flags : Flags) (garbage : Mem) :
    merge regionCompare oslab nslab 0 16 flags garbage = none := by
  have hadded := addedData_numbered (by omega) hn hodata hndata
  have hlen : (addedData regionCompare oslab nslab 16).length = b := by
    rw [hadded.length_eq, hndata, length_map, length_range']
  have hsum := (hadded.map fun d => 8 + metaLength 16 + d.length).sum_eq
  rw [hndata, sum_numbered] at hsum
  have hcount := count_eq_of_slabData ho hodata
  rw [length_map, length_range'] at hcount
  obtain ⟨region, heq⟩ := merge_eq regionCompare_totalPreorder ho hn rfl (by omega) 0 flags garbage
  have hnone : ¬(addedData regionCompare oslab nslab 16 = [] ∧ ¬flags.force) := by
    rintro ⟨hnil, -⟩
    rw [hnil] at hlen
    exact hb.ne hlen
  rw [heq, if_neg hnone, if_neg]
  rw [mergedLength, used, hodata, sum_numbered, hsum]
  omega

/-- The slab of one half of the texts there can be does not go together with that of the other
half. -/
theorem mergeHeaded_halves : ∃ oslab nslab : Headed,
    OrderedSlab regionCompare oslab.slab 16 ∧ OrderedSlab regionCompare nslab.slab 16 ∧
      oslab.header = [] ∧ nslab.header = [] ∧ issingleton 16 = false ∧
      count oslab.slab + count nslab.slab ≤ 0xffff ∧
      ∀ flags garbage, mergeHeaded regionCompare oslab nslab 16 flags garbage = none := by
  obtain ⟨o, ho, hodata⟩ := exists_numbered 0 32768 65533
    (by decide) (by decide) (by decide) (by decide) (by decide)
  obtain ⟨n, hn, hndata⟩ := exists_numbered 32768 32767 65533
    (by decide) (by decide) (by decide) (by decide) (by decide)
  have hocount := count_eq_of_slabData ho hodata
  have hncount := count_eq_of_slabData hn hndata
  rw [length_map, length_range'] at hocount hncount
  refine ⟨⟨[], o⟩, ⟨[], n⟩, ho, hn, rfl, rfl, rfl, by simp only [hocount, hncount]; decide, ?_⟩
  intro flags garbage
  rw [mergeHeaded, length_nil,
    merge_numbered (by decide) (by decide) ho hn hodata hndata (by decide)]
  rfl

/-- With `EXACT` a merge is refused exactly if the slabs have an rdata in common: this holds if and
only if they have none, since the test never fails. -/
theorem merge_exact_iff (ho : OrderedSlab compare oslab type) (hn : OrderedSlab compare nslab type)
    (reservelen : ℕ) (force : Bool) (garbage : Mem) :
    ((∃ slab, merge compare oslab nslab reservelen type ⟨true, force⟩ garbage =
          some (.notExact, slab)) ↔
        ∃ d ∈ slabData nslab type, Contains compare oslab type d) ↔
      ∀ d ∈ slabData nslab type, ¬Contains compare oslab type d := by
  obtain ⟨ordatas, ooffs, how⟩ := ho.wellFormed
  obtain ⟨nrdatas, noffs, hnw⟩ := hn.wellFormed
  obtain ⟨region, heq, -⟩ := merge_spec compare rfl how hnw ho.nonempty hn.nonempty reservelen
    ⟨true, force⟩ garbage
  have hnever : ¬∃ slab, merge compare oslab nslab reservelen type ⟨true, force⟩ garbage =
      some (.notExact, slab) := by
    rintro ⟨slab, hslab⟩
    rw [heq] at hslab
    split_ifs at hslab <;> simp at hslab
  rw [iff_false_left hnever]
  push Not
  exact Iff.rfl

theorem merge_exact_iff_disjoint :
    (∃ slab, merge regionCompare firstRecord secondRecord 0 1 ⟨true, false⟩ (fun _ => 0) =
      some (.notExact, slab)) ↔ ∃ d ∈ slabData secondRecord 1, Contains regionCompare firstRecord 1 d :=
  (merge_exact_iff firstRecord_ordered secondRecord_ordered 0 false fun _ => 0).mpr (by decide)

/-- The same address is merged once more, and nothing is said of it. -/
theorem merge_exact_same : OrderedSlab regionCompare firstRecord 1 ∧
    (∃ d ∈ slabData firstRecord 1, Contains regionCompare firstRecord 1 d) ∧
    (merge regionCompare firstRecord firstRecord 0 1 ⟨true, false⟩ fun _ => 0).map fst =
      some .unchanged :=
  ⟨firstRecord_ordered, by decide, by decide +kernel⟩

end

variable {mslab sslab garbage : Mem} {type reservelen : ℕ} {flags : Flags} {region : Region}

lemma length_le_of_matched (hc : TotalPreorder compare) {l l' : List (List UInt8)}
    (h : l.Pairwise fun a b => compare a b ≠ 0) (hmatch : ∀ a ∈ l, ∃ b ∈ l', compare b a = 0) :
    l.length ≤ l'.length := by
  choose! f hf using hmatch
  have hnodup : (l.map f).Nodup := by
    refine pairwise_map.mpr (h.imp_of_mem fun {a b} ha hb hab heq => hab ?_)
    have hfb := (hf b hb).2
    rw [← heq] at hfb
    exact hc.eq_zero_trans (hc.eq_zero_symm (hf a ha).2) hfb
  have hsub : l.map f ⊆ l' := by
    intro x hx
    obtain ⟨a, ha, rfl⟩ := mem_map.mp hx
    exact (hf a ha).1
  simpa using (subperm_of_subset hnodup hsub).length_le

variable (compare) in
lemma endOf_remaining_le (sslab : Mem) (mrdatas : List Rdata) :
    endOf type (2 + (remainingEntries compare mslab sslab type mrdatas).length * 4)
        ((remainingEntries compare mslab sslab type mrdatas).map fst) ≤
      endOf type (2 + mrdatas.length * 4) mrdatas := by
  have hsub := (filter_sublist (p := remains compare sslab type)
    (l := entries mslab type mrdatas)).map fst
  rw [← remainingEntries, map_fst_entries] at hsub
  have hlen := hsub.length_le
  have hsum := (hsub.map (recordSize type)).sum_le_sum fun _ _ => Nat.zero_le _
  rw [length_map] at hlen
  rw [endOf, endOf]
  omega

section
variable {mrdatas : List Rdata} {moffs : List ℕ} (hc : TotalPreorder compare)
  (hm : OrderedSlab compare mslab type) (hs : OrderedSlab compare sslab type)
  (hmw : WellFormed mslab type mrdatas moffs)
include hc hs

lemma remains_eq (e : Rdata × ℕ) :
    remains compare sslab type e = !decide (Contains compare sslab type e.1.data) := by
  rw [Bool.eq_iff_iff, hs.remains_iff hc e]
  simp

include hmw

lemma remainingEntries_data :
    (remainingEntries compare mslab sslab type mrdatas).map (fun e => e.1.data) =
      (slabData mslab type).filter fun d => !decide (Contains compare sslab type d) := by
  rw [remainingEntries, filter_congr fun e _ => remains_eq hc hs e, hmw.slabData_entries,
    filter_map]
  rfl

lemma removedEntries_data :
    (removedEntries compare mslab sslab type mrdatas).map (fun e => e.1.data) =
      (slabData mslab type).filter fun d => decide (Contains compare sslab type d) := by
  simp only [removedEntries, remains_eq hc hs, Bool.not_not]
  rw [hmw.slabData_entries, filter_map]
  rfl

include hm

lemma length_removedEntries : (removedEntries compare mslab sslab type mrdatas).length =
    ((slabData sslab type).filter fun d => decide (Contains compare mslab type d)).length := by
  have hlen := congrArg length (removedEntries_data hc hs hmw)
  rw [length_map] at hlen
  rw [hlen]
  -- what the two slabs have in common, as the one and as the other holds it
  have hcommon : ∀ {m s : Mem}, OrderedSlab compare m type →
      ((slabData m type).filter fun d => decide (Contains compare s type d)).length ≤
        ((slabData s type).filter fun d => decide (Contains compare m type d)).length := by
    intro m s hm
    refine length_le_of_matched hc ((pairwise_ne_of_lt hm.inOrder).filter _) fun a ha => ?_
    obtain ⟨ha, hin⟩ := mem_filter.mp ha
    obtain ⟨b, hb, hba⟩ := of_decide_eq_true hin
    exact ⟨b, mem_filter.mpr ⟨hb, decide_eq_true ⟨a, ha, hc.eq_zero_symm hba⟩⟩, hba⟩
  exact (hcommon hm).antisymm (hcommon hs)

end

variable (compare) in
structure IsDifference (mslab sslab : Mem) (type reservelen : ℕ) (region : Region) : Prop where
  slab : OrderedSlab compare region.base type
  data : slabData region.base type =
    (slabData mslab type).filter fun d => !decide (Contains compare sslab type d)
  loadorder : loadData region.base type =
    (loadData mslab type).filter fun d => !decide (Contains compare sslab type d)
  written : region.length = reservelen + used region.base type

lemma subtract_isDifference (hc : TotalPreorder compare) (hm : OrderedSlab compare mslab type)
    (hs : OrderedSlab compare sslab type)
    (h : subtract compare mslab sslab reservelen type flags garbage =
      some (.success, some region)) :
    IsDifference compare mslab sslab type reservelen region := by
  obtain ⟨mrdatas, moffs, hmw⟩ := hm.wellFormed
  obtain ⟨region', heq, hmade⟩ := subtract_spec compare rfl hmw hm.nonempty hs.nonempty reservelen flags
    garbage
  rw [heq] at h
  split_ifs at h with h1 h2 h3 h4 <;>
    simp only [Option.some.injEq, mk.injEq, reduceCtorEq, false_and, true_and] at h
  subst h
  replace hmade := hmade h4
  obtain ⟨offs, hwf⟩ := hmade.wellFormed
  refine ⟨hwf.orderedSlab ?_ (by simpa using h2), ?_, ?_, ?_⟩
  · exact pairwise_map.mpr ((hmw.inOrder_entries hm.inOrder).filter _)
  · rw [hwf.slabData_eq, map_map, ← remainingEntries_data hc hs hmw]
    rfl
  · rw [← map_fst_filter_zipIdx _ _ 0]
    refine hmade.loadData_eq ((pairwise_zipIdx _ 0).filter _) fun d o => ?_
    rw [mem_filter, hmw.mem_loadData]
    simp only [remainingEntries, mem_filter, remains_eq hc hs]
    constructor
    · rintro ⟨⟨e, he, rfl, rfl⟩, hrem⟩
      exact ⟨e, ⟨he, hrem⟩, rfl, rfl⟩
    · rintro ⟨e, ⟨he, hrem⟩, rfl, rfl⟩
      exact ⟨⟨e, he, rfl, rfl⟩, hrem⟩
  · rw [hwf.used_eq, hmade.length_eq]

/-- `dns_rdataslab_subtract` on slabs in DNSSEC order of which the first lies in memory with its
header. -/
theorem subtract_eq (hc : TotalPreorder compare) (hm : OrderedSlab compare mslab type)
    (hs : OrderedSlab compare sslab type) (hsmall : reservelen + used mslab type < 2 ^ 32)
    (flags : Flags) (garbage : Mem) :
    if flags.exact ∧ ∃ d ∈ slabData sslab type, ¬Contains compare mslab type d then
      subtract compare mslab sslab reservelen type flags garbage = some (.notExact, none)
    else if ∀ d ∈ slabData mslab type, Contains compare sslab type d then
      subtract compare mslab sslab reservelen type flags garbage = some (.nxrrset, none)
    else if ∀ d ∈ slabData mslab type, ¬Contains compare sslab type d then
      subtract compare mslab sslab reservelen type flags garbage = some (.unchanged, none)
    else
      ∃ region, subtract compare mslab sslab reservelen type flags garbage =
          some (.success, some region) ∧
        IsDifference compare mslab sslab type reservelen region := by
  obtain ⟨mrdatas, moffs, hmw⟩ := hm.wellFormed
  obtain ⟨region, heq, hwf⟩ := subtract_spec compare rfl hmw hm.nonempty hs.nonempty reservelen flags
    garbage
  have hcount : (slabData sslab type).length = count sslab := by
    obtain ⟨srdatas, soffs, hsw⟩ := hs.wellFormed
    rw [hsw.slabData_eq, length_map, hsw.layout.count]
  have hexact : (removedEntries compare mslab sslab type mrdatas).length ≠ count sslab ↔
      ∃ d ∈ slabData sslab type, ¬Contains compare mslab type d := by
    rw [length_removedEntries hc hm hs hmw, ← hcount, Ne, length_filter_eq_length_iff]
    simp
  have hremaining : remainingEntries compare mslab sslab type mrdatas = [] ↔
      ∀ d ∈ slabData mslab type, Contains compare sslab type d := by
    rw [← map_eq_nil_iff, remainingEntries_data hc hs hmw, filter_eq_nil_iff]
    simp
  have hremoved : removedEntries compare mslab sslab type mrdatas = [] ↔
      ∀ d ∈ slabData mslab type, ¬Contains compare sslab type d := by
    rw [← map_eq_nil_iff, removedEntries_data hc hs hmw, filter_eq_nil_iff]
    simp
  have hsize : reservelen + endOf type
      (2 + (remainingEntries compare mslab sslab type mrdatas).length * 4)
      ((remainingEntries compare mslab sslab type mrdatas).map fst) < 2 ^ 32 := by
    rw [hmw.used_eq] at hsmall
    exact lt_of_le_of_lt (Nat.add_le_add_left (endOf_remaining_le compare sslab mrdatas) _) hsmall
  simp only [hexact, hremaining, hremoved, if_pos hsize] at heq
  split_ifs with h1 h2 h3
  · rw [heq, if_pos h1]
  · rw [heq, if_neg h1, if_pos h2]
  · rw [heq, if_neg h1, if_neg h2, if_pos h3]
  · rw [if_neg h1, if_neg h2, if_neg h3] at heq
    exact ⟨region, heq, subtract_isDifference hc hm hs heq⟩

theorem subtract_eq_first : ∃ region,
    subtract regionCompare twoRecords firstRecord 0 1 ⟨true, false⟩ (fun _ => 0) =
        some (.success, some region) ∧
      IsDifference regionCompare twoRecords firstRecord 1 0 region := by
  have h := subtract_eq regionCompare_totalPreorder twoRecords_ordered firstRecord_ordered
    (show 0 + used twoRecords 1 < 2 ^ 32 by decide) ⟨true, false⟩ fun _ => 0
  rwa [if_neg (by decide), if_neg (by decide), if_neg (by decide)] at h

end LbBind.Rdataslab

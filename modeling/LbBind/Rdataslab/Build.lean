import LbBind.Rdataslab.Iterate
import Mathlib.Algebra.Order.BigOperators.Group.List
import Mathlib.Algebra.Group.Action.Defs

/-! Building slabs: `dns_rdataslab_fromrdataset` and
`dns_rdataslab_transformrdataset` lay out an array of rdata and fill the offset
table in from the order each rdata carries. Both leave a well-formed slab; the
first one in DNSSEC order, the second one in the order of iteration. -/

namespace LbBind.Rdataslab

open Lib List
open Prod (ext fst mk snd)

lemma regionCompare_nil (t : List UInt8) : regionCompare [] t = if t = [] then 0 else -1 := by
  cases t <;> simp [regionCompare, memcmp]

lemma regionCompare_cons_nil (a : UInt8) (s : List UInt8) : regionCompare (a :: s) [] = 1 := by
  simp [regionCompare, memcmp]

lemma regionCompare_cons (a b : UInt8) (s t : List UInt8) : regionCompare (a :: s) (b :: t) =
      if a < b then -1 else if b < a then 1 else regionCompare s t := by
  have hmin : (if s.length + 1 < t.length + 1 then s.length + 1 else t.length + 1) =
      (if s.length < t.length then s.length else t.length) + 1 := by split_ifs <;> omega
  simp only [regionCompare, length_cons, hmin, memcmp]
  by_cases hab : a < b
  · simp [hab]
  · by_cases hba : b < a
    all_goals simp [hab, hba]

lemma regionCompare_totalPreorder : TotalPreorder regionCompare := by
  constructor
  · intro s t
    induction s generalizing t with
    | nil =>
      cases t with
      | nil => rfl
      | cons b t => simp [regionCompare_nil, regionCompare_cons_nil]
    | cons a s ih =>
      cases t with
      | nil => simp [regionCompare_nil, regionCompare_cons_nil]
      | cons b t =>
        rw [regionCompare_cons, regionCompare_cons]
        by_cases hab : a < b
        · simp [hab, UInt8.lt_asymm hab]
        · by_cases hba : b < a
          · simp [hab, hba]
          · simpa [hab, hba] using ih t
  · intro s t u
    induction s generalizing t u with
    | nil => cases u <;> simp [regionCompare_nil]
    | cons a s ih =>
      rcases t with _ | ⟨b, t⟩
      · simp [regionCompare_cons_nil]
      rcases u with _ | ⟨c, u⟩
      · simp [regionCompare_cons_nil]
      have ih := ih t u
      simp only [regionCompare_cons, UInt8.lt_iff_toNat_lt]
      split_ifs <;> omega

lemma length_keptOrders (xs : List XRdata) : (keptOrders xs).length = (kept xs).length := by
  induction xs with
  | nil => rfl
  | cons x t ih =>
    obtain ⟨_ | r, o⟩ := x
    · exact ih
    · simp [ih]

variable {type : ℕ}

lemma Laid.wellFormed {m : Mem} {n p : ℕ} {rs : List Rdata} {orders tbl : List ℕ}
    (h : Laid m type rs.length rs orders p n tbl) (hfits : ∀ r ∈ rs, Fits type r)
    (hsmall : p ≤ 2 ^ 32) (hnodup : orders.Nodup) (hlt : ∀ o ∈ orders, o < n) :
    WellFormed (fillinOffsets tbl 0 m) type rs (tbl.filter (· ≠ 0)) := by
  have hlen : orders.length = (starts type (2 + rs.length * 4) rs).length := by
    rw [length_starts, h.length]
  have hperm : (tbl.filter (· ≠ 0)).Perm (starts type (2 + rs.length * 4) rs) := by
    rw [h.table]
    refine (filter_foldl_set_perm ?_ ?_ ?_).trans ?_
    · rwa [map_fst_zip hlen.le]
    · intro e he
      have := hlt e.1 (of_mem_zip he).1
      simp [this]
    · intro e he
      have := le_of_mem_starts type (of_mem_zip he).2
      omega
    · rw [map_snd_zip hlen.ge, filter_replicate]
      simp
  rw [h.stop] at hsmall
  rw [fillinOffsets_eq]
  obtain ⟨h1, h2⟩ := sortLoop_layout ⟨h.count, h.records⟩ hperm hsmall
  exact ⟨h1, h2, hperm, hfits, hsmall⟩

def Made (region : Region) (reservelen type n : ℕ) (es : List (Rdata × ℕ)) : Prop :=
  ∃ m p tbl, region = ⟨fillinOffsets tbl 0 m, reservelen + p⟩ ∧
    Laid m type (es.map fst).length (es.map fst) (es.map snd) p n tbl ∧
    (es.map snd).Nodup ∧ (∀ o ∈ es.map snd, o < n) ∧
    WellFormed region.base type (es.map fst) (tbl.filter (· ≠ 0))

lemma Made.wellFormed {region : Region} {reservelen n : ℕ} {es : List (Rdata × ℕ)}
    (h : Made region reservelen type n es) :
    ∃ offs, WellFormed region.base type (es.map fst) offs := by
  obtain ⟨m, p, tbl, -, -, -, -, hwf⟩ := h
  exact ⟨_, hwf⟩

section
variable {compare : List UInt8 → List UInt8 → ℤ} {a : Rdata} {order : ℕ} {t : List (Rdata × ℕ)}
  {source : Source}

lemma removeDuplicates_of_eq {b : Rdata} (h : compare a.data b.data = 0) (order border : ℕ)
    (t : List (Rdata × ℕ)) : removeDuplicates compare a order ((b, border) :: t) =
      ⟨none, order⟩ :: removeDuplicates compare b (min order border) t := by
  rw [removeDuplicates, if_pos h]
  congr 2
  split_ifs <;> omega

lemma removeDuplicates_of_ne {b : Rdata} (h : compare a.data b.data ≠ 0) (order border : ℕ)
    (t : List (Rdata × ℕ)) : removeDuplicates compare a order ((b, border) :: t) =
      ⟨some a, order⟩ :: removeDuplicates compare b border t := by
  rw [removeDuplicates, if_neg h]

lemma mem_kept_removeDuplicates {r : Rdata}
    (h : r ∈ kept (removeDuplicates compare a order t)) : r ∈ a :: t.map fst := by
  induction t generalizing a order with
  | nil => simpa [removeDuplicates, kept] using h
  | cons b t ih =>
    obtain ⟨b, border⟩ := b
    by_cases hab : compare a.data b.data = 0
    · rw [removeDuplicates_of_eq hab, kept_none] at h
      exact .tail _ (ih h)
    · rw [removeDuplicates_of_ne hab, kept_some] at h
      rcases mem_cons.mp h with rfl | h
      · simp
      · exact .tail _ (ih h)

lemma keptOrders_removeDuplicates (a : Rdata) (order : ℕ) (t : List (Rdata × ℕ)) :
    (keptOrders (removeDuplicates compare a order t)).Subperm (order :: t.map snd) := by
  induction t generalizing a order with
  | nil => exact List.Subperm.refl _
  | cons b t ih =>
    obtain ⟨b, border⟩ := b
    by_cases hab : compare a.data b.data = 0
    · rw [removeDuplicates_of_eq hab, keptOrders_none]
      refine (ih b _).trans ?_
      rcases min_choice order border with h | h <;> rw [h]
      · exact ((sublist_cons_self _ _).cons_cons _).subperm
      · exact (sublist_cons_self _ _).subperm
    · rw [removeDuplicates_of_ne hab, keptOrders_some]
      exact (subperm_cons _).mpr (ih _ _)

lemma kept_removeDuplicates_pairwise (hc : TotalPreorder compare)
    (h : (a :: t.map fst).Pairwise fun x y => compare x.data y.data ≤ 0) :
    (kept (removeDuplicates compare a order t)).Pairwise
      fun x y => compare x.data y.data < 0 := by
  induction t generalizing a order with
  | nil => simp [removeDuplicates, kept]
  | cons b t ih =>
    obtain ⟨b, border⟩ := b
    rw [map_cons, pairwise_cons] at h
    by_cases hab : compare a.data b.data = 0
    · rw [removeDuplicates_of_eq hab, kept_none]
      exact ih h.2
    · rw [removeDuplicates_of_ne hab, kept_some, pairwise_cons]
      refine ⟨fun r hr => ?_, ih h.2⟩
      have hlt : compare a.data b.data < 0 := by
        have := h.1 b (by simp)
        omega
      rcases mem_cons.mp (mem_kept_removeDuplicates hr) with rfl | hr
      · exact hlt
      · exact hc.lt_trans hlt ((pairwise_cons.mp h.2).1 r hr)

lemma exists_kept_removeDuplicates (hc : TotalPreorder compare)
    {r : Rdata} (h : r ∈ a :: t.map fst) :
    ∃ r' ∈ kept (removeDuplicates compare a order t), compare r.data r'.data = 0 := by
  induction t generalizing a order r with
  | nil =>
    rw [map_nil, mem_singleton] at h
    exact ⟨a, by simp [removeDuplicates, kept], h ▸ hc.refl _⟩
  | cons b t ih =>
    obtain ⟨b, border⟩ := b
    by_cases hab : compare a.data b.data = 0
    · rw [removeDuplicates_of_eq hab, kept_none]
      rcases mem_cons.mp h with rfl | h
      · obtain ⟨r', hr', hb⟩ := ih mem_cons_self
        exact ⟨r', hr', hc.eq_zero_trans hab hb⟩
      · exact ih h
    · rw [removeDuplicates_of_ne hab, kept_some]
      rcases mem_cons.mp h with rfl | h
      · exact ⟨r, by simp, hc.refl _⟩
      · obtain ⟨r', hr', hr⟩ := ih h
        exact ⟨r', .tail _ hr', hr⟩

variable (compare) in
structure SortedArray (source : Source) (xs : List XRdata) : Prop where
  mem : ∀ r ∈ kept xs, r ∈ source.rdatas
  orders : (keptOrders xs).Subperm (List.range source.rdatas.length)
  sorted : (kept xs).Pairwise fun x y => compare x.data y.data < 0
  covers : ∀ r ∈ source.rdatas, ∃ r' ∈ kept xs, compare r.data r'.data = 0

lemma SortedArray.nodup {xs : List XRdata} (h : SortedArray compare source xs) :
    (keptOrders xs).Nodup := by
  obtain ⟨l, hl, hsub⟩ := h.orders
  exact hl.nodup_iff.mp (nodup_range.sublist hsub)

lemma sortedArray_spec (hc : TotalPreorder compare) (qsort : Qsort (Rdata × ℕ))
    (source : Source) : SortedArray compare source (sortedArray compare qsort source) := by
  have hc' : TotalPreorder fun a b : Rdata × ℕ => compare a.1.data b.1.data :=
    ⟨fun a b => hc.antisymm _ _, fun a b c => hc.trans _ _ _⟩
  obtain ⟨hperm, hsorted⟩ := qsort.spec _ source.rdatas.zipIdx (hc'.ordersOn _)
  have hfst : ∀ r, r ∈ source.rdatas ↔
      r ∈ (qsort.sort (fun a b => compare a.1.data b.1.data) source.rdatas.zipIdx).map fst := by
    intro r
    rw [(hperm.map fst).mem_iff, zipIdx_map_fst]
  have hsnd := hperm.map snd
  rw [zipIdx_map_snd, ← range_eq_range'] at hsnd
  rw [← pairwise_map (f := fst)
    (R := fun a b : Rdata => compare a.data b.data ≤ 0)] at hsorted
  unfold sortedArray
  split <;> rename_i heq <;> rw [heq] at hfst hsnd hsorted
  · exact ⟨by simp [kept], by simp [keptOrders], by simp [kept], by simp [hfst]⟩
  · exact ⟨fun r hr => (hfst r).mpr (mem_kept_removeDuplicates hr),
      (keptOrders_removeDuplicates _ _ _).trans hsnd.subperm,
      kept_removeDuplicates_pairwise hc hsorted,
      fun r hr => exists_kept_removeDuplicates hc ((hfst r).mp hr)⟩

lemma length_filter_isSome (xs : List XRdata) :
    (xs.filter fun x => x.rdata.isSome).length = (kept xs).length := by
  induction xs with
  | nil => rfl
  | cons x t ih =>
    obtain ⟨_ | r, o⟩ := x
    · exact ih
    · simp [ih]

lemma fromrdataset_wellFormed (hc : TotalPreorder compare) {qsort : Qsort (Rdata × ℕ)}
    {reservelen : ℕ} {garbage : Mem} {region : Region}
    (h : fromrdataset compare qsort source reservelen garbage = some (.success, some region)) :
    ∃ rs offs, WellFormed region.base source.type rs offs := by
  have hspec := sortedArray_spec hc qsort source
  unfold fromrdataset at h
  simp only [length_filter_isSome] at h
  split_ifs at h with h1 h2 h3 h4 <;>
    simp only [mk.injEq, Option.some.injEq, true_and, reduceCtorEq, false_and] at h
  have hn : (kept (sortedArray compare qsort source)).length < 0x10000 := by
    have := hspec.orders.length_le
    rw [length_keptOrders, length_range] at this
    omega
  have hbuflen : bufferLength source.type reservelen (sortedArray compare qsort source) < 2 ^ 32 :=
    Nat.mod_lt _ (by decide)
  have hlaid := putRecords_laid (Laid.nil (Mem.rd16_put garbage 0 _ hn) source.type
    source.rdatas.length) _ fun r hr => source.fits r (hspec.mem r hr)
  have hput := hlaid.wellFormed (fun r hr => source.fits r (hspec.mem r hr))
    ((Nat.le_add_left _ reservelen).trans ((not_lt.mp h4).trans hbuflen.le)) hspec.nodup
    fun o ho => mem_range.mp (hspec.orders.subset ho)
  rw [← h]
  exact ⟨_, _, hput⟩

end

lemma kept_zipIdx (x : List Rdata) (k : ℕ) :
    kept ((x.zipIdx k).map fun y => ⟨some y.1, y.2⟩) = x := by
  induction x generalizing k with
  | nil => rfl
  | cons r t ih => simp [ih]

lemma keptOrders_zipIdx (x : List Rdata) (k : ℕ) :
    keptOrders ((x.zipIdx k).map fun y => ⟨some y.1, y.2⟩) = range' k x.length := by
  induction x generalizing k with
  | nil => rfl
  | cons r t ih => simp [ih, range'_succ]

lemma foldl_set_range' (l : List ℕ) (done : List ℕ) :
    ((range' done.length l.length).zip l).foldl (fun t e => t.set e.1 e.2)
      (done ++ replicate l.length 0) = done ++ l := by
  induction l generalizing done with
  | nil => simp
  | cons a t ih =>
    have := ih (done ++ [a])
    simp only [length_append, length_singleton, append_assoc] at this
    simp only [length_cons, range'_succ, zip_cons_cons, foldl_cons, replicate_succ,
      set_append_right _ _ (le_refl done.length), Nat.sub_self,
      set_cons_zero]
    simpa using this

section
variable {m : Mem} {rs : Rdataset} {rdatas : List Rdata} {offs : List ℕ}

section
variable (h : WellFormed m rs.type rdatas offs)
include h

lemma WellFormed.visitOrder_perm :
    (visitOrder m rs).Perm (starts rs.type (2 + rdatas.length * 4) rdatas) := by
  unfold visitOrder
  split_ifs
  · rw [h.layout.recordStarts_eq]
  · rw [h.offsetTable_eq]
    exact h.perm

def visited (m : Mem) (rs : Rdataset) : List Rdata := (visitOrder m rs).map (rdataAt m rs.type)

lemma WellFormed.visited_perm : ((visited m rs).map (·.data)).Perm (rdatas.map (·.data)) := by
  rw [visited, map_map, ← map_rdataAt_starts h.layout.records]
  exact h.visitOrder_perm.map _

lemma WellFormed.length_visited : (visited m rs).length = rdatas.length := by
  simpa using h.visited_perm.length_eq

lemma WellFormed.visited_fits : ∀ r ∈ visited m rs, Fits rs.type r := by
  intro r hr
  obtain ⟨r', hr', heq⟩ := mem_map.mp
    (h.visited_perm.mem_iff.mp (mem_map_of_mem (f := (·.data)) hr))
  rw [Fits, ← heq]
  exact h.fits r' hr'

end

lemma endOf_eq (type p : ℕ) (rs : List Rdata) :
    endOf type p rs = p + ((rs.map (·.data)).map fun d => 4 + metaLength type + d.length).sum := by
  rw [endOf, map_map]
  rfl

section
variable (h : WellFormed m rs.type rdatas offs)
include h

lemma WellFormed.visited_small :
    endOf rs.type (2 + (visited m rs).length * 4) (visited m rs) ≤ 2 ^ 32 := by
  rw [h.length_visited, endOf_eq, (h.visited_perm.map _).sum_eq, ← endOf_eq]
  exact h.small

lemma putRecords_visited :
    ∃ m' p, putRecords rs.type ((visited m rs).zipIdx.map fun y => ⟨some y.1, y.2⟩)
        (m.put 0 (be16 (visited m rs).length)) (2 + (visited m rs).length * 4)
        (replicate (visited m rs).length 0) =
          (m', p, starts rs.type (2 + (visited m rs).length * 4) (visited m rs)) ∧
      WellFormed (fillinOffsets (starts rs.type (2 + (visited m rs).length * 4) (visited m rs)) 0 m')
        rs.type (visited m rs) (starts rs.type (2 + (visited m rs).length * 4) (visited m rs)) := by
  have hcount : (visited m rs).length < 0x10000 := by
    rw [h.length_visited, ← h.layout.count]
    exact m.rd16_lt 0
  -- the array is numbered in order, so the table comes out as the starts
  have hlaid := putRecords_laid (Laid.nil (Mem.rd16_put m 0 _ hcount) rs.type (visited m rs).length)
    ((visited m rs).zipIdx.map fun y => ⟨some y.1, y.2⟩)
  simp only [kept_zipIdx, keptOrders_zipIdx, nil_append] at hlaid
  replace hlaid := hlaid h.visited_fits
  have htable := foldl_set_range' (starts rs.type (2 + (visited m rs).length * 4) (visited m rs)) []
  simp only [length_nil, nil_append, length_starts] at htable
  have hfilter : (starts rs.type (2 + (visited m rs).length * 4) (visited m rs)).filter (· ≠ 0) =
      starts rs.type (2 + (visited m rs).length * 4) (visited m rs) :=
    filter_eq_self.mpr fun s hs => by
      have := le_of_mem_starts _ hs
      simp only [ne_eq, decide_eq_true_eq]
      omega
  have hstarts := hlaid.table.trans htable
  have hput := hlaid.wellFormed h.visited_fits (hlaid.stop ▸ h.visited_small)
    nodup_range' (by simp)
  rw [hstarts, hfilter] at hput
  exact ⟨_, _, ext rfl (ext rfl hstarts), hput⟩

lemma transformrdataset_eq (hn : 1 ≤ rdatas.length)
    (addrStats : List AddrStats) {m' : Mem} {p : ℕ} {offsettable : List ℕ}
    (hput : putRecords rs.type ((visited m rs).zipIdx.map fun y => ⟨some y.1, y.2⟩)
      (m.put 0 (be16 (visited m rs).length)) (2 + (visited m rs).length * 4)
      (replicate (visited m rs).length 0) = (m', p, offsettable)) :
    transformrdataset m rs addrStats = some (.success, fillinOffsets offsettable 0 m',
      { rs with methods := .rdataslab, privateuint4 := 0, private5 := none },
      setOffsets addrStats offsettable) := by
  have hlen := h.length_visited
  have hcount : count m = (visited m rs).length := by rw [h.layout.count, hlen]
  obtain ⟨pointer, hvisits⟩ := h.visits
  obtain ⟨u, q, hcollect⟩ := hvisits.collect (k := count m) (by
    rw [hcount, visited, length_map])
  rw [← visited] at hcollect
  rw [transformrdataset]
  simp only [hcollect, Option.bind_eq_bind, Option.bind_some, ne_eq, not_true_eq_false, if_false]
  rw [if_neg (by omega), if_neg (by omega), hcount, hput]

lemma transformrdataset_wellFormed (hn : 1 ≤ rdatas.length) (addrStats : List AddrStats) :
    ∃ m', transformrdataset m rs addrStats =
        some (.success, m', { rs with methods := .rdataslab, privateuint4 := 0, private5 := none },
          setOffsets addrStats
            (starts rs.type (2 + (visited m rs).length * 4) (visited m rs))) ∧
      WellFormed m' rs.type (visited m rs)
        (starts rs.type (2 + (visited m rs).length * 4) (visited m rs)) := by
  obtain ⟨m', p, hput, hwf⟩ := putRecords_visited h
  exact ⟨_, transformrdataset_eq h hn addrStats hput, hwf⟩

end
end

lemma sortFromrdataset_wellFormed {m : Mem} {rdatas : List Rdata} {offs : List ℕ}
    (h : WellFormed m type rdatas offs) (rs : Rdataset) {addrStats : List AddrStats}
    (hperm : (addrStats.map (·.offset)).Perm offs) :
    WellFormed (sortFromrdataset m rs addrStats).1 type rdatas (addrStats.map (·.offset)) := by
  have hlen : addrStats.length = count m := by
    rw [h.count_eq, ← hperm.length_eq, length_map]
  obtain ⟨h1, h2⟩ := sortLoop_layout h.layout (hperm.trans h.perm) h.small
  simp only [sortFromrdataset, ← hlen, take_length]
  exact ⟨h1, h2, hperm.trans h.perm, h.fits, h.small⟩

end LbBind.Rdataslab

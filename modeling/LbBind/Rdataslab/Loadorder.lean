import LbBind.Rdataslab.Build

/-! All that `dns_rdataslab_fromrdataset` promises of a slab. Its records are in DNSSEC order, its
offset table lists them in the order of the source, and it is as long as `dns_rdataslab_size`
measures. The length is an unsigned int; when the storage takes more than 32 bits the copy runs past
the end of the buffer. -/

namespace LbBind.Rdataslab

open Lib List Prod Nat Rdatatype

def sizeLoop (m : Mem) : ℕ → ℕ → ℕ
  | 0, current => current
  | count + 1, current => sizeLoop m count (current + 2 + (m.rd16 current + 2))

def size (m : Mem) (reservelen : ℕ) : ℕ :=
  (reservelen + sizeLoop m (count m) (2 + 4 * count m)) % 2 ^ 32

/-- What `buflen` would be without the limit of an unsigned int. -/
def storage (type reservelen : ℕ) (xs : List XRdata) : ℕ :=
  reservelen + 2 + (xs.map fun x => match x.rdata with
    | none => 0
    | some r => 8 + r.data.length + metaLength type).sum

lemma sizeLoop_eq {m : Mem} {type p : ℕ} {rs : List Rdata} (h : RecordsAt m type p rs) :
    sizeLoop m rs.length p = endOf type p rs := by
  induction rs generalizing p with
  | nil => simp [sizeLoop, endOf]
  | cons r t ih =>
    have hnext := h.1.next
    rw [length_cons, sizeLoop, endOf_cons, hnext, ← ih (hnext ▸ h.2)]
    congr 1
    omega

lemma storage_eq (type reservelen : ℕ) (xs : List XRdata) :
    storage type reservelen xs = reservelen + endOf type (2 + (kept xs).length * 4) (kept xs) := by
  simp only [storage, endOf]
  induction xs with
  | nil => simp [kept]
  | cons x t ih =>
    obtain ⟨_ | r, o⟩ := x
    · simpa using ih
    · simp only [map_cons, sum_cons, kept_some, length_cons, recordSize] at ih ⊢
      omega

def firstIndex (compare : List UInt8 → List UInt8 → ℤ) (source : Source) (data : List UInt8) : ℕ :=
  source.rdatas.findIdx fun r => compare r.data data = 0

section
variable {compare : List UInt8 → List UInt8 → ℤ} {r : Rdata} {o : ℕ}

lemma order_removeDuplicates (hc : TotalPreorder compare) {a : Rdata} {order : ℕ}
    {t : List (Rdata × ℕ)} (h : (a :: t.map fst).Pairwise fun x y => compare x.data y.data ≤ 0)
    (hx : ⟨some r, o⟩ ∈ removeDuplicates compare a order t) :
    (∀ y ∈ (a, order) :: t, compare y.1.data r.data = 0 → o ≤ y.2) ∧
      ∃ y ∈ (a, order) :: t, compare y.1.data r.data = 0 ∧ y.2 = o := by
  induction t generalizing a order with
  | nil =>
    obtain ⟨rfl, rfl⟩ : r = a ∧ o = order := by simpa [removeDuplicates] using hx
    simp [hc.refl]
  | cons b t ih =>
    obtain ⟨b, border⟩ := b
    have htail := (pairwise_cons.mp h).2
    by_cases hab : compare a.data b.data = 0
    · rw [removeDuplicates_of_eq hab, mem_cons] at hx
      obtain ⟨hle, y, hy, hyr, hyo⟩ := ih htail (hx.resolve_left (by simp))
      constructor
      · intro y hy hyr
        rcases mem_cons.mp hy with rfl | hy
        · have hbr := hc.eq_zero_trans (hc.eq_zero_symm hab) hyr
          exact (hle (b, min order border) mem_cons_self hbr).trans (min_le_left _ _)
        rcases mem_cons.mp hy with rfl | hy
        · exact (hle (b, min order border) mem_cons_self hyr).trans (min_le_right _ _)
        · exact hle y (.tail _ hy) hyr
      · rcases mem_cons.mp hy with rfl | hy
        · rcases min_choice order border with hmin | hmin
          · exact ⟨(a, order), by simp, hc.eq_zero_trans hab hyr, hmin ▸ hyo⟩
          · exact ⟨(b, border), by simp, hyr, hmin ▸ hyo⟩
        · exact ⟨y, .tail _ (.tail _ hy), hyr, hyo⟩
    · have hlt : ∀ y ∈ b :: t.map fst, compare a.data y.data < 0 := by
        have hb : compare a.data b.data < 0 :=
          lt_of_le_of_ne ((pairwise_cons.mp h).1 b (by simp)) hab
        intro y hy
        rcases mem_cons.mp hy with rfl | hy
        · exact hb
        · exact hc.lt_trans hb ((pairwise_cons.mp htail).1 y hy)
      rw [removeDuplicates_of_ne hab, mem_cons] at hx
      rcases hx with heq | hx
      · obtain ⟨rfl, rfl⟩ : r = a ∧ o = order := by simpa using heq
        refine ⟨fun y hy hyr => ?_, (r, o), by simp, hc.refl _, rfl⟩
        rcases mem_cons.mp hy with rfl | hy
        · exact le_rfl
        · have hry := hlt y.1 (by simpa using mem_map_of_mem (f := fst) hy)
          rw [hc.eq_zero_symm hyr] at hry
          exact absurd hry (lt_irrefl 0)
      · obtain ⟨hle, y, hy, hyr⟩ := ih htail hx
        refine ⟨fun y hy hyr => ?_, y, .tail _ hy, hyr⟩
        rcases mem_cons.mp hy with rfl | hy
        · have hr : r ∈ kept (removeDuplicates compare b border t) := mem_filterMap.mpr ⟨_, hx, rfl⟩
          have har := hlt r (mem_kept_removeDuplicates hr)
          rw [hyr] at har
          exact absurd har (lt_irrefl 0)
        · exact hle y hy hyr

lemma order_sortedArray (hc : TotalPreorder compare) (qsort : Qsort (Rdata × ℕ))
    {source : Source} (hx : ⟨some r, o⟩ ∈ sortedArray compare qsort source) :
    o = firstIndex compare source r.data := by
  have hc' : TotalPreorder fun a b : Rdata × ℕ => compare a.1.data b.1.data :=
    ⟨fun a b => hc.antisymm _ _, fun a b c => hc.trans _ _ _⟩
  obtain ⟨hperm, hsorted⟩ := qsort.spec _ source.rdatas.zipIdx (hc'.ordersOn _)
  rw [← pairwise_map (f := fst)
    (R := fun a b : Rdata => compare a.data b.data ≤ 0)] at hsorted
  unfold sortedArray at hx
  split at hx <;> rename_i heq <;> rw [heq] at hperm hsorted
  · simp at hx
  · obtain ⟨hle, y, hy, hyr, rfl⟩ := order_removeDuplicates hc hsorted hx
    obtain ⟨hlen, hget⟩ := mem_zipIdx' (hperm.mem_iff.mp hy)
    refine ((findIdx_eq hlen).mpr ⟨by simpa [← hget] using hyr, fun k hk => ?_⟩).symm
    -- an earlier rdata that compares equal would have a smaller order
    rw [decide_eq_false_iff_not]
    intro hkr
    have hmem : (source.rdatas[k], k) ∈ source.rdatas.zipIdx := by
      rw [mk_mem_zipIdx_iff_getElem?]
      exact getElem?_eq_getElem _
    exact absurd hk (not_lt.mpr (hle _ (hperm.mem_iff.mpr hmem) hkr))

lemma mem_of_kept {xs : List XRdata} {i : ℕ} (hr : (kept xs)[i]? = some r)
    (ho : (keptOrders xs)[i]? = some o) : ⟨some r, o⟩ ∈ xs := by
  induction xs generalizing i with
  | nil => simp [kept] at hr
  | cons x t ih =>
    obtain ⟨_ | r', o'⟩ := x
    · exact .tail _ (ih hr ho)
    · cases i with
      | zero =>
        obtain ⟨rfl, rfl⟩ : r' = r ∧ o' = o := ⟨by simpa using hr, by simpa using ho⟩
        exact mem_cons_self
      | succ i => exact .tail _ (ih (by simpa using hr) (by simpa using ho))

lemma mem_of_foldl_set {es : List (ℕ × ℕ)} {tbl : List ℕ} {i v : ℕ}
    (h : (es.foldl (fun t e => t.set e.1 e.2) tbl)[i]? = some v) : (i, v) ∈ es ∨ tbl[i]? = some v := by
  induction es generalizing tbl with
  | nil => exact .inr h
  | cons e t ih =>
    rcases ih h with hmem | hget
    · exact .inl (.tail _ hmem)
    · rw [getElem?_set] at hget
      split_ifs at hget with hi
      · cases hget
        exact .inl (hi ▸ mem_cons_self)
      · exact .inr hget

lemma loadorder_filter (hc : TotalPreorder compare) {qsort : Qsort (Rdata × ℕ)} {source : Source}
    {m m' : Mem} {k p n : ℕ} {tbl : List ℕ}
    (h : Laid m source.type k (kept (sortedArray compare qsort source))
      (keptOrders (sortedArray compare qsort source)) p n tbl)
    (hm : RecordsAt m' source.type (2 + k * 4) (kept (sortedArray compare qsort source))) :
    ((tbl.filter (· ≠ 0)).map fun off => (rdataAt m' source.type off).data).Pairwise
      fun d e => firstIndex compare source d < firstIndex compare source e := by
  -- an entry that is set holds the record of which it is the order
  have hentry : ∀ i v, tbl[i]? = some v → v ≠ 0 →
      firstIndex compare source (rdataAt m' source.type v).data = i := by
    intro i v hv hne
    rw [h.table] at hv
    have hmem := (mem_of_foldl_set hv).resolve_right fun h => hne (by
      rw [getElem?_replicate] at h
      split_ifs at h
      exact (Option.some.inj h).symm)
    obtain ⟨j, hj⟩ := mem_iff_getElem?.mp hmem
    obtain ⟨ho, hs⟩ := getElem?_zip_eq_some.mp hj
    have hdata := congrArg (fun l => l[j]?) (map_rdataAt_starts hm)
    simp only [getElem?_map, hs, Option.map_some] at hdata
    obtain ⟨r, hr, hrdata⟩ := Option.map_eq_some_iff.mp hdata.symm
    rw [← hrdata, ← order_sortedArray hc qsort (mem_of_kept hr ho)]
  rw [pairwise_map, pairwise_filter, pairwise_iff_getElem]
  intro i j hi hj hij hne hne'
  rw [hentry i _ (getElem?_eq_getElem hi) (by simpa using hne),
    hentry j _ (getElem?_eq_getElem hj) (by simpa using hne')]
  exact hij

variable (compare) in
structure Stores (source : Source) (reservelen : ℕ)
    (region : Region) (rs : List Rdata) (offs : List ℕ) : Prop where
  wellFormed : WellFormed region.base source.type rs offs
  sorted : rs.Pairwise fun x y => compare x.data y.data < 0
  mem : ∀ r ∈ rs, r ∈ source.rdatas
  covers : ∀ r ∈ source.rdatas, ∃ r' ∈ rs, compare r.data r'.data = 0
  loadorder : (offs.map fun off => (rdataAt region.base source.type off).data).Pairwise
    fun d e => firstIndex compare source d < firstIndex compare source e
  written : reservelen + endOf source.type (2 + rs.length * 4) rs = region.length
  size : size region.base reservelen = region.length

lemma length_le_one_of_equal {source : Source} {rs : List Rdata}
    (hsorted : rs.Pairwise fun x y => compare x.data y.data < 0) (hmem : ∀ r ∈ rs, r ∈ source.rdatas)
    (h : ∀ r ∈ source.rdatas, ∀ r' ∈ source.rdatas, compare r.data r'.data = 0) : rs.length ≤ 1 := by
  rcases rs with _ | ⟨a, _ | ⟨b, t⟩⟩
  · simp
  · simp
  · have hlt := (pairwise_cons.mp hsorted).1 b (by simp)
    rw [h a (hmem a (by simp)) b (hmem b (by simp))] at hlt
    exact absurd hlt (lt_irrefl 0)

variable {qsort : Qsort (Rdata × ℕ)} {source : Source} {reservelen : ℕ} {garbage : Mem}

lemma putRecords_sorted {xs : List XRdata} (hspec : SortedArray compare source xs)
    (hcount : source.rdatas.length ≤ 0xffff) (garbage : Mem) :
    ∃ m tbl, putRecords source.type xs (garbage.put 0 (be16 (kept xs).length))
        (2 + (kept xs).length * 4) (replicate source.rdatas.length 0) =
      (m, endOf source.type (2 + (kept xs).length * 4) (kept xs), tbl) ∧
      Laid m source.type (kept xs).length (kept xs) (keptOrders xs)
        (endOf source.type (2 + (kept xs).length * 4) (kept xs)) source.rdatas.length tbl := by
  have hn : (kept xs).length < 0x10000 := by
    have := hspec.orders.length_le
    rw [length_keptOrders, length_range] at this
    omega
  have hlaid := putRecords_laid (Laid.nil (Mem.rd16_put garbage 0 _ hn) source.type
    source.rdatas.length) _ fun r hr => source.fits r (hspec.mem r hr)
  simp only [nil_append] at hlaid
  have hstop := hlaid.stop
  rw [hstop] at hlaid
  exact ⟨_, _, Prod.ext rfl (Prod.ext hstop rfl), hlaid⟩

lemma fromrdataset_stores (hc : TotalPreorder compare) (hcount : source.rdatas.length ≤ 0xffff)
    (hsingle : issingleton source.type →
      ∀ r ∈ source.rdatas, ∀ r' ∈ source.rdatas, compare r.data r'.data = 0)
    (hsome : source.rdatas ≠ [] ∨ source.type = 0)
    (hsmall : storage source.type reservelen (sortedArray compare qsort source) < 2 ^ 32) :
    ∃ region rs offs,
      fromrdataset compare qsort source reservelen garbage = some (.success, some region) ∧
        Stores compare source reservelen region rs offs := by
  have hspec := sortedArray_spec hc qsort source
  have hbuflen : bufferLength source.type reservelen (sortedArray compare qsort source) =
      storage source.type reservelen (sortedArray compare qsort source) := mod_eq_of_lt hsmall
  have hone : ¬((kept (sortedArray compare qsort source)).length > 1 ∧
      issingleton source.type) := by
    rintro ⟨hlt, hs⟩
    exact absurd hlt (not_lt.mpr (length_le_one_of_equal hspec.sorted hspec.mem (hsingle hs)))
  obtain ⟨m, tbl, hput, hlaid⟩ := putRecords_sorted hspec hcount garbage
  rw [storage_eq] at hsmall hbuflen
  have hwf := hlaid.wellFormed (fun r hr => source.fits r (hspec.mem r hr)) (by omega) hspec.nodup
    fun o ho => mem_range.mp (hspec.orders.subset ho)
  refine ⟨⟨fillinOffsets tbl 0 m, bufferLength source.type reservelen
    (sortedArray compare qsort source)⟩, _, _, ?_, hwf, hspec.sorted, hspec.mem, hspec.covers,
    loadorder_filter hc hlaid hwf.layout.records, hbuflen.symm, ?_⟩
  · simp only [fromrdataset, length_filter_isSome]
    rw [if_neg fun h => hsome.elim (fun hne => hne (length_eq_zero_iff.mp h.1)) h.2,
      if_neg (by omega), if_neg hone, hput]
    exact if_neg (not_lt.mpr hbuflen.ge)
  · rw [size, hwf.layout.count, mul_comm 4, sizeLoop_eq hwf.layout.records]
    exact (mod_eq_of_lt hsmall).trans hbuflen.symm

/-- An rdataset is stored as it is to be: if and only if it is not empty, unless its type is 0, and
the length of the slab fits an unsigned int. -/
theorem fromrdataset_iff (hc : TotalPreorder compare) (hcount : source.rdatas.length ≤ 0xffff)
    (hsingle : issingleton source.type →
      ∀ r ∈ source.rdatas, ∀ r' ∈ source.rdatas, compare r.data r'.data = 0) : (∃ region rs offs,
      fromrdataset compare qsort source reservelen garbage = some (.success, some region) ∧
        Stores compare source reservelen region rs offs) ↔
      (source.rdatas ≠ [] ∨ source.type = 0) ∧
        storage source.type reservelen (sortedArray compare qsort source) < 2 ^ 32 := by
  constructor
  · rintro ⟨region, rs, offs, h, -⟩
    obtain ⟨m, tbl, hput, -⟩ := putRecords_sorted (sortedArray_spec hc qsort source) hcount garbage
    simp only [fromrdataset, length_filter_isSome, hput] at h
    split_ifs at h with hempty hmany hone hlong <;> try cases h
    refine ⟨?_, ?_⟩
    · by_contra hnot
      push Not at hnot
      exact hempty ⟨by simp [hnot.1], hnot.2⟩
    · have hlt : bufferLength source.type reservelen (sortedArray compare qsort source) < 2 ^ 32 :=
        mod_lt _ (by decide)
      rw [storage_eq]
      omega
  · rintro ⟨hsome, hsmall⟩
    exact fromrdataset_stores hc hcount hsingle hsome hsmall

end

def repeatedAddress : Source where
  type := 1
  rdatas := [⟨[10, 0, 0, 2], false⟩, ⟨[10, 0, 0, 1], false⟩, ⟨[10, 0, 0, 2], false⟩]
  fits := by simp [metaLength, rrsig]

theorem fromrdataset_iff_repeated : ∃ region rs offs,
      fromrdataset regionCompare (Qsort.insertion _) repeatedAddress 0 (fun _ => 0) =
          some (.success, some region) ∧
        Stores regionCompare repeatedAddress 0 region rs offs :=
  (fromrdataset_iff regionCompare_totalPreorder (by decide) (by decide)).mpr
    ⟨by decide, by decide +kernel⟩

lemma regionCompare_eq_zero {s t : List UInt8} (h : regionCompare s t = 0) : s = t := by
  induction s generalizing t with
  | nil =>
    rw [regionCompare_nil] at h
    split_ifs at h with ht
    exact ht.symm
  | cons a s ih =>
    cases t with
    | nil => simp [regionCompare_cons_nil] at h
    | cons b t =>
      rw [regionCompare_cons] at h
      split_ifs at h with hab hba
      · omega
      · rw [ih h, UInt8.le_antisymm (UInt8.not_lt.mp hba) (UInt8.not_lt.mp hab)]

def longTexts (n length : ℕ) (h : length + 2 ≤ 0xffff) : Source where
  type := 16
  rdatas := (List.range n).map fun i =>
    ⟨UInt8.ofNat (i / 256) :: UInt8.ofNat i :: List.replicate length 0, false⟩
  fits := by
    intro r hr
    obtain ⟨i, -, rfl⟩ := mem_map.mp hr
    have hmeta : metaLength 16 = 0 := by decide
    simp only [length_cons, length_replicate, hmeta]
    omega

/-- Texts that need more than 32 bits for the length of their slab are copied past the end of the
buffer. -/
lemma fromrdataset_longTexts {n length : ℕ} (h : length + 2 ≤ 0xffff) (hn : n ≤ 0xffff)
    (hlarge : 2 ^ 32 ≤ 2 + n * 4 + n * (length + 6)) (qsort : Qsort (Rdata × ℕ)) (garbage : Mem) :
    fromrdataset regionCompare qsort (longTexts n length h) 0 garbage = none := by
  have hspec := sortedArray_spec regionCompare_totalPreorder qsort (longTexts n length h)
  have hlength : (longTexts n length h).rdatas.length = n := by simp [longTexts]
  have hdata : ∀ r ∈ (longTexts n length h).rdatas, r.data.length = length + 2 ∧
      r.offline = false := by
    intro r hr
    obtain ⟨i, -, rfl⟩ := mem_map.mp hr
    simp
  have hnodup : (longTexts n length h).rdatas.Nodup := by
    refine nodup_range.map_on fun i hi j hj heq => ?_
    simp only [Rdata.mk.injEq, cons.injEq, and_true] at heq
    have h1 := congrArg UInt8.toNat heq.1
    have h2 := congrArg UInt8.toNat heq.2
    rw [UInt8.toNat_ofNat', UInt8.toNat_ofNat'] at h1 h2
    have := mem_range.mp hi
    have := mem_range.mp hj
    omega
  -- nothing is a duplicate
  have hkept : n ≤ (kept (sortedArray regionCompare qsort (longTexts n length h))).length := by
    refine hlength.ge.trans (subperm_of_subset hnodup fun r hr => ?_).length_le
    obtain ⟨⟨d', o'⟩, hr', heq⟩ := hspec.covers r hr
    obtain ⟨d, o⟩ := r
    obtain rfl : d = d' := regionCompare_eq_zero heq
    obtain rfl : o = o' := (hdata _ hr).2.trans (hdata _ (hspec.mem _ hr')).2.symm
    exact hr'
  have hsum := card_nsmul_le_sum
    ((kept (sortedArray regionCompare qsort (longTexts n length h))).map
      (recordSize (longTexts n length h).type)) (length + 6)
    fun x hx => by
      obtain ⟨r, hr, rfl⟩ := mem_map.mp hx
      rw [recordSize, (hdata r (hspec.mem r hr)).1]
      omega
  rw [length_map, smul_eq_mul] at hsum
  have hmul := mul_le_mul_right (length + 6) hkept
  obtain ⟨m, tbl, hput, -⟩ := putRecords_sorted (sortedArray_spec regionCompare_totalPreorder qsort _)
    (hlength.trans_le hn) garbage
  have hlt : bufferLength (longTexts n length h).type 0
      (sortedArray regionCompare qsort (longTexts n length h)) < 2 ^ 32 := mod_lt _ (by decide)
  have hsingle : issingleton (longTexts n length h).type = false := rfl
  have hpos : (longTexts n length h).rdatas.length ≠ 0 := by
    rintro hzero
    rw [hlength] at hzero
    simp [hzero] at hlarge
  simp only [fromrdataset, length_filter_isSome, hput]
  rw [if_neg fun h => hpos h.1, if_neg (by omega), if_neg (by simp [hsingle]), if_pos (by
    rw [endOf]
    omega)]

/-- As many texts as there can be, each as long as it can be. -/
theorem fromrdataset_largest :
    fromrdataset regionCompare (Qsort.insertion _) (longTexts 65535 65533 (by decide)) 0
      (fun _ => 0) = none :=
  fromrdataset_longTexts (by decide) (by decide) (by decide) _ _

end LbBind.Rdataslab

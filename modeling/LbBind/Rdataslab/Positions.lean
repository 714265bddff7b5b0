import LbBind.Rdataslab.Dnssec
import LbBind.Rdataslab.Loadorder

/-! The load order of a slab that was put together from the entries of others. Offsets are noted in
a table under the order that each entry brings along; `fillin_offsets` closes the gaps, so that the
load order is that of the entries sorted by order. -/

namespace LbBind.Rdataslab

open Lib List
open Prod (fst mk snd)

section
variable {β : Type*}

lemma eq_of_mem_iff {l l' : List (β × ℕ)} (h : l.Pairwise fun x y => x.2 < y.2)
    (h' : l'.Pairwise fun x y => x.2 < y.2) (hmem : ∀ x, x ∈ l ↔ x ∈ l') : l = l' := by
  have hne : ∀ {l : List (β × ℕ)}, (l.Pairwise fun x y => x.2 < y.2) → l.Nodup := fun h =>
    h.imp fun hlt heq => absurd (congrArg snd heq) hlt.ne
  refine ((perm_ext_iff_of_nodup (hne h) (hne h')).mpr hmem).eq_of_pairwise ?_ h h'
  intro x y _ _ hxy hyx
  exact absurd hxy hyx.asymm

lemma pairwise_zipIdx (l : List β) (k : ℕ) : (l.zipIdx k).Pairwise fun x y => x.2 < y.2 := by
  rw [← pairwise_map (f := snd) (R := (· < ·)), zipIdx_map_snd]
  exact pairwise_lt_range'

lemma map_fst_filter_zipIdx (p : β → Bool) (l : List β) (k : ℕ) :
    ((l.zipIdx k).filter fun x => p x.1).map fst = l.filter p := by
  conv_rhs => rw [← zipIdx_map_fst k l, filter_map]
  rfl

variable {es : List (ℕ × ℕ)}

lemma getElem?_foldl_set {tbl : List ℕ} {e : ℕ × ℕ} (hnodup : (es.map fst).Nodup) (he : e ∈ es)
    (hlt : e.1 < tbl.length) : (es.foldl (fun t e => t.set e.1 e.2) tbl)[e.1]? = some e.2 := by
  have hkeep : ∀ (es : List (ℕ × ℕ)) (tbl : List ℕ) (i : ℕ), i ∉ es.map fst →
      (es.foldl (fun t e => t.set e.1 e.2) tbl)[i]? = tbl[i]? := by
    intro es
    induction es with
    | nil => intro tbl i _; rfl
    | cons a t ih =>
      intro tbl i hi
      rw [map_cons, mem_cons, not_or] at hi
      rw [foldl_cons, ih _ _ hi.2, getElem?_set_ne (Ne.symm hi.1)]
  induction es generalizing tbl with
  | nil => simp at he
  | cons a t ih =>
    rw [map_cons, nodup_cons] at hnodup
    rcases mem_cons.mp he with rfl | he
    · rw [foldl_cons, hkeep t _ _ hnodup.1, getElem?_set_self hlt]
    · exact ih hnodup.2 he (by simpa using hlt)

variable (tbl : List ℕ)

def tableEntries : List (ℕ × ℕ) := tbl.zipIdx.filter fun x => decide (x.1 ≠ 0)

lemma map_fst_tableEntries : (tableEntries tbl).map fst = tbl.filter (· ≠ 0) :=
  map_fst_filter_zipIdx (fun v => decide (v ≠ 0)) tbl 0

lemma pairwise_tableEntries : (tableEntries tbl).Pairwise fun x y => x.2 < y.2 :=
  (pairwise_zipIdx tbl 0).filter _

lemma mem_tableEntries {n : ℕ} (hnodup : (es.map fst).Nodup)
    (hlt : ∀ e ∈ es, e.1 < n) (hne : ∀ e ∈ es, e.2 ≠ 0) (v i : ℕ) :
    (v, i) ∈ tableEntries (es.foldl (fun t e => t.set e.1 e.2) (replicate n 0)) ↔
      (i, v) ∈ es := by
  rw [tableEntries, mem_filter, mk_mem_zipIdx_iff_getElem?, decide_eq_true_iff]
  constructor
  · rintro ⟨hv, hv0⟩
    refine (mem_of_foldl_set hv).resolve_right fun h => hv0 ?_
    rw [getElem?_replicate] at h
    split_ifs at h
    exact (Option.some.inj h).symm
  · intro hmem
    exact ⟨getElem?_foldl_set hnodup hmem (by simpa using hlt _ hmem), hne _ hmem⟩

/-- What a table holds behind its gaps: the values set, in the order of their places. -/
lemma map_filter_table (f : ℕ → β) {K : List (β × ℕ)} (hK : K.Pairwise fun x y => x.2 < y.2)
    (hmem : ∀ b i, (b, i) ∈ K ↔ ∃ v, (v, i) ∈ tableEntries tbl ∧ f v = b) :
    (tbl.filter (· ≠ 0)).map f = K.map fst := by
  have heq : (tableEntries tbl).map (fun x => (f x.1, x.2)) = K := by
    refine eq_of_mem_iff (pairwise_map.mpr (pairwise_tableEntries tbl)) hK ?_
    rintro ⟨b, i⟩
    rw [hmem b i]
    constructor
    · intro h
      obtain ⟨⟨v, j⟩, hv, heq⟩ := mem_map.mp h
      cases heq
      exact ⟨v, hv, rfl⟩
    · rintro ⟨v, hv, rfl⟩
      exact mem_map.mpr ⟨(v, i), hv, rfl⟩
  rw [← heq, map_map, ← map_fst_tableEntries, map_map]
  rfl

lemma countP_lt_of_pairwise {l : List ℕ} (h : l.Pairwise (· < ·)) {k o : ℕ}
    (hk : l[k]? = some o) : l.countP (· < o) = k := by
  induction l generalizing k with
  | nil => simp at hk
  | cons a t ih =>
    rw [pairwise_cons] at h
    cases k with
    | zero =>
      obtain rfl : a = o := by simpa using hk
      rw [countP_eq_zero]
      intro b hb
      rcases mem_cons.mp hb with rfl | hb
      · simp
      · simpa using (h.1 b hb).le
    | succ k =>
      have hk : t[k]? = some o := by simpa using hk
      have hlt := h.1 o (mem_of_getElem? hk)
      rw [countP_cons_of_pos (by simpa using hlt), ih h.2 hk]

end

def loadData (m : Mem) (type : ℕ) : List (List UInt8) :=
  (offsetTable m).map fun off => (rdataAt m type off).data

@[simp] lemma length_loadData (m : Mem) (type : ℕ) : (loadData m type).length = count m := by
  simp [loadData, offsetTable]

variable {m m' : Mem} {type : ℕ} {rdatas : List Rdata} {offs : List ℕ} {p : ℕ} {orders : List ℕ}

lemma zip_starts_data (h : RecordsAt m type p rdatas) {i s : ℕ} {r : Rdata}
    (hr : rdatas[i]? = some r) (hs : (starts type p rdatas)[i]? = some s) :
    (rdataAt m type s).data = r.data := by
  have hdata := congrArg (fun l => l[i]?) (map_rdataAt_starts h)
  simpa [getElem?_map, hr, hs] using hdata

lemma WellFormed.mem_loadData (h : WellFormed m type rdatas offs) (d : List UInt8) (i : ℕ) :
    (d, i) ∈ (loadData m type).zipIdx ↔ ∃ e ∈ entries m type rdatas, e.1.data = d ∧ e.2 = i := by
  rw [mk_mem_zipIdx_iff_getElem?, loadData, h.offsetTable_eq, getElem?_map, Option.map_eq_some_iff]
  -- the record at the `j`-th start is the `j`-th entry
  have hentry : ∀ j s : ℕ, (starts type (2 + rdatas.length * 4) rdatas)[j]? = some s →
      ∃ r, (r, m.rd16 (s + 2)) ∈ entries m type rdatas ∧ (rdataAt m type s).data = r.data := by
    intro j s hs
    have hj : j < rdatas.length := by
      simpa using (List.getElem?_eq_some_iff.mp hs).1
    refine ⟨rdatas[j], mem_iff_getElem?.mpr ⟨j, ?_⟩,
      zip_starts_data h.layout.records (getElem?_eq_getElem hj) hs⟩
    rw [entries, getElem?_zip_eq_some]
    exact ⟨getElem?_eq_getElem hj, by simp [hs]⟩
  constructor
  · rintro ⟨off, hoff, rfl⟩
    obtain ⟨hi, hget⟩ := List.getElem?_eq_some_iff.mp hoff
    obtain ⟨j, hj⟩ := mem_iff_getElem?.mp (h.perm.mem_iff.mp (mem_of_getElem? hoff))
    obtain ⟨r, hr, hdata⟩ := hentry j off hj
    exact ⟨_, hr, hdata.symm, hget ▸ h.table.order i hi⟩
  · rintro ⟨⟨r, o⟩, he, rfl, rfl⟩
    obtain ⟨j, hj⟩ := mem_iff_getElem?.mp he
    rw [entries, getElem?_zip_eq_some, getElem?_map, Option.map_eq_some_iff] at hj
    obtain ⟨hr, s, hs, ho⟩ := hj
    obtain ⟨k, hk, hks⟩ := mem_iff_getElem.mp
      (h.perm.mem_iff.mpr (mem_of_getElem? hs))
    have horder := h.table.order k hk
    rw [hks, ho] at horder
    refine ⟨s, ?_, zip_starts_data h.layout.records hr hs⟩
    rw [horder, ← hks]
    exact getElem?_eq_getElem hk

section
variable {k n : ℕ} {tbl : List ℕ} (h : Laid m type k rdatas orders p n tbl)
include h

lemma Laid.map_fst_zip : (orders.zip (starts type (2 + k * 4) rdatas)).map fst = orders :=
  List.map_fst_zip (by rw [length_starts, h.length])

variable (hnodup : orders.Nodup) (hlt : ∀ o ∈ orders, o < n)
include hnodup hlt

lemma Laid.mem_tableEntries (v i : ℕ) : (v, i) ∈ tableEntries tbl ↔
    (i, v) ∈ orders.zip (starts type (2 + k * 4) rdatas) := by
  rw [h.table]
  refine Rdataslab.mem_tableEntries ?_ ?_ ?_ v i
  · rwa [h.map_fst_zip]
  · intro e he
    exact hlt _ (of_mem_zip he).1
  · intro e he
    have := le_of_mem_starts type (of_mem_zip he).2
    omega

variable (hm : WellFormed m' type rdatas (tbl.filter (· ≠ 0)))
include hm

lemma Laid.loadData_eq (hk : k = rdatas.length) {K : List (List UInt8 × ℕ)}
    (hK : K.Pairwise fun x y => x.2 < y.2)
    (hmem : ∀ d o, (d, o) ∈ K ↔ ∃ e ∈ rdatas.zip orders, e.1.data = d ∧ e.2 = o) :
    loadData m' type = K.map fst := by
  rw [loadData, hm.offsetTable_eq]
  refine map_filter_table _ _ hK fun d o => ?_
  simp only [hmem, h.mem_tableEntries hnodup hlt]
  constructor
  · rintro ⟨⟨r, _⟩, he, rfl, rfl⟩
    obtain ⟨j, hj⟩ := mem_iff_getElem?.mp he
    obtain ⟨hr, ho⟩ := getElem?_zip_eq_some.mp hj
    have hj' : j < (starts type (2 + k * 4) rdatas).length := by
      rw [length_starts]
      exact (List.getElem?_eq_some_iff.mp hr).1
    have hs := getElem?_eq_getElem hj'
    refine ⟨_, mem_iff_getElem?.mpr ⟨j, getElem?_zip_eq_some.mpr ⟨ho, hs⟩⟩, ?_⟩
    exact zip_starts_data hm.layout.records hr (hk ▸ hs)
  · rintro ⟨s, hs, rfl⟩
    obtain ⟨j, hj⟩ := mem_iff_getElem?.mp hs
    obtain ⟨ho, hs⟩ := getElem?_zip_eq_some.mp hj
    have hj' : j < rdatas.length := h.length ▸ (List.getElem?_eq_some_iff.mp ho).1
    have hr := getElem?_eq_getElem hj'
    refine ⟨(rdatas[j], o), mem_iff_getElem?.mpr ⟨j, getElem?_zip_eq_some.mpr ⟨hr, ho⟩⟩, ?_, rfl⟩
    exact (zip_starts_data hm.layout.records hr (hk ▸ hs)).symm

lemma Laid.order_eq {o s : ℕ} (hmem : (o, s) ∈ orders.zip (starts type (2 + k * 4) rdatas)) :
    m'.rd16 (s + 2) = orders.countP (· < o) := by
  have hentries := h.mem_tableEntries hnodup hlt
  obtain ⟨j, hj⟩ := mem_iff_getElem?.mp ((hentries s o).mpr hmem)
  have hsnd : ((tableEntries tbl).map snd)[j]? = some o := by simp [hj]
  have hfst : (tbl.filter (· ≠ 0))[j]? = some s := by
    rw [← map_fst_tableEntries, getElem?_map, hj]
    rfl
  have hsorted : ((tableEntries tbl).map snd).Pairwise (· < ·) :=
    pairwise_map.mpr (pairwise_tableEntries tbl)
  have hperm : ((tableEntries tbl).map snd).Perm orders := by
    refine (perm_ext_iff_of_nodup (hsorted.imp fun h => h.ne) hnodup).mpr fun i => ?_
    rw [mem_map]
    constructor
    · rintro ⟨⟨v, _⟩, hv, rfl⟩
      exact (of_mem_zip ((hentries _ _).mp hv)).1
    · intro hi
      rw [← h.map_fst_zip] at hi
      obtain ⟨⟨_, v⟩, hv, rfl⟩ := mem_map.mp hi
      exact ⟨_, (hentries _ _).mpr hv, rfl⟩
  obtain ⟨hj', hget⟩ := List.getElem?_eq_some_iff.mp hfst
  rw [← hperm.countP_eq, countP_lt_of_pairwise hsorted hsnd, ← hget]
  exact hm.table.order j hj'

end

variable {region : Region} {reservelen n : ℕ} {es : List (Rdata × ℕ)}
  (h : Made region reservelen type n es)
include h

lemma Made.loadData_eq {K : List (List UInt8 × ℕ)} (hK : K.Pairwise fun x y => x.2 < y.2)
    (hmem : ∀ d o, (d, o) ∈ K ↔ ∃ e ∈ es, e.1.data = d ∧ e.2 = o) :
    loadData region.base type = K.map fst := by
  obtain ⟨m, p, tbl, -, hlaid, hnodup, hlt, hwf⟩ := h
  refine hlaid.loadData_eq hnodup hlt hwf rfl hK ?_
  rwa [← zip_of_prod (l := es.map fst) rfl rfl]

lemma Made.length_eq : region.length = reservelen +
    endOf type (2 + (es.map fst).length * 4) (es.map fst) := by
  obtain ⟨m, p, tbl, rfl, hlaid, -⟩ := h
  rw [hlaid.stop]

end LbBind.Rdataslab

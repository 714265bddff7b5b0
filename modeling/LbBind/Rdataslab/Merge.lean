import LbBind.Rdataslab.Build

/-! Merging two slabs, as `dns_rdataslab_merge` does: the records of the new slab that the old one
does not contain are merged into its records. What the old slab contains is decided by
`rdata_in_slab`, which stops at the first greater record. The proofs follow the cursors of the two
slabs by the entries they still have to read. -/

namespace LbBind.Rdataslab

open Lib List Nat Mem Rdatatype
open Prod (fst mk snd)

/-- `rdata_from_slab`: the rdata at `current`, where its data starts, and where the
next record starts. The `OFFLINE` flag is read from the byte after the length. -/
def rdataFromSlab (m : Mem) (type current : ℕ) : Rdata × ℕ × ℕ :=
  let length := m.rd16 current
  let tcurrent := current + 2
  if type = rrsig then
    let offline := m tcurrent &&& 0x01 != 0
    let length := (length + (2 ^ 32 - 1)) % 2 ^ 32
    let tcurrent := tcurrent + 1 + 2
    (⟨m.slice tcurrent length, offline⟩, tcurrent, tcurrent + length)
  else
    let tcurrent := tcurrent + 2
    (⟨m.slice tcurrent length, false⟩, tcurrent, tcurrent + length)

variable (compare : List UInt8 → List UInt8 → ℤ)

def rdataInSlabLoop (m : Mem) (type : ℕ) (rdata : Rdata) : ℕ → ℕ → Bool
  | 0, _ => false
  | k + 1, current =>
    let (trdata, _, current) := rdataFromSlab m type current
    let n := compare trdata.data rdata.data
    if n = 0 then true
    else if n > 0 then false -- in DNSSEC order
    else rdataInSlabLoop m type rdata k current

def rdataInSlab (m : Mem) (type : ℕ) (rdata : Rdata) : Bool :=
  rdataInSlabLoop compare m type rdata (count m) (2 + 4 * count m)

structure Item where
  rdata : Rdata
  base : ℕ
  order : ℕ
  deriving DecidableEq

/-- Read the order field and the rdata at `current`, and move on. -/
def readItem (m : Mem) (type current : ℕ) : Item × ℕ :=
  let (rdata, base, next) := rdataFromSlab m type current
  (⟨rdata, base, m.rd16 (current + 2)⟩, next)

def dataLength (m : Mem) : ℕ → ℕ → ℕ
  | 0, _ => 0
  | k + 1, current => m.rd16 current + 8 + dataLength m k (current + 2 + (m.rd16 current + 2))

/-- What is counted for the result: `nncount` of its `tcount` rdata come from the new slab. -/
structure Counting where
  tlength : ℕ
  tcount : ℕ
  nncount : ℕ
  addedSomething : Bool

/-- The loop over the `ncount` records of the new slab. -/
def countNew (oslab nslab : Mem) (type : ℕ) : ℕ → ℕ → Counting → Counting
  | 0, _, s => s
  | ncount + 1, ncurrent, s =>
    let (nrdata, _, ncurrent) := rdataFromSlab nslab type ncurrent
    countNew oslab nslab type ncount ncurrent <|
      if rdataInSlab compare oslab type nrdata then s
      else
        { tlength := s.tlength + (nrdata.data.length + 8) + metaLength type
          tcount := s.tcount + 1
          nncount := s.nncount + 1
          addedSomething := true }

/-- The `do … while (rdata_in_slab …)` loop: the next rdata of the new slab that is
not in the old one. `none` if the slab's `k` records run out or
`INSIST(norder < oncount)` fails. -/
def nextNew (oslab nslab : Mem) (type oncount : ℕ) : ℕ → ℕ → Option (Item × ℕ × ℕ)
  | 0, _ => none
  | k + 1, ncurrent =>
    let (nrdata, ncurrent) := readItem nslab type ncurrent
    if nrdata.order < oncount then
      if rdataInSlab compare oslab type nrdata.rdata then
        nextNew oslab nslab type oncount k ncurrent
      else some (nrdata, ncurrent, k)
    else none

def copyRecord (type : ℕ) (slab : Mem) (x : Item) (tslab : Mem) (tcurrent : ℕ) : Mem × ℕ :=
  let length := x.rdata.data.length + metaLength type
  let data := x.base - metaLength type
  ((tslab.put tcurrent (be16 length)).put (tcurrent + 4) (slab.slice data length),
    tcurrent + 4 + length)

/-- The variables of the merge loop. `nunread` records of the new slab lie beyond
`ncurrent`. -/
structure Merging where
  tslab : Mem
  tcurrent : ℕ
  offsettable : List ℕ
  ordata : Item
  ocurrent : ℕ
  oadded : ℕ
  nrdata : Item
  ncurrent : ℕ
  nunread : ℕ
  nadded : ℕ

def mergeLoop (oslab nslab : Mem) (type ocount oncount ncount : ℕ) : ℕ → Merging → Option Merging
  | 0, s => some s
  | k + 1, s =>
    if s.oadded < ocount ∨ s.nadded < ncount then
      let fromold : Bool := if s.oadded = ocount then false
        else if s.nadded = ncount then true
        else compare s.ordata.rdata.data s.nrdata.rdata.data < 0
      if fromold then
        let (tslab, tcurrent) := copyRecord type oslab s.ordata s.tslab s.tcurrent
        let s := { s with
          offsettable := s.offsettable.set s.ordata.order s.tcurrent
          tslab, tcurrent, oadded := s.oadded + 1 }
        if s.oadded < ocount then
          let (ordata, ocurrent) := readItem oslab type s.ocurrent
          if ordata.order < ocount then
            mergeLoop oslab nslab type ocount oncount ncount k { s with ordata, ocurrent }
          else none
        else mergeLoop oslab nslab type ocount oncount ncount k s
      else
        let (tslab, tcurrent) := copyRecord type nslab s.nrdata s.tslab s.tcurrent
        let s := { s with
          offsettable := s.offsettable.set (ocount + s.nrdata.order) s.tcurrent
          tslab, tcurrent, nadded := s.nadded + 1 }
        if s.nadded < ncount then do
          let (nrdata, ncurrent, nunread) ←
            nextNew compare oslab nslab type oncount s.nunread s.ncurrent
          mergeLoop oslab nslab type ocount oncount ncount k
            { s with nrdata, ncurrent, nunread }
        else mergeLoop oslab nslab type ocount oncount ncount k s
    else some s

/-- The first rdata of the new slab to add; if there is none, `nrdata` is not used. -/
def firstNew (oslab nslab : Mem) (type oncount ncount : ℕ) : Option (Item × ℕ × ℕ) :=
  if ncount > 0 then nextNew compare oslab nslab type oncount oncount (2 + 4 * oncount)
  else some (⟨⟨[], false⟩, 0, 0⟩, 2 + 4 * oncount, oncount)

/-- Write the new count, read the first rdata of either slab and merge the two. -/
def mergeSlabs (oslab nslab : Mem) (type tcount ncount : ℕ) (garbage : Mem) : Option Merging :=
  let ocount := count oslab
  let oncount := count nslab
  let (ordata, ocurrent) := readItem oslab type (2 + 4 * ocount)
  if ordata.order < ocount then do
    let (nrdata, ncurrent, nunread) ← firstNew compare oslab nslab type oncount ncount
    mergeLoop compare oslab nslab type ocount oncount ncount (ocount + ncount)
      { tslab := garbage.put 0 (be16 tcount)
        tcurrent := 2 + tcount * 4
        offsettable := List.replicate (ocount + oncount) 0
        ordata, ocurrent, oadded := 0, nrdata, ncurrent, nunread, nadded := 0 }
  else none

structure Flags where
  exact : Bool
  force : Bool
  deriving DecidableEq

/-- `dns_rdataslab_merge`, into a buffer that holds `garbage` beforehand; the
header of `reservelen` bytes is kept apart. `isc_mem_get` is taken to succeed;
`none` is a failed `INSIST`. -/
def merge (oslab nslab : Mem) (reservelen type : ℕ)
    (flags : Flags) (garbage : Mem) : Option (Result × Option Region) :=
  let ocount := count oslab
  let oncount := count nslab
  let ostart := 2 + 4 * ocount
  if ocount = 0 ∨ oncount = 0 then none
  else
    let olength := dataLength oslab ocount ostart
    let s := countNew compare oslab nslab type oncount (2 + 4 * oncount)
      ⟨reservelen + 2 + olength, ocount, 0, false⟩
    let tlength := s.tlength % 2 ^ 32
    let tcount := s.tcount
    let ncount := s.nncount
    if flags.exact ∧ tcount ≠ ncount + ocount then some (.notExact, none)
    else if !s.addedSomething ∧ ¬flags.force then some (.unchanged, none)
    else if tcount > 1 ∧ issingleton type then some (.singleton, none)
    else if tcount > 0xffff then some (.noSpace, none)
    else do
      let s ← mergeSlabs compare oslab nslab type tcount ncount garbage
      if reservelen + s.tcurrent = tlength then
        some (.success, some ⟨fillinOffsets s.offsettable 0 s.tslab, tlength⟩)
      else none

lemma RecordAt.rdataFromSlab {m : Mem} {type p : ℕ} {r : Rdata} (h : RecordAt m type p r) :
    (rdataFromSlab m type p).1.data = r.data ∧
      (rdataFromSlab m type p).2 = (p + 4 + metaLength type, p + recordSize type r) := by
  have hlen := h.length
  have := m.rd16_lt p
  rw [← h.data_rdataAt]
  by_cases ht : type = rrsig
  · simp only [metaLength, ht, if_true] at hlen
    simp only [Rdataslab.rdataFromSlab, rdataAt, metaLength, recordSize, ht, if_true]
    exact ⟨trivial, by simp; omega⟩
  · simp only [metaLength, ht, if_false] at hlen
    simp only [Rdataslab.rdataFromSlab, rdataAt, metaLength, recordSize, ht, if_false]
    exact ⟨trivial, by simp; omega⟩

/-- The records of `es` lie one after the other from `p` on, each with its order. -/
def EntriesAt (m : Mem) (type bound : ℕ) : ℕ → List (Rdata × ℕ) → Prop
  | _, [] => True
  | p, e :: t => (RecordAt m type p e.1 ∧ m.rd16 (p + 2) = e.2 ∧ e.2 < bound) ∧
      EntriesAt m type bound (p + recordSize type e.1) t

def entries (m : Mem) (type : ℕ) (rs : List Rdata) : List (Rdata × ℕ) :=
  rs.zip ((starts type (2 + rs.length * 4) rs).map fun s => m.rd16 (s + 2))

lemma entriesAt_zip {m : Mem} {type bound p : ℕ} {rs : List Rdata} (h : RecordsAt m type p rs)
    (hbound : ∀ s ∈ starts type p rs, m.rd16 (s + 2) < bound) :
    EntriesAt m type bound p (rs.zip ((starts type p rs).map fun s => m.rd16 (s + 2))) := by
  induction rs generalizing p with
  | nil => trivial
  | cons r t ih =>
    rw [starts, forall_mem_cons] at hbound
    exact ⟨⟨h.1, rfl, hbound.1⟩, ih h.2 hbound.2⟩

section
variable {m : Mem} {type : ℕ} {rdatas : List Rdata} {offs : List ℕ}

lemma map_fst_entries (m : Mem) (type : ℕ) (rs : List Rdata) :
    (entries m type rs).map fst = rs := by
  rw [entries, map_fst_zip (by simp)]

variable (h : WellFormed m type rdatas offs)
include h

lemma WellFormed.map_snd_entries :
    ((entries m type rdatas).map snd).Perm (range rdatas.length) := by
  rw [entries, map_snd_zip (by simp)]
  refine (h.perm.symm.map _).trans (.of_eq ?_)
  apply ext_getElem
  · simp [h.length_offs]
  · intro i h1 h2
    simp only [getElem_map, getElem_range]
    exact h.table.order i (by simpa using h1)

lemma WellFormed.entriesAt :
    EntriesAt m type rdatas.length (2 + 4 * count m) (entries m type rdatas) := by
  rw [h.layout.count, mul_comm]
  refine entriesAt_zip h.layout.records fun s hs => ?_
  have hmem : m.rd16 (s + 2) ∈ (entries m type rdatas).map snd := by
    rw [entries, map_snd_zip (by simp)]
    exact mem_map_of_mem (f := fun s => m.rd16 (s + 2)) hs
  exact mem_range.mp (h.map_snd_entries.mem_iff.mp hmem)

lemma WellFormed.length_entries :
    (entries m type rdatas).length = count m := by
  rw [h.layout.count]
  simpa using congrArg length (map_fst_entries m type rdatas)

end

variable {compare} {m : Mem} {type p : ℕ} {rs : List Rdata} {e : Rdata × ℕ}
  {es os ns : List (Rdata × ℕ)}

lemma rdataInSlabLoop_iff (hc : TotalPreorder compare) (h : RecordsAt m type p rs)
    (hsorted : rs.Pairwise fun a b => compare a.data b.data < 0) (x : Rdata) :
    rdataInSlabLoop compare m type x rs.length p = true ↔ ∃ r ∈ rs, compare r.data x.data = 0 := by
  induction rs generalizing p with
  | nil => simp [rdataInSlabLoop]
  | cons r t ih =>
    rw [pairwise_cons] at hsorted
    obtain ⟨hdata, hnext⟩ := h.1.rdataFromSlab
    simp only [length_cons, rdataInSlabLoop, hdata, hnext]
    split_ifs with h1 h2
    · simp [h1]
    · -- everything behind a greater record is greater as well
      have hnone : ∀ y ∈ t, compare y.data x.data ≠ 0 := fun y hy heq => by
        have := hc.lt_trans (hsorted.1 y hy) heq.le
        omega
      simpa [h1] using hnone
    · simp [h1, ih h.2 hsorted.2]

lemma Layout.rdataInSlab_iff (hc : TotalPreorder compare) (h : Layout m type rs)
    (hsorted : rs.Pairwise fun a b => compare a.data b.data < 0) (x : Rdata) :
    rdataInSlab compare m type x = true ↔ ∃ r ∈ rs, compare r.data x.data = 0 := by
  rw [rdataInSlab, h.count, mul_comm]
  exact rdataInSlabLoop_iff hc h.records hsorted x

lemma rdataInSlab_congr {x y : Rdata} (h : x.data = y.data) :
    rdataInSlab compare m type x = rdataInSlab compare m type y := by
  have hloop : ∀ k p, rdataInSlabLoop compare m type x k p = rdataInSlabLoop compare m type y k p := by
    intro k
    induction k with
    | zero => intro p; rfl
    | succ k ih => intro p; simp only [rdataInSlabLoop, h, ih]
  exact hloop _ _

structure IsItem (m : Mem) (type : ℕ) (x : Item) (e : Rdata × ℕ) : Prop where
  rdata : x.rdata.data = e.1.data
  base : metaLength type ≤ x.base
  data : m.slice x.base e.1.data.length = e.1.data
  order : x.order = e.2

lemma readItem_spec {bound : ℕ} {t : List (Rdata × ℕ)} (h : EntriesAt m type bound p (e :: t)) :
    IsItem m type (readItem m type p).1 e ∧ (readItem m type p).2 = p + recordSize type e.1 := by
  obtain ⟨hdata, hnext⟩ := h.1.1.rdataFromSlab
  have hrec := h.1.1.data
  simp only [readItem, hnext, and_true]
  exact ⟨hdata, le_add_left _ _, hrec, h.1.2.1⟩

lemma copyRecord_recordAt {t : Mem} {x : Item} (h : IsItem m type x e) (hfits : Fits type e.1) :
    RecordAt (copyRecord type m x t p).1 type p e.1 ∧
      (copyRecord type m x t p).2 = p + recordSize type e.1 ∧
      ∀ q < p, (copyRecord type m x t p).1 q = t q := by
  have hslice := h.data
  have hsplit : m.slice (x.base - metaLength type) (e.1.data.length + metaLength type) =
      m.slice (x.base - metaLength type) (metaLength type) ++ e.1.data := by
    rw [add_comm, slice_add, Nat.sub_add_cancel h.base, hslice]
  simp only [copyRecord, h.rdata]
  refine ⟨⟨?_, ?_⟩, by rw [recordSize]; omega, fun q hq => ?_⟩
  · rw [rd16_put_of_disjoint _ (by omega), rd16_put _ _ _ (lt_succ_of_le hfits)]
  · rw [hsplit, slice_put_inside _ (by simp)]
    simp
  · rw [put_outside _ (by omega), put_outside _ (by simp; omega)]

variable (compare) in
def isNew (oslab : Mem) (type : ℕ) (e : Rdata × ℕ) : Bool := !rdataInSlab compare oslab type e.1

lemma nextNew_spec {oslab nslab : Mem} {oncount : ℕ} {rest : List (Rdata × ℕ)}
    (h : EntriesAt nslab type oncount p es)
    (hfilter : es.filter (isNew compare oslab type) = e :: rest) :
    ∃ x p' es', nextNew compare oslab nslab type oncount es.length p = some (x, p', es'.length) ∧
      IsItem nslab type x e ∧ EntriesAt nslab type oncount p' es' ∧
      es'.filter (isNew compare oslab type) = rest := by
  induction es generalizing p with
  | nil => simp at hfilter
  | cons a t ih =>
    obtain ⟨hitem, hnext⟩ := readItem_spec h
    have hin : rdataInSlab compare oslab type (readItem nslab type p).1.rdata =
        rdataInSlab compare oslab type a.1 := rdataInSlab_congr hitem.rdata
    have horder : (readItem nslab type p).1.order < oncount := by
      rw [hitem.order]
      exact h.1.2.2
    simp only [length_cons, nextNew, if_pos horder, hin, hnext]
    by_cases ha : rdataInSlab compare oslab type a.1
    · rw [filter_cons_of_neg (by simp [isNew, ha])] at hfilter
      simpa only [ha, if_true] using ih h.2 hfilter
    · rw [filter_cons_of_pos (by simp [isNew, ha])] at hfilter
      obtain ⟨rfl, rfl⟩ := cons.inj hfilter
      exact ⟨_, _, t, by simp [ha], hitem, h.2, rfl⟩

structure OldCursor (oslab : Mem) (type ocount : ℕ) (s : Merging) (os : List (Rdata × ℕ)) :
    Prop where
  added : s.oadded + os.length = ocount
  item : ∀ e rest, os = e :: rest →
    IsItem oslab type s.ordata e ∧ EntriesAt oslab type ocount s.ocurrent rest

section
variable (compare)

structure NewCursor (oslab nslab : Mem)
    (type oncount ncount : ℕ) (s : Merging) (ns : List (Rdata × ℕ)) : Prop where
  added : s.nadded + ns.length = ncount
  item : ∀ e rest, ns = e :: rest → IsItem nslab type s.nrdata e ∧
    ∃ es, s.nunread = es.length ∧ EntriesAt nslab type oncount s.ncurrent es ∧
      es.filter (isNew compare oslab type) = rest

def takesOld (a b : Rdata × ℕ) : Bool := decide (compare a.1.data b.1.data < 0)

/-- The entries of the merged slab: those of the new slab come behind those of the
old one in the offset table. -/
def mergedEntries (ocount : ℕ) (os ns : List (Rdata × ℕ)) : List (Rdata × ℕ) :=
  List.merge os (ns.map fun e => (e.1, ocount + e.2)) (takesOld compare)

attribute [local simp] mergedEntries

lemma mergedEntries_cases (ocount : ℕ) (h : 0 < os.length + ns.length) :
    (∃ a os', os = a :: os' ∧ (∀ b ∈ ns.head?, compare a.1.data b.1.data < 0) ∧
      mergedEntries compare ocount os ns = a :: mergedEntries compare ocount os' ns) ∨
    ∃ b ns', ns = b :: ns' ∧ (∀ a ∈ os.head?, ¬compare a.1.data b.1.data < 0) ∧
      mergedEntries compare ocount os ns =
        (b.1, ocount + b.2) :: mergedEntries compare ocount os ns' := by
  rcases os with _ | ⟨a, os⟩ <;> rcases ns with _ | ⟨b, ns⟩
  · simp at h
  · exact .inr ⟨b, ns, rfl, by simp, by simp⟩
  · exact .inl ⟨a, os, rfl, by simp, by simp⟩
  · by_cases hab : compare a.1.data b.1.data < 0
    · exact .inl ⟨a, os, rfl, by simpa using hab, by simp [takesOld, hab]⟩
    · exact .inr ⟨b, ns, rfl, by simpa using hab, by simp [takesOld, hab]⟩

end

section
variable {oslab nslab : Mem} {type ocount oncount ncount k n fuel : ℕ} {s : Merging}
  {os ns : List (Rdata × ℕ)} {rs : List Rdata} {orders : List ℕ} {e : Rdata × ℕ}

variable (hl : Laid s.tslab type k rs orders s.tcurrent n s.offsettable)
include hl

lemma mergeLoop_old (fuel : ℕ) (ho : OldCursor oslab type ocount s (e :: os))
    (hn : NewCursor compare oslab nslab type oncount ncount s ns) (hfits : Fits type e.1)
    (htake : ∀ b ∈ ns.head?, compare e.1.data b.1.data < 0) :
    ∃ s', mergeLoop compare oslab nslab type ocount oncount ncount (fuel + 1) s =
        mergeLoop compare oslab nslab type ocount oncount ncount fuel s' ∧
      OldCursor oslab type ocount s' os ∧
      NewCursor compare oslab nslab type oncount ncount s' ns ∧
      Laid s'.tslab type k (rs ++ [e.1]) (orders ++ [e.2]) s'.tcurrent n s'.offsettable := by
  have hoadded := ho.added
  have hnadded := hn.added
  obtain ⟨hitem, hrest⟩ := ho.item e os rfl
  obtain ⟨hrecord, hstop, hbelow⟩ := copyRecord_recordAt (t := s.tslab) (p := s.tcurrent) hitem hfits
  have hstep := hl.step s.ordata.order hbelow hrecord
  rw [← hstop, hitem.order] at hstep
  simp only [length_cons] at hoadded
  have hfrom : (if s.oadded = ocount then false else if s.nadded = ncount then true
      else decide (compare s.ordata.rdata.data s.nrdata.rdata.data < 0)) = true := by
    rw [if_neg (by omega)]
    split_ifs with hnone
    · rfl
    · obtain ⟨b, rest, hb⟩ := exists_cons_of_length_pos (show 0 < ns.length by omega)
      rw [(hn.item b rest hb).1.rdata, hitem.rdata]
      simpa using htake b (by simp [hb])
  rw [mergeLoop, if_pos (by omega)]
  simp only [hfrom, if_true, hitem.order]
  by_cases hmore : s.oadded + 1 < ocount
  · obtain ⟨e', rest, rfl⟩ := exists_cons_of_length_pos (show 0 < os.length by omega)
    obtain ⟨hitem', hnext⟩ := readItem_spec hrest
    have horder : (readItem oslab type s.ocurrent).1.order < ocount := by
      rw [hitem'.order]
      exact hrest.1.2.2
    simp only [hmore, if_true, horder]
    refine ⟨_, rfl, ⟨by simp only [length_cons] at hoadded ⊢; omega, ?_⟩,
      ⟨hn.added, hn.item⟩, hstep⟩
    rintro e'' rest' heq
    obtain ⟨rfl, rfl⟩ := cons.inj heq
    exact ⟨hitem', hnext ▸ hrest.2⟩
  · obtain rfl : os = [] := length_eq_zero_iff.mp (by omega)
    simp only [hmore, if_false]
    exact ⟨_, rfl, ⟨by simp only [length_nil] at hoadded ⊢; omega, by simp⟩,
      ⟨hn.added, hn.item⟩, hstep⟩

lemma mergeLoop_new (fuel : ℕ) (ho : OldCursor oslab type ocount s os)
    (hn : NewCursor compare oslab nslab type oncount ncount s (e :: ns)) (hfits : Fits type e.1)
    (htake : ∀ a ∈ os.head?, ¬compare a.1.data e.1.data < 0) :
    ∃ s', mergeLoop compare oslab nslab type ocount oncount ncount (fuel + 1) s =
        mergeLoop compare oslab nslab type ocount oncount ncount fuel s' ∧
      OldCursor oslab type ocount s' os ∧
      NewCursor compare oslab nslab type oncount ncount s' ns ∧
      Laid s'.tslab type k (rs ++ [e.1]) (orders ++ [ocount + e.2]) s'.tcurrent n
        s'.offsettable := by
  have hoadded := ho.added
  have hnadded := hn.added
  obtain ⟨hitem, es, hunread, hes, hfilter⟩ := hn.item e ns rfl
  obtain ⟨hrecord, hstop, hbelow⟩ := copyRecord_recordAt (t := s.tslab) (p := s.tcurrent) hitem hfits
  have hstep := hl.step (ocount + s.nrdata.order) hbelow hrecord
  rw [← hstop, hitem.order] at hstep
  simp only [length_cons] at hnadded
  have hfrom : (if s.oadded = ocount then false else if s.nadded = ncount then true
      else decide (compare s.ordata.rdata.data s.nrdata.rdata.data < 0)) = false := by
    split_ifs with hnone hall
    · rfl
    · omega
    · obtain ⟨a, rest, ha⟩ := exists_cons_of_length_pos (show 0 < os.length by omega)
      rw [(ho.item a rest ha).1.rdata, hitem.rdata]
      simpa using htake a (by simp [ha])
  rw [mergeLoop, if_pos (by omega)]
  simp only [hfrom, Bool.false_eq_true, if_false, hitem.order]
  by_cases hmore : s.nadded + 1 < ncount
  · obtain ⟨e', rest, rfl⟩ := exists_cons_of_length_pos (show 0 < ns.length by omega)
    obtain ⟨x, p', es', hnext, hitem', hes', hfilter'⟩ := nextNew_spec hes hfilter
    simp only [hmore, if_true, hunread, hnext, Option.bind_eq_bind, Option.bind_some]
    refine ⟨_, rfl, ⟨ho.added, ho.item⟩,
      ⟨by simp only [length_cons] at hnadded ⊢; omega, ?_⟩, hstep⟩
    rintro e'' rest' heq
    obtain ⟨rfl, rfl⟩ := cons.inj heq
    exact ⟨hitem', es', rfl, hes', hfilter'⟩
  · obtain rfl : ns = [] := length_eq_zero_iff.mp (by omega)
    simp only [hmore, if_false]
    exact ⟨_, rfl, ⟨ho.added, ho.item⟩,
      ⟨by simp only [length_nil] at hnadded ⊢; omega, by simp⟩, hstep⟩

lemma mergeLoop_spec (ho : OldCursor oslab type ocount s os)
    (hn : NewCursor compare oslab nslab type oncount ncount s ns)
    (hofits : ∀ e ∈ os, Fits type e.1) (hnfits : ∀ e ∈ ns, Fits type e.1)
    (hfuel : os.length + ns.length = fuel) :
    ∃ s', mergeLoop compare oslab nslab type ocount oncount ncount fuel s = some s' ∧
      Laid s'.tslab type k (rs ++ (mergedEntries compare ocount os ns).map fst)
        (orders ++ (mergedEntries compare ocount os ns).map snd) s'.tcurrent n
        s'.offsettable := by
  induction fuel generalizing s os ns rs orders with
  | zero =>
    obtain rfl : os = [] := length_eq_zero_iff.mp (by omega)
    obtain rfl : ns = [] := length_eq_zero_iff.mp (by omega)
    exact ⟨s, rfl, by simpa [mergedEntries] using hl⟩
  | succ fuel ih =>
    rcases mergedEntries_cases compare ocount (by omega : 0 < os.length + ns.length) with
      ⟨a, os', rfl, htake, heq⟩ | ⟨b, ns', rfl, htake, heq⟩
    · obtain ⟨s1, hrun, ho1, hn1, hl1⟩ := mergeLoop_old hl fuel ho hn
        (hofits a (by simp)) htake
      obtain ⟨s', hs', hl'⟩ := ih hl1 ho1 hn1 (fun e he => hofits e (by simp [he])) hnfits
        (by simp only [length_cons] at hfuel; omega)
      exact ⟨s', hrun.trans hs', by simpa [heq] using hl'⟩
    · obtain ⟨s1, hrun, ho1, hn1, hl1⟩ := mergeLoop_new hl fuel ho hn
        (hnfits b (by simp)) htake
      obtain ⟨s', hs', hl'⟩ := ih hl1 ho1 hn1 hofits (fun e he => hnfits e (by simp [he]))
        (by simp only [length_cons] at hfuel; omega)
      exact ⟨s', hrun.trans hs', by simpa [heq] using hl'⟩

end

lemma dataLength_eq (h : RecordsAt m type p rs) :
    dataLength m rs.length p = (rs.map fun r => recordSize type r + 4).sum := by
  induction rs generalizing p with
  | nil => rfl
  | cons r t ih =>
    have hlen := h.1.length
    have hnext : p + 2 + (m.rd16 p + 2) = p + recordSize type r := by
      rw [hlen, recordSize]
      omega
    rw [length_cons, dataLength, hnext, ih h.2, hlen, map_cons, sum_cons, recordSize]
    omega

variable (compare) in
/-- Every rdata that is not in the old slab raises both counters. -/
lemma countNew_eq (oslab : Mem) {nslab : Mem} {bound : ℕ} (h : EntriesAt nslab type bound p es)
    (s : Counting) : let added := es.filter (isNew compare oslab type)
    countNew compare oslab nslab type es.length p s =
      { tlength := s.tlength + (added.map fun e => recordSize type e.1 + 4).sum
        tcount := s.tcount + added.length
        nncount := s.nncount + added.length
        addedSomething := s.addedSomething || !added.isEmpty } := by
  induction es generalizing p s with
  | nil => simp [countNew]
  | cons e t ih =>
    obtain ⟨hdata, hnext⟩ := h.1.1.rdataFromSlab
    have hin : rdataInSlab compare oslab type (rdataFromSlab nslab type p).1 =
        rdataInSlab compare oslab type e.1 := rdataInSlab_congr hdata
    simp only [length_cons, countNew, hnext, ih h.2, hin, hdata]
    by_cases he : rdataInSlab compare oslab type e.1
    · simp [isNew, he]
    · simp only [he, Bool.false_eq_true, if_false]
      rw [filter_cons_of_pos (by simp [isNew, he])]
      simp only [map_cons, sum_cons, length_cons, recordSize, isEmpty_cons, Bool.true_or,
        Bool.not_false, Bool.or_true, Counting.mk.injEq, and_true]
      omega

section
variable {oslab nslab : Mem} {type : ℕ}
  {ordatas nrdatas : List Rdata} {ooffs noffs : List ℕ}

section
variable (compare)

def addedEntries (oslab nslab : Mem) (type : ℕ) (nrdatas : List Rdata) : List (Rdata × ℕ) :=
  (entries nslab type nrdatas).filter (isNew compare oslab type)

def mergedSlab (oslab nslab : Mem) (type : ℕ) (ordatas nrdatas : List Rdata) : List (Rdata × ℕ) :=
  mergedEntries compare (count oslab) (entries oslab type ordatas)
    (addedEntries compare oslab nslab type nrdatas)

lemma mergedSlab_perm (oslab nslab : Mem) (type : ℕ) (ordatas nrdatas : List Rdata) :
    (mergedSlab compare oslab nslab type ordatas nrdatas).Perm (entries oslab type ordatas ++
      (addedEntries compare oslab nslab type nrdatas).map fun e => (e.1, count oslab + e.2)) :=
  merge_perm_append _

lemma mem_mergedSlab (oslab nslab : Mem) (type : ℕ) (ordatas nrdatas : List Rdata) (r : Rdata) :
    r ∈ (mergedSlab compare oslab nslab type ordatas nrdatas).map fst ↔
      r ∈ ordatas ∨ r ∈ (addedEntries compare oslab nslab type nrdatas).map fst := by
  have hperm := (mergedSlab_perm compare oslab nslab type ordatas nrdatas).map fst
  rw [hperm.mem_iff, map_append, mem_append, map_fst_entries, map_map]
  rfl

end

lemma fits_of_mem_entries {m : Mem} {rdatas : List Rdata} {offs : List ℕ}
    (h : WellFormed m type rdatas offs) : ∀ e ∈ entries m type rdatas, Fits type e.1 := fun e he =>
  h.fits e.1 (map_fst_entries m type rdatas ▸ mem_map_of_mem he)

section
variable (compare)

lemma endOf_mergedSlab (oslab nslab : Mem) (type : ℕ) (ordatas nrdatas : List Rdata) :
    2 + (ordatas.map fun r => recordSize type r + 4).sum +
        ((addedEntries compare oslab nslab type nrdatas).map fun e => recordSize type e.1 + 4).sum =
      endOf type (2 + (mergedSlab compare oslab nslab type ordatas nrdatas).length * 4)
        ((mergedSlab compare oslab nslab type ordatas nrdatas).map fst) := by
  have hperm := mergedSlab_perm compare oslab nslab type ordatas nrdatas
  have hsum : ∀ es : List (Rdata × ℕ), (es.map fun e => recordSize type e.1 + 4).sum =
      (es.map fun e => recordSize type e.1).sum + es.length * 4 := fun es => by
    simp [sum_map_add]
  have hfst : (ordatas.map fun r => recordSize type r + 4) =
      (entries oslab type ordatas).map fun e => recordSize type e.1 + 4 := by
    conv_lhs => rw [← map_fst_entries oslab type ordatas, map_map]
    rfl
  have hmap : ((mergedSlab compare oslab nslab type ordatas nrdatas).map fst).map
      (recordSize type) =
      (mergedSlab compare oslab nslab type ordatas nrdatas).map fun e => recordSize type e.1 := by
    rw [map_map]
    rfl
  have htotal := (hperm.map fun e => recordSize type e.1).sum_eq
  have hlen := hperm.length_eq
  simp only [map_append, map_map, List.sum_append, length_append, length_map,
    Function.comp_def] at htotal hlen
  rw [endOf, hmap, htotal, hlen, hfst, hsum, hsum]
  omega

lemma length_mergedSlab (nslab : Mem)
    (nrdatas : List Rdata) (ho : WellFormed oslab type ordatas ooffs) :
    (mergedSlab compare oslab nslab type ordatas nrdatas).length =
      count oslab + (addedEntries compare oslab nslab type nrdatas).length := by
  rw [(mergedSlab_perm compare oslab nslab type ordatas nrdatas).length_eq, length_append,
    length_map, ho.length_entries]

lemma mergedSlab_orders (ho : WellFormed oslab type ordatas ooffs)
    (hn : WellFormed nslab type nrdatas noffs) :
    ((mergedSlab compare oslab nslab type ordatas nrdatas).map snd).Nodup ∧
      ∀ o ∈ (mergedSlab compare oslab nslab type ordatas nrdatas).map snd,
        o < count oslab + count nslab := by
  have hperm := (mergedSlab_perm compare oslab nslab type ordatas nrdatas).map snd
  simp only [map_append, map_map, Function.comp_def] at hperm
  have hlt : ∀ {m : Mem} {rdatas : List Rdata} {offs : List ℕ}, WellFormed m type rdatas offs →
      ∀ e ∈ entries m type rdatas, e.2 < count m := fun h e he => by
    rw [h.layout.count]
    exact mem_range.mp (h.map_snd_entries.mem_iff.mp (mem_map_of_mem he))
  have hnodup : ∀ {m : Mem} {rdatas : List Rdata} {offs : List ℕ}, WellFormed m type rdatas offs →
      ((entries m type rdatas).map snd).Nodup := fun h =>
    h.map_snd_entries.nodup_iff.mpr nodup_range
  have hadded : ((addedEntries compare oslab nslab type nrdatas).map
      fun e => count oslab + e.2).Nodup := by
    have := ((filter_sublist (p := isNew compare oslab type)).map snd).nodup (hnodup hn)
    have := this.map (f := fun i => count oslab + i) fun _ _ h => add_left_cancel h
    rwa [map_map] at this
  constructor
  · refine hperm.nodup_iff.mpr (nodup_append.mpr ⟨hnodup ho, hadded, ?_⟩)
    intro a ha b hb
    obtain ⟨e, he, rfl⟩ := mem_map.mp ha
    obtain ⟨e', he', rfl⟩ := mem_map.mp hb
    have := hlt ho e he
    omega
  · intro o hmem
    rcases mem_append.mp (hperm.mem_iff.mp hmem) with h | h
    · obtain ⟨e, he, rfl⟩ := mem_map.mp h
      have := hlt ho e he
      omega
    · obtain ⟨e, he, rfl⟩ := mem_map.mp h
      have := hlt hn e (mem_of_mem_filter he)
      omega

end

section
variable (compare) {es : List (Rdata × ℕ)}
  (hes : es = mergedSlab compare oslab nslab type ordatas nrdatas)
  (ho : WellFormed oslab type ordatas ooffs) (hn : WellFormed nslab type nrdatas noffs)
include hes ho hn

lemma mergeSlabs_spec (garbage : Mem) (hO : 0 < count oslab) (hcount : es.length ≤ 0xffff) :
    ∃ s, mergeSlabs compare oslab nslab type es.length
        (addedEntries compare oslab nslab type nrdatas).length garbage = some s ∧
      Laid s.tslab type es.length (es.map fst) (es.map snd) s.tcurrent
        (count oslab + count nslab) s.offsettable := by
  subst hes
  rw [length_mergedSlab compare nslab nrdatas ho] at hcount ⊢
  have hoentries := ho.entriesAt
  have hnentries := hn.entriesAt
  rw [← ho.layout.count] at hoentries
  rw [← hn.layout.count] at hnentries
  obtain ⟨e, rest, he⟩ := exists_cons_of_length_pos (ho.length_entries ▸ hO)
  rw [he] at hoentries
  obtain ⟨hitem, hnext⟩ := readItem_spec hoentries
  have horder : (readItem oslab type (2 + 4 * count oslab)).1.order < count oslab := by
    rw [hitem.order]
    exact hoentries.1.2.2
  -- the current entry of the new slab, if it has any to add
  obtain ⟨x, p, u, hx, hcursor⟩ : ∃ x p u, firstNew compare oslab nslab type (count nslab)
        (addedEntries compare oslab nslab type nrdatas).length = some (x, p, u) ∧
      ∀ e rest, addedEntries compare oslab nslab type nrdatas = e :: rest →
        IsItem nslab type x e ∧ ∃ es, u = es.length ∧ EntriesAt nslab type (count nslab) p es ∧
          es.filter (isNew compare oslab type) = rest := by
    cases hadded : addedEntries compare oslab nslab type nrdatas with
    | nil => exact ⟨_, _, _, rfl, by simp⟩
    | cons b bs =>
      obtain ⟨x, p, es, hnew, hxb, hes, hfilter⟩ := nextNew_spec hnentries hadded
      rw [hn.length_entries] at hnew
      refine ⟨x, p, es.length, by simpa [firstNew] using hnew, fun e rest heq => ?_⟩
      obtain ⟨rfl, rfl⟩ := cons.inj heq
      exact ⟨hxb, es, rfl, hes, hfilter⟩
  have hlaid := Laid.nil (rd16_put garbage 0 _ (lt_succ_of_le hcount)) type
    (count oslab + count nslab)
  simp only [mergeSlabs, horder, if_true, hx, Option.bind_eq_bind, Option.bind_some]
  have hold : ∀ a as, entries oslab type ordatas = a :: as →
      IsItem oslab type (readItem oslab type (2 + 4 * count oslab)).1 a ∧
        EntriesAt oslab type (count oslab) (readItem oslab type (2 + 4 * count oslab)).2 as := by
    intro a as heq
    obtain ⟨rfl, rfl⟩ := cons.inj (he.symm.trans heq)
    exact ⟨hitem, hnext ▸ hoentries.2⟩
  exact mergeLoop_spec (s := ⟨garbage.put 0 _, _, _, _, _, 0, x, p, u, 0⟩) hlaid
    ⟨(zero_add _).trans ho.length_entries, hold⟩ ⟨zero_add _, hcursor⟩
    (fits_of_mem_entries ho) (fun e he => fits_of_mem_entries hn e (mem_of_mem_filter he))
    (by rw [ho.length_entries])

lemma merge_spec (hO : 0 < count oslab) (hN : 0 < count nslab) (reservelen : ℕ) (flags : Flags)
    (garbage : Mem) : ∃ region, merge compare oslab nslab reservelen type flags garbage =
      (if addedEntries compare oslab nslab type nrdatas = [] ∧ ¬flags.force then
        some (.unchanged, none)
      else if es.length > 1 ∧ issingleton type then some (.singleton, none)
      else if es.length > 0xffff then some (.noSpace, none)
      else if reservelen + endOf type (2 + es.length * 4) (es.map fst) < 2 ^ 32 then
        some (.success, some region)
      else none) ∧
      (es.length ≤ 0xffff → reservelen + endOf type (2 + es.length * 4) (es.map fst) < 2 ^ 32 →
        Made region reservelen type (count oslab + count nslab) es) := by
  have hlen := length_mergedSlab compare nslab nrdatas ho
  rw [← hes] at hlen
  have holength := dataLength_eq ho.layout.records
  have hadded (s : Counting) := countNew_eq compare oslab hn.entriesAt s
  simp only [hn.length_entries, ← addedEntries.eq_1] at hadded
  rw [← ho.layout.count, mul_comm] at holength
  have htlength := endOf_mergedSlab compare oslab nslab type ordatas nrdatas
  rw [← hes] at htlength
  have hnonempty : ¬(count oslab = 0 ∨ count nslab = 0) := by omega
  have hexact : ¬(flags.exact = true ∧ es.length ≠
      (addedEntries compare oslab nslab type nrdatas).length + count oslab) := by
    simp [hlen, add_comm]
  rw [merge]
  simp only [hnonempty, if_false, hadded, holength, zero_add, Bool.false_or, Bool.not_not,
    List.isEmpty_iff, ← hlen, hexact]
  by_cases hcount : es.length ≤ 0xffff
  · obtain ⟨s, hs, hlaid⟩ := mergeSlabs_spec compare hes ho hn garbage hO hcount
    have hstop := hlaid.stop
    have horders := mergedSlab_orders compare ho hn
    rw [← hes] at horders
    have hlength : reservelen + 2 + (ordatas.map fun r => recordSize type r + 4).sum +
        ((addedEntries compare oslab nslab type nrdatas).map
          fun e => recordSize type e.1 + 4).sum = reservelen + s.tcurrent := by
      rw [hstop, ← htlength]
      omega
    refine ⟨⟨fillinOffsets s.offsettable 0 s.tslab, reservelen + s.tcurrent⟩, ?_, fun _ hsize => ?_⟩
    · simp only [hs, Option.bind_eq_bind, Option.bind_some, hlength, ← hstop]
      by_cases hsize : reservelen + s.tcurrent < 2 ^ 32
      · rw [mod_eq_of_lt hsize, if_pos rfl, if_pos hsize]
      · have hne : ¬reservelen + s.tcurrent = (reservelen + s.tcurrent) % 2 ^ 32 := by omega
        simp only [hne, hsize, if_false]
    · have hfits : ∀ r ∈ es.map fst, Fits type r := by
        intro r hr
        rcases (mem_mergedSlab _ _ _ _ _ _ r).mp (hes ▸ hr) with h | h
        · exact ho.fits r h
        · obtain ⟨e, he, rfl⟩ := mem_map.mp h
          exact fits_of_mem_entries hn e (mem_of_mem_filter he)
      rw [← length_map fst] at hlaid
      exact ⟨_, _, _, rfl, hlaid, horders.1, horders.2,
        hlaid.wellFormed hfits (by rw [hstop]; omega) horders.1 horders.2⟩
  · refine ⟨⟨garbage, 0⟩, ?_, fun h => absurd h hcount⟩
    simp only [not_le.mp hcount, gt_iff_lt, if_true]

end
end

variable (compare) in
def InOrder (es : List (Rdata × ℕ)) : Prop := es.Pairwise fun a b => compare a.1.data b.1.data < 0

lemma InOrder.head_le (hc : TotalPreorder compare)
    (h : InOrder compare es) {a x : Rdata × ℕ} (ha : ∀ b ∈ es.head?, compare a.1.data b.1.data < 0)
    (hx : x ∈ es) : compare a.1.data x.1.data < 0 := by
  cases es with
  | nil => simp at hx
  | cons b t =>
    have hab := ha b (by simp)
    rcases mem_cons.mp hx with rfl | hx
    · exact hab
    · exact hc.lt_trans hab ((pairwise_cons.mp h).1 x hx).le

lemma mergedEntries_inOrder (hc : TotalPreorder compare) (ocount : ℕ) (hos : InOrder compare os)
    (hns : InOrder compare ns) (hne : ∀ a ∈ os, ∀ b ∈ ns, compare a.1.data b.1.data ≠ 0) :
    InOrder compare (mergedEntries compare ocount os ns) := by
  induction hlen : os.length + ns.length generalizing os ns with
  | zero =>
    obtain rfl : os = [] := length_eq_zero_iff.mp (by omega)
    obtain rfl : ns = [] := length_eq_zero_iff.mp (by omega)
    simp [mergedEntries, InOrder]
  | succ k ih =>
    have hmem : ∀ {os ns : List (Rdata × ℕ)} {x}, x ∈ mergedEntries compare ocount os ns →
        x ∈ os ∨ ∃ b ∈ ns, x.1 = b.1 := fun hx => by
      rcases mem_append.mp ((merge_perm_append _).mem_iff.mp hx) with h | h
      · exact .inl h
      · obtain ⟨b, hb, rfl⟩ := mem_map.mp h
        exact .inr ⟨b, hb, rfl⟩
    rcases mergedEntries_cases compare ocount (by omega : 0 < os.length + ns.length) with
      ⟨a, os', rfl, htake, heq⟩ | ⟨b, ns', rfl, htake, heq⟩
    · have hos' := pairwise_cons.mp hos
      have ih := ih hos'.2 hns (fun x hx => hne x (by simp [hx]))
        (by simp only [length_cons] at hlen; omega)
      rw [heq]
      refine pairwise_cons.mpr ⟨fun x hx => ?_, ih⟩
      rcases hmem hx with hx | ⟨y, hy, heq⟩
      · exact hos'.1 x hx
      · rw [heq]
        exact hns.head_le hc htake hy
    · have hns' := pairwise_cons.mp hns
      have ih := ih hos hns'.2 (fun x hx y hy => hne x hx y (by simp [hy]))
        (by simp only [length_cons] at hlen; omega)
      have htake' : ∀ a ∈ os.head?, compare b.1.data a.1.data < 0 := fun a ha => by
        have h1 := htake a ha
        have h2 := hne a (mem_of_mem_head? ha) b (by simp)
        exact neg_of_sign_eq_neg (hc.antisymm _ _) (by omega)
      rw [heq]
      refine pairwise_cons.mpr ⟨fun x hx => ?_, ih⟩
      rcases hmem hx with hx | ⟨y, hy, heq⟩
      · exact hos.head_le hc (a := b) htake' hx
      · rw [heq]
        exact hns'.1 y hy

end LbBind.Rdataslab

import LbBind.Rdataslab.Merge

/-! Subtracting one slab from another, as `dns_rdataslab_subtract` does. Both
slabs are read record by record and every record of the one is compared with all
records of the other, so the result does not depend on the order of the records. -/

namespace LbBind.Rdataslab

open Lib List Nat
open Prod (fst snd)

variable (compare : List UInt8 → List UInt8 → ℤ)

/-- The inner loop: whether `mrdata` is among `k` records of the slab to subtract. -/
def subtracted (sslab : Mem) (type : ℕ) (mrdata : Rdata) : ℕ → ℕ → Bool
  | 0, _ => false
  | k + 1, scurrent =>
    let (srdata, _, scurrent) := rdataFromSlab sslab type scurrent
    if compare mrdata.data srdata.data = 0 then true
    else subtracted sslab type mrdata k scurrent

def inSubtrahend (sslab : Mem) (type : ℕ) (mrdata : Rdata) : Bool :=
  subtracted compare sslab type mrdata (count sslab) (2 + 4 * count sslab)

def remainingLength (mslab sslab : Mem) (type : ℕ) : ℕ → ℕ → ℕ × ℕ × ℕ
  | 0, _ => (0, 0, 0)
  | k + 1, mrdatabegin =>
    let (mrdata, _, mcurrent) := rdataFromSlab mslab type mrdatabegin
    let (length, tcount, rcount) := remainingLength mslab sslab type k mcurrent
    if inSubtrahend compare sslab type mrdata then (length, tcount, rcount + 1)
    else (mcurrent - mrdatabegin + length, tcount + 1, rcount)

/-- Copy the records that remain; `none` if `INSIST(order < mcount)` fails. -/
def copyRemaining (mslab sslab : Mem) (type mcount : ℕ) :
    ℕ → ℕ → Mem → ℕ → List ℕ → Option (Mem × ℕ × List ℕ)
  | 0, _, tslab, tcurrent, offsettable => some (tslab, tcurrent, offsettable)
  | k + 1, mrdatabegin, tslab, tcurrent, offsettable =>
    let (mrdata, mcurrent) := readItem mslab type mrdatabegin
    if mrdata.order < mcount then
      if inSubtrahend compare sslab type mrdata.rdata then
        copyRemaining mslab sslab type mcount k mcurrent tslab tcurrent offsettable
      else
        let length := mcurrent - mrdatabegin
        copyRemaining mslab sslab type mcount k mcurrent
          (tslab.put tcurrent (mslab.slice mrdatabegin length)) (tcurrent + length)
          (offsettable.set mrdata.order tcurrent)
    else none

/-- `dns_rdataslab_subtract`, into a buffer that holds `garbage` beforehand; the
header of `reservelen` bytes is kept apart. `isc_mem_get` is taken to succeed;
`none` is a failed `INSIST`. -/
def subtract (mslab sslab : Mem) (reservelen type : ℕ)
    (flags : Flags) (garbage : Mem) : Option (Result × Option Region) :=
  let mcount := count mslab
  let scount := count sslab
  if mcount = 0 ∨ scount = 0 then none
  else
    let (length, tcount, rcount) := remainingLength compare mslab sslab type mcount (2 + 4 * mcount)
    let tlength := (reservelen + 2 + length + 4 * tcount) % 2 ^ 32
    if flags.exact ∧ rcount ≠ scount then some (.notExact, none)
    else if tcount = 0 then some (.nxrrset, none)
    else if rcount = 0 then some (.unchanged, none)
    else do
      let (tslab, tcurrent, offsettable) ← copyRemaining compare mslab sslab type mcount mcount
        (2 + 4 * mcount) (garbage.put 0 (be16 tcount)) (2 + 4 * tcount) (List.replicate mcount 0)
      if reservelen + tcurrent = tlength then
        some (.success, some ⟨fillinOffsets offsettable 0 tslab, tlength⟩)
      else none

variable {compare} {type : ℕ} {rs : List Rdata} {es : List (Rdata × ℕ)}

lemma inSubtrahend_iff {m : Mem} (h : Layout m type rs) (x : Rdata) :
    inSubtrahend compare m type x ↔ ∃ r ∈ rs, compare x.data r.data = 0 := by
  have hloop : ∀ (rs : List Rdata) p, RecordsAt m type p rs →
      (subtracted compare m type x rs.length p ↔ ∃ r ∈ rs, compare x.data r.data = 0) := by
    intro rs
    induction rs with
    | nil => simp [subtracted]
    | cons r t ih =>
      intro p h
      obtain ⟨hdata, hnext⟩ := h.1.rdataFromSlab
      simp only [length_cons, subtracted, hdata, hnext]
      by_cases hx : compare x.data r.data = 0 <;> simp [hx, ih _ h.2]
  rw [inSubtrahend, h.count, mul_comm]
  exact hloop rs _ h.records

lemma inSubtrahend_congr {m : Mem} {x y : Rdata} (h : x.data = y.data) :
    inSubtrahend compare m type x = inSubtrahend compare m type y := by
  have hloop : ∀ k p, subtracted compare m type x k p = subtracted compare m type y k p := by
    intro k
    induction k with
    | zero => intro p; rfl
    | succ k ih => intro p; simp only [subtracted, h, ih]
  exact hloop _ _

section
variable (compare) (sslab : Mem)

def remains (type : ℕ) (e : Rdata × ℕ) : Bool := !inSubtrahend compare sslab type e.1

lemma remainingLength_eq {mslab : Mem} {bound p : ℕ}
    (h : EntriesAt mslab type bound p es) : remainingLength compare mslab sslab type es.length p =
      (((es.filter (remains compare sslab type)).map fun e => recordSize type e.1).sum,
        (es.filter (remains compare sslab type)).length,
        (es.filter fun e => !remains compare sslab type e).length) := by
  induction es generalizing p with
  | nil => rfl
  | cons e t ih =>
    obtain ⟨hdata, hnext⟩ := h.1.1.rdataFromSlab
    have hin : inSubtrahend compare sslab type (rdataFromSlab mslab type p).1 =
        inSubtrahend compare sslab type e.1 := inSubtrahend_congr hdata
    simp only [length_cons, remainingLength, hnext, ih h.2, hin]
    by_cases he : inSubtrahend compare sslab type e.1 <;> simp [remains, he]

lemma copyRemaining_spec {mslab tslab : Mem} {mcount k p tcurrent n : ℕ}
    {orders tbl : List ℕ} (h : EntriesAt mslab type mcount p es) (hfits : ∀ e ∈ es, Fits type e.1)
    (hl : Laid tslab type k rs orders tcurrent n tbl) :
    ∃ tslab' tcurrent' tbl', copyRemaining compare mslab sslab type mcount es.length p tslab
        tcurrent tbl = some (tslab', tcurrent', tbl') ∧
      Laid tslab' type k (rs ++ (es.filter (remains compare sslab type)).map fst)
        (orders ++ (es.filter (remains compare sslab type)).map snd) tcurrent' n tbl' := by
  induction es generalizing p tslab tcurrent tbl rs orders with
  | nil => exact ⟨_, _, _, rfl, by simpa using hl⟩
  | cons e t ih =>
    obtain ⟨hitem, hnext⟩ := readItem_spec h
    have hin : inSubtrahend compare sslab type (readItem mslab type p).1.rdata =
        inSubtrahend compare sslab type e.1 := inSubtrahend_congr hitem.rdata
    have horder : e.2 < mcount := h.1.2.2
    rw [forall_mem_cons] at hfits
    simp only [length_cons, copyRemaining, hin, hnext, hitem.order, horder, if_true]
    by_cases he : inSubtrahend compare sslab type e.1
    · simp only [he, if_true]
      rw [filter_cons_of_neg (by simp [remains, he])]
      exact ih h.2 hfits.2 hl
    · simp only [he, Bool.false_eq_true, if_false, Nat.add_sub_cancel_left]
      rw [filter_cons_of_pos (by simp [remains, he])]
      -- the record is copied as it is
      have hrecord : RecordAt (tslab.put tcurrent (mslab.slice p (recordSize type e.1))) type
          tcurrent e.1 := by
        refine ⟨?_, ?_⟩
        · rw [Mem.rd16_put_slice _ _ _ _ (by simp only [recordSize]; omega), h.1.1.length]
        · rw [Nat.add_assoc, Mem.slice_put_slice _ _ (by simp only [recordSize]; omega),
            ← Nat.add_assoc, h.1.1.data]
      have hstep : Laid (tslab.put tcurrent (mslab.slice p (recordSize type e.1))) _ _ _ _ _ _ _ :=
        hl.step e.2 (fun q hq => Mem.put_outside _ (.inl hq)) hrecord
      obtain ⟨tslab', tcurrent', tbl', hrun, hlaid⟩ := ih h.2 hfits.2 hstep
      exact ⟨_, _, _, hrun, by simpa using hlaid⟩

end

section
variable {mslab sslab : Mem} {type : ℕ} {mrdatas : List Rdata} {moffs : List ℕ}

variable (compare) in
def remainingEntries (mslab sslab : Mem) (type : ℕ) (mrdatas : List Rdata) : List (Rdata × ℕ) :=
  (entries mslab type mrdatas).filter (remains compare sslab type)

variable (compare) in
def removedEntries (mslab sslab : Mem) (type : ℕ) (mrdatas : List Rdata) : List (Rdata × ℕ) :=
  (entries mslab type mrdatas).filter fun e => !remains compare sslab type e

section
variable (compare) {es : List (Rdata × ℕ)}
  (hes : es = remainingEntries compare mslab sslab type mrdatas)
  (hm : WellFormed mslab type mrdatas moffs)
include hes hm

lemma copyRemaining_laid (garbage : Mem) :
    ∃ tslab tcurrent tbl, copyRemaining compare mslab sslab type (count mslab) (count mslab)
        (2 + 4 * count mslab) (garbage.put 0 (be16 es.length)) (2 + 4 * es.length)
        (List.replicate (count mslab) 0) = some (tslab, tcurrent, tbl) ∧
      Laid tslab type (es.map fst).length (es.map fst) (es.map snd) tcurrent
        (count mslab) tbl := by
  have hentries := hm.entriesAt
  rw [← hm.layout.count] at hentries
  have hcount : es.length < 0x10000 := by
    have h1 := length_filter_le (remains compare sslab type) (entries mslab type mrdatas)
    have h2 := mslab.rd16_lt 0
    rw [hm.length_entries, count, ← remainingEntries, ← hes] at h1
    exact lt_of_le_of_lt h1 h2
  have hlaid := Laid.nil (Mem.rd16_put garbage 0 _ hcount) type (count mslab)
  obtain ⟨tslab, tcurrent, tbl, hcopy, hl⟩ :=
    copyRemaining_spec compare sslab hentries (fits_of_mem_entries hm) hlaid
  rw [nil_append, nil_append, ← remainingEntries, ← hes, ← length_map fst] at hl
  rw [hm.length_entries, mul_comm _ 4] at hcopy
  exact ⟨tslab, tcurrent, tbl, hcopy, hl⟩

lemma remaining_wellFormed {tslab : Mem} {tcurrent : ℕ} {tbl : List ℕ}
    (hl : Laid tslab type (es.map fst).length (es.map fst) (es.map snd) tcurrent (count mslab) tbl)
    (hsmall : tcurrent ≤ 2 ^ 32) : (es.map snd).Nodup ∧ (∀ o ∈ es.map snd, o < count mslab) ∧
      WellFormed (fillinOffsets tbl 0 tslab) type (es.map fst) (tbl.filter (· ≠ 0)) := by
  have hsub : es.Sublist (entries mslab type mrdatas) := hes ▸ filter_sublist
  have hnodup : (es.map snd).Nodup :=
    (hsub.map snd).nodup (hm.map_snd_entries.nodup_iff.mpr nodup_range)
  have hlt : ∀ o ∈ es.map snd, o < count mslab := by
    intro o ho
    rw [hm.layout.count]
    exact mem_range.mp (hm.map_snd_entries.mem_iff.mp ((hsub.map snd).subset ho))
  refine ⟨hnodup, hlt, hl.wellFormed (fun r hr => ?_) hsmall hnodup hlt⟩
  obtain ⟨e, he, rfl⟩ := mem_map.mp hr
  exact fits_of_mem_entries hm e (hsub.subset he)

lemma subtract_spec (hM : 0 < count mslab) (hS : 0 < count sslab) (reservelen : ℕ) (flags : Flags)
    (garbage : Mem) : ∃ region, subtract compare mslab sslab reservelen type flags garbage =
      (if flags.exact ∧ (removedEntries compare mslab sslab type mrdatas).length ≠ count sslab then
        some (.notExact, none)
      else if es = [] then some (.nxrrset, none)
      else if removedEntries compare mslab sslab type mrdatas = [] then some (.unchanged, none)
      else if reservelen + endOf type (2 + es.length * 4) (es.map fst) < 2 ^ 32 then
        some (.success, some region)
      else none) ∧
      (reservelen + endOf type (2 + es.length * 4) (es.map fst) < 2 ^ 32 →
        Made region reservelen type (count mslab) es) := by
  have hentries := hm.entriesAt
  have hlength := remainingLength_eq compare sslab hentries
  rw [hm.length_entries, ← remainingEntries, ← removedEntries, ← hes] at hlength
  obtain ⟨tslab, tcurrent, tbl, hcopy, hl⟩ := copyRemaining_laid compare hes hm garbage
  have hstop := hl.stop
  rw [length_map] at hstop
  have hsum : reservelen + 2 + (es.map fun e => recordSize type e.1).sum + 4 * es.length =
      reservelen + tcurrent := by
    rw [hstop, endOf, map_map]
    simp only [Function.comp_def]
    omega
  have hnonempty : ¬(count mslab = 0 ∨ count sslab = 0) := by omega
  refine ⟨⟨fillinOffsets tbl 0 tslab, reservelen + tcurrent⟩, ?_, fun hsize => ?_⟩
  · rw [subtract]
    simp only [hnonempty, if_false, hlength, hsum, hcopy, length_eq_zero_iff, Option.bind_eq_bind,
      Option.bind_some, ← hstop]
    by_cases hsize : reservelen + tcurrent < 2 ^ 32
    · rw [mod_eq_of_lt hsize, if_pos rfl, if_pos hsize]
    · have hne : ¬reservelen + tcurrent = (reservelen + tcurrent) % 2 ^ 32 := by omega
      simp only [hne, hsize, if_false]
  · exact ⟨_, _, _, rfl, hl, remaining_wellFormed compare hes hm hl (by rw [hstop]; omega)⟩

end
end
end LbBind.Rdataslab

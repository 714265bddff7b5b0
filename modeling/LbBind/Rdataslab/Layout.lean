import LbBind.Rdataslab.Slab
import Mathlib.Data.List.Perm.Subperm

/-! The layout invariant of a slab. `Layout` says that the records lie one after the other behind
the offset table; `Table` says what the offset table holds, and that the order field of the record
at entry `i` is `i`. Filling the table from any permutation of the record starts establishes `Table`
and keeps `Layout`. -/

namespace LbBind.Rdataslab

open Lib List Mem Nat Rdatatype

variable (type : ℕ)

def recordSize (r : Rdata) : ℕ := 4 + metaLength type + r.data.length

def Fits (r : Rdata) : Prop := r.data.length + metaLength type ≤ 0xffff

def starts (type : ℕ) : ℕ → List Rdata → List ℕ
  | _, [] => []
  | p, r :: t => p :: starts type (p + recordSize type r) t

def endOf (p : ℕ) (rs : List Rdata) : ℕ := p + (rs.map (recordSize type)).sum

/-- The record of `r` lies at `p`; nothing is said about its order and meta byte. -/
structure RecordAt (m : Mem) (type p : ℕ) (r : Rdata) : Prop where
  length : m.rd16 p = r.data.length + metaLength type
  data : m.slice (p + 4 + metaLength type) r.data.length = r.data

def RecordsAt (m : Mem) (type : ℕ) : ℕ → List Rdata → Prop
  | _, [] => True
  | p, r :: t => RecordAt m type p r ∧ RecordsAt m type (p + recordSize type r) t

structure Layout (m : Mem) (type : ℕ) (rs : List Rdata) : Prop where
  count : count m = rs.length
  records : RecordsAt m type (2 + rs.length * 4) rs

structure Table (m : Mem) (offs : List ℕ) : Prop where
  offset : ∀ i (h : i < offs.length), m.rd32 (2 + i * 4) = offs[i]
  order : ∀ i (h : i < offs.length), m.rd16 (offs[i] + 2) = i

section
variable (type : ℕ)

@[simp] lemma length_starts (p : ℕ) (rs : List Rdata) : (starts type p rs).length = rs.length := by
  induction rs generalizing p with
  | nil => rfl
  | cons r t ih => simp [starts, ih]

variable {p : ℕ} {rs : List Rdata}

lemma le_of_mem_starts {s : ℕ} (h : s ∈ starts type p rs) : p ≤ s := by
  induction rs generalizing p with
  | nil => simp [starts] at h
  | cons r t ih =>
    rcases mem_cons.mp h with rfl | h
    · exact le_rfl
    · have := ih h
      simp only [recordSize] at this
      omega

lemma add_four_le_of_mem_starts {s : ℕ} (h : s ∈ starts type p rs) : s + 4 ≤ endOf type p rs := by
  induction rs generalizing p with
  | nil => simp [starts] at h
  | cons r t ih =>
    simp only [endOf, map_cons, sum_cons] at ih ⊢
    rcases mem_cons.mp h with rfl | h
    · simp only [recordSize]
      omega
    · have := ih h
      omega

lemma starts_pairwise (p : ℕ) (rs : List Rdata) :
    (starts type p rs).Pairwise fun a b => a + 4 ≤ b := by
  induction rs generalizing p with
  | nil => exact List.Pairwise.nil
  | cons r t ih =>
    refine pairwise_cons.mpr ⟨fun s hs => ?_, ih _⟩
    have := le_of_mem_starts type hs
    simp only [recordSize] at this
    omega

/-- Two offsets that are four apart either way. -/
def Apart (a b : ℕ) : Prop := a + 4 ≤ b ∨ b + 4 ≤ a

lemma pairwise_apart_of_perm {offs : List ℕ}
    (h : offs.Perm (starts type p rs)) : offs.Pairwise Apart :=
  (h.pairwise_iff fun hab => Or.symm hab).mpr ((starts_pairwise type p rs).imp .inl)

lemma endOf_cons (p : ℕ) (r : Rdata) (t : List Rdata) :
    endOf type p (r :: t) = endOf type (p + recordSize type r) t := by
  simp [endOf, add_assoc]

lemma starts_append (p : ℕ) (rs ts : List Rdata) :
    starts type p (rs ++ ts) = starts type p rs ++ starts type (endOf type p rs) ts := by
  induction rs generalizing p with
  | nil => rfl
  | cons r t ih => simp only [cons_append, starts, ih, endOf_cons]

lemma endOf_append (p : ℕ) (rs ts : List Rdata) :
    endOf type p (rs ++ ts) = endOf type (endOf type p rs) ts := by
  simp [endOf, add_assoc]

end

variable {offs : List ℕ} {i p type : ℕ} {m : Mem} {r : Rdata} {rs : List Rdata}

lemma sortLoop_outside {q : ℕ} (htable : q < 2 + i * 4 ∨ 2 + (i + offs.length) * 4 ≤ q)
    (horder : ∀ off ∈ offs, q < off + 2 ∨ off + 4 ≤ q) : sortLoop offs i m q = m q := by
  induction offs generalizing i m with
  | nil => rfl
  | cons off t ih =>
    simp only [length_cons] at htable
    have hoff := horder off (by simp)
    rw [sortLoop, ih (by omega) fun o ho => horder o (by simp [ho]), put_outside _ (by simp; omega),
      put_outside _ (by simp; omega)]

lemma sortLoop_rd32 (htable : p + 4 ≤ 2 + i * 4 ∨ 2 + (i + offs.length) * 4 ≤ p)
    (horder : ∀ off ∈ offs, p + 4 ≤ off + 2 ∨ off + 4 ≤ p) :
    (sortLoop offs i m).rd32 p = m.rd32 p :=
  rd32_congr fun _ _ _ => sortLoop_outside (by omega) fun off ho => by
    have := horder off ho; omega

lemma sortLoop_rd16 (htable : p + 2 ≤ 2 + i * 4 ∨ 2 + (i + offs.length) * 4 ≤ p)
    (horder : ∀ off ∈ offs, p + 2 ≤ off + 2 ∨ off + 4 ≤ p) :
    (sortLoop offs i m).rd16 p = m.rd16 p :=
  rd16_congr fun _ _ _ => sortLoop_outside (by omega) fun off ho => by
    have := horder off ho; omega

section
variable (hlow : ∀ off ∈ offs, 2 + (i + offs.length) * 4 ≤ off + 2)
include hlow

lemma sortLoop_offset (hhigh : ∀ off ∈ offs, off < 2 ^ 32)
    (k : ℕ) (hk : k < offs.length) : (sortLoop offs i m).rd32 (2 + (i + k) * 4) = offs[k] := by
  induction offs generalizing i m k with
  | nil => simp at hk
  | cons off t ih =>
    simp only [length_cons] at hlow hk
    cases k with
    | zero =>
      have hoff := hlow off (by simp)
      -- the entry is written now, and everything later lies outside it
      rw [sortLoop, add_zero i, sortLoop_rd32 (by omega) fun o ho => by
          have := hlow o (by simp [ho]); omega,
        rd32_put_of_disjoint _ (by omega), rd32_put _ _ _ (hhigh off (by simp)),
        getElem_cons_zero]
    | succ k =>
      have := ih (i := i + 1) (m := (m.put (2 + i * 4) (be32 off)).put (off + 2) (be16 i))
        (fun o ho => by have := hlow o (by simp [ho]); omega) (fun o ho => hhigh o (by simp [ho]))
        k (by omega)
      rw [sortLoop, show i + (k + 1) = i + 1 + k by omega, this]
      simp

lemma sortLoop_order
    (hapart : offs.Pairwise Apart) (hn : i + offs.length ≤ 0x10000) (k : ℕ) (hk : k < offs.length) :
    (sortLoop offs i m).rd16 (offs[k] + 2) = i + k := by
  induction offs generalizing i m k with
  | nil => simp at hk
  | cons off t ih =>
    rw [pairwise_cons] at hapart
    simp only [length_cons] at hlow hk hn
    cases k with
    | zero =>
      have hoff := hlow off (by simp)
      rw [sortLoop, getElem_cons_zero, sortLoop_rd16 (by omega) fun o ho => by
          have := hapart.1 o ho; simp only [Apart] at this; omega,
        rd16_put _ _ _ (by omega), add_zero]
    | succ k =>
      have := ih (i := i + 1) (m := (m.put (2 + i * 4) (be32 off)).put (off + 2) (be16 i))
        (fun o ho => by have := hlow o (by simp [ho]); omega) hapart.2 (by omega) k (by omega)
      rw [sortLoop, getElem_cons_succ, this]
      omega

end

lemma table_sortLoop (m : Mem) (hlow : ∀ off ∈ offs, 2 + offs.length * 4 ≤ off)
    (hhigh : ∀ off ∈ offs, off < 2 ^ 32) (hapart : offs.Pairwise Apart)
    (hn : offs.length ≤ 0xffff) : Table (sortLoop offs 0 m) offs where
  offset i h := by
    have := sortLoop_offset (i := 0) (m := m)
      (fun o ho => by have := hlow o ho; omega) hhigh i h
    rwa [zero_add] at this
  order i h := by
    have := sortLoop_order (i := 0) (m := m)
      (fun o ho => by have := hlow o ho; omega) hapart (by omega) i h
    rwa [zero_add] at this

lemma fillinOffsets_eq (offs : List ℕ) (j : ℕ) (m : Mem) :
    fillinOffsets offs j m = sortLoop (offs.filter (· ≠ 0)) j m := by
  induction offs generalizing j m with
  | nil => rfl
  | cons off t ih =>
    by_cases h : off = 0
    · simp [fillinOffsets, h, ih]
    · simp [fillinOffsets, h, ih, sortLoop, add_comm 2]

lemma RecordAt.congr {m' : Mem} (h : RecordAt m type p r)
    (heq : ∀ q, p ≤ q → q < p + recordSize type r → ¬(p + 2 ≤ q ∧ q < p + 4) → m' q = m q) :
    RecordAt m' type p r where
  length := by
    rw [← h.length]
    exact rd16_congr fun q h1 h2 => heq q h1 (by simp only [recordSize]; omega) (by omega)
  data := by
    rw [← h.data, length_slice]
    exact slice_congr fun q h1 h2 => heq q (by omega) (by simp only [recordSize]; omega) (by omega)

lemma RecordsAt.congr {m' : Mem} (h : RecordsAt m type p rs)
    (heq : ∀ q, p ≤ q → q < endOf type p rs →
      (∀ s ∈ starts type p rs, q < s + 2 ∨ s + 4 ≤ q) → m' q = m q) : RecordsAt m' type p rs := by
  induction rs generalizing p with
  | nil => trivial
  | cons r t ih =>
    have hend := endOf_cons type p r t
    have hle : p + recordSize type r ≤ endOf type p (r :: t) := by rw [hend]; simp [endOf]
    refine ⟨h.1.congr fun q h1 h2 h3 => heq q h1 (by omega) fun s hs => ?_,
      ih h.2 fun q h1 h2 h3 => heq q (by simp only [recordSize] at h1; omega) (hend ▸ h2) fun s hs => ?_⟩
    · rcases mem_cons.mp hs with rfl | hs
      · omega
      · have := le_of_mem_starts type hs
        omega
    · rcases mem_cons.mp hs with rfl | hs
      · simp only [recordSize] at h1
        omega
      · exact h3 s hs

lemma recordsAt_append {ts : List Rdata} : RecordsAt m type p (rs ++ ts) ↔
      RecordsAt m type p rs ∧ RecordsAt m type (endOf type p rs) ts := by
  induction rs generalizing p with
  | nil => simp [RecordsAt, endOf]
  | cons r t ih => simp only [cons_append, RecordsAt, ih, endOf_cons, and_assoc]

lemma sortLoop_layout
    (h : Layout m type rs) (hperm : offs.Perm (starts type (2 + rs.length * 4) rs))
    (hend : endOf type (2 + rs.length * 4) rs ≤ 2 ^ 32) :
    Layout (sortLoop offs 0 m) type rs ∧ Table (sortLoop offs 0 m) offs := by
  have hlen : offs.length = rs.length := by rw [hperm.length_eq, length_starts]
  have hlow : ∀ off ∈ offs, 2 + rs.length * 4 ≤ off := fun off ho =>
    le_of_mem_starts type (hperm.mem_iff.mp ho)
  have hn : rs.length ≤ 0xffff := by
    have := m.rd16_lt 0
    rw [← h.count, count]
    omega
  refine ⟨⟨?_, h.records.congr fun q h1 h2 h3 => ?_⟩, table_sortLoop m ?_ ?_ ?_ (hlen ▸ hn)⟩
  · rw [← h.count]
    exact sortLoop_rd16 (by omega) fun off ho => by have := hlow off ho; omega
  · exact sortLoop_outside (by omega) fun off ho => h3 off (hperm.mem_iff.mp ho)
  · rwa [hlen]
  · intro off ho
    have := add_four_le_of_mem_starts type (hperm.mem_iff.mp ho)
    omega
  · exact pairwise_apart_of_perm type hperm

def kept (xs : List XRdata) : List Rdata := xs.filterMap (·.rdata)

def keptOrders (xs : List XRdata) : List ℕ := xs.filterMap fun x => x.rdata.map fun _ => x.order

@[simp] lemma kept_none (o : ℕ) (t : List XRdata) : kept (⟨none, o⟩ :: t) = kept t := rfl

@[simp] lemma kept_some (r : Rdata) (o : ℕ) (t : List XRdata) :
    kept (⟨some r, o⟩ :: t) = r :: kept t := rfl

@[simp] lemma keptOrders_none (o : ℕ) (t : List XRdata) :
    keptOrders (⟨none, o⟩ :: t) = keptOrders t := rfl

@[simp] lemma keptOrders_some (r : Rdata) (o : ℕ) (t : List XRdata) :
    keptOrders (⟨some r, o⟩ :: t) = o :: keptOrders t := rfl

lemma putRecord_snd (type : ℕ) (r : Rdata) (m : Mem) (p : ℕ) :
    (putRecord type r m p).2 = p + recordSize type r := by
  simp only [putRecord, recordSize]
  omega

lemma putRecord_outside {q : ℕ} (m : Mem)
    (h : q < p ∨ p + recordSize type r ≤ q) : (putRecord type r m p).1 q = m q := by
  simp only [recordSize] at h
  have hmeta : type = rrsig → metaLength type = 1 := fun h => by simp [metaLength, h]
  simp only [putRecord]
  rw [put_outside _ (by omega)]
  split_ifs with ht
  · have := hmeta ht
    rw [put_outside _ (by simp only [length_singleton]; omega),
      put_outside _ (by simp only [length_be16]; omega)]
  · rw [put_outside _ (by simp only [length_be16]; omega)]

lemma putRecord_recordAt (m : Mem) (h : Fits type r) :
    RecordAt (putRecord type r m p).1 type p r where
  length := by
    have hlen : r.data.length + metaLength type < 0x10000 := lt_succ_of_le h
    simp only [putRecord]
    rw [rd16_put_of_disjoint _ (by omega)]
    split_ifs
    · rw [rd16_put_of_disjoint _ (by omega), rd16_put _ _ _ hlen]
    · exact rd16_put _ _ _ hlen
  data := slice_put _ _ _

/-- Setting an empty entry of a table adds one offset to those it holds. -/
lemma filter_set_perm {tbl : List ℕ} {v : ℕ} (h : tbl[i]? = some 0) (hv : v ≠ 0) :
    ((tbl.set i v).filter (· ≠ 0)).Perm (v :: tbl.filter (· ≠ 0)) := by
  induction tbl generalizing i with
  | nil => simp at h
  | cons a t ih =>
    cases i with
    | zero =>
      simp only [getElem?_cons_zero, Option.some.injEq] at h
      simp [h, hv]
    | succ i =>
      have ih := ih (i := i) (by simpa using h)
      rw [set_cons_succ]
      by_cases ha : a = 0
      · simpa [ha] using ih
      · rw [filter_cons_of_pos (by simpa), filter_cons_of_pos (by simpa)]
        exact (ih.cons a).trans (List.Perm.swap v a _)

lemma filter_foldl_set_perm {es : List (ℕ × ℕ)} {tbl : List ℕ} (hnodup : (es.map Prod.fst).Nodup)
    (hempty : ∀ e ∈ es, tbl[e.1]? = some 0) (hne : ∀ e ∈ es, e.2 ≠ 0) :
    ((es.foldl (fun t e => t.set e.1 e.2) tbl).filter (· ≠ 0)).Perm
      (es.map Prod.snd ++ tbl.filter (· ≠ 0)) := by
  induction es generalizing tbl with
  | nil => exact .rfl
  | cons e t ih =>
    rw [map_cons, nodup_cons] at hnodup
    rw [forall_mem_cons] at hempty hne
    have hrest : ∀ e' ∈ t, (tbl.set e.1 e.2)[e'.1]? = some 0 := fun e' he' => by
      have hfst : e.1 ≠ e'.1 := fun heq => hnodup.1 (heq ▸ mem_map_of_mem he')
      rw [getElem?_set_ne hfst, hempty.2 e' he']
    refine (ih hnodup.2 hrest hne.2).trans ?_
    rw [map_cons, cons_append]
    exact ((filter_set_perm hempty.1 hne.1).append_left _).trans perm_middle

/-- A slab under construction: room for `k` records, the records of `rs` written so
far, the offset of each noted under its order in a table of `n` entries. -/
structure Laid (m : Mem) (type k : ℕ) (rs : List Rdata) (orders : List ℕ) (p n : ℕ)
    (tbl : List ℕ) : Prop where
  count : count m = k
  records : RecordsAt m type (2 + k * 4) rs
  stop : p = endOf type (2 + k * 4) rs
  length : orders.length = rs.length
  table : tbl = (orders.zip (starts type (2 + k * 4) rs)).foldl (fun t e => t.set e.1 e.2)
    (List.replicate n 0)

variable {m m' : Mem} {type k : ℕ} {rs : List Rdata} {orders : List ℕ} {p n : ℕ} {tbl : List ℕ}

lemma Laid.nil (h : Rdataslab.count m = k) (type n : ℕ) :
    Laid m type k [] [] (2 + k * 4) n (List.replicate n 0) :=
  ⟨h, trivial, rfl, rfl, rfl⟩

variable (h : Laid m type k rs orders p n tbl)
include h

lemma Laid.le_stop : 2 + k * 4 ≤ p := by
  rw [h.stop, endOf]
  omega

lemma Laid.step {r : Rdata} (o : ℕ)
    (hsame : ∀ q < p, m' q = m q) (hr : RecordAt m' type p r) :
    Laid m' type k (rs ++ [r]) (orders ++ [o]) (p + recordSize type r) n (tbl.set o p) where
  count := by
    have := h.le_stop
    rw [← h.count]
    exact rd16_congr fun q _ _ => hsame q (by omega)
  records := by
    have hend := h.stop
    refine recordsAt_append.mpr ⟨h.records.congr fun q _ hq _ => hsame q (by omega), ?_, trivial⟩
    rwa [← hend]
  stop := by rw [endOf_append, ← h.stop]; simp [endOf]
  length := by simp [h.length]
  table := by
    have hlen : orders.length = (starts type (2 + k * 4) rs).length := by
      rw [length_starts, h.length]
    rw [starts_append, zip_append hlen, foldl_append, ← h.table, ← h.stop]
    rfl

lemma putRecords_laid (xs : List XRdata)
    (hfits : ∀ r ∈ kept xs, Fits type r) :
    Laid (putRecords type xs m p tbl).1 type k (rs ++ kept xs) (orders ++ keptOrders xs)
      (putRecords type xs m p tbl).2.1 n (putRecords type xs m p tbl).2.2 := by
  induction xs generalizing m p tbl rs orders with
  | nil => simpa [kept, keptOrders, putRecords] using h
  | cons x t ih =>
    obtain ⟨_ | r, o⟩ := x
    · exact ih h hfits
    · rw [kept_some, forall_mem_cons] at hfits
      have hstep : Laid (putRecord type r m p).1 type k _ _ _ n _ :=
        h.step o (fun q hq => putRecord_outside m (.inl hq)) (putRecord_recordAt m hfits.1)
      rw [← putRecord_snd type r m p] at hstep
      have := ih hstep hfits.2
      simp only [append_assoc, singleton_append] at this
      exact this

end LbBind.Rdataslab

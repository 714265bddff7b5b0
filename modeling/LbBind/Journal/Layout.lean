import LbBind.Journal.File

/-! Transactions and how a journal stores them: a transaction is a header and its records, and a
journal is a chain of transactions from the begin position to the end position. Serial numbers are
compared modulo `2 ^ 32`; the addressable transactions are those of the longest end that spans less
than `2 ^ 31`. -/

namespace LbBind.Journal

open Lib Call List Mem

lemma serialGT_add {s a b : ℕ} (hab : a < b + 2 ^ 31) (hba : b < a + 2 ^ 31) :
    serialGT ((s + a) % 2 ^ 32) ((s + b) % 2 ^ 32) = decide (b < a) := by
  simp only [serialGT]
  by_cases h : b < a
  · simp only [h, decide_true, Bool.and_eq_true, decide_eq_true_eq]
    omega
  · simp only [h, decide_false, Bool.and_eq_false_iff, decide_eq_false_iff_not]
    omega

lemma serialGE_add {s a b : ℕ} (hab : a < b + 2 ^ 31) (hba : b < a + 2 ^ 31) :
    serialGE ((s + a) % 2 ^ 32) ((s + b) % 2 ^ 32) = decide (b ≤ a) := by
  simp only [serialGE]
  by_cases h : b ≤ a
  · simp only [h, decide_true, decide_eq_true_eq]
    omega
  · simp only [h, decide_false, decide_eq_false_iff_not]
    omega

lemma exists_distance {s t : ℕ} (ht : t < 2 ^ 32) : ∃ d < 2 ^ 32, t = (s + d) % 2 ^ 32 :=
  ⟨(t + (2 ^ 32 - s % 2 ^ 32)) % 2 ^ 32, by omega, by omega⟩

def lastSerial (serial : ℕ) (rrs : List RR) : ℕ :=
  rrs.foldl (fun s r => if r.isSoa then r.serial else s) serial

def body (rrs : List RR) : List UInt8 := rrs.flatMap RR.encode

@[simp] lemma body_nil : body [] = [] := rfl

@[simp] lemma body_cons (r : RR) (rs : List RR) : body (r :: rs) = r.encode ++ body rs := rfl

structure Tx where
  rrs : List RR
  serial0 : ℕ
  serial1 : ℕ

namespace Tx

def xhdr (t : Tx) : Xhdr := ⟨(body t.rrs).length, t.serial0, t.serial1⟩

def encode (t : Tx) : List UInt8 := t.xhdr.encode ++ body t.rrs

def step (t : Tx) : ℕ := (t.serial1 + (2 ^ 32 - t.serial0)) % 2 ^ 32

structure Increasing (t : Tx) : Prop where
  serial0 : t.serial0 < 2 ^ 32
  serial1 : t.serial1 < 2 ^ 32
  later : serialGT t.serial1 t.serial0

lemma Increasing.step_pos {t : Tx} (h : t.Increasing) : 0 < t.step := by
  have := h.later
  simp only [serialGT, Bool.and_eq_true, decide_eq_true_eq] at this
  exact this.1

lemma Increasing.step_lt {t : Tx} (h : t.Increasing) : t.step < 2 ^ 31 := by
  have := h.later
  simp only [serialGT, Bool.and_eq_true, decide_eq_true_eq] at this
  exact this.2

lemma Increasing.serial1_eq {t : Tx} (h : t.Increasing) :
    t.serial1 = (t.serial0 + t.step) % 2 ^ 32 := by
  have h0 := h.serial0
  have h1 := h.serial1
  simp only [step]
  omega

@[simp] lemma length_xhdr (x : Xhdr) : x.encode.length = xhdrSize := rfl

@[simp] lemma length_encode (t : Tx) : t.encode.length = xhdrSize + (body t.rrs).length := by
  simp [encode]

end Tx

def after (serial : ℕ) (ts : List Tx) : ℕ := ts.foldl (fun _ t => t.serial1) serial

def encodes (ts : List Tx) : List UInt8 := ts.flatMap Tx.encode

def span (ts : List Tx) : ℕ := (ts.map Tx.step).sum

def Follows : ℕ → List Tx → Prop
  | _, [] => True
  | serial, t :: ts => t.serial0 = serial ∧ Follows t.serial1 ts

def Pos.past (p : Pos) (ts : List Tx) : Pos := ⟨after p.serial ts, p.offset + (encodes ts).length⟩

section
variable {serial : ℕ} {t : Tx} {ts us : List Tx}

@[simp] lemma encodes_nil : encodes [] = [] := rfl

@[simp] lemma encodes_cons : encodes (t :: ts) = t.encode ++ encodes ts := rfl

@[simp] lemma encodes_append : encodes (ts ++ us) = encodes ts ++ encodes us := by
  simp [encodes]

@[simp] lemma span_nil : span [] = 0 := rfl

@[simp] lemma span_cons : span (t :: ts) = t.step + span ts := by simp [span]

@[simp] lemma span_append : span (ts ++ us) = span ts + span us := by simp [span]

@[simp] lemma after_nil : after serial [] = serial := rfl

@[simp] lemma after_append : after serial (ts ++ us) = after (after serial ts) us := foldl_append

@[simp] lemma Pos.past_nil (p : Pos) : p.past [] = p := rfl

lemma Pos.past_append (p : Pos) : p.past (ts ++ us) = (p.past ts).past us := by
  simp [past, Nat.add_assoc]

lemma length_le_encodes : ts.length ≤ (encodes ts).length := by
  induction ts with
  | nil => exact le_rfl
  | cons t ts ih =>
    simp only [encodes_cons, length_append, Tx.length_encode, length_cons, xhdrSize]
    omega

@[simp] lemma follows_append :
    Follows serial (ts ++ us) ↔ Follows serial ts ∧ Follows (after serial ts) us := by
  induction ts generalizing serial with
  | nil => simp [Follows]
  | cons t ts ih =>
    rw [cons_append, Follows, Follows, ih, and_assoc]
    rfl

lemma after_eq (hinc : ∀ t ∈ ts, t.Increasing) (hf : Follows serial ts) (hs : serial < 2 ^ 32) :
    after serial ts = (serial + span ts) % 2 ^ 32 := by
  induction ts generalizing serial with
  | nil => rw [after_nil, span_nil, Nat.add_zero, Nat.mod_eq_of_lt hs]
  | cons t ts ih =>
    have ht := hinc t mem_cons_self
    have hnext := ih (fun u hu => hinc u (.tail _ hu)) hf.2 ht.serial1
    rw [show after serial (t :: ts) = after t.serial1 ts from rfl, hnext, ht.serial1_eq, hf.1,
      span_cons]
    omega

lemma span_pos (hinc : ∀ t ∈ ts, t.Increasing) (hne : ts ≠ []) : 0 < span ts := by
  cases ts with
  | nil => exact absurd rfl hne
  | cons t ts =>
    have := (hinc t mem_cons_self).step_pos
    rw [span_cons]
    omega

end

/-- The transactions at the end of a history that serial arithmetic can tell apart. -/
def addressable : List Tx → List Tx
  | [] => []
  | t :: ts => if span (t :: ts) < 2 ^ 31 then t :: ts else addressable ts

lemma addressable_of_span {ts : List Tx} (h : span ts < 2 ^ 31) : addressable ts = ts := by
  cases ts with
  | nil => rfl
  | cons t ts => rw [addressable, if_pos h]

lemma addressable_suffix (ts : List Tx) : addressable ts <:+ ts := by
  induction ts with
  | nil => exact suffix_rfl
  | cons t ts ih =>
    rw [addressable]
    split_ifs
    · exact suffix_rfl
    · exact ih.trans (suffix_cons t ts)

lemma addressable_concat (ts : List Tx) (t : Tx) :
    addressable (addressable ts ++ [t]) = addressable (ts ++ [t]) := by
  induction ts with
  | nil => rfl
  | cons u ts ih =>
    rw [addressable]
    split_ifs with h
    · rfl
    · rw [ih, cons_append, addressable.eq_2, if_neg]
      rw [← cons_append, span_append]
      omega

/-- An index entry that a search can start from, or that it never chooses: it is the position
behind some of the transactions, or it is not newer than any transaction. -/
def Harmless (start : Pos) (ts : List Tx) (e : Pos) : Prop :=
  (∃ pre, pre <+: ts ∧ e = start.past pre) ∨
    ∀ pre t, pre ++ [t] <+: ts → serialGT e.serial (start.past pre).serial = false

structure Describes (h : Header) (index : List Pos) (ts : List Tx) : Prop where
  increasing : ∀ t ∈ ts, t.Increasing
  follows : Follows h.start.serial ts
  start : h.start.serial < 2 ^ 32
  stop : h.stop = h.start.past ts
  short : span ts < 2 ^ 31
  index : ∀ e ∈ index, e.valid → Harmless h.start ts e

namespace Describes

variable {h : Header} {index : List Pos} {ts pre pre' : List Tx}

lemma serial_past (hd : Describes h index ts) (hpre : pre <+: ts) :
    (h.start.past pre).serial = (h.start.serial + span pre) % 2 ^ 32 := by
  obtain ⟨post, rfl⟩ := hpre
  exact after_eq (fun t ht => hd.increasing t (mem_append_left _ ht))
    (follows_append.mp hd.follows).1 hd.start

lemma serial_stop (hd : Describes h index ts) :
    h.stop.serial = (h.start.serial + span ts) % 2 ^ 32 := by
  rw [hd.stop, hd.serial_past prefix_rfl]

lemma span_le (hpre : pre <+: ts) : span pre ≤ span ts := by
  obtain ⟨post, rfl⟩ := hpre
  rw [span_append]
  omega

section
variable (hd : Describes h index ts) (hpre : pre <+: ts)
include hd hpre

lemma span_lt (hpre' : pre' <+: pre) (hne : pre' ≠ pre) : span pre' < span pre := by
  obtain ⟨post, rfl⟩ := hpre
  obtain ⟨mid, rfl⟩ := hpre'
  have hmid : 0 < span mid := by
    refine span_pos (fun t ht => hd.increasing t ?_) ?_
    · simp [ht]
    · rintro rfl
      exact hne (append_nil _).symm
  rw [span_append]
  omega

lemma prefix_unique (hpre' : pre' <+: ts) (hspan : span pre = span pre') : pre = pre' := by
  by_contra hne
  rcases prefix_or_prefix_of_prefix hpre hpre' with hle | hle
  · exact absurd hspan (hd.span_lt hpre' hle hne).ne
  · exact absurd hspan (hd.span_lt hpre hle (Ne.symm hne)).ne'

lemma serial_inj (hpre' : pre' <+: ts)
    (hs : (h.start.past pre).serial = (h.start.past pre').serial) : pre = pre' := by
  rw [hd.serial_past hpre, hd.serial_past hpre'] at hs
  have := span_le hpre
  have := span_le hpre'
  have := hd.short
  exact hd.prefix_unique hpre hpre' (by omega)

end

lemma mono_index {index' : List Pos} (hd : Describes h index ts)
    (hindex : ∀ e ∈ index', e.valid → Harmless h.start ts e) : Describes h index' ts :=
  { hd with index := hindex }

end Describes

def RR.fields (r : RR) : List UInt8 :=
  r.name.ndata ++ (be16 r.type ++ (be16 r.rdclass ++ (be32 r.ttl ++ (be16 r.data.length ++ r.data))))

lemma RR.encode_eq (r : RR) : r.encode = be32 r.size ++ r.fields := by
  simp [encode, fields]

@[simp] lemma RR.length_fields (r : RR) : r.fields.length = r.size := by
  simp [fields, size]
  omega

section
variable (decode : (rdclass rdtype : ℕ) → (data : List UInt8) → (available : ℕ) →
  Except Result (List UInt8))

/-- A record that a zone can have: its fields are in their ranges, and the data are as `decode`
gives them. -/
structure RR.Valid (r : RR) : Prop where
  name : ∃ name : Name, name.absolute ∧ name.wire = r.name
  type : r.type < 0x10000
  rdclass : r.rdclass < 0x10000
  ttl : r.ttl < 2 ^ 32
  length : r.data.length < 0x10000
  decode : ∀ available, r.data.length ≤ available →
    decode r.rdclass r.type r.data available = .ok r.data
  soa : r.isSoa → 20 ≤ r.data.length

structure Tx.Valid (t : Tx) : Prop where
  records : ∀ r ∈ t.rrs, r.Valid decode
  serials : (t.rrs.filter RR.isSoa).map RR.serial = [t.serial0, t.serial1]
  later : serialGT t.serial1 t.serial0

end

variable {decode : (rdclass rdtype : ℕ) → (data : List UInt8) → (available : ℕ) →
  Except Result (List UInt8)} {r : RR} {t : Tx}

lemma RR.serial_lt (r : RR) : r.serial < 2 ^ 32 := rd32_lt _ _

lemma Tx.Valid.increasing (h : t.Valid decode) : t.Increasing := by
  have hlt : ∀ s ∈ [t.serial0, t.serial1], s < 2 ^ 32 := by
    rw [← h.serials]
    simp only [mem_map]
    rintro s ⟨r, -, rfl⟩
    exact r.serial_lt
  exact ⟨hlt _ (by simp), hlt _ (by simp), h.later⟩

lemma Tx.Valid.ne_nil (h : t.Valid decode) : t.rrs ≠ [] := by
  intro hnil
  have := h.serials
  simp [hnil] at this

lemma lastSerial_eq (serial : ℕ) (rrs : List RR) :
    lastSerial serial rrs = ((rrs.filter RR.isSoa).map RR.serial).foldl (fun _ s => s) serial := by
  rw [foldl_map, foldl_filter, lastSerial]

lemma Tx.Valid.lastSerial (h : t.Valid decode) (serial : ℕ) :
    lastSerial serial t.rrs = t.serial1 := by
  rw [lastSerial_eq, h.serials]
  rfl

lemma RR.Valid.size_ge (h : r.Valid decode) : 11 ≤ r.size := by
  obtain ⟨name, habs, hname⟩ := h.name
  have hpos := (Name.drop_of_absolute habs).1
  have : 1 ≤ r.name.ndata.length := by
    rw [← hname]
    obtain ⟨l, ls, hls⟩ := exists_cons_of_length_pos hpos
    simp [Name.wire, wire, hls]
    omega
  simp only [RR.size]
  omega

lemma RR.Valid.size_le (h : r.Valid decode) : r.size ≤ 65800 := by
  obtain ⟨name, -, hname⟩ := h.name
  have hshort := name.short
  have := h.length
  have : r.name.ndata.length ≤ 255 := by
    rw [← hname]
    exact hshort
  simp only [RR.size]
  omega

lemma parseRR_fields (h : r.Valid decode) {target : ℕ} (ht : r.size ≤ target) :
    parseRR decode r.fields target = .ok r := by
  obtain ⟨name, habs, hname⟩ := h.name
  have hnd : r.name.ndata.length = name.length := by rw [← hname]; rfl
  have hsize : r.size = name.length + 10 + r.data.length := by rw [RR.size, hnd]
  have hslice : (asMem r.fields).slice 0 name.length = name.wire.ndata := by
    rw [← hnd, hname]
    exact asMem_slice [] r.name.ndata _
  have hfw : fromwire (asMem r.fields) r.fields.length false false 0 target = _ :=
    fromwire_literal habs hslice (by rw [r.length_fields]; omega) (by omega)
  have htype : (asMem r.fields).rd16 name.length = r.type := by
    refine rd16_of_slice _ ?_ h.type
    rw [← hnd]
    have := asMem_slice r.name.ndata (be16 r.type) (be16 r.rdclass ++ (be32 r.ttl ++
      (be16 r.data.length ++ r.data)))
    rwa [append_assoc] at this
  have hclass : (asMem r.fields).rd16 (name.length + 2) = r.rdclass := by
    refine rd16_of_slice _ ?_ h.rdclass
    have := asMem_slice (r.name.ndata ++ be16 r.type) (be16 r.rdclass) (be32 r.ttl ++
      (be16 r.data.length ++ r.data))
    rwa [append_assoc, append_assoc, length_append, hnd] at this
  have httl : (asMem r.fields).rd32 (name.length + 4) = r.ttl := by
    refine rd32_of_slice _ ?_ h.ttl
    have := asMem_slice (r.name.ndata ++ be16 r.type ++ be16 r.rdclass) (be32 r.ttl)
      (be16 r.data.length ++ r.data)
    simp only [append_assoc, length_append, length_be16, hnd] at this
    exact this
  have hlen : (asMem r.fields).rd16 (name.length + 8) = r.data.length := by
    refine rd16_of_slice _ ?_ h.length
    have := asMem_slice (r.name.ndata ++ be16 r.type ++ be16 r.rdclass ++ be32 r.ttl)
      (be16 r.data.length) r.data
    simp only [append_assoc, length_append, length_be16, length_be32, hnd] at this
    exact this
  have hdata : r.fields.drop (name.length + 10) = r.data := by
    simp [RR.fields, ← hnd, be16, be32]
  have hdecode := h.decode (target - name.length) (by omega)
  simp only [parseRR, hfw, htype, hclass, httl, hlen, hdata]
  rw [if_neg (by rw [r.length_fields]; omega), if_neg (by rw [r.length_fields]; omega)]
  have hwire : name.wire.ndata.length = name.length := rfl
  rw [hwire, hdecode, hname]

end LbBind.Journal

import Mathlib.Data.List.Basic
import Mathlib.Data.Nat.Bitwise
import Mathlib.Tactic.Ring

/-! Byte-addressed memory: a function from addresses to bytes, with the store of a list of bytes as
the only write. The lemmas say what a store leaves inside it and outside it, and how big-endian
words of two and four bytes are written and read back. -/

namespace LbBind.Lib

open List Nat
open UInt8 (ofNat toNat_ofNat')

/-- The characters from `0` to `9`. -/
def isdigit (c : UInt8) : Bool := 48 ≤ c.toNat && c.toNat ≤ 57

abbrev Mem := ℕ → UInt8

namespace Mem

def put (m : Mem) (p : ℕ) (bs : List UInt8) : Mem :=
  fun q => if p ≤ q ∧ q < p + bs.length then bs.getD (q - p) 0 else m q

def slice (m : Mem) (p n : ℕ) : List UInt8 := (List.range n).map fun i => m (p + i)

variable (m : Mem) {p q n : ℕ} {bs : List UInt8}

lemma put_outside (h : q < p ∨ p + bs.length ≤ q) : m.put p bs q = m q := by
  have : ¬(p ≤ q ∧ q < p + bs.length) := by omega
  simp [put, this]

lemma put_inside (p : ℕ) (bs : List UInt8) {i : ℕ} (h : i < bs.length) :
    m.put p bs (p + i) = bs[i] := by
  simp [put, h]

lemma put_append (p : ℕ) (as bs : List UInt8) :
    m.put p (as ++ bs) = (m.put p as).put (p + as.length) bs := by
  funext q
  simp only [put, length_append]
  by_cases h1 : p + as.length ≤ q ∧ q < p + as.length + bs.length
  · rw [if_pos h1, if_pos ⟨by omega, by omega⟩, getD_append_right _ _ _ _ (by omega)]
    congr 1
    omega
  · rw [if_neg h1]
    by_cases h2 : p ≤ q ∧ q < p + as.length
    · rw [if_pos h2, if_pos ⟨h2.1, by omega⟩, getD_append _ _ _ _ (by omega)]
    · rw [if_neg h2, if_neg (by omega)]

@[simp] lemma length_slice (p n : ℕ) : (m.slice p n).length = n := by simp [slice]

@[simp] lemma slice_zero (p : ℕ) : m.slice p 0 = [] := rfl

@[simp] lemma getElem_slice (p n i : ℕ) (h : i < (m.slice p n).length) :
    (m.slice p n)[i] = m (p + i) := by simp [slice]

lemma slice_add (p a b : ℕ) : m.slice p (a + b) = m.slice p a ++ m.slice (p + a) b := by
  simp only [slice, range_add, map_append, map_map]
  congr 2
  funext i
  simp [add_assoc]

lemma slice_succ (p n : ℕ) : m.slice p (n + 1) = m p :: m.slice (p + 1) n := by
  rw [add_comm, slice_add]
  rfl

lemma slice_congr {m m' : Mem} (h : ∀ q, p ≤ q → q < p + n → m q = m' q) :
    m.slice p n = m'.slice p n := by
  apply map_congr_left
  intro i hi
  exact h _ (by omega) (by have := mem_range.mp hi; omega)

lemma slice_put (p : ℕ) (bs : List UInt8) : (m.put p bs).slice p bs.length = bs := by
  apply ext_getElem
  · simp
  · intro i h1 h2
    rw [getElem_slice, put_inside _ _ _ h2]

lemma slice_put_of_disjoint (h : q + n ≤ p ∨ p + bs.length ≤ q) :
    (m.put p bs).slice q n = m.slice q n :=
  slice_congr fun r _ _ => put_outside _ (by omega)

lemma slice_put_inside {k : ℕ} (h : k + n ≤ bs.length) :
    (m.put p bs).slice (p + k) n = (bs.drop k).take n := by
  apply ext_getElem
  · simp; omega
  · intro i h1 h2
    have hi : k + i < bs.length := by simp at h1; omega
    rw [getElem_slice, add_assoc, put_inside _ _ _ hi]
    simp

lemma put_slice (s : Mem) (p q : ℕ) {i : ℕ} (h : i < n) :
    m.put p (s.slice q n) (p + i) = s (q + i) := by
  rw [put_inside _ _ _ (by simpa using h), getElem_slice]

lemma slice_put_slice (s : Mem) {k l : ℕ} (h : k + l ≤ n) :
    (m.put p (s.slice q n)).slice (p + k) l = s.slice (q + k) l := by
  apply ext_getElem
  · simp
  · intro i h1 h2
    simp only [length_slice] at h2
    rw [getElem_slice, getElem_slice, add_assoc, put_slice _ _ _ _ (by omega), add_assoc]

end Mem

variable (n : ℕ)

/-- Two bytes, most significant first. -/
def be16 : List UInt8 := [ofNat ((n &&& 0xff00) >>> 8), ofNat (n &&& 0xff)]

/-- Four bytes, most significant first. -/
def be32 : List UInt8 :=
  [ofNat ((n &&& 0xff000000) >>> 24), ofNat ((n &&& 0xff0000) >>> 16),
    ofNat ((n &&& 0xff00) >>> 8), ofNat (n &&& 0xff)]

@[simp] lemma length_be16 : (be16 n).length = 2 := rfl

@[simp] lemma length_be32 : (be32 n).length = 4 := rfl

lemma masked_byte (n k : ℕ) : (n &&& (0xff <<< (8 * k))) >>> (8 * k) = n / 2 ^ (8 * k) % 256 := by
  rw [shiftRight_and_distrib, shiftLeft_shiftRight, shiftRight_eq_div_pow]
  exact and_two_pow_sub_one_eq_mod _ 8

lemma be16_eq : be16 n = [ofNat (n / 2 ^ 8 % 256), ofNat (n % 256)] := by
  have h1 := masked_byte n 1
  have h0 := masked_byte n 0
  simp only [mul_one, mul_zero, shiftLeft_zero, shiftRight_zero, pow_zero,
    Nat.div_one] at h1 h0
  simp only [be16]
  rw [show (0xff00 : ℕ) = 0xff <<< 8 from rfl, h1, h0]

lemma be32_eq : be32 n = [ofNat (n / 2 ^ 24 % 256), ofNat (n / 2 ^ 16 % 256),
    ofNat (n / 2 ^ 8 % 256), ofNat (n % 256)] := by
  have h3 := masked_byte n 3
  have h2 := masked_byte n 2
  have h1 := masked_byte n 1
  have h0 := masked_byte n 0
  simp only [mul_one, mul_zero, shiftLeft_zero, shiftRight_zero, pow_zero,
    Nat.div_one, reduceMul] at h3 h2 h1 h0
  simp only [be32]
  rw [show (0xff000000 : ℕ) = 0xff <<< 24 from rfl, show (0xff0000 : ℕ) = 0xff <<< 16 from rfl,
    show (0xff00 : ℕ) = 0xff <<< 8 from rfl, h3, h2, h1, h0]

namespace Mem

/-- The two-byte word at `p`, as `raw[0] * 256 + raw[1]`. -/
def rd16 (m : Mem) (p : ℕ) : ℕ := (m p).toNat * 256 + (m (p + 1)).toNat

/-- The four-byte word at `p`, as `raw[0] << 24 | raw[1] << 16 | raw[2] << 8 | raw[3]`. -/
def rd32 (m : Mem) (p : ℕ) : ℕ :=
  (m p).toNat <<< 24 ||| (m (p + 1)).toNat <<< 16 ||| (m (p + 2)).toNat <<< 8 ||| (m (p + 3)).toNat

variable (m : Mem)

lemma rd16_lt (p : ℕ) : m.rd16 p < 0x10000 := by
  have h0 := (m p).toNat_lt
  have h1 := (m (p + 1)).toNat_lt
  simp only [rd16]
  omega

lemma rd32_eq (p : ℕ) : m.rd32 p = (m p).toNat * 2 ^ 24 + (m (p + 1)).toNat * 2 ^ 16 +
    (m (p + 2)).toNat * 2 ^ 8 + (m (p + 3)).toNat := by
  have h1 := (m (p + 1)).toNat_lt
  have h2 := (m (p + 2)).toNat_lt
  have h3 := (m (p + 3)).toNat_lt
  rw [rd32, ← shiftLeft_add_eq_or_of_lt (b := (m (p + 1)).toNat <<< 16) (i := 24)
    (by rw [shiftLeft_eq]; omega)]
  rw [show (m p).toNat <<< 24 + (m (p + 1)).toNat <<< 16 =
      ((m p).toNat * 256 + (m (p + 1)).toNat) <<< 16 by simp only [shiftLeft_eq]; ring,
    ← shiftLeft_add_eq_or_of_lt (b := (m (p + 2)).toNat <<< 8) (i := 16)
      (by rw [shiftLeft_eq]; omega)]
  rw [show ((m p).toNat * 256 + (m (p + 1)).toNat) <<< 16 + (m (p + 2)).toNat <<< 8 =
      (((m p).toNat * 256 + (m (p + 1)).toNat) * 256 + (m (p + 2)).toNat) <<< 8 by
        simp only [shiftLeft_eq]; ring,
    ← shiftLeft_add_eq_or_of_lt (b := (m (p + 3)).toNat) (i := 8) (by omega)]
  simp only [shiftLeft_eq]
  ring

lemma rd32_lt (p : ℕ) : m.rd32 p < 2 ^ 32 := by
  have h0 := (m p).toNat_lt
  have h1 := (m (p + 1)).toNat_lt
  have h2 := (m (p + 2)).toNat_lt
  have h3 := (m (p + 3)).toNat_lt
  rw [rd32_eq]
  omega

variable {p n : ℕ} {bs : List UInt8}

lemma rd16_congr {m m' : Mem} (h : ∀ q, p ≤ q → q < p + 2 → m q = m' q) :
    m.rd16 p = m'.rd16 p := by
  rw [rd16, rd16, h p (by omega) (by omega), h (p + 1) (by omega) (by omega)]

lemma rd32_congr {m m' : Mem} (h : ∀ q, p ≤ q → q < p + 4 → m q = m' q) :
    m.rd32 p = m'.rd32 p := by
  rw [rd32, rd32, h p (by omega) (by omega), h (p + 1) (by omega) (by omega),
    h (p + 2) (by omega) (by omega), h (p + 3) (by omega) (by omega)]

lemma rd16_put_of_disjoint {q : ℕ} (h : q + 2 ≤ p ∨ p + bs.length ≤ q) :
    (m.put p bs).rd16 q = m.rd16 q :=
  rd16_congr fun r _ _ => put_outside _ (by omega)

lemma rd32_put_of_disjoint {q : ℕ} (h : q + 4 ≤ p ∨ p + bs.length ≤ q) :
    (m.put p bs).rd32 q = m.rd32 q :=
  rd32_congr fun r _ _ => put_outside _ (by omega)

lemma rd16_put_slice (s : Mem) (p q : ℕ) (h : 2 ≤ n) :
    (m.put p (s.slice q n)).rd16 p = s.rd16 q := by
  have h0 := m.put_slice s p q (i := 0) (n := n) (by omega)
  have h1 := m.put_slice s p q (i := 1) (n := n) (by omega)
  simp only [add_zero] at h0
  rw [rd16, rd16, h0, h1]

lemma rd16_put (p n : ℕ) (h : n < 0x10000) : (m.put p (be16 n)).rd16 p = n := by
  have h0 := m.put_inside p (be16 n) (i := 0) (by simp)
  have h1 := m.put_inside p (be16 n) (i := 1) (by simp)
  simp only [be16_eq, add_zero, getElem_cons_zero, getElem_cons_succ] at h0 h1
  simp only [be16_eq, rd16, h0, h1, toNat_ofNat']
  omega

lemma rd32_put (p n : ℕ) (h : n < 2 ^ 32) : (m.put p (be32 n)).rd32 p = n := by
  have h0 := m.put_inside p (be32 n) (i := 0) (by simp)
  have h1 := m.put_inside p (be32 n) (i := 1) (by simp)
  have h2 := m.put_inside p (be32 n) (i := 2) (by simp)
  have h3 := m.put_inside p (be32 n) (i := 3) (by simp)
  simp only [be32_eq, add_zero, getElem_cons_zero, getElem_cons_succ] at h0 h1 h2 h3
  simp only [be32_eq, rd32_eq, h0, h1, h2, h3, toNat_ofNat']
  omega

lemma rd16_of_slice (h : m.slice p 2 = be16 n) (hn : n < 0x10000) : m.rd16 p = n := by
  rw [← rd16_put (m := m) p n hn, ← h]
  refine rd16_congr fun q hp hq => ?_
  obtain ⟨i, rfl⟩ := Nat.exists_eq_add_of_le hp
  exact (m.put_slice m p p (by omega)).symm

lemma rd32_of_slice (h : m.slice p 4 = be32 n) (hn : n < 2 ^ 32) : m.rd32 p = n := by
  rw [← rd32_put (m := m) p n hn, ← h]
  refine rd32_congr fun q hp hq => ?_
  obtain ⟨i, rfl⟩ := Nat.exists_eq_add_of_le hp
  exact (m.put_slice m p p (by omega)).symm

end Mem

def asMem (bs : List UInt8) : Mem := fun p => bs.getD p 0

lemma asMem_slice (pre bs post : List UInt8) :
    (asMem (pre ++ bs ++ post)).slice pre.length bs.length = bs := by
  apply ext_getElem
  · simp
  · intro i h1 h2
    rw [Mem.getElem_slice, asMem, getD_append _ _ _ _ (by simp; omega),
      getD_append_right _ _ _ _ (by omega), Nat.add_sub_cancel_left, getD_eq_getElem _ _ h2]

end LbBind.Lib

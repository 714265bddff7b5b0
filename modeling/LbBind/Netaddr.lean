import Mathlib.Data.FinEnum
import LbBind.Result

/-! Network masks (`lib/isc/netaddr.c`). The loop over the bytes behind the first one
that is not `0xFF` moves on by two, so that every second one of them is not looked at. -/

namespace LbBind.Netaddr

open List (count_append count_eq_zero forall_mem_append forall_mem_cons pairwise_append
  pairwise_of_forall_mem_list)

inductive Mask where
  | inet (p : Vector UInt8 4)
  | inet6 (p : Vector UInt8 16)
  | other

/-- `while ((c & 0x80) != 0 && nbits < 8)`, with `room` bits left to count. -/
def shiftOnes : (room c nbits : ℕ) → ℕ × ℕ
  | 0, c, nbits => (c, nbits)
  | room + 1, c, nbits =>
    if c &&& 0x80 ≠ 0 then shiftOnes room (c <<< 1) (nbits + 1) else (c, nbits)

/-- The last loop, in which `i` is incremented twice. -/
def zeros : (p : List UInt8) → Bool
  | [] => true
  | [b] => b = 0
  | b :: _ :: p => b = 0 && zeros p

/-- The scan from byte `nbytes` on; the bytes before it are `0xFF`. -/
def scan : (p : List UInt8) → (nbytes : ℕ) → Except Result ℕ
  | [], nbytes => .ok (nbytes * 8)
  | b :: p, nbytes =>
    if b = 0xff then scan p (nbytes + 1)
    else
      let shifted := shiftOnes 8 b.toNat 0
      if shifted.1 &&& 0xff ≠ 0 then .error .maskNonContig
      else if zeros p then .ok (nbytes * 8 + shifted.2) else .error .maskNonContig

/-- `isc_netaddr_masktoprefixlen` -/
def masktoprefixlen : Mask → Except Result ℕ
  | .inet p => scan p.toList 0
  | .inet6 p => scan p.toList 0
  | .other => .error .notImplemented

def bits (p : List UInt8) : List Bool :=
  p.flatMap fun b => (List.range 8).map fun k => b.toNat.testBit (7 - k)

/-- A run of 1 bits and then only 0 bits. -/
abbrev Contiguous (p : List UInt8) : Prop := (bits p).Pairwise (· ≥ ·)

def prefixlen (p : List UInt8) : Except Result ℕ :=
  if Contiguous p then .ok ((bits p).count true) else .error .maskNonContig

/-- If the first byte that is not `0xFF` is contiguous and the first, third, fifth, ... byte
behind it are zero, then all bytes behind it are. -/
def Seen (p : List UInt8) : Prop := ∀ b rest, p.dropWhile (· = 0xff) = b :: rest →
  Contiguous [b] → (∀ i c, rest[2 * i]? = some c → c = 0) → ∀ c ∈ rest, c = 0

variable {b : UInt8} {p : List UInt8}

lemma bits_cons (b : UInt8) (p : List UInt8) : bits (b :: p) = bits [b] ++ bits p := by
  simp [bits]

lemma byte_cases : ∀ b : UInt8, ((∀ x ∈ bits [b], x = false) ↔ b = 0) ∧
    (b ≠ 0xff → false ∈ bits [b]) ∧ ((shiftOnes 8 b.toNat 0).1 &&& 0xff = 0 ↔ Contiguous [b]) ∧
    (Contiguous [b] → (shiftOnes 8 b.toNat 0).2 = (bits [b]).count true) := by
  decide +kernel

lemma bits_eq_false_iff : (∀ x ∈ bits p, x = false) ↔ ∀ c ∈ p, c = 0 := by
  induction p with
  | nil => simp [bits]
  | cons b p ih => rw [bits_cons, forall_mem_append, (byte_cases b).1, ih, forall_mem_cons]

lemma contiguous_cons (hb : b ≠ 0xff) :
    Contiguous (b :: p) ↔ Contiguous [b] ∧ ∀ c ∈ p, c = 0 := by
  have hmem := (byte_cases b).2.1 hb
  rw [Contiguous, bits_cons, pairwise_append, ← bits_eq_false_iff]
  refine and_congr_right fun _ => ⟨fun h x hx => ?_, fun h => ⟨?_, fun x _ y hy => ?_⟩⟩
  · exact Bool.eq_false_of_le_false (h.2 false hmem x hx)
  · exact pairwise_of_forall_mem_list fun x hx y hy => by simp [h x hx, h y hy]
  · rw [h y hy]
    exact Bool.false_le x

lemma prefixlen_ff : prefixlen (0xff :: p) = (prefixlen p).map (8 + ·) := by
  have hff : bits [0xff] = List.replicate 8 true := by decide
  have hiff : Contiguous (0xff :: p) ↔ Contiguous p := by
    rw [Contiguous, bits_cons, hff, pairwise_append]
    simp
  rw [prefixlen, prefixlen]
  by_cases h : Contiguous p
  · rw [if_pos (hiff.mpr h), if_pos h, bits_cons, hff, count_append]
    rfl
  · rw [if_neg (mt hiff.mp h), if_neg h]
    rfl

lemma zeros_of_forall (h : ∀ c ∈ p, c = 0) : zeros p := by
  fun_induction zeros p with
  | case1 => rfl
  | case2 b => simpa using h
  | case3 b _ p ih => simp_all

lemma zeros_iff : zeros p ↔ ∀ i c, p[2 * i]? = some c → c = 0 := by
  fun_induction zeros p with
  | case1 => simp
  | case2 b =>
    refine ⟨fun hb i c hc => ?_, fun h => decide_eq_true (h 0 b rfl)⟩
    cases i with
    | zero => simp_all
    | succ i => simp [Nat.mul_add] at hc
  | case3 b _ p ih =>
    rw [Bool.and_eq_true, ih, decide_eq_true_eq]
    refine ⟨fun h i c hc => ?_, fun h => ⟨h 0 b rfl, fun i => h (i + 1)⟩⟩
    cases i with
    | zero => simp_all
    | succ i => exact h.2 i c hc

lemma scan_iff (p : List UInt8) (nbytes : ℕ) :
    scan p nbytes = (prefixlen p).map (nbytes * 8 + ·) ↔ Seen p := by
  induction p generalizing nbytes with
  | nil => simp [scan, prefixlen, Contiguous, bits, Seen, Except.map]
  | cons b p ih =>
    by_cases hb : b = 0xff
    · have hseen : Seen (0xff :: p) ↔ Seen p := by simp [Seen]
      have hadd (n : ℕ) : nbytes * 8 + (8 + n) = (nbytes + 1) * 8 + n := by omega
      rw [hb, hseen, ← ih (nbytes + 1), scan, if_pos rfl, prefixlen_ff]
      cases prefixlen p <;> simp [Except.map, hadd]
    · have hseen : Seen (b :: p) ↔ (Contiguous [b] → zeros p → ∀ c ∈ p, c = 0) := by
        simp [Seen, hb, zeros_iff]
      obtain ⟨-, -, hones, hcount⟩ := byte_cases b
      have hiff := contiguous_cons (p := p) hb
      rw [hseen, scan, if_neg hb, prefixlen]
      by_cases hc : Contiguous [b]
      · simp only [hones.mpr hc, hcount hc, ne_eq, not_true_eq_false, if_false]
        by_cases hall : ∀ c ∈ p, c = 0
        · have hzero : (bits p).count true = 0 :=
            count_eq_zero.mpr fun h => by simpa using bits_eq_false_iff.mpr hall _ h
          rw [if_pos (zeros_of_forall hall), if_pos (hiff.mpr ⟨hc, hall⟩), bits_cons b p,
            count_append, hzero]
          exact iff_of_true rfl fun _ _ => hall
        · rw [if_neg fun h => hall (hiff.mp h).2]
          cases zeros p <;> simp [hall, hc, Except.map]
      · rw [if_pos fun h => hc (hones.mp h), if_neg fun h => hc (hiff.mp h).1]
        simp [hc, Except.map]

/-- The length of a mask is the right one if and only if no byte that is not looked at
makes a difference. -/
theorem masktoprefixlen_eq_iff (p : Vector UInt8 4) (q : Vector UInt8 16) :
    (masktoprefixlen (.inet p) = prefixlen p.toList ↔ Seen p.toList) ∧
      (masktoprefixlen (.inet6 q) = prefixlen q.toList ↔ Seen q.toList) := by
  have hscan (p : List UInt8) : scan p 0 = prefixlen p ↔ Seen p := by
    rw [← scan_iff p 0]
    cases prefixlen p <;> simp [Except.map]
  exact ⟨hscan _, hscan _⟩

/-- The mask 255.0.0.1. -/
theorem masktoprefixlen_second : masktoprefixlen (.inet #v[255, 0, 0, 1]) = .ok 8 ∧
    prefixlen [255, 0, 0, 1] = .error .maskNonContig :=
  ⟨rfl, by rw [prefixlen, if_neg (by decide +kernel)]⟩

end LbBind.Netaddr

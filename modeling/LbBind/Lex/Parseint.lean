import Mathlib.Data.Nat.Digits.Defs
import Mathlib.Data.List.DropRight
import LbBind.Lex.Machine

/-! The numbers of `lib/isc/parseint.c` on a host whose `unsigned long` has 64 bits, and the number
tokens that are made of them. -/

namespace LbBind.Lex

open Lib List Nat

def digitOf (c : UInt8) : ℕ :=
  if isdigit c then c.toNat - 48
  else if 97 ≤ c && c ≤ 122 then c.toNat - 87
  else if 65 ≤ c && c ≤ 90 then c.toNat - 55
  else 36

def isalnum (c : UInt8) : Bool := digitOf c < 36

def startsHex (text : List UInt8) : Bool :=
  text[0]? = some 48 && (text[1]? = some 120 || text[1]? = some 88) && text[2]?.any (digitOf · < 16)

/-- The radix that `strtoul` goes by, and the text behind a `0x`. -/
def radixOf (base : ℕ) (text : List UInt8) : ℕ × List UInt8 :=
  if (base = 0 || base = 16) && startsHex text then (16, text.drop 2)
  else if base = 0 then (if text[0]? = some 48 then 8 else 10, text)
  else (base, text)

structure Strtoul where
  n : ℕ
  erange : Bool
  e : List UInt8

def ulongMax : ℕ := 2 ^ 64 - 1

def strtoul (text : List UInt8) (base : ℕ) : Strtoul :=
  let (radix, rest) := radixOf base text
  let number := (rest.takeWhile (digitOf · < radix)).foldl (fun n c => n * radix + digitOf c) 0
  ⟨min number ulongMax, ulongMax < number, rest.dropWhile (digitOf · < radix)⟩

def parseUint32 (base : ℕ) (text : List UInt8) : Except Result ℕ :=
  if !text.head?.any isalnum then .error .badNumber
  else
    let s := strtoul text base
    if s.e.head?.any (· ≠ 0) then .error .badNumber
    else if s.n = ulongMax && s.erange then .error .range
    else .ok (s.n % 2 ^ 32)

def parseAtMost (max base : ℕ) (text : List UInt8) : Except Result ℕ := do
  let val ← parseUint32 base text
  if max < val then .error .range else .ok val

def parseUint16 : (base : ℕ) → List UInt8 → Except Result ℕ := parseAtMost 0xffff

def parseUint8 : (base : ℕ) → List UInt8 → Except Result ℕ := parseAtMost 0xff

/-- A number as it is written for `base`, which a prefix or a leading 0 gives the radix of if it
is 0. -/
structure Numeral (base : ℕ) where
  start : List UInt8
  radix : ℕ
  digits : List UInt8
  nonempty : digits ≠ []
  lt : ∀ c ∈ digits, digitOf c < radix
  form : start = [] ∧ radix = base ∧ 2 ≤ base ∧ base ≤ 36 ∨
    start = [] ∧ base = 0 ∧ radix = (if digits[0]? = some 48 then 8 else 10) ∨
    (start = [48, 120] ∨ start = [48, 88]) ∧ (base = 0 ∨ base = 16) ∧ radix = 16

namespace Numeral

variable {base : ℕ} (t : Numeral base)

def text : List UInt8 := t.start ++ t.digits

def value : ℕ := Nat.ofDigits t.radix (t.digits.reverse.map digitOf)

def Exact (bound : ℕ) (result : Except Result ℕ) : Prop :=
  result = if t.value < bound then .ok t.value else .error .range

lemma foldl_eq_ofDigits (radix : ℕ) (digits : List UInt8) :
    digits.foldl (fun n c => n * radix + digitOf c) 0 =
      ofDigits radix (digits.reverse.map digitOf) := by
  induction digits using List.reverseRecOn with
  | nil => rfl
  | append_singleton digits c ih =>
    rw [foldl_append, foldl_cons, foldl_nil, ih, reverse_append, reverse_singleton,
      singleton_append, map_cons, ofDigits_cons, mul_comm, add_comm]

lemma startsHex_eq_false {digits : List UInt8} (h : ∀ c ∈ digits, digitOf c < 16) :
    startsHex digits = false := by
  rw [Bool.eq_false_iff]
  intro hnumber
  simp only [startsHex, Bool.and_eq_true, Bool.or_eq_true, decide_eq_true_eq] at hnumber
  rcases hnumber.1.2 with hx | hx
  all_goals exact absurd (h _ (mem_of_getElem? hx)) (by decide)

lemma radixOf_text : radixOf base t.text = (t.radix, t.digits) := by
  obtain ⟨start, radix, digits, hne, hlt, hform⟩ := t
  rcases hform with ⟨rfl, rfl, hbase⟩ | ⟨rfl, rfl, rfl⟩ | ⟨hstart, hbase, rfl⟩
  · have hnumber : ((radix = 0 || radix = 16) && startsHex digits) = false := by
      by_cases h16 : radix = 16
      · rw [startsHex_eq_false (h16 ▸ hlt), Bool.and_false]
      · simp [h16, show radix ≠ 0 by omega]
    simp only [radixOf, text, nil_append, hnumber, Bool.false_eq_true, if_false,
      if_neg (show radix ≠ 0 by omega)]
  · have hnumber := startsHex_eq_false fun c hc => (hlt c hc).trans_le (by split_ifs <;> decide)
    simp only [radixOf, text, nil_append, hnumber, Bool.and_false, Bool.false_eq_true, if_false,
      if_true]
    rfl
  · obtain ⟨c, rest, rfl⟩ := exists_cons_of_ne_nil hne
    have hc := hlt c mem_cons_self
    rcases hstart with rfl | rfl <;> rcases hbase with rfl | rfl <;>
      simp [radixOf, text, startsHex, hc]

lemma strtoul_text :
    strtoul t.text base = ⟨min t.value ulongMax, ulongMax < t.value, []⟩ := by
  have hall : ∀ c ∈ t.digits, decide (digitOf c < t.radix) := fun c hc => decide_eq_true (t.lt c hc)
  simp only [strtoul, radixOf_text, takeWhile_eq_self_iff.mpr hall, dropWhile_eq_nil_iff.mpr hall,
    foldl_eq_ofDigits]
  rfl

lemma isalnum_text : t.text.head?.any isalnum := by
  obtain ⟨start, radix, digits, hne, hlt, hform⟩ := t
  obtain ⟨c, rest, rfl⟩ := exists_cons_of_ne_nil hne
  have hc := hlt c mem_cons_self
  rcases hform with ⟨rfl, rfl, hbase⟩ | ⟨rfl, rfl, rfl⟩ | ⟨rfl | rfl, hbase, rfl⟩
  · exact decide_eq_true (by omega)
  · exact decide_eq_true (hc.trans_le (by split_ifs <;> decide))
  all_goals rfl

lemma parseUint32_text : parseUint32 base t.text =
    if t.value < 2 ^ 64 then .ok (t.value % 2 ^ 32) else .error .range := by
  simp only [parseUint32, strtoul_text, isalnum_text]
  by_cases h : t.value < 2 ^ 64
  · have hle : t.value ≤ ulongMax := le_sub_one_of_lt h
    rw [if_pos h]
    simp [min_eq_left hle, not_lt.mpr hle]
  · have hlt : ulongMax < t.value := by
      rw [ulongMax]
      omega
    rw [if_neg h]
    simp [min_eq_right hlt.le, hlt]

lemma parseAtMost_text (max : ℕ) : parseAtMost max base t.text =
    if t.value < 2 ^ 64 ∧ t.value % 2 ^ 32 ≤ max then .ok (t.value % 2 ^ 32) else .error .range := by
  rw [parseAtMost, parseUint32_text]
  by_cases h : t.value < 2 ^ 64
  · simp only [h, if_true, true_and, bind, Except.bind, ← not_lt, ite_not]
  · simp only [h, if_false, false_and]
    rfl

/-- Beyond 32 bits the number is cut, not refused, until it is beyond 64 bits. -/
theorem parse_exact_iff :
    (t.Exact (2 ^ 32) (parseUint32 base t.text) ↔ t.value < 2 ^ 32 ∨ 2 ^ 64 ≤ t.value) ∧
    (t.Exact (2 ^ 16) (parseUint16 base t.text) ↔
      t.value < 2 ^ 32 ∨ 2 ^ 64 ≤ t.value ∨ 2 ^ 16 ≤ t.value % 2 ^ 32) ∧
    (t.Exact (2 ^ 8) (parseUint8 base t.text) ↔
      t.value < 2 ^ 32 ∨ 2 ^ 64 ≤ t.value ∨ 2 ^ 8 ≤ t.value % 2 ^ 32) ∧
    ∀ (o : Options) (t : Numeral o.base), numberToken parseUint32 o t.text =
      (if t.value < 2 ^ 32 then .ok (.number t.value) else .error .range) ↔
        t.value < 2 ^ 32 ∨ 2 ^ 64 ≤ t.value := by
  refine ⟨?_, ?_, ?_, fun o t => ?_⟩
  · rw [Exact, parseUint32_text]
    split_ifs <;> simp <;> omega
  · rw [Exact, parseUint16, parseAtMost_text]
    split_ifs <;> simp <;> omega
  · rw [Exact, parseUint8, parseAtMost_text]
    split_ifs <;> simp <;> omega
  · rw [numberToken, parseUint32_text]
    split_ifs <;> simp <;> omega

theorem parseUint32_wraps : parseUint32 10 [52, 50, 57, 52, 57, 54, 55, 50, 57, 54] = .ok 0 := by
  decide +kernel

end Numeral

end LbBind.Lex

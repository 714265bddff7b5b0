import Mathlib.Data.Nat.Bitwise
import Mathlib.Data.Fin.Basic
import Mathlib.Tactic.IntervalCases

/-! Keys of the CIDR tree of a response policy zone: 128 bits in four words, the most significant
one first. `diff_keys` finds the first bit in which two prefixes differ. When both have 128 bits and
are equal its loop runs once more than there are words; what it reads there does not change what it
returns. -/

namespace LbBind.Rpz

open BitVec

abbrev Word := BitVec 32

abbrev Key := Fin 4 → Word

def wordMask (b : ℕ) : Word := if b = 0 then BitVec.allOnes 32 else BitVec.allOnes 32 <<< (32 - b)

variable (behind : Word)

def wordAt (k : Key) (i : ℕ) : Word := if h : i < 4 then k ⟨i, h⟩ else behind

def ipBit (k : Key) (bitno : ℕ) : Bool :=
  (wordAt behind k (bitno / 32)).getLsbD (31 - bitno % 32)

variable (mask : Word)

def halve (s : ℕ) (p : Word × ℕ) : Word × ℕ :=
  if p.1 &&& mask ≠ 0 then (p.1 >>> s, p.2 - s) else p

def ffbit (w : Word) : ℕ :=
  let p := halve 0xffff0000 16 (w, 31)
  let p := halve 0xff00 8 p
  let p := halve 0xf0 4 p
  let p := halve 0xc 2 p
  if p.1 &&& 2 ≠ 0 then p.2 - 1 else p.2

/-- The loop of `diff_keys` with the words it compares. `bit <= maxbit` holds for
`maxbit / 32 + 1` rounds. -/
def diffLoop (delta : ℕ → Word) : (rounds i : ℕ) → ℕ × List ℕ
  | 0, i => (32 * i, [])
  | rounds + 1, i =>
    if delta i ≠ 0 then (32 * i + ffbit (delta i), [i])
    else ((diffLoop delta rounds (i + 1)).1, i :: (diffLoop delta rounds (i + 1)).2)

def diffKeys (behind₁ : Word) (key₁ : Key) (bits₁ : ℕ) (behind₂ : Word) (key₂ : Key) (bits₂ : ℕ) :
    ℕ × List ℕ :=
  let maxbit := min bits₁ bits₂
  let r := diffLoop (fun i => wordAt behind₁ key₁ i ^^^ wordAt behind₂ key₂ i) (maxbit / 32 + 1) 0
  (min r.1 maxbit, r.2)

variable (k : Key)

def maskKey (bits : ℕ) : Key := fun i =>
  if (i : ℕ) < bits / 32 then k i
  else if (i : ℕ) = bits / 32 ∧ bits % 32 ≠ 0 then k i &&& wordMask (bits % 32)
  else 0

def Key.bit (i : ℕ) : Bool := ipBit 0 k i

def Agree (a b : Key) (n : ℕ) : Prop := ∀ i < n, a.bit i = b.bit i

instance (a b : Key) (n : ℕ) : Decidable (Agree a b n) :=
  inferInstanceAs (Decidable (∀ i < n, a.bit i = b.bit i))

variable {a b : Key} {n i j bits₁ bits₂ : ℕ}

lemma Agree.symm (h : Agree a b n) : Agree b a n := fun i hi => (h i hi).symm

lemma Agree.trans {c : Key} (h : Agree a b n) (h' : Agree b c n) : Agree a c n :=
  fun i hi => (h i hi).trans (h' i hi)

lemma Agree.mono {m : ℕ} (h : Agree a b n) (hm : m ≤ n) : Agree a b m :=
  fun i hi => h i (hi.trans_le hm)

lemma ipBit_eq_bit (k : Key) (hi : i < 128) : ipBit behind k i = k.bit i := by
  have hword : i / 32 < 4 := by omega
  simp [Key.bit, ipBit, wordAt, hword]

lemma Key.bit_word (i : Fin 4) (hj : j < 32) :
    k.bit (32 * i + j) = (k i).getLsbD (31 - j) := by
  have hdiv : (32 * (i : ℕ) + j) / 32 = i := by omega
  have hmod : (32 * (i : ℕ) + j) % 32 = j := by omega
  simp [Key.bit, ipBit, wordAt, hdiv, hmod]

lemma Key.word_bit (i : Fin 4) (hj : j < 32) :
    (k i).getLsbD j = k.bit (32 * i + (31 - j)) := by
  rw [Key.bit_word k i (by omega)]
  congr 1
  omega

lemma Key.ext_bit (h : Agree a b 128) : a = b := by
  funext i
  refine eq_of_getLsbD_eq fun j hj => ?_
  rw [Key.word_bit a i hj, Key.word_bit b i hj]
  exact h _ (by omega)

/-- What the tests of `ffbit` keep: the word is shifted as far as the bit number is lowered, it has
at most `s` bits, and it is not 0. -/
structure Halved (w : Word) (s : ℕ) (p : Word × ℕ) : Prop where
  shifted : p.2 ≤ 31 ∧ p.1.toNat = w.toNat / 2 ^ (31 - p.2)
  small : p.1.toNat < 2 ^ s
  nonzero : p.1.toNat ≠ 0

lemma and_mask_eq_zero_iff {v s : ℕ} (hv : v < 2 ^ (s + s)) :
    v &&& ((2 ^ s - 1) <<< s) = 0 ↔ v < 2 ^ s := by
  have hand : v &&& ((2 ^ s - 1) <<< s) = (v >>> s) <<< s := by
    refine Nat.eq_of_testBit_eq fun i => ?_
    simp only [Nat.testBit_and, Nat.testBit_shiftLeft, Nat.testBit_two_pow_sub_one,
      Nat.testBit_shiftRight]
    by_cases hi : s ≤ i
    · rcases lt_or_ge (i - s) s with hs | hs
      · simp [hi, hs, Nat.add_sub_cancel' hi]
      · have hzero : v.testBit i = false :=
          Nat.testBit_lt_two_pow (hv.trans_le (Nat.pow_le_pow_right (by omega) (by omega)))
        simp [hi, hzero, Nat.add_sub_cancel' hi]
    · simp [hi]
  rw [hand, Nat.shiftLeft_eq, Nat.shiftRight_eq_div_pow]
  simp [Nat.div_eq_zero_iff]

lemma Halved.step {w : Word} {p : Word × ℕ} (s : ℕ) (h : Halved w (s + s) p)
    (hmask : mask.toNat = (2 ^ s - 1) <<< s) (hs : s ≤ p.2) : Halved w s (halve mask s p) := by
  have htest : p.1 &&& mask = 0 ↔ p.1.toNat < 2 ^ s := by
    rw [← and_mask_eq_zero_iff h.small, ← hmask, ← toNat_and]
    exact ⟨fun h => by simp [h], fun h => eq_of_toNat_eq (by simpa using h)⟩
  unfold halve
  split
  · rename_i hne
    have hle : 2 ^ s ≤ p.1.toNat := not_lt.mp fun hlt => hne (htest.mpr hlt)
    refine ⟨⟨(Nat.sub_le _ _).trans h.shifted.1, ?_⟩, ?_, ?_⟩
    · have hexp : 31 - (p.2 - s) = 31 - p.2 + s := by have := h.shifted.1; omega
      rw [toNat_ushiftRight, Nat.shiftRight_eq_div_pow, h.shifted.2, hexp, pow_add,
        Nat.div_div_eq_div_mul]
    · rw [toNat_ushiftRight, Nat.shiftRight_eq_div_pow]
      exact Nat.div_lt_of_lt_mul (by rw [← pow_add]; exact h.small)
    · rw [toNat_ushiftRight, Nat.shiftRight_eq_div_pow]
      exact (Nat.div_pos hle (by positivity)).ne'
  · rename_i heq
    exact ⟨h.shifted, htest.mp (not_not.mp heq), h.nonzero⟩

lemma halve_snd_le (s : ℕ) (p : Word × ℕ) : p.2 - s ≤ (halve mask s p).2 := by
  unfold halve
  split
  · exact le_rfl
  · exact Nat.sub_le _ _

lemma ffbit_spec {w : Word} (hw : w ≠ 0) : ffbit w ≤ 31 ∧ w.getLsbD (31 - ffbit w) ∧
      ∀ j, 31 - ffbit w < j → w.getLsbD j = false := by
  have h0 : Halved w 32 (w, 31) :=
    ⟨by simp, w.isLt, fun h => hw (eq_of_toNat_eq (by simpa using h))⟩
  have h1 := h0.step 0xffff0000 16 (by decide) (by simp)
  have b1 := halve_snd_le 0xffff0000 16 (w, 31)
  set p1 := halve 0xffff0000 16 (w, 31)
  have h2 := h1.step 0xff00 8 (by decide) (by simp at b1; omega)
  have b2 := halve_snd_le 0xff00 8 p1
  set p2 := halve 0xff00 8 p1
  have h3 := h2.step 0xf0 4 (by decide) (by simp at b1; omega)
  have b3 := halve_snd_le 0xf0 4 p2
  set p3 := halve 0xf0 4 p2
  have h4 := h3.step 0xc 2 (by decide) (by simp at b1; omega)
  have b4 := halve_snd_le 0xc 2 p3
  set p4 := halve 0xc 2 p3
  have h5 := h4.step 2 1 (by decide) (by simp at b1; omega)
  have hff : ffbit w = (halve 2 1 p4).2 := by
    change (if p4.1 &&& 2 ≠ 0 then p4.2 - 1 else p4.2) = _
    unfold halve
    split <;> rfl
  rw [hff]
  have hsmall := h5.small
  have hone : w.toNat / 2 ^ (31 - (halve 2 1 p4).2) = 1 := by
    rw [← h5.shifted.2]
    have := h5.nonzero
    omega
  refine ⟨h5.shifted.1, ?_, fun j hj => ?_⟩
  · rw [← testBit_toNat, Nat.testBit_eq_decide_div_mod_eq, hone]
    rfl
  · rw [← testBit_toNat]
    refine Nat.testBit_lt_two_pow ?_
    calc w.toNat < 2 ^ (31 - (halve 2 1 p4).2) * 2 := by
          rw [mul_comm]
          exact Nat.lt_mul_of_div_lt (by omega) (by positivity)
      _ = 2 ^ (31 - (halve 2 1 p4).2 + 1) := (pow_succ _ _).symm
      _ ≤ 2 ^ j := Nat.pow_le_pow_right (by omega) hj

lemma diffLoop_spec (behind1 behind2 : Word) (k1 k2 : Key) (rounds i : ℕ)
    (hi : ∀ j < 32 * i, j < 128 → k1.bit j = k2.bit j) :
    let r := (diffLoop (fun i => wordAt behind1 k1 i ^^^ wordAt behind2 k2 i) rounds i).1
    (∀ j < r, j < 128 → k1.bit j = k2.bit j) ∧
      (r < 32 * (i + rounds) → r < 128 → k1.bit r ≠ k2.bit r) := by
  induction rounds generalizing i with
  | zero => exact ⟨hi, fun h => by simp [diffLoop] at h⟩
  | succ rounds ih =>
    -- the bits of word `i`, which exists when one of them is below 128
    have hbit : ∀ j < 32, 32 * i + j < 128 → (k1.bit (32 * i + j) ^^ k2.bit (32 * i + j)) =
        (wordAt behind1 k1 i ^^^ wordAt behind2 k2 i).getLsbD (31 - j) := by
      intro j hj hlt
      have hword : i < 4 := by omega
      have h1 := k1.bit_word ⟨i, hword⟩ hj
      have h2 := k2.bit_word ⟨i, hword⟩ hj
      simp only at h1 h2
      rw [h1, h2, getLsbD_xor]
      simp [wordAt, hword]
    simp only [diffLoop]
    split
    · rename_i hne
      obtain ⟨hle, htrue, hfalse⟩ := ffbit_spec hne
      refine ⟨fun j hj hlt => ?_, fun _ hlt => ?_⟩
      · rcases lt_or_ge j (32 * i) with h | h
        · exact hi j h hlt
        · have hb := hbit (j - 32 * i) (by omega) (by omega)
          rw [hfalse _ (by omega), Nat.add_sub_cancel' h] at hb
          simpa using hb
      · have hb := hbit _ (by omega) hlt
        rw [htrue] at hb
        simpa using hb
    · rename_i heq
      have hword := ih (i + 1) fun j hj hlt => by
        rcases lt_or_ge j (32 * i) with h | h
        · exact hi j h hlt
        · have hb := hbit (j - 32 * i) (by omega) (by omega)
          rw [not_not.mp heq, Nat.add_sub_cancel' h] at hb
          simpa using hb
      rwa [show i + 1 + rounds = i + (rounds + 1) by omega] at hword

structure FirstDiff (k₁ : Key) (bits₁ : ℕ) (k₂ : Key) (bits₂ : ℕ) (d : ℕ) : Prop where
  le_left : d ≤ bits₁
  le_right : d ≤ bits₂
  agree : Agree k₁ k₂ d
  differ : d < bits₁ → d < bits₂ → k₁.bit d ≠ k₂.bit d

lemma diffKeys_spec (behind1 behind2 : Word) (k1 k2 : Key) (h1 : bits₁ ≤ 128) :
    FirstDiff k1 bits₁ k2 bits₂ (diffKeys behind1 k1 bits₁ behind2 k2 bits₂).1 := by
  obtain ⟨hagree, hdiffer⟩ := diffLoop_spec behind1 behind2 k1 k2 (min bits₁ bits₂ / 32 + 1) 0
    fun j hj => by omega
  simp only [diffKeys]
  refine ⟨by omega, by omega, fun j hj => hagree j (by omega) (by omega), fun hl hr => ?_⟩
  rw [min_eq_left (by omega)]
  exact hdiffer (by omega) (by omega)

lemma FirstDiff.le_of_agree {k1 k2 : Key} {d : ℕ} (h : FirstDiff k1 bits₁ k2 bits₂ d)
    (hagree : Agree k1 k2 n) (h1 : n ≤ bits₁) (h2 : n ≤ bits₂) : n ≤ d :=
  not_lt.mp fun hlt => h.differ (by omega) (by omega) (hagree d hlt)

lemma mem_diffLoop {delta : ℕ → Word} {rounds x : ℕ} (h : x ∈ (diffLoop delta rounds i).2) :
    x < i + rounds := by
  induction rounds generalizing i with
  | zero => simp [diffLoop] at h
  | succ rounds ih =>
    simp only [diffLoop] at h
    split at h
    · simp at h
      omega
    · rcases List.mem_cons.mp h with rfl | h
      · omega
      · have := ih h
        omega

lemma diffKeys_words {behind1 behind2 : Word} {k1 k2 : Key} {x : ℕ}
    (hbits : min bits₁ bits₂ < 128) (h : x ∈ (diffKeys behind1 k1 bits₁ behind2 k2 bits₂).2) :
    x < 4 := by
  have := mem_diffLoop h
  omega

lemma diffKeys_words_self (behind1 behind2 : Word) (k : Key) :
    4 ∈ (diffKeys behind1 k 128 behind2 k 128).2 := by
  simp [diffKeys, diffLoop, wordAt]
  split <;> simp

lemma wordMask_getLsbD {b : ℕ} (hb : b ≠ 0) (hj : j < 32) :
    (wordMask b).getLsbD j = decide (32 - b ≤ j) := by
  simp only [wordMask, hb, if_false, getLsbD_shiftLeft, hj, decide_true, Bool.true_and]
  rw [getLsbD_allOnes, decide_eq_true (show j - (32 - b) < 32 by omega), Bool.and_true,
    ← decide_not]
  exact decide_eq_decide.mpr (by omega)

lemma bit_maskKey (hi : i < 128) :
    (maskKey k n).bit i = (decide (i < n) && k.bit i) := by
  obtain ⟨w, j, hj, rfl⟩ : ∃ (w : Fin 4) (j : ℕ), j < 32 ∧ i = 32 * w + j :=
    ⟨⟨i / 32, by omega⟩, i % 32, by omega, by simp only; omega⟩
  rw [Key.bit_word _ w hj, Key.bit_word _ w hj, maskKey]
  split
  · rw [decide_eq_true (by omega), Bool.true_and]
  · split
    · rename_i hlast
      rw [getLsbD_and, wordMask_getLsbD hlast.2 (by omega), Bool.and_comm]
      congr 1
      exact decide_eq_decide.mpr (by omega)
    · rw [decide_eq_false (by omega)]
      simp

lemma maskKey_agree (hn : n ≤ 128) : Agree (maskKey k n) k n := by
  intro i hi
  simp [bit_maskKey k (hi.trans_le hn), hi]

lemma maskKey_eq_iff (hn : n ≤ 128) : maskKey a n = maskKey b n ↔ Agree a b n := by
  constructor
  · intro h
    exact (maskKey_agree a hn).symm.trans (h ▸ maskKey_agree b hn)
  · intro h
    refine Key.ext_bit fun i hi => ?_
    rw [bit_maskKey a hi, bit_maskKey b hi]
    by_cases hin : i < n
    · simp [hin, h i hin]
    · simp [hin]

lemma maskKey_maskKey (hn : n ≤ 128) : maskKey (maskKey k n) n = maskKey k n :=
  (maskKey_eq_iff hn).mpr (maskKey_agree k hn)

end LbBind.Rpz

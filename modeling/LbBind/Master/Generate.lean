import Mathlib.Data.Nat.Digits.Defs
import LbBind.Lib.Bytes
import LbBind.Lib.CountLoop

/-! The `$GENERATE` directive of master files (`lib/dns/master.c`). Two templates are filled in with
the values of a counter: `$` stands for the value, with an offset, a width and a base after it in
braces, and in the bases `n` and `N` the value is written as labels of one nibble each. An `int`
that overflows is taken to wrap around. -/

namespace LbBind.Master

open Lib Option CountLoop

inductive Failure (ε : Type*)
  | noSpace
  | malformed
  | other (error : ε)
  deriving DecidableEq

def isSpace (c : UInt8) : Bool := c = 32 || (9 ≤ c && c ≤ 13)

variable (text : List UInt8)

/-- A sign and digits, as `%d` and `%u` take them: whether it is negative, the number and what
follows. -/
def scanNumber : Option (Bool × ℕ × List UInt8) :=
  let text := text.dropWhile isSpace
  let negative := text.head? = some 45
  let text := if negative || text.head? = some 43 then text.tail else text
  let digits := text.takeWhile isdigit
  if digits = [] then none
  else some (negative, digits.foldl (fun n c => n * 10 + (c.toNat - 48)) 0, text.dropWhile isdigit)

def toInt (v : ℤ) : ℤ := v.bmod (2 ^ 32)

/-- `%d`: the number is read as a `long` and stored as an `int`. -/
def scanInt : Option (ℤ × List UInt8) := do
  let (negative, n, rest) ← scanNumber text
  let v : ℤ := if negative then max (-2 ^ 63) (-n) else min (2 ^ 63 - 1) n
  some (toInt v, rest)

/-- `%u`: the number is read as an `unsigned long` and stored as an `unsigned int`. -/
def scanUnsigned : Option (ℕ × List UInt8) := do
  let (negative, n, rest) ← scanNumber text
  some ((if 2 ^ 64 ≤ n then 2 ^ 64 - 1 else if negative then 2 ^ 64 - n else n) % 2 ^ 32, rest)

def scanChar (c : UInt8) : List UInt8 → Option (List UInt8)
  | d :: text => if d = c then some text else none
  | [] => none

/-- The numbers that `sscanf(range, "%u-%u/%u", ...)` finds, at least two: the first one, the last
one and the step. -/
def scanRange (range : List UInt8) : Option (ℕ × ℕ × ℕ) := do
  let (start, rest) ← scanUnsigned range
  let rest ← scanChar 45 rest
  let (stop, rest) ← scanUnsigned rest
  let step := do
    let rest ← scanChar 47 rest
    let (step, _) ← scanUnsigned rest
    some step
  some (start, stop, step.getD 1)

inductive Conversion
  | decimal
  | octal
  | hex (upper : Bool)
  | nibble (upper : Bool)
  deriving DecidableEq

structure Format where
  conversion : Conversion
  width : ℕ
  deriving DecidableEq

def scanMode : List UInt8 → Option Conversion
  | 100 :: _ => some .decimal
  | 111 :: _ => some .octal
  | 120 :: _ => some (.hex false)
  | 88 :: _ => some (.hex true)
  | 110 :: _ => some (.nibble false)
  | 78 :: _ => some (.nibble true)
  | _ => none

def scanFormat : Option (ℤ × Format) := do
  let (delta, rest) ← scanInt text
  let width := do
    let rest ← scanChar 44 rest
    scanUnsigned rest
  match width with
  | none => some (delta, ⟨.decimal, 0⟩)
  | some (width, rest) =>
    let mode := do
      let rest ← scanChar 44 rest
      scanMode rest
    some (delta, ⟨mode.getD .decimal, width⟩)

def skipBrace : List UInt8 := (text.dropWhile (· ≠ 125)).tail

def digit (upper : Bool) (n : ℕ) : UInt8 :=
  UInt8.ofNat (if n < 10 then 48 + n else if upper then 55 + n else 87 + n)

/-- The loop of `nibbles`, with a number of rounds left: the text in `numbuf`, and the number of
characters that should be there. Nothing is returned if the loop has not ended then. -/
def nibblesLoop (upper : Bool) : ℕ → ℕ → ℕ → ℤ → List UInt8 → ℕ → Option (List UInt8 × ℕ)
  | 0, _, _, _, _, _ => none
  | rounds + 1, length, width, value, numbuf, count =>
    let numbuf := if 0 < length then numbuf ++ [digit upper (value % 16).toNat] else numbuf
    if 0 < width - 1 ∨ value / 16 ≠ 0 then
      let numbuf := if 0 < length - 1 then numbuf ++ [46] else numbuf
      if value / 16 ≠ 0 ∨ 0 < width - 1 - 1 then
        nibblesLoop upper rounds (length - 1 - 1) (width - 1 - 1) (value / 16) numbuf (count + 2)
      else some (numbuf, count + 2)
    else some (numbuf, count + 1)

def nibbles (upper : Bool) (size width : ℕ) (value : ℤ) : Option (List UInt8 × ℕ) :=
  nibblesLoop upper (width + 9) (size - 1) width value [] 0

def digits (base : ℕ) (upper : Bool) (n : ℕ) : List UInt8 :=
  (Nat.digits base n).reverse.map (digit upper)

def printed (base : ℕ) (upper : Bool) (n : ℕ) : List UInt8 :=
  if n = 0 then [48] else digits base upper n

def padded (width : ℕ) (sign text : List UInt8) : List UInt8 :=
  sign ++ List.replicate (width - sign.length - text.length) 48 ++ text

def numbufSize : ℕ := 128

/-- The text of a number, and the number of characters that should be in `numbuf`. -/
def number (format : Format) (value : ℤ) : Option (List UInt8 × ℕ) := match format.conversion with
  | .nibble upper => nibbles upper numbufSize format.width value
  | .decimal => text (padded format.width (if value < 0 then [45] else [])
      (printed 10 false value.natAbs))
  | .octal => text (padded format.width [] (printed 8 false (value % 2 ^ 32).toNat))
  | .hex upper => text (padded format.width [] (printed 16 upper (value % 2 ^ 32).toNat))
where
  /-- What `snprintf` leaves in `numbuf`, and what it returns. -/
  text (t : List UInt8) : Option (List UInt8 × ℕ) := some (t.take (numbufSize - 1), t.length)

inductive Status
  | running
  | success
  | noSpace
  | malformed
  deriving DecidableEq

structure Filled where
  out : List UInt8
  status : Status
  deriving DecidableEq

/-- The format for a `$`, the offset, and what follows. An offset that is given stays. -/
def specifier (delta : ℤ) (name : List UInt8) : Option (ℤ × Format × List UInt8) := match name with
  | 123 :: rest => (scanFormat rest).map fun (delta, format) => (delta, format, skipBrace rest)
  | _ => some (delta, ⟨.decimal, 0⟩, name)

def gennameLoop (it : ℤ) : ℕ → ℤ → List UInt8 → ℕ → List UInt8 → Filled
  | 0, _, _, _, out => ⟨out, .running⟩
  | _ + 1, _, [], length, out => if length = 0 then ⟨out, .noSpace⟩ else ⟨out ++ [0], .success⟩
  | rounds + 1, delta, 36 :: 36 :: name, length, out =>
    if length = 0 then ⟨out, .noSpace⟩
    else gennameLoop it rounds delta name (length - 1) (out ++ [36])
  | rounds + 1, delta, 36 :: name, length, out =>
    match specifier delta name with
    | none => ⟨out, .malformed⟩
    | some (delta, format, name) =>
      match number format (toInt (it + delta)) with
      | none => ⟨out, .running⟩
      | some (numbuf, n) =>
        if numbufSize ≤ n then ⟨out, .noSpace⟩
        else if length < numbuf.length then ⟨out ++ numbuf.take length, .noSpace⟩
        else gennameLoop it rounds delta name (length - numbuf.length) (out ++ numbuf)
  | rounds + 1, delta, 92 :: c :: name, length, out =>
    if length = 0 then ⟨out, .noSpace⟩
    else if length - 1 = 0 then ⟨out ++ [92], .noSpace⟩
    else gennameLoop it rounds delta name (length - 2) (out ++ [92, c])
  | rounds + 1, delta, c :: name, length, out =>
    if length = 0 then ⟨out, .noSpace⟩
    else gennameLoop it rounds delta name (length - 1) (out ++ [c])

def genname (name : List UInt8) (it : ℤ) (length : ℕ) : Filled :=
  gennameLoop it (name.length + 1) 0 name length []

def lhsSize : ℕ := 2048

def rhsSize : ℕ := 65535 - 12 - 1 - 2 - 2 - 4 - 2

variable {σ ε : Type*}

structure Directive (ε : Type*) where
  range : List UInt8
  lhs : List UInt8
  type : Except ε Unit
  rhs : List UInt8

def fill (name : List UInt8) (i size : ℕ) : Option (Except (Failure ε) (List UInt8)) :=
  let filled := genname name (toInt i) size
  match filled.status with
  | .running => none
  | .success => some (.ok (filled.out.takeWhile (· ≠ 0)))
  | .noSpace => some (.error .noSpace)
  | .malformed => some (.error .malformed)

variable (process : List UInt8 → List UInt8 → σ → Except ε σ)

/-- The body of the loop of `generate`. What is done with the two texts is a parameter: the owner is
read and compared with the zone, and the rdata is read and committed. -/
def body (d : Directive ε) (i : ℕ) (s : σ) :
    Option (Except (Failure ε) σ) :=
  match fill d.lhs i lhsSize with
  | none => none
  | some (.error e) => some (.error e)
  | some (.ok lhs) =>
    match fill d.rhs i rhsSize with
    | none => none
    | some (.error e) => some (.error e)
    | some (.ok rhs) => some ((process lhs rhs s).mapError .other)

/-- `generate`, with a number of rounds for its loop. Nothing is returned if it has not ended then
or if one of the templates is never filled in. -/
def generate (d : Directive ε) (s : σ)
    (rounds : ℕ) : Option (Ended (Failure ε)) :=
  match scanRange d.range with
  | none => some ⟨some .malformed, []⟩
  | some (start, stop, step) =>
    if stop < start then some ⟨some .malformed, []⟩
    else
      match d.type with
      | .error e => some ⟨some (.other e), []⟩
      | .ok () => loop (body process d) (2 ^ 32) stop step rounds start s []

lemma length_gennameLoop_le (it : ℤ) (rounds : ℕ) (delta : ℤ) (name : List UInt8) (length : ℕ)
    (out : List UInt8) :
    (gennameLoop it rounds delta name length out).out.length ≤ out.length + length := by
  fun_induction gennameLoop it rounds delta name length out
  all_goals
    simp only [List.length_append, List.length_cons, List.length_nil, List.length_take] at *
    omega

lemma length_genname_le (name : List UInt8) (it : ℤ) (length : ℕ) :
    (genname name it length).out.length ≤ length := by
  simpa [genname] using length_gennameLoop_le it (name.length + 1) 0 name length []

lemma nibblesLoop_neg {upper : Bool} {rounds length width count : ℕ} {value : ℤ}
    {numbuf : List UInt8} (h : value < 0) :
    nibblesLoop upper rounds length width value numbuf count = none := by
  induction rounds generalizing length width value numbuf count with
  | zero => rfl
  | succ rounds ih =>
    have hnext : value / 16 < 0 := by omega
    simp only [nibblesLoop, hnext.ne, ne_eq, not_false_eq_true, or_true, true_or, if_true]
    exact ih hnext

lemma nibblesLoop_ends {upper : Bool} {rounds length width count : ℕ} {value : ℤ}
    {numbuf : List UInt8} (hneg : 0 ≤ value) (hvalue : value < 16 ^ rounds) (hwidth : width < rounds) :
    (nibblesLoop upper rounds length width value numbuf count).isSome := by
  induction rounds generalizing length width value numbuf count with
  | zero => omega
  | succ rounds ih =>
    have hnext : value / 16 < 16 ^ rounds := by
      rw [pow_succ] at hvalue
      omega
    simp only [nibblesLoop]
    by_cases hdot : 0 < width - 1 ∨ value / 16 ≠ 0
    · rw [if_pos hdot]
      by_cases hmore : value / 16 ≠ 0 ∨ 0 < width - 1 - 1
      · rw [if_pos hmore]
        have hpos : 0 < rounds := Nat.pos_of_ne_zero fun hzero => by
          rw [hzero, pow_zero] at hnext
          omega
        exact ih (by omega) hnext (by omega)
      · rw [if_neg hmore, Option.isSome_some]
    · rw [if_neg hdot, Option.isSome_some]

def Format.isNibble (format : Format) : Bool :=
  format.conversion = .nibble false || format.conversion = .nibble true

/-- The loop of `nibbles` shifts a negative number for ever. -/
lemma number_eq_none_iff {format : Format} {v : ℤ} : number format (toInt v) = none ↔
    format.isNibble ∧ toInt v < 0 := by
  obtain ⟨conversion, width⟩ := format
  have hlt : toInt v < 16 ^ (width + 9) := by
    have h31 : toInt v < 2 ^ 31 := Int.bmod_lt (by decide)
    have h16 : (16 : ℤ) ^ 9 ≤ 16 ^ (width + 9) := pow_le_pow_right₀ (by decide) (by omega)
    exact h31.trans_le ((by decide : (2 : ℤ) ^ 31 ≤ 16 ^ 9).trans h16)
  cases conversion with
  | decimal => simp [number, number.text, Format.isNibble]
  | octal => simp [number, number.text, Format.isNibble]
  | hex upper => simp [number, number.text, Format.isNibble]
  | nibble upper =>
    have hnibble : Format.isNibble ⟨.nibble upper, width⟩ := by cases upper <;> rfl
    simp only [number, nibbles, hnibble, true_and]
    refine ⟨fun hnone => ?_, nibblesLoop_neg⟩
    by_contra hneg
    have hends : (nibblesLoop upper (width + 9) (numbufSize - 1) width (toInt v) [] 0).isSome :=
      nibblesLoop_ends (not_lt.mp hneg) hlt (by omega)
    rw [hnone] at hends
    cases hends

/-- What a template says, whatever the value: text, where the value goes and how it is written, or
braces that are not understood. -/
inductive Piece
  | chars (bytes : List UInt8)
  | value (delta : ℤ) (format : Format)
  | malformed

lemma length_specifier {delta delta' : ℤ} {format : Format} {name rest : List UInt8}
    (h : specifier delta name = some (delta', format, rest)) : rest.length ≤ name.length := by
  unfold specifier at h
  split at h
  · obtain ⟨_, -, heq⟩ := map_eq_some_iff.mp h
    cases heq
    rw [skipBrace, List.length_tail, List.length_cons]
    exact (Nat.sub_le ..).trans ((List.dropWhile_sublist _).length_le.trans (Nat.le_succ _))
  · cases h
    exact le_rfl

def pieces (delta : ℤ) : List UInt8 → List Piece
  | [] => []
  | 36 :: 36 :: name => .chars [36] :: pieces delta name
  | 36 :: name =>
    match _h : specifier delta name with
    | none => [.malformed]
    | some (delta, format, rest) => .value delta format :: pieces delta rest
  | 92 :: c :: name => .chars [92, c] :: pieces delta name
  | c :: name => .chars [c] :: pieces delta name
termination_by name => name.length
decreasing_by
  all_goals grind [→ length_specifier]

/-- The length of what stands for a piece. -/
def Piece.length (it : ℤ) : Piece → Option ℕ
  | chars bytes => some bytes.length
  | value delta format => (number format (toInt (it + delta))).bind fun (numbuf, n) =>
      if numbufSize ≤ n then none else some numbuf.length
  | malformed => none

/-- The pieces can be written, and there is room for them. -/
def Fit (it : ℤ) (length : ℕ) (ps : List Piece) : Prop :=
  (∀ p ∈ ps, (p.length it).isSome) ∧ (ps.map fun p => (p.length it).getD 0).sum ≤ length

/-- A negative number is written in nibbles. -/
def Endless (it : ℤ) (length : ℕ) (ps : List Piece) : Prop :=
  ∃ pre delta format post, ps = pre ++ .value delta format :: post ∧ Fit it length pre ∧
    format.isNibble ∧ toInt (it + delta) < 0

/-- How the filling in of a template ends, if at all. -/
structure Says (it : ℤ) (length : ℕ) (ps : List Piece) (filled : Filled) : Prop where
  running : filled.status = .running ↔ Endless it length ps
  success : filled.status = .success ↔ 0 < length ∧ Fit it (length - 1) ps

section
variable {it delta : ℤ} {length n : ℕ} {p : Piece} {ps : List Piece} {filled : Filled}

lemma fit_cons : Fit it length (p :: ps) ↔
    ∃ n, p.length it = some n ∧ n ≤ length ∧ Fit it (length - n) ps := by
  simp only [Fit, List.forall_mem_cons, List.map_cons, List.sum_cons]
  cases hp : p.length it with
  | none => simp
  | some n =>
    simp only [isSome_some, true_and, getD_some, some.injEq, exists_eq_left']
    refine ⟨fun h => ⟨by omega, h.1, by omega⟩, fun h => ⟨h.2.1, by omega⟩⟩

lemma endless_cons : Endless it length (p :: ps) ↔
    (∃ delta format, p = .value delta format ∧ format.isNibble ∧ toInt (it + delta) < 0) ∨
      ∃ n, p.length it = some n ∧ n ≤ length ∧ Endless it (length - n) ps := by
  constructor
  · rintro ⟨_ | ⟨q, pre⟩, delta, format, post, heq, hfit, hnibble, hneg⟩
    · cases heq
      exact .inl ⟨delta, format, rfl, hnibble, hneg⟩
    · cases heq
      obtain ⟨n, hq, hn, hrest⟩ := fit_cons.mp hfit
      exact .inr ⟨n, hq, hn, pre, delta, format, post, rfl, hrest, hnibble, hneg⟩
  · rintro (⟨delta, format, rfl, hnibble, hneg⟩ | ⟨n, hp, hn, pre, delta, format, post, rfl, hfit, h⟩)
    · exact ⟨[], delta, format, ps, rfl, by simp [Fit], hnibble, hneg⟩
    · exact ⟨p :: pre, delta, format, post, rfl, fit_cons.mpr ⟨n, hp, hn, hfit⟩, h⟩

lemma Says.cons (hp : p.length it = some n) (hn : n ≤ length) (h : Says it (length - n) ps filled) :
    Says it length (p :: ps) filled := by
  have hends : ¬∃ delta format, p = .value delta format ∧ format.isNibble ∧ toInt (it + delta) < 0 := by
    rintro ⟨delta, format, rfl, hstuck⟩
    rw [Piece.length, number_eq_none_iff.mpr hstuck] at hp
    cases hp
  constructor
  · rw [h.running, endless_cons, or_iff_right hends]
    simp [hp, hn]
  · rw [h.success, fit_cons]
    simp only [hp, some.injEq, exists_eq_left', Nat.sub_right_comm length n 1]
    refine and_assoc.symm.trans (and_congr_left fun _ => ?_) |>.symm
    omega

lemma Says.error (hp : ∀ n, p.length it = some n → length < n)
    (hends : ∀ delta format, p = .value delta format → number format (toInt (it + delta)) ≠ none)
    (hrunning : filled.status ≠ .running) (hsuccess : filled.status ≠ .success) :
    Says it length (p :: ps) filled := by
  constructor
  · refine iff_of_false hrunning ?_
    rw [endless_cons]
    rintro (⟨delta, format, rfl, hstuck⟩ | ⟨n, hn, hle, -⟩)
    · exact hends delta format rfl (number_eq_none_iff.mpr hstuck)
    · exact absurd (hp n hn) (not_lt.mpr hle)
  · refine iff_of_false hsuccess ?_
    rw [fit_cons]
    rintro ⟨-, n, hn, hle, -⟩
    have := hp n hn
    omega

lemma Says.full {bytes : List UInt8} (hfull : length < bytes.length) {out : List UInt8} :
    Says it length (.chars bytes :: ps) ⟨out, .noSpace⟩ := by
  refine .error (fun n hn => ?_) (by simp) (by simp) (by simp)
  cases hn
  exact hfull

lemma pieces_value {name rest : List UInt8} {delta' : ℤ} {format : Format}
    (hname : ∀ name', name = 36 :: name' → False)
    (h : specifier delta name = some (delta', format, rest)) :
    pieces delta (36 :: name) = .value delta' format :: pieces delta' rest := by
  rw [pieces]
  · split
    · next hnone => simp [h] at hnone
    · next hsome =>
      rw [h] at hsome
      cases hsome
      rfl
  · exact hname

lemma pieces_malformed {name : List UInt8} (hname : ∀ name', name = 36 :: name' → False)
    (h : specifier delta name = none) : pieces delta (36 :: name) = [.malformed] := by
  rw [pieces]
  · split
    · rfl
    · next hsome => simp [h] at hsome
  · exact hname

lemma gennameLoop_says {rounds : ℕ} {name out : List UInt8} (h : name.length < rounds) :
    Says it length (pieces delta name) (gennameLoop it rounds delta name length out) := by
  fun_induction gennameLoop it rounds delta name length out with
  | case1 => omega
  | case2 => exact ⟨by simp [pieces, Endless], by simp⟩
  | case3 _ _ length _ hne =>
    exact ⟨by simp [pieces, Endless], by simp [pieces, Fit, Nat.pos_of_ne_zero hne]⟩
  | case4 =>
    rw [pieces]
    exact .full (by simp)
  | case5 _ _ _ _ _ hne ih =>
    rw [pieces]
    exact .cons rfl (Nat.pos_of_ne_zero hne) (ih (by grind))
  | case6 _ _ _ _ _ hname hnone =>
    rw [pieces_malformed hname hnone]
    exact .error (by simp [Piece.length]) (by simp) (by simp) (by simp)
  | case7 _ _ _ _ _ hname _ _ _ hspec hnumber =>
    rw [pieces_value hname hspec]
    refine ⟨iff_of_true rfl (endless_cons.mpr (.inl ⟨_, _, rfl, number_eq_none_iff.mp hnumber⟩)), ?_⟩
    refine iff_of_false (by simp) ?_
    rw [fit_cons]
    simp [Piece.length, hnumber]
  | case8 _ _ _ _ _ hname _ _ _ hspec _ _ hnumber hlong =>
    rw [pieces_value hname hspec]
    refine .error (by simp [Piece.length, hnumber, hlong]) ?_ (by simp) (by simp)
    rintro _ _ ⟨⟩
    simp [hnumber]
  | case9 _ _ _ _ _ hname _ _ _ hspec _ _ hnumber hshort hfull =>
    rw [pieces_value hname hspec]
    refine .error (by simp [Piece.length, hnumber, hshort, hfull]) ?_ (by simp) (by simp)
    rintro _ _ ⟨⟩
    simp [hnumber]
  | case10 _ _ _ _ _ hname _ _ _ hspec _ _ hnumber hshort hroom ih =>
    rw [pieces_value hname hspec]
    have hrest := length_specifier hspec
    exact .cons (by simp [Piece.length, hnumber, hshort]) (not_lt.mp hroom) (ih (by grind))
  | case11 =>
    rw [pieces]
    exact .full (by simp)
  | case12 _ _ _ _ _ _ _ hone =>
    rw [pieces]
    exact .full (by simp; omega)
  | case13 _ _ _ _ _ _ _ hone ih =>
    rw [pieces]
    exact .cons rfl (by simp; omega) (ih (by grind))
  | case14 _ _ _ _ _ h36 h92 =>
    rw [pieces]
    · exact .full (by simp)
    all_goals grind
  | case15 _ _ _ _ _ _ _ h36 h92 hne ih =>
    rw [pieces]
    · exact .cons rfl (Nat.pos_of_ne_zero hne) (ih (by grind))
    all_goals grind

end

lemma scanUnsigned_lt {text rest : List UInt8} {n : ℕ} (h : scanUnsigned text = some (n, rest)) :
    n < 2 ^ 32 := by
  obtain ⟨⟨negative, m, r⟩, -, heq⟩ := bind_eq_some_iff.mp h
  simp only [some.injEq, Prod.mk.injEq] at heq
  rw [← heq.1]
  exact Nat.mod_lt _ (by decide)

lemma scanRange_lt {range : List UInt8} {start stop step : ℕ}
    (h : scanRange range = some (start, stop, step)) : stop < 2 ^ 32 ∧ step < 2 ^ 32 := by
  simp only [scanRange, bind_eq_bind, bind_eq_some_iff, some.injEq, Prod.mk.injEq,
    Prod.exists] at h
  obtain ⟨_, _, -, _, -, _, rest, hstop, -, rfl, hstep⟩ := h
  refine ⟨scanUnsigned_lt hstop, ?_⟩
  rw [← hstep]
  cases hscan : (scanChar 47 rest).bind fun rest => (scanUnsigned rest).bind fun r => some r.1 with
  | none => simp
  | some n =>
    simp only [bind_eq_some_iff, some.injEq, Prod.exists, exists_and_right,
      exists_eq_right] at hscan
    obtain ⟨_, -, _, hn⟩ := hscan
    exact scanUnsigned_lt hn

/-- Both templates are filled in for a value. -/
def Directive.Filled (d : Directive ε) (i : ℕ) : Prop :=
  Fit (toInt i) (lhsSize - 1) (pieces 0 d.lhs) ∧ Fit (toInt i) (rhsSize - 1) (pieces 0 d.rhs)

/-- One of the templates is never filled in, and the one before it is. -/
def Directive.Endless (d : Directive ε) (i : ℕ) : Prop :=
  Master.Endless (toInt i) lhsSize (pieces 0 d.lhs) ∨
    Fit (toInt i) (lhsSize - 1) (pieces 0 d.lhs) ∧ Master.Endless (toInt i) rhsSize (pieces 0 d.rhs)

lemma fill_cases (name : List UInt8) (i size : ℕ) (hsize : 0 < size) :
    ((fill name i size : Option (Except (Failure ε) _)) = none ↔
      Master.Endless (toInt i) size (pieces 0 name)) ∧
    ((∃ t, (fill name i size : Option (Except (Failure ε) _)) = some (.ok t)) ↔
      Fit (toInt i) (size - 1) (pieces 0 name)) := by
  have hsays : Says (toInt i) size (pieces 0 name) (genname name (toInt i) size) :=
    gennameLoop_says (Nat.lt_succ_self _)
  rw [← hsays.running, ← and_iff_right hsize (b := Fit ..), ← hsays.success, fill]
  cases (genname name (toInt i) size).status <;> simp

lemma body_cases (process : List UInt8 → List UInt8 → σ → Except ε σ) (d : Directive ε) (i : ℕ) (s : σ) :
    (body process d i s = none ↔ d.Endless i) ∧
    (d.Filled i → ∃ lhs rhs, body process d i s = some ((process lhs rhs s).mapError .other)) ∧
    (∀ s', body process d i s = some (.ok s') → d.Filled i) ∧
    (¬d.Filled i → ¬d.Endless i → ∃ e, body process d i s = some (.error e)) := by
  obtain ⟨hlnone, hlok⟩ := fill_cases (ε := ε) d.lhs i lhsSize (by decide)
  obtain ⟨hrnone, hrok⟩ := fill_cases (ε := ε) d.rhs i rhsSize (by decide)
  unfold Directive.Filled Directive.Endless body
  rw [← hlnone, ← hrnone, ← hlok, ← hrok]
  rcases (fill d.lhs i lhsSize : Option (Except (Failure ε) _)) with _ | _ | lhs
  · simp
  · simp
  rcases (fill d.rhs i rhsSize : Option (Except (Failure ε) _)) with _ | _ | rhs
  · simp
  · simp
  · refine ⟨by simp, fun _ => ⟨lhs, rhs, rfl⟩, by simp, by simp⟩

/-- A template is refused for one of the values of the counter, or the step is not 0, the counter
does not overflow after the last value, and every template is filled in or refused. -/
def Directive.Ends (d : Directive ε) (start stop step : ℕ) : Prop :=
  (∃ n, (∀ m ≤ n, (start + m * step) % 2 ^ 32 ≤ stop) ∧
    (∀ m < n, d.Filled ((start + m * step) % 2 ^ 32)) ∧
    ¬d.Filled ((start + n * step) % 2 ^ 32) ∧ ¬d.Endless ((start + n * step) % 2 ^ 32)) ∨
  step ≠ 0 ∧ start + ((stop - start) / step + 1) * step < 2 ^ 32 ∧
    ∀ i ∈ values stop step start, ¬d.Endless i

lemma loop_templates_iff {d : Directive ε} {s : σ} {start stop step : ℕ} (hstart : start ≤ stop)
    (hstop : stop < 2 ^ 32) :
    (∀ process : List UInt8 → List UInt8 → σ → Except ε σ,
      Fails (body process d) (2 ^ 32) stop step start s ∨
        step ≠ 0 ∧ start + ((stop - start) / step + 1) * step < 2 ^ 32 ∧
          ∀ n j t, Steps (body process d) (2 ^ 32) stop step n start s j t →
            j ≤ stop → body process d j t ≠ none) ↔
      d.Ends start stop step := by
  have hlt : start < 2 ^ 32 := lt_of_le_of_lt hstart hstop
  constructor
  · intro h
    -- nothing is refused but by the templates
    have haccept := h fun _ _ s => .ok s
    by_cases hfails : Fails (body (fun _ _ s => .ok s) d) (2 ^ 32) stop step start s
    · obtain ⟨n, j, t, e, hsteps, hj, hbody⟩ := hfails
      obtain rfl := hsteps.counter hlt
      refine .inl ⟨n, fun m hm => ?_, fun m hm => ?_, fun hfilled => ?_, fun hendless => ?_⟩
      · rcases hm.lt_or_eq with hm | rfl
        · exact (hsteps.before hlt hm).1
        · exact hj
      · obtain ⟨-, u, u', hok⟩ := hsteps.before hlt hm
        exact (body_cases _ d _ u).2.2.1 u' hok
      · obtain ⟨lhs, rhs, hok⟩ := (body_cases (fun _ _ s => .ok s) d _ t).2.1 hfilled
        rw [hbody] at hok
        cases hok
      · rw [(body_cases _ d _ t).1.mpr hendless] at hbody
        cases hbody
    · obtain ⟨hstep, hover, hends⟩ := haccept.resolve_left hfails
      refine .inr ⟨hstep, hover, fun i hi hendless => ?_⟩
      obtain ⟨k, hk, rfl⟩ := List.mem_map.mp hi
      have hk := List.mem_range.mp hk
      obtain ⟨t, ht⟩ := exists_steps hstart hstep hover hends hfails hk.le
      exact hends k _ t ht ((le_stop_iff hstart (Nat.pos_of_ne_zero hstep)).mpr hk)
        ((body_cases _ d _ t).1.mpr hendless)
  · rintro (⟨n, hle, hfilled, hnot, hends⟩ | ⟨hstep, hover, hends⟩) process
    · left
      have hbody : ∀ m < n, ∀ u, body process d ((start + m * step) % 2 ^ 32) u ≠ none := by
        intro m hm u hnone
        obtain ⟨lhs, rhs, hok⟩ := (body_cases process d _ u).2.1 (hfilled m hm)
        rw [hnone] at hok
        cases hok
      rcases fails_or_steps hlt (fun m hm => hle m hm.le) hbody with hfails | ⟨t, ht⟩
      · exact hfails
      · obtain ⟨e, he⟩ := (body_cases process d _ t).2.2.2 hnot hends
        exact ⟨n, _, t, e, ht, hle n le_rfl, he⟩
    · refine .inr ⟨hstep, hover, fun n j t hsteps hj hnone => ?_⟩
      exact hends j (hsteps.mem_values hj hstart hstep hover) ((body_cases process d j t).1.mp hnone)

def zeroStep : Directive Empty := ⟨[49, 45, 50, 47, 48], [97], .ok (), [98]⟩

end LbBind.Master

import Mathlib.Algebra.BigOperators.Group.List.Basic
import LbBind.Lex.Machine
import LbBind.Rdatatype
import LbBind.Rdataslab.Layout

/-! `dns_rdata_fromtext`. The tokens come from any source that runs out of them. The
converters of TXT and SPF and the generic format of RFC 3597 are modelled, and the
converters of the other types are a parameter. -/

open LbBind.Lex

namespace LbBind.Fromtext

structure TokenSource (σ : Type) where
  gettoken : Options → σ → Except Result Token × σ
  ungettoken : σ → σ
  left : σ → ℕ
  gettoken_left : ∀ {options s token s'}, gettoken options s = (.ok token, s') → token ≠ .eof →
    left s' < left s

structure Target where
  used : List UInt8
  length : ℕ

def Target.available (t : Target) : ℕ := t.length - t.used.length

def Target.add (t : Target) (bytes : List UInt8) : Target := { t with used := t.used ++ bytes }

inductive Expect where
  | string
  | qstring
  | number
  deriving DecidableEq

def masterOptions (expect : Expect) : Options where
  eol := true
  eof := true
  initialws := false
  number := expect = .number
  qstring := expect = .qstring
  dnsmultiline := true
  cnumber := false
  escape := true
  qstringmultiline := false
  octal := false

def Expect.accepts : Expect → Token → Bool
  | .string, .string _ => true
  | .qstring, .string _ => true
  | .qstring, .qstring _ => true
  | .number, .number _ => true
  | _, _ => false

def endsLine (t : Token) : Bool := t = .eol || t = .eof

section
variable {σ : Type} (src : TokenSource σ)

def getmastertoken (expect : Expect) (eol : Bool) (s : σ) : Except Result Token × σ :=
  match src.gettoken (masterOptions expect) s with
  | (.error r, s) => (.error r, if r = .range then src.ungettoken s else s)
  | (.ok t, s) =>
    if eol && endsLine t then (.ok t, s)
    else if expect.accepts t then (.ok t, s)
    else if endsLine t then (.error .unexpectedEnd, src.ungettoken s)
    else if expect = .number then (.error .badNumber, src.ungettoken s)
    else (.error .unexpectedToken, src.ungettoken s)

lemma getmastertoken_left {expect : Expect} {eol : Bool} {s s' : σ} {t : Token}
    (h : getmastertoken src expect eol s = (.ok t, s')) (ht : t ≠ .eof) :
    src.left s' < src.left s := by
  unfold getmastertoken at h
  cases hget : src.gettoken (masterOptions expect) s with
  | mk r s1 =>
    cases r with
    | error r => simp [hget] at h
    | ok t1 =>
      simp only [hget] at h
      split_ifs at h <;> cases h
      all_goals exact src.gettoken_left hget ht

end

/-- `decvalue`. The terminating zero of the table of digits counts as ten. -/
def decvalue (c : UInt8) : Option ℕ :=
  if 48 ≤ c ∧ c ≤ 57 then some (c.toNat - 48) else if c = 0 then some 10 else none

def decimal (d d₁ d₂ : ℕ) : ℕ := (d * 10 + d₁) * 10 + d₂

/-- The loop of `txt_fromtext`: the text, whether a backslash was before it, the room
that remains and what has been stored. -/
def txtLoop (full : Result) : List UInt8 → Bool → ℕ → List UInt8 → Except Result (List UInt8)
  | [], escape, _, t => if escape then .error .syntaxErr else .ok t
  | c :: s, false, nrem, t =>
    if c = 92 then txtLoop full s true nrem t
    else if nrem = 0 then .error full
    else txtLoop full s false (nrem - 1) (t ++ [c])
  | c :: s, true, nrem, t =>
    match decvalue c with
    | none => if nrem = 0 then .error full else txtLoop full s false (nrem - 1) (t ++ [c])
    | some d =>
      match s with
      | c₁ :: c₂ :: s =>
        match decvalue c₁, decvalue c₂ with
        | some d₁, some d₂ =>
          if 255 < decimal d d₁ d₂ then .error .syntaxErr
          else if nrem = 0 then .error full
          else txtLoop full s false (nrem - 1) (t ++ [UInt8.ofNat (decimal d d₁ d₂)])
        | _, _ => .error .syntaxErr
      | _ => .error .syntaxErr

def txtFromtext (source : List UInt8) (target : Target) : Except Result Target :=
  if target.available < 1 then .error .noSpace
  else
    let full := if target.available ≤ 256 then .noSpace else .syntaxErr
    match txtLoop full source false (min (target.available - 1) 255) [] with
    | .error r => .error r
    | .ok t => .ok (target.add (UInt8.ofNat t.length :: t))

def text : Token → Option (List UInt8)
  | .string t => some t
  | .qstring t => some t
  | _ => none

variable {σ : Type} (src : TokenSource σ)

def fromtextStrings (strings : ℕ) (s : σ) (target : Target) : Except Result Target × σ :=
  match _hget : getmastertoken src .qstring true s with
  | (.error r, s) => (.error r, s)
  | (.ok token, s') =>
    match _htext : text token with
    | none =>
      (if strings = 0 then .error .unexpectedEnd else .ok target, src.ungettoken s')
    | some t =>
      match txtFromtext t target with
      | .error r => (.error r, src.ungettoken s')
      | .ok target => fromtextStrings (strings + 1) s' target
termination_by src.left s
decreasing_by exact getmastertoken_left src _hget (by rintro rfl; simp [text] at _htext)

/-- The index of a character in the table of hexadecimal digits, its terminating zero
included. -/
def hexvalue (c : UInt8) : Option ℕ := if 48 ≤ c ∧ c ≤ 57 then some (c.toNat - 48)
  else if 65 ≤ c ∧ c ≤ 70 then some (c.toNat - 55)
  else if 97 ≤ c ∧ c ≤ 102 then some (c.toNat - 87)
  else if c = 0 then some 16
  else none

structure HexCtx where
  length : ℤ
  digit : Option ℕ
  target : Target

def hexDecodeChar (ctx : HexCtx) (c : UInt8) : Except Result HexCtx := match hexvalue c with
  | none => .error .badHex
  | some v =>
    match ctx.digit with
    | none => .ok { ctx with digit := some v }
    | some d =>
      if ctx.target.available < 1 then .error .noSpace
      else if ctx.length = 0 then .error .badHex
      else
        .ok ⟨if 0 ≤ ctx.length then ctx.length - 1 else ctx.length, none,
          ctx.target.add [UInt8.ofNat (d * 16 + v)]⟩

def hexLoop (eol : Bool) (s : σ) (ctx : HexCtx) : Except Result HexCtx × σ :=
  if ctx.length = 0 then (.ok ctx, s)
  else
    match _hget : getmastertoken src .string eol s with
    | (.error r, s) => (.error r, s)
    | (.ok token, s') =>
      match _htext : text token with
      | none => (.ok ctx, s')
      | some t =>
        match t.foldlM hexDecodeChar ctx with
        | .error r => (.error r, s')
        | .ok ctx => hexLoop eol s' ctx
termination_by src.left s
decreasing_by exact getmastertoken_left src _hget (by rintro rfl; simp [text] at _htext)

def hexTobuffer (s : σ) (target : Target) (length : ℤ) : Except Result Target × σ :=
  match hexLoop src (decide (length ≤ 0)) s ⟨length, none, target⟩ with
  | (.error r, s) => (.error r, s)
  | (.ok ctx, s) =>
    let s := if ctx.length < 0 then src.ungettoken s else s
    if 0 < ctx.length then (.error .unexpectedEnd, s)
    else if ctx.digit.isSome then (.error .badHex, s)
    else (.ok ctx.target, s)

structure Types (σ : Type) where
  known : ℕ → Bool
  fromtext : ℕ → ℕ → σ → Target → Except Result Target × σ
  fromwire : ℕ → ℕ → List UInt8 → Target → Except Result Target
  fromwire_appends : ∀ {rdclass type data target target'},
    fromwire rdclass type data target = .ok target' →
      ∃ bytes, target'.used = target.used ++ bytes ∧ bytes.length ≤ data.length

def intOf (n : ℕ) : ℤ := if n % 2 ^ 32 < 2 ^ 31 then n % 2 ^ 32 else n % 2 ^ 32 - 2 ^ 32

variable (types : Types σ)

/-- The rest of `unknown_fromtext`, once the length is read. -/
def unknownData (rdclass type n : ℕ) (s : σ) (target : Target) :
    Except Result Target × σ :=
  match hexTobuffer src s ⟨[], n % 2 ^ 32⟩ (intOf n) with
  | (.error r, s) => (.error r, s)
  | (.ok buf, s) =>
    if buf.used.length ≠ n then (.error .unexpectedEnd, s)
    else if types.known type then (types.fromwire rdclass type buf.used target, s)
    else if target.available < buf.used.length then (.error .noSpace, s)
    else (.ok (target.add buf.used), s)

/-- `unknown_fromtext`. It goes on when no number can be read, with what the value of
the token then holds. -/
def unknownFromtext (stale rdclass type : ℕ) (s : σ) (target : Target) :
    Except Result Target × σ :=
  if type = 0 ∨ Rdatatype.ismeta type then (.error .metatype, s)
  else
    match getmastertoken src .number false s with
    | (.ok (.number n), s) =>
      if 65535 < n then (.error .range, s) else unknownData src types rdclass type n s target
    | (_, s) => unknownData src types rdclass type stale s target

def txt : ℕ := 16
def spf : ℕ := 99

def fromtextSwitch (rdclass type : ℕ) (s : σ) (target : Target) :
    Except Result Target × σ :=
  if type = txt ∨ type = spf then fromtextStrings src 0 s target
  else types.fromtext rdclass type s target

def isHash (t : Token) : Bool := match text t with
  | some t => t.takeWhile (· ≠ 0) = [92, 35]
  | none => false

def toEol {α : Type} (result : Except Result α) (s : σ) : Except Result α × σ :=
  match _hget : src.gettoken (masterOptions .string) s with
  | (.error r, s) => (result >>= fun _ => .error r, s)
  | (.ok token, s') =>
    if _hend : endsLine token then (result, s')
    else toEol (result >>= fun _ => .error .extraToken) s'
termination_by src.left s
decreasing_by exact src.gettoken_left _hget (by rintro rfl; simp [endsLine] at _hend)

/-- The generic format is marked by its first token, which is given back otherwise. -/
def converted (stale rdclass type : ℕ) (token : Token) (s : σ)
    (target : Target) : Except Result Target × σ :=
  if isHash token then unknownFromtext src types stale rdclass type s target
  else fromtextSwitch src types rdclass type (src.ungettoken s) target

/-- `dns_rdata_fromtext`: the rdata, the source after the line and the target. -/
def fromtext (stale rdclass type : ℕ) (s : σ) (target : Target) :
    Except Result (List UInt8) × σ × Target :=
  match getmastertoken src .qstring false s with
  | (.error r, s) => (.error r, s, target)
  | (.ok token, s) =>
    let c := converted src types stale rdclass type token s target
    match toEol src c.1 c.2 with
    | (.error r, s) => (.error r, s, target)
    | (.ok target', s) => (.ok (target'.used.drop target.used.length), s, target')

end LbBind.Fromtext

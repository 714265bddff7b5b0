import LbBind.Lib.Bytes
import LbBind.Result

/-! The tokenizer of `lib/isc/lex.c`. What is read from a file or a buffer goes through a pushback
buffer, from which a token can be read again. The loop of `isc_lex_gettoken` is a machine whose
rounds read one character; a `goto no_read` is a round that keeps its character. -/

namespace LbBind.Lex

open Lib (isdigit)

inductive Kind where
  | file
  | buffer
  deriving DecidableEq

/-- `inputsource`. The used part of the pushback buffer is a list, and `input` is
what the file or the buffer still has. -/
structure Source where
  input : List UInt8
  pushback : List UInt8
  current : ℕ
  atEof : Bool
  line : ℕ
  savedLine : ℕ
  deriving DecidableEq

def endOfFile : ℤ := -1

/-- What is read is an int: `getc` gives an unsigned char, the buffer a (signed)
char. -/
def readInt : Kind → UInt8 → ℤ
  | .file, b => b.toNat
  | .buffer, b => if b.toNat < 128 then b.toNat else b.toNat - 256

def byteOf (c : ℤ) : UInt8 := UInt8.ofNat (c % 256).toNat

namespace Source

variable (s : Source)

def remaining : ℕ := s.pushback.length - s.current

def left : ℕ := s.remaining + s.input.length

def fill (kind : Kind) (s : Source) : Source := if s.remaining = 0 then
    match s.input with
    | [] => { s with atEof := true }
    | b :: rest =>
      if readInt kind b ≠ endOfFile then
        { s with input := rest, pushback := s.pushback ++ [byteOf (readInt kind b)] }
      else { s with input := rest }
  else s

/-- The next character, or `none` at the end. There is no result if the assertion
of `isc_buffer_getuint8` fails. -/
def fetch (kind : Kind) (s : Source) : Option (Option UInt8 × Source) :=
  let s := s.fill kind
  if s.atEof then some (none, s)
  else
    match s.pushback[s.current]? with
    | none => none
    | some b =>
      some (some b,
        { s with current := s.current + 1, line := if b = 10 then s.line + 1 else s.line })

def unread (c : Option UInt8) : Option Source := if s.current = 0 then none
  else
    match c with
    | none => some { s with atEof := false }
    | some b =>
      some { s with current := s.current - 1, line := if b = 10 then s.line - 1 else s.line }

def compact : Source := { s with pushback := s.pushback.drop s.current, current := 0 }

end Source

inductive State where
  | start
  | crlf
  | string
  | number
  | maybecomment
  | ccomment
  | ccommentend
  | eatline
  | qstring
  deriving DecidableEq

structure Options where
  eol : Bool
  eof : Bool
  initialws : Bool
  number : Bool
  qstring : Bool
  dnsmultiline : Bool
  cnumber : Bool
  escape : Bool
  qstringmultiline : Bool
  octal : Bool
  deriving DecidableEq

def Options.joinLines (o : Options) : Options := { o with eol := false, initialws := false }

structure Comments where
  c : Bool
  cplusplus : Bool
  shell : Bool
  dnsmasterfile : Bool
  deriving DecidableEq

inductive Token where
  | string (text : List UInt8)
  | number (n : ℕ)
  | qstring (text : List UInt8)
  | eol
  | eof
  | initialws (c : UInt8)
  | special (c : UInt8)
  deriving DecidableEq

structure Lexer where
  comments : Comments
  specials : UInt8 → Bool
  commentOk : Bool
  lastWasEol : Bool
  parenCount : ℕ
  savedParenCount : ℕ
  source : Source

/-- The variables of `isc_lex_gettoken`. `data` is what stands in `lex->data` before
`curr`, and `pending` the character that a `goto no_read` keeps. -/
structure Scan where
  lex : Lexer
  options : Options
  savedOptions : Options
  noComments : Bool
  escaped : Bool
  state : State
  savedState : State
  data : List UInt8
  hasPrev : Bool
  pending : Option (Option UInt8)

inductive Round where
  | next (s : Scan)
  | done (result : Except Result Token) (lex : Lexer)
  | abort

variable (s : Scan)

def Scan.withSource (source : Source) : Scan :=
  { s with lex := { s.lex with source := source } }

variable (b : UInt8)

def Scan.put : Scan := { s with data := s.data ++ [b] }

def Scan.keep (state : State) (c : Option UInt8) : Scan :=
  { s with state := state, pending := some c }

variable (c : Option UInt8)

def Scan.resume : Scan :=
  { s with noComments := false, state := s.savedState, pending := some c }

def Scan.finish (result : Except Result Token) : Round :=
  match s.lex.source.unread c with
  | none => .abort
  | some source => .done result { s.lex with source := source }

variable (s : Scan)

def paren : Round := if b = 40 then
    .next { s with
      options := if s.lex.parenCount = 0 then s.options.joinLines else s.options
      lex := { s.lex with parenCount := (s.lex.parenCount + 1) % 2 ^ 32 } }
  else if s.lex.parenCount = 0 then .done (.error .unbalanced) s.lex
  else
    .next { s with
      options := if s.lex.parenCount = 1 then s.savedOptions else s.options
      lex := { s.lex with parenCount := s.lex.parenCount - 1 } }

def startEof : Round :=
  let lex := { s.lex with lastWasEol := false }
  if s.options.dnsmultiline && lex.parenCount != 0 then
    .done (.error .unbalanced) { lex with parenCount := 0 }
  else if s.options.eof then .done (.ok .eof) lex
  else .done (.error .eof) lex

def startToken : Round :=
  let s : Scan := { s with lex := { s.lex with lastWasEol := false } }
  if b = 34 ∧ s.options.qstring = true then
    .next { s with noComments := true, state := .qstring }
  else if s.lex.specials b then
    if (b = 40 ∨ b = 41) ∧ s.options.dnsmultiline = true then paren b s
    else .done (.ok (.special b)) s.lex
  else if isdigit b && s.options.number && !(s.options.octal && (b == 56 || b == 57)) then
    .next (s.keep .number (some b))
  else .next (s.keep .string (some b))

def start : Round := match c with
  | none => startEof s
  | some b =>
    if b = 32 ∨ b = 9 then
      if s.lex.lastWasEol && s.options.initialws then
        .done (.ok (.initialws b)) { s.lex with lastWasEol := false }
      else .next s
    else if b = 10 then
      let lex := { s.lex with lastWasEol := true }
      if s.options.eol then .done (.ok .eol) lex else .next { s with lex := lex }
    else if b = 13 then .next (if s.options.eol then { s with state := .crlf } else s)
    else startToken b s

def crlf : Round :=
  let s := { s with lex := { s.lex with lastWasEol := true } }
  if c = some 10 then .done (.ok .eol) s.lex else s.finish c (.ok .eol)

section
variable (parseUint32 : ℕ → List UInt8 → Except Result ℕ)

def Options.base (o : Options) : ℕ := if o.octal then 8 else if o.cnumber then 0 else 10

def numberToken (o : Options) (data : List UInt8) : Except Result Token :=
  match parseUint32 o.base data with
  | .ok n => .ok (.number n)
  | .error .badNumber => .ok (.string data)
  | .error r => .error r

def endsNumber (specials : UInt8 → Bool) : Option UInt8 → Bool
  | none => true
  | some b => b == 32 || b == 9 || b == 13 || b == 10 || specials b

def number (c : Option UInt8) (s : Scan) : Round := match c with
  | none => s.finish none (numberToken parseUint32 s.options s.data)
  | some b =>
    if isdigit b then
      if s.options.octal && (b == 56 || b == 57) then .next ({ s with state := .string }.put b)
      else .next (s.put b)
    else if endsNumber s.lex.specials c then
      s.finish c (numberToken parseUint32 s.options s.data)
    -- hexadecimal numbers start with 0x
    else if s.options.cnumber && (b == 120 || b == 88) && s.data == [48] then .next (s.put b)
    else .next ({ s with state := .string }.put b)

end

def endsString (specials : UInt8 → Bool) (escaped : Bool) : Option UInt8 → Bool
  | none => true
  | some b => b == 13 || b == 10 || (!escaped && (b == 32 || b == 9 || specials b))

variable (c : Option UInt8) (s : Scan)

def string : Round := match c with
  | none => s.finish none (.ok (.string s.data))
  | some b =>
    if endsString s.lex.specials s.escaped c then s.finish c (.ok (.string s.data))
    else
      .next ({ s with
        escaped := if s.options.escape then !s.escaped && b == 92 else s.escaped }.put b)

def maybecomment : Round :=
  if c = some 42 ∧ s.lex.comments.c = true then .next { s with state := .ccomment }
  else if c = some 47 ∧ s.lex.comments.cplusplus = true then .next { s with state := .eatline }
  else
    match s.lex.source.unread c with
    | none => .abort
    | some source => .next ((s.withSource source).resume (some 47))

def ccomment : Round := match c with
  | none => .done (.error .unexpectedEnd) s.lex
  | some b => .next (if b = 42 then { s with state := .ccommentend } else s)

def ccommentend : Round := match c with
  | none => .done (.error .unexpectedEnd) s.lex
  | some b =>
    if b = 47 then .next (s.resume (some 32))
    else if b = 42 then .next s
    else .next { s with state := .ccomment }

def eatline : Round :=
  if c = some 10 ∨ c = none then .next (s.resume c) else .next s

def qstring : Round := match c with
  | none => .done (.error .unexpectedEnd) s.lex
  | some b =>
    if b = 34 then
      if s.escaped then
        -- the quote takes the place of the backslash before it
        if s.hasPrev then .next { s with escaped := false, data := s.data.dropLast ++ [34] }
        else .abort
      else .done (.ok (.qstring s.data)) s.lex
    else if b = 10 ∧ s.escaped = false ∧ s.options.qstringmultiline = false then
      s.finish c (.error .unbalancedQuotes)
    else .next ({ s with escaped := b == 92 && !s.escaped, hasPrev := true }.put b)

section
variable (parseUint32 : ℕ → List UInt8 → Except Result ℕ)

def switch (c : Option UInt8) (s : Scan) : Round := match s.state with
  | .start => start c s
  | .crlf => crlf c s
  | .string => string c s
  | .number => number parseUint32 c s
  | .maybecomment => maybecomment c s
  | .ccomment => ccomment c s
  | .ccommentend => ccommentend c s
  | .eatline => eatline c s
  | .qstring => qstring c s

def Scan.comment (s : Scan) (c : Option UInt8) : Option State :=
  if s.lex.commentOk && !s.noComments then
    if s.escaped = false ∧ c = some 59 ∧ s.lex.comments.dnsmasterfile = true then some .eatline
    else if c = some 47 ∧ (s.lex.comments.c || s.lex.comments.cplusplus) = true then
      some .maybecomment
    else if c = some 35 ∧ s.lex.comments.shell = true then some .eatline
    else none
  else none

variable (kind : Kind)

def round (s : Scan) : Round := match s.pending with
  | some c => switch parseUint32 c { s with pending := none }
  | none =>
    match s.lex.source.fetch kind with
    | none => .abort
    | some (c, source) =>
      let s := s.withSource source
      match s.comment c with
      | some state => .next { s with savedState := s.state, state := state, noComments := true }
      | none => switch parseUint32 c s

def scan (kind : Kind) : ℕ → Scan → Option (Except Result Token × Lexer)
  | 0, _ => none
  | n + 1, s =>
    match round parseUint32 kind s with
    | .next s => scan kind n s
    | .done result lex => some (result, lex)
    | .abort => none

def begin (options : Options) (lex : Lexer) : Scan where
  lex := { lex with source := lex.source.compact }
  options := if options.dnsmultiline && 0 < lex.parenCount then options.joinLines else options
  savedOptions := options
  noComments := false
  escaped := false
  state := .start
  savedState := .start
  data := []
  hasPrev := false
  pending := none

def gettoken (options : Options) (lex : Lexer) :
    Option (Except Result Token × Lexer) :=
  let lex := { lex with
    savedParenCount := lex.parenCount
    source := { lex.source with savedLine := lex.source.line } }
  if lex.source.remaining = 0 ∧ lex.source.atEof = true then
    if options.dnsmultiline && lex.parenCount != 0 then
      some (.error .unbalanced, { lex with parenCount := 0 })
    else if options.eof then some (.ok .eof, lex)
    else some (.error .eof, lex)
  else scan parseUint32 kind (4 * lex.source.left + 2) (begin options lex)

def ungettoken (token : Token) (lex : Lexer) : Option Lexer :=
  if lex.source.current ≠ 0 ∨ token = .eof then
    some { lex with
      parenCount := lex.savedParenCount
      source := { lex.source with current := 0, line := lex.source.savedLine, atEof := false } }
  else none

structure Call where
  comments : Comments
  specials : UInt8 → Bool
  options : Options
  unget : Bool

structure Observed where
  result : Except Result Token
  line : ℕ
  parenCount : ℕ

def giveBack (unget : Bool) (result : Except Result Token) (lex : Lexer) : Option Lexer :=
  match unget, result with
  | true, .ok token => ungettoken token lex
  | _, _ => some lex

def call (k : Call) (lex : Lexer) : Option (Observed × Lexer) := do
  let (result, lex) ← gettoken parseUint32 kind k.options
    { lex with comments := k.comments, specials := k.specials }
  let lex' ← giveBack k.unget result lex
  return (⟨result, lex.source.line, lex.parenCount⟩, lex')

def run (kind : Kind) : List Call → Lexer → Option (List Observed × Lexer)
  | [], lex => some ([], lex)
  | k :: ks, lex => do
    let (seen, lex) ← call parseUint32 kind k lex
    let (rest, lex) ← run kind ks lex
    return (seen :: rest, lex)

end

def opened (bytes : List UInt8) : Lexer where
  comments := ⟨false, false, false, false⟩
  specials _ := false
  commentOk := true
  lastWasEol := true
  parenCount := 0
  savedParenCount := 0
  source := ⟨bytes, [], 0, false, 1, 0⟩

end LbBind.Lex

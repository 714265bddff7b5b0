import LbBind.Lib.Bytes
import LbBind.Name.Order

/-! `dns_name_fromtext` of `lib/dns/name.c`: a name is read from its text by a state machine over
the characters, with escapes, and an origin is appended to a relative name. Every name it leaves is
well formed. With `DNS_NAME_DOWNCASE` each character is an index into `maptolower`; a `char` is
signed, so the index is right only up to 127. -/

namespace LbBind

open Lib List Label

/-- `ft_state`. The escape `\ddd` keeps the value and the number of the digits read. -/
inductive FtState where
  | init
  | start
  | ordinary
  | initialescape
  | escape
  | escdecimal (value digits : ℕ)
  | atsign
  deriving DecidableEq

/-- How a call ends early: with a result, by a failed `INSIST` or a `FATAL_ERROR`, or with an access
outside a table. -/
inductive Halt where
  | result (r : Result)
  | abort
  | outside
  deriving DecidableEq

/-- The local variables of `dns_name_fromtext`. The length byte of a label is written when the label
is complete; until then its `count` bytes stand apart in `label`. The table `offsets` is kept up to
the last entry written. -/
structure Ft where
  state : FtState
  ndata : List UInt8
  label : List UInt8
  nrem : ℕ
  nused : ℕ
  labels : ℕ
  offsets : List ℕ
  done : Bool
  deriving DecidableEq

/-- The variables at the start, with room for `nrem` bytes. -/
def Ft.initial (nrem : ℕ) : Ft := ⟨.init, [], [], nrem, 0, 0, [0], false⟩

def charIndex (c : UInt8) : ℤ := if c.toNat < 128 then c.toNat else c.toNat - 256

def tableAt {α : Type} (table : UInt8 → α) (i : ℤ) : Except Halt α :=
  if 0 ≤ i ∧ i ≤ 255 then .ok (table (UInt8.ofNat i.toNat)) else .error .outside

def digitvalue (c : UInt8) : ℤ := if 48 ≤ c.toNat ∧ c.toNat ≤ 57 then c.toNat - 48
  else if 65 ≤ c.toNat ∧ c.toNat ≤ 70 then c.toNat - 55
  else if 97 ≤ c.toNat ∧ c.toNat ≤ 102 then c.toNat - 87
  else -1

namespace Ft

def rootLabel (s : Ft) : Ft := { s with
    labels := s.labels + 1
    ndata := s.ndata ++ [0]
    nrem := s.nrem - 1
    nused := s.nused + 1
    done := true }

def endLabel (s : Ft) : Except Halt Ft := if s.labels + 1 ≤ 127 then
    .ok { s with
      ndata := s.ndata ++ UInt8.ofNat s.label.length :: s.label
      label := []
      labels := s.labels + 1
      offsets := s.offsets ++ [s.nused] }
  else .error .abort

def closeLast (s : Ft) (tlen : ℕ) : Except Halt Ft := if s.nrem = 0 then .error (.result .noSpace)
  else if tlen ≠ 0 then .error .abort
  else if s.state ≠ .ordinary ∧ s.state ≠ .atsign then .error (.result .unexpectedEnd)
  else if s.state = .ordinary then
    if s.label.length ≠ 0 then s.endLabel else .error .abort
  else .ok s

variable (downcase : Bool) (s : Ft)

/-- One more byte of the label: `b`, or the entry `i` of `maptolower`. -/
def store (i : ℤ) (b : UInt8) : Except Halt Ft :=
  if 63 ≤ s.label.length then .error (.result .labelTooLong)
  else do
    let b ← if downcase then tableAt maptolower i else .ok b
    .ok { s with
      state := .ordinary
      label := s.label ++ [b]
      nrem := s.nrem - 1
      nused := s.nused + 1 }

variable (c : UInt8) (tlen : ℕ)

def ordinary : Except Halt Ft := if c = 46 then
    if s.label.length = 0 then .error (.result .emptyLabel)
    else do
      let s ← s.endLabel
      .ok { (if tlen = 0 then s.rootLabel else s) with state := .start }
  else if c = 92 then .ok { s with state := .escape }
  else s.store downcase (charIndex c) c

def escdecimal (value digits : ℕ) (c : UInt8) : Except Halt Ft := if isdigit c then do
    let d ← tableAt digitvalue (charIndex c)
    let value := value * 10 + d.toNat
    if digits + 1 = 3 then
      if 255 < value then .error (.result .badEscape)
      else s.store downcase value (UInt8.ofNat value)
    else .ok { s with state := .escdecimal value (digits + 1) }
  else .error (.result .badEscape)

def escape : Except Halt Ft :=
  if isdigit c then s.escdecimal downcase 0 0 c else s.store downcase (charIndex c) c

/-- `case ft_initialescape`: a bit string label is refused. -/
def initialescape : Except Halt Ft :=
  if c = 91 then .error (.result .badLabelType) else s.escape downcase c

/-- `case ft_start`: a byte is left for the length of the label. -/
def start : Except Halt Ft :=
  let s := { s with label := [], nrem := s.nrem - 1, nused := s.nused + 1 }
  if c = 92 then .ok { s with state := .initialescape }
  else if s.nrem = 0 then .error (.result .noSpace)
  else Ft.ordinary downcase { s with state := .ordinary } c tlen

/-- `case ft_init`: the root name and `@` stand alone. -/
def init : Except Halt Ft := if c = 46 then
    if tlen = 0 then .ok s.rootLabel else .error (.result .emptyLabel)
  else if c = 64 ∧ tlen = 0 then .ok { s with state := .atsign }
  else s.start downcase c tlen

def round : Except Halt Ft := match s.state with
  | .init => s.init downcase c tlen
  | .start => s.start downcase c tlen
  | .ordinary => s.ordinary downcase c tlen
  | .initialescape => s.initialescape downcase c
  | .escape => s.escape downcase c
  | .escdecimal value digits => s.escdecimal downcase value digits c
  | .atsign => .error .abort

def loop : List UInt8 → Ft → Except Halt (Ft × ℕ)
  | [], s => .ok (s, 0)
  | c :: text, s =>
    if 0 < s.nrem ∧ s.done = false then do
      let s ← s.round downcase c text.length
      loop text s
    else .ok (s, text.length + 1)

def copyBytes : List UInt8 → Except Halt (List UInt8)
  | [] => .ok []
  | c :: label => do
    let b ← if downcase then tableAt maptolower (charIndex c) else .ok c
    let rest ← copyBytes label
    .ok (b :: rest)

def appendOrigin : List Label → Ft → Except Halt Ft
  | [], s => .ok s
  | l :: ls, s => do
    let bytes ← copyBytes downcase l.1
    let s := { s with
      ndata := s.ndata ++ UInt8.ofNat l.1.length :: bytes
      nused := s.nused + (l.1.length + 1)
      labels := s.labels + 1 }
    if ls = [] then .ok s
    else if s.labels ≤ 127 then appendOrigin ls { s with offsets := s.offsets ++ [s.nused] }
    else .error .abort

def withOrigin (origin : Option Name) : Except Halt (Ft × Bool) := match origin with
  | none => .ok (s, false)
  | some origin =>
    if s.nrem < origin.length then .error (.result .noSpace)
    else do
      let s ← appendOrigin downcase origin.labels { s with nrem := s.nrem - origin.length }
      .ok (s, origin.absolute)

def finish (origin : Option Name) (s : Ft) (tlen : ℕ) : Except Halt (Ft × Bool) :=
  if s.done then .ok (s, true)
  else do
    let s ← s.closeLast tlen
    s.withOrigin downcase origin

end Ft

/-- What a call leaves: the name, its offsets table and the number of characters by which the source
moves forward. -/
structure Parsed where
  name : Wire
  length : ℕ
  absolute : Bool
  offsets : List ℕ
  tused : ℕ
  deriving DecidableEq

/-- `dns_name_fromtext` into a target with `available` bytes left. -/
def nameFromtext (downcase : Bool) (text : List UInt8) (origin : Option Name) (available : ℕ) :
    Except Halt Parsed := do
  let (s, tlen) ← Ft.loop downcase text (Ft.initial (min available 255))
  let (t, absolute) ← s.finish downcase origin tlen
  .ok ⟨⟨t.ndata, t.labels⟩, t.nused, absolute, t.offsets.take t.labels, text.length - tlen⟩

def Name.parsed (name : Name) (tused : ℕ) : Parsed :=
  ⟨name.wire, name.length, name.absolute, labelOffsets 0 name.labels, tused⟩

def FtState.inLabel : FtState → Bool
  | .ordinary | .initialescape | .escape | .escdecimal _ _ => true
  | .init | .start | .atsign => false

namespace Ft

def opened (s : Ft) : Ft := { s with label := [], nrem := s.nrem - 1, nused := s.nused + 1 }

def put (s : Ft) (b : UInt8) : Ft := { s with
    state := .ordinary
    label := s.label ++ [b]
    nrem := s.nrem - 1
    nused := s.nused + 1 }

def closed (s : Ft) : Ft := { s with
    ndata := s.ndata ++ UInt8.ofNat s.label.length :: s.label
    label := []
    labels := s.labels + 1
    offsets := s.offsets ++ [s.nused] }

inductive Round (s : Ft) (tlen : ℕ) : Ft → Prop
  | root (hs : s.state = .init) (ht : tlen = 0) : Round s tlen s.rootLabel
  | atsign (hs : s.state = .init) (ht : tlen = 0) : Round s tlen { s with state := .atsign }
  | opened (hs : s.state = .init ∨ s.state = .start) :
      Round s tlen { s.opened with state := .initialescape }
  | first (b : UInt8) (hs : s.state = .init ∨ s.state = .start) (hrem : s.nrem - 1 ≠ 0) :
      Round s tlen (s.opened.put b)
  | within (state : FtState) (hs : s.state.inLabel) (hstate : state.inLabel)
      (hne : state ≠ .ordinary) : Round s tlen { s with state := state }
  | store (b : UInt8) (hs : s.state.inLabel) (hlen : s.label.length < 63) : Round s tlen (s.put b)
  | next (hs : s.state = .ordinary) (hlen : s.label.length ≠ 0) (hlabels : s.labels + 1 ≤ 127) :
      Round s tlen { s.closed with state := .start }
  | last (hs : s.state = .ordinary) (hlen : s.label.length ≠ 0) (hlabels : s.labels + 1 ≤ 127)
      (ht : tlen = 0) : Round s tlen { s.closed.rootLabel with state := .start }

variable {s s' : Ft} {c : UInt8} {tlen : ℕ}

lemma endLabel_eq (s : Ft) :
    s.endLabel = if s.labels + 1 ≤ 127 then .ok s.closed else .error .abort := rfl

lemma store_false (s : Ft) (i : ℤ) (b : UInt8) : s.store false i b =
    if 63 ≤ s.label.length then .error (.result .labelTooLong) else .ok (s.put b) := rfl

lemma charIndex_of_isdigit (h : isdigit c) : tableAt digitvalue (charIndex c) =
    .ok ((c.toNat : ℤ) - 48) := by
  simp only [isdigit, Bool.and_eq_true, decide_eq_true_eq] at h
  have hc : charIndex c = c.toNat := by simp [charIndex, show c.toNat < 128 by omega]
  simp [hc, tableAt, digitvalue, h, show (c.toNat : ℤ) ≤ 255 by omega]

lemma store_false_cases (s : Ft) (i : ℤ) (b : UInt8) :
    (s.label.length < 63 ∧ s.store false i b = .ok (s.put b)) ∨
      s.store false i b = .error (.result .labelTooLong) := by
  by_cases h : 63 ≤ s.label.length
  · simp [store_false, h]
  · exact .inl ⟨by omega, by simp [store_false, h]⟩

lemma ordinary_dot (downcase : Bool) (hlen : s.label.length ≠ 0) :
    s.ordinary downcase 46 tlen = if s.labels + 1 ≤ 127 then
      .ok { (if tlen = 0 then s.closed.rootLabel else s.closed) with state := .start }
      else .error .abort := by
  rw [ordinary, if_pos rfl, if_neg hlen, endLabel_eq]
  by_cases hlabels : s.labels + 1 ≤ 127
  · simp only [if_pos hlabels, bind, Except.bind]
  · simp only [if_neg hlabels, bind, Except.bind]

lemma ordinary_cases (hs : s.state = .ordinary) :
    (∃ s', s.ordinary false c tlen = .ok s' ∧ s.Round tlen s') ∨
      (∃ r, s.ordinary false c tlen = .error (.result r)) ∨
      (s.label.length ≠ 0 ∧ 127 < s.labels + 1) := by
  have hin : s.state.inLabel := by simp [hs, FtState.inLabel]
  by_cases hdot : c = 46
  · subst hdot
    by_cases hlen : s.label.length = 0
    · exact .inr (.inl ⟨.emptyLabel, by simp [ordinary, hlen]⟩)
    · rw [ordinary_dot false hlen]
      by_cases hlabels : s.labels + 1 ≤ 127
      · rw [if_pos hlabels]
        by_cases ht : tlen = 0
        · exact .inl ⟨_, rfl, by simpa only [if_pos ht] using Round.last hs hlen hlabels ht⟩
        · exact .inl ⟨_, rfl, by simpa only [if_neg ht] using Round.next hs hlen hlabels⟩
      · exact .inr (.inr ⟨hlen, by omega⟩)
  · rw [ordinary, if_neg hdot]
    split_ifs with hslash
    · exact .inl ⟨_, rfl, .within .escape hin rfl (by simp)⟩
    · rcases store_false_cases s (charIndex c) c with ⟨hlen, hok⟩ | herr
      · exact .inl ⟨_, hok, .store c hin hlen⟩
      · exact .inr (.inl ⟨_, herr⟩)

lemma escdecimal_cases (value digits : ℕ) (hin : s.state.inLabel) :
    (∃ s', s.escdecimal false value digits c = .ok s' ∧ s.Round tlen s') ∨
      (∃ r, s.escdecimal false value digits c = .error (.result r)) := by
  rw [escdecimal]
  by_cases hc : isdigit c
  · rw [if_pos hc, charIndex_of_isdigit hc]
    simp only [bind, Except.bind]
    split_ifs with hdigits hvalue
    · exact .inr ⟨_, rfl⟩
    · rcases store_false_cases s _ _ with ⟨hlen, hok⟩ | herr
      · exact .inl ⟨_, hok, .store _ hin hlen⟩
      · exact .inr ⟨_, herr⟩
    · exact .inl ⟨_, rfl, .within _ hin rfl (by simp)⟩
  · rw [if_neg hc]
    exact .inr ⟨_, rfl⟩

lemma escape_cases (hin : s.state.inLabel) : (∃ s', s.escape false c = .ok s' ∧ s.Round tlen s') ∨
      (∃ r, s.escape false c = .error (.result r)) := by
  rw [escape]
  split_ifs with hc
  · exact escdecimal_cases 0 0 hin
  · rcases store_false_cases s (charIndex c) c with ⟨hlen, hok⟩ | herr
    · exact .inl ⟨_, hok, .store c hin hlen⟩
    · exact .inr ⟨_, herr⟩

lemma start_cases (hs : s.state = .init ∨ s.state = .start) :
    (∃ s', s.start false c tlen = .ok s' ∧ s.Round tlen s') ∨
      (∃ r, s.start false c tlen = .error (.result r)) := by
  rw [start]
  simp only
  split_ifs with hslash hrem
  · exact .inl ⟨_, rfl, .opened hs⟩
  · exact .inr ⟨_, rfl⟩
  · rw [ordinary, if_neg hslash]
    by_cases hdot : c = 46
    · exact .inr ⟨.emptyLabel, by simp [hdot]⟩
    · rw [if_neg hdot]
      exact .inl ⟨_, rfl, .first c hs hrem⟩

lemma round_cases (s : Ft) (c : UInt8) (tlen : ℕ) :
    (∃ s', s.round false c tlen = .ok s' ∧ s.Round tlen s') ∨
      (∃ r, s.round false c tlen = .error (.result r)) ∨
      (s.state = .atsign ∨ s.state = .ordinary ∧ s.label.length ≠ 0 ∧ 127 < s.labels + 1) := by
  rw [round]
  cases hs : s.state with
  | init =>
    simp only [init]
    split_ifs with hdot ht hat
    · exact .inl ⟨_, rfl, .root hs ht⟩
    · exact .inr (.inl ⟨_, rfl⟩)
    · exact .inl ⟨_, rfl, .atsign hs hat.2⟩
    · exact (start_cases (.inl hs)).imp_right .inl
  | start => exact (start_cases (.inr hs)).imp_right .inl
  | ordinary => exact (ordinary_cases hs).imp_right fun h => h.imp_right fun h => .inr ⟨rfl, h⟩
  | initialescape =>
    simp only [initialescape]
    split_ifs with hbracket
    · exact .inr (.inl ⟨_, rfl⟩)
    · exact (escape_cases (by simp [hs, FtState.inLabel])).imp_right .inl
  | escape => exact (escape_cases (by simp [hs, FtState.inLabel])).imp_right .inl
  | escdecimal value digits =>
    exact (escdecimal_cases value digits (by simp [hs, FtState.inLabel])).imp_right .inl
  | atsign => exact .inr (.inr (.inl rfl))

structure HasRead (s : Ft) (ls : List Label) : Prop where
  done_eq : s.done = false
  nonroot : ∀ l ∈ ls, l ≠ Label.root
  ndata_eq : s.ndata = wireOf ls
  labels_eq : s.labels = ls.length
  offsets_eq : s.offsets = labelOffsets 0 ls ++ [(wireOf ls).length]

structure Holds (nmax : ℕ) (s : Ft) (ls : List Label) : Prop extends HasRead s ls where
  room : s.nused + s.nrem = nmax
  between : s.state.inLabel = false → s.nused = (wireOf ls).length
  inside : s.state.inLabel →
    s.nused = (wireOf ls).length + (s.label.length + 1) ∧ s.label.length ≤ 63
  nonempty : s.state = .ordinary → s.label.length ≠ 0

structure Complete (nmax : ℕ) (s : Ft) (ls : List Label) : Prop where
  done_eq : s.done
  rootLast : ∃ ms, ls = ms ++ [Label.root] ∧ ∀ l ∈ ms, l ≠ Label.root
  ndata_eq : s.ndata = wireOf ls
  labels_eq : s.labels = ls.length
  offsets_eq : s.offsets = labelOffsets 0 ls
  nused_eq : s.nused = (wireOf ls).length
  room : s.nused ≤ nmax

attribute [local simp] Ft.initial Ft.closed

lemma Holds.initial (nmax : ℕ) : Holds nmax (initial nmax) [] where
  done_eq := rfl
  nonroot := by simp
  ndata_eq := rfl
  labels_eq := rfl
  offsets_eq := rfl
  room := by simp
  between _ := rfl
  inside := by simp [FtState.inLabel]
  nonempty := by simp

variable {nmax : ℕ} {ls : List Label}

lemma HasRead.update (h : s.HasRead ls) (state : FtState) (label : List UInt8) (nrem nused : ℕ) :
    HasRead { s with state := state, label := label, nrem := nrem, nused := nused } ls :=
  ⟨h.done_eq, h.nonroot, h.ndata_eq, h.labels_eq, h.offsets_eq⟩

section
variable (h : s.Holds nmax ls)
include h

lemma Holds.closed (hs : s.state = .ordinary) (state : FtState) (hstate : state.inLabel = false) :
    ∃ hlen, Holds nmax { s.closed with state := state } (ls ++ [⟨s.label, hlen⟩]) := by
  obtain ⟨hused, hlen⟩ := h.inside (by simp [hs, FtState.inLabel])
  have hne : (⟨s.label, hlen⟩ : Label) ≠ root := fun heq =>
    h.nonempty hs (by simp [show s.label = [] from congrArg Subtype.val heq])
  refine ⟨hlen, ?_⟩
  constructor
  case toHasRead =>
    constructor
    case done_eq => exact h.done_eq
    case nonroot =>
      intro l hl
      rcases mem_append.mp hl with hl | hl
      · exact h.nonroot l hl
      · rw [mem_singleton.mp hl]
        exact hne
    case ndata_eq => simp [h.ndata_eq, bytes]
    case labels_eq => simp [h.labels_eq]
    case offsets_eq => simp [h.offsets_eq, hused, labelOffsets_append, labelOffsets]
  case room => exact h.room
  case between => simp [hused]
  case inside => simp [hstate]
  case nonempty =>
    intro heq
    simp only at heq
    simp [heq, FtState.inLabel] at hstate

lemma Holds.rootLabel (hs : s.state.inLabel = false) (hrem : 0 < s.nrem)
    (state : FtState) : Complete nmax { s.rootLabel with state := state } (ls ++ [root]) := by
  have hused := h.between hs
  have hroom := h.room
  constructor
  case done_eq => rfl
  case rootLast => exact ⟨ls, rfl, h.nonroot⟩
  case ndata_eq => simp [Ft.rootLabel, h.ndata_eq, bytes, root]
  case labels_eq => simp [Ft.rootLabel, h.labels_eq]
  case offsets_eq => simp [Ft.rootLabel, h.offsets_eq, labelOffsets_append, labelOffsets]
  case nused_eq => simp [Ft.rootLabel, hused, root]
  case room =>
    simp only [Ft.rootLabel]
    omega

lemma Holds.opened (hs : s.state.inLabel = false) (hrem : 0 < s.nrem) :
    Holds nmax { s.opened with state := .initialescape } ls where
  toHasRead := h.update _ _ _ _
  room := by
    have := h.room
    simp only [Ft.opened]
    omega
  between := by simp [FtState.inLabel]
  inside _ := by simp [Ft.opened, h.between hs]
  nonempty := by simp

lemma Holds.put (hs : s.state.inLabel) (hrem : 0 < s.nrem)
    (hlen : s.label.length < 63) (b : UInt8) : Holds nmax (s.put b) ls where
  toHasRead := h.update _ _ _ _
  room := by
    have := h.room
    simp only [Ft.put]
    omega
  between := by simp [Ft.put, FtState.inLabel]
  inside _ := by
    have := h.inside hs
    simp only [Ft.put, length_append, length_singleton]
    omega
  nonempty := by simp [Ft.put]

lemma Holds.round (hrem : 0 < s.nrem) (hround : s.Round tlen s') :
    ∃ ms, Complete nmax s' ms ∨ Holds nmax s' ms ∧ (s'.state = .atsign → tlen = 0) := by
  have hbetween : s.state = .init ∨ s.state = .start → s.state.inLabel = false := by
    rintro (hs | hs) <;> simp [hs, FtState.inLabel]
  cases hround with
  | root hs ht => exact ⟨_, .inl (h.rootLabel (hbetween (.inl hs)) hrem s.state)⟩
  | atsign hs ht =>
    refine ⟨ls, .inr ⟨⟨h.update _ _ _ _, h.room, fun _ => h.between (hbetween (.inl hs)), ?_, ?_⟩,
      fun _ => ht⟩⟩
    · simp [FtState.inLabel]
    · simp
  | opened hs => exact ⟨ls, .inr ⟨h.opened (hbetween hs) hrem, by simp⟩⟩
  | first b hs hrem' =>
    have hput := (h.opened (hbetween hs) hrem).put rfl (by simp only [Ft.opened]; omega)
      (by simp [Ft.opened]) b
    exact ⟨ls, .inr ⟨hput, by simp [Ft.put]⟩⟩
  | within state hs hstate hne =>
    refine ⟨ls, .inr ⟨⟨h.update _ _ _ _, h.room, ?_, fun _ => h.inside hs, fun heq => absurd heq hne⟩,
      ?_⟩⟩
    · simp [hstate]
    · rintro rfl
      simp [FtState.inLabel] at hstate
  | store b hs hlen => exact ⟨ls, .inr ⟨h.put hs hrem hlen b, by simp [Ft.put]⟩⟩
  | next hs _ hlabels =>
    obtain ⟨hlen, hclosed⟩ := h.closed hs .start rfl
    exact ⟨_, .inr ⟨hclosed, by simp⟩⟩
  | last hs _ hlabels ht =>
    obtain ⟨hlen, hclosed⟩ := h.closed hs .start rfl
    exact ⟨_, .inl (hclosed.rootLabel rfl hrem .start)⟩

lemma Holds.labels_le (hn : nmax ≤ 255) (hrem : 0 < s.nrem)
    (hs : s.state = .ordinary) : s.labels + 1 ≤ 127 := by
  have hbytes := two_mul_length_le_wireOf h.nonroot
  have hused := (h.inside (by simp [hs, FtState.inLabel])).1
  have hroom := h.room
  rw [h.labels_eq]
  omega

end

lemma Holds.loop (hn : nmax ≤ 255) (text : List UInt8) (h : s.Holds nmax ls)
    (hat : s.state = .atsign → text = []) : (∃ r, loop false text s = .error (.result r)) ∨
      ∃ t tlen ms, loop false text s = .ok (t, tlen) ∧ tlen ≤ text.length ∧
        (Complete nmax t ms ∨ Holds nmax t ms ∧ (t.nrem = 0 ∨ tlen = 0)) := by
  induction text generalizing s ls with
  | nil => exact .inr ⟨s, 0, ls, rfl, le_refl _, .inr ⟨h, .inr rfl⟩⟩
  | cons c text ih =>
    rw [loop]
    by_cases hrem : 0 < s.nrem
    · rw [if_pos ⟨hrem, h.done_eq⟩]
      rcases round_cases s c text.length with ⟨s', hok, hround⟩ | ⟨r, herr⟩ | hinsist
      · rw [hok]
        change (∃ r, loop false text s' = _) ∨ _
        obtain ⟨ms, hcomplete | ⟨hholds, hat'⟩⟩ := h.round hrem hround
        · refine .inr ⟨s', text.length, ms, ?_, by simp, .inl hcomplete⟩
          cases text with
          | nil => rfl
          | cons d text => exact if_neg (by simp [hcomplete.done_eq])
        · rcases ih hholds fun heq => length_eq_zero_iff.mp (hat' heq) with
            herr | ⟨t, tlen, ns, hloop, hle, ht⟩
          · exact .inl herr
          · exact .inr ⟨t, tlen, ns, hloop, by simp; omega, ht⟩
      · exact .inl ⟨r, by rw [herr]; rfl⟩
      · rcases hinsist with heq | ⟨hs, -, hlabels⟩
        · exact absurd (hat heq) (by simp)
        · have := h.labels_le hn hrem hs
          omega
    · rw [if_neg (by simp [hrem])]
      exact .inr ⟨s, _, ls, rfl, by simp, .inr ⟨h, .inl (by omega)⟩⟩

lemma copyBytes_false (bytes : List UInt8) : copyBytes false bytes = .ok bytes := by
  induction bytes with
  | nil => rfl
  | cons c bytes ih => simp [copyBytes, ih, bind, Except.bind]

def Leaves (s : Ft) (ls : List Label) : Prop :=
  s.ndata = wireOf ls ∧ s.labels = ls.length ∧ s.nused = (wireOf ls).length ∧
    s.offsets.take s.labels = labelOffsets 0 ls

lemma HasRead.leaves (h : s.HasRead ls) (hused : s.nused = (wireOf ls).length) : s.Leaves ls :=
  ⟨h.ndata_eq, h.labels_eq, hused, by simp [h.labels_eq, h.offsets_eq]⟩

lemma Complete.leaves (h : s.Complete nmax ls) : s.Leaves ls :=
  ⟨h.ndata_eq, h.labels_eq, h.nused_eq, by simp [h.labels_eq, h.offsets_eq]⟩

lemma HasRead.appendOrigin (origin : List Label) (h : s.HasRead ls)
    (hused : s.nused = (wireOf ls).length) (hroot : ∀ l ∈ origin.dropLast, l ≠ root)
    (hshort : (wireOf (ls ++ origin)).length ≤ 255) :
    ∃ t, appendOrigin false origin s = .ok t ∧ t.Leaves (ls ++ origin) := by
  induction origin generalizing s ls with
  | nil => exact ⟨s, rfl, by simpa using h.leaves hused⟩
  | cons l origin ih =>
    simp only [appendOrigin, copyBytes_false, bind, Except.bind]
    by_cases hnil : origin = []
    · refine ⟨_, by rw [if_pos hnil], ?_⟩
      subst hnil
      refine ⟨by simp [h.ndata_eq, bytes], by simp [h.labels_eq], by simp [hused], ?_⟩
      simp [h.labels_eq, h.offsets_eq, labelOffsets_append, labelOffsets]
    · rw [if_neg hnil]
      have hne : l ≠ root := hroot l (by simp [dropLast_cons_of_ne_nil hnil])
      have hall : ∀ m ∈ ls ++ [l], m ≠ root := by
        intro m hm
        rcases mem_append.mp hm with hm | hm
        · exact h.nonroot m hm
        · rw [mem_singleton.mp hm]
          exact hne
      have hlabels : s.labels + 1 ≤ 127 := by
        have hbytes := two_mul_length_le_wireOf hall
        rw [h.labels_eq]
        simp only [wireOf_append, wireOf_cons, length_append, length_bytes, length_singleton,
          wireOf_nil, append_nil] at hbytes hshort
        omega
      rw [if_pos hlabels]
      have := @ih { s with
          ndata := s.ndata ++ UInt8.ofNat l.1.length :: l.1
          nused := s.nused + (l.1.length + 1)
          labels := s.labels + 1
          offsets := s.offsets ++ [s.nused + (l.1.length + 1)] } (ls ++ [l])
        { done_eq := h.done_eq
          nonroot := hall
          ndata_eq := by simp [h.ndata_eq, bytes]
          labels_eq := by simp [h.labels_eq]
          offsets_eq := by simp [h.offsets_eq, hused, labelOffsets_append, labelOffsets] }
        (by simp [hused])
        (fun m hm => hroot m (by simp [dropLast_cons_of_ne_nil hnil, hm]))
        (by simpa using hshort)
      simpa using this

lemma Complete.absolute (h : s.Complete nmax ls) (hn : nmax ≤ 255) :
    ∃ name : Name, name.labels = ls ∧ name.absolute := by
  obtain ⟨ms, rfl, hroot⟩ := h.rootLast
  refine ⟨⟨ms ++ [root], by simpa using hroot, ?_⟩, rfl, by simp [Name.absolute]⟩
  have := h.nused_eq
  have := h.room
  omega

lemma HasRead.exists_name (h : s.HasRead ls) (origin : Name)
    (hshort : (wireOf (ls ++ origin.labels)).length ≤ 255) :
    ∃ name : Name, name.labels = ls ++ origin.labels ∧ name.absolute = origin.absolute := by
  cases hlabels : origin.labels with
  | nil =>
    refine ⟨⟨ls, fun l hl => h.nonroot l (mem_of_mem_dropLast hl), ?_⟩, by simp, ?_⟩
    · simpa [hlabels] using hshort
    · simp only [Name.absolute, hlabels, getLast?_nil, reduceCtorEq, decide_false,
        decide_eq_false_iff_not]
      exact fun heq => h.nonroot _ (mem_of_getLast? heq) rfl
  | cons l rest =>
    refine ⟨⟨ls ++ l :: rest, ?_, by simpa [hlabels] using hshort⟩, rfl, ?_⟩
    · intro m hm
      rw [dropLast_append_of_ne_nil (by simp)] at hm
      rcases mem_append.mp hm with hm | hm
      · exact h.nonroot m hm
      · exact origin.rootLast m (by rwa [hlabels])
    · simp [Name.absolute, hlabels, getLast?_append]

lemma HasRead.origin (h : s.HasRead ls) (hn : nmax ≤ 255) (hroom : s.nused + s.nrem = nmax)
    (hused : s.nused = (wireOf ls).length) (origin : Option Name) :
    (∃ r, s.withOrigin false origin = .error (.result r)) ∨
      ∃ t, ∃ name : Name, s.withOrigin false origin = .ok (t, name.absolute) ∧
        t.Leaves name.labels := by
  cases origin with
  | none =>
    obtain ⟨name, hname, habs⟩ := h.exists_name ⟨[], by simp, by simp⟩ (by simp; omega)
    refine .inr ⟨s, name, by rw [habs]; rfl, ?_⟩
    rw [hname]
    simpa using h.leaves hused
  | some origin =>
    simp only [withOrigin]
    by_cases hlen : s.nrem < origin.length
    · exact .inl ⟨.noSpace, by rw [if_pos hlen]⟩
    · rw [if_neg hlen]
      have hshort : (wireOf (ls ++ origin.labels)).length ≤ 255 := by
        rw [Name.length] at hlen
        rw [wireOf_append, length_append]
        omega
      obtain ⟨name, hname, habs⟩ := h.exists_name origin hshort
      obtain ⟨t, happend, hleaves⟩ := (h.update s.state s.label (s.nrem - origin.length)
        s.nused).appendOrigin origin.labels hused origin.rootLast hshort
      refine .inr ⟨t, name, ?_, by rwa [hname]⟩
      rw [happend, habs]
      rfl

lemma Holds.closeLast (h : s.Holds nmax ls) (hn : nmax ≤ 255) (hend : s.nrem = 0 ∨ tlen = 0) :
    (∃ r, s.closeLast tlen = .error (.result r)) ∨
      ∃ t ms, s.closeLast tlen = .ok t ∧ t.HasRead ms ∧ t.nused + t.nrem = nmax ∧
        t.nused = (wireOf ms).length := by
  rw [Ft.closeLast]
  by_cases hrem : s.nrem = 0
  · exact .inl ⟨.noSpace, by rw [if_pos hrem]⟩
  rw [if_neg hrem, if_neg (by simp [hend.resolve_left hrem])]
  by_cases hs : s.state = .ordinary
  · obtain ⟨hlen, hclosed⟩ := h.closed hs .start rfl
    have hlabels := h.labels_le hn (by omega) hs
    rw [if_neg (by simp [hs]), if_pos hs, if_pos (h.nonempty hs), endLabel_eq, if_pos hlabels]
    exact .inr ⟨s.closed, _, rfl, hclosed.toHasRead.update s.state [] s.nrem s.nused, h.room,
      hclosed.between rfl⟩
  · by_cases hat : s.state = .atsign
    · rw [if_neg (by simp [hat]), if_neg hs]
      exact .inr ⟨s, ls, rfl, h.toHasRead, h.room, h.between (by simp [hat, FtState.inLabel])⟩
    · exact .inl ⟨.unexpectedEnd, by rw [if_pos ⟨hs, hat⟩]⟩

lemma Holds.finish (h : s.Holds nmax ls) (hn : nmax ≤ 255) (hend : s.nrem = 0 ∨ tlen = 0)
    (origin : Option Name) : (∃ r, s.finish false origin tlen = .error (.result r)) ∨
      ∃ t, ∃ name : Name, s.finish false origin tlen = .ok (t, name.absolute) ∧
        t.Leaves name.labels := by
  rw [Ft.finish, if_neg (by simp [h.done_eq])]
  rcases h.closeLast hn hend with ⟨r, herr⟩ | ⟨t, ms, hok, hread, hroom, hused⟩
  · exact .inl ⟨r, by rw [herr]; rfl⟩
  · rw [hok]
    exact hread.origin hn hroom hused origin

end Ft

/-- What a call leaves when the loop ends. -/
def Ft.left (text : List UInt8) (tlen : ℕ) (r : Ft × Bool) : Parsed :=
  ⟨⟨r.1.ndata, r.1.labels⟩, r.1.nused, r.2, r.1.offsets.take r.1.labels, text.length - tlen⟩

lemma Ft.Leaves.left_eq {t : Ft} {name : Name} (h : t.Leaves name.labels) (text : List UInt8)
    (tlen : ℕ) : left text tlen (t, name.absolute) = name.parsed (text.length - tlen) := by
  obtain ⟨hdata, hlabels, hused, hoff⟩ := h
  simp only [left, hoff, hused]
  rw [hdata, hlabels]
  rfl

section
variable {text : List UInt8} {origin : Option Name} {available : ℕ}

lemma nameFromtext_of_loop {downcase : Bool} {s : Ft} {tlen : ℕ}
    (h : Ft.loop downcase text (Ft.initial (min available 255)) = .ok (s, tlen)) :
    nameFromtext downcase text origin available =
      (s.finish downcase origin tlen).map (Ft.left text tlen) := by
  simp only [nameFromtext, h, bind, Except.bind, Except.map]
  cases s.finish downcase origin tlen <;> rfl

end

/-- A call without downcasing ends with a result or leaves a name; no `INSIST` fails and no access
is outside a table. -/
lemma nameFromtext_cases (text : List UInt8) (origin : Option Name) (available : ℕ) :
    (∃ r, nameFromtext false text origin available = .error (.result r)) ∨
      ∃ (name : Name) (tused : ℕ), nameFromtext false text origin available =
        .ok (name.parsed tused) := by
  have hn : min available 255 ≤ 255 := min_le_right _ _
  rcases (Ft.Holds.initial (min available 255)).loop hn text (by simp [Ft.initial]) with
    ⟨r, herr⟩ | ⟨s, tlen, ls, hloop, -, hs⟩
  · exact .inl ⟨r, by rw [nameFromtext, herr]; rfl⟩
  · have hleft : (∃ r, s.finish false origin tlen = .error (.result r)) ∨
        ∃ t, ∃ name : Name, s.finish false origin tlen = .ok (t, name.absolute) ∧
          t.Leaves name.labels := by
      rcases hs with hcomplete | ⟨hholds, hend⟩
      · obtain ⟨name, rfl, habs⟩ := hcomplete.absolute hn
        refine .inr ⟨s, name, ?_, hcomplete.leaves⟩
        rw [Ft.finish, if_pos hcomplete.done_eq, habs]
      · exact hholds.finish hn hend origin
    rw [nameFromtext_of_loop hloop]
    rcases hleft with ⟨r, herr⟩ | ⟨t, name, hfin, hleaves⟩
    · exact .inl ⟨r, by rw [herr]; rfl⟩
    · refine .inr ⟨name, text.length - tlen, ?_⟩
      rw [hfin, ← hleaves.left_eq]
      rfl

end LbBind

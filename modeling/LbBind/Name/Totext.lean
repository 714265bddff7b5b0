import LbBind.Name.Fromtext

/-! `dns_name_totext2` of `lib/dns/name.c` without a filter, and the round trip: the text of a name
is read back by `dns_name_fromtext` as the same name. -/

namespace LbBind

open Lib List Label FtState
open UInt8 (ofNat ofNat_toNat toNat toNat_ofNat')

def totextByte (masterfile : Bool) (c : UInt8) : List UInt8 :=
  if (c = 0x40 ∨ c = 0x24) ∧ masterfile ∨ c = 0x22 ∨ c = 0x28 ∨ c = 0x29 ∨ c = 0x2E ∨ c = 0x3B ∨
      c = 0x5C then [92, c]
  else if 0x20 < c.toNat ∧ c.toNat < 0x7f then [c]
  else [0x5c, ofNat (0x30 + c.toNat / 100 % 10), ofNat (0x30 + c.toNat / 10 % 10),
    ofNat (0x30 + c.toNat % 10)]

structure Tt where
  tdata : List UInt8
  trem : ℕ
  deriving DecidableEq

namespace Tt

section
variable (masterfile : Bool)

def bytes : List UInt8 → Tt → Except Result Tt
  | [], s => .ok s
  | c :: label, s =>
    let text := totextByte masterfile c
    if s.trem < text.length then .error .noSpace
    else bytes label ⟨s.tdata ++ text, s.trem - text.length⟩

/-- The loop over the labels, with `saw_root` and the number of bytes it leaves. -/
def labels : List Label → Tt → Except Result (Tt × Bool × ℕ)
  | [], s => .ok (s, false, 0)
  | l :: ls, s =>
    if s.trem = 0 then .ok (s, false, (wireOf (l :: ls)).length)
    else if l.1.length = 0 then .ok (s, true, (wireOf ls).length)
    else do
      let s ← bytes masterfile l.1 s
      if s.trem = 0 then .error .noSpace else labels ls ⟨s.tdata ++ [46], s.trem - 1⟩

end

/-- The end of the call: the dot after the last label of a relative name is taken back. -/
def finish (tlen : ℕ) (s : Tt) (sawRoot omitFinalDot : Bool) (nlen : ℕ) :
    Except Result (List UInt8) :=
  if nlen ≠ 0 ∧ s.trem = 0 then .error .noSpace
  else
    let trem := if sawRoot = false ∨ omitFinalDot then s.trem + 1 else s.trem
    .ok (s.tdata.take (tlen - trem))

end Tt

/-- `dns_name_totext2` into a target with `tlen` bytes left: the text added to the target. -/
def nameTotext2 (omitFinalDot masterfile : Bool) (name : Name) (tlen : ℕ) :
    Except Result (List UInt8) :=
  if name.labels.length = 0 ∧ name.length = 0 then
    if tlen = 0 then .error .noSpace else Tt.finish tlen ⟨[64], tlen - 1⟩ true false 0
  else if name.length = 1 ∧ name.labels.length = 1 ∧ name.wire.ndata.head? = some 0 then
    if tlen = 0 then .error .noSpace else Tt.finish tlen ⟨[46], tlen - 1⟩ true false 0
  else do
    let (s, sawRoot, nlen) ← Tt.labels masterfile name.labels ⟨[], tlen⟩
    Tt.finish tlen s sawRoot omitFinalDot nlen

def nameTotext (name : Name) (omitFinalDot : Bool) (tlen : ℕ) : Except Result (List UInt8) :=
  nameTotext2 omitFinalDot true name tlen

def Label.text (l : Label) : List UInt8 := l.1.flatMap (totextByte true)

def textOf (ls : List Label) : List UInt8 := ls.flatMap fun l => l.text ++ [46]

@[simp] lemma textOf_nil : textOf [] = [] := rfl

@[simp] lemma textOf_cons (l : Label) (ls : List Label) :
    textOf (l :: ls) = l.text ++ 46 :: textOf ls := by
  simp [textOf]

@[simp] lemma textOf_append (ls ms : List Label) : textOf (ls ++ ms) = textOf ls ++ textOf ms := by
  simp [textOf]

lemma length_totextByte_le (masterfile : Bool) (c : UInt8) :
    (totextByte masterfile c).length ≤ 4 := by
  rw [totextByte]
  split_ifs <;> simp

lemma length_flatMap_totextByte_le (bytes : List UInt8) :
    (bytes.flatMap (totextByte true)).length ≤ 4 * bytes.length := by
  induction bytes with
  | nil => simp
  | cons c bytes ih =>
    have := length_totextByte_le true c
    simp only [flatMap_cons, length_append, length_cons]
    omega

lemma length_textOf_le (ls : List Label) : (textOf ls).length ≤ 4 * (wireOf ls).length := by
  induction ls with
  | nil => simp
  | cons l ls ih =>
    have : l.text.length ≤ 4 * l.1.length := length_flatMap_totextByte_le l.1
    simp only [textOf_cons, wireOf_cons, length_append, length_cons, length_bytes]
    omega

namespace Tt

lemma bytes_eq (masterfile : Bool) (label : List UInt8) (s : Tt)
    (h : (label.flatMap (totextByte masterfile)).length ≤ s.trem) :
    bytes masterfile label s = .ok ⟨s.tdata ++ label.flatMap (totextByte masterfile),
      s.trem - (label.flatMap (totextByte masterfile)).length⟩ := by
  induction label generalizing s with
  | nil => simp [bytes]
  | cons c label ih =>
    simp only [flatMap_cons, length_append] at h ⊢
    rw [bytes, if_neg (by omega), ih _ (by simp only; omega)]
    simp [Nat.sub_sub]

lemma labels_eq (ls tail : List Label) (hroot : ∀ l ∈ ls, l ≠ root) (s : Tt)
    (h : (textOf ls).length < s.trem) : labels true (ls ++ tail) s =
      labels true tail ⟨s.tdata ++ textOf ls, s.trem - (textOf ls).length⟩ := by
  induction ls generalizing s with
  | nil => simp
  | cons l ls ih =>
    have hl : l.1.length ≠ 0 := fun hlen =>
      hroot l (by simp) (Subtype.ext (length_eq_zero_iff.mp hlen))
    simp only [textOf_cons, length_append, length_cons] at h
    have hbytes : (l.1.flatMap (totextByte true)).length = l.text.length := rfl
    rw [cons_append, labels, if_neg (by omega), if_neg hl, bytes_eq true _ _ (by omega)]
    simp only [bind, Except.bind]
    rw [if_neg (by omega), ih (fun m hm => hroot m (by simp [hm])) _ (by simp only; omega)]
    congr 2
    · simp [text]
    · simp only [textOf_cons, length_append, length_cons]
      omega

end Tt

lemma totextByte_cases (c : UInt8) : totextByte true c = [c] ∧ c ≠ 46 ∧ c ≠ 92 ∧ c ≠ 64 ∨
    totextByte true c = [92, c] ∧ isdigit c = false ∧ c ≠ 91 ∨
    totextByte true c = [92, ofNat (48 + c.toNat / 100 % 10),
      ofNat (48 + c.toNat / 10 % 10), ofNat (48 + c.toNat % 10)] := by
  rw [totextByte]
  split_ifs with hspecial hplain
  · refine .inr (.inl ⟨rfl, ?_⟩)
    rcases hspecial with ⟨rfl | rfl, -⟩ | rfl | rfl | rfl | rfl | rfl | rfl <;> decide
  · refine .inl ⟨rfl, ?_, ?_, ?_⟩ <;> rintro rfl <;> simp at hspecial
  · exact .inr (.inr rfl)

namespace Ft

variable {s : Ft} {c : UInt8} {nmax : ℕ} {ls : List Label} {rest : List UInt8} {n : ℕ}

lemma loop_of_round {s' : Ft} {downcase : Bool} (hrem : 0 < s.nrem)
    (hdone : s.done = false) (h : s.round downcase c rest.length = .ok s') :
    loop downcase (c :: rest) s = loop downcase rest s' := by
  rw [loop, if_pos ⟨hrem, hdone⟩, h]
  rfl

lemma toNat_digit (h : n ≤ 9) : (ofNat (48 + n)).toNat = 48 + n := by
  rw [toNat_ofNat']
  omega

lemma isdigit_digit (h : n ≤ 9) : isdigit (ofNat (48 + n)) := by
  simp only [isdigit, toNat_digit h, Bool.and_eq_true, decide_eq_true_eq]
  omega

lemma escdecimal_digit (s : Ft) (value digits : ℕ) (h : n ≤ 9) :
    s.escdecimal false value digits (ofNat (48 + n)) = if digits + 1 = 3 then
        if 255 < value * 10 + n then .error (.result .badEscape)
        else s.store false (value * 10 + n : ℕ) (ofNat (value * 10 + n))
      else .ok { s with state := .escdecimal (value * 10 + n) (digits + 1) } := by
  have hd : isdigit (ofNat (48 + n)) := isdigit_digit h
  have hvalue : (((ofNat (48 + n)).toNat : ℤ) - 48).toNat = n := by
    rw [toNat_digit h]
    omega
  simp only [escdecimal, if_pos hd, charIndex_of_isdigit hd, bind, Except.bind, hvalue]

lemma store_put (hlen : s.label.length < 63) (i : ℤ) (b : UInt8) :
    s.store false i b = .ok (s.put b) := by
  rw [store_false, if_neg (by omega)]

section
variable (hs : s.state = .initialescape ∨ s.state = .escape) (hrem : 0 < s.nrem)
  (hdone : s.done = false) (hlen : s.label.length < 63)
include hs hrem hdone hlen

lemma loop_escaped (hdigit : isdigit c = false) (hbracket : c ≠ 91) (rest : List UInt8) :
    loop false (c :: rest) s = loop false rest (s.put c) := by
  refine loop_of_round hrem hdone ?_
  have hescape : s.escape false c = .ok (s.put c) := by
    rw [escape, if_neg (by simp [hdigit]), store_put hlen]
  rcases hs with hs | hs
  · simp only [round, hs, initialescape, if_neg hbracket, hescape]
  · simp only [round, hs, hescape]

lemma loop_decimal (c : UInt8) (rest : List UInt8) :
    loop false (ofNat (48 + c.toNat / 100 % 10) :: ofNat (48 + c.toNat / 10 % 10) ::
      ofNat (48 + c.toNat % 10) :: rest) s = loop false rest (s.put c) := by
  have h1 : c.toNat / 100 % 10 ≤ 9 := by omega
  have h2 : c.toNat / 10 % 10 ≤ 9 := by omega
  have h3 : c.toNat % 10 ≤ 9 := by omega
  have hc : c.toNat < 256 := c.toNat_lt
  have hbracket : ofNat (48 + c.toNat / 100 % 10) ≠ 91 := by
    intro h
    have := congrArg toNat h
    rw [toNat_digit h1] at this
    simp at this
    omega
  -- The value is read digit by digit, and the third one stores it.
  have hescape : s.escape false (ofNat (48 + c.toNat / 100 % 10)) =
      .ok { s with state := .escdecimal (0 * 10 + c.toNat / 100 % 10) 1 } := by
    rw [escape, if_pos (isdigit_digit h1), escdecimal_digit s 0 0 h1]
    rfl
  have hfirst : s.round false (ofNat (48 + c.toNat / 100 % 10)) (rest.length + 1 + 1) =
      .ok { s with state := .escdecimal (0 * 10 + c.toNat / 100 % 10) 1 } := by
    rcases hs with hs | hs
    · simp only [round, hs, initialescape, if_neg hbracket, hescape]
    · simp only [round, hs, hescape]
  have hvalue : ((0 * 10 + c.toNat / 100 % 10) * 10 + c.toNat / 10 % 10) * 10 + c.toNat % 10 =
      c.toNat := by omega
  have hthird (t : Ft) (ht : t.label.length < 63) : t.escdecimal false
      ((0 * 10 + c.toNat / 100 % 10) * 10 + c.toNat / 10 % 10) 2
      (ofNat (48 + c.toNat % 10)) = .ok (t.put c) := by
    rw [escdecimal_digit _ _ _ h3, hvalue, if_pos rfl, if_neg (by omega), store_put ht, ofNat_toNat]
  let t (value digits : ℕ) : Ft := { s with state := .escdecimal value digits }
  calc
    _ = loop false _ (t _ 1) := loop_of_round hrem hdone hfirst
    _ = loop false _ (t _ 2) := loop_of_round (s := t _ 1) hrem hdone (escdecimal_digit _ _ 1 h2)
    _ = loop false rest (s.put c) := loop_of_round (s := t _ 2) hrem hdone (hthird _ hlen)

end

lemma loop_byte (hs : s.state = .ordinary) (hrem : 0 < s.nrem) (hdone : s.done = false)
    (hlen : s.label.length < 63) (c : UInt8) (rest : List UInt8) :
    loop false (totextByte true c ++ rest) s = loop false rest (s.put c) := by
  have hslash : ∀ n, s.round false 92 n = .ok { s with state := .escape } := by
    intro n
    rw [round, hs]
    rfl
  rcases totextByte_cases c with ⟨h, hdot, hc, -⟩ | ⟨h, hdigit, hbracket⟩ | h
  · rw [h]
    refine loop_of_round hrem hdone ?_
    simp only [round, hs, ordinary, if_neg hdot, if_neg hc, store_put hlen]
  · rw [h]
    exact (loop_of_round hrem hdone (hslash _)).trans
      (loop_escaped (s := { s with state := .escape }) (.inr rfl) hrem hdone hlen hdigit hbracket
        rest)
  · rw [h]
    exact (loop_of_round hrem hdone (hslash _)).trans
      (loop_decimal (s := { s with state := .escape }) (.inr rfl) hrem hdone hlen c rest)

lemma loop_first (hs : s.state = .init ∨ s.state = .start) (hrem : 1 < s.nrem)
    (hdone : s.done = false) (c : UInt8) (rest : List UInt8) :
    loop false (totextByte true c ++ rest) s = loop false rest (s.opened.put c) := by
  have hrem0 : 0 < s.nrem := by omega
  have hrem1 : 0 < s.opened.nrem := by
    simp only [opened]
    omega
  have hstart (b : UInt8) (n : ℕ) (hdot : b ≠ 46) (hat : b ≠ 64) :
      s.round false b n = s.start false b n := by
    rcases hs with hs | hs
    · simp only [round, hs, init, if_neg hdot, hat, false_and, if_false]
    · simp only [round, hs]
  have hslash : ∀ n, s.round false 92 n = .ok { s.opened with state := .initialescape } := by
    intro n
    rw [hstart 92 n (by decide) (by decide)]
    rfl
  rcases totextByte_cases c with ⟨h, hdot, hc, hat⟩ | ⟨h, hdigit, hbracket⟩ | h
  · rw [h]
    refine loop_of_round hrem0 hdone ?_
    have hne : ¬s.nrem - 1 = 0 := by omega
    rw [hstart c _ hdot hat]
    simp only [start, if_neg hc, if_neg hne, ordinary, if_neg hdot]
    exact store_put (by simp) _ _
  · rw [h]
    exact (loop_of_round hrem0 hdone (hslash _)).trans
      (loop_escaped (s := { s.opened with state := .initialescape }) (.inl rfl) hrem1 hdone
        (by simp [opened]) hdigit hbracket rest)
  · rw [h]
    exact (loop_of_round hrem0 hdone (hslash _)).trans
      (loop_decimal (s := { s.opened with state := .initialescape }) (.inl rfl) hrem1 hdone
        (by simp [opened]) c rest)

lemma Holds.loop_bytes (bytes : List UInt8) (h : s.Holds nmax ls) (hs : s.state = .ordinary)
    (hlen : s.label.length + bytes.length ≤ 63)
    (hroom : (wireOf ls).length + (s.label.length + 1) + bytes.length ≤ nmax) (rest : List UInt8) :
    ∃ t, Ft.loop false (bytes.flatMap (totextByte true) ++ rest) s = Ft.loop false rest t ∧
      t.Holds nmax ls ∧ t.state = .ordinary ∧ t.label = s.label ++ bytes := by
  induction bytes generalizing s with
  | nil => exact ⟨s, rfl, h, hs, by simp⟩
  | cons c bytes ih =>
    have hin : s.state.inLabel := by simp [hs, inLabel]
    have hused := (h.inside hin).1
    have htotal := h.room
    simp only [length_cons] at hlen hroom
    obtain ⟨t, hloop, ht, hst, hlabel⟩ := ih (h.put hin (by omega) (by omega) c) rfl
      (by simp only [Ft.put, length_append, length_singleton]; omega)
      (by simp only [Ft.put, length_append, length_singleton]; omega)
    refine ⟨t, ?_, ht, hst, by simp [hlabel, Ft.put]⟩
    rw [flatMap_cons, append_assoc, loop_byte hs (by omega) h.done_eq (by omega), hloop]

lemma Holds.loop_label (l : Label) (hl : l ≠ root) (h : s.Holds nmax ls)
    (hs : s.state = .init ∨ s.state = .start) (hroom : (wireOf (ls ++ [l])).length ≤ nmax)
    (rest : List UInt8) : ∃ t, Ft.loop false (l.text ++ rest) s = Ft.loop false rest t ∧
      t.Holds nmax ls ∧ t.state = .ordinary ∧ t.label = l.1 := by
  obtain ⟨bytes, hbytes⟩ := l
  have hbetween : s.state.inLabel = false := by rcases hs with hs | hs <;> simp [hs, inLabel]
  have hused := h.between hbetween
  have htotal := h.room
  cases bytes with
  | nil => exact absurd rfl hl
  | cons c bytes =>
    simp only [wireOf_append, wireOf_cons, wireOf_nil, append_nil, length_append, length_bytes,
      length_cons] at hroom
    simp only [length_cons] at hbytes
    have hfirst := (h.opened hbetween (by omega)).put rfl (by simp only [Ft.opened]; omega)
      (by simp [Ft.opened]) c
    obtain ⟨t, hloop, ht, hst, hlabel⟩ := hfirst.loop_bytes bytes rfl
      (by simp only [Ft.put, Ft.opened, length_append, length_singleton, length_nil]; omega)
      (by simp only [Ft.put, Ft.opened, length_append, length_singleton, length_nil]; omega) rest
    refine ⟨t, ?_, ht, hst, by simp [hlabel, Ft.put, Ft.opened]⟩
    rw [text, flatMap_cons, append_assoc, loop_first hs (by omega) h.done_eq]
    exact hloop

lemma Holds.loop_labels (ms : List Label) (hms : ∀ l ∈ ms, l ≠ root) (h : s.Holds nmax ls)
    (hn : nmax ≤ 255) (hs : s.state = .init ∨ s.state = .start)
    (hroom : (wireOf (ls ++ ms)).length < nmax) (hrest : rest ≠ []) :
    ∃ t, Ft.loop false (textOf ms ++ rest) s = Ft.loop false rest t ∧ t.Holds nmax (ls ++ ms) ∧
      (t.state = .init ∨ t.state = .start) := by
  induction ms generalizing s ls with
  | nil => exact ⟨s, rfl, by simpa using h, hs⟩
  | cons l ms ih =>
    have hsplit : ls ++ l :: ms = (ls ++ [l]) ++ ms := by simp
    rw [hsplit] at hroom ⊢
    obtain ⟨t, hloop, ht, hst, hlabel⟩ := h.loop_label l (hms l (by simp)) hs
      (by rw [wireOf_append, length_append] at hroom; omega) (46 :: (textOf ms ++ rest))
    have hused := (ht.inside (by simp [hst, inLabel])).1
    have hrem : 0 < t.nrem := by
      have := ht.room
      simp only [hlabel, wireOf_append, wireOf_cons, wireOf_nil, append_nil, length_append,
        length_bytes] at hused hroom
      omega
    obtain ⟨hlen, hclosed⟩ := ht.closed hst .start rfl
    have hround : t.round false 46 (textOf ms ++ rest).length =
        .ok { t.closed with state := .start } := by
      rw [Ft.round, hst]
      simp only [ordinary_dot false (ht.nonempty hst), if_pos (ht.labels_le hn hrem hst)]
      rw [if_neg]
      simp [hrest]
    obtain ⟨u, hloop', hu, hsu⟩ := ih (fun m hm => hms m (by simp [hm])) hclosed (.inr rfl)
      (by simpa [hlabel] using hroom)
    refine ⟨u, ?_, by simpa [hlabel] using hu, hsu⟩
    rw [textOf_cons, append_assoc, cons_append, hloop, loop_of_round hrem ht.done_eq hround, hloop']

end Ft

section
variable {name : Name} {ls : List Label} {l : Label} {tlen available : ℕ}

lemma Label.length_text_pos (hl : l ≠ root) : l.text ≠ [] := by
  obtain ⟨bytes, hbytes⟩ := l
  cases bytes with
  | nil => exact absurd rfl hl
  | cons c bytes =>
    rcases totextByte_cases c with ⟨h, -⟩ | ⟨h, -⟩ | h <;> simp [Label.text, h]

lemma nameTotext_relative (hname : name.labels = ls ++ [l]) (hroot : ∀ m ∈ ls ++ [l], m ≠ root)
    (htlen : 1023 ≤ tlen) : nameTotext name false tlen = .ok (textOf ls ++ l.text) := by
  have hl : l.1.length ≠ 0 := fun h =>
    hroot l (by simp) (Subtype.ext (length_eq_zero_iff.mp h))
  have hlen := length_textOf_le (ls ++ [l])
  have hshort := name.short
  rw [hname] at hshort
  have hnotone : ¬(name.length = 1 ∧ name.labels.length = 1 ∧ name.wire.ndata.head? = some 0) := by
    rintro ⟨hone, -⟩
    simp only [Name.length, hname, wireOf_append, wireOf_cons, wireOf_nil, append_nil,
      length_append, length_bytes] at hone
    omega
  have hlabels := Tt.labels_eq (ls ++ [l]) [] hroot ⟨[], tlen⟩ (by simp only; omega)
  rw [append_nil] at hlabels
  rw [nameTotext, nameTotext2, if_neg (by simp [hname]), if_neg hnotone, hname, hlabels]
  simp only [Tt.labels, bind, Except.bind, Tt.finish, ne_eq, not_true_eq_false, false_and, if_false,
    true_or, if_true, nil_append]
  have htake : tlen - (tlen - (textOf (ls ++ [l])).length + 1) = (textOf ls ++ l.text).length := by
    simp only [textOf_append, textOf_cons, textOf_nil, length_append, length_cons,
      length_nil] at hlen ⊢
    omega
  have htext : textOf (ls ++ [l]) = (textOf ls ++ l.text) ++ [46] := by simp
  rw [htake, htext, take_left]

lemma nameTotext_absolute (hname : name.labels = ls ++ [root]) (hne : ls ≠ [])
    (hroot : ∀ m ∈ ls, m ≠ root) (htlen : 1023 ≤ tlen) :
    nameTotext name false tlen = .ok (textOf ls) := by
  have hlen := length_textOf_le ls
  have hshort := name.short
  rw [hname, wireOf_append, length_append] at hshort
  have hnotone : ¬(name.length = 1 ∧ name.labels.length = 1 ∧ name.wire.ndata.head? = some 0) := by
    rintro ⟨-, hone, -⟩
    simp [hname, hne] at hone
  rw [nameTotext, nameTotext2, if_neg (by simp [hname]), if_neg hnotone, hname,
    Tt.labels_eq ls [root] hroot ⟨[], tlen⟩ (by simp only; omega)]
  have hrem : ¬tlen - (textOf ls).length = 0 := by omega
  have htake : tlen - (tlen - (textOf ls).length) = (textOf ls).length := by omega
  simp [Tt.labels, root, hrem, htake, Tt.finish, bind, Except.bind]

/-- Before the last label is closed, the loop has read all its bytes and has room for the dot. -/
lemma loop_name (hroot : ∀ m ∈ ls ++ [l], m ≠ root)
    (hroom : (wireOf (ls ++ [l])).length < min available 255) (rest : List UInt8) :
    ∃ t, Ft.loop false (textOf ls ++ (l.text ++ rest)) (Ft.initial (min available 255)) =
        Ft.loop false rest t ∧ t.Holds (min available 255) ls ∧ t.state = .ordinary ∧ 0 < t.nrem ∧
      Ft.Holds (min available 255) { t.closed with state := .start } (ls ++ [l]) := by
  have hl : l ≠ root := hroot l (by simp)
  obtain ⟨s, hloop, hs, hst⟩ := (Ft.Holds.initial (min available 255)).loop_labels ls
    (fun m hm => hroot m (by simp [hm])) (min_le_right _ _) (.inl rfl)
    (by rw [wireOf_append, length_append] at hroom; simp; omega)
    (show l.text ++ rest ≠ [] by simp [length_text_pos hl])
  rw [nil_append] at hs
  obtain ⟨t, hloop', ht, htst, hlabel⟩ := hs.loop_label l hl hst hroom.le rest
  obtain ⟨hlen, hclosed⟩ := ht.closed htst .start rfl
  rw [show (⟨t.label, hlen⟩ : Label) = l from Subtype.ext hlabel] at hclosed
  refine ⟨t, hloop.trans hloop', ht, htst, ?_, hclosed⟩
  have := ht.room
  have := (ht.inside (by simp [htst, inLabel])).1
  simp only [hlabel, wireOf_append, wireOf_cons, wireOf_nil, append_nil, length_append,
    length_bytes] at this hroom
  omega

lemma nameFromtext_relative (hname : name.labels = ls ++ [l])
    (hroot : ∀ m ∈ ls ++ [l], m ≠ root) (hroom : name.length < min available 255) :
    nameFromtext false (textOf ls ++ l.text) none available =
      .ok (name.parsed (textOf ls ++ l.text).length) := by
  rw [Name.length, hname] at hroom
  obtain ⟨t, hloop, ht, htst, hrem, hclosed⟩ := loop_name hroot hroom []
  rw [append_nil] at hloop
  have hfin : t.finish false none 0 = .ok (t.closed, name.absolute) := by
    have habs : name.absolute = false := by
      simpa [Name.absolute, hname] using hroot l (by simp)
    rw [Ft.finish, if_neg (by simp [ht.done_eq]), Ft.closeLast, if_neg hrem.ne', if_neg (by simp),
      if_neg (by simp [htst]), if_pos htst, if_pos (ht.nonempty htst), Ft.endLabel_eq,
      if_pos (ht.labels_le (min_le_right _ _) hrem htst), habs]
    rfl
  have hleaves : t.closed.Leaves name.labels := by
    rw [hname]
    exact (hclosed.toHasRead.update t.state [] t.nrem t.nused).leaves (hclosed.between rfl)
  rw [nameFromtext_of_loop hloop, hfin]
  exact congrArg _ (hleaves.left_eq _ 0)

lemma nameFromtext_absolute (hname : name.labels = ls ++ [l] ++ [root])
    (hroot : ∀ m ∈ ls ++ [l], m ≠ root) (hroom : name.length ≤ min available 255) :
    nameFromtext false (textOf (ls ++ [l])) none available =
      .ok (name.parsed (textOf (ls ++ [l])).length) := by
  have hroom' : (wireOf (ls ++ [l])).length < min available 255 := by
    rw [Name.length, hname, wireOf_append, length_append] at hroom
    simp only [wireOf_cons, wireOf_nil, append_nil, length_bytes] at hroom
    omega
  obtain ⟨t, hloop, ht, htst, hrem, hclosed⟩ := loop_name hroot hroom' [46]
  have hround : t.round false 46 0 = .ok { t.closed.rootLabel with state := .start } := by
    rw [Ft.round, htst]
    simp only [Ft.ordinary_dot false (ht.nonempty htst),
      if_pos (ht.labels_le (min_le_right _ _) hrem htst), if_true]
  have hcomplete : Ft.Complete (min available 255) { t.closed.rootLabel with state := .start }
      name.labels := by
    rw [hname]
    exact hclosed.rootLabel rfl hrem .start
  have hfin : Ft.finish false none { t.closed.rootLabel with state := .start } 0 =
      .ok ({ t.closed.rootLabel with state := .start }, name.absolute) := by
    have habs : name.absolute := by simp [Name.absolute, hname]
    rw [Ft.finish, if_pos hcomplete.done_eq, habs]
  have htext : textOf (ls ++ [l]) = textOf ls ++ (l.text ++ [46]) := by simp
  rw [htext, nameFromtext_of_loop (hloop.trans (Ft.loop_of_round hrem ht.done_eq hround)), hfin]
  exact congrArg _ (hcomplete.leaves.left_eq _ 0)

end

/-- The text of a name is read back as the same name: an absolute name, or a relative one of at most
254 bytes. -/
theorem nameFromtext_nameTotext (name : Name) (tlen available : ℕ)
    (hname : name.absolute ∨ name.length ≤ 254) (htlen : 1023 ≤ tlen)
    (havailable : 255 ≤ available) : ∃ text, nameTotext name false tlen = .ok text ∧
      nameFromtext false text none available = .ok (name.parsed text.length) := by
  have hmin : min available 255 = 255 := min_eq_right havailable
  have htake : tlen - (tlen - 1) = 1 := by omega
  rcases eq_nil_or_concat name.labels with hnil | ⟨ls, l, hls⟩
  · -- The empty name is written as an at sign.
    obtain ⟨labels, rootLast, short⟩ := name
    obtain rfl : labels = [] := hnil
    refine ⟨[64], ?_, ?_⟩
    · simp [nameTotext, nameTotext2, Name.length, Tt.finish, htake, show tlen ≠ 0 by omega]
    · simp only [nameFromtext, hmin]
      rfl
  · rw [concat_eq_append] at hls
    have hroot := name.rootLast
    rw [hls, dropLast_concat] at hroot
    by_cases hl : l = root
    · subst hl
      rcases eq_nil_or_concat ls with hnil | ⟨ms, m, hms⟩
      · -- The root name is a dot.
        obtain ⟨labels, rootLast, short⟩ := name
        obtain rfl : labels = [root] := by simpa [hnil] using hls
        refine ⟨[46], ?_, ?_⟩
        · simp [nameTotext, nameTotext2, Name.length, Tt.finish, htake, show tlen ≠ 0 by omega,
            Name.wire, LbBind.wire, bytes, root]
        · simp only [nameFromtext, hmin]
          rfl
      · rw [concat_eq_append] at hms
        subst hms
        exact ⟨_, nameTotext_absolute hls (by simp) hroot htlen,
          nameFromtext_absolute hls hroot (by rw [hmin]; exact name.short)⟩
    · have hall : ∀ m ∈ ls ++ [l], m ≠ root := by
        intro m hm
        rcases mem_append.mp hm with hm | hm
        · exact hroot m hm
        · rw [mem_singleton.mp hm]
          exact hl
      have hrel : name.absolute = false := by simpa [Name.absolute, hls] using hl
      have := hname.resolve_left (by simp [hrel])
      exact ⟨_, nameTotext_relative hls hall htlen, nameFromtext_relative hls hall (by omega)⟩

/-- A relative name whose label has a dot and a byte above 127. -/
theorem nameFromtext_nameTotext_escaped :
    ∃ text, nameTotext ⟨[⟨[46, 200, 97], by decide⟩], by simp, by decide⟩ false 1023 = .ok text ∧
      nameFromtext false text none 255 =
        .ok (Name.parsed ⟨[⟨[46, 200, 97], by decide⟩], by simp, by decide⟩ text.length) :=
  nameFromtext_nameTotext _ 1023 255 (.inr (by decide)) (by decide) (by decide)

end LbBind

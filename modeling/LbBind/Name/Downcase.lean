import LbBind.Name.Fromtext

/-! `DNS_NAME_DOWNCASE` of `dns_name_fromtext`. A call with the option goes through the same rounds
as one without it, with the bytes in lower case, until a character above 127 is to be looked up in
`maptolower`. -/

namespace LbBind

open Lib Except Label

open Except (map)

lemma tableAt_char {α : Type} (table : UInt8 → α) (c : UInt8) : tableAt table (charIndex c) =
    if c.toNat < 128 then .ok (table c) else .error .outside := by
  have := c.toNat_lt
  by_cases hc : c.toNat < 128
  · simp [tableAt, charIndex, hc, show (c.toNat : ℤ) ≤ 255 by omega]
  · rw [if_neg hc, tableAt, charIndex, if_neg hc, if_neg (by omega)]

lemma tableAt_value {α : Type} (table : UInt8 → α) {value : ℕ} (h : value ≤ 255) :
    tableAt table value = .ok (table (UInt8.ofNat value)) := by
  simp [tableAt, show (value : ℤ) ≤ 255 by omega]

lemma maptolower_length {n : ℕ} (h : n ≤ 63) : maptolower (UInt8.ofNat n) = UInt8.ofNat n := by
  refine if_neg ?_
  rintro ⟨hle, -⟩
  have : 65 ≤ (UInt8.ofNat n).toNat := UInt8.le_iff_toNat_le.mp hle
  rw [UInt8.toNat_ofNat'] at this
  omega

namespace Ft

def lowered (s : Ft) : Ft :=
  { s with ndata := s.ndata.map maptolower, label := s.label.map maptolower }

/-- The outcome with downcasing, from the one without it, of a round that reads the character `c`. -/
def checked (c : UInt8) : Except Halt Ft → Except Halt Ft
  | .error e => .error e
  | .ok s => if c.toNat < 128 then .ok s.lowered else .error .outside

variable {s : Ft} {c : UInt8} {tlen : ℕ}

attribute [local simp] lowered Except.bind checked bind map

lemma closed_lowered (h : s.label.length ≤ 63) : s.lowered.closed = s.closed.lowered := by
  simp [closed, maptolower_length h]

lemma rootLabel_lowered (s : Ft) : s.lowered.rootLabel = s.rootLabel.lowered := by
  simp [rootLabel, maptolower]

lemma endLabel_lowered (h : s.label.length ≤ 63) :
    s.lowered.endLabel = s.endLabel.map lowered := by
  rw [endLabel_eq, endLabel_eq, closed_lowered h]
  have hlabels : s.lowered.labels = s.labels := rfl
  rw [hlabels]
  split_ifs <;> rfl

lemma checked_eq_map (hc : c.toNat < 128) (r : Except Halt Ft) : checked c r = r.map lowered := by
  cases r with
  | error e => rfl
  | ok s => simp [hc]

lemma store_char_lowered (s : Ft) (c : UInt8) :
    s.lowered.store true (charIndex c) c = checked c (s.store false (charIndex c) c) := by
  rw [store_false, store, tableAt_char]
  by_cases hlen : 63 ≤ s.label.length
  · simp [hlen]
  · by_cases hc : c.toNat < 128
    · simp [hlen, hc, put]
    · simp [hlen, hc]

lemma store_value_lowered (s : Ft) {value : ℕ} (h : value ≤ 255) :
    s.lowered.store true value (UInt8.ofNat value) =
      (s.store false value (UInt8.ofNat value)).map lowered := by
  rw [store_false, store, tableAt_value maptolower h]
  by_cases hlen : 63 ≤ s.label.length
  · simp [hlen]
  · simp [hlen, put]

lemma lt_of_isdigit (h : isdigit c) : c.toNat < 128 := by
  simp only [isdigit, Bool.and_eq_true, decide_eq_true_eq] at h
  omega

lemma escdecimal_lowered (s : Ft) (value digits : ℕ) (c : UInt8) :
    s.lowered.escdecimal true value digits c = checked c (s.escdecimal false value digits c) := by
  by_cases hc : isdigit c
  · rw [checked_eq_map (lt_of_isdigit hc)]
    simp only [escdecimal, if_pos hc, charIndex_of_isdigit hc, bind, Except.bind]
    split_ifs with hdigits hvalue
    · rfl
    · exact store_value_lowered s (by omega)
    · rfl
  · simp [escdecimal, hc]

lemma escape_lowered (s : Ft) (c : UInt8) :
    s.lowered.escape true c = checked c (s.escape false c) := by
  rw [escape, escape]
  split_ifs with hc
  · exact escdecimal_lowered s 0 0 c
  · exact store_char_lowered s c

lemma ordinary_lowered (h : s.label.length ≤ 63) :
    s.lowered.ordinary true c tlen = checked c (s.ordinary false c tlen) := by
  by_cases hdot : c = 46
  · subst hdot
    by_cases hlen : s.label.length = 0
    · simp [ordinary, hlen]
    · rw [checked_eq_map (by decide), ordinary_dot true (by simpa using hlen),
        ordinary_dot false hlen, closed_lowered h, rootLabel_lowered]
      have hlabels : s.lowered.labels = s.labels := rfl
      rw [hlabels]
      split_ifs <;> rfl
  · rw [ordinary, ordinary, if_neg hdot, if_neg hdot]
    split_ifs with hslash
    · rw [checked_eq_map (by simp [hslash])]
      rfl
    · exact store_char_lowered s c

lemma start_lowered (s : Ft) : s.lowered.start true c tlen = checked c (s.start false c tlen) := by
  simp only [start]
  by_cases hslash : c = 92
  · rw [if_pos hslash, if_pos hslash, checked_eq_map (by simp [hslash])]
    rfl
  · rw [if_neg hslash, if_neg hslash]
    by_cases hrem : s.nrem - 1 = 0
    · simp [hrem]
    · have hrem' : ¬s.lowered.nrem - 1 = 0 := hrem
      simp only [if_neg hrem, if_neg hrem']
      exact @ordinary_lowered ⟨.ordinary, s.ndata, [], s.nrem - 1, s.nused + 1, s.labels,
        s.offsets, s.done⟩ c tlen (by simp)

lemma round_lowered (h : s.state.inLabel → s.label.length ≤ 63) :
    s.lowered.round true c tlen = checked c (s.round false c tlen) := by
  have hstate : s.lowered.state = s.state := rfl
  rw [round, round, hstate]
  cases hs : s.state with
  | init =>
    simp only [init]
    by_cases hdot : c = 46
    · rw [if_pos hdot, if_pos hdot, checked_eq_map (by simp [hdot])]
      by_cases ht : tlen = 0
      · rw [if_pos ht, if_pos ht, rootLabel_lowered]
        rfl
      · rw [if_neg ht, if_neg ht]
        rfl
    · rw [if_neg hdot, if_neg hdot]
      by_cases hat : c = 64 ∧ tlen = 0
      · rw [if_pos hat, if_pos hat, checked_eq_map (by simp [hat])]
        rfl
      · rw [if_neg hat, if_neg hat]
        exact start_lowered s
  | start => exact start_lowered s
  | ordinary => exact ordinary_lowered (h (by simp [hs, FtState.inLabel]))
  | initialescape =>
    simp only [initialescape]
    by_cases hbracket : c = 91
    · rw [if_pos hbracket, if_pos hbracket]
      rfl
    · rw [if_neg hbracket, if_neg hbracket]
      exact escape_lowered s c
  | escape => exact escape_lowered s c
  | escdecimal value digits => exact escdecimal_lowered s value digits c
  | atsign => rfl

def passed : List UInt8 → Ft → List UInt8
  | [], _ => []
  | c :: text, s =>
    if 0 < s.nrem ∧ s.done = false then
      match s.round false c text.length with
      | .ok s => c :: passed text s
      | .error _ => []
    else []

end Ft

def Ascii (bytes : List UInt8) : Prop := ∀ b ∈ bytes, b.toNat < 128

instance (bytes : List UInt8) : Decidable (Ascii bytes) :=
  inferInstanceAs (Decidable (∀ b ∈ bytes, b.toNat < 128))

namespace Ft

variable {s s' : Ft} {c : UInt8} {tlen nmax : ℕ} {ls : List Label}

lemma ascii_cons {bytes : List UInt8} : Ascii (c :: bytes) ↔ c.toNat < 128 ∧ Ascii bytes := by
  simp [Ascii]

lemma Holds.next (h : s.Holds nmax ls) (hn : nmax ≤ 255) (hrem : 0 < s.nrem)
    (hok : s.round false c tlen = .ok s') : s'.done ∨ ∃ ms, s'.Holds nmax ms := by
  rcases round_cases s c tlen with ⟨t, ht, hround⟩ | ⟨r, herr⟩ | heq | ⟨hs, -, hlabels⟩
  · obtain rfl : t = s' := ok.inj (ht.symm.trans hok)
    obtain ⟨ms, hcomplete | ⟨hholds, -⟩⟩ := h.round hrem hround
    · exact .inl hcomplete.done_eq
    · exact .inr ⟨ms, hholds⟩
  · simp [herr] at hok
  · simp [Ft.round, heq] at hok
  · have := h.labels_le hn hrem hs
    omega

lemma loop_lowered (hn : nmax ≤ 255) (text : List UInt8) (h : s.done ∨ ∃ ls, s.Holds nmax ls) :
    loop true text s.lowered = if Ascii (passed text s) then
      (loop false text s).map (fun r => (r.1.lowered, r.2)) else .error .outside := by
  induction text generalizing s with
  | nil => simp [loop, passed, Ascii, map]
  | cons c text ih =>
    by_cases hrem : 0 < s.nrem ∧ s.done = false
    · have hrem' : 0 < s.lowered.nrem ∧ s.lowered.done = false := hrem
      obtain ⟨ls, hholds⟩ := h.resolve_left (by simp [hrem.2])
      simp only [loop, passed, if_pos hrem, if_pos hrem',
        round_lowered fun hs => (hholds.inside hs).2]
      cases hround : s.round false c text.length with
      | error e => simp [checked, Ascii, bind, Except.bind, map]
      | ok s' =>
        have ih := ih (hholds.next hn hrem.1 hround)
        by_cases hc : c.toNat < 128
        · simp only [checked, hc, if_true, bind, Except.bind, ih, ascii_cons, true_and]
        · simp [checked, hc, bind, Except.bind, ascii_cons]
    · have hrem' : ¬(0 < s.lowered.nrem ∧ s.lowered.done = false) := hrem
      simp only [loop, passed, if_neg hrem, if_neg hrem']
      simp [Ascii, map]

lemma copyBytes_true (bytes : List UInt8) : copyBytes true bytes =
    if Ascii bytes then .ok (bytes.map maptolower) else .error .outside := by
  induction bytes with
  | nil => simp [copyBytes, Ascii]
  | cons c bytes ih =>
    by_cases hc : c.toNat < 128
    · by_cases hascii : Ascii bytes
      all_goals simp [copyBytes, tableAt_char, ih, ascii_cons, hc, hascii, bind, Except.bind]
    · simp [copyBytes, tableAt_char, ascii_cons, hc, bind, Except.bind]

lemma appendOrigin_lowered (origin : List Label) (h : appendOrigin false origin s = .ok s') :
    appendOrigin true origin s.lowered =
      if ∀ l ∈ origin, Ascii l.1 then .ok s'.lowered else .error .outside := by
  induction origin generalizing s with
  | nil =>
    obtain rfl : s = s' := ok.inj h
    simp [appendOrigin]
  | cons l origin ih =>
    simp only [appendOrigin, copyBytes_false, copyBytes_true, bind, Except.bind] at h ⊢
    by_cases hl : Ascii l.1
    · simp only [hl, if_true, List.forall_mem_cons, true_and]
      have hlength := maptolower_length l.2
      by_cases hnil : origin = []
      · rw [if_pos hnil] at h ⊢
        rw [if_pos (by simp [hnil]), ← ok.inj h]
        simp [lowered, hlength]
      · rw [if_neg hnil] at h ⊢
        by_cases hlabels : s.labels + 1 ≤ 127
        · have hlabels' : s.lowered.labels + 1 ≤ 127 := hlabels
          rw [if_pos hlabels] at h
          rw [if_pos hlabels', ← ih h]
          simp [lowered, hlength]
        · rw [if_neg hlabels] at h
          simp at h
    · simp [hl]

lemma closeLast_lowered (h : s.state.inLabel → s.label.length ≤ 63) :
    s.lowered.closeLast tlen = (s.closeLast tlen).map lowered := by
  have hstate : s.lowered.state = s.state := rfl
  have hlen : s.lowered.label.length = s.label.length := by simp [lowered]
  have hrem : s.lowered.nrem = s.nrem := rfl
  rw [closeLast, closeLast, hstate, hlen, hrem]
  split_ifs with h1 h2 h3 h4 h5
  · rfl
  · rfl
  · rfl
  · exact endLabel_lowered (h (by simp [h4, FtState.inLabel]))
  · rfl
  · rfl

end Ft

def OriginAscii (origin : Option Name) : Prop := ∀ o ∈ origin, ∀ l ∈ o.labels, Ascii l.1

instance (origin : Option Name) : Decidable (OriginAscii origin) :=
  inferInstanceAs (Decidable (∀ o ∈ origin, ∀ l ∈ o.labels, Ascii l.1))

namespace Ft

variable {s : Ft} {tlen nmax : ℕ} {ls : List Label}

def guarded (ascii : Prop) [Decidable ascii] : Except Halt (Ft × Bool) → Except Halt (Ft × Bool)
  | .error e => .error e
  | .ok r => if ascii then .ok (r.1.lowered, r.2) else .error .outside

lemma HasRead.withOrigin_lowered (h : s.HasRead ls) (hn : nmax ≤ 255)
    (hroom : s.nused + s.nrem = nmax) (hused : s.nused = (wireOf ls).length) (origin : Option Name) :
    s.lowered.withOrigin true origin =
      guarded (OriginAscii origin) (s.withOrigin false origin) := by
  cases origin with
  | none => simp [withOrigin, guarded, OriginAscii]
  | some o =>
    have hrem : s.lowered.nrem = s.nrem := rfl
    simp only [withOrigin, hrem]
    by_cases hlen : s.nrem < o.length
    · simp [hlen, guarded]
    · have hshort : (wireOf (ls ++ o.labels)).length ≤ 255 := by
        rw [Name.length] at hlen
        rw [wireOf_append, List.length_append]
        omega
      obtain ⟨t, happend, -⟩ := (h.update s.state s.label (s.nrem - o.length)
        s.nused).appendOrigin o.labels hused o.rootLast hshort
      have hlowered := appendOrigin_lowered o.labels happend
      simp only [if_neg hlen, happend]
      change (Ft.appendOrigin true o.labels
        (lowered { s with nrem := s.nrem - o.length })).bind _ = _
      rw [hlowered]
      have hiff : OriginAscii (some o) ↔ ∀ l ∈ o.labels, Ascii l.1 := by simp [OriginAscii]
      by_cases hascii : ∀ l ∈ o.labels, Ascii l.1
      · rw [if_pos hascii]
        exact (if_pos (hiff.mpr hascii)).symm
      · rw [if_neg hascii]
        exact (if_neg (mt hiff.mp hascii)).symm

lemma finish_lowered (hn : nmax ≤ 255) (hs : s.done ∨ ∃ ls, s.Holds nmax ls)
    (hend : s.done ∨ s.nrem = 0 ∨ tlen = 0) (origin : Option Name) :
    s.lowered.finish true origin tlen =
      guarded (s.done = false → OriginAscii origin) (s.finish false origin tlen) := by
  have hdone : s.lowered.done = s.done := rfl
  by_cases hd : s.done
  · simp [finish, hdone, hd, guarded]
  · obtain ⟨ls, hholds⟩ := hs.resolve_left hd
    simp only [finish, hdone, hd, if_false, Bool.false_eq_true,
      closeLast_lowered fun hs => (hholds.inside hs).2]
    rcases hholds.closeLast hn (hend.resolve_left hd) with
      ⟨r, herr⟩ | ⟨t, ms, hok, hread, hroom, hused⟩
    · simp [herr, bind, Except.bind, map, guarded]
    · simp only [hok, bind, Except.bind, map, hread.withOrigin_lowered hn hroom hused]
      simp [guarded]

end Ft

lemma map_wireOf_maptolower (ls : List Label) :
    (wireOf ls).map maptolower = wireOf (ls.map downcase) := by
  induction ls with
  | nil => rfl
  | cons l ls ih =>
    simp [ih, bytes, downcase, lower, maptolower_length l.2]

lemma labelOffsets_map_downcase (k : ℕ) (ls : List Label) :
    labelOffsets k (ls.map downcase) = labelOffsets k ls := by
  induction ls generalizing k with
  | nil => rfl
  | cons l ls ih => simp [labelOffsets, ih, downcase]

lemma Name.absolute_downcase (name : Name) : name.downcase.absolute = name.absolute := by
  simp only [Name.absolute, Name.labels_downcase, List.getLast?_map]
  cases name.labels.getLast? with
  | none => rfl
  | some l => simp [downcase_eq_root]

def Parsed.lowered (p : Parsed) : Parsed :=
  { p with name := ⟨p.name.ndata.map maptolower, p.name.labels⟩ }

lemma Name.parsed_lowered (name : Name) (tused : ℕ) :
    (name.parsed tused).lowered = name.downcase.parsed tused := by
  simp [Name.parsed, Parsed.lowered, Name.wire, LbBind.wire, map_wireOf_maptolower,
    labelOffsets_map_downcase, Name.absolute_downcase, Name.length, length_wireOf_downcase]

def DowncaseAgrees (text : List UInt8) (origin : Option Name) (available : ℕ) : Prop :=
  (∃ r, nameFromtext false text origin available = .error (.result r) ∧
    nameFromtext true text origin available = .error (.result r)) ∨
  ∃ (name : Name) (tused : ℕ), nameFromtext false text origin available = .ok (name.parsed tused) ∧
      nameFromtext true text origin available = .ok (name.downcase.parsed tused)

def AppendsOrigin (text : List UInt8) (origin : Option Name) (available : ℕ) : Prop :=
  (∃ p, nameFromtext false text origin available = .ok p) ∧
    ∃ p, nameFromtext false text none available = .ok p ∧ p.absolute = false

section
variable {text : List UInt8} {origin : Option Name} {available : ℕ}

lemma initial_lowered (nrem : ℕ) : (Ft.initial nrem).lowered = Ft.initial nrem := rfl

lemma nameFromtext_true_of_not_ascii (origin : Option Name)
    (h : ¬Ascii (Ft.passed text (Ft.initial (min available 255)))) :
    nameFromtext true text origin available = .error .outside := by
  have hloop := Ft.loop_lowered (min_le_right available 255) text
    (.inr ⟨[], Ft.Holds.initial (min available 255)⟩)
  rw [initial_lowered, if_neg h] at hloop
  simp [nameFromtext, hloop, bind, Except.bind]

lemma appendsOrigin_of_loop {s : Ft} {tlen : ℕ}
    (h : Ft.loop false text (Ft.initial (min available 255)) = .ok (s, tlen))
    (hfin : ∃ r, s.finish false origin tlen = .ok r) :
    AppendsOrigin text origin available ↔ s.done = false := by
  obtain ⟨r, hfin⟩ := hfin
  simp only [AppendsOrigin, nameFromtext_of_loop h, hfin]
  cases hdone : s.done with
  | true => simp [Ft.finish, hdone, map, Ft.left]
  | false =>
    simp only [Ft.finish, hdone, Bool.false_eq_true, if_false] at hfin
    cases hclose : s.closeLast tlen with
    | error e => simp [hclose, bind, Except.bind] at hfin
    | ok t => simp [Ft.finish, hdone, hclose, bind, Except.bind, Ft.withOrigin, map, Ft.left]

lemma nameFromtext_true_of_ascii (origin : Option Name)
    (h : Ascii (Ft.passed text (Ft.initial (min available 255)))) :
    (∃ r, nameFromtext false text origin available = .error (.result r) ∧
      nameFromtext true text origin available = .error (.result r)) ∨
    ∃ p, nameFromtext false text origin available = .ok p ∧
      (AppendsOrigin text origin available ∧ ¬OriginAscii origin ∧
          nameFromtext true text origin available = .error .outside ∨
        (AppendsOrigin text origin available → OriginAscii origin) ∧
          nameFromtext true text origin available = .ok p.lowered) := by
  have hn : min available 255 ≤ 255 := min_le_right _ _
  have hinitial := Ft.Holds.initial (min available 255)
  have hloop := Ft.loop_lowered hn text (.inr ⟨[], hinitial⟩)
  rw [initial_lowered, if_pos h] at hloop
  rcases hinitial.loop hn text (by simp [Ft.initial]) with ⟨r, herr⟩ | ⟨s, tlen, ls, hok, -, hs⟩
  · refine .inl ⟨r, ?_, ?_⟩
    · simp [nameFromtext, herr, bind, Except.bind]
    · simp [nameFromtext, hloop, herr, bind, Except.bind, map]
  · rw [hok] at hloop
    have hs' : s.done ∨ ∃ ls, s.Holds (min available 255) ls :=
      hs.imp (·.done_eq) fun h => ⟨ls, h.1⟩
    have hend : s.done ∨ s.nrem = 0 ∨ tlen = 0 := hs.imp (·.done_eq) (·.2)
    have hfin := Ft.finish_lowered hn hs' hend origin
    rw [nameFromtext_of_loop hok, nameFromtext_of_loop hloop, hfin]
    cases hfalse : s.finish false origin tlen with
    | error e =>
      have hcases := nameFromtext_cases text origin available
      rw [nameFromtext_of_loop hok, hfalse] at hcases
      rcases hcases with ⟨r, herr⟩ | ⟨name, tused, hname⟩
      · obtain rfl : e = .result r := error.inj herr
        exact .inl ⟨r, rfl, rfl⟩
      · simp [map] at hname
    | ok r =>
      have happends := appendsOrigin_of_loop hok ⟨r, hfalse⟩
      refine .inr ⟨Ft.left text tlen r, rfl, ?_⟩
      rw [happends]
      by_cases horigin : s.done = false → OriginAscii origin
      · refine .inr ⟨horigin, ?_⟩
        simp only [Ft.guarded, if_pos horigin]
        rfl
      · obtain ⟨hd, hhigh⟩ := Classical.not_imp.mp horigin
        refine .inl ⟨hd, hhigh, ?_⟩
        simp only [Ft.guarded, if_neg horigin]
        rfl

end

lemma not_downcaseAgrees {text : List UInt8} {origin : Option Name} {available : ℕ}
    (htrue : nameFromtext true text origin available = .error .outside) :
    ¬DowncaseAgrees text origin available := by
  rintro (⟨r, -, htrue'⟩ | ⟨name, tused, -, htrue'⟩)
  all_goals simp [htrue] at htrue'

/-- The option does what it says exactly if the call reads no character above 127 and appends no
origin with such a byte. -/
theorem nameFromtext_downcase_iff (text : List UInt8) (origin : Option Name) (available : ℕ) :
    DowncaseAgrees text origin available ↔ Ascii (Ft.passed text (Ft.initial (min available 255))) ∧
        (AppendsOrigin text origin available → OriginAscii origin) := by
  by_cases hascii : Ascii (Ft.passed text (Ft.initial (min available 255)))
  · rcases nameFromtext_true_of_ascii origin hascii with
      ⟨r, hfalse, htrue⟩ | ⟨p, hfalse, ⟨happends, horigin, htrue⟩ | ⟨horigin, htrue⟩⟩
    · refine iff_of_true (.inl ⟨r, hfalse, htrue⟩) ⟨hascii, ?_⟩
      rintro ⟨⟨p, hp⟩, -⟩
      simp [hfalse] at hp
    · exact iff_of_false (not_downcaseAgrees htrue) fun hcond => horigin (hcond.2 happends)
    · refine iff_of_true ?_ ⟨hascii, horigin⟩
      rcases nameFromtext_cases text origin available with ⟨r, herr⟩ | ⟨name, tused, hname⟩
      · simp [hfalse] at herr
      · obtain rfl : p = name.parsed tused := ok.inj (hfalse.symm.trans hname)
        exact .inr ⟨name, tused, hname, by rw [htrue, Name.parsed_lowered]⟩
  · exact iff_of_false (not_downcaseAgrees (nameFromtext_true_of_not_ascii origin hascii))
      fun hcond => hascii hcond.1

/-- The text of one character, 128: the option reads outside the table. -/
theorem nameFromtext_downcase_high : ¬DowncaseAgrees [128] none 255 := not_downcaseAgrees rfl

end LbBind

import LbBind.Lex.Machine

/-! What the rounds of the tokenizer keep. A character can be pushed back whenever the
machine does so, a token that is returned can be given back, and on a file a scan comes
to its end without a failed assertion. -/

namespace LbBind.Lex

open Lib (isdigit)
open Scan State Round Nat Option

lemma byteOf_readInt (kind : Kind) (b : UInt8) : byteOf (readInt kind b) = b := by
  have hb : b.toNat < 256 := b.toNat_lt
  have hmod : (readInt kind b % 256).toNat = b.toNat := by
    cases kind with
    | file =>
      simp only [readInt]
      omega
    | buffer =>
      simp only [readInt]
      split_ifs <;> omega
  rw [byteOf, hmod, UInt8.ofNat_toNat]

lemma readInt_eq_endOfFile (kind : Kind) (b : UInt8) :
    readInt kind b = endOfFile ↔ kind = .buffer ∧ b = 255 := by
  have h255 : b = 255 ↔ b.toNat = 255 := by
    rw [← UInt8.toNat_inj]
    rfl
  cases kind with
  | file => simp [readInt, endOfFile]
  | buffer =>
    simp only [readInt, endOfFile, h255, true_and]
    split_ifs
    · exact iff_of_false id (by omega)
    · omega

namespace Source

variable {s : Source}

def taken (s : Source) : List UInt8 := if s.remaining = 0 then s.input.take 1 else []

lemma fill_file (s : Source) : s.fill .file = if s.remaining = 0 then
        match s.input with
        | [] => { s with atEof := true }
        | b :: rest => { s with input := rest, pushback := s.pushback ++ [b] }
      else s := by
  unfold fill
  split_ifs with h
  · cases hinput : s.input with
    | nil => rfl
    | cons b rest =>
      have hne : readInt .file b ≠ endOfFile := by simp [readInt_eq_endOfFile]
      simp only [if_pos hne, byteOf_readInt]
  · rfl

lemma fetch_file (heof : s.atEof = false) (hle : s.current ≤ s.pushback.length) :
    (s.left = 0 ∧ s.taken = [] ∧ s.fetch .file = some (none, { s with atEof := true })) ∨
      ∃ b s', s.fetch .file = some (some b, s') ∧ s.left = s'.left + 1 ∧
        s'.current = s.current + 1 ∧ s'.current ≤ s'.pushback.length ∧ s'.atEof = false ∧
        s.input = s.taken ++ s'.input := by
  unfold fetch taken
  rw [fill_file]
  by_cases hr : s.remaining = 0
  · simp only [if_pos hr]
    rw [remaining] at hr
    have hcurrent : s.current = s.pushback.length := by omega
    cases hinput : s.input with
    | nil => exact .inl ⟨by simp [left, remaining, hinput, hcurrent], rfl, by simp⟩
    | cons b rest =>
      refine .inr ⟨b, { s with
        input := rest, pushback := s.pushback ++ [b], current := s.current + 1
        line := if b = 10 then s.line + 1 else s.line }, ?_, ?_, rfl, ?_, heof, by simp⟩
      · simp [heof, hcurrent]
      · simp only [left, remaining, hinput, List.length_append, List.length_cons, List.length_nil]
        omega
      · simp [hcurrent]
  · simp only [if_neg hr]
    rw [remaining] at hr
    have hlt : s.current < s.pushback.length := by omega
    refine .inr ⟨s.pushback[s.current], { s with
      current := s.current + 1
      line := if s.pushback[s.current] = 10 then s.line + 1 else s.line }, ?_, ?_, rfl, hlt, heof,
      rfl⟩
    · simp [heof, hlt]
    · simp only [left, remaining]
      omega

end Source

def State.plain : State → Bool
  | .start | .crlf | .string | .number => true
  | _ => false

variable (s : Scan)

def Scan.tokenState : State := match s.state with
  | .maybecomment | .ccomment | .ccommentend | .eatline => s.savedState
  | state => state

def State.begun (state : State) (data : List UInt8) : ℕ := match state with
  | .start => 0
  | .string | .number => if data = [] then 0 else 1
  | _ => 1

def Scan.owed : ℕ :=
  (if s.state.plain || s.state == .qstring then 0 else 1) + s.tokenState.begun s.data

def Scan.Starts (b : UInt8) : Prop :=
  endsString s.lex.specials false (some b) = false ∧ (s.state = .number → isdigit b)

def charge : Option (Option UInt8) → ℕ
  | some (some _) => 1
  | _ => 0

/-- What holds when a character is taken up by `switch`: `c` is `none` when it is
still to be read. -/
structure Scan.Inv (s : Scan) (c : Option (Option UInt8)) : Prop where
  le : s.lex.source.current ≤ s.lex.source.pushback.length
  eof : s.lex.source.atEof → c = some none ∧ s.lex.source.current = s.lex.source.pushback.length
  room : charge c + s.owed ≤ s.lex.source.current
  plain : s.noComments = false → s.state.plain
  saved : s.state.plain = false → s.state ≠ .qstring → s.savedState.plain
  quoted : s.state = .qstring → s.escaped → s.hasPrev
  clean : s.tokenState = .start → s.escaped = false ∧ s.data = []
  fresh : s.tokenState = .string ∨ s.tokenState = .number → s.data = [] →
    s.state = s.tokenState ∧ s.escaped = false ∧ ∃ b, c = some (some b) ∧ s.Starts b

/-- Between calls nothing remains once the end is noted. -/
structure Source.Rest (s : Source) : Prop where
  le : s.current ≤ s.pushback.length
  eof : s.atEof → s.current = s.pushback.length

structure Source.Ready (s : Source) : Prop where
  le : s.current ≤ s.pushback.length
  notEof : s.atEof = false

def Scan.rounds : ℕ := 4 * s.lex.source.left +
    if s.pending.isSome then if s.state = .start then 3 else 2
    else if s.state.plain || s.state == .qstring then 1 else 4

def weight (c : Option UInt8) (state : State) : ℕ :=
  if state.plain || state == .qstring then if c = none then 0 else if state = .start then 3 else 2
  else if c = none then 4 else 8

def Round.Good (bound : ℕ) : Round → Prop
  | .next s => s.Inv s.pending ∧ (s.pending ≠ none → s.state.plain) ∧ s.rounds < bound
  | .done result lex =>
    lex.source.Rest ∧ ∀ token, result = .ok token → 0 < lex.source.current ∨ token = .eof
  | .abort => False

section
variable {s : Scan} {c : Option UInt8}

lemma Scan.finish_good {result : Except Result Token} (bound : ℕ)
    (hle : s.lex.source.current ≤ s.lex.source.pushback.length)
    (heof : s.lex.source.atEof → c = none) (hroom : charge (some c) < s.lex.source.current) :
    (s.finish c result).Good bound := by
  have hpos : s.lex.source.current ≠ 0 := by omega
  cases c with
  | none =>
    simp only [finish, Source.unread, if_neg hpos, Round.Good]
    exact ⟨⟨hle, by simp⟩, fun _ _ => .inl (by omega)⟩
  | some b =>
    have hfalse : s.lex.source.atEof = false := by
      rw [← Bool.not_eq_true]
      intro h
      cases heof h
    simp only [finish, Source.unread, if_neg hpos, Round.Good]
    simp only [charge] at hroom
    exact ⟨⟨(sub_le _ _).trans hle, by simp [hfalse]⟩, fun _ _ => .inl (by omega)⟩

lemma crlf_good (hstate : s.state = .crlf) (h : s.Inv (some c)) (bound : ℕ) :
    (crlf c s).Good bound := by
  have hroom := h.room
  simp only [owed, tokenState, hstate, plain, begun, Bool.true_or, if_true] at hroom
  unfold crlf
  split_ifs with hc
  · subst hc
    exact ⟨⟨h.le, fun he => (h.eof he).2⟩, fun _ _ => .inl (by simp only; omega)⟩
  · exact finish_good bound h.le (fun he => by simpa using (h.eof he).1)
      (by simp only; omega)

variable {b : UInt8} {state : State} {bound : ℕ}

lemma Scan.Inv.notEof (h : s.Inv (some (some b))) : s.lex.source.atEof = false := by
  rw [← Bool.not_eq_true]
  intro he
  cases (h.eof he).1

lemma Scan.Inv.eof_none (h : s.Inv (some c)) (he : s.lex.source.atEof) : c = none := by
  simpa using (h.eof he).1

lemma Scan.Inv.ready {b : UInt8} (h : s.Inv (some (some b))) : s.lex.source.Ready := ⟨h.le, h.notEof⟩

lemma Scan.Inv.rest {c : Option (Option UInt8)} (h : s.Inv c) : s.lex.source.Rest :=
  ⟨h.le, fun he => (h.eof he).2⟩

/-! The states that a round goes on from. -/

lemma State.plain_cases (h : state.plain) :
    state = .start ∨ state = .crlf ∨ state = .string ∨ state = .number := by
  cases state <;> simp_all [plain]

lemma Scan.tokenState_plain (h : s.state.plain) : s.tokenState = s.state := by
  rcases plain_cases h with h | h | h | h <;> simp [tokenState, h]

lemma Scan.inv_plain {c : Option (Option UInt8)} (hplain : s.state.plain)
    (hle : s.lex.source.current ≤ s.lex.source.pushback.length) (heof : s.lex.source.atEof →
      c = some none ∧ s.lex.source.current = s.lex.source.pushback.length)
    (hroom : charge c + s.state.begun s.data ≤ s.lex.source.current)
    (hclean : s.state = .start → s.escaped = false ∧ s.data = [])
    (hfresh : s.state = .string ∨ s.state = .number → s.data = [] →
      s.escaped = false ∧ ∃ b, c = some (some b) ∧ s.Starts b) : s.Inv c where
  le := hle
  eof := heof
  room := by simpa [owed, hplain, tokenState_plain hplain] using hroom
  plain _ := hplain
  saved h := by simp [hplain] at h
  quoted h := by simp [h, plain] at hplain
  clean h := hclean (by rwa [tokenState_plain hplain] at h)
  fresh h hdata := by
    rw [tokenState_plain hplain] at h ⊢
    exact ⟨rfl, hfresh h hdata⟩

attribute [local simp] charge keep rounds

lemma Scan.next_qstring (hstate : s.state = .qstring) (hpending : s.pending = none)
    (hcomments : s.noComments) (hprev : s.escaped → s.hasPrev)
    (hready : s.lex.source.Ready) (hroom : 1 ≤ s.lex.source.current)
    (hbound : 4 * s.lex.source.left + 1 < bound) : (next s).Good bound := by
  have hinv : s.Inv none :=
    { le := hready.le
      eof := by simp [hready.notEof]
      room := by simpa [owed, tokenState, hstate, plain, begun] using hroom
      plain := by simp [hcomments]
      saved := fun _ h => absurd hstate h
      quoted := fun _ => hprev
      clean := by simp [tokenState, hstate]
      fresh := by simp [tokenState, hstate] }
  refine ⟨by rwa [hpending], by simp [hpending], ?_⟩
  simpa [hpending, hstate] using hbound

lemma Scan.next_plain (hplain : s.state.plain) (hpending : s.pending = none)
    (hready : s.lex.source.Ready) (hroom : s.state.begun s.data ≤ s.lex.source.current)
    (hclean : s.state = .start → s.escaped = false ∧ s.data = [])
    (hdata : s.state = .string ∨ s.state = .number → s.data ≠ [])
    (hbound : 4 * s.lex.source.left + 1 < bound) : (next s).Good bound := by
  refine ⟨inv_plain hplain hready.le (by simp [hready.notEof]) ?_ hclean
    fun h h' => absurd h' (hdata h), ?_, ?_⟩
  · simpa [hpending] using hroom
  · simp [hpending]
  · simpa [hpending, hplain] using hbound

lemma Scan.put_good (hstate : s.state = .string ∨ s.state = .number) (hpending : s.pending = none)
    (hready : s.lex.source.Ready) (hroom : 1 ≤ s.lex.source.current)
    (hbound : 4 * s.lex.source.left + 1 < bound) : (next (s.put b)).Good bound := by
  have hstate' : (s.put b).state = .string ∨ (s.put b).state = .number := hstate
  refine next_plain (s := s.put b) ?_ hpending hready ?_ ?_ ?_ hbound
  · rcases hstate' with h | h <;> rw [h] <;> rfl
  · rcases hstate' with h | h <;> rw [h] <;> simpa [begun, put] using hroom
  · rcases hstate' with h | h <;> simp [h]
  · simp [put]

lemma Scan.Inv.begun (h : s.Inv (some c)) (hstate : s.state = .string ∨ s.state = .number) :
    (s.data ≠ [] ∧ charge (some c) + 1 ≤ s.lex.source.current) ∨
      s.escaped = false ∧ ∃ b, c = some b ∧ s.Starts b := by
  have hplain : s.state.plain := by rcases hstate with h | h <;> rw [h] <;> rfl
  by_cases hdata : s.data = []
  · obtain ⟨-, hesc, b, hb, hstarts⟩ := h.fresh (by rwa [tokenState_plain hplain]) hdata
    exact .inr ⟨hesc, b, by simpa using hb, hstarts⟩
  · refine .inl ⟨hdata, ?_⟩
    have hroom := h.room
    rw [owed, tokenState_plain hplain] at hroom
    rcases hstate with h | h <;> simpa [h, State.begun, State.plain, hdata] using hroom

lemma Scan.Inv.one_le (h : s.Inv (some (some b))) : 1 ≤ s.lex.source.current := by
  have hroom := h.room
  simp only [charge] at hroom
  omega

attribute [local simp] weight

lemma string_good (hstate : s.state = .string) (hnone : s.pending = none) (h : s.Inv (some c)) :
    (string c s).Good (4 * s.lex.source.left + weight c .string) := by
  have hbegun := h.begun (.inl hstate)
  unfold string
  cases c with
  | none =>
    obtain ⟨-, hroom⟩ | ⟨-, b, hb, -⟩ := hbegun
    · exact finish_good _ h.le (fun _ => rfl) hroom
    · cases hb
  | some b =>
    simp only
    by_cases hend : endsString s.lex.specials s.escaped (some b)
    · rw [if_pos hend]
      obtain ⟨-, hroom⟩ | ⟨hesc, b', hb, hstarts, -⟩ := hbegun
      · exact finish_good _ h.le h.eof_none hroom
      · cases hb
        rw [hesc, hstarts] at hend
        cases hend
    · rw [if_neg hend]
      exact put_good (.inl hstate) hnone h.ready h.one_le (by simp [plain])

section
variable (parseUint32 : ℕ → List UInt8 → Except Result ℕ)

lemma number_good (hstate : s.state = .number) (hnone : s.pending = none) (h : s.Inv (some c)) :
    (number parseUint32 c s).Good (4 * s.lex.source.left + weight c .number) := by
  have hbegun := h.begun (.inr hstate)
  unfold number
  cases c with
  | none =>
    obtain ⟨-, hroom⟩ | ⟨-, b, hb, -⟩ := hbegun
    · exact finish_good _ h.le (fun _ => rfl) hroom
    · cases hb
  | some b =>
    have hone := h.one_le
    have hbound : 4 * s.lex.source.left + 1 < 4 * s.lex.source.left + weight (some b) .number := by
      simp [plain]
    simp only
    split_ifs with hdigit hoctal hend hhex
    · exact put_good (.inl rfl) hnone h.ready hone hbound
    · exact put_good (.inr hstate) hnone h.ready hone hbound
    · obtain ⟨-, hroom⟩ | ⟨-, b', hb, -, hstarts⟩ := hbegun
      · exact finish_good _ h.le h.eof_none hroom
      · cases hb
        exact absurd (hstarts hstate) hdigit
    · exact put_good (.inr hstate) hnone h.ready hone hbound
    · exact put_good (.inl rfl) hnone h.ready hone hbound

end

lemma qstring_good (hstate : s.state = .qstring) (hnone : s.pending = none) (h : s.Inv (some c)) :
    (qstring c s).Good (4 * s.lex.source.left + weight c .qstring) := by
  have hroom := h.room
  have hcomments : s.noComments := by
    rw [← Bool.not_eq_false]
    intro hfalse
    simpa [hstate, plain] using h.plain hfalse
  simp only [owed, tokenState, hstate, begun, plain, Bool.false_or, BEq.rfl, if_true,
    zero_add] at hroom
  unfold qstring
  cases c with
  | none => exact ⟨h.rest, by simp⟩
  | some b =>
    simp only [charge] at hroom
    have hbound : 4 * s.lex.source.left + 1 < 4 * s.lex.source.left + weight (some b) .qstring := by
      simp
    have hone : 1 ≤ s.lex.source.current := by omega
    simp only
    split_ifs with hquote hesc hprev hline
    · exact next_qstring hstate hnone hcomments (by simp) h.ready hone hbound
    · exact hprev (h.quoted hstate hesc)
    · exact ⟨h.rest, fun _ _ => .inl (by omega)⟩
    · exact finish_good _ h.le h.eof_none hroom
    · exact next_qstring hstate hnone hcomments (by simp [put]) h.ready hone hbound

structure Scan.Start (s : Scan) : Prop where
  state : s.state = .start
  pending : s.pending = none
  escaped : s.escaped = false
  data : s.data = []

lemma Scan.Start.next_good (hs : s.Start) (hready : s.lex.source.Ready)
    (hbound : 4 * s.lex.source.left + 1 < bound) : (next s).Good bound := by
  refine next_plain (by rw [hs.state]; rfl) hs.pending hready ?_
    (fun _ => ⟨hs.escaped, hs.data⟩) ?_ hbound
  · rw [hs.state]
    exact zero_le _
  · simp [hs.state]

lemma Scan.Start.keep_good (hs : s.Start) (hstate : state = .string ∨ state = .number)
    (hstarts : (s.keep state (some b)).Starts b) (hready : s.lex.source.Ready)
    (hone : 1 ≤ s.lex.source.current) (hbound : 4 * s.lex.source.left + 2 < bound) :
    (next (s.keep state (some b))).Good bound := by
  have hplain : (s.keep state (some b)).state.plain := by
    rcases hstate with rfl | rfl <;> rfl
  refine ⟨inv_plain hplain hready.le (by simp [hready.notEof]) ?_ ?_
    (fun _ _ => ⟨hs.escaped, b, rfl, hstarts⟩), fun _ => hplain, ?_⟩
  · rcases hstate with rfl | rfl <;> simpa [begun, hs.data] using hone
  · rcases hstate with rfl | rfl <;> simp
  · rcases hstate with rfl | rfl <;> simpa using hbound

lemma paren_good (b : UInt8) (hs : s.Start) (hready : s.lex.source.Ready)
    (hbound : 4 * s.lex.source.left + 1 < bound) : (paren b s).Good bound := by
  obtain ⟨hstate, hpending, hesc, hdata⟩ := hs
  unfold paren
  by_cases hopen : b = 40
  · rw [if_pos hopen]
    refine Start.next_good ?_ ?_ ?_
    exacts [⟨hstate, hpending, hesc, hdata⟩, hready, hbound]
  · rw [if_neg hopen]
    by_cases hzero : s.lex.parenCount = 0
    · rw [if_pos hzero]
      exact ⟨⟨hready.le, by simp [hready.notEof]⟩, by simp⟩
    · rw [if_neg hzero]
      refine Start.next_good ?_ ?_ ?_
      exacts [⟨hstate, hpending, hesc, hdata⟩, hready, hbound]

lemma startToken_good (hs : s.Start) (h : s.Inv (some (some b)))
    (hspace : b ≠ 32 ∧ b ≠ 9 ∧ b ≠ 10 ∧ b ≠ 13) (hone : 1 ≤ s.lex.source.current) :
    (startToken b s).Good (4 * s.lex.source.left + weight (some b) .start) := by
  have hbound : 4 * s.lex.source.left + 2 < 4 * s.lex.source.left + weight (some b) .start := by
    simp [plain]
  have hs' : { s with lex := { s.lex with lastWasEol := false } }.Start :=
    ⟨hs.state, hs.pending, hs.escaped, hs.data⟩
  unfold startToken
  simp only
  split_ifs with hquote hspecial hparen hdigit
  · exact next_qstring rfl hs.pending rfl (by simp [hs.escaped]) h.ready hone
      (lt_of_succ_lt hbound)
  · exact paren_good b hs' h.ready (lt_of_succ_lt hbound)
  · exact ⟨h.rest, fun _ _ => .inl hone⟩
  · refine hs'.keep_good (.inr rfl) ⟨?_, fun _ => ?_⟩ h.ready hone hbound
    · simp [endsString, hspace, hspecial]
    · simp only [Bool.and_eq_true] at hdigit
      exact hdigit.1.1
  · refine hs'.keep_good (.inl rfl) ⟨?_, by simp⟩ h.ready hone hbound
    simp [endsString, hspace, hspecial]

lemma start_good (hstate : s.state = .start) (hnone : s.pending = none) (h : s.Inv (some c)) :
    (start c s).Good (4 * s.lex.source.left + weight c .start) := by
  obtain ⟨hesc, hdata⟩ := h.clean (by rw [tokenState, hstate])
  have hs : s.Start := ⟨hstate, hnone, hesc, hdata⟩
  unfold start
  cases c with
  | none =>
    simp only [startEof]
    split_ifs
    · exact ⟨h.rest, by simp⟩
    · exact ⟨h.rest, fun t ht => .inr (by simpa using ht.symm)⟩
    · exact ⟨h.rest, by simp⟩
  | some b =>
    have hone := h.one_le
    have hbound : 4 * s.lex.source.left + 1 < 4 * s.lex.source.left + weight (some b) .start := by
      simp [plain]
    simp only
    split_ifs with hspace hws hline heol hcr hcrlf
    · exact ⟨h.rest, fun _ _ => .inl hone⟩
    · exact hs.next_good h.ready hbound
    · exact ⟨h.rest, fun _ _ => .inl hone⟩
    · refine Start.next_good ?_ ?_ ?_
      exacts [⟨hstate, hnone, hesc, hdata⟩, h.ready, hbound]
    · exact next_plain rfl hnone h.ready hone (by simp) (by simp) hbound
    · exact hs.next_good h.ready hbound
    · push Not at hspace
      exact startToken_good hs h ⟨hspace.1, hspace.2, hline, hcr⟩ hone

lemma Scan.resume_good (hsaved : s.savedState.plain)
    (hle : s.lex.source.current ≤ s.lex.source.pushback.length)
    (heof : s.lex.source.atEof → c = none ∧ s.lex.source.current = s.lex.source.pushback.length)
    (hroom : 1 + s.savedState.begun s.data ≤ s.lex.source.current)
    (hclean : s.savedState = .start → s.escaped = false ∧ s.data = [])
    (hdata : s.savedState = .string ∨ s.savedState = .number → s.data ≠ [])
    (hbound : 4 * s.lex.source.left + 3 < bound) : (next (s.resume c)).Good bound := by
  refine ⟨inv_plain hsaved hle (fun he => ?_) ?_ hclean fun h h' => absurd h' (hdata h),
    fun _ => hsaved, ?_⟩
  · simpa [resume] using heof he
  · have hcharge : charge (some c) ≤ 1 := by cases c <;> simp
    exact (Nat.add_le_add_right hcharge _).trans hroom
  · by_cases hstart : s.savedState = .start
    · simpa [resume, hstart] using hbound
    · simp only [rounds, resume, hstart, isSome_some, if_true, if_false]
      omega

def State.comment : State → Bool
  | .maybecomment | .ccomment | .ccommentend | .eatline => true
  | _ => false

structure Scan.InComment (s : Scan) : Prop where
  state : s.state.comment
  saved : s.savedState.plain
  noComments : s.noComments
  clean : s.savedState = .start → s.escaped = false ∧ s.data = []
  data : s.savedState = .string ∨ s.savedState = .number → s.data ≠ []

lemma Scan.InComment.goto (h : s.InComment) (hstate : state.comment) :
    { s with state := state }.InComment :=
  ⟨hstate, h.saved, h.noComments, h.clean, h.data⟩

lemma State.comment_cases (h : state.comment) :
    state = .maybecomment ∨ state = .ccomment ∨ state = .ccommentend ∨ state = .eatline := by
  cases state <;> simp_all [comment]

lemma State.comment_not_plain (h : state.comment) : state.plain = false ∧ state ≠ .qstring := by
  cases state <;> simp_all [comment, plain]

lemma Scan.tokenState_comment (h : s.state.comment) : s.tokenState = s.savedState := by
  rcases comment_cases h with h | h | h | h <;> simp [tokenState, h]

lemma Scan.Inv.inComment (h : s.Inv (some c)) (hstate : s.state.comment) :
    s.InComment ∧ 1 + s.savedState.begun s.data ≤ s.lex.source.current ∧
      charge (some c) + 1 + s.savedState.begun s.data ≤ s.lex.source.current := by
  obtain ⟨hplain, hqstring⟩ := comment_not_plain hstate
  have htoken := tokenState_comment hstate
  have hroom := h.room
  simp only [owed, hplain, htoken, Bool.false_or] at hroom
  rw [if_neg (by simpa using hqstring)] at hroom
  refine ⟨⟨hstate, h.saved hplain hqstring, ?_, ?_, ?_⟩, by omega, by omega⟩
  · rw [← Bool.not_eq_false]
    intro hfalse
    simpa [hplain] using h.plain hfalse
  · rw [← htoken]
    exact h.clean
  · rw [← htoken]
    intro hs hnil
    have heq := (h.fresh hs hnil).1
    rw [htoken] at heq
    have := h.saved hplain hqstring
    simp [← heq, hplain] at this

lemma Scan.InComment.next_good (h : s.InComment) (hpending : s.pending = none)
    (hready : s.lex.source.Ready) (hroom : 1 + s.savedState.begun s.data ≤ s.lex.source.current)
    (hbound : 4 * s.lex.source.left + 4 < bound) : (next s).Good bound := by
  obtain ⟨hplain, hqstring⟩ := comment_not_plain h.state
  have htoken := tokenState_comment h.state
  have hinv : s.Inv none :=
    { le := hready.le
      eof := by simp [hready.notEof]
      room := by
        simp only [charge, owed, hplain, htoken, Bool.false_or]
        rw [if_neg (by simpa using hqstring)]
        omega
      plain := by simp [h.noComments]
      saved := fun _ _ => h.saved
      quoted := fun hq => absurd hq hqstring
      clean := by rw [htoken]; exact h.clean
      fresh := by
        rw [htoken]
        exact fun hs hnil => absurd hnil (h.data hs) }
  refine ⟨by rwa [hpending], by simp [hpending], ?_⟩
  simp only [rounds, hpending, hplain, Bool.false_or, isSome_none]
  rw [if_neg (by simp), if_neg (by simpa using hqstring)]
  exact hbound

variable (hnone : s.pending = none) (h : s.Inv (some c))
include hnone h

lemma maybecomment_good (hstate : s.state = .maybecomment) :
    (maybecomment c s).Good (4 * s.lex.source.left + weight c .maybecomment) := by
  obtain ⟨hin, hone, hroom⟩ := h.inComment (by rw [hstate]; rfl)
  unfold maybecomment
  split_ifs with hc hcpp
  · obtain ⟨rfl, -⟩ := hc
    exact (hin.goto rfl).next_good hnone h.ready hone (by simp [plain])
  · obtain ⟨rfl, -⟩ := hcpp
    exact (hin.goto rfl).next_good hnone h.ready hone (by simp [plain])
  · have hpos : s.lex.source.current ≠ 0 := by omega
    cases c with
    | none =>
      simp only [Source.unread, if_neg hpos]
      refine resume_good hin.saved h.le ?_ hone hin.clean hin.data ?_
      · simp [withSource]
      · simp [plain, withSource, Source.left, Source.remaining]
    | some b =>
      simp only [Source.unread, if_neg hpos]
      refine resume_good hin.saved ((sub_le _ _).trans h.le) ?_ ?_ hin.clean hin.data ?_
      · simp [withSource, h.notEof]
      · simp only [charge] at hroom
        simp only [withSource]
        omega
      · simp only [weight, plain, withSource, Source.left, Source.remaining]
        simp
        omega

lemma ccomment_good (hstate : s.state = .ccomment) :
    (ccomment c s).Good (4 * s.lex.source.left + weight c .ccomment) := by
  obtain ⟨hin, hone, -⟩ := h.inComment (by rw [hstate]; rfl)
  unfold ccomment
  cases c with
  | none => exact ⟨h.rest, by simp⟩
  | some b =>
    simp only
    split_ifs with hb
    · exact (hin.goto rfl).next_good hnone h.ready hone (by simp [plain])
    · exact hin.next_good hnone h.ready hone (by simp [plain])

lemma ccommentend_good (hstate : s.state = .ccommentend) :
    (ccommentend c s).Good (4 * s.lex.source.left + weight c .ccommentend) := by
  obtain ⟨hin, hone, -⟩ := h.inComment (by rw [hstate]; rfl)
  unfold ccommentend
  cases c with
  | none => exact ⟨h.rest, by simp⟩
  | some b =>
    simp only
    split_ifs with hslash hstar
    · exact resume_good hin.saved h.le (by simp [h.notEof]) hone hin.clean hin.data
        (by simp [plain])
    · exact hin.next_good hnone h.ready hone (by simp [plain])
    · exact (hin.goto rfl).next_good hnone h.ready hone (by simp [plain])

lemma eatline_good (hstate : s.state = .eatline) :
    (eatline c s).Good (4 * s.lex.source.left + weight c .eatline) := by
  obtain ⟨hin, hone, -⟩ := h.inComment (by rw [hstate]; rfl)
  unfold eatline
  split_ifs with hend
  · refine resume_good hin.saved h.le (fun he => ⟨h.eof_none he, (h.eof he).2⟩) hone hin.clean
      hin.data ?_
    cases c <;> simp [plain]
  · cases c with
    | none => simp at hend
    | some b => exact hin.next_good hnone h.ready hone (by simp [plain])

lemma switch_good (parseUint32 : ℕ → List UInt8 → Except Result ℕ) :
    (switch parseUint32 c s).Good (4 * s.lex.source.left + weight c s.state) := by
  unfold switch
  cases hstate : s.state with
  | start => exact start_good hstate hnone h
  | crlf => exact crlf_good hstate h _
  | string => exact string_good hstate hnone h
  | number => exact number_good parseUint32 hstate hnone h
  | maybecomment => exact maybecomment_good hnone h hstate
  | ccomment => exact ccomment_good hnone h hstate
  | ccommentend => exact ccommentend_good hnone h hstate
  | eatline => exact eatline_good hnone h hstate
  | qstring => exact qstring_good hstate hnone h

end

variable (parseUint32 : ℕ → List UInt8 → Except Result ℕ)

lemma Round.Good.mono {r : Round} {m n : ℕ} (h : r.Good m) (hmn : m ≤ n) : r.Good n := by
  cases r with
  | next s => exact ⟨h.1, h.2.1, h.2.2.trans_le hmn⟩
  | done result lex => exact h
  | abort => exact h

variable {s : Scan} {c : Option UInt8}

lemma Scan.comment_state {state : State}
    (h : s.comment c = some state) : s.noComments = false ∧ state.comment ∧ c ≠ none := by
  unfold comment at h
  split_ifs at h with hok h1 h2 h3
  all_goals
    simp only [Bool.and_eq_true] at hok
    cases h
  · exact ⟨by simpa using hok.2, rfl, by simp [h1]⟩
  · exact ⟨by simpa using hok.2, rfl, by simp [h2]⟩
  · exact ⟨by simpa using hok.2, rfl, by simp [h3]⟩

lemma Scan.Inv.read (h : s.Inv none) {source : Source}
    (hle : source.current ≤ source.pushback.length)
    (heof : source.atEof → c = none ∧ source.current = source.pushback.length)
    (hcurrent : charge (some c) + s.lex.source.current ≤ source.current) :
    (s.withSource source).Inv (some c) where
  le := hle
  eof he := ⟨congrArg some (heof he).1, (heof he).2⟩
  room := by
    have hroom := h.room
    simp only [charge] at hroom
    have howed : (s.withSource source).owed = s.owed := rfl
    rw [howed]
    exact (Nat.add_le_add_left (by omega) _).trans hcurrent
  plain := h.plain
  saved := h.saved
  quoted := h.quoted
  clean := h.clean
  fresh hs hnil := by
    obtain ⟨-, -, b, hb, -⟩ := h.fresh hs hnil
    cases hb

lemma Scan.Inv.comment_good {state : State} {bound : ℕ} (h : s.Inv (some c))
    (hfresh : s.state = .string ∨ s.state = .number → s.data ≠ []) (hnone : s.pending = none)
    (hcomment : s.comment c = some state) (hbound : 4 * s.lex.source.left + 4 < bound) :
    (next { s with savedState := s.state, state := state, noComments := true }).Good
      bound := by
  obtain ⟨hfalse, hstate, hc⟩ := comment_state hcomment
  have hplain := h.plain hfalse
  have htoken := tokenState_plain hplain
  obtain ⟨b, rfl⟩ := ne_none_iff_exists'.mp hc
  refine InComment.next_good ?_ ?_ ?_ ?_ ?_
  · exact ⟨hstate, hplain, rfl, fun hs => h.clean (by rwa [htoken]), hfresh⟩
  · exact hnone
  · exact h.ready
  · have hroom := h.room
    simpa [owed, hplain, htoken, charge] using hroom
  · exact hbound

lemma read_good (hnone : s.pending = none) (h : s.Inv none) :
    (round parseUint32 .file s).Good s.rounds := by
  have heof : s.lex.source.atEof = false := by
    rw [← Bool.not_eq_true]
    intro he
    cases (h.eof he).1
  have hdata : s.state = .string ∨ s.state = .number → s.data ≠ [] := by
    intro hs hnil
    have hplain : s.state.plain := by rcases hs with hs | hs <;> rw [hs] <;> rfl
    obtain ⟨-, -, b, hb, -⟩ := h.fresh (by rwa [tokenState_plain hplain]) hnil
    cases hb
  unfold round
  simp only [hnone]
  obtain ⟨hleft, -, hfetch⟩ | ⟨b, source, hfetch, hleft, hcurrent, hle, hfalse, -⟩ :=
    Source.fetch_file heof h.le
  · have hcurrent : s.lex.source.current = s.lex.source.pushback.length := by
      have hle := h.le
      simp only [Source.left, Source.remaining] at hleft
      omega
    have hcomment : (s.withSource { s.lex.source with atEof := true }).comment none = none := by
      by_contra hne
      obtain ⟨state, hstate⟩ := ne_none_iff_exists'.mp hne
      exact (comment_state hstate).2.2 rfl
    have hread : (s.withSource { s.lex.source with atEof := true }).Inv (some none) :=
      h.read h.le (fun _ => ⟨rfl, hcurrent⟩) (by simp [charge])
    have hnone' : (s.withSource { s.lex.source with atEof := true }).pending = none := hnone
    simp only [hfetch, hcomment]
    refine (switch_good hnone' hread parseUint32).mono ?_
    simp only [withSource, Source.left, Source.remaining, rounds, hnone, weight]
    split_ifs <;> simp_all
  · have hread := h.read (c := some b) hle (by simp [hfalse]) (by simp [charge, hcurrent]; omega)
    have hnone' : (s.withSource source).pending = none := hnone
    simp only [hfetch]
    cases hcomment : (s.withSource source).comment (some b) with
    | some state =>
      refine hread.comment_good hdata hnone' hcomment ?_
      simp only [withSource, rounds, hnone, hleft]
      split_ifs <;> simp_all
      omega
    | none =>
      refine (switch_good hnone' hread parseUint32).mono ?_
      simp only [withSource, rounds, hnone, hleft, weight]
      split_ifs <;> simp_all <;> omega

lemma keep_good {kind : Kind} (hsome : s.pending = some c) (h : s.Inv (some c))
    (hplain : s.state.plain) : (round parseUint32 kind s).Good s.rounds := by
  unfold round
  simp only [hsome]
  have hinv : { s with pending := none }.Inv (some c) :=
    ⟨h.le, h.eof, h.room, h.plain, h.saved, h.quoted, h.clean, h.fresh⟩
  refine (switch_good rfl hinv parseUint32).mono ?_
  simp only [rounds, hsome, weight, hplain]
  split_ifs <;> simp_all

lemma round_good (h : s.Inv s.pending) (hplain : s.pending ≠ none → s.state.plain) :
    (round parseUint32 .file s).Good s.rounds := by
  cases hpending : s.pending with
  | none => exact read_good parseUint32 hpending (by rwa [hpending] at h)
  | some c => exact keep_good parseUint32 hpending (by rwa [hpending] at h) (hplain (by simp [hpending]))

lemma scan_file {n : ℕ} (h : s.Inv s.pending)
    (hplain : s.pending ≠ none → s.state.plain) (hn : s.rounds < n) :
    ∃ result lex, scan parseUint32 .file n s = some (result, lex) ∧ lex.source.Rest ∧
      ∀ token, result = .ok token → 0 < lex.source.current ∨ token = .eof := by
  induction n generalizing s with
  | zero => cases hn
  | succ n ih =>
    have hgood := round_good parseUint32 h hplain
    cases hround : round parseUint32 .file s with
    | next s' =>
      rw [hround] at hgood
      obtain ⟨hinv, hplain', hlt⟩ := hgood
      simp only [scan, hround]
      exact ih hinv hplain' (by omega)
    | done result lex =>
      rw [hround] at hgood
      exact ⟨result, lex, by simp only [scan, hround], hgood⟩
    | abort =>
      rw [hround] at hgood
      exact hgood.elim

end LbBind.Lex

import LbBind.Lex.Invariant

/-! A file and a buffer with the same bytes give the same tokens as long as no byte 255
is read. As a signed char that byte is `EOF`: it is taken from the buffer, not put
into the pushback buffer, and the assertion of `isc_buffer_getuint8` fails. -/

namespace LbBind.Lex

open List Source

namespace Source

variable {s : Source}

lemma fill_buffer (h : 255 ∉ s.taken) : s.fill .buffer = s.fill .file := by
  unfold taken at h
  unfold fill
  split_ifs at h ⊢ with hr
  · cases hinput : s.input with
    | nil => rfl
    | cons b rest =>
      have hb : b ≠ 255 := by
        rintro rfl
        simp [hinput] at h
      simp [byteOf_readInt, readInt_eq_endOfFile, hb]
  · rfl

lemma fetch_buffer (h : 255 ∉ s.taken) : s.fetch .buffer = s.fetch .file := by
  rw [fetch, fetch, fill_buffer h]

lemma fetch_buffer_abort (heof : s.atEof = false) (h : 255 ∈ s.taken) :
    s.fetch .buffer = none := by
  unfold taken at h
  split_ifs at h with hr
  · cases hinput : s.input with
    | nil => simp [hinput] at h
    | cons b rest =>
      obtain rfl : 255 = b := by simpa [hinput] using h
      have hcurrent : s.pushback[s.current]? = none := by
        rw [remaining] at hr
        exact getElem?_eq_none (by omega)
      simp [fetch, fill, hr, hinput, readInt_eq_endOfFile, heof, hcurrent]
  · cases h

end Source

section
variable (parseUint32 : ℕ → List UInt8 → Except Result ℕ)

def Round.Leaves (source : Source) : Round → Prop
  | .next s => s.lex.source.input = source.input ∧ s.lex.source.pushback = source.pushback
  | .done _ lex => lex.source.input = source.input ∧ lex.source.pushback = source.pushback
  | .abort => True

lemma Source.unread_leaves {s s' : Source} {c : Option UInt8} (h : s.unread c = some s') :
    s'.input = s.input ∧ s'.pushback = s.pushback := by
  unfold unread at h
  split_ifs at h
  cases c <;> cases h <;> exact ⟨rfl, rfl⟩

lemma Scan.finish_leaves (s : Scan) (c : Option UInt8) (result : Except Result Token) :
    (s.finish c result).Leaves s.lex.source := by
  unfold Scan.finish
  cases h : s.lex.source.unread c with
  | none => trivial
  | some source => exact unread_leaves h

lemma startToken_leaves (b : UInt8) (s : Scan) : (startToken b s).Leaves s.lex.source := by
  unfold startToken paren
  simp only
  split_ifs <;> exact ⟨rfl, rfl⟩

lemma switch_leaves (c : Option UInt8) (s : Scan) :
    (switch parseUint32 c s).Leaves s.lex.source := by
  unfold switch
  cases s.state with
  | start =>
    unfold start startEof
    cases c with
    | none => simp only; split_ifs <;> exact ⟨rfl, rfl⟩
    | some b => simp only; split_ifs <;> first | exact ⟨rfl, rfl⟩ | exact startToken_leaves b s
  | crlf =>
    unfold crlf
    split_ifs
    · exact ⟨rfl, rfl⟩
    · exact Scan.finish_leaves _ _ _
  | string =>
    unfold string
    cases c with
    | none => exact Scan.finish_leaves _ _ _
    | some b => simp only; split_ifs <;> first | exact ⟨rfl, rfl⟩ | exact Scan.finish_leaves _ _ _
  | number =>
    unfold number
    cases c with
    | none => exact Scan.finish_leaves _ _ _
    | some b => simp only; split_ifs <;> first | exact ⟨rfl, rfl⟩ | exact Scan.finish_leaves _ _ _
  | maybecomment =>
    unfold maybecomment
    split_ifs
    · exact ⟨rfl, rfl⟩
    · exact ⟨rfl, rfl⟩
    · cases h : s.lex.source.unread c with
      | none => trivial
      | some source => exact unread_leaves h
  | ccomment =>
    unfold ccomment
    cases c with
    | none => exact ⟨rfl, rfl⟩
    | some b => simp only; split_ifs <;> exact ⟨rfl, rfl⟩
  | ccommentend =>
    unfold ccommentend
    cases c with
    | none => exact ⟨rfl, rfl⟩
    | some b => simp only; split_ifs <;> exact ⟨rfl, rfl⟩
  | eatline =>
    unfold eatline
    split_ifs <;> exact ⟨rfl, rfl⟩
  | qstring =>
    unfold qstring
    cases c with
    | none => exact ⟨rfl, rfl⟩
    | some b =>
      simp only
      split_ifs <;> first | exact ⟨rfl, rfl⟩ | trivial | exact Scan.finish_leaves _ _ _

def Scan.taken (s : Scan) : List UInt8 := if s.pending = none then s.lex.source.taken else []

variable {s : Scan} {result : Except Result Token} {lex : Lexer}

lemma Scan.Inv.waiting (h : s.Inv none) : s.lex.source.atEof = false := by
  rw [← Bool.not_eq_true]
  intro he
  cases (h.eof he).1

lemma round_leaves (h : s.Inv s.pending) :
    ∃ source : Source, s.lex.source.input = s.taken ++ source.input ∧
      (round parseUint32 .file s).Leaves source := by
  unfold round Scan.taken
  cases hpending : s.pending with
  | some c => exact ⟨s.lex.source, rfl, switch_leaves parseUint32 c _⟩
  | none =>
    rw [hpending] at h
    rw [if_pos rfl]
    obtain ⟨-, htaken, hfetch⟩ | ⟨b, source, hfetch, -, -, -, -, hinput⟩ :=
      fetch_file h.waiting h.le
    · refine ⟨s.lex.source, by rw [htaken]; rfl, ?_⟩
      simp only [hfetch]
      split
      · exact ⟨rfl, rfl⟩
      · exact switch_leaves parseUint32 _ _
    · refine ⟨source, hinput, ?_⟩
      simp only [hfetch]
      split
      · exact ⟨rfl, rfl⟩
      · exact switch_leaves parseUint32 _ _

lemma round_buffer (h : s.Inv s.pending) : round parseUint32 .buffer s =
      if 255 ∈ s.taken then .abort else round parseUint32 .file s := by
  unfold round Scan.taken
  cases hpending : s.pending with
  | some c => simp
  | none =>
    rw [hpending] at h
    simp only [if_true]
    by_cases hbyte : 255 ∈ s.lex.source.taken
    · rw [if_pos hbyte, fetch_buffer_abort h.waiting hbyte]
    · rw [if_neg hbyte, fetch_buffer hbyte]

lemma scan_buffer {n : ℕ} (h : s.Inv s.pending) (hplain : s.pending ≠ none → s.state.plain)
    (hscan : scan parseUint32 .file n s = some (result, lex)) :
    ∃ used, s.lex.source.input = used ++ lex.source.input ∧
      scan parseUint32 .buffer n s = if 255 ∈ used then none else some (result, lex) := by
  induction n generalizing s with
  | zero => cases hscan
  | succ n ih =>
    have hgood := round_good parseUint32 h hplain
    obtain ⟨source, htaken, hleaves⟩ := round_leaves parseUint32 h
    have hbuffer := round_buffer parseUint32 h
    cases hround : round parseUint32 .file s with
    | next s' =>
      rw [hround] at hgood hleaves hbuffer
      obtain ⟨hinv, hplain', -⟩ := hgood
      simp only [scan, hround] at hscan
      obtain ⟨used, hused, hrest⟩ := ih hinv hplain' hscan
      refine ⟨s.taken ++ used, ?_, ?_⟩
      · rw [htaken, ← hleaves.1, hused, append_assoc]
      · by_cases hbyte : 255 ∈ s.taken
        · simp [scan, hbuffer, hbyte]
        · simp [scan, hbuffer, hbyte, hrest]
    | done r l =>
      rw [hround] at hleaves hbuffer
      simp only [scan, hround] at hscan
      cases hscan
      refine ⟨s.taken, ?_, ?_⟩
      · rw [htaken, hleaves.1]
      · by_cases hbyte : 255 ∈ s.taken
        all_goals simp [scan, hbuffer, hbyte]
    | abort =>
      rw [hround] at hgood
      exact hgood.elim

attribute [local simp] begin

lemma begin_inv {options : Options} (heof : lex.source.atEof = false) :
    (begin options lex).Inv none :=
  Scan.inv_plain rfl (by simp [compact]) (by simp [compact, heof])
    (by simp [charge, State.begun]) (fun _ => ⟨rfl, rfl⟩) (by simp)

lemma begin_rounds (options : Options) (lex : Lexer) :
    (begin options lex).rounds = 4 * lex.source.left + 1 := by
  simp [Scan.rounds, compact, left, remaining, State.plain]

/-- A token of a file is given without a failed assertion, and a buffer gives the same
unless a byte 255 is read. -/
lemma gettoken_file (options : Options) (hrest : lex.source.Rest) :
    ∃ result lex' used, gettoken parseUint32 .file options lex = some (result, lex') ∧
      lex'.source.Rest ∧ (∀ token, result = .ok token → 0 < lex'.source.current ∨ token = .eof) ∧
      lex.source.input = used ++ lex'.source.input ∧
      gettoken parseUint32 .buffer options lex =
        if 255 ∈ used then none else some (result, lex') := by
  unfold gettoken
  simp only
  by_cases hend : lex.source.remaining = 0 ∧ lex.source.atEof
  · have hend' : ({ lex.source with savedLine := lex.source.line } : Source).remaining = 0 ∧
        lex.source.atEof := hend
    simp only [if_pos hend']
    split_ifs
    all_goals exact ⟨_, _, [], rfl, ⟨hrest.1, hrest.2⟩, by simp, rfl, rfl⟩
  · have hend' : ¬(({ lex.source with savedLine := lex.source.line } : Source).remaining = 0 ∧
        lex.source.atEof) := hend
    simp only [if_neg hend']
    have heof : lex.source.atEof = false := by
      rw [← Bool.not_eq_true]
      intro he
      exact hend ⟨by rw [remaining, hrest.2 he, Nat.sub_self], he⟩
    generalize hlex : ({ lex with
      savedParenCount := lex.parenCount
      source := { lex.source with savedLine := lex.source.line } } : Lexer) = lex1
    have hinv : (begin options lex1).Inv none := begin_inv (by rw [← hlex]; exact heof)
    obtain ⟨result, lex', hscan, hrest', htoken⟩ :=
      scan_file parseUint32 hinv (by simp) (n := 4 * lex1.source.left + 2)
        (by rw [begin_rounds]; omega)
    obtain ⟨used, hused, hbuffer⟩ := scan_buffer parseUint32 hinv (by simp) hscan
    have hleft : 4 * ({ lex.source with savedLine := lex.source.line } : Source).left + 2 =
        4 * lex1.source.left + 2 := by rw [← hlex]
    rw [hleft]
    refine ⟨result, lex', used, hscan, hrest', htoken, ?_, hbuffer⟩
    rw [← hused, ← hlex]
    rfl

lemma giveBack_some (unget : Bool) (hrest : lex.source.Rest)
    (htoken : ∀ token, result = .ok token → 0 < lex.source.current ∨ token = .eof) :
    ∃ lex', giveBack unget result lex = some lex' ∧ lex'.source.Rest ∧
      lex'.source.input = lex.source.input := by
  cases unget with
  | false => exact ⟨lex, rfl, hrest, rfl⟩
  | true =>
    cases result with
    | error r => exact ⟨lex, rfl, hrest, rfl⟩
    | ok token =>
      have hsome : lex.source.current ≠ 0 ∨ token = .eof :=
        (htoken token rfl).imp_left Nat.pos_iff_ne_zero.mp
      exact ⟨_, if_pos hsome, ⟨Nat.zero_le _, nofun⟩, rfl⟩

lemma call_file (k : Call) (hrest : lex.source.Rest) :
    ∃ seen lex' used, call parseUint32 .file k lex = some (seen, lex') ∧ lex'.source.Rest ∧
      lex.source.input = used ++ lex'.source.input ∧
      call parseUint32 .buffer k lex = if 255 ∈ used then none else some (seen, lex') := by
  have hset : ({ lex with comments := k.comments, specials := k.specials } : Lexer).source.Rest :=
    hrest
  obtain ⟨result, lex1, used, hfile, hrest1, htoken, hused, hbuffer⟩ :=
    gettoken_file parseUint32 k.options hset
  obtain ⟨lex2, hback, hrest2, hinput⟩ := giveBack_some k.unget hrest1 htoken
  refine ⟨⟨result, lex1.source.line, lex1.parenCount⟩, lex2, used, by simp [call, hfile, hback],
    hrest2, by rw [hinput]; exact hused, ?_⟩
  by_cases hbyte : 255 ∈ used
  · simp [call, hbuffer, hbyte]
  · simp [call, hbuffer, hbyte, hback]

lemma run_file (ks : List Call) (hrest : lex.source.Rest) :
    ∃ seen lex' used, run parseUint32 .file ks lex = some (seen, lex') ∧ lex'.source.Rest ∧
      lex.source.input = used ++ lex'.source.input ∧
      run parseUint32 .buffer ks lex = if 255 ∈ used then none else some (seen, lex') := by
  induction ks generalizing lex with
  | nil => exact ⟨[], lex, [], rfl, hrest, rfl, rfl⟩
  | cons k ks ih =>
    obtain ⟨seen, lex1, used, hfile, hrest1, hused, hbuffer⟩ := call_file parseUint32 k hrest
    obtain ⟨seen', lex2, used', hfile', hrest2, hused', hbuffer'⟩ := ih hrest1
    refine ⟨seen :: seen', lex2, used ++ used', by simp [run, hfile, hfile'], hrest2, ?_, ?_⟩
    · rw [hused, hused', append_assoc]
    · by_cases hbyte : 255 ∈ used
      · simp [run, hbuffer, hbyte]
      · by_cases hbyte' : 255 ∈ used'
        all_goals simp [run, hbuffer, hbyte, hbuffer', hbyte']

/-- No assertion fails on either source, and all that is seen is the same, if and only
if none of the bytes that are read from the file is 255. -/
theorem run_same_iff (bytes : List UInt8) (calls : List Call) :
    (∃ seen file buffer, run parseUint32 .file calls (opened bytes) = some (seen, file) ∧
      run parseUint32 .buffer calls (opened bytes) = some (seen, buffer)) ↔
      ∀ seen lex, run parseUint32 .file calls (opened bytes) = some (seen, lex) →
        255 ∉ bytes.take (bytes.length - lex.source.input.length) := by
  have hopened : (opened bytes).source.Rest := ⟨le_rfl, by simp [opened]⟩
  obtain ⟨seen, lex, used, hfile, -, hused, hbuffer⟩ := run_file parseUint32 calls hopened
  have hbytes : bytes = used ++ lex.source.input := hused
  have htake : bytes.take (bytes.length - lex.source.input.length) = used := by
    rw [hbytes]
    simp
  constructor
  · rintro ⟨seen', file, buffer, -, hsome⟩ _ _ hfile'
    rw [hfile] at hfile'
    cases hfile'
    rw [htake]
    intro hbyte
    rw [hbuffer, if_pos hbyte] at hsome
    cases hsome
  · intro h
    have hbyte := h seen lex hfile
    rw [htake] at hbyte
    exact ⟨seen, lex, lex, hfile, by rw [hbuffer, if_neg hbyte]⟩

end

def bareCall : Call := ⟨⟨false, false, false, false⟩, fun _ => false,
    ⟨false, false, false, false, false, false, false, false, false, false⟩, false⟩

/-- The text of the single byte 255 is a string in a file and fails an assertion in a
buffer. -/
theorem run_byte255 : (∃ lex, run (fun _ _ => .error .badNumber) .file [bareCall] (opened [255]) =
        some ([⟨.ok (.string [255]), 1, 0⟩], lex)) ∧
      run (fun _ _ => .error .badNumber) .buffer [bareCall] (opened [255]) = none :=
  ⟨⟨_, rfl⟩, rfl⟩

end LbBind.Lex

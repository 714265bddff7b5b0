import LbBind.Rdata.Fromtext

/-! How long the rdata is that `dns_rdata_fromtext` makes. A TXT or SPF record is as long
as its strings, whatever they add up to, so that a line with more than 65535 bytes of
strings gives an rdata that no 16-bit length can hold. -/

open LbBind.Lex Except

namespace LbBind.Fromtext

open List Option

def unescape : List UInt8 → Bool → Option (List UInt8)
  | [], escape => if escape then none else some []
  | c :: s, false => if c = 92 then unescape s true else (unescape s false).map (c :: ·)
  | c :: s, true =>
    match decvalue c with
    | none => (unescape s false).map (c :: ·)
    | some d =>
      match s with
      | c₁ :: c₂ :: s =>
        match decvalue c₁, decvalue c₂ with
        | some d₁, some d₂ =>
          if 255 < decimal d d₁ d₂ then none
          else (unescape s false).map (UInt8.ofNat (decimal d d₁ d₂) :: ·)
        | _, _ => none
      | _ => none

variable {r : Option (List UInt8)} {bytes : List UInt8}

lemma stored_iff {t : List UInt8} {c : UInt8} {nrem : ℕ} (hpos : nrem ≠ 0) :
    (∃ d, r = some d ∧ bytes = (t ++ [c]) ++ d ∧ d.length ≤ nrem - 1) ↔
      ∃ d, r.map (c :: ·) = some d ∧ bytes = t ++ d ∧ d.length ≤ nrem := by
  constructor
  · rintro ⟨d, rfl, rfl, hle⟩
    exact ⟨c :: d, rfl, by simp, by simp only [length_cons]; omega⟩
  · rintro ⟨d, hd, rfl, hle⟩
    obtain ⟨d, rfl, rfl⟩ := map_eq_some_iff.mp hd
    exact ⟨d, rfl, by simp, by simp only [length_cons] at hle; omega⟩

lemma full_iff {t : List UInt8} {c : UInt8} {full : Result} :
    (error full : Except Result (List UInt8)) = .ok bytes ↔
      ∃ d, r.map (c :: ·) = some d ∧ bytes = t ++ d ∧ d.length ≤ 0 := by
  constructor
  · rintro ⟨⟩
  · rintro ⟨d, hd, -, hle⟩
    obtain ⟨d, -, rfl⟩ := map_eq_some_iff.mp hd
    simp at hle

lemma txtLoop_ok {full : Result} (s : List UInt8) (escape : Bool) (nrem : ℕ)
    (t bytes : List UInt8) : txtLoop full s escape nrem t = .ok bytes ↔
      ∃ d, unescape s escape = some d ∧ bytes = t ++ d ∧ d.length ≤ nrem := by
  fun_induction txtLoop full s escape nrem t with
  | case1 => simp_all [unescape]
  | case2 => simp_all [unescape, eq_comm]
  | case3 => simp_all [unescape]
  | case4 _ _ _ hc =>
    rw [unescape, if_neg hc]
    exact full_iff
  | case5 _ _ _ _ hc hzero ih =>
    rw [ih, unescape, if_neg hc]
    exact stored_iff hzero
  | case6 _ _ _ hdigit =>
    simp only [unescape, hdigit]
    exact full_iff
  | case7 _ _ _ _ hdigit hzero ih =>
    simp only [ih, unescape, hdigit]
    exact stored_iff hzero
  | case8 _ _ _ _ hd _ _ _ _ _ hd2 hd1 hbig =>
    simp only [unescape, hd, hd1, hd2, if_pos hbig]
    simp
  | case9 _ _ _ hd _ _ _ _ _ hd2 hd1 hbig =>
    simp only [unescape, hd, hd1, hd2, if_neg hbig]
    exact full_iff
  | case10 _ _ _ _ hd _ _ _ _ _ hd2 hd1 hbig hzero ih =>
    simp only [ih, unescape, hd, hd1, hd2, if_neg hbig]
    exact stored_iff hzero
  | case11 => simp_all [unescape]
  | case12 => simp_all [unescape]

lemma txtFromtext_ok {source : List UInt8} {target target' : Target} :
    txtFromtext source target = .ok target' ↔
      ∃ d, unescape source false = some d ∧ d.length ≤ 255 ∧ d.length + 1 ≤ target.available ∧
        target' = target.add (UInt8.ofNat d.length :: d) := by
  unfold txtFromtext
  by_cases hnone : target.available < 1
  · rw [if_pos hnone]
    constructor
    · rintro ⟨⟩
    · rintro ⟨d, -, -, hroom, -⟩
      omega
  · rw [if_neg hnone]
    simp only
    constructor
    · intro h
      split at h
      · cases h
      · rename_i t ht
        obtain ⟨d, hd, hdt, hle⟩ := (txtLoop_ok _ _ _ _ _).mp ht
        obtain rfl : t = d := hdt
        cases h
        exact ⟨t, hd, by omega, by omega, rfl⟩
    · rintro ⟨d, hd, hle, hroom, rfl⟩
      rw [(txtLoop_ok source false _ [] d).mpr ⟨d, hd, rfl, by omega⟩]

section
variable {σ : Type} (src : TokenSource σ)

/-- The strings on the line, as `fromtext_txt` reads them, and the source after them. -/
inductive Strings : σ → List (List UInt8) → σ → Prop
  | nil {s s' token} (hget : getmastertoken src .qstring true s = (.ok token, s'))
      (htext : text token = none) : Strings s [] (src.ungettoken s')
  | cons {s s' s'' token t d ds} (hget : getmastertoken src .qstring true s = (.ok token, s'))
      (htext : text token = some t) (hd : unescape t false = some d) (hle : d.length ≤ 255)
      (hds : Strings s' ds s'') : Strings s (d :: ds) s''

lemma Strings.unique {s s' s'' : σ} {ds es : List (List UInt8)} (h : Strings src s ds s')
    (h' : Strings src s es s'') : ds = es := by
  induction h generalizing es with
  | nil hget htext =>
    cases h' with
    | nil => rfl
    | cons hget' htext' =>
      rw [hget] at hget'
      cases hget'
      simp [htext] at htext'
  | cons hget htext hd _ _ ih =>
    cases h' with
    | nil hget' htext' =>
      rw [hget] at hget'
      cases hget'
      simp [htext] at htext'
    | cons hget' htext' hd' _ hds' =>
      rw [hget] at hget'
      cases hget'
      rw [htext] at htext'
      cases htext'
      rw [hd] at hd'
      cases hd'
      rw [ih hds']

variable (ds : List (List UInt8))

def charStrings : List UInt8 :=
  ds.flatMap fun d => UInt8.ofNat d.length :: d

lemma charStrings_cons (d : List UInt8) (ds : List (List UInt8)) :
    charStrings (d :: ds) = (UInt8.ofNat d.length :: d) ++ charStrings ds := rfl

lemma Target.add_add (t : Target) (as bs : List UInt8) :
    (t.add as).add bs = t.add (as ++ bs) := by simp [add]

lemma Target.available_add (t : Target) (bs : List UInt8) :
    (t.add bs).available = t.available - bs.length := by
  simp only [available, add, length_append]
  omega

lemma fromtextStrings_ok (strings : ℕ) (s : σ) (target target' : Target) (s' : σ) :
    fromtextStrings src strings s target = (.ok target', s') ↔
      ∃ ds, Strings src s ds s' ∧ (strings ≠ 0 ∨ ds ≠ []) ∧
        (charStrings ds).length ≤ target.available ∧ target' = target.add (charStrings ds) := by
  fun_induction fromtextStrings src strings s target with
  | case1 strings s target r s1 hget =>
    constructor
    · rintro ⟨⟩
    · rintro ⟨ds, hds, -⟩
      cases hds with
      | nil hget' => simp [hget] at hget'
      | cons hget' => simp [hget] at hget'
  | case2 strings s target token s1 hget htext =>
    have hline : ∀ {ds s'}, Strings src s ds s' → ds = [] ∧ s' = src.ungettoken s1 := by
      rintro ds s' (⟨hget', -⟩ | ⟨hget', htext', -, -, -⟩)
      · rw [hget] at hget'
        cases hget'
        exact ⟨rfl, rfl⟩
      · rw [hget] at hget'
        cases hget'
        simp [htext] at htext'
    constructor
    · intro h
      split_ifs at h with hzero
      · cases h
      · cases h
        exact ⟨[], .nil hget htext, .inl hzero, Nat.zero_le _, by simp [charStrings, Target.add]⟩
    · rintro ⟨ds, hds, hsome, -, rfl⟩
      obtain ⟨rfl, rfl⟩ := hline hds
      have hne : strings ≠ 0 := by simpa using hsome
      simp [hne, charStrings, Target.add]
  | case3 strings s target token s1 hget t htext r htxt =>
    constructor
    · rintro ⟨⟩
    · rintro ⟨ds, hds, -, hroom, -⟩
      obtain ⟨hget', htext'⟩ | ⟨hget', htext', hd, hle, -⟩ := hds
      · rw [hget] at hget'
        cases hget'
        simp [htext] at htext'
      · rw [hget] at hget'
        cases hget'
        rw [htext] at htext'
        cases htext'
        rw [charStrings_cons, length_append, length_cons] at hroom
        have hok : ∃ target', txtFromtext t target = .ok target' :=
          ⟨_, txtFromtext_ok.mpr ⟨_, hd, hle, by omega, rfl⟩⟩
        rw [htxt] at hok
        obtain ⟨_, ⟨⟩⟩ := hok
  | case4 strings s target token s1 hget t htext target1 htxt ih =>
    obtain ⟨d, hd, hle, hroom, rfl⟩ := txtFromtext_ok.mp htxt
    rw [ih]
    constructor
    · rintro ⟨ds, hds, -, hroom', rfl⟩
      refine ⟨d :: ds, .cons hget htext hd hle hds, .inr (by simp), ?_, ?_⟩
      · rw [Target.available_add, length_cons] at hroom'
        rw [charStrings_cons, length_append, length_cons]
        omega
      · rw [Target.add_add, charStrings_cons]
    · rintro ⟨ds, hds, -, hroom', rfl⟩
      obtain ⟨hget', htext'⟩ | ⟨hget', htext', hd', -, hds⟩ := hds
      · rw [hget] at hget'
        cases hget'
        simp [htext] at htext'
      · rw [hget] at hget'
        cases hget'
        rw [htext] at htext'
        cases htext'
        rw [hd] at hd'
        cases hd'
        rw [charStrings_cons, length_append, length_cons] at hroom'
        refine ⟨_, hds, .inl (by simp), ?_, ?_⟩
        · rw [Target.available_add, length_cons]
          omega
        · rw [Target.add_add, charStrings_cons]

def AtEol (s s' : σ) : Prop :=
  ∃ token, src.gettoken (masterOptions .string) s = (.ok token, s') ∧ endsLine token

lemma toEol_error {α : Type} (r : Result) (s : σ) (a : α) (s' : σ) :
    toEol src (.error r : Except Result α) s ≠ (.ok a, s') := by
  generalize hresult : (error r : Except Result α) = result
  fun_induction toEol src result s with
  | case1 => subst hresult; rintro ⟨⟩
  | case2 => subst hresult; rintro ⟨⟩
  | case3 result s token s1 hget hend ih =>
    subst hresult
    exact ih rfl

variable {s s' : σ} {type : ℕ} {target target' : Target}

lemma toEol_ok {α : Type} {result : Except Result α} {a : α} :
    toEol src result s = (.ok a, s') ↔ result = .ok a ∧ AtEol src s s' := by
  cases result with
  | error r => simp [toEol_error]
  | ok b =>
    rw [toEol, AtEol]
    cases hget : src.gettoken (masterOptions .string) s with
    | mk t s1 =>
      cases t with
      | error r => simp [bind, Except.bind]
      | ok token =>
        by_cases hend : endsLine token
        · simp [hend]
        · simp [hend, bind, Except.bind, toEol_error]

variable (types : Types σ)

lemma fromtext_ok {stale rdclass : ℕ} {data : List UInt8} :
    fromtext src types stale rdclass type s target = (.ok data, s', target') ↔
      ∃ token s1 s2, getmastertoken src .qstring false s = (.ok token, s1) ∧
        converted src types stale rdclass type token s1 target = (.ok target', s2) ∧
        AtEol src s2 s' ∧ data = target'.used.drop target.used.length := by
  unfold fromtext
  cases hget : getmastertoken src .qstring false s with
  | mk t s1 =>
    cases t with
    | error r => simp
    | ok token =>
      simp only
      cases hconv : converted src types stale rdclass type token s1 target with
      | mk result s2 =>
        cases heol : toEol src result s2 with
        | mk r s3 =>
          cases r with
          | error r =>
            refine iff_of_false (by rintro ⟨⟩) ?_
            rintro ⟨_, _, _, ⟨⟩, hconv', hend, -⟩
            rw [hconv] at hconv'
            cases hconv'
            rw [(toEol_ok src).mpr ⟨rfl, hend⟩] at heol
            cases heol
          | ok target1 =>
            obtain ⟨rfl, hend⟩ := (toEol_ok src).mp heol
            constructor
            · rintro ⟨⟩
              exact ⟨token, s1, s2, rfl, hconv, hend, rfl⟩
            · rintro ⟨_, _, _, ⟨⟩, hconv', hend', rfl⟩
              rw [hconv] at hconv'
              cases hconv'
              have heol' := (toEol_ok src).mpr ⟨(rfl : ok target' = .ok target'), hend'⟩
              rw [heol] at heol'
              cases heol'
              rfl

def Storable (type : ℕ) (data : List UInt8) : Prop :=
  data.length ≤ 65535 ∧ ∀ m p, Rdataslab.RecordAt
    (Rdataslab.putRecord type ⟨data, false⟩ m p).1 type p ⟨data, false⟩

lemma storable_iff (type : ℕ) (data : List UInt8) :
    Storable type data ↔ data.length + Rdataslab.metaLength type ≤ 65535 := by
  constructor
  · rintro ⟨-, h⟩
    have hlength := (h (fun _ => 0) 0).length
    have hlt := Lib.Mem.rd16_lt (Rdataslab.putRecord type ⟨data, false⟩ (fun _ => 0) 0).1 0
    simp only at hlength
    omega
  · intro h
    exact ⟨by omega, fun m p => Rdataslab.putRecord_recordAt m h⟩

/-- The strings of the line, with their lengths, are too long for the target or have at most 65535
bytes, unless the line is in the generic format. -/
def ShortLine (s : σ) (target : Target) : Prop := ∀ token s₁ ds s₂ s₃,
  getmastertoken src .qstring false s = (.ok token, s₁) → isHash token = false →
    Strings src (src.ungettoken s₁) ds s₂ → ds ≠ [] → AtEol src s₂ s₃ →
      target.available < (ds.map fun d => d.length + 1).sum ∨
        (ds.map fun d => d.length + 1).sum ≤ 65535

lemma length_charStrings :
    (charStrings ds).length = (ds.map fun d => d.length + 1).sum := by
  simp [charStrings, length_flatMap]

lemma converted_strings (stale rdclass : ℕ) {token : Token}
    (htoken : isHash token = false) (htype : type = txt ∨ type = spf) :
    converted src types stale rdclass type token s target = (.ok target', s') ↔
      ∃ ds, Strings src (src.ungettoken s) ds s' ∧ ds ≠ [] ∧
        (charStrings ds).length ≤ target.available ∧ target' = target.add (charStrings ds) := by
  rw [converted, htoken, fromtextSwitch, if_pos htype]
  simp [fromtextStrings_ok]

def Target.Held (t : Target) : Prop := t.used.length ≤ t.length

omit src in
lemma hexDecodeChar_held {ctx ctx' : HexCtx} {c : UInt8} (h : hexDecodeChar ctx c = .ok ctx')
    (hheld : ctx.target.Held) : ctx'.target.Held ∧ ctx'.target.length = ctx.target.length := by
  unfold hexDecodeChar at h
  split at h
  · cases h
  split at h
  · cases h
    exact ⟨hheld, rfl⟩
  · split_ifs at h with hroom hlength <;> cases h <;>
    · simp only [Target.available] at hroom
      simp only [Target.Held, Target.add, length_append, length_singleton, and_true]
      omega

lemma hexDecodeChars_held {ctx ctx' : HexCtx} {t : List UInt8}
    (h : t.foldlM hexDecodeChar ctx = .ok ctx') (hheld : ctx.target.Held) :
    ctx'.target.Held ∧ ctx'.target.length = ctx.target.length := by
  induction t generalizing ctx with
  | nil =>
    cases h
    exact ⟨hheld, rfl⟩
  | cons c t ih =>
    rw [foldlM_cons] at h
    cases hchar : hexDecodeChar ctx c with
    | error r =>
      rw [hchar] at h
      cases h
    | ok ctx₁ =>
      rw [hchar] at h
      obtain ⟨hheld₁, hlength₁⟩ := hexDecodeChar_held hchar hheld
      obtain ⟨hheld', hlength⟩ := ih h hheld₁
      exact ⟨hheld', hlength.trans hlength₁⟩

lemma hexLoop_held {eol : Bool} {ctx ctx' : HexCtx} (h : hexLoop src eol s ctx = (.ok ctx', s'))
    (hheld : ctx.target.Held) : ctx'.target.Held ∧ ctx'.target.length = ctx.target.length := by
  fun_induction hexLoop src eol s ctx with
  | case1 =>
    cases h
    exact ⟨hheld, rfl⟩
  | case2 => cases h
  | case3 =>
    cases h
    exact ⟨hheld, rfl⟩
  | case4 => cases h
  | case5 s ctx _ _ _ _ t _ ctx₁ hctx ih =>
    obtain ⟨hheld₁, hlength₁⟩ := hexDecodeChars_held hctx hheld
    obtain ⟨hheld', hlength⟩ := ih h hheld₁
    exact ⟨hheld', hlength.trans hlength₁⟩

lemma hexTobuffer_length {n : ℕ} {length : ℤ} {buf : Target}
    (h : hexTobuffer src s ⟨[], n % 2 ^ 32⟩ length = (.ok buf, s')) : buf.used.length ≤ n % 2 ^ 32 := by
  unfold hexTobuffer at h
  split at h
  · cases h
  · next ctx s₁ hloop =>
    obtain ⟨hheld, hlength⟩ := hexLoop_held src hloop (Nat.zero_le _)
    have hle : ctx.target.used.length ≤ n % 2 ^ 32 := hheld.trans hlength.le
    split_ifs at h <;> cases h <;> exact hle

/-- In the generic format the length is a number of 16 bits. If none can be read, the value of the
token is small or a pointer, which no buffer is as long as. -/
lemma unknownData_length {rdclass n : ℕ} (hn : n ≤ 65535 ∨ 2 ^ 32 ≤ n)
    (h : unknownData src types rdclass type n s target = (.ok target', s')) :
    target'.used.length - target.used.length ≤ 65535 := by
  unfold unknownData at h
  split at h
  · cases h
  · next buf s₁ hbuf =>
    have hlength := hexTobuffer_length src hbuf
    split_ifs at h with hne hknown hroom
    · cases h
    · obtain ⟨bytes, hbytes, hle⟩ := types.fromwire_appends (Prod.mk.inj h).1
      rw [hbytes, length_append]
      omega
    · cases h
    · cases h
      rw [Target.add, length_append]
      omega

lemma unknownFromtext_length {stale rdclass : ℕ} (hstale : stale ≤ 65535 ∨ 2 ^ 32 ≤ stale)
    (h : unknownFromtext src types stale rdclass type s target = (.ok target', s')) :
    target'.used.length - target.used.length ≤ 65535 := by
  unfold unknownFromtext at h
  split_ifs at h
  · cases h
  split at h
  · split_ifs at h with hbig
    · cases h
    · exact unknownData_length src types (.inl (not_lt.mp hbig)) h
  · exact unknownData_length src types hstale h

end

def listed : TokenSource (List Token × List Token) where
  gettoken _ s := match s.1 with
    | [] => (.ok .eof, [], [])
    | t :: ts => (.ok t, ts, t :: ts)
  ungettoken s := (s.2, s.2)
  left s := s.1.length
  gettoken_left := by
    rintro - ⟨_ | ⟨t, ts⟩, back⟩ token s' h hne
    · cases h
      exact absurd rfl hne
    · cases h
      exact Nat.lt_succ_self _

def noTypes (σ : Type) : Types σ where
  known _ := false
  fromtext _ _ s _ := (.error .unknown, s)
  fromwire _ _ _ _ := .error .unknown
  fromwire_appends h := by cases h

def letters : List UInt8 := replicate 255 97

lemma unescape_replicate (n : ℕ) : unescape (replicate n 97) false = some (replicate n 97) := by
  induction n with
  | zero => rfl
  | succ n ih => rw [replicate_succ, unescape, if_neg (by decide), ih, map_some]

lemma length_letters : letters.length = 255 := length_replicate

lemma strings_listed (n : ℕ) (back : List Token) :
    Strings listed (replicate n (.qstring letters), back) (replicate n letters)
      ([], []) := by
  induction n generalizing back with
  | zero =>
    have hnil : Strings listed ([], back) [] (listed.ungettoken ([], [])) := .nil rfl rfl
    exact hnil
  | succ n ih => exact .cons rfl rfl (unescape_replicate 255) length_letters.le (ih _)

lemma fromtext_letters (n size : ℕ) (hroom : (n + 1) * 256 ≤ size) :
    ∃ data s' target', fromtext listed (noTypes _) 0 1 txt
        (replicate (n + 1) (.qstring letters), []) ⟨[], size⟩ = (.ok data, s', target') ∧
      data.length = (n + 1) * 256 := by
  have hlength : (charStrings (replicate (n + 1) letters)).length = (n + 1) * 256 := by
    rw [length_charStrings, map_replicate, sum_replicate, length_letters]
    rfl
  have hhash : isHash (.qstring letters) = false := by decide
  have hstrings := strings_listed (n + 1) (replicate (n + 1) (.qstring letters))
  have hds : Strings listed (listed.ungettoken (replicate n (.qstring letters),
      replicate (n + 1) (.qstring letters))) (replicate (n + 1) letters) ([], []) :=
    hstrings
  have hfits : (charStrings (replicate (n + 1) letters)).length ≤
      (⟨[], size⟩ : Target).available := hlength.trans_le hroom
  have hconv := (converted_strings listed (noTypes _) 0 1 hhash (.inl rfl)).mpr
    ⟨_, hds, nofun, hfits, rfl⟩
  refine ⟨_, _, _, (fromtext_ok listed (noTypes _)).mpr
    ⟨.qstring letters, _, _, rfl, hconv, ⟨.eof, rfl, rfl⟩, rfl⟩, ?_⟩
  simpa [Target.add] using hlength

end LbBind.Fromtext

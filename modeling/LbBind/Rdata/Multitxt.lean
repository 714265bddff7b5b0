import LbBind.Rdata.Length

/-! `multitxt_fromtext` divides a text into strings of at most 255 bytes. A string for which there
is room for its length only is stored outside of the target. -/

namespace LbBind.Fromtext

open List Option Nat

/-- The next character of a text, with its escape, and the text after it. -/
def character : List UInt8 → Except Result (Option (UInt8 × List UInt8))
  | [] => .ok none
  | c :: s =>
    if c ≠ 92 then .ok (some (c, s))
    else
      match s with
      | [] => .error .syntaxErr
      | c :: s =>
        match decvalue c with
        | none => .ok (some (c, s))
        | some d =>
          match s with
          | c₁ :: c₂ :: s =>
            match decvalue c₁, decvalue c₂ with
            | some d₁, some d₂ =>
              if 255 < decimal d d₁ d₂ then .error .syntaxErr
              else .ok (some (UInt8.ofNat (decimal d d₁ d₂), s))
            | _, _ => .error .syntaxErr
          | _ => .error .syntaxErr

/-- The inner loop: the string and the text that is left. The room is looked at only after a
character was stored. -/
def multitxtLoop (nrem : ℕ) (s : List UInt8) : Option (Except Result (List UInt8 × List UInt8)) :=
  match character s, nrem with
  | .error r, _ => some (.error r)
  | .ok none, _ => some (.ok ([], []))
  | .ok (some _), 0 => none
  | .ok (some (c, s)), 1 => some (.ok ([c], s))
  | .ok (some (c, s)), n + 2 => (multitxtLoop (n + 1) s).map (·.map fun (t, s) => (c :: t, s))

def multitxtFromtext (s : List UInt8) (target : Target) : Option (Except Result Target) :=
  if _h : target.available < 1 then some (.error .noSpace)
  else
    match multitxtLoop (min (target.available - 1) 255) s with
    | none => none
    | some (.error r) => some (.error r)
    | some (.ok (t, s)) =>
      if s = [] then some (.ok (target.add (UInt8.ofNat t.length :: t)))
      else multitxtFromtext s (target.add (UInt8.ofNat t.length :: t))
termination_by target.available
decreasing_by
  rw [Target.available_add, length_cons]
  omega

/-- The text begins with this many characters. -/
def Characters : ℕ → List UInt8 → Prop
  | 0, _ => True
  | n + 1, s => ∃ c s', character s = .ok (some (c, s')) ∧ Characters n s'

def Divides (source : List UInt8) (ds : List (List UInt8)) : Prop :=
  (∀ d ∈ ds, d.length ≤ 255) ∧ unescape source false = some ds.flatten

/-- What is written is strings that `p` allows. Where there are such strings, and none that fit,
the result is thus `ISC_R_NOSPACE`. -/
structure Stores (p : List (List UInt8) → Prop) (target : Target)
    (result : Option (Except Result Target)) : Prop where
  inside : result ≠ none
  error : ∀ r, result = some (.error r) → r = .noSpace ∨ ∀ ds, ¬p ds
  strings : ∀ target', result = some (.ok target') →
    ∃ ds, p ds ∧ (charStrings ds).length ≤ target.available ∧ target' = target.add (charStrings ds)

variable {s source : List UInt8} {target : Target}

lemma unescape_character (s : List UInt8) : unescape s false = match character s with
    | .error _ => none
    | .ok none => some []
    | .ok (some (c, s)) => (unescape s false).map (c :: ·) := by
  fun_cases character s <;> simp_all [unescape]

lemma Characters.mono {m n : ℕ} (h : Characters n s) (hle : m ≤ n) : Characters m s := by
  induction m generalizing n s with
  | zero => trivial
  | succ m ih =>
    obtain ⟨n, rfl⟩ := Nat.exists_eq_add_of_le' hle
    obtain ⟨c, s', hchar, hrest⟩ := h
    exact ⟨c, s', hchar, ih hrest (Nat.le_add_left ..)⟩

def Looped (n : ℕ) (s : List UInt8) : Option (Except Result (List UInt8 × List UInt8)) → Prop
  | none => n = 0 ∧ Characters 1 s
  | some (.error _) => unescape s false = none ∧ ¬Characters (n + 1) s
  | some (.ok (t, s')) => t.length ≤ n ∧ unescape s false = (unescape s' false).map (t ++ ·) ∧
    (s' = [] ∧ ¬Characters (n + 1) s ∨
      0 < n ∧ t.length = n ∧ ∀ m, Characters (n + m) s ↔ Characters m s')

lemma multitxtLoop_looped (n : ℕ) (s : List UInt8) : Looped n s (multitxtLoop n s) := by
  fun_induction multitxtLoop n s with
  | case1 n s r hchar => exact ⟨by rw [unescape_character, hchar], by simp [Characters, hchar]⟩
  | case2 n s hchar =>
    refine ⟨zero_le _, ?_, .inl ⟨rfl, by simp [Characters, hchar]⟩⟩
    rw [unescape_character, hchar]
    rfl
  | case3 s p hchar => exact ⟨rfl, p.1, p.2, hchar, trivial⟩
  | case4 s c s' hchar =>
    refine ⟨le_rfl, by rw [unescape_character, hchar]; rfl, .inr ⟨one_pos, rfl, fun m => ?_⟩⟩
    rw [add_comm]
    simp [Characters, hchar]
  | case5 s c s' n hchar ih =>
    have hread : ∀ m, Characters (m + 1) s ↔ Characters m s' := by simp [Characters, hchar]
    have htext : unescape s false = (unescape s' false).map (c :: ·) := by
      rw [unescape_character, hchar]
    revert ih
    match multitxtLoop (n + 1) s' with
    | none => exact fun ih => nomatch ih.1
    | some (.error r) => exact fun ⟨hnone, hshort⟩ => ⟨by simp [htext, hnone], mt (hread _).mp hshort⟩
    | some (.ok (t, s'')) =>
      rintro ⟨hle, htext', hend⟩
      refine ⟨succ_le_succ hle, by simp [htext, htext', Function.comp_def], ?_⟩
      refine hend.imp (And.imp_right (mt (hread _).mp)) ?_
      rintro ⟨-, hlen, hrest⟩
      refine ⟨succ_pos _, congrArg succ hlen, fun m => ?_⟩
      rw [← hrest, ← hread]
      congr! 1
      omega

/-- The target is overrun exactly if one byte of it is left and a character is left for it. -/
lemma multitxtFromtext_spec (s : List UInt8) (target : Target) :
    (multitxtFromtext s target = none ↔
      target.available % 256 = 1 ∧ Characters (255 * (target.available / 256) + 1) s) ∧
    (∀ r, multitxtFromtext s target = some (.error r) → r = .noSpace ∨ unescape s false = none) ∧
    ∀ target', multitxtFromtext s target = some (.ok target') →
      ∃ ds, Divides s ds ∧ (charStrings ds).length ≤ target.available ∧
        target' = target.add (charStrings ds) := by
  fun_induction multitxtFromtext s target with
  | case1 s target h => simp [show target.available = 0 by omega]
  | case2 s target h hloop =>
    obtain ⟨hzero, hchar⟩ := hloop ▸ multitxtLoop_looped _ _
    simp [show target.available = 1 by omega, hchar]
  | case3 s target h r hloop =>
    obtain ⟨htext, hshort⟩ := hloop ▸ multitxtLoop_looped _ _
    refine ⟨iff_of_false (by simp) fun hover => hshort ?_, fun _ _ => .inr htext, by simp⟩
    exact hover.2.mono (by omega)
  | case4 s target h t hloop =>
    obtain ⟨hle, htext, hend⟩ := hloop ▸ multitxtLoop_looped _ _
    refine ⟨iff_of_false (by simp) fun hover => ?_, by simp, ?_⟩
    · have hmore := hover.2.mono (show min (target.available - 1) 255 + 1 ≤ _ by omega)
      rcases hend with ⟨-, hshort⟩ | ⟨-, -, hrest⟩
      · exact hshort hmore
      · simpa [Characters, character] using (hrest 1).mp hmore
    · rintro _ ⟨⟩
      refine ⟨[t], ⟨by simp; omega, by simp [htext, unescape]⟩, ?_, by simp [charStrings]⟩
      simp [charStrings]
      omega
  | case5 s target h t s' hloop hne ih =>
    obtain ⟨hle, htext, ⟨hnil, -⟩ | ⟨hpos, hlen, hrest⟩⟩ := hloop ▸ multitxtLoop_looped _ _
    · exact absurd hnil hne
    obtain ⟨hnone, herror, hok⟩ := ih
    rw [Target.available_add, length_cons] at hnone hok
    refine ⟨hnone.trans ?_, fun r hr => ?_, fun target' hr => ?_⟩
    · by_cases hbig : target.available ≤ 256
      · exact iff_of_false (by omega) (by omega)
      · rw [← hrest]
        exact and_congr (by omega) (iff_of_eq (congrArg (Characters · s) (by omega)))
    · exact (herror r hr).imp_right fun hnone => by simp [htext, hnone]
    · obtain ⟨ds, ⟨hds, htexts⟩, hroom, rfl⟩ := hok target' hr
      refine ⟨t :: ds, ⟨by simp; exact ⟨by omega, hds⟩, by simp [htext, htexts]⟩, ?_, ?_⟩
      · rw [charStrings_cons]
        simp
        omega
      · rw [charStrings_cons, Target.add_add]

lemma txtLoop_error {full r : Result} {escape : Bool} {nrem : ℕ} {t : List UInt8}
    (h : txtLoop full s escape nrem t = .error r) : r = full ∨ unescape s escape = none := by
  fun_induction txtLoop full s escape nrem t <;> simp_all [unescape]

lemma txtFromtext_stores (source : List UInt8) (target : Target) :
    Stores (fun ds => Divides source ds ∧ ds.length = 1) target
      (some (txtFromtext source target)) := by
  refine ⟨by simp, fun r h => or_iff_not_imp_left.mpr fun hr ds => ?_, fun target' h => ?_⟩
  · rintro ⟨⟨hds, htext⟩, hone⟩
    obtain ⟨d, rfl⟩ := length_eq_one_iff.mp hone
    simp only [mem_singleton, forall_eq, flatten_singleton] at hds htext
    by_cases hroom : d.length + 1 ≤ target.available
    · rw [txtFromtext_ok.mpr ⟨d, htext, hds, hroom, rfl⟩] at h
      cases h
    rw [txtFromtext, if_pos (show target.available ≤ 256 by omega)] at h
    split_ifs at h
    · cases h
      exact hr rfl
    · dsimp only at h
      split at h <;> cases h
      rename_i hloop
      simpa [hr, htext] using txtLoop_error hloop
  · obtain ⟨d, hd, hle, hroom, rfl⟩ := txtFromtext_ok.mp (some.inj h)
    exact ⟨[d], ⟨⟨by simpa, by simpa⟩, rfl⟩, by simpa [charStrings], by simp [charStrings]⟩

/-- Both routines store their strings inside of the target, and the second one only if no string
begins in its last byte. -/
theorem fromtext_stores_iff :
    Stores (fun ds => Divides source ds ∧ ds.length = 1) target (some (txtFromtext source target)) ∧
      Stores (Divides source) target (multitxtFromtext source target) ↔
    ¬(target.available % 256 = 1 ∧ Characters (255 * (target.available / 256) + 1) source) := by
  obtain ⟨hnone, herror, hok⟩ := multitxtFromtext_spec source target
  rw [← hnone]
  refine ⟨fun h => h.2.inside, fun h => ⟨txtFromtext_stores source target, h, fun r hr => ?_, hok⟩⟩
  exact (herror r hr).imp_right fun hnone ds hds => by simp [hds.2] at hnone

theorem multitxtFromtext_full : multitxtFromtext [97] ⟨[], 1⟩ = none ∧
    ¬Stores (Divides [97]) ⟨[], 1⟩ (multitxtFromtext [97] ⟨[], 1⟩) := by
  have hnone : multitxtFromtext [97] ⟨[], 1⟩ = none := by
    simp [multitxtFromtext, Target.available, multitxtLoop, character]
  exact ⟨hnone, fun h => h.inside hnone⟩

end LbBind.Fromtext

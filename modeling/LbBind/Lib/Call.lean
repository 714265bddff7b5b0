import Mathlib.Logic.Basic

/-! Routines of a program with a state, result codes and assertions. A routine ends with a value or
with a result code, and in both cases leaves a state; or an assertion fails. The rules are those of
pre- and postconditions, with one postcondition for each way to end. A routine that meets its
conditions ends, and no assertion fails in it. -/

namespace LbBind.Lib

open Except Option Pure

/-- A routine over the state `σ` with result codes `ε`; `none` is a failed assertion. -/
structure Call (σ ε α : Type) where
  run : σ → Option (Except ε α × σ)

namespace Call

variable {σ ε α β : Type} (c : Call σ ε α) {g : σ → σ} {p : Prop}

def andThen (f : α → Call σ ε β) : Call σ ε β := ⟨fun s =>
  match c.run s with
  | none => none
  | some (.error e, s') => some (.error e, s')
  | some (.ok a, s') => (f a).run s'⟩

instance : Monad (Call σ ε) where
  pure a := ⟨fun s => some (.ok a, s)⟩
  bind := andThen

def fail (e : ε) : Call σ ε α := ⟨fun s => some (.error e, s)⟩

def read : Call σ ε σ := ⟨fun s => some (.ok s, s)⟩

def modify (f : σ → σ) : Call σ ε Unit := ⟨fun s => some (.ok (), f s)⟩

def assert (p : Prop) [Decidable p] : Call σ ε Unit := ⟨fun s =>
  if p then some (.ok (), s) else none⟩

def lift (r : Except ε α) : Call σ ε α := ⟨fun s => some (r, s)⟩

def onError (h : Call σ ε Unit) : Call σ ε α := ⟨fun s =>
  match c.run s with
  | some (.error e, s') => (h.run s').map fun r => (.error e, r.2)
  | r => r⟩

def mapError {ε' : Type} (f : ε → ε') (c : Call σ ε α) : Call σ ε' α := ⟨fun s =>
  match c.run s with
  | none => none
  | some (.error e, s') => some (.error (f e), s')
  | some (.ok a, s') => some (.ok a, s')⟩

/-- The way a routine ends, without the state. -/
def outcome (s : σ) : Option (Except ε α) := (c.run s).map Prod.fst

def attempt {ε' : Type} (c : Call σ ε α) : Call σ ε' (Except ε α) := ⟨fun s =>
  match c.run s with
  | none => none
  | some (r, s') => some (.ok r, s')⟩

section
variable (s : σ) {c : Call σ ε α}

lemma ext_run {d : Call σ ε α} (h : ∀ s, c.run s = d.run s) : c = d := congrArg mk (funext h)

@[simp] lemma pure_run (a : α) : (pure a : Call σ ε α).run s = some (.ok a, s) := rfl

@[simp] lemma bind_run (c : Call σ ε α) (f : α → Call σ ε β) : (c >>= f).run s =
    match c.run s with
    | none => none
    | some (.error e, s') => some (.error e, s')
    | some (.ok a, s') => (f a).run s' := rfl

@[simp] lemma fail_run (e : ε) : (fail e : Call σ ε α).run s = some (.error e, s) := rfl

@[simp] lemma read_run : (read : Call σ ε σ).run s = some (.ok s, s) := rfl

@[simp] lemma modify_run (f : σ → σ) : (modify f : Call σ ε Unit).run s = some (.ok (), f s) := rfl

@[simp] lemma lift_run (r : Except ε α) : (lift r : Call σ ε α).run s = some (r, s) := rfl

@[simp] lemma assert_run (p : Prop) [Decidable p] :
    (assert p : Call σ ε Unit).run s = if p then some (.ok (), s) else none := rfl

lemma exists_of_any {c : Call σ ε Unit} {s : σ} {q : σ → Bool}
    (h : (c.run s).any (fun r => r.1.isOk && q r.2)) :
    ∃ s', c.run s = some (.ok (), s') ∧ q s' := by
  rcases hc : c.run s with _ | ⟨_ | a, s'⟩
  · simp [hc] at h
  · simp [hc, isOk, Except.toBool] at h
  · exact ⟨s', rfl, by simpa [hc, isOk, Except.toBool] using h⟩

lemma exists_of_toOption {e : Except ε α} {q : α → Bool} (h : e.toOption.any q) :
    ∃ a, e = .ok a ∧ q a := by
  cases e with
  | error e => simp [Except.toOption] at h
  | ok a => exact ⟨a, rfl, h⟩

lemma bind_eq_ok {f : α → Call σ ε β} {s s'' : σ} {b : β} : (c >>= f).run s = some (.ok b, s'') ↔
      ∃ a s', c.run s = some (.ok a, s') ∧ (f a).run s' = some (.ok b, s'') := by
  rw [bind_run]
  rcases hc : c.run s with _ | ⟨_ | a, s'⟩
  · simp
  · simp
  · simp only [some.injEq, Prod.mk.injEq, ok.injEq]
    exact ⟨fun h => ⟨a, s', ⟨rfl, rfl⟩, h⟩, fun ⟨_, _, ⟨ha, hs⟩, h⟩ => ha ▸ hs ▸ h⟩

lemma onError_eq_ok {h : Call σ ε Unit} {s s' : σ} {a : α} :
    (c.onError h).run s = some (.ok a, s') ↔ c.run s = some (.ok a, s') := by
  rcases hc : c.run s with _ | ⟨_ | b, t⟩
  · simp [onError, hc]
  · cases hh : h.run t <;> simp [onError, hc, hh]
  · simp [onError, hc]

end

/-- From a state in `P` the routine ends, with a value and a state in `Q` or with a result
code and a state in `E`. -/
def Meets (P : σ → Prop) (c : Call σ ε α) (Q : α → σ → Prop) (E : ε → σ → Prop) : Prop :=
  ∀ s, P s → (∃ a s', c.run s = some (.ok a, s') ∧ Q a s') ∨
    ∃ e s', c.run s = some (.error e, s') ∧ E e s'

/-- From `s` the routine ends, with a value and a state in `Q`. -/
abbrev Succeeds (c : Call σ ε α) (s : σ) (Q : α → σ → Prop) : Prop :=
  Meets (· = s) c Q fun _ _ => False

namespace Meets

variable {P P' : σ → Prop} {Q Q' : α → σ → Prop} {E E' : ε → σ → Prop} {R : β → σ → Prop}
  {c : Call σ ε α} {f : α → Call σ ε β} {s : σ} {a : α}

lemma start (h : (∃ a s', c.run s = some (.ok a, s') ∧ Q a s') ∨
    ∃ e s', c.run s = some (.error e, s') ∧ E e s') : Meets (· = s) c Q E := by
  rintro _ rfl
  exact h

lemma pure (h : ∀ s, P s → Q a s) : Meets P (pure a) Q E :=
  fun s hs => .inl ⟨a, s, rfl, h s hs⟩

lemma fail {e : ε} (h : ∀ s, P s → E e s) : Meets P (fail e) Q E :=
  fun s hs => .inr ⟨e, s, rfl, h s hs⟩

lemma bind (hc : Meets P c Q E) (hf : ∀ a, Meets (Q a) (f a) R E) : Meets P (c >>= f) R E := by
  intro s hs
  rcases hc s hs with ⟨a, s', hrun, hQ⟩ | ⟨e, s', hrun, hE⟩
  · simpa [hrun] using hf a s' hQ
  · exact .inr ⟨e, s', by simp [hrun], hE⟩

lemma seq (hc : Meets P c Q E) (hE : ∀ e s, E e s → E' e s)
    (hf : ∀ a s, Q a s → Meets (· = s) (f a) R E') : Meets P (c >>= f) R E' := by
  intro s hs
  rcases hc s hs with ⟨a, s', hrun, hQ⟩ | ⟨e, s', hrun, h⟩
  · simpa [hrun] using hf a s' hQ s' rfl
  · exact .inr ⟨e, s', by simp [hrun], hE e s' h⟩

lemma next (hc : Meets P c Q E) (hf : ∀ a s, Q a s → Meets (· = s) (f a) R E) :
    Meets P (c >>= f) R E :=
  hc.seq (fun _ _ h => h) hf

lemma read {f : σ → Call σ ε β} (h : Meets (· = s) (f s) R E) :
    Meets (· = s) (read >>= f) R E := by
  rintro _ rfl
  exact h _ rfl

lemma modify {Q : Unit → σ → Prop} (h : ∀ s, P s → Q () (g s)) :
    Meets P (modify g) Q E :=
  fun s hs => .inl ⟨(), g s, rfl, h s hs⟩

lemma change {f : Unit → Call σ ε β} (h : Meets (· = g s) (f ()) R E) :
    Meets (· = s) (Call.modify g >>= f) R E := by
  rintro _ rfl
  exact h _ rfl

lemma check [Decidable p] {f : Unit → Call σ ε β} (hp : p)
    (h : Meets (· = s) (f ()) R E) : Meets (· = s) (assert p >>= f) R E := by
  rintro _ rfl
  simpa [hp] using h _ rfl

lemma ite [Decidable p] {d : Call σ ε α} (hc : p → Meets P c Q E)
    (hd : ¬p → Meets P d Q E) : Meets P (if p then c else d) Q E := by
  by_cases hp : p
  · simpa [hp] using hc hp
  · simpa [hp] using hd hp

lemma mono (h : Meets P c Q E) (hP : ∀ s, P' s → P s) (hQ : ∀ a s, Q a s → Q' a s)
    (hE : ∀ e s, E e s → E' e s) : Meets P' c Q' E' := by
  intro s hs
  rcases h s (hP s hs) with ⟨a, s', hrun, h⟩ | ⟨e, s', hrun, h⟩
  · exact .inl ⟨a, s', hrun, hQ a s' h⟩
  · exact .inr ⟨e, s', hrun, hE e s' h⟩

lemma of_run {s' : σ} (h : Meets (· = s) c Q E) (hrun : c.run s = some (.ok a, s')) : Q a s' := by
  rcases h s rfl with ⟨b, t, ht, hQ⟩ | ⟨e, t, ht, -⟩
  · rw [hrun] at ht
    cases ht
    exact hQ
  · rw [hrun] at ht
    cases ht

lemma with_run (h : Meets (· = s) c Q E) :
    Meets (· = s) c (fun a s' => Q a s' ∧ c.run s = some (.ok a, s')) E := by
  apply start
  rcases h s rfl with ⟨a, s', hrun, hQ⟩ | h
  · exact .inl ⟨a, s', hrun, hQ, hrun⟩
  · exact .inr h

lemma onError {h : Call σ ε Unit} (hc : Meets P c Q E)
    (hh : ∀ e, Meets (E e) h (fun _ => E' e) (fun _ => E' e)) : Meets P (c.onError h) Q E' := by
  intro s hs
  rcases hc s hs with ⟨a, s', hrun, hQ⟩ | ⟨e, s', hrun, hE⟩
  · exact .inl ⟨a, s', by simp [Call.onError, hrun], hQ⟩
  · rcases hh e s' hE with ⟨a, s'', hrun', h⟩ | ⟨e', s'', hrun', h⟩
    all_goals exact .inr ⟨e, s'', by simp [Call.onError, hrun, hrun'], h⟩

lemma attempt {ε' : Type} {g : Except ε α → Call σ ε' β} {E' : ε' → σ → Prop} (hc : Meets P c Q E)
    (hok : ∀ a s, Q a s → Meets (· = s) (g (.ok a)) R E')
    (herror : ∀ e s, E e s → Meets (· = s) (g (.error e)) R E') : Meets P (c.attempt >>= g) R E' := by
  intro s hs
  rcases hc s hs with ⟨a, s', hrun, h⟩ | ⟨e, s', hrun, h⟩
  · simpa [Call.attempt, hrun] using hok a s' h s' rfl
  · simpa [Call.attempt, hrun] using herror e s' h s' rfl

lemma outcome_ok (h : Meets (· = s) c (fun b _ => b = a) (fun _ _ => False)) :
    c.outcome s = some (.ok a) := by
  rcases h s rfl with ⟨b, s', hrun, rfl⟩ | ⟨_, _, _, h⟩
  · simp [outcome, hrun]
  · exact h.elim

lemma outcome_error {e : ε} (h : Meets (· = s) c (fun _ _ => False) (fun e' _ => e' = e)) :
    c.outcome s = some (.error e) := by
  rcases h s rfl with ⟨_, _, _, h⟩ | ⟨e', s', hrun, rfl⟩
  · exact h.elim
  · simp [outcome, hrun]

end Meets

/-- If the routine ends from `s`, it does so with a value and a state in `Q` or with a result
code and a state in `E`. -/
def Ends (c : Call σ ε α) (s : σ) (Q : α → σ → Prop) (E : ε → σ → Prop) : Prop :=
  (∀ a s', c.run s = some (.ok a, s') → Q a s') ∧ ∀ e s', c.run s = some (.error e, s') → E e s'

/-- The same, with nothing said of how the routine fails. -/
abbrev Ensures (c : Call σ ε α) (s : σ) (Q : α → σ → Prop) : Prop := Ends c s Q fun _ _ => True

namespace Ends

variable {s : σ} {Q Q' : α → σ → Prop} {E E' : ε → σ → Prop} {R : β → σ → Prop} {c : Call σ ε α}
  {f : α → Call σ ε β}

lemma pure {a : α} (h : Q a s) : Ends (pure a) s Q E :=
  ⟨fun _ _ hrun => by cases hrun; exact h, fun _ _ hrun => by cases hrun⟩

lemma fail {e : ε} (h : E e s) : Ends (fail e) s Q E :=
  ⟨fun _ _ hrun => (by cases hrun), fun _ _ hrun => by cases hrun; exact h⟩

lemma modify {Q : Unit → σ → Prop} (h : Q () (g s)) : Ends (modify g) s Q E :=
  ⟨fun _ _ hrun => by cases hrun; exact h, fun _ _ hrun => by cases hrun⟩

variable {r : Except ε α}

lemma lift (hok : ∀ a, r = .ok a → Q a s) (herror : ∀ e, r = .error e → E e s) :
    Ends (lift r) s Q E :=
  ⟨fun a _ hrun => by cases hrun; exact hok a rfl, fun e _ hrun => by cases hrun; exact herror e rfl⟩

lemma mono (h : Ends c s Q E) (hQ : ∀ a t, Q a t → Q' a t) (hE : ∀ e t, E e t → E' e t) :
    Ends c s Q' E' :=
  ⟨fun a t hrun => hQ a t (h.1 a t hrun), fun e t hrun => hE e t (h.2 e t hrun)⟩

lemma imp (h : Ends c s Q E) (hQ : ∀ a t, Q a t → Q' a t) : Ends c s Q' E :=
  h.mono hQ fun _ _ h => h

lemma seq (hc : Ends c s Q E) (hE : ∀ e t, E e t → E' e t)
    (hf : ∀ a t, Q a t → Ends (f a) t R E') : Ends (c >>= f) s R E' := by
  unfold Ends
  simp only [bind_run]
  rcases hrun : c.run s with _ | ⟨e | a, t⟩
  · simp
  · refine ⟨by simp, fun e' t' h => ?_⟩
    simp only [some.injEq, Prod.mk.injEq, error.injEq] at h
    exact h.1 ▸ h.2 ▸ hE e t (hc.2 e t hrun)
  · exact hf a t (hc.1 a t hrun)

lemma bind (hc : Ends c s Q E) (hf : ∀ a t, Q a t → Ends (f a) t R E) : Ends (c >>= f) s R E :=
  hc.seq (fun _ _ h => h) hf

lemma read {f : σ → Call σ ε β} (h : Ends (f s) s R E) : Ends (read >>= f) s R E := h

lemma change {f : Unit → Call σ ε β} (h : Ends (f ()) (g s) R E) :
    Ends (Call.modify g >>= f) s R E := h

lemma result (hok : ∀ a, r = .ok a → Ends (f a) s R E)
    (herror : ∀ e, r = .error e → E e s) : Ends (Call.lift r >>= f) s R E := by
  cases r with
  | error e =>
    exact fail (herror e rfl)
  | ok a =>
    exact hok a rfl

lemma check [Decidable p] {f : Unit → Call σ ε β} (h : p → Ends (f ()) s R E) :
    Ends (assert p >>= f) s R E := by
  by_cases hp : p
  · simpa [Ends, hp] using h hp
  · simp [Ends, hp]

lemma assert [Decidable p] {Q : Unit → σ → Prop} (h : p → Q () s) :
    Ends (assert p) s Q E := by
  by_cases hp : p
  · simpa [Ends, hp] using fun _ => h hp
  · simp [Ends, hp]

lemma ite [Decidable p] {d : Call σ ε α} (hc : p → Ends c s Q E)
    (hd : ¬p → Ends d s Q E) : Ends (if p then c else d) s Q E := by
  by_cases hp : p
  · simpa [hp] using hc hp
  · simpa [hp] using hd hp

lemma onError {h : Call σ ε Unit} (hc : Ends c s Q E)
    (hh : ∀ e t, E e t → Ends h t (fun _ => E' e) (fun _ => E' e)) : Ends (c.onError h) s Q E' := by
  unfold Ends
  simp only [Call.onError]
  rcases hrun : c.run s with _ | ⟨e | a, t⟩
  · simp
  · refine ⟨by simp, fun e' t' hmap => ?_⟩
    obtain ⟨⟨r, t''⟩, hhrun, hr⟩ := map_eq_some_iff.mp hmap
    simp only [Prod.mk.injEq, error.injEq] at hr
    obtain ⟨rfl, rfl⟩ := hr
    have hpost := hh e t (hc.2 e t hrun)
    cases r with
    | ok a => exact hpost.1 a t'' hhrun
    | error e' => exact hpost.2 e' t'' hhrun
  · exact ⟨fun a' t' h => by cases h; exact hc.1 a t hrun, by simp⟩

lemma mapError {ε' : Type} {g : ε → ε'} {E' : ε' → σ → Prop} (hc : Ends c s Q E)
    (hE : ∀ e t, E e t → E' (g e) t) : Ends (c.mapError g) s Q E' := by
  unfold Ends
  simp only [Call.mapError]
  rcases hrun : c.run s with _ | ⟨e | a, t⟩
  · simp
  · exact ⟨by simp, fun e' t' h => by cases h; exact hE e t (hc.2 e t hrun)⟩
  · exact ⟨fun a' t' h => by cases h; exact hc.1 a t hrun, by simp⟩

lemma attempt {ε' : Type} {g : Except ε α → Call σ ε' β} {E' : ε' → σ → Prop} (hc : Ends c s Q E)
    (hok : ∀ a t, Q a t → Ends (g (.ok a)) t R E')
    (herror : ∀ e t, E e t → Ends (g (.error e)) t R E') : Ends (c.attempt >>= g) s R E' := by
  unfold Ends
  simp only [bind_run, Call.attempt]
  rcases hrun : c.run s with _ | ⟨e | a, t⟩
  · simp
  · exact herror e t (hc.2 e t hrun)
  · exact hok a t (hc.1 a t hrun)

end Ends

def Moves (R : σ → σ → Prop) (c : Call σ ε α) : Prop := ∀ s r s', c.run s = some (r, s') → R s s'

namespace Moves

variable {R : σ → σ → Prop} {c d : Call σ ε α} {f : α → Call σ ε β}

lemma modify (h : ∀ s, R s (g s)) : Moves R (modify g : Call σ ε Unit) := by
  intro s r s' hrun
  cases hrun
  exact h s

lemma ite [Decidable p] (hc : Moves R c) (hd : Moves R d) :
    Moves R (if p then c else d) := by
  split
  · exact hc
  · exact hd

section
variable (hrefl : ∀ s, R s s)
include hrefl

lemma pure (a : α) : Moves R (pure a : Call σ ε α) := by
  intro s r s' hrun
  cases hrun
  exact hrefl s

lemma fail (e : ε) : Moves R (fail e : Call σ ε α) := by
  intro s r s' hrun
  cases hrun
  exact hrefl s

lemma read : Moves R (read : Call σ ε σ) := by
  intro s r s' hrun
  cases hrun
  exact hrefl s

lemma lift (r : Except ε α) : Moves R (lift r : Call σ ε α) := by
  intro s r s' hrun
  cases hrun
  exact hrefl s

lemma assert (p : Prop) [Decidable p] : Moves R (assert p : Call σ ε Unit) := by
  intro s r s' hrun
  rw [assert_run] at hrun
  split at hrun <;> cases hrun
  exact hrefl s

end

variable (htrans : ∀ a b c, R a b → R b c → R a c)
include htrans

lemma bind (hc : Moves R c) (hf : ∀ a, Moves R (f a)) : Moves R (c >>= f) := by
  intro s r s' hrun
  rw [bind_run] at hrun
  rcases hs : c.run s with _ | ⟨e | a, t⟩
  · simp [hs] at hrun
  · simp only [hs] at hrun
    cases hrun
    exact hc s _ _ hs
  · simp only [hs] at hrun
    exact htrans _ _ _ (hc s _ _ hs) (hf a t r s' hrun)

end Moves

/-- A part `π` of the state is the same after the routine. -/
def Keeps {γ : Type} (π : σ → γ) (c : Call σ ε α) : Prop :=
  ∀ s r s', c.run s = some (r, s') → π s' = π s

namespace Keeps

variable {γ : Type} {π : σ → γ} {c d : Call σ ε α} {f : α → Call σ ε β}

lemma iff_moves : Keeps π c ↔ Moves (fun s s' => π s' = π s) c := Iff.rfl

lemma pure {a : α} : Keeps π (pure a : Call σ ε α) :=
  Moves.pure (R := fun s s' => π s' = π s) (fun _ => rfl) a

lemma fail {e : ε} : Keeps π (fail e : Call σ ε α) :=
  Moves.fail (R := fun s s' => π s' = π s) (fun _ => rfl) e

lemma read : Keeps π (read : Call σ ε σ) := iff_moves.mpr (.read fun _ => rfl)

lemma modify (hg : ∀ s, π (g s) = π s) : Keeps π (modify g : Call σ ε Unit) :=
  iff_moves.mpr (.modify hg)

lemma assert [Decidable p] : Keeps π (assert p : Call σ ε Unit) :=
  Moves.assert (R := fun s s' => π s' = π s) (fun _ => rfl) p

lemma bind (hc : Keeps π c) (hf : ∀ a, Keeps π (f a)) : Keeps π (c >>= f) :=
  iff_moves.mpr (.bind (fun _ _ _ h h' => h'.trans h) hc hf)

lemma ite [Decidable p] (hc : Keeps π c) (hd : Keeps π d) :
    Keeps π (if p then c else d) :=
  iff_moves.mpr (.ite hc hd)

lemma attempt {ε' : Type} (hc : Keeps π c) : Keeps π (c.attempt : Call σ ε' (Except ε α)) := by
  intro s r s' h
  simp only [Call.attempt] at h
  rcases hrun : c.run s with _ | ⟨r', t⟩ <;> rw [hrun] at h <;> cases h
  exact hc s _ _ hrun

end Keeps

end Call

end LbBind.Lib

import Mathlib.Data.List.Range

/-! A loop `for (i = start; i <= stop; i += step)` with an unsigned counter of a given size. Its
body may end the loop with an error, and may not end itself. The counter wraps around, so the loop
need not end, and may come back to values below the first one. -/

namespace LbBind.Lib.CountLoop

open List Nat

variable {σ ε : Type*} (body : ℕ → σ → Option (Except ε σ)) (modulus stop step : ℕ)

structure Ended (ε : Type*) where
  error : Option ε
  processed : List ℕ

def loop : ℕ → ℕ → σ → List ℕ → Option (Ended ε)
  | 0, _, _, _ => none
  | rounds + 1, i, s, processed =>
    if stop < i then some ⟨none, processed⟩
    else
      match body i s with
      | none => none
      | some (.error e) => some ⟨some e, processed⟩
      | some (.ok s) => loop rounds ((i + step) % modulus) s (processed ++ [i])

inductive Steps : ℕ → ℕ → σ → ℕ → σ → Prop
  | zero {i : ℕ} {s : σ} : Steps 0 i s i s
  | succ {n i j : ℕ} {s s' t : σ} : i ≤ stop → body i s = some (.ok s') →
    Steps n ((i + step) % modulus) s' j t → Steps (n + 1) i s j t

def visited (n i : ℕ) : List ℕ := (List.range n).map fun k => (i + k * step) % modulus

def values (start : ℕ) : List ℕ :=
  (List.range ((stop - start) / step + 1)).map fun k => start + k * step

variable {body modulus stop step} {n i j : ℕ} {s t : σ} {processed : List ℕ} {e : Ended ε}

section
variable (hi : i < modulus)
include hi

lemma visited_succ :
    visited modulus step (n + 1) i = i :: visited modulus step n ((i + step) % modulus) := by
  rw [visited, range_succ_eq_map, map_cons, map_map, visited]
  congr 1
  · rw [Nat.zero_mul, Nat.add_zero, mod_eq_of_lt hi]
  · refine map_congr_left fun k _ => ?_
    rw [Function.comp_apply, mod_add_mod, succ_mul, Nat.add_assoc, Nat.add_comm (k * step)]

lemma Steps.counter (h : Steps body modulus stop step n i s j t) :
    j = (i + n * step) % modulus := by
  induction h with
  | zero => simp [mod_eq_of_lt hi]
  | @succ n i j s s' t _ _ _ ih =>
    rw [ih (mod_lt _ (by omega)), mod_add_mod, succ_mul, Nat.add_assoc,
      Nat.add_comm step]

lemma Steps.before {k : ℕ} (h : Steps body modulus stop step n i s j t) (hk : k < n) :
    (i + k * step) % modulus ≤ stop ∧ ∃ u u', body ((i + k * step) % modulus) u = some (.ok u') := by
  induction h generalizing k with
  | zero => omega
  | @succ n i j s s' t hle hbody _ ih =>
    cases k with
    | zero =>
      rw [Nat.zero_mul, Nat.add_zero, mod_eq_of_lt hi]
      exact ⟨hle, s, s', hbody⟩
    | succ k =>
      have hnext := ih (mod_lt _ (by omega)) (Nat.lt_of_succ_lt_succ hk)
      rwa [mod_add_mod, Nat.add_assoc, Nat.add_comm step, ← succ_mul] at hnext

lemma Steps.loop (h : Steps body modulus stop step n i s j t) (k : ℕ)
    (processed : List ℕ) : loop body modulus stop step (n + k) i s processed =
      CountLoop.loop body modulus stop step k j t (processed ++ visited modulus step n i) := by
  induction h generalizing processed with
  | zero => simp [visited]
  | @succ n i j s s' t hle hbody _ ih =>
    have hmod : (i + step) % modulus < modulus := mod_lt _ (by omega)
    rw [Nat.add_right_comm, CountLoop.loop, if_neg (not_lt.mpr hle), hbody]
    simp only
    rw [ih hmod, visited_succ hi, append_assoc, singleton_append]

lemma loop_eq_some (h : loop body modulus stop step n i s processed = some e) :
    ∃ k j t, Steps body modulus stop step k i s j t ∧
      (stop < j ∧ e = ⟨none, processed ++ visited modulus step k i⟩ ∨
        j ≤ stop ∧ ∃ r, body j t = some (.error r) ∧ e.error = some r) := by
  induction n generalizing i s processed with
  | zero => simp [loop] at h
  | succ n ih =>
    rw [loop] at h
    split_ifs at h with hlt
    · refine ⟨0, i, s, .zero, .inl ⟨hlt, ?_⟩⟩
      simpa [visited] using (Option.some.inj h).symm
    · split at h
      · cases h
      · next r hbody =>
        cases h
        exact ⟨0, i, s, .zero, .inr ⟨not_lt.mp hlt, r, hbody, rfl⟩⟩
      · next s' hbody =>
        obtain ⟨k, j, t, hsteps, hend⟩ := ih (mod_lt _ (by omega)) h
        refine ⟨k + 1, j, t, .succ (not_lt.mp hlt) hbody hsteps, ?_⟩
        rwa [visited_succ hi, append_cons]

end

variable {k j' : ℕ} {t' : σ}

section
variable (h : Steps body modulus stop step n i s j t)
include h

lemma Steps.ok_of_lt (h' : Steps body modulus stop step k i s j' t') (hlt : k < n) :
    ∃ u, body j' t' = some (.ok u) := by
  induction h' generalizing n with
  | zero =>
    cases h with
    | zero => omega
    | succ _ hbody _ => exact ⟨_, hbody⟩
  | succ _ hbody' _ ih =>
    cases h with
    | zero => omega
    | succ _ hbody hrest =>
      obtain rfl := Except.ok.inj (Option.some.inj (hbody.symm.trans hbody'))
      exact ih hrest (by omega)

lemma Steps.le_of_exceeds
    (h' : Steps body modulus stop step k i s j' t') (hj : stop < j) : k ≤ n := by
  induction h generalizing k with
  | zero =>
    cases h' with
    | zero => exact le_rfl
    | succ hle _ _ => omega
  | succ _ hbody _ ih =>
    cases h' with
    | zero => omega
    | succ _ hbody' hrest =>
      obtain rfl := Except.ok.inj (Option.some.inj (hbody.symm.trans hbody'))
      exact succ_le_succ (ih hrest hj)

lemma Steps.unique (h' : Steps body modulus stop step n i s j' t') : j = j' ∧ t = t' := by
  induction h with
  | zero =>
    cases h'
    exact ⟨rfl, rfl⟩
  | succ _ hbody _ ih =>
    cases h' with
    | succ _ hbody' hrest =>
      obtain rfl := Except.ok.inj (Option.some.inj (hbody.symm.trans hbody'))
      exact ih hrest

lemma Steps.snoc {u : σ} (hj : j ≤ stop) (hbody : body j t = some (.ok u)) :
    Steps body modulus stop step (n + 1) i s ((j + step) % modulus) u := by
  induction h with
  | zero => exact .succ hj hbody .zero
  | succ hle hfirst _ ih => exact .succ hle hfirst (ih hj hbody)

end

variable (body modulus stop step) in
def Fails (start : ℕ) (s : σ) : Prop :=
  ∃ n j t e, Steps body modulus stop step n start s j t ∧ j ≤ stop ∧ body j t = some (.error e)

variable {start : ℕ}

lemma fails_or_steps (hlt : start < modulus) (hle : ∀ m < n, (start + m * step) % modulus ≤ stop)
    (hends : ∀ m < n, ∀ u, body ((start + m * step) % modulus) u ≠ none) :
    Fails body modulus stop step start s ∨
      ∃ t, Steps body modulus stop step n start s ((start + n * step) % modulus) t := by
  induction n with
  | zero =>
    rw [Nat.zero_mul, Nat.add_zero, mod_eq_of_lt hlt]
    exact .inr ⟨s, .zero⟩
  | succ n ih =>
    rcases ih (fun m hm => hle m (hm.trans n.lt_succ_self)) fun m hm => hends m (hm.trans n.lt_succ_self)
      with hfails | ⟨t, ht⟩
    · exact .inl hfails
    · rcases hbody : body ((start + n * step) % modulus) t with _ | _ | u
      · exact absurd hbody (hends n n.lt_succ_self t)
      · exact .inl ⟨n, _, t, _, ht, hle n n.lt_succ_self, hbody⟩
      · have hnext := ht.snoc (hle n n.lt_succ_self) hbody
        rw [mod_add_mod, Nat.add_assoc, ← succ_mul] at hnext
        exact .inr ⟨u, hnext⟩

lemma visited_eq_values (h : start + ((stop - start) / step + 1) * step < modulus) :
    visited modulus step ((stop - start) / step + 1) start = values stop step start := by
  refine map_congr_left fun k hk => mod_eq_of_lt (lt_of_le_of_lt ?_ h)
  exact Nat.add_le_add_left (mul_le_mul_right _ (mem_range.mp hk).le) _

lemma le_stop_iff (hstart : start ≤ stop) (hstep : 0 < step) :
    start + k * step ≤ stop ↔ k < (stop - start) / step + 1 := by
  rw [Nat.lt_succ_iff, le_div_iff_mul_le hstep]
  omega

lemma exists_steps (hstart : start ≤ stop) (hstep : step ≠ 0)
    (hover : start + ((stop - start) / step + 1) * step < modulus)
    (hends : ∀ n j t, Steps body modulus stop step n start s j t → j ≤ stop → body j t ≠ none)
    (hfails : ¬Fails body modulus stop step start s) (hn : n ≤ (stop - start) / step + 1) :
    ∃ t, Steps body modulus stop step n start s (start + n * step) t := by
  induction n with
  | zero => exact ⟨s, by simpa using Steps.zero⟩
  | succ n ih =>
    obtain ⟨t, ht⟩ := ih (by omega)
    have hle := (le_stop_iff hstart (Nat.pos_of_ne_zero hstep)).mpr (lt_of_succ_le hn)
    cases hbody : body (start + n * step) t with
    | none => exact absurd hbody (hends _ _ _ ht hle)
    | some r =>
      cases r with
      | error e => exact absurd ⟨n, _, t, e, ht, hle, hbody⟩ hfails
      | ok u =>
        have hnext := ht.snoc hle hbody
        rw [mod_eq_of_lt (lt_of_le_of_lt ?_ hover), Nat.add_assoc, ← succ_mul] at hnext
        · exact ⟨u, hnext⟩
        · rw [Nat.add_assoc, ← succ_mul]
          exact Nat.add_le_add_left (mul_le_mul_right _ hn) _

lemma Steps.mem_values (h : Steps body modulus stop step n start s j t) (hj : j ≤ stop)
    (hstart : start ≤ stop) (hstep : step ≠ 0)
    (hover : start + ((stop - start) / step + 1) * step < modulus) : j ∈ values stop step start := by
  have hlt : start < modulus := lt_of_le_of_lt (Nat.le_add_right ..) hover
  have hexceeds := mt (le_stop_iff hstart (Nat.pos_of_ne_zero hstep)).mp
    (lt_irrefl ((stop - start) / step + 1))
  have hcounter := h.counter hlt
  -- the first value above the bound is not passed
  have hn : n < (stop - start) / step + 1 := by
    rcases lt_trichotomy n ((stop - start) / step + 1) with hn | rfl | hn
    · exact hn
    · rw [mod_eq_of_lt hover] at hcounter
      exact absurd (hcounter ▸ hj) hexceeds
    · have hpassed := (h.before hlt hn).1
      rw [mod_eq_of_lt hover] at hpassed
      exact absurd hpassed hexceeds
  rw [hcounter, mod_eq_of_lt (lt_of_le_of_lt ?_ hover)]
  · exact mem_map_of_mem (mem_range.mpr hn)
  · exact Nat.add_le_add_left (mul_le_mul_right _ hn.le) _

lemma loop_iff (hstart : start ≤ stop) (hstop : stop < modulus) (hmod : step < modulus) :
    (∃ rounds e, loop body modulus stop step rounds start s [] = some e ∧
        (e.error = none → e.processed = values stop step start)) ↔
      Fails body modulus stop step start s ∨
        step ≠ 0 ∧ start + ((stop - start) / step + 1) * step < modulus ∧
          ∀ n j t, Steps body modulus stop step n start s j t → j ≤ stop → body j t ≠ none := by
  have hlt : start < modulus := lt_of_le_of_lt hstart hstop
  constructor
  · rintro ⟨rounds, e, hloop, hvalues⟩
    obtain ⟨n, j, t, hsteps, ⟨hj, rfl⟩ | ⟨hj, r, hbody, -⟩⟩ := loop_eq_some hlt hloop
    · right
      have hvisited := hvalues rfl
      have hlen : n = (stop - start) / step + 1 := by
        simpa [visited, values] using congrArg length hvisited
      have hcounter := hsteps.counter hlt
      have hstep : step ≠ 0 := by
        rintro rfl
        rw [Nat.mul_zero, Nat.add_zero, mod_eq_of_lt hlt] at hcounter
        omega
      have hdiv : (stop - start) / step * step ≤ stop - start := div_mul_le_self _ _
      refine ⟨hstep, ?_, fun k j' t' h' hj' => ?_⟩
      · -- a counter that has wrapped around is below the bound
        by_contra hover
        rw [hlen] at hcounter
        rw [Nat.succ_mul] at hcounter hover
        have hmodulus : (start + ((stop - start) / step * step + step)) % modulus =
            start + ((stop - start) / step * step + step) - modulus := by
          rw [mod_eq_sub_mod (by omega), mod_eq_of_lt (by omega)]
        omega
      · rcases lt_or_ge k n with hk | hk
        · obtain ⟨u, hu⟩ := hsteps.ok_of_lt h' hk
          simp [hu]
        · obtain rfl : k = n := le_antisymm (hsteps.le_of_exceeds h' hj) hk
          obtain ⟨rfl, -⟩ := hsteps.unique h'
          omega
    · exact .inl ⟨n, j, t, r, hsteps, hj, hbody⟩
  · intro h
    by_cases hfails : Fails body modulus stop step start s
    · obtain ⟨n, j, t, e, hsteps, hj, hbody⟩ := hfails
      refine ⟨n + 1, ⟨some e, visited modulus step n start⟩, ?_, fun h => by cases h⟩
      rw [hsteps.loop hlt, loop, if_neg (not_lt.mpr hj), hbody, nil_append]
    · obtain ⟨hstep, hover, hends⟩ := h.resolve_left hfails
      obtain ⟨t, hsteps⟩ := exists_steps hstart hstep hover hends hfails le_rfl
      refine ⟨(stop - start) / step + 1 + 1,
        ⟨none, visited modulus step ((stop - start) / step + 1) start⟩, ?_, fun _ => ?_⟩
      · have hexceeds := mt (le_stop_iff hstart (Nat.pos_of_ne_zero hstep)).mp
          (lt_irrefl ((stop - start) / step + 1))
        rw [hsteps.loop hlt, loop, if_pos (not_le.mp hexceeds), nil_append]
      · exact visited_eq_values hover

end LbBind.Lib.CountLoop

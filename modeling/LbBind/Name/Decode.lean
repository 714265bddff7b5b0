import LbBind.Name.Fromwire

/-! Exactly which sources `dns_name_fromwire` accepts: a call succeeds on what can be read from the
offset on and fits, and on nothing else. -/

namespace LbBind

open Lib Label Except

namespace Fw

variable {base : Mem} {active nmax : ℕ} {global14 downcase : Bool}

lemma run_truncated (s : Fw) (hs : s.state = .ordinary) (hd : s.done = false) (hn : 0 < s.n)
    (ha : active < s.current + s.n) :
    ∃ t, s.run base active nmax global14 downcase = .ok t ∧ t.done = false := by
  induction hk : active - s.current generalizing s with
  | zero => exact ⟨s, run_end (by omega), hd⟩
  | succ k ih =>
    rw [run_step (by omega) hd (by simp only [step, hs]; rfl)]
    refine ih _ ?_ hd ?_ ?_ ?_
    · exact if_neg (by omega)
    · simp only
      omega
    · simp only
      omega
    · simp only
      omega

def labelAt (base : Mem) (p n : ℕ) (h : n ≤ 63) : Label := ⟨base.slice p n, by simpa using h⟩

lemma labelAt_ne_root {p n : ℕ} {h : n ≤ 63} (hn : n ≠ 0) : labelAt base p n h ≠ root := by
  intro heq
  have := congrArg (fun l : Label => l.1.length) heq
  simp [labelAt, root] at this
  exact hn this

def Fails (base : Mem) (active nmax : ℕ) (global14 downcase : Bool) (s : Fw) : Prop :=
  ∀ t, s.run base active nmax global14 downcase = .ok t → t.done = false

variable {s t : Fw}

lemma fails_of_error {r : Result} (hlt : s.current < active) (hd : s.done = false)
    (h : s.step base nmax global14 downcase = .error r) :
    Fails base active nmax global14 downcase s := by
  intro t hrun
  rw [run_error hlt hd h] at hrun
  cases hrun

lemma fails_of_ok {u : Fw} (h : s.run base active nmax global14 downcase = .ok u)
    (hu : u.done = false) : Fails base active nmax global14 downcase s := by
  intro t hrun
  rw [h] at hrun
  exact ok.inj hrun ▸ hu

lemma fails_of_step {u : Fw} (hlt : s.current < active) (hd : s.done = false)
    (h : s.step base nmax global14 downcase = .ok u) (hu : Fails base active nmax global14 downcase u) :
    Fails base active nmax global14 downcase s := by
  intro t hrun
  rw [run_step hlt hd h] at hrun
  exact hu t hrun

lemma label_cases (s : Fw) (hs : s.state = .start) (hd : s.done = false) (hlt : s.current < active)
    (hc : (base s.current).toNat < 64) :
    Fails base active nmax global14 downcase s ∨ (base s.current = 0 ∧ s.nused + 1 ≤ nmax) ∨
      ∃ l : Label, l ≠ root ∧ s.current + l.bytes.length ≤ active ∧
        base.slice s.current l.bytes.length = l.bytes ∧ s.nused + l.bytes.length ≤ nmax := by
  by_cases hfull : s.nused + (base s.current).toNat + 1 > nmax
  · refine .inl (fails_of_error hlt hd (r := full nmax) ?_)
    simp only [step, hs, hc, hfull, if_true]
  by_cases hzero : base s.current = 0
  · exact .inr (.inl ⟨hzero, by simpa [hzero] using hfull⟩)
  have hpos : (base s.current).toNat ≠ 0 := fun h => hzero (UInt8.toNat_inj.mp h)
  by_cases hfits : s.current + 1 + (base s.current).toNat ≤ active
  · have hle : (base s.current).toNat ≤ 63 := by omega
    have hlen : (labelAt base (s.current + 1) _ hle).bytes.length = (base s.current).toNat + 1 := by
      simp [labelAt]
    refine .inr (.inr ⟨labelAt base (s.current + 1) _ hle, labelAt_ne_root hpos, ?_, ?_, ?_⟩)
    · omega
    · rw [hlen, Mem.slice_succ]
      simp [labelAt, bytes]
    · omega
  · -- the label runs past the end
    let u : Fw := { s with
      current := s.current + 1, cused := s.consume 1, offsets := s.offsets ++ [s.nused]
      nused := s.nused + (base s.current).toNat + 1, ndata := s.ndata ++ [base s.current]
      done := false, n := (base s.current).toNat, state := .ordinary }
    have hstep : s.step base nmax global14 downcase = .ok u := by
      simp only [step, hs, hc, if_true, if_neg hfull]
      simp [hzero, consume, u]
    obtain ⟨t, hrun, ht⟩ : ∃ t, u.run base active nmax global14 downcase = .ok t ∧ t.done = false :=
      run_truncated u rfl rfl (Nat.pos_of_ne_zero hpos) (by simp only [u]; omega)
    exact .inl (fails_of_step hlt hd hstep (fails_of_ok hrun ht))

lemma pointer_cases (s : Fw) (hs : s.state = .start) (hd : s.done = false)
    (hlt : s.current < active) (hc : ¬(base s.current).toNat < 64) :
    Fails base active nmax global14 downcase s ∨ (global14 ∧ ∃ q, q < 0x4000 ∧
      base.rd16 s.current = 0xc000 + q ∧ s.current + 2 ≤ active ∧ q < s.biggestPointer) := by
  by_cases hptr : 192 ≤ (base s.current).toNat
  swap
  · refine .inl (fails_of_error hlt hd (r := .badLabelType) ?_)
    simp only [step, hs, hc, if_false, hptr]
    split_ifs <;> rfl
  have hlow : ¬(128 ≤ (base s.current).toNat ∧ (base s.current).toNat < 192) := by omega
  cases hg : global14 with
  | false =>
    refine .inl (fails_of_error hlt hd (r := .disallowed) ?_)
    simp only [step, hs, hc, if_false, hlow, hptr, if_true, Bool.false_eq_true]
  | true =>
    have hstep : s.step base nmax true downcase = .ok { s with
        current := s.current + 1, cused := s.consume 1
        newCurrent := (base s.current).toNat % 64, n := 1, state := .newcurrent } := by
      simp only [step, hs, hc, if_false, hlow, hptr, if_true]
      rfl
    by_cases hend : s.current + 2 ≤ active
    · by_cases hq : (base s.current).toNat % 64 * 256 + (base (s.current + 1)).toNat <
          s.biggestPointer
      · have hb := (base (s.current + 1)).toNat_lt
        have ha := (base s.current).toNat_lt
        refine .inr ⟨rfl, _, ?_, ?_, hend, hq⟩
        · omega
        · rw [Mem.rd16]
          omega
      · refine .inl (fails_of_step hlt hd hstep
          (fails_of_error (r := .badPointer) (by simp only; omega) hd ?_))
        simp only [step]
        exact if_pos (not_lt.mp hq)
    · exact .inl (fails_of_step hlt hd hstep (fails_of_ok (run_end (by simp only; omega)) hd))

lemma reads_of_run (s : Fw) (hs : s.state = .start) (hd : s.done = false)
    (hrun : s.run base active nmax global14 downcase = .ok t) (ht : t.done) :
    ∃ ls k, Reads base active global14 s.current s.biggestPointer ls k ∧
      s.nused + (wireOf ls).length ≤ nmax := by
  have hfails : ¬Fails base active nmax global14 downcase s := by
    intro h
    rw [h t hrun] at ht
    exact Bool.false_ne_true ht
  by_cases hlt : s.current < active
  swap
  · exact absurd (fails_of_ok (run_end (by omega)) hd) hfails
  by_cases hc : (base s.current).toNat < 64
  · rcases (label_cases s hs hd hlt hc).resolve_left hfails with ⟨hzero, hroom⟩ | ⟨l, hne, hp, h, hn⟩
    · exact ⟨[root], 1, .root hlt hzero, by simpa [bytes, root] using hroom⟩
    · rw [run_label downcase l s hne hs hd h hp hn] at hrun
      obtain ⟨ls, k, hreads, hroom⟩ := reads_of_run _ (by exact hs) (by exact hd) hrun ht
      refine ⟨l :: ls, _, .label l hne hp h hreads, ?_⟩
      simp only at hroom
      simp only [wireOf_cons, List.length_append]
      omega
  · obtain ⟨hg, q, hq, h, hp, hlt'⟩ := (pointer_cases s hs hd hlt hc).resolve_left hfails
    have hjump := hrun
    rw [hg, run_pointer s hs hd hq h hp hlt', ← hg] at hjump
    obtain ⟨ls, k, hreads, hroom⟩ := reads_of_run _ (by exact hs) (by exact hd) hjump ht
    exact ⟨ls, 2, .pointer hg hp hq h hlt' hreads, hroom⟩
termination_by (s.biggestPointer, active - s.current)
decreasing_by
  · refine Prod.Lex.right _ ?_
    simp only [length_bytes]
    omega
  · exact Prod.Lex.left _ _ hlt'

def Round (base : Mem) (active nmax : ℕ) (global14 downcase : Bool) (s t : Fw) : Prop :=
  s.current < active ∧ s.done = false ∧ s.step base nmax global14 downcase = .ok t

/-- Every label before the current one takes two bytes at least. -/
structure Counted (nmax : ℕ) (s : Fw) : Prop where
  room : s.nused ≤ nmax
  labels : s.done = false → 2 * s.offsets.length ≤ s.nused

lemma Counted.step (h : s.Counted nmax) (hd : s.done = false)
    (hs : s.step base nmax global14 downcase = .ok t) : t.Counted nmax := by
  have hroom := h.room
  have hlabels := h.labels hd
  have hkeep : ∀ u : Fw, u.nused = s.nused → u.offsets = s.offsets → u.Counted nmax := by
    intro u hu ho
    exact ⟨hu ▸ hroom, fun _ => hu ▸ ho ▸ hlabels⟩
  unfold Fw.step at hs
  cases hst : s.state with
  | start =>
    simp only [hst] at hs
    by_cases hc : (base s.current).toNat < 64
    · by_cases hfull : s.nused + (base s.current).toNat + 1 > nmax
      · simp [hc, hfull] at hs
      · simp only [hc, if_true, hfull, if_false, ok.injEq] at hs
        subst hs
        refine ⟨by simp only; omega, fun hdone => ?_⟩
        have hpos : (base s.current).toNat ≠ 0 := fun h =>
          (beq_eq_false_iff_ne.mp hdone) (UInt8.toNat_inj.mp h)
        simp only [List.length_append, List.length_singleton]
        omega
    · simp only [hc, if_false] at hs
      split_ifs at hs <;> cases hs <;> exact hkeep _ rfl rfl
  | ordinary =>
    simp only [hst] at hs
    cases hs
    exact hkeep _ rfl rfl
  | newcurrent =>
    simp only [hst] at hs
    by_cases hq : s.newCurrent * 256 + (base s.current).toNat ≥ s.biggestPointer
    · simp [hq] at hs
    · simp only [hq, if_false, ok.injEq] at hs
      exact hkeep _ (hs ▸ rfl) (hs ▸ rfl)

lemma offsets_lt (hn : nmax ≤ 255) (hs : s.Counted nmax)
    (h : Relation.ReflTransGen (Round base active nmax global14 downcase) s t)
    (hd : t.done = false) : t.offsets.length ≤ 127 := by
  have ht : t.Counted nmax := by
    induction h with
    | refl => exact hs
    | tail _ hround ih => exact (ih hround.2.1).step hround.2.1 hround.2.2
  have := ht.room
  have := ht.labels hd
  omega

end Fw

structure FromwireState where
  ndata : List UInt8
  labels : ℕ
  absolute : Bool
  current : ℕ
  used : ℕ
  deriving DecidableEq

/-- `dns_name_fromwire` into a target buffer of `length` bytes. -/
def nameFromwire (base : Mem) (active : ℕ) (global14 downcase : Bool) (length : ℕ)
    (s : FromwireState) : Result × FromwireState :=
  match fromwire base active global14 downcase s.current (length - s.used) with
  | .error r => (r, { s with ndata := [], labels := 0, absolute := false })
  | .ok d => (.success,
      { ndata := d.name.ndata
        labels := d.name.labels
        absolute := true
        current := s.current + d.cused
        used := s.used + d.name.ndata.length })

variable {base : Mem} {active : ℕ} {global14 downcase : Bool} {p available : ℕ}

lemma Reads.unique {bound k k' : ℕ} {ls ls' : List Label}
    (h : Reads base active global14 p bound ls k) (h' : Reads base active global14 p bound ls' k') :
    ls = ls' ∧ k = k' := by
  let s : Fw := ⟨.start, p, bound, 0, 0, 0, 0, [], [], false, false⟩
  have hread : ∀ {ms j}, Reads base active global14 p bound ms j →
      (wireOf ms).length ≤ max (wireOf ls).length (wireOf ls').length →
      ∃ t, s.run base active (max (wireOf ls).length (wireOf ls').length) global14 false = .ok t ∧
        t.ndata = wireOf ms ∧ t.cused = j := by
    intro ms j hms hroom
    obtain ⟨t, hrun, -, hdata, -, hused⟩ := Fw.run_reads
      (max (wireOf ls).length (wireOf ls').length) false hms s rfl rfl rfl rfl (by rwa [Nat.zero_add])
    rw [map_read_false] at hdata
    exact ⟨t, hrun, hdata, by simpa [s, Fw.consume] using hused⟩
  obtain ⟨t, hrun, hdata, hused⟩ := hread h (le_max_left _ _)
  obtain ⟨t', hrun', hdata', hused'⟩ := hread h' (le_max_right _ _)
  rw [hrun] at hrun'
  cases hrun'
  exact ⟨wireOf_injective (hdata.symm.trans hdata'), hused.symm.trans hused'⟩

lemma length_wireOf_read (downcase : Bool) (ls : List Label) :
    (wireOf (ls.map (read downcase))).length = (wireOf ls).length := by
  induction ls with
  | nil => rfl
  | cons l ls ih => simp [ih, bytes_read, Nat.add_right_comm]

lemma reads_of_fromwire {d : Decoded}
    (h : fromwire base active global14 downcase p available = .ok d) :
    ∃ ls k, Reads base active global14 p p ls k ∧ (wireOf ls).length ≤ min available 255 := by
  unfold fromwire at h
  split at h
  · cases h
  · next s hs =>
    split_ifs at h with hdone
    obtain ⟨ls, k, hreads, hroom⟩ := Fw.reads_of_run (Fw.initial p) rfl rfl hs hdone
    exact ⟨ls, k, hreads, by simpa [Fw.initial] using hroom⟩

lemma Fw.step_ne_success {nmax : ℕ} (s : Fw) :
    s.step base nmax global14 downcase ≠ .error .success := by
  intro h
  unfold step at h
  cases hst : s.state <;> simp only [hst] at h <;> split_ifs at h <;> simp [full] at h
  split_ifs at h

lemma fromwire_error_ne_success {r : Result}
    (h : fromwire base active global14 downcase p available = .error r) : r ≠ .success := by
  have hrun : ∀ s : Fw, s.run base active (min available 255) global14 downcase ≠ .error .success := by
    intro s
    induction s using Fw.run.induct base active (min available 255) global14 downcase with
    | case1 s hlt r hr =>
      rw [Fw.run_error hlt.1 hlt.2 hr]
      exact fun h => Fw.step_ne_success s (hr.trans h)
    | case2 s hlt t ht ih =>
      rw [Fw.run_step hlt.1 hlt.2 ht]
      exact ih
    | case3 s hlt => simp [Fw.run_end hlt]
  rintro rfl
  unfold fromwire at h
  split at h
  · next heq => exact hrun _ (heq.trans (by rw [error.inj h]))
  · split_ifs at h
    cases h

/-- What a call does: it succeeds on what can be read and fits, and returns the labels and the bytes
used up; else it leaves an empty name and both buffers as they were. -/
structure ReadsExactly (base : Mem) (active : ℕ) (global14 downcase : Bool) (length : ℕ)
    (s t : FromwireState) (r : Result) : Prop where
  success : r = .success ↔ ∃ ls k, Reads base active global14 s.current s.current ls k ∧
    (wireOf ls).length ≤ min (length - s.used) 255
  name : ∀ ls k, r = .success → Reads base active global14 s.current s.current ls k →
    t = ⟨wireOf (ls.map (read downcase)), ls.length, true, s.current + k,
      s.used + (wireOf ls).length⟩
  failure : r ≠ .success → t = ⟨[], 0, false, s.current, s.used⟩

theorem nameFromwire_exact (base : Mem) (active : ℕ) (global14 downcase : Bool) (length : ℕ)
    (s : FromwireState) : ReadsExactly base active global14 downcase length s
        (nameFromwire base active global14 downcase length s).2
        (nameFromwire base active global14 downcase length s).1 ∧
      ∀ t, Relation.ReflTransGen
          (Fw.Round base active (min (length - s.used) 255) global14 downcase)
          (Fw.initial s.current) t → t.done = false → t.offsets.length ≤ 127 := by
  refine ⟨?_, fun t ht hd => ?_⟩
  · rw [nameFromwire]
    cases h : fromwire base active global14 downcase s.current (length - s.used) with
    | error r =>
      have hr := fromwire_error_ne_success h
      refine ⟨⟨fun hs => absurd hs hr, ?_⟩, fun _ _ hs => absurd hs hr, fun _ => rfl⟩
      rintro ⟨ls, k, hreads, hroom⟩
      rw [fromwire_of_reads hreads hroom] at h
      cases h
    | ok d =>
      obtain ⟨ls, k, hreads, hroom⟩ := reads_of_fromwire h
      refine ⟨⟨fun _ => ⟨ls, k, hreads, hroom⟩, fun _ => rfl⟩, ?_, fun hs => absurd rfl hs⟩
      intro ls' k' _ hreads'
      obtain ⟨rfl, rfl⟩ := hreads.unique hreads'
      rw [fromwire_of_reads hreads hroom] at h
      cases h
      simp [wire, length_wireOf_read]
  · exact Fw.offsets_lt (min_le_right _ _) ⟨by simp [Fw.initial], by simp [Fw.initial]⟩ ht hd

end LbBind

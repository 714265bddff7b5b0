import Mathlib.Order.BooleanAlgebra.Set
import Mathlib.Data.List.Nodup

/-! Logs of changes to a set of which some elements exclude each other. A change adds an element
that is not there, if nothing that is there excludes it, or takes away one that is there. If a
change that undoes an earlier one takes that one out of the log, the rest of the log still leads to
the same set. -/

namespace LbBind.Lib

open List Set

structure Changes (τ R : Type*) where
  adds : τ → Bool
  item : τ → R
  conflict : R → R → Prop
  symm : ∀ r r', conflict r r' → conflict r' r

namespace Changes

variable {τ R : Type*} (C : Changes τ R)

def Ok (t : τ) (S : Set R) : Prop :=
  if C.adds t then C.item t ∉ S ∧ ∀ r ∈ S, ¬C.conflict r (C.item t) else C.item t ∈ S

def after (t : τ) (S : Set R) : Set R := if C.adds t then insert (C.item t) S else S \ {C.item t}

def Run : List τ → Set R → Set R → Prop
  | [], S, E => E = S
  | t :: ts, S, E => C.Ok t S ∧ Run ts (C.after t S) E

def Free (S : Set R) : Prop := ∀ r ∈ S, ∀ r' ∈ S, r ≠ r' → ¬C.conflict r r'

variable {C} {t o : τ} {ts us vs : List τ} {S E T : Set R} {r : R}

lemma ok_add (h : C.adds t) : C.Ok t S ↔ C.item t ∉ S ∧ ∀ r ∈ S, ¬C.conflict r (C.item t) := by
  rw [Ok, if_pos h]

lemma ok_del (h : C.adds t = false) : C.Ok t S ↔ C.item t ∈ S := by
  rw [Ok, if_neg (by simp [h])]

lemma after_add (h : C.adds t) : C.after t S = insert (C.item t) S := if_pos h

lemma after_del (h : C.adds t = false) : C.after t S = S \ {C.item t} := if_neg (by simp [h])

lemma run_append : C.Run (us ++ vs) S E ↔ ∃ T, C.Run us S T ∧ C.Run vs T E := by
  induction us generalizing S with
  | nil => exact ⟨fun h => ⟨S, rfl, h⟩, fun ⟨T, hT, h⟩ => hT ▸ h⟩
  | cons t us ih =>
    simp only [cons_append, Run, ih]
    exact ⟨fun ⟨hok, T, hus, hvs⟩ => ⟨T, ⟨hok, hus⟩, hvs⟩, fun ⟨T, ⟨hok, hus⟩, hvs⟩ => ⟨hok, T, hus, hvs⟩⟩

lemma run_snoc : C.Run (ts ++ [t]) S E ↔ ∃ T, C.Run ts S T ∧ C.Ok t T ∧ E = C.after t T := by
  simp [run_append, Run]

lemma mem_after_of_ne (h : r ≠ C.item t) : r ∈ C.after t S ↔ r ∈ S := by
  rw [after]
  split_ifs
  · simp [h]
  · simp [h]

lemma mem_of_run (hrun : C.Run ts S E) (h : r ∉ ts.map C.item) : r ∈ E ↔ r ∈ S := by
  induction ts generalizing S with
  | nil =>
    rw [hrun]
  | cons t ts ih =>
    simp only [map_cons, mem_cons, not_or] at h
    exact (ih hrun.2 h.2).trans (mem_after_of_ne h.1)

lemma mem_of_run_add (hrun : C.Run ts S E) (hnodup : (ts.map C.item).Nodup) (ht : t ∈ ts)
    (hadd : C.adds t) : C.item t ∈ E := by
  induction ts generalizing S with
  | nil => cases ht
  | cons u ts ih =>
    obtain ⟨hu, hnodup⟩ := nodup_cons.mp hnodup
    rcases mem_cons.mp ht with rfl | hmem
    · rw [mem_of_run hrun.2 hu, after_add hadd]
      exact mem_insert _ _
    · exact ih hrun.2 hnodup hmem

lemma Free.after (hfree : C.Free S) (hok : C.Ok t S) : C.Free (C.after t S) := by
  cases hadd : C.adds t with
  | true =>
    rw [after_add hadd]
    have hnew := ((ok_add hadd).mp hok).2
    rintro r (rfl | hr) r' (rfl | hr') hne
    · exact absurd rfl hne
    · exact fun h => hnew r' hr' (C.symm _ _ h)
    · exact hnew r hr
    · exact hfree r hr r' hr' hne
  | false =>
    rw [after_del hadd]
    exact fun r hr r' hr' => hfree r hr.1 r' hr'.1

lemma Free.run (hfree : C.Free S) (hrun : C.Run ts S E) : C.Free E := by
  induction ts generalizing S with
  | nil =>
    rw [hrun]
    exact hfree
  | cons t ts ih => exact ih (hfree.after hrun.1) hrun.2

section
variable (hrun : C.Run ts S E)
include hrun

lemma Run.subset {U : Set R} (hS : S ⊆ U) (hadd : ∀ t ∈ ts, C.adds t → C.item t ∈ U) : E ⊆ U := by
  induction ts generalizing S with
  | nil =>
    rw [hrun]
    exact hS
  | cons t ts ih =>
    refine ih hrun.2 (fun r hr => ?_) fun u hu => hadd u (.tail _ hu)
    by_cases hr' : r = C.item t
    · cases ht : C.adds t with
      | true => exact hr' ▸ hadd t (.head _) ht
      | false =>
        rw [after_del ht] at hr
        exact absurd hr' hr.2
    · exact hS ((mem_after_of_ne hr').mp hr)

lemma Run.adds (hadd : ∀ t ∈ ts, C.adds t) : (ts.map C.item).Nodup ∧ (∀ t ∈ ts, C.item t ∉ S) ∧
      ∀ r, r ∈ E ↔ r ∈ S ∨ r ∈ ts.map C.item := by
  induction ts generalizing S with
  | nil => simp [show E = S from hrun]
  | cons t ts ih =>
    obtain ⟨hnodup, hnew, hmem⟩ := ih hrun.2 fun u hu => hadd u (.tail _ hu)
    have hok := (ok_add (hadd t (.head _))).mp hrun.1
    rw [after_add (hadd t (.head _))] at hnew hmem
    refine ⟨nodup_cons.mpr ⟨fun ht => ?_, hnodup⟩, fun u hu => ?_, fun r => ?_⟩
    · obtain ⟨u, hu, heq⟩ := mem_map.mp ht
      exact hnew u hu (heq ▸ mem_insert _ _)
    · rcases mem_cons.mp hu with rfl | hu
      · exact hok.1
      · exact fun hS => hnew u hu (mem_insert_of_mem _ hS)
    · rw [hmem, map_cons, mem_cons, mem_insert_iff]
      tauto

lemma Run.dels (hdel : ∀ t ∈ ts, C.adds t = false) :
    (ts.map C.item).Nodup ∧ (∀ t ∈ ts, C.item t ∈ S) ∧ ∀ r, r ∈ E ↔ r ∈ S ∧ r ∉ ts.map C.item := by
  induction ts generalizing S with
  | nil => simp [show E = S from hrun]
  | cons t ts ih =>
    obtain ⟨hnodup, hold, hmem⟩ := ih hrun.2 fun u hu => hdel u (.tail _ hu)
    have hok := (ok_del (hdel t (.head _))).mp hrun.1
    rw [after_del (hdel t (.head _))] at hold hmem
    refine ⟨nodup_cons.mpr ⟨fun ht => ?_, hnodup⟩, fun u hu => ?_, fun r => ?_⟩
    · obtain ⟨u, hu, heq⟩ := mem_map.mp ht
      exact (hold u hu).2 heq
    · rcases mem_cons.mp hu with rfl | hu
      · exact hok
      · exact (hold u hu).1
    · rw [hmem, map_cons, mem_cons, mem_sdiff, mem_singleton_iff]
      tauto

lemma Run.without (h : r ∉ ts.map C.item) : C.Run ts (S \ {r}) (E \ {r}) := by
  induction ts generalizing S with
  | nil =>
    rw [hrun]
    rfl
  | cons t ts ih =>
    simp only [map_cons, mem_cons, not_or] at h
    have hrest := ih hrun.2 h.2
    have hok := hrun.1
    cases hadd : C.adds t with
    | true =>
      rw [ok_add hadd] at hok
      rw [after_add hadd] at hrest
      refine ⟨(ok_add hadd).mpr ⟨fun hmem => hok.1 hmem.1, fun x hx => hok.2 x hx.1⟩, ?_⟩
      have hne : C.item t ∉ ({r} : Set R) := Ne.symm h.1
      rw [after_add hadd, ← insert_sdiff_of_notMem S hne]
      exact hrest
    | false =>
      rw [ok_del hadd] at hok
      rw [after_del hadd, sdiff_sdiff_comm] at hrest
      refine ⟨(ok_del hadd).mpr ⟨hok, Ne.symm h.1⟩, ?_⟩
      rw [after_del hadd]
      exact hrest

/-- With another element that nothing at the end excludes, a log without repetitions still runs:
what it adds is there at the end. -/
lemma Run.with (hnodup : (ts.map C.item).Nodup) (h : r ∉ ts.map C.item)
    (hend : ∀ x ∈ E, ¬C.conflict x r) : C.Run ts (insert r S) (insert r E) := by
  induction ts generalizing S with
  | nil =>
    rw [hrun]
    rfl
  | cons t ts ih =>
    obtain ⟨ht, hnodup⟩ := nodup_cons.mp hnodup
    simp only [map_cons, mem_cons, not_or] at h
    have hrest := ih hrun.2 hnodup h.2
    have hok := hrun.1
    cases hadd : C.adds t with
    | true =>
      rw [ok_add hadd] at hok
      have hstays : C.item t ∈ E := by
        rw [mem_of_run hrun.2 ht, after_add hadd]
        exact mem_insert _ _
      refine ⟨(ok_add hadd).mpr ⟨?_, ?_⟩, ?_⟩
      · rintro (heq | hmem)
        · exact h.1 heq.symm
        · exact hok.1 hmem
      · rintro x (rfl | hx)
        · exact fun hconflict => hend _ hstays (C.symm _ _ hconflict)
        · exact hok.2 x hx
      · rw [after_add hadd] at hrest ⊢
        rw [insert_comm]
        exact hrest
    | false =>
      rw [ok_del hadd] at hok
      refine ⟨(ok_del hadd).mpr (mem_insert_of_mem r hok), ?_⟩
      rw [after_del hadd] at hrest ⊢
      have hne : r ∉ ({C.item t} : Set R) := h.1
      rw [insert_sdiff_of_notMem S hne]
      exact hrest

end

/-- A change to an element that the log has changed undoes that change, and the log without it
leads to the new set. -/
lemma run_cancel (hrun : C.Run (us ++ o :: vs) S T) (hnodup : ((us ++ o :: vs).map C.item).Nodup)
    (hok : C.Ok t T) (hitem : C.item o = C.item t) :
    C.adds o ≠ C.adds t ∧ C.Run (us ++ vs) S (C.after t T) := by
  obtain ⟨X, hus, ho, hvs⟩ := run_append.mp hrun
  rw [map_append, map_cons] at hnodup
  obtain ⟨-, hnodup, -⟩ := nodup_append.mp hnodup
  obtain ⟨hnew, hnodup⟩ := nodup_cons.mp hnodup
  rw [hitem] at hnew
  have hlast := mem_of_run hvs hnew
  cases hadd : C.adds o with
  | true =>
    rw [after_add hadd, hitem] at hvs hlast
    have hmem : C.item t ∈ T := hlast.mpr (mem_insert _ _)
    have ht : C.adds t = false := by
      by_contra h
      exact ((ok_add (by simpa using h)).mp hok).1 hmem
    have hX : C.item t ∉ X := hitem ▸ ((ok_add hadd).mp ho).1
    refine ⟨by simp [ht], run_append.mpr ⟨X, hus, ?_⟩⟩
    have hwithout := hvs.without hnew
    rwa [insert_sdiff_self_of_notMem hX, ← after_del ht] at hwithout
  | false =>
    rw [after_del hadd, hitem] at hvs hlast
    have hmem : C.item t ∉ T := fun h => (hlast.mp h).2 rfl
    have ht : C.adds t := by
      by_contra h
      exact hmem ((ok_del (by simpa using h)).mp hok)
    have hX : C.item t ∈ X := hitem ▸ (ok_del hadd).mp ho
    refine ⟨by simp [ht], run_append.mpr ⟨X, hus, ?_⟩⟩
    have hwith := hvs.with hnodup hnew ((ok_add ht).mp hok).2
    rwa [insert_sdiff_self_of_mem hX, ← after_add ht] at hwith

lemma run_dels (hdel : ∀ t ∈ ts, C.adds t = false) (hnodup : (ts.map C.item).Nodup)
    (hmem : ∀ t ∈ ts, C.item t ∈ S) : C.Run ts S (S \ {r | r ∈ ts.map C.item}) := by
  induction ts generalizing S with
  | nil => simp [Run]
  | cons t ts ih =>
    obtain ⟨ht, hnodup⟩ := nodup_cons.mp hnodup
    have hadd := hdel t (.head _)
    refine ⟨(ok_del hadd).mpr (hmem t (.head _)), ?_⟩
    have hrest := ih (S := C.after t S) (fun u hu => hdel u (.tail _ hu)) hnodup
      fun u hu => by
        rw [mem_after_of_ne fun heq => ht (heq ▸ mem_map_of_mem hu)]
        exact hmem u (.tail _ hu)
    convert hrest using 1
    rw [after_del hadd]
    ext r
    simp only [map_cons, mem_cons, mem_sdiff, mem_ofPred_eq, mem_singleton_iff, not_or, and_assoc]

lemma run_adds (hadds : ∀ t ∈ ts, C.adds t) (hnodup : (ts.map C.item).Nodup)
    (hnew : ∀ t ∈ ts, C.item t ∉ S) (hfree : C.Free (S ∪ {r | r ∈ ts.map C.item})) :
    C.Run ts S (S ∪ {r | r ∈ ts.map C.item}) := by
  induction ts generalizing S with
  | nil => simp [Run]
  | cons t ts ih =>
    obtain ⟨ht, hnodup⟩ := nodup_cons.mp hnodup
    have hadd := hadds t (.head _)
    have hunion : S ∪ {r | r ∈ (t :: ts).map C.item} = C.after t S ∪ {r | r ∈ ts.map C.item} := by
      rw [after_add hadd]
      ext r
      simp only [map_cons, mem_cons, mem_union, mem_ofPred_eq, mem_insert_iff]
      tauto
    have hnotMem := hnew t (.head _)
    refine ⟨(ok_add hadd).mpr ⟨hnotMem, fun r hr => ?_⟩, ?_⟩
    · refine hfree r (.inl hr) _ (.inr (by simp)) fun heq => hnotMem (heq ▸ hr)
    · rw [hunion] at hfree ⊢
      refine ih (fun u hu => hadds u (.tail _ hu)) hnodup (fun u hu => ?_) hfree
      rw [mem_after_of_ne fun heq => ht (heq ▸ mem_map_of_mem hu)]
      exact hnew u (.tail _ hu)

/-- An addition comes as well after deletions of other elements. -/
lemma Run.add_past (hdel : ∀ u ∈ us, C.adds u = false) (hadd : C.adds t)
    (hne : C.item t ∉ us.map C.item) (hok : C.Ok t S) (hrun : C.Run us (C.after t S) E) :
    ∃ T, C.Run us S T ∧ C.Ok t T ∧ E = C.after t T := by
  obtain ⟨hnew, hfree⟩ := (ok_add hadd).mp hok
  have hmem := (hrun.dels hdel).2.2
  have hwithout := hrun.without hne
  rw [after_add hadd] at hwithout hmem
  rw [insert_sdiff_self_of_notMem hnew] at hwithout
  refine ⟨_, hwithout, (ok_add hadd).mpr ⟨fun h => h.2 rfl, fun r hr => ?_⟩, ?_⟩
  · exact hfree r (((hmem r).mp hr.1).1.resolve_left hr.2)
  · rw [after_add hadd, insert_sdiff_singleton, insert_eq_of_mem]
    exact (hmem _).mpr ⟨mem_insert _ _, hne⟩

lemma Run.dels_first (hrun : C.Run ts S E) (hnodup : (ts.map C.item).Nodup) :
    C.Run (ts.filter (!C.adds ·) ++ ts.filter (C.adds ·)) S E := by
  induction ts generalizing S with
  | nil => exact hrun
  | cons t ts ih =>
    obtain ⟨hnew, hnodup⟩ := nodup_cons.mp hnodup
    have hrest := ih hrun.2 hnodup
    cases hadd : C.adds t with
    | false => simpa [hadd] using ⟨hrun.1, hrest⟩
    | true =>
      obtain ⟨T, hdels, hadds⟩ := run_append.mp hrest
      have hne : C.item t ∉ (ts.filter (!C.adds ·)).map C.item := fun h =>
        hnew (map_subset _ (filter_subset_self ts) h)
      obtain ⟨X, hX, hok, rfl⟩ := Run.add_past (fun u hu => by simpa using (mem_filter.mp hu).2)
        hadd hne hrun.1 hdels
      rw [filter_cons_of_neg (by simp [hadd]), filter_cons_of_pos hadd]
      exact run_append.mpr ⟨X, hX, hok, hadds⟩

end Changes

end LbBind.Lib

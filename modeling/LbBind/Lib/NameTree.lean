import Mathlib.Data.List.Lex
import Mathlib.Data.List.Infix
import Mathlib.Data.Set.Basic

/-! Trees of names in lexicographic order. A name is a list, the part next to the root first, so the
names above another one are its prefixes and those below it stand together in the order. Cuts hide
what is below them; the place of a name between two neighbours of the chain of the other names says
whether it exists. -/

namespace LbBind.Lib

open List

variable {α : Type*} [LinearOrder α] {p a b c x : List α}

lemma cons_le_cons_iff {x y : α} : x :: a ≤ y :: b ↔ x < y ∨ x = y ∧ a ≤ b := by
  simp only [le_iff_lt_or_eq, cons_lt_cons_iff, List.cons.injEq]
  tauto

lemma le_of_isPrefix (h : p <+: a) : p ≤ a := by
  induction p generalizing a with
  | nil => cases a <;> simp [le_iff_lt_or_eq]
  | cons x p ih =>
    cases a with
    | nil => simp at h
    | cons y a =>
      obtain ⟨rfl, htail⟩ := cons_prefix_cons.mp h
      exact cons_le_cons_iff.mpr (.inr ⟨rfl, ih htail⟩)

lemma lt_of_isPrefix (h : p <+: a) (hne : p ≠ a) : p < a := lt_of_le_of_ne (le_of_isPrefix h) hne

/-- The names below another one stand together. -/
lemma isPrefix_of_between (ha : p <+: a) (hc : p <+: c) (hab : a ≤ b) (hbc : b ≤ c) : p <+: b := by
  induction p generalizing a b c with
  | nil => exact nil_prefix
  | cons x p ih =>
    cases a with
    | nil => simp at ha
    | cons y a =>
      cases c with
      | nil => simp at hc
      | cons z c =>
        obtain ⟨rfl, hpa⟩ := cons_prefix_cons.mp ha
        obtain ⟨rfl, hpc⟩ := cons_prefix_cons.mp hc
        cases b with
        | nil => simp [le_iff_lt_or_eq] at hab
        | cons w b =>
          rcases cons_le_cons_iff.mp hab with h1 | ⟨rfl, h1⟩
          · rcases cons_le_cons_iff.mp hbc with h2 | ⟨rfl, -⟩
            · exact absurd (h1.trans h2) (lt_irrefl x)
            · exact absurd h1 (lt_irrefl _)
          · rcases cons_le_cons_iff.mp hbc with h2 | ⟨-, h2⟩
            · exact absurd h2 (lt_irrefl x)
            · exact cons_prefix_cons.mpr ⟨rfl, ih hpa hpc h1 h2⟩

def commonPrefix : List α → List α → List α
  | x :: a, y :: b => if x = y then x :: commonPrefix a b else []
  | _, _ => []

lemma isPrefix_commonPrefix : p <+: commonPrefix a b ↔ p <+: a ∧ p <+: b := by
  induction a generalizing p b with
  | nil => cases b <;> simp +contextual [commonPrefix]
  | cons x a ih =>
    cases b with
    | nil => simp +contextual [commonPrefix]
    | cons y b =>
      rw [commonPrefix]
      cases p with
      | nil => simp
      | cons z p =>
        split_ifs with h
        · subst h
          simp only [cons_prefix_cons, ih]
          tauto
        · simp only [prefix_nil, cons_prefix_cons, reduceCtorEq, false_iff, not_and]
          rintro ⟨rfl, -⟩ rfl
          exact absurd rfl h

lemma commonPrefix_left (a b : List α) : commonPrefix a b <+: a :=
  (isPrefix_commonPrefix.mp (prefix_refl _)).1

lemma commonPrefix_right (a b : List α) : commonPrefix a b <+: b :=
  (isPrefix_commonPrefix.mp (prefix_refl _)).2

lemma commonPrefix_comm (a b : List α) : commonPrefix a b = commonPrefix b a := by
  have h : ∀ a b : List α, commonPrefix a b <+: commonPrefix b a := fun a b =>
    isPrefix_commonPrefix.mpr ⟨commonPrefix_right a b, commonPrefix_left a b⟩
  exact (h a b).eq_of_length_le (h b a).length_le

structure NameTree (α : Type*) where
  apex : List α
  owners : Set (List α)
  cuts : Set (List α)
  apex_mem : apex ∈ owners
  apex_isPrefix : ∀ k ∈ owners, apex <+: k
  cut_mem : ∀ k ∈ cuts, k ∈ owners

namespace NameTree

variable {α : Type*} (t : NameTree α) (k : List α)

def Hidden : Prop := ∃ d ∈ t.cuts, d <+: k ∧ d ≠ k

def Member : Prop := k ∈ t.owners ∧ ¬t.Hidden k

def Exists : Prop := t.apex <+: k ∧ ∃ x ∈ t.owners, k <+: x

def ClosestEncloser (k e : List α) : Prop :=
  e <+: k ∧ t.Exists e ∧ ∀ p, p <+: k → t.Exists p → p <+: e

variable {t} {a b c k : List α}

lemma Hidden.exists_member (h : t.Hidden k) : ∃ d ∈ t.cuts, t.Member d ∧ d <+: k ∧ d ≠ k := by
  obtain ⟨d, hd, hpfx, hne⟩ := h
  -- the shortest cut above the name is not hidden
  induction hn : d.length using Nat.strong_induction_on generalizing d with
  | _ n ih =>
    by_cases hhidden : t.Hidden d
    · obtain ⟨d', hd', hpfx', hne'⟩ := hhidden
      have hlt : d'.length < d.length :=
        lt_of_le_of_ne hpfx'.length_le fun h => hne' (hpfx'.eq_of_length h)
      refine ih _ (hn ▸ hlt) d' hd' (hpfx'.trans hpfx) ?_ rfl
      rintro rfl
      exact absurd hpfx.length_le (not_le.mpr hlt)
    · exact ⟨d, hd, ⟨t.cut_mem d hd, hhidden⟩, hpfx, hne⟩

lemma Exists.exists_member (h : t.Exists k) (hk : ¬t.Hidden k) : ∃ x, t.Member x ∧ k <+: x := by
  obtain ⟨-, x, hx, hpfx⟩ := h
  by_cases hhidden : t.Hidden x
  · obtain ⟨d, hd, hmember, hdx, -⟩ := hhidden.exists_member
    refine ⟨d, hmember, ?_⟩
    rcases prefix_or_prefix_of_prefix hpfx hdx with h | h
    · exact h
    · by_cases hdk : d = k
      · rw [hdk]
      · exact absurd ⟨d, hd, h, hdk⟩ hk
  · exact ⟨x, ⟨hx, hhidden⟩, hpfx⟩

lemma Member.exists_of_isPrefix (h : t.Member a) (hp : k <+: a) (hk : t.apex <+: k) : t.Exists k :=
  ⟨hk, a, h.1, hp⟩

variable [LinearOrder α]

variable (t) in
structure IsNext (a c : List α) : Prop where
  left : t.Member a
  right : t.Member c
  next : a < c ∧ (∀ x, t.Member x → a < x → c ≤ x) ∨ c = t.apex ∧ ∀ x, t.Member x → x ≤ a

structure InGap (t : NameTree α) (a b c : List α) : Prop where
  isNext : t.IsNext a c
  below : t.apex <+: b
  gt : a < b
  lt : b < c ∨ c = t.apex ∧ ∀ x, t.Member x → x ≤ a

namespace InGap

variable (h : t.InGap a b c)
include h

lemma outside {x : List α} (hx : t.Member x) : x ≤ a ∨ b < c ∧ c ≤ x := by
  rcases h.lt with hlt | ⟨-, hlast⟩
  · rcases h.isNext.next with ⟨-, hnext⟩ | ⟨rfl, -⟩
    · exact (le_or_gt x a).imp_right fun hgt => ⟨hlt, hnext x hx hgt⟩
    · exact absurd hlt (not_lt.mpr (le_of_isPrefix h.below))
  · exact .inl (hlast x hx)

lemma hidden_iff : t.Hidden b ↔ a ∈ t.cuts ∧ a <+: b := by
  constructor
  · intro hhidden
    obtain ⟨d, hd, hmember, hpfx, hne⟩ := hhidden.exists_member
    have hlt := lt_of_isPrefix hpfx hne
    have hle : d ≤ a := by
      rcases h.outside hmember with hle | ⟨hbc, hle⟩
      · exact hle
      · exact absurd (hbc.trans_le hle) (not_lt.mpr hlt.le)
    have hda : d <+: a := isPrefix_of_between (prefix_refl d) hpfx hle h.gt.le
    by_cases heq : d = a
    · exact heq ▸ ⟨hd, hpfx⟩
    · exact absurd ⟨d, hd, hda, heq⟩ h.isNext.left.2
  · rintro ⟨hcut, hpfx⟩
    exact ⟨a, hcut, hpfx, h.gt.ne⟩

lemma exists_iff (hb : ¬t.Hidden b) : t.Exists b ↔ b < c ∧ b <+: c := by
  constructor
  · intro hexists
    obtain ⟨x, hx, hpfx⟩ := hexists.exists_member hb
    rcases h.outside hx with hle | ⟨hbc, hle⟩
    · exact absurd (h.gt.trans_le (le_of_isPrefix hpfx)) (not_lt.mpr hle)
    · exact ⟨hbc, isPrefix_of_between (prefix_refl b) hpfx hbc.le hle⟩
  · rintro ⟨-, hpfx⟩
    exact h.isNext.right.exists_of_isPrefix hpfx h.below

lemma not_mem_owners (hb : ¬t.Hidden b) : b ∉ t.owners := by
  intro hmem
  rcases h.outside ⟨hmem, hb⟩ with hle | ⟨hbc, hle⟩
  · exact absurd h.gt (not_lt.mpr hle)
  · exact absurd hbc (not_lt.mpr hle)

lemma closestEncloser (hb : ¬t.Hidden b) {e : List α}
    (he : e = commonPrefix b a ∧ commonPrefix b c <+: e ∨
      e = commonPrefix b c ∧ commonPrefix b a <+: e) : t.ClosestEncloser b e := by
  have ha : t.apex <+: commonPrefix b a :=
    isPrefix_commonPrefix.mpr ⟨h.below, t.apex_isPrefix a h.isNext.left.1⟩
  have hc : t.apex <+: commonPrefix b c :=
    isPrefix_commonPrefix.mpr ⟨h.below, t.apex_isPrefix c h.isNext.right.1⟩
  have hexists : e <+: b ∧ t.Exists e ∧ commonPrefix b a <+: e ∧ commonPrefix b c <+: e := by
    rcases he with ⟨rfl, he⟩ | ⟨rfl, he⟩
    · exact ⟨commonPrefix_left b a, h.isNext.left.exists_of_isPrefix (commonPrefix_right b a) ha,
        prefix_refl _, he⟩
    · exact ⟨commonPrefix_left b c, h.isNext.right.exists_of_isPrefix (commonPrefix_right b c) hc,
        he, prefix_refl _⟩
  obtain ⟨heb, hexists, hae, hce⟩ := hexists
  refine ⟨heb, hexists, fun p hp hexists => ?_⟩
  -- what is above the name is not hidden either, so there is a member below it
  have hpvisible : ¬t.Hidden p := by
    rintro ⟨d, hd, hdp, hne⟩
    refine hb ⟨d, hd, hdp.trans hp, ?_⟩
    rintro rfl
    exact hne (hdp.eq_of_length_le hp.length_le)
  obtain ⟨x, hx, hpx⟩ := hexists.exists_member hpvisible
  rcases h.outside hx with hle | ⟨hbc, hle⟩
  · exact (isPrefix_commonPrefix.mpr ⟨hp, isPrefix_of_between hpx hp hle h.gt.le⟩).trans hae
  · exact (isPrefix_commonPrefix.mpr ⟨hp, isPrefix_of_between hp hpx hbc.le hle⟩).trans hce

end InGap

end NameTree

end LbBind.Lib

import Mathlib.Data.List.Perm.Basic
import Mathlib.Data.List.Pairwise
import Mathlib.Data.List.Sort

/-! Sorting with a three-way comparison function. A comparison that is antisymmetric in sign and
transitive on the elements of a list orders that list; `Qsort` is a sorting routine that returns a
sorted permutation whenever the comparison orders its input. Nothing is said about its result
otherwise. -/

namespace LbBind.Lib

open List Int

variable {α : Type*}

structure OrdersOn (cmp : α → α → ℤ) (l : List α) : Prop where
  antisymm : ∀ a ∈ l, ∀ b ∈ l, (cmp a b).sign = -(cmp b a).sign
  trans : ∀ a ∈ l, ∀ b ∈ l, ∀ c ∈ l, cmp a b ≤ 0 → cmp b c ≤ 0 → cmp a c ≤ 0

structure TotalPreorder (cmp : α → α → ℤ) : Prop where
  antisymm : ∀ a b, (cmp a b).sign = -(cmp b a).sign
  trans : ∀ a b c, cmp a b ≤ 0 → cmp b c ≤ 0 → cmp a c ≤ 0

variable {cmp tie : α → α → ℤ} {x y : ℤ}

lemma TotalPreorder.ordersOn (h : TotalPreorder cmp) (l : List α) : OrdersOn cmp l :=
  ⟨fun a _ b _ => h.antisymm a b, fun a _ b _ c _ => h.trans a b c⟩

section
variable (h : x.sign = -y.sign)
include h

lemma nonpos_or_of_sign_eq_neg : x ≤ 0 ∨ y ≤ 0 := by
  by_contra hc
  push Not at hc
  rw [sign_eq_one_of_pos hc.1, sign_eq_one_of_pos hc.2] at h
  omega

lemma nonneg_of_sign_eq_neg (hy : y ≤ 0) : 0 ≤ x := by
  rw [← sign_nonneg_iff, h]
  have := Int.sign_nonpos_iff.mpr hy
  omega

lemma pos_of_sign_eq_neg (hy : y < 0) : 0 < x := by
  rw [← sign_pos_iff, h, sign_eq_neg_one_of_neg hy]
  decide

lemma neg_of_sign_eq_neg (hy : 0 < y) : x < 0 := by
  rw [← sign_neg_iff, h, sign_eq_one_of_pos hy]
  decide

end

lemma TotalPreorder.of_key {β : Type*} [LinearOrder β] (key : α → β)
    (hlt : ∀ a b, cmp a b < 0 ↔ key a < key b) (heq : ∀ a b, cmp a b = 0 ↔ key a = key b) :
    TotalPreorder cmp := by
  have hle : ∀ a b, cmp a b ≤ 0 ↔ key a ≤ key b := by
    intro a b
    rw [le_iff_lt_or_eq, le_iff_lt_or_eq, hlt, heq]
  constructor
  · intro a b
    rcases lt_trichotomy (key a) (key b) with h | h | h
    · have hpos : 0 < cmp b a := not_le.mp fun hba => h.not_ge ((hle b a).mp hba)
      rw [sign_eq_neg_one_of_neg ((hlt a b).mpr h), sign_eq_one_of_pos hpos]
    · rw [(heq a b).mpr h, (heq b a).mpr h.symm]
      rfl
    · have hpos : 0 < cmp a b := not_le.mp fun hab => h.not_ge ((hle a b).mp hab)
      rw [sign_eq_one_of_pos hpos, sign_eq_neg_one_of_neg ((hlt b a).mpr h)]
      rfl
  · intro a b c hab hbc
    exact (hle a c).mpr (((hle a b).mp hab).trans ((hle b c).mp hbc))

namespace TotalPreorder

variable {cmp : α → α → ℤ} (h : TotalPreorder cmp)
include h

lemma refl (a : α) : cmp a a = 0 := by
  have ha := h.antisymm a a
  exact sign_eq_zero_iff_zero.mp (by omega)

variable {a b c : α}

lemma eq_zero_symm (hab : cmp a b = 0) : cmp b a = 0 := by
  have ha := h.antisymm b a
  rw [hab, sign_zero, Int.neg_zero] at ha
  exact sign_eq_zero_iff_zero.mp ha

lemma eq_zero_trans (hab : cmp a b = 0) (hbc : cmp b c = 0) : cmp a c = 0 := by
  have hac := h.trans a b c hab.le hbc.le
  have hca := h.trans c b a (h.eq_zero_symm hbc).le (h.eq_zero_symm hab).le
  have := nonneg_of_sign_eq_neg (h.antisymm a c) hca
  omega

lemma lt_trans (hab : cmp a b < 0) (hbc : cmp b c ≤ 0) : cmp a c < 0 := by
  rcases (h.trans a b c hab.le hbc).lt_or_eq with hac | hac
  · exact hac
  · have hca := h.eq_zero_symm hac
    have hba := h.trans b c a hbc hca.le
    have := pos_of_sign_eq_neg (h.antisymm b a) hab
    omega

lemma le_lt_trans (hab : cmp a b ≤ 0) (hbc : cmp b c < 0) : cmp a c < 0 := by
  rcases (h.trans a b c hab hbc.le).lt_or_eq with hac | hac
  · exact hac
  · have hca := h.eq_zero_symm hac
    have hcb := h.trans c a b hca.le hab
    have := pos_of_sign_eq_neg (h.antisymm c b) hbc
    omega

end TotalPreorder

lemma ordersOn_iff_subtype {l : List α} :
    OrdersOn cmp l ↔ TotalPreorder fun a b : {x // x ∈ l} => cmp a.1 b.1 :=
  ⟨fun h => ⟨fun a b => h.antisymm a.1 a.2 b.1 b.2, fun a b c => h.trans a.1 a.2 b.1 b.2 c.1 c.2⟩,
    fun h => ⟨fun a ha b hb => h.antisymm ⟨a, ha⟩ ⟨b, hb⟩,
      fun a ha b hb c hc => h.trans ⟨a, ha⟩ ⟨b, hb⟩ ⟨c, hc⟩⟩⟩

def lex (cmp tie : α → α → ℤ) (a b : α) : ℤ := if cmp a b = 0 then tie a b else cmp a b

lemma nonpos_of_lex_nonpos {a b : α} (h : lex cmp tie a b ≤ 0) : cmp a b ≤ 0 := by
  simp only [lex] at h
  split_ifs at h <;> omega

lemma TotalPreorder.lex (hc : TotalPreorder cmp) (ht : TotalPreorder tie) :
    TotalPreorder (lex cmp tie) := by
  constructor
  · intro a b
    have hsymm : cmp a b = 0 ↔ cmp b a = 0 := ⟨hc.eq_zero_symm, hc.eq_zero_symm⟩
    by_cases hab : cmp a b = 0
    · simp only [Lib.lex, if_pos hab, if_pos (hsymm.mp hab), ht.antisymm a b]
    · simp only [Lib.lex, if_neg hab, if_neg (mt hsymm.mpr hab), hc.antisymm a b]
  · intro a b c hab hbc
    rcases (nonpos_of_lex_nonpos hab).lt_or_eq with hab' | hab'
    · have := hc.lt_trans hab' (nonpos_of_lex_nonpos hbc)
      simp only [Lib.lex, if_neg this.ne]
      exact this.le
    rcases (nonpos_of_lex_nonpos hbc).lt_or_eq with hbc' | hbc'
    · have := hc.le_lt_trans hab'.le hbc'
      simp only [Lib.lex, if_neg this.ne]
      exact this.le
    · simp only [Lib.lex, if_pos hab', if_pos hbc', if_pos (hc.eq_zero_trans hab' hbc')] at hab hbc ⊢
      exact ht.trans a b c hab hbc

lemma OrdersOn.lex {l : List α} (hc : OrdersOn cmp l)
    (ht : TotalPreorder tie) : OrdersOn (lex cmp tie) l :=
  ordersOn_iff_subtype.mpr ((ordersOn_iff_subtype.mp hc).lex
    (ordersOn_iff_subtype.mp (ht.ordersOn l)))

structure Qsort (α : Type*) where
  /-- Sort a list by a comparison function. -/
  sort : (α → α → ℤ) → List α → List α
  spec : ∀ cmp l, OrdersOn cmp l →
    (sort cmp l).Perm l ∧ (sort cmp l).Pairwise fun a b => cmp a b ≤ 0

namespace Qsort

/-- Insertion sort meets the contract. The elements are sorted with their
membership proofs, on which the comparison is total and transitive. -/
def insertion (α : Type*) : Qsort α where
  sort cmp l := (l.attach.insertionSort fun a b => cmp a.1 b.1 ≤ 0).map Subtype.val
  spec cmp l h := by
    have htotal : Std.Total fun a b : {x // x ∈ l} => cmp a.1 b.1 ≤ 0 :=
      ⟨fun a b => nonpos_or_of_sign_eq_neg (h.antisymm a.1 a.2 b.1 b.2)⟩
    have htrans : IsTrans {x // x ∈ l} fun a b => cmp a.1 b.1 ≤ 0 :=
      ⟨fun a b c => h.trans a.1 a.2 b.1 b.2 c.1 c.2⟩
    constructor
    · have := (perm_insertionSort (fun a b : {x // x ∈ l} => cmp a.1 b.1 ≤ 0) l.attach).map
        Subtype.val
      rwa [attach_map_subtype_val] at this
    · rw [pairwise_map]
      exact pairwise_insertionSort (fun a b : {x // x ∈ l} => cmp a.1 b.1 ≤ 0) l.attach

/-- A routine that meets the contract and breaks the ties it is left by `tie`. -/
def breakTies {tie : α → α → ℤ} (h : TotalPreorder tie) : Qsort α where
  sort cmp l := (insertion α).sort (lex cmp tie) l
  spec cmp l hl := by
    obtain ⟨hperm, hsorted⟩ := (insertion α).spec _ l (hl.lex h)
    exact ⟨hperm, hsorted.imp nonpos_of_lex_nonpos⟩

lemma breakTies_not_pairwise {tie cmp : α → α → ℤ} {l : List α} {R : α → α → Prop}
    (h : TotalPreorder tie) (hl : OrdersOn cmp l) {a b : α} (ha : a ∈ l) (hb : b ∈ l)
    (hab : 0 < lex cmp tie a b) (hR : ¬R b a) : ¬((breakTies h).sort cmp l).Pairwise R := by
  intro hpairwise
  obtain ⟨hperm, hsorted⟩ := (insertion α).spec _ l (hl.lex h)
  have hne : a ≠ b := fun heq => by
    have := (hl.lex h).antisymm b hb b hb
    rw [heq] at hab
    rw [sign_eq_one_of_pos hab] at this
    omega
  have hsymm : Std.Symm fun x y => (lex cmp tie x y ≤ 0 ∧ R x y) ∨ (lex cmp tie y x ≤ 0 ∧ R y x) :=
    ⟨fun _ _ => Or.symm⟩
  have hboth : ((insertion α).sort (lex cmp tie) l).Pairwise fun x y =>
      (lex cmp tie x y ≤ 0 ∧ R x y) ∨ (lex cmp tie y x ≤ 0 ∧ R y x) :=
    (hsorted.and hpairwise).imp .inl
  rcases hboth.forall (hperm.mem_iff.mpr ha) (hperm.mem_iff.mpr hb) hne with hlex | hlex
  · omega
  · exact hR hlex.2

end Qsort

variable {cmp : α → α → ℤ}

def skipRepeats (cmp : α → α → ℤ) : Option α → List α → List α
  | _, [] => []
  | prev, a :: l =>
    if prev.any fun p => cmp a p = 0 then skipRepeats cmp (some a) l
    else a :: skipRepeats cmp (some a) l

def SameSet (cmp : α → α → ℤ) (l m : List α) : Prop :=
  (∀ a ∈ l, ∃ b ∈ m, cmp a b = 0) ∧ ∀ b ∈ m, ∃ a ∈ l, cmp a b = 0

variable {l : List α}

lemma mem_of_mem_skipRepeats {prev : Option α} {a : α}
    (ha : a ∈ skipRepeats cmp prev l) : a ∈ l := by
  induction l generalizing prev with
  | nil => exact ha
  | cons x l ih =>
    rw [skipRepeats] at ha
    split at ha
    · exact .tail _ (ih ha)
    · rcases mem_cons.mp ha with rfl | ha
      · exact .head _
      · exact .tail _ (ih ha)

variable (h : TotalPreorder cmp)
include h

lemma TotalPreorder.skipRepeats_covers (prev : Option α) {a : α} (ha : a ∈ l) :
    (∃ b ∈ skipRepeats cmp prev l, cmp a b = 0) ∨ ∃ p ∈ prev, cmp a p = 0 := by
  induction l generalizing prev with
  | nil => cases ha
  | cons x l ih =>
    rw [skipRepeats]
    split
    · rename_i hskip
      obtain ⟨p, hp, hxp⟩ : ∃ p ∈ prev, cmp x p = 0 := by
        simpa [Option.any_eq_true] using hskip
      rcases mem_cons.mp ha with rfl | ha
      · exact .inr ⟨p, hp, hxp⟩
      · rcases ih (some x) ha with hkept | ⟨y, hy, hay⟩
        · exact .inl hkept
        · cases hy
          exact .inr ⟨p, hp, h.eq_zero_trans hay hxp⟩
    · rcases mem_cons.mp ha with rfl | ha
      · exact .inl ⟨a, .head _, h.refl a⟩
      · rcases ih (some x) ha with ⟨b, hb, hab⟩ | ⟨y, hy, hay⟩
        · exact .inl ⟨b, .tail _ hb, hab⟩
        · cases hy
          exact .inl ⟨x, .head _, hay⟩

lemma TotalPreorder.skipRepeats_pairwise (prev : Option α)
    (hl : l.Pairwise fun a b => cmp a b ≤ 0) (hprev : ∀ p ∈ prev, ∀ a ∈ l, cmp p a ≤ 0) :
    (skipRepeats cmp prev l).Pairwise (fun a b => cmp a b < 0) ∧
      ∀ p ∈ prev, ∀ a ∈ skipRepeats cmp prev l, cmp p a < 0 := by
  induction l generalizing prev with
  | nil => exact ⟨.nil, by simp [skipRepeats]⟩
  | cons x l ih =>
    obtain ⟨hx, hl⟩ := pairwise_cons.mp hl
    obtain ⟨hpairwise, hlt⟩ := ih (some x) hl (by simpa using hx)
    have hlt : ∀ a ∈ skipRepeats cmp (some x) l, cmp x a < 0 := hlt x rfl
    rw [skipRepeats]
    split
    · refine ⟨hpairwise, fun p hp a ha => ?_⟩
      exact h.le_lt_trans (hprev p hp x (.head _)) (hlt a ha)
    · rename_i hkeep
      have hpx : ∀ p ∈ prev, cmp p x < 0 := by
        intro p hp
        refine lt_of_le_of_ne (hprev p hp x (.head _)) fun heq => hkeep ?_
        simpa [Option.any_eq_true] using ⟨p, hp, h.eq_zero_symm heq⟩
      refine ⟨pairwise_cons.mpr ⟨hlt, hpairwise⟩, fun p hp a ha => ?_⟩
      rcases mem_cons.mp ha with rfl | ha
      · exact hpx p hp
      · exact h.lt_trans (hpx p hp) (hlt a ha).le

lemma TotalPreorder.forall₂_of_pairwise {m : List α} (hl : l.Pairwise fun a b => cmp a b < 0)
    (hm : m.Pairwise fun a b => cmp a b < 0) (hsame : SameSet cmp l m) :
    List.Forall₂ (fun a b => cmp a b = 0) l m := by
  induction l generalizing m with
  | nil =>
    cases m with
    | nil => exact .nil
    | cons b m =>
      obtain ⟨a, ha, -⟩ := hsame.2 b (.head _)
      cases ha
  | cons a l ih =>
    cases m with
    | nil =>
      obtain ⟨b, hb, -⟩ := hsame.1 a (.head _)
      cases hb
    | cons b m =>
      obtain ⟨ha, hl⟩ := pairwise_cons.mp hl
      obtain ⟨hb, hm⟩ := pairwise_cons.mp hm
      -- the least elements correspond
      have hab : cmp a b = 0 := by
        obtain ⟨y, hy, hay⟩ := hsame.1 a (.head _)
        obtain ⟨x, hx, hxb⟩ := hsame.2 b (.head _)
        rcases mem_cons.mp hy with rfl | hy
        · exact hay
        rcases mem_cons.mp hx with rfl | hx
        · exact hxb
        have hba : cmp b a < 0 := h.lt_trans (hb y hy) (h.eq_zero_symm hay).le
        have hab : cmp a b < 0 := h.lt_trans (ha x hx) hxb.le
        have := pos_of_sign_eq_neg (h.antisymm a b) hba
        omega
      refine .cons hab (ih hl hm ⟨fun x hx => ?_, fun y hy => ?_⟩)
      · obtain ⟨y, hy, hxy⟩ := hsame.1 x (.tail _ hx)
        rcases mem_cons.mp hy with rfl | hy
        · have := h.eq_zero_trans hab (h.eq_zero_symm hxy)
          have := ha x hx
          omega
        · exact ⟨y, hy, hxy⟩
      · obtain ⟨x, hx, hxy⟩ := hsame.2 y (.tail _ hy)
        rcases mem_cons.mp hx with rfl | hx
        · have := h.eq_zero_trans (h.eq_zero_symm hab) hxy
          have := hb y hy
          omega
        · exact ⟨x, hx, hxy⟩

lemma TotalPreorder.forall₂_skipRepeats (q q' : Qsort α) {m : List α} (hsame : SameSet cmp l m) :
    List.Forall₂ (fun a b => cmp a b = 0) (skipRepeats cmp none (q.sort cmp l))
      (skipRepeats cmp none (q'.sort cmp m)) := by
  have hcovers : ∀ (q q' : Qsort α) {l m : List α}, (∀ a ∈ l, ∃ b ∈ m, cmp a b = 0) →
      ∀ a ∈ skipRepeats cmp none (q.sort cmp l),
        ∃ b ∈ skipRepeats cmp none (q'.sort cmp m), cmp a b = 0 := by
    intro q q' l m hlm a ha
    have ha := (q.spec cmp l (h.ordersOn l)).1.mem_iff.mp (mem_of_mem_skipRepeats ha)
    obtain ⟨b, hb, hab⟩ := hlm a ha
    obtain ⟨c, hc, hbc⟩ | ⟨p, hp, -⟩ :=
      h.skipRepeats_covers none ((q'.spec cmp m (h.ordersOn m)).1.mem_iff.mpr hb)
    · exact ⟨c, hc, h.eq_zero_trans hab hbc⟩
    · cases hp
  refine h.forall₂_of_pairwise
    (h.skipRepeats_pairwise none (q.spec cmp l (h.ordersOn l)).2 (by simp)).1
    (h.skipRepeats_pairwise none (q'.spec cmp m (h.ordersOn m)).2 (by simp)).1
    ⟨hcovers q q' hsame.1, fun b hb => ?_⟩
  have hsymm : ∀ b ∈ m, ∃ a ∈ l, cmp b a = 0 := fun b hb => by
    obtain ⟨a, ha, hab⟩ := hsame.2 b hb
    exact ⟨a, ha, h.eq_zero_symm hab⟩
  obtain ⟨a, ha, hba⟩ := hcovers q' q hsymm b hb
  exact ⟨a, ha, h.eq_zero_symm hba⟩

end LbBind.Lib

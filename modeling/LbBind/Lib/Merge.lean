import Mathlib.Data.List.Sort

/-! Comparison functions, sorting by them, and the merge of two sorted lists. The merge walks along
both lists, takes the smaller head, and treats two heads that compare equal together. -/

namespace LbBind.Lib

open List

variable {α κ τ : Type*}

structure OrdersBy [LinearOrder κ] (cmp : α → α → ℤ) (key : α → κ) : Prop where
  neg : ∀ a b, cmp a b < 0 ↔ key a < key b
  pos : ∀ a b, 0 < cmp a b ↔ key b < key a

variable {cmp : α → α → ℤ} {key : α → κ}

lemma OrdersBy.nonpos [LinearOrder κ] (h : OrdersBy cmp key)
    (a b : α) : cmp a b ≤ 0 ↔ key a ≤ key b := by
  rw [← not_lt, h.pos, not_lt]

def compareValues [LinearOrder κ] (a b : κ) : ℤ := if a < b then -1 else if b < a then 1 else 0

lemma compares_compareValues [LinearOrder κ] : OrdersBy (compareValues (κ := κ)) id := by
  refine ⟨fun a b => ?_, fun a b => ?_⟩
  · rw [compareValues]
    split_ifs with hlt hgt <;> simp [hlt]
  · rw [compareValues]
    split_ifs with hlt hgt
    · simp [hlt.le]
    · simp [hgt]
    · simp [not_lt.mp hgt]

/-- A sorting function such as `qsort`. Nothing is known about the order of elements that compare
equal. -/
structure Sorter (α : Type*) where
  sort : (α → α → ℤ) → List α → List α
  perm : ∀ cmp l, (sort cmp l).Perm l
  sorted : ∀ cmp, (∀ a b, cmp a b ≤ 0 ∨ cmp b a ≤ 0) →
    (∀ a b c, cmp a b ≤ 0 → cmp b c ≤ 0 → cmp a c ≤ 0) →
    ∀ l, (sort cmp l).Pairwise fun a b => cmp a b ≤ 0

def insertionSorter (α : Type*) : Sorter α where
  sort cmp l := l.insertionSort fun a b => cmp a b ≤ 0
  perm _ l := perm_insertionSort _ l
  sorted cmp htotal htrans l := by
    have : Std.Total fun a b : α => cmp a b ≤ 0 := ⟨htotal⟩
    have : IsTrans α fun a b => cmp a b ≤ 0 := ⟨htrans⟩
    exact pairwise_insertionSort _ l

lemma Sorter.pairwise_lt [LinearOrder κ] (S : Sorter α) (h : OrdersBy cmp key) {l : List α}
    (hnodup : (l.map key).Nodup) : (S.sort cmp l).Pairwise fun a b => key a < key b := by
  have hsorted := S.sorted cmp (fun a b => by simpa only [h.nonpos] using le_total _ _)
    (fun a b c => by simpa only [h.nonpos] using le_trans) l
  have hne : (S.sort cmp l).Pairwise fun a b => key a ≠ key b :=
    pairwise_map.mp (((S.perm cmp l).map key).nodup_iff.mpr hnodup)
  refine (hsorted.and hne).imp fun ⟨hle, hne⟩ => ?_
  exact lt_of_le_of_ne ((h.nonpos _ _).mp hle) hne

variable (cmp : α → α → ℤ) (left right : α → List τ) (both : α → α → List τ)

def mergeHead (x : α) (rest : List α → List τ) : List α → List τ
  | [] => left x ++ rest []
  | y :: ys =>
    if cmp x y < 0 then left x ++ rest (y :: ys)
    else if 0 < cmp x y then right y ++ mergeHead x rest ys
    else both x y ++ rest ys

def merge : List α → List α → List τ
  | [], ys => ys.flatMap right
  | x :: xs, ys => mergeHead cmp left right both x (merge xs) ys

variable {cmp left right both} [LinearOrder κ] {key : α → κ} {xs ys : List α} {t : τ}

def InMerge (key : α → κ) (left right : α → List τ) (both : α → α → List τ) (xs ys : List α)
    (t : τ) : Prop :=
  (∃ x ∈ xs, (∀ y ∈ ys, key y ≠ key x) ∧ t ∈ left x) ∨
    (∃ y ∈ ys, (∀ x ∈ xs, key x ≠ key y) ∧ t ∈ right y) ∨
    ∃ x ∈ xs, ∃ y ∈ ys, key x = key y ∧ t ∈ both x y

lemma inMerge_cons {x : α} (hx : ∀ z ∈ xs, key x ≠ key z) :
    InMerge key left right both (x :: xs) ys t ↔
      ((∀ y ∈ ys, key y ≠ key x) ∧ t ∈ left x ∨ ∃ y ∈ ys, key x = key y ∧ t ∈ both x y) ∨
        InMerge key left right both xs (ys.filter fun y => key x ≠ key y) t := by
  simp only [InMerge, exists_mem_cons_iff, forall_mem_cons, mem_filter, decide_eq_true_eq, and_imp]
  grind

lemma inMerge_left {x : α} (hx : ∀ y ∈ ys, key x < key y) (hxs : ∀ z ∈ xs, key x < key z) :
    InMerge key left right both (x :: xs) ys t ↔
      t ∈ left x ∨ InMerge key left right both xs ys t := by
  rw [inMerge_cons fun z hz => (hxs z hz).ne,
    filter_eq_self.mpr fun y hy => decide_eq_true (hx y hy).ne]
  refine or_congr_left ⟨?_, fun ht => .inl ⟨fun y hy => (hx y hy).ne', ht⟩⟩
  rintro (⟨-, ht⟩ | ⟨y, hy, heq, -⟩)
  · exact ht
  · exact absurd heq (hx y hy).ne

omit [LinearOrder κ] in
lemma inMerge_swap : InMerge key left right both xs ys t ↔
    InMerge key right left (fun y x => both x y) ys xs t := by
  rw [InMerge, InMerge, or_left_comm]
  refine or_congr_right (or_congr_right ⟨?_, ?_⟩)
  · rintro ⟨x, hx, y, hy, heq, ht⟩
    exact ⟨y, hy, x, hx, heq.symm, ht⟩
  · rintro ⟨y, hy, x, hx, heq, ht⟩
    exact ⟨x, hx, y, hy, heq.symm, ht⟩

lemma inMerge_right {y : α} (hy : ∀ x ∈ xs, key y < key x) (hys : ∀ z ∈ ys, key y < key z) :
    InMerge key left right both xs (y :: ys) t ↔
      t ∈ right y ∨ InMerge key left right both xs ys t := by
  rw [inMerge_swap, inMerge_left hy hys, inMerge_swap]

lemma inMerge_both {x y : α} (heq : key x = key y) (hx : ∀ z ∈ xs, key x < key z)
    (hy : ∀ z ∈ ys, key y < key z) : InMerge key left right both (x :: xs) (y :: ys) t ↔
      t ∈ both x y ∨ InMerge key left right both xs ys t := by
  rw [inMerge_cons fun z hz => (hx z hz).ne, filter_cons_of_neg (by simpa using heq),
    filter_eq_self.mpr fun z hz => decide_eq_true (heq ▸ (hy z hz).ne)]
  refine or_congr_left ⟨?_, fun ht => .inr ⟨y, .head _, heq, ht⟩⟩
  rintro (⟨hne, -⟩ | ⟨z, hz, hz', ht⟩)
  · exact absurd heq.symm (hne y (.head _))
  · rcases mem_cons.mp hz with rfl | hz
    · exact ht
    · exact absurd (heq.symm.trans hz') (hy z hz).ne

lemma merge_induction {P : List α → List α → List τ → Prop} (hcmp : OrdersBy cmp key)
    (hnil : ∀ ys, (ys.Pairwise fun a b => key a < key b) → P [] ys (ys.flatMap right))
    (hleft : ∀ x xs ys l, (∀ y ∈ ys, key x < key y) → (∀ z ∈ xs, key x < key z) →
      P xs ys l → P (x :: xs) ys (left x ++ l))
    (hright : ∀ y xs ys l, (∀ x ∈ xs, key y < key x) → (∀ z ∈ ys, key y < key z) →
      P xs ys l → P xs (y :: ys) (right y ++ l))
    (hboth : ∀ x y xs ys l, key x = key y → (∀ z ∈ xs, key x < key z) → (∀ z ∈ ys, key y < key z) →
      P xs ys l → P (x :: xs) (y :: ys) (both x y ++ l))
    (hxs : xs.Pairwise fun a b => key a < key b) (hys : ys.Pairwise fun a b => key a < key b) :
    P xs ys (merge cmp left right both xs ys) := by
  induction xs generalizing ys with
  | nil => exact hnil ys hys
  | cons x xs ih =>
    rw [pairwise_cons] at hxs
    rw [merge]
    induction ys with
    | nil => exact hleft x xs [] _ (by simp) hxs.1 (ih hxs.2 hys)
    | cons y ys ihy =>
      have hys' := pairwise_cons.mp hys
      rw [mergeHead]
      split_ifs with hlt hgt
      · rw [hcmp.neg] at hlt
        refine hleft x xs (y :: ys) _ (fun z hz => ?_) hxs.1 (ih hxs.2 hys)
        rcases mem_cons.mp hz with rfl | hz
        · exact hlt
        · exact hlt.trans (hys'.1 z hz)
      · rw [hcmp.pos] at hgt
        refine hright y (x :: xs) ys _ (fun z hz => ?_) hys'.1 (ihy hys'.2)
        rcases mem_cons.mp hz with rfl | hz
        · exact hgt
        · exact hgt.trans (hxs.1 z hz)
      · rw [hcmp.neg] at hlt
        rw [hcmp.pos] at hgt
        have heq : key x = key y := le_antisymm (not_lt.mp hgt) (not_lt.mp hlt)
        exact hboth x y xs ys _ heq hxs.1 hys'.1 (ih hxs.2 hys'.2)

lemma nodup_append_keyed {f : τ → κ} {k : κ} {first l : List τ}
    (hfirst : first.Nodup ∧ ∀ t ∈ first, f t = k) (hl : l.Nodup) (hlt : ∀ t ∈ l, k < f t) :
    (first ++ l).Nodup ∧ ∀ b < k, ∀ t ∈ first ++ l, b < f t := by
  refine ⟨nodup_append.mpr ⟨hfirst.1, hl, ?_⟩, fun b hb t ht => ?_⟩
  · rintro t ht _ ht' rfl
    exact (hlt t ht').ne' (hfirst.2 t ht)
  · rcases mem_append.mp ht with ht | ht
    · rwa [hfirst.2 t ht]
    · exact hb.trans (hlt t ht)

variable (hcmp : OrdersBy cmp key) (hxs : xs.Pairwise fun a b => key a < key b)
  (hys : ys.Pairwise fun a b => key a < key b)
include hcmp hxs hys

lemma mem_merge : t ∈ merge cmp left right both xs ys ↔ InMerge key left right both xs ys t := by
  refine merge_induction (P := fun xs ys l => t ∈ l ↔ InMerge key left right both xs ys t) hcmp
    (fun ys _ => ?_) (fun x xs ys l hx hxs ih => ?_) (fun y xs ys l hy hys ih => ?_)
    (fun x y xs ys l heq hx hy ih => ?_) hxs hys
  · simp [InMerge]
  · rw [mem_append, ih, inMerge_left hx hxs]
  · rw [mem_append, ih, inMerge_right hy hys]
  · rw [mem_append, ih, inMerge_both heq hx hy]

lemma nodup_merge {f : τ → κ} (hleft : ∀ x, (left x).Nodup ∧ ∀ t ∈ left x, f t = key x)
    (hright : ∀ y, (right y).Nodup ∧ ∀ t ∈ right y, f t = key y)
    (hboth : ∀ x ∈ xs, ∀ y ∈ ys, key x = key y → (both x y).Nodup ∧ ∀ t ∈ both x y, f t = key x) :
    (merge cmp left right both xs ys).Nodup := by
  -- what is below the keys of the two lists is below those of their merge
  let P (xs ys : List α) (l : List τ) : Prop :=
    (∀ x ∈ xs, ∀ y ∈ ys, key x = key y → (both x y).Nodup ∧ ∀ t ∈ both x y, f t = key x) →
      l.Nodup ∧ ∀ b, (∀ x ∈ xs, b < key x) → (∀ y ∈ ys, b < key y) → ∀ t ∈ l, b < f t
  suffices h : P xs ys (merge cmp left right both xs ys) from (h hboth).1
  refine merge_induction hcmp (fun ys hys _ => ?_) (fun x xs ys l hx hx' ih hboth => ?_)
    (fun y xs ys l hy hy' ih hboth => ?_) (fun x y xs ys l heq hx hy ih hboth => ?_) hxs hys
  · refine ⟨nodup_flatMap.mpr ⟨fun y _ => (hright y).1, hys.imp fun {y z} hlt t hy hz => ?_⟩, ?_⟩
    · rw [← (hright y).2 t hy, ← (hright z).2 t hz] at hlt
      exact lt_irrefl _ hlt
    · intro b _ hb t ht
      obtain ⟨y, hy, ht⟩ := mem_flatMap.mp ht
      exact (hright y).2 t ht ▸ hb y hy
  · obtain ⟨hnodup, hbelow⟩ := ih fun x hx => hboth x (.tail _ hx)
    obtain ⟨hnodup, hbelow⟩ := nodup_append_keyed (hleft x) hnodup (hbelow _ hx' hx)
    exact ⟨hnodup, fun b hb _ => hbelow b (hb x (.head _))⟩
  · obtain ⟨hnodup, hbelow⟩ := ih fun x hx z hz => hboth x hx z (.tail _ hz)
    obtain ⟨hnodup, hbelow⟩ := nodup_append_keyed (hright y) hnodup (hbelow _ hy hy')
    exact ⟨hnodup, fun b _ hb => hbelow b (hb y (.head _))⟩
  · obtain ⟨hnodup, hbelow⟩ := ih fun x hx z hz =>
      hboth x (.tail _ hx) z (.tail _ hz)
    obtain ⟨hnodup, hbelow⟩ := nodup_append_keyed (hboth x (.head _) y (.head _) heq)
      hnodup (hbelow _ hx (heq ▸ hy))
    exact ⟨hnodup, fun b hb _ => hbelow b (hb x (.head _))⟩

end LbBind.Lib

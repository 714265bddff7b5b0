import Mathlib.Data.List.Perm.Basic

/-! Tables of buckets: a key is in the bucket that its hash chooses, in front of those that were put
there before. -/

namespace LbBind.Lib

open List

abbrev Buckets (κ : Type*) := List (List κ)

namespace Buckets

def bucket {κ : Type*} (b : Buckets κ) (hashval : ℕ) : List κ := b.getD (hashval % b.length) []

def push {κ : Type*} (hash : κ → ℕ) (b : Buckets κ) (k : κ) : Buckets κ :=
  b.modify (hash k % b.length) (k :: ·)

/-- A key is taken out of its bucket; there is no result if it is not in there. -/
def pull {κ : Type*} [DecidableEq κ] (hash : κ → ℕ) (b : Buckets κ) (k : κ) : Option (Buckets κ) :=
  if k ∈ b.bucket (hash k) then some (b.modify (hash k % b.length) (·.erase k)) else none

/-- The table has the keys, as often as they are listed, and each in its bucket. -/
structure Keeps {κ : Type*} (hash : κ → ℕ) (b : Buckets κ) (keys : List κ) : Prop where
  length_pos : 0 < b.length
  perm : b.flatten.Perm keys
  placed : ∀ i c, b[i]? = some c → ∀ k ∈ c, hash k % b.length = i

variable {κ : Type*} {hash : κ → ℕ} {b : Buckets κ} {k : κ} {keys ks : List κ}

lemma keeps_replicate {n : ℕ} (hn : 0 < n) : Keeps hash (replicate n []) [] where
  length_pos := by rwa [length_replicate]
  perm := by rw [flatten_replicate_nil]
  placed i c hc k hk := by
    rw [eq_of_mem_replicate (mem_of_getElem? hc)] at hk
    exact absurd hk not_mem_nil

namespace Keeps

lemma congr (h : b.Keeps hash keys) (hks : keys.Perm ks) : b.Keeps hash ks :=
  ⟨h.length_pos, h.perm.trans hks, h.placed⟩

lemma index_lt (h : b.Keeps hash keys) (hashval : ℕ) : hashval % b.length < b.length :=
  Nat.mod_lt _ h.length_pos

lemma mem_bucket (h : b.Keeps hash keys) (hk : k ∈ keys) : k ∈ b.bucket (hash k) := by
  obtain ⟨c, hc, hkc⟩ := mem_flatten.mp (h.perm.mem_iff.mpr hk)
  obtain ⟨i, hi⟩ := mem_iff_getElem?.mp hc
  rw [bucket, h.placed i c hi k hkc, getD_eq_getElem?_getD, hi]
  exact hkc

lemma modify {f : List κ → List κ} (h : b.Keeps hash keys)
    (hperm : (b.modify (hash k % b.length) f).flatten.Perm ks)
    (hmem : ∀ c, ∀ e ∈ f c, e = k ∨ e ∈ c) :
    Keeps hash (b.modify (hash k % b.length) f) ks := by
  refine ⟨by rw [length_modify]; exact h.length_pos, hperm, fun i c hc e he => ?_⟩
  rw [length_modify]
  simp only [getElem?_modify, Option.map_eq_map, Option.map_eq_some_iff] at hc
  obtain ⟨c, hc, rfl⟩ := hc
  split_ifs at he with hi
  · exact (hmem c e he).elim (fun heq => heq ▸ hi) (h.placed i c hc e)
  · exact h.placed i c hc e he

variable [DecidableEq κ]

lemma perm_flatten_modify {i : ℕ} {x y : List κ} {f : List κ → List κ} (hi : i < b.length)
    (h : (x ++ f b[i]).Perm (y ++ b[i])) :
    (x ++ (b.modify i f).flatten).Perm (y ++ b.flatten) := by
  rw [modify_eq_take_cons_drop hi]
  conv_rhs => rw [← take_append_drop i b, drop_eq_getElem_cons hi]
  rw [perm_iff_count] at h ⊢
  intro a
  have hcount := h a
  simp only [flatten_append, flatten_cons, count_append] at hcount ⊢
  omega

lemma push (h : b.Keeps hash keys) : (b.push hash k).Keeps hash (k :: keys) := by
  refine h.modify ?_ fun c e he => mem_cons.mp he
  exact (perm_flatten_modify (h.index_lt _) (x := []) (y := [k]) (.refl _)).trans (h.perm.cons k)

lemma foldl_push (h : b.Keeps hash keys) (ks : List κ) :
    Keeps hash (ks.foldl (Buckets.push hash) b) (ks ++ keys) := by
  induction ks generalizing b keys with
  | nil => exact h
  | cons k ks ih => exact (ih h.push).congr perm_middle

lemma pull (h : b.Keeps hash (k :: keys)) : ∃ b', b.pull hash k = some b' ∧ b'.Keeps hash keys := by
  have hmem := h.mem_bucket mem_cons_self
  refine ⟨_, if_pos hmem, h.modify (perm_cons k |>.mp ?_) fun c e he => .inr (mem_of_mem_erase he)⟩
  rw [bucket, getD_eq_getElem?_getD, getElem?_eq_getElem (h.index_lt _)] at hmem
  have hperm := perm_flatten_modify (f := (·.erase k)) (h.index_lt _) (x := [k]) (y := [])
    (perm_cons_erase hmem).symm
  exact hperm.trans h.perm

lemma foldlM_pull (h : b.Keeps hash (ks ++ keys)) :
    ∃ b', ks.foldlM (Buckets.pull hash) b = some b' ∧ b'.Keeps hash keys := by
  induction ks generalizing b with
  | nil => exact ⟨b, rfl, h⟩
  | cons k ks ih =>
    obtain ⟨b', hb, hkeeps⟩ := h.pull
    obtain ⟨b'', hb', hkeeps'⟩ := ih hkeeps
    exact ⟨b'', by rw [foldlM_cons, hb]; exact hb', hkeeps'⟩

end Keeps

end Buckets

end LbBind.Lib

import Mathlib.Data.List.Basic

/-! Singly linked chains and the allocator behind their cells. A chain is the cells met along a
`next` field from a head pointer to a null pointer. A search along it is bounded by a number of
steps, so that a chain with a cycle is seen as a search without an answer. -/

namespace LbBind.Lib

variable {β : Type*}

/-- Following `next` from `head` meets exactly `cells`, then a null pointer. -/
def Chain (next : β → Option β) : Option β → List β → Prop
  | head, [] => head = none
  | head, c :: cs => head = some c ∧ Chain next (next c) cs

namespace Chain

variable {next next' : β → Option β} {head : Option β} {cells : List β}

@[simp] lemma nil_iff : Chain next head [] ↔ head = none := Iff.rfl

@[simp] lemma cons_iff {c : β} {cs : List β} :
    Chain next head (c :: cs) ↔ head = some c ∧ Chain next (next c) cs := Iff.rfl

lemma congr (h : Chain next head cells) (hc : ∀ c ∈ cells, next' c = next c) :
    Chain next' head cells := by
  induction cells generalizing head with
  | nil => exact h
  | cons c cs ih =>
    refine ⟨h.1, ?_⟩
    rw [hc c (by simp)]
    exact ih h.2 fun d hd => hc d (by simp [hd])

/-- The first cell with property `p`, met within the given number of steps; no
answer when the steps run out before the chain does. -/
def find (next : β → Option β) (p : β → Bool) : ℕ → Option β → Option (Option β)
  | _, none => some none
  | 0, some _ => none
  | steps + 1, some c => if p c then some (some c) else find next p steps (next c)

lemma find_eq {p : β → Bool} {steps : ℕ} (h : Chain next head cells)
    (hs : cells.length ≤ steps) : find next p steps head = some (cells.find? p) := by
  induction cells generalizing head steps with
  | nil =>
    rw [nil_iff.mp h]
    cases steps <;> rfl
  | cons c cs ih =>
    obtain ⟨rfl, htail⟩ := h
    obtain ⟨steps, rfl⟩ : ∃ k, steps = k + 1 := ⟨steps - 1, by simp at hs; omega⟩
    by_cases hp : p c
    · simp [find, hp]
    · simp [find, hp, ih htail (by simpa using hs)]

end Chain

/-- An allocator. The answer to a request may depend on the number of requests
made so far and on the addresses in use, and it may be a refusal; it is never an
address in use. -/
structure Allocator where
  pick : ℕ → List ℕ → Option ℕ
  fresh : ∀ n live a, pick n live = some a → a ∉ live
  gets : ℕ
  live : List ℕ

namespace Allocator

def get (m : Allocator) : Option ℕ × Allocator := match m.pick m.gets m.live with
  | none => (none, { m with gets := m.gets + 1 })
  | some a => (some a, { m with gets := m.gets + 1, live := a :: m.live })

def put (m : Allocator) (a : ℕ) : Allocator := { m with live := m.live.erase a }

lemma get_some {m m' : Allocator} {a : ℕ} (h : m.get = (some a, m')) :
    a ∉ m.live ∧ m'.live = a :: m.live := by
  unfold get at h
  cases hp : m.pick m.gets m.live with
  | none => simp [hp] at h
  | some b =>
    simp only [hp, Prod.mk.injEq, Option.some.injEq] at h
    obtain ⟨rfl, rfl⟩ := h
    exact ⟨m.fresh _ _ _ hp, rfl⟩

lemma get_none {m m' : Allocator} (h : m.get = (none, m')) : m'.live = m.live := by
  unfold get at h
  cases hp : m.pick m.gets m.live with
  | none =>
    simp only [hp, Prod.mk.injEq, true_and] at h
    rw [← h]
  | some b => simp [hp] at h

def above (live : List ℕ) : ℕ := live.foldr (fun a m => max (a + 1) m) 0

lemma lt_above {a : ℕ} {live : List ℕ} (h : a ∈ live) : a < above live := by
  induction live with
  | nil => simp at h
  | cons b live ih =>
    have hle : max (b + 1) (above live) = above (b :: live) := rfl
    rcases List.mem_cons.mp h with rfl | h
    · omega
    · have := ih h
      omega

def unlimited : Allocator where
  pick _ live := some (above live)
  fresh _ live a h hmem := by
    have := lt_above hmem
    simp only [Option.some.injEq] at h
    omega
  gets := 0
  live := []

end Allocator

end LbBind.Lib

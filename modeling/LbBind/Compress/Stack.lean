import Mathlib.Data.List.Nodup
import Mathlib.Data.List.Perm.Subperm
import LbBind.Compress.Context

/-! The table of a compression context as a stack. The registered suffixes form a list in the order
of their registration; the chain of a bucket is this list restricted to the bucket, newest first. A
rollback removes the entries at or above an offset, and the offsets grow along the list. -/

namespace LbBind.Compress

open Lib List Function Context

structure Entry where
  slot : Slot
  name : Wire
  offset : ℕ
  count : ℕ
  deriving DecidableEq

namespace Entry

def bucket (e : Entry) : ℕ := Context.bucket e.name

lemma bucket_lt (e : Entry) : e.bucket < tablesize := Context.bucket_lt _

end Entry

/-- The nodes of bucket `b`, newest first. -/
def chainOf (stack : List Entry) (b : ℕ) : List Slot :=
  ((stack.filter (·.bucket = b)).map Entry.slot).reverse

structure Holds (cctx : Context) (stack : List Entry) : Prop where
  count : cctx.count = stack.length
  name : ∀ e ∈ stack, (cctx.nodes e.slot).name = e.name
  offset : ∀ e ∈ stack, (cctx.nodes e.slot).offset = e.offset
  index : ∀ e ∈ stack, (cctx.nodes e.slot).count = e.count
  chains : ∀ b < tablesize, Chain cctx.next (cctx.table b) (chainOf stack b)
  nodup : (stack.map Entry.slot).Nodup
  placed : ∀ e ∈ stack, (e.slot = .initial e.count ∧ e.count < initialnodes) ∨
    (initialnodes ≤ e.count ∧ ∃ a ∈ cctx.mctx.live, e.slot = .heap a)
  sorted : stack.Pairwise (·.offset < ·.offset)

def Numbered (stack : List Entry) : Prop := stack.map Entry.count = List.range stack.length

namespace Context

/-- Nodes with a number below `initialnodes` are not freed. -/
structure Spares (cctx cctx' : Context) : Prop where
  caseSensitive : cctx'.caseSensitive = cctx.caseSensitive
  nodes : ∀ s, (cctx.nodes s).count < initialnodes → cctx'.nodes s = cctx.nodes s
  live : ∀ a ∈ cctx.mctx.live, (cctx.nodes (.heap a)).count < initialnodes → a ∈ cctx'.mctx.live

lemma Spares.refl (cctx : Context) : cctx.Spares cctx := ⟨rfl, fun _ _ => rfl, fun _ ha _ => ha⟩

lemma Spares.trans {c1 c2 c3 : Context} (h : c1.Spares c2) (h' : c2.Spares c3) : c1.Spares c3 := by
  refine ⟨h'.caseSensitive.trans h.caseSensitive, fun s hs => ?_, fun a ha hs => ?_⟩
  · rw [h'.nodes s (by rwa [h.nodes s hs]), h.nodes s hs]
  · exact h'.live a (h.live a ha hs) (by rwa [h.nodes _ hs])

variable (cctx : Context) (i : ℕ) {s t : Slot}

lemma pop_fields (s : Slot) : (cctx.pop i s).count = (cctx.count + (2 ^ 16 - 1)) % 2 ^ 16 ∧
    (cctx.pop i s).table = update cctx.table i (cctx.next s) ∧
    (cctx.pop i s).caseSensitive = cctx.caseSensitive := by
  unfold pop
  split
  · cases s <;> exact ⟨rfl, rfl, rfl⟩
  · exact ⟨rfl, rfl, rfl⟩

lemma pop_nodes_of_ne (h : t ≠ s) : (cctx.pop i s).nodes t = cctx.nodes t := by
  unfold pop
  split
  · cases s <;> exact update_of_ne h _ _
  · rfl

lemma mem_pop_live {a : ℕ} (ha : a ∈ cctx.mctx.live) (h : .heap a ≠ s) :
    a ∈ (cctx.pop i s).mctx.live := by
  unfold pop
  split
  · cases s with
    | initial j => exact ha
    | heap b => exact (mem_erase_of_ne (by simpa using h)).mpr ha
  · exact ha

lemma spares_pop (s : Slot) : cctx.Spares (cctx.pop i s) := by
  by_cases hs : (cctx.nodes s).count < initialnodes
  · rw [pop, if_neg (by omega)]
    exact ⟨rfl, fun _ _ => rfl, fun _ ha _ => ha⟩
  · have hne {t : Slot} (ht : (cctx.nodes t).count < initialnodes) : t ≠ s := fun h => hs (h ▸ ht)
    exact ⟨(cctx.pop_fields i s).2.2, fun t ht => cctx.pop_nodes_of_ne i (hne ht),
      fun a ha ht => cctx.mem_pop_live i ha (hne ht)⟩

end Context

/-- The nodes of bucket `b`, newest first, with what they record. -/
def Context.Contents (cctx : Context) (b : ℕ) (es : List Entry) : Prop :=
  Chain cctx.next (cctx.table b) (es.map Entry.slot) ∧ ∀ e ∈ es,
    (cctx.nodes e.slot).name = e.name ∧ (cctx.nodes e.slot).offset = e.offset ∧
      (cctx.nodes e.slot).count = e.count

namespace Holds

variable {cctx : Context} {stack : List Entry}

lemma init (nodes : Slot → Node) (mctx : Allocator) (sensitive : Bool) :
    Holds (init nodes mctx sensitive) [] := by
  constructor <;> simp [Compress.init, chainOf]

variable {e : Entry} {mctx : Allocator} {older : List Entry}

variable (h : Holds cctx stack)
include h

lemma eq_of_slot {e' : Entry} (he : e ∈ stack) (he' : e' ∈ stack)
    (hs : e.slot = e'.slot) : e = e' :=
  inj_on_of_nodup_map h.nodup he he' hs

lemma contents {b : ℕ} (hb : b < tablesize) :
    cctx.Contents b (stack.filter (·.bucket = b)).reverse := by
  refine ⟨map_reverse ▸ h.chains b hb, fun e he => ?_⟩
  have he := mem_of_mem_filter (mem_reverse.mp he)
  exact ⟨h.name e he, h.offset e he, h.index e he⟩

lemma initial_lt (hn : Numbered stack) (he : e ∈ stack) {i : ℕ} (hi : e.slot = .initial i) :
    i < cctx.count := by
  rcases h.placed e he with ⟨hs, -⟩ | ⟨-, a, -, ha⟩
  · have hmem : e.count ∈ stack.map Entry.count := mem_map_of_mem he
    rw [hn, mem_range] at hmem
    rw [hs, Slot.initial.injEq] at hi
    rwa [h.count, ← hi]
  · simp [ha] at hi

lemma newNode_fresh (hn : Numbered stack) {node : Slot}
    (hnew : cctx.newNode = (some node, mctx)) :
    (∀ e ∈ stack, e.slot ≠ node) ∧ (∀ a ∈ cctx.mctx.live, a ∈ mctx.live) ∧
      ((node = .initial cctx.count ∧ cctx.count < initialnodes) ∨
        (initialnodes ≤ cctx.count ∧ ∃ a ∈ mctx.live, node = .heap a)) := by
  unfold newNode at hnew
  by_cases hc : cctx.count < initialnodes
  · simp only [hc, if_true, Prod.mk.injEq, Option.some.injEq] at hnew
    obtain ⟨rfl, rfl⟩ := hnew
    exact ⟨fun e he hslot => lt_irrefl _ (h.initial_lt hn he hslot), fun a ha => ha,
      .inl ⟨rfl, hc⟩⟩
  · simp only [hc, if_false, Prod.mk.injEq, Option.map_eq_some_iff] at hnew
    obtain ⟨⟨a, ha, rfl⟩, rfl⟩ := hnew
    obtain ⟨hfresh, hlive⟩ := Allocator.get_some (m := cctx.mctx) (a := a) (Prod.ext ha rfl)
    refine ⟨fun e he hslot => ?_, fun b hb => by simp [hlive, hb],
      .inr ⟨by omega, a, by simp [hlive], rfl⟩⟩
    rcases h.placed e he with ⟨hi, -⟩ | ⟨-, b, hb, hb'⟩
    · simp [hi] at hslot
    · rw [hb', Slot.heap.injEq] at hslot
      exact hfresh (hslot ▸ hb)

lemma refused
    (hnew : cctx.newNode = (none, mctx)) : Holds { cctx with mctx := mctx } stack := by
  have hlive : mctx.live = cctx.mctx.live := by
    unfold newNode at hnew
    split at hnew
    · simp at hnew
    · simp only [Prod.mk.injEq, Option.map_eq_none_iff] at hnew
      obtain ⟨ha, rfl⟩ := hnew
      exact Allocator.get_none (m := cctx.mctx) (Prod.ext ha rfl)
  exact ⟨h.count, h.name, h.offset, h.index, h.chains, h.nodup, hlive ▸ h.placed, h.sorted⟩

omit h in
lemma chainOf_append (b : ℕ) (e : Entry) : chainOf (stack ++ [e]) b =
      if e.bucket = b then e.slot :: chainOf stack b else chainOf stack b := by
  by_cases hb : e.bucket = b <;> simp [chainOf, filter_append, hb]

omit h in
lemma mem_chainOf {b : ℕ} {s : Slot} (hs : s ∈ chainOf stack b) : ∃ e ∈ stack, e.slot = s := by
  simp only [chainOf, mem_reverse, mem_map, mem_filter] at hs
  obtain ⟨e, ⟨he, -⟩, rfl⟩ := hs
  exact ⟨e, he, rfl⟩

lemma push (hn : Numbered stack) {node : Slot}
    (tname : Wire) {toffset : ℕ} (hnew : cctx.newNode = (some node, mctx))
    (hsize : stack.length + 1 < 2 ^ 16) (hoff : ∀ e ∈ stack, e.offset < toffset) :
    Holds (cctx.push node mctx tname toffset) (stack ++ [⟨node, tname, toffset, cctx.count⟩]) := by
  obtain ⟨hfresh, hlive, hplace⟩ := h.newNode_fresh hn hnew
  have hold : ∀ e ∈ stack, (cctx.push node mctx tname toffset).nodes e.slot = cctx.nodes e.slot :=
    fun e he => update_of_ne (hfresh e he) _ _
  have hself : (cctx.push node mctx tname toffset).nodes node =
      ⟨tname.ndata, toffset, cctx.count, tname.labels, cctx.table (bucket tname)⟩ :=
    update_self ..
  have hchain : ∀ b < tablesize, Chain (cctx.push node mctx tname toffset).next (cctx.table b)
      (chainOf stack b) := fun b hb => (h.chains b hb).congr fun s hs => by
    obtain ⟨e, he, rfl⟩ := mem_chainOf hs
    simp only [Context.next, hold e he]
  constructor
  · simp only [Context.push, h.count, length_append, length_singleton]
    omega
  · simp only [forall_mem_append, forall_mem_singleton, hself]
    exact ⟨fun e he => by rw [hold e he, h.name e he], rfl⟩
  · simp only [forall_mem_append, forall_mem_singleton, hself]
    exact ⟨fun e he => by rw [hold e he, h.offset e he], trivial⟩
  · simp only [forall_mem_append, forall_mem_singleton, hself]
    exact ⟨fun e he => by rw [hold e he, h.index e he], trivial⟩
  · intro b hb
    rw [chainOf_append]
    by_cases he : bucket tname = b
    · rw [if_pos (by exact he)]
      refine ⟨by simp [Context.push, he], ?_⟩
      simp only [Context.next, hself, he]
      exact hchain b hb
    · rw [if_neg (by exact he)]
      simp only [Context.push, update_of_ne (Ne.symm he)]
      exact hchain b hb
  · simp only [map_append, nodup_append, map_singleton, mem_map]
    refine ⟨h.nodup, by simp, ?_⟩
    rintro _ ⟨e, he, rfl⟩ s hs
    rw [mem_singleton.mp hs]
    exact hfresh e he
  · simp only [forall_mem_append, forall_mem_singleton]
    refine ⟨fun e he => ?_, hplace⟩
    rcases h.placed e he with hi | ⟨hi, a, ha, hs⟩
    · exact .inl hi
    · exact .inr ⟨hi, a, hlive a ha, hs⟩
  · rw [pairwise_append]
    exact ⟨h.sorted, pairwise_singleton _ _, by simpa using hoff⟩

omit h in
lemma filter_ne_of_mem_last {l l' : List Entry} (h : l = l' ++ [e]) (hn : l.Nodup) :
    l.filter (· ≠ e) = l' := by
  subst h
  have hne : ∀ x ∈ l', x ≠ e := fun x hx => (nodup_append.mp hn).2.2 x hx e (by simp)
  simpa [filter_append] using hne

lemma stack_nodup : stack.Nodup := List.Nodup.of_map _ h.nodup

lemma length_filter_ne (he : e ∈ stack) :
    (stack.filter (· ≠ e)).length = stack.length - 1 := by
  have herase : stack.erase e = stack.filter (· ≠ e) := by
    rw [h.stack_nodup.erase_eq_filter e]
    exact filter_congr fun x _ => by by_cases hx : x = e <;> simp [hx]
  rw [← herase, length_erase_of_mem he]

lemma chain_last {i : ℕ} (hi : i < tablesize)
    (hlast : stack.filter (·.bucket = i) = older ++ [e]) : cctx.table i = some e.slot ∧
      Chain cctx.next (cctx.next e.slot) (older.map Entry.slot).reverse := by
  have hchain := h.chains i hi
  rwa [chainOf, hlast, map_append, reverse_append, map_singleton,
    reverse_singleton, singleton_append, Chain.cons_iff] at hchain

lemma pop (hsize : stack.length < 2 ^ 16) {i : ℕ} (hi : i < tablesize)
    (hlast : stack.filter (·.bucket = i) = older ++ [e]) :
    Holds (cctx.pop i e.slot) (stack.filter (· ≠ e)) := by
  have hmem : e ∈ stack.filter (·.bucket = i) := by simp [hlast]
  obtain ⟨he, hbucket⟩ := mem_filter.mp hmem
  have hpos := length_pos_of_mem he
  have hkeep : ∀ x ∈ stack.filter (· ≠ e), x ∈ stack ∧ x.slot ≠ e.slot := by
    intro x hx
    obtain ⟨hx, hxe⟩ := mem_filter.mp hx
    exact ⟨hx, fun hs => (of_decide_eq_true hxe) (h.eq_of_slot hx he hs)⟩
  have hnode : ∀ x ∈ stack.filter (· ≠ e),
      (cctx.pop i e.slot).nodes x.slot = cctx.nodes x.slot := fun x hx =>
    pop_nodes_of_ne _ _ (hkeep x hx).2
  constructor
  · rw [(cctx.pop_fields i e.slot).1, h.count, h.length_filter_ne he]
    omega
  · exact fun x hx => by rw [hnode x hx, h.name x (hkeep x hx).1]
  · exact fun x hx => by rw [hnode x hx, h.offset x (hkeep x hx).1]
  · exact fun x hx => by rw [hnode x hx, h.index x (hkeep x hx).1]
  · intro b hb
    have hcongr : ∀ {head : Option Slot} {l : List Entry}, (∀ x ∈ l, x ∈ stack.filter (· ≠ e)) →
        Chain cctx.next head (l.map Entry.slot).reverse →
        Chain (cctx.pop i e.slot).next head (l.map Entry.slot).reverse := by
      intro head l hl hchain
      refine hchain.congr fun s hs => ?_
      obtain ⟨x, hx, rfl⟩ := mem_map.mp (mem_reverse.mp hs)
      simp only [Context.next, hnode x (hl x hx)]
    have hfilter : ∀ x ∈ (stack.filter (· ≠ e)).filter (·.bucket = b),
        x ∈ stack.filter (· ≠ e) := fun x hx => (mem_filter.mp hx).1
    rw [chainOf, (cctx.pop_fields i e.slot).2.1]
    by_cases hbi : b = i
    · subst hbi
      have holder : (stack.filter (· ≠ e)).filter (·.bucket = b) = older := by
        rw [filter_comm]
        exact filter_ne_of_mem_last hlast (h.stack_nodup.filter _)
      rw [update_self]
      rw [holder] at hfilter ⊢
      exact hcongr hfilter (h.chain_last hb hlast).2
    · have hother : (stack.filter (· ≠ e)).filter (·.bucket = b) = stack.filter (·.bucket = b) := by
        rw [filter_filter]
        refine filter_congr fun x _ => ?_
        have : x.bucket = b → x ≠ e := fun hx hxe => hbi (by
          rw [← hx, hxe]
          exact of_decide_eq_true hbucket)
        by_cases hx : x.bucket = b <;> simp [hx, this]
      rw [update_of_ne hbi]
      rw [hother] at hfilter ⊢
      exact hcongr hfilter (h.chains b hb)
  · exact h.nodup.sublist (filter_sublist.map _)
  · intro x hx
    obtain ⟨hxs, hne⟩ := hkeep x hx
    rcases h.placed x hxs with hp | ⟨hp, a, ha, hs⟩
    · exact .inl hp
    · exact .inr ⟨hp, a, mem_pop_live _ _ ha (hs ▸ hne), hs⟩
  · exact h.sorted.sublist filter_sublist

/-- The entries left when the entries of bucket `i` at or above `offset` are gone. -/
def rolled (offset i : ℕ) (e : Entry) : Bool := ¬(e.bucket = i ∧ offset ≤ e.offset)

lemma rollbackChain (offset i : ℕ) (hi : i < tablesize) (rounds : ℕ)
    (hsize : stack.length < 2 ^ 16) (hrounds : (stack.filter (·.bucket = i)).length < rounds) :
    ∃ cctx', Context.rollbackChain offset i rounds cctx = some cctx' ∧
      cctx.Spares cctx' ∧ Holds cctx' (stack.filter (rolled offset i)) := by
  induction rounds generalizing cctx stack with
  | zero => omega
  | succ rounds ih =>
    rcases eq_nil_or_concat' (stack.filter (·.bucket = i)) with hnil | ⟨older, e, hlast⟩
    · -- an empty chain
      have htable : cctx.table i = none := by
        have hchain := h.chains i hi
        rwa [chainOf, hnil] at hchain
      have hsame : stack.filter (rolled offset i) = stack := by
        rw [filter_eq_self]
        intro e he
        have := filter_eq_nil_iff.mp hnil e he
        simp only [decide_eq_true_eq] at this
        simp [rolled, this]
      exact ⟨cctx, by simp only [Context.rollbackChain, htable], .refl cctx, hsame.symm ▸ h⟩
    · have htable := (h.chain_last hi hlast).1
      obtain ⟨he, hbucket⟩ := mem_filter.mp
        (show e ∈ stack.filter (·.bucket = i) by simp [hlast])
      simp only [decide_eq_true_eq] at hbucket
      simp only [Context.rollbackChain, htable, h.offset e he]
      by_cases ho : e.offset ≥ offset
      · -- the newest node goes, and the loop goes on with the rest
        rw [if_pos ho]
        have hpop := h.pop hsize hi hlast
        have hrest : (stack.filter (· ≠ e)).filter (·.bucket = i) = older := by
          rw [filter_comm]
          exact filter_ne_of_mem_last hlast (h.stack_nodup.filter _)
        obtain ⟨cctx', hrun, hspares, hholds⟩ := ih hpop
          (lt_of_le_of_lt (length_filter_le _ _) hsize)
          (by rw [hrest]; simp [hlast] at hrounds; omega)
        refine ⟨cctx', hrun, (cctx.spares_pop i e.slot).trans hspares, ?_⟩
        have hsame : (stack.filter (· ≠ e)).filter (rolled offset i) =
            stack.filter (rolled offset i) := by
          rw [filter_filter]
          refine filter_congr fun x _ => ?_
          have : rolled offset i x → x ≠ e := by
            rintro hx rfl
            simp [rolled, hbucket, ho] at hx
          by_cases hx : rolled offset i x = true <;> simp [hx, this]
        exact hsame ▸ hholds
      · -- the newest node is below the offset, and so are the older ones
        rw [if_neg ho]
        refine ⟨cctx, rfl, .refl cctx, ?_⟩
        have hsame : stack.filter (rolled offset i) = stack := by
          rw [filter_eq_self]
          intro x hx
          by_cases hxb : x.bucket = i
          · have hxo : x.offset ≤ e.offset := by
              have hsorted := h.sorted.sublist (filter_sublist (p := (·.bucket = i)))
              have hmem : x ∈ stack.filter (·.bucket = i) := by simp [hx, hxb]
              rw [hlast] at hsorted hmem
              rcases mem_append.mp hmem with hm | hm
              · exact ((pairwise_append.mp hsorted).2.2 x hm e (by simp)).le
              · rw [mem_singleton.mp hm]
            simp only [rolled, hxb, true_and, decide_eq_true_eq]
            omega
          · simp [rolled, hxb]
        exact hsame.symm ▸ h

lemma rollback (hsize : stack.length < 2 ^ 16) (offset : ℕ) :
    ∃ cctx', cctx.rollback offset = some cctx' ∧ cctx.Spares cctx' ∧
      Holds cctx' (stack.filter (·.offset < offset)) := by
  have hchains : ∀ k ≤ tablesize, ∃ cctx',
      (range k).foldlM (fun c i => Context.rollbackChain offset i (2 ^ 16) c) cctx =
        some cctx' ∧ cctx.Spares cctx' ∧
      Holds cctx' (stack.filter fun e => ¬(e.bucket < k ∧ offset ≤ e.offset)) := by
    intro k
    induction k with
    | zero => exact fun _ => ⟨cctx, rfl, .refl cctx, by simpa using h⟩
    | succ k ih =>
      intro hk
      obtain ⟨c, hrun, hspares, hholds⟩ := ih (by omega)
      have hlen := length_filter_le (fun e => ¬(e.bucket < k ∧ offset ≤ e.offset)) stack
      have hlen' := length_filter_le (·.bucket = k)
        (stack.filter fun e => ¬(e.bucket < k ∧ offset ≤ e.offset))
      obtain ⟨c', hrun', hspares', hholds'⟩ :=
        hholds.rollbackChain offset k (by omega) (2 ^ 16) (by omega) (by omega)
      refine ⟨c', ?_, hspares.trans hspares', ?_⟩
      · rw [range_succ, foldlM_append, hrun]
        simpa using hrun'
      · rw [filter_filter] at hholds'
        convert hholds' using 2
        funext e
        by_cases hb : e.bucket = k
        · simp [rolled, hb]
        · have : e.bucket < k + 1 ↔ e.bucket < k := by omega
          simp [rolled, hb, this]
  obtain ⟨c, hrun, hspares, hholds⟩ := hchains tablesize le_rfl
  refine ⟨c, hrun, hspares, ?_⟩
  convert hholds using 2
  funext e
  simp [e.bucket_lt]

end Holds

variable {stack : List Entry}

lemma exists_eq_filter_append (h : stack.Pairwise (·.offset < ·.offset))
    (offset : ℕ) : ∃ rest, stack = stack.filter (·.offset < offset) ++ rest := by
  induction stack with
  | nil => exact ⟨[], rfl⟩
  | cons e stack ih =>
    obtain ⟨he, hstack⟩ := pairwise_cons.mp h
    by_cases ho : e.offset < offset
    · obtain ⟨rest, hrest⟩ := ih hstack
      refine ⟨rest, ?_⟩
      simp only [ho, filter_cons_of_pos, decide_true, cons_append]
      rw [← hrest]
    · refine ⟨e :: stack, ?_⟩
      have hnil : (e :: stack).filter (·.offset < offset) = [] := by
        rw [filter_eq_nil_iff]
        intro x hx
        rcases mem_cons.mp hx with rfl | hx
        · simpa using ho
        · have := he x hx
          simp only [decide_eq_true_eq]
          omega
      rw [hnil, nil_append]

lemma Numbered.filter (h : Numbered stack) (hs : stack.Pairwise (·.offset < ·.offset))
    (offset : ℕ) : Numbered (stack.filter (·.offset < offset)) := by
  obtain ⟨rest, hrest⟩ := exists_eq_filter_append hs offset
  generalize stack.filter (·.offset < offset) = first at hrest
  subst hrest
  simp only [Numbered, map_append, length_append, range_add] at h ⊢
  exact (append_inj h (by simp)).1

lemma Numbered.append (h : Numbered stack) (node : Slot) (tname : Wire)
    (toffset : ℕ) : Numbered (stack ++ [⟨node, tname, toffset, stack.length⟩]) := by
  simp only [Numbered, map_append, map_cons, map_nil, length_append, length_singleton, range_succ]
  rw [h]

/-- No registered suffix starts beyond the first `0x4000` bytes by more than a name. -/
def Near (stack : List Entry) : Prop := ∀ e ∈ stack, e.offset < 0x4000 + 255

lemma length_lt_of_near (hs : stack.Pairwise (·.offset < ·.offset))
    (hnear : Near stack) : stack.length + 1 < 2 ^ 16 := by
  have hnodup : (stack.map Entry.offset).Nodup := by
    rw [List.Nodup, pairwise_map]
    exact hs.imp fun h => Nat.ne_of_lt h
  have hsub : stack.map Entry.offset ⊆ range (0x4000 + 255) := by
    intro o ho
    obtain ⟨e, he, rfl⟩ := mem_map.mp ho
    exact mem_range.mpr (hnear e he)
  have := (hnodup.subperm hsub).length_le
  simp only [length_map, length_range] at this
  omega

namespace Holds

variable {cctx : Context} {stack : List Entry}

lemma findLoop (h : Holds cctx stack) (hsize : stack.length ≤ 2 ^ 16) (name : Name) (k n : ℕ) :
    ∃ found, cctx.findLoop name k n = some found ∧ ∀ m go, found = some (m, go) →
      n ≤ m ∧ m < n + k ∧ ∃ e ∈ stack, e.offset = go ∧
        sameName cctx.caseSensitive e.name (wire (name.labels.drop m)) := by
  induction k generalizing n with
  | zero => exact ⟨none, rfl, by simp⟩
  | succ k ih =>
    have htname : (name.getlabelsequence n (name.labels.length - n)).wire =
        wire (name.labels.drop n) := by
      simp [Name.wire, Name.getlabelsequence, take_of_length_le]
    have hlen : (chainOf stack (bucket (wire (name.labels.drop n)))).length ≤ 2 ^ 16 := by
      simp only [chainOf, length_reverse, length_map]
      exact (length_filter_le _ _).trans hsize
    have hsearch := Chain.find_eq (p := cctx.hit (wire (name.labels.drop n)))
      (h.chains _ (bucket_lt _)) hlen
    simp only [Context.findLoop, htname]
    cases hfind : (chainOf stack (bucket (wire (name.labels.drop n)))).find?
        (cctx.hit (wire (name.labels.drop n))) with
    | none =>
      rw [hsearch, hfind]
      obtain ⟨found, hrun, hsound⟩ := ih (n + 1)
      refine ⟨found, hrun, fun m go hm => ?_⟩
      obtain ⟨h1, h2, h3⟩ := hsound m go hm
      exact ⟨by omega, by omega, h3⟩
    | some s =>
      rw [hsearch, hfind]
      refine ⟨_, rfl, fun m go hm => ?_⟩
      obtain ⟨e, he, rfl⟩ := mem_chainOf (mem_of_find?_eq_some hfind)
      have hhit := find?_some hfind
      simp only [Option.some.injEq, Prod.mk.injEq, h.offset e he] at hm
      obtain ⟨rfl, rfl⟩ := hm
      refine ⟨le_rfl, by omega, e, he, rfl, ?_⟩
      rwa [hit, h.name e he] at hhit

lemma addLoop (name : Name) (offset count start : ℕ) (h : Holds cctx stack)
    (hn : Numbered stack) (hnear : Near stack) (hlast : start + count < name.labels.length)
    (hoff : ∀ e ∈ stack, e.offset < offset + (wireOf (name.labels.take start)).length) :
    ∃ new, Holds (addLoop name offset count start cctx) (stack ++ new) ∧
      Numbered (stack ++ new) ∧ Near (stack ++ new) ∧
      (addLoop name offset count start cctx).caseSensitive = cctx.caseSensitive ∧
      ∀ e ∈ new, ∃ k < start + count, e.offset = offset + (wireOf (name.labels.take k)).length ∧
          e.name = wire (name.labels.drop k) := by
  induction count generalizing start cctx stack with
  | zero => exact ⟨[], by simpa [addLoop] using ⟨h, hn, hnear⟩⟩
  | succ count ih =>
    unfold addLoop
    by_cases hbig : offset ≥ 0x4000
    · exact ⟨[], by simpa [hbig] using ⟨h, hn, hnear⟩⟩
    have hsplit := length_wireOf_take_add_drop name.labels start
    have hshort := name.short
    have htake : (name.labels.drop start).take (name.labels.length - start) =
        name.labels.drop start := take_of_length_le (by simp)
    have htoffset : (offset + (name.length - (name.getlabelsequence start
        (name.labels.length - start)).length)) % 2 ^ 16 =
        offset + (wireOf (name.labels.take start)).length := by
      simp only [Name.length, Name.getlabelsequence, htake]
      omega
    have htname : (name.getlabelsequence start (name.labels.length - start)).wire =
        wire (name.labels.drop start) := by
      simp only [Name.wire, Name.getlabelsequence, htake]
    simp only [hbig, if_false, htoffset, htname]
    cases hnew : cctx.newNode with
    | mk node mctx =>
      cases node with
      | none =>
        refine ⟨[], ?_⟩
        simpa using ⟨h.refused hnew, hn, hnear⟩
      | some node =>
        have hpush := h.push hn (wire (name.labels.drop start)) hnew
          (length_lt_of_near h.sorted hnear) hoff
        have hnum := hn.append node (wire (name.labels.drop start))
          (offset + (wireOf (name.labels.take start)).length)
        rw [← h.count] at hnum
        have hnext : (wireOf (name.labels.take start)).length <
            (wireOf (name.labels.take (start + 1))).length := by
          rw [take_succ_eq_append_getElem (by omega), wireOf_append, length_append]
          simp
        have hnear' : Near (stack ++ [⟨node, wire (name.labels.drop start),
            offset + (wireOf (name.labels.take start)).length, cctx.count⟩]) := by
          simp only [Near, forall_mem_append, forall_mem_singleton]
          exact ⟨hnear, by omega⟩
        obtain ⟨new, hholds, hnum', hnear', hcase, hspec⟩ :=
          ih (start + 1) hpush hnum hnear' (by omega) (by
            simp only [forall_mem_append, forall_mem_singleton]
            exact ⟨fun e he => (hoff e he).trans (by omega), by omega⟩)
        refine ⟨_ :: new, by simpa using hholds, by simpa using hnum', by simpa using hnear',
          hcase, ?_⟩
        simp only [forall_mem_cons]
        refine ⟨⟨start, by omega, rfl, rfl⟩, fun e he => ?_⟩
        obtain ⟨k, hk, hspec⟩ := hspec e he
        exact ⟨k, by omega, hspec⟩

end Holds

end LbBind.Compress

import Mathlib.Algebra.Order.Group.Multiset
import Mathlib.Data.Finset.Lattice.Lemmas
import LbBind.Keytable.Table

/-! The table answers for each name whether there is a trust anchor at or above it, as long as no
name is marked as secure for which there is a node without data, and no key is added to a name that
is only marked. A node without data stands where two names part, and for a deleted name that has
others below it. -/

namespace LbBind.Keytable

open Rbt Levels List Function Anchors Keynode

variable {α μ : Type*} [LinearOrder α] [DecidableEq μ] {t t' : Table α μ} {A : Anchors α μ}
  {bal : Balancer α (List (Keynode μ))} {name : List α} {chain : List (Keynode μ)}
  {S : Finset (Option μ)}

def Keynode.anchor (k : Keynode μ) : Option μ := match k.key with
  | .null => none
  | .held m => some m
  | .released m => some m

def keys (chain : List (Keynode μ)) : Finset (Option μ) := (chain.map anchor).toFinset

inductive ChainOk : List (Keynode μ) → Prop
  | marked (managed : Bool) : ChainOk [⟨.null, managed⟩]
  | listed (chain : List (Keynode μ)) (hne : chain ≠ []) (hheld : ∀ k ∈ chain, ∃ m, k.key = .held m)
      (hnodup : (chain.map anchor).Nodup) : ChainOk chain

omit [DecidableEq μ] in
lemma ChainOk.ne_nil (h : ChainOk chain) : chain ≠ [] := by
  cases h with
  | marked => simp
  | listed _ hne => exact hne

omit [DecidableEq μ] in
lemma ChainOk.pointer (h : ChainOk chain) : pointer chain = some chain := by
  simp [Keytable.pointer, h.ne_nil]

lemma ChainOk.keys_nonempty (h : ChainOk chain) : (keys chain).Nonempty := by
  obtain ⟨k, hk⟩ := exists_mem_of_ne_nil chain h.ne_nil
  exact ⟨k.anchor, mem_toFinset.mpr (mem_map_of_mem hk)⟩

variable {m : μ} {key : Key α μ}

omit [DecidableEq μ] in
lemma anchor_held {k : Keynode μ} (h : k.key = .held m) : k.anchor = some m := by
  simp [anchor, h]

section
variable (hheld : ∀ k ∈ chain, ∃ m, k.key = .held m)
include hheld

lemma none_notMem_keys : none ∉ keys chain := by
  intro h
  obtain ⟨k, hk, hnone⟩ := mem_map.mp (mem_toFinset.mp h)
  obtain ⟨m, hm⟩ := hheld k hk
  simp [anchor_held hm] at hnone

omit hheld in
lemma keys_cons (k : Keynode μ) (ks : List (Keynode μ)) :
    keys (k :: ks) = Insert.insert k.anchor (keys ks) := by
  simp [keys]

lemma storeKey_spec :
    storeKey m chain = some (some chain) ∧ some m ∈ keys chain ∨
      storeKey m chain = some none ∧ some m ∉ keys chain := by
  induction chain with
  | nil => exact .inr ⟨rfl, by simp [keys]⟩
  | cons k ks ih =>
    obtain ⟨m', hm'⟩ := hheld k (.head _)
    rw [storeKey, hm', keys_cons, anchor_held hm']
    simp only [Finset.mem_insert]
    by_cases heq : m' = m
    · rw [if_pos heq]
      exact .inl ⟨rfl, .inl (by rw [heq])⟩
    · rw [if_neg heq]
      have hne : some m ≠ some m' := fun h => heq (Option.some.inj h).symm
      rcases ih fun k hk => hheld k (.tail _ hk) with ⟨hstore, hmem⟩ | ⟨hstore, hmem⟩
      · exact .inl ⟨by simp [hstore], .inr hmem⟩
      · exact .inr ⟨by simp [hstore], by simp [hne, hmem]⟩

lemma removeKey_spec
    (hnodup : (chain.map anchor).Nodup) :
    (∃ rest, removeKey m chain = some (some rest) ∧ rest.Sublist chain ∧ some m ∈ keys chain ∧
      chain.length = rest.length + 1 ∧ keys rest = (keys chain).erase (some m)) ∨
    removeKey m chain = some none ∧ some m ∉ keys chain := by
  induction chain with
  | nil => exact .inr ⟨rfl, by simp [keys]⟩
  | cons k ks ih =>
    obtain ⟨m', hm'⟩ := hheld k (.head _)
    have hkeys : ∀ ks, keys (k :: ks) = Insert.insert (some m') (keys ks) := fun ks => by
      rw [keys_cons, anchor_held hm']
    rw [map_cons, nodup_cons, anchor_held hm'] at hnodup
    rw [removeKey, hm', compare]
    by_cases heq : m' = m
    · subst heq
      refine .inl ⟨ks, by simp, sublist_cons_self .., by simp [hkeys], rfl, ?_⟩
      have hnot : some m' ∉ keys ks := fun h => hnodup.1 (mem_toFinset.mp h)
      rw [hkeys, Finset.erase_insert hnot]
    · have hne : some m ≠ some m' := fun h => heq (Option.some.inj h).symm
      simp only [heq, decide_false]
      rcases ih (fun k hk => hheld k (.tail _ hk)) hnodup.2 with
        ⟨rest, hremove, hsub, hmem, hlength, hrest⟩ | ⟨hremove, hmem⟩
      · refine .inl ⟨k :: rest, by simp [hremove], hsub.cons_cons k, by simp [hkeys, hmem],
          by simp [hlength], ?_⟩
        rw [hkeys, hkeys, hrest, Finset.erase_insert_of_ne hne.symm]
      · exact .inr ⟨by simp [hremove], by simp [hkeys, hne, hmem]⟩

end

structure Stores (t : Table α μ) (A : Anchors α μ) : Prop where
  good : t.Good
  present : ∀ k chain, t.Holds k (some chain) → ChainOk chain ∧ A k = keys chain
  absent : ∀ k, (∀ chain, ¬t.Holds k (some chain)) → A k = ∅

lemma stores_empty : Stores (nil : Table α μ) empty :=
  ⟨good_nil, fun _ _ h => h.elim, fun _ _ => rfl⟩

lemma Stores.alter (h : Stores t A) {new : Option (List (Keynode μ))}
    (spec : AlterSpec t name new t') (hsome : ∀ chain, new = some chain → ChainOk chain ∧ S = keys chain)
    (hnone : new = none → S = ∅) : Stores t' (update A name S) := by
  refine ⟨spec.good, fun k chain hold => ?_, fun k hk => ?_⟩
  · rcases (spec.data k chain).mp hold with ⟨rfl, hnew⟩ | ⟨hne, hold⟩
    · rw [update_self]
      exact hsome chain hnew
    · rw [update_of_ne hne]
      exact h.present k chain hold
  · by_cases heq : k = name
    · rw [heq, update_self]
      cases hnew : new with
      | none => exact hnone hnew
      | some chain => exact absurd ((spec.data k chain).mpr (.inl ⟨heq, hnew⟩)) (hk chain)
    · rw [update_of_ne heq]
      exact h.absent k fun chain hold => hk chain ((spec.data k chain).mpr (.inr ⟨heq, hold⟩))

lemma Stores.setData (h : Stores t A) {d : Option (List (Keynode μ))} (hmem : t.Holds name d)
    (hchain : ChainOk chain) (hS : S = keys chain) :
    Stores (t.setData bal name (pointer chain)) (update A name S) := by
  refine h.alter (setData_spec bal h.good hmem) (fun c hc => ?_) fun hc => ?_
  · rw [hchain.pointer] at hc
    cases hc
    exact ⟨hchain, hS⟩
  · rw [hchain.pointer] at hc
    cases hc

lemma Stores.congr (h : Stores t A) (hgood : t'.Good)
    (hdata : ∀ k v, t'.Holds k (some v) ↔ t.Holds k (some v)) : Stores t' A :=
  ⟨hgood, fun k c hold => h.present k c ((hdata k c).mp hold),
    fun k hk => h.absent k fun c hold => hk c ((hdata k c).mpr hold)⟩

omit [DecidableEq μ] in
lemma dataOf_eq (h : t.Good) (hname : name ≠ []) (hold : t.Holds name (some chain)) :
    (t.findnode name).1 = .success ∧ dataOf t name = chain := by
  have spec := findnode_spec h hname
  rw [dataOf]
  generalize t.findnode name = out at spec ⊢
  cases spec with
  | held k v hk hpre hdeep =>
    obtain rfl : k = name := hpre.eq_of_length_le (hdeep name chain hold (prefix_refl _)).length_le
    obtain rfl := Option.some.inj (h.holds_unique hk hold)
    simp
  | none hnone => exact absurd (prefix_refl _) (hnone name chain hold)

omit [DecidableEq μ] in
lemma not_success (h : t.Good) (hname : name ≠ []) (hnone : ∀ chain, ¬t.Holds name (some chain)) :
    (t.findnode name).1 ≠ .success ∧ dataOf t name = [] := by
  have spec := findnode_spec h hname
  rw [dataOf]
  generalize t.findnode name = out at spec ⊢
  cases spec with
  | held k v hk hpre hdeep =>
    have hne : k ≠ name := fun heq => hnone v (heq ▸ hk)
    simp [hne]
  | none => simp

/-- A name with a node without data is not marked. No key is added to a name that is only marked:
`insert` frees that key, and the calls after it look at the freed one. -/
def Allowed (t : Table α μ) : Op α μ → Prop
  | .add _ key => ∀ k ∈ dataOf t key.name, k.key ≠ .null
  | .marksecure name => ¬t.Holds name none
  | .delete _ => True
  | .deletekeynode _ => True

omit [DecidableEq μ] in
lemma ChainOk.held (h : ChainOk chain) (hnull : ∀ k ∈ chain, k.key ≠ .null) :
    (∀ k ∈ chain, ∃ m, k.key = .held m) ∧ (chain.map anchor).Nodup := by
  cases h with
  | marked managed => exact absurd rfl (hnull _ (mem_singleton_self _))
  | listed _ _ hheld hnodup => exact ⟨hheld, hnodup⟩

lemma chainOk_cons (managed : Bool) (hheld : ∀ k ∈ chain, ∃ m, k.key = .held m)
    (hnodup : (chain.map anchor).Nodup) (hnew : some m ∉ keys chain) :
    ChainOk (⟨.held m, managed⟩ :: chain) ∧
      keys (⟨.held m, managed⟩ :: chain) = {some m} ∪ (keys chain).erase none := by
  refine ⟨.listed _ (by simp) (fun k hk => ?_) ?_, ?_⟩
  · rcases mem_cons.mp hk with rfl | hk
    · exact ⟨m, rfl⟩
    · exact hheld k hk
  · exact nodup_cons.mpr ⟨fun h => hnew (mem_toFinset.mpr h), hnodup⟩
  · rw [keys_cons, Finset.erase_eq_of_notMem (none_notMem_keys hheld), Finset.singleton_union]
    rfl

section
variable (h : Stores t A)
include h

lemma Stores.add {managed : Bool} (hname : key.name ≠ [])
    (hallowed : Allowed t (.add managed key)) :
    ∃ t', add bal t managed key = some t' ∧ Stores t' (A.step (.add managed key)) := by
  obtain ⟨name, m⟩ := key
  simp only at hname
  have spec := addnode_spec bal h.good hname
  simp only [add, insert, Allowed] at hallowed ⊢
  generalize t.addnode bal name = p at spec ⊢
  obtain ⟨result, t1⟩ := p
  have hstores := h.congr spec.good spec.data
  obtain ⟨d, hmem⟩ := spec.mem
  have hfresh : dataOf t1 name = [] → A name = ∅ →
      Stores (t1.setData bal name (pointer (⟨.held m, managed⟩ :: dataOf t1 name)))
        (update A name ({some m} ∪ (A name).erase none)) := fun hdata hempty => by
    have hnil : some m ∉ keys ([] : List (Keynode μ)) := by simp [keys]
    obtain ⟨hchain, hkeys⟩ := chainOk_cons managed (by simp) (by simp) hnil
    rw [hdata, hempty]
    exact hstores.setData hmem hchain hkeys.symm
  rcases spec.result with ⟨hexists, heq⟩ | ⟨hsuccess, hnew⟩
  · simp only at hexists heq hmem hfresh ⊢
    subst hexists heq
    simp only [if_true]
    cases d with
    | none =>
      have hnone : ∀ chain, ¬t1.Holds name (some chain) := fun chain hold => by
        cases h.good.holds_unique hmem hold
      have hdata := (not_success h.good hname hnone).2
      exact ⟨_, by simp [hdata, storeKey], hfresh hdata (h.absent name hnone)⟩
    | some chain =>
      obtain ⟨hchain, hkeys⟩ := h.present name chain hmem
      have hdata := (dataOf_eq h.good hname hmem).2
      rw [hdata] at hallowed ⊢
      obtain ⟨hheld, hnodup⟩ := hchain.held hallowed
      rcases storeKey_spec (m := m) hheld with ⟨hstore, hin⟩ | ⟨hstore, hin⟩
      · refine ⟨_, by rw [hstore], h.setData hmem hchain ?_⟩
        rw [hkeys, Finset.erase_eq_of_notMem (none_notMem_keys hheld), Finset.singleton_union,
          Finset.insert_eq_of_mem hin]
      · obtain ⟨hcons, heq⟩ := chainOk_cons managed hheld hnodup hin
        exact ⟨_, by rw [hstore], h.setData hmem hcons (by rw [hkeys, heq])⟩
  · simp only at hsuccess hmem hfresh ⊢
    subst hsuccess
    have hnone : ∀ chain, ¬t.Holds name (some chain) := fun chain => hnew (some chain)
    have hdata := (not_success hstores.good hname fun chain hold =>
      hnone chain ((spec.data name chain).mp hold)).2
    exact ⟨_, if_neg (by simp), hfresh hdata (h.absent name hnone)⟩

lemma Stores.marksecure (hname : name ≠ []) (hallowed : Allowed t (.marksecure name)) :
    ∃ t', Keytable.marksecure bal t name = some t' ∧ Stores t' (A.step (.marksecure name)) := by
  have spec := addnode_spec bal h.good hname
  rw [Keytable.marksecure, insert]
  generalize t.addnode bal name = p at spec ⊢
  obtain ⟨result, t1⟩ := p
  have hstores := h.congr spec.good spec.data
  obtain ⟨d, hmem⟩ := spec.mem
  rcases spec.result with ⟨hexists, heq⟩ | ⟨hsuccess, hnew⟩
  · simp only at hexists heq hmem ⊢
    subst hexists heq
    refine ⟨_, if_neg (by simp), ?_⟩
    cases d with
    | none => exact absurd hmem hallowed
    | some chain =>
      obtain ⟨hchain, hkeys⟩ := h.present name chain hmem
      have hne : A name ≠ ∅ := hkeys ▸ hchain.keys_nonempty.ne_empty
      rw [Anchors.step, if_neg hne, update_eq_self]
      exact h
  · simp only at hsuccess hmem ⊢
    subst hsuccess
    refine ⟨_, if_pos rfl, ?_⟩
    have hempty : A name = ∅ := h.absent name fun chain => hnew (some chain)
    exact hstores.setData hmem (.marked true) (by simp [hempty, keys, anchor])

lemma Stores.deleteNode (bal : Balancer α (List (Keynode μ))) (hname : name ≠ []) (hold : t.Holds name (some chain)) :
    ∃ t', deleteNode bal t name = some t' ∧ Stores t' (update A name ∅) := by
  have hdata := (dataOf_eq h.good hname hold).2
  refine ⟨_, if_pos ?_, h.alter (deletenode_spec bal h.good hold) (by simp) fun _ => rfl⟩
  rw [hdata, all_eq_true]
  intro k hk
  cases (h.present name chain hold).1 with
  | marked managed => rw [mem_singleton.mp hk]
  | listed _ _ hheld =>
    obtain ⟨m, hm⟩ := hheld k hk
    rw [hm]

lemma Stores.delete (hname : name ≠ []) :
    ∃ t', Keytable.delete bal t name = some t' ∧ Stores t' (A.step (.delete name)) := by
  rw [Keytable.delete, Anchors.step]
  by_cases hold : ∃ chain, t.Holds name (some chain)
  · obtain ⟨chain, hold⟩ := hold
    rw [if_pos (dataOf_eq h.good hname hold).1]
    exact h.deleteNode bal hname hold
  · push Not at hold
    rw [if_neg (not_success h.good hname hold).1, ← h.absent name hold, update_eq_self]
    exact ⟨t, rfl, h⟩

lemma Stores.removeKey (bal : Balancer α (List (Keynode μ))) (hold : t.Holds name (some chain))
    (hheld : ∀ k ∈ chain, ∃ m, k.key = .held m) (hnodup : (chain.map anchor).Nodup)
    (hmany : 1 < chain.length ∨ some m ∉ keys chain) :
    ∃ t', storeRest bal t name (removeKey m chain) = some t' ∧
      Stores t' (update A name ((keys chain).erase (some m))) := by
  rcases removeKey_spec (m := m) hheld hnodup with
    ⟨rest, hrest, hsub, hmem, hlength, hkeys⟩ | ⟨hrest, hnot⟩
  · refine ⟨_, by rw [hrest, storeRest], h.setData hold (.listed rest ?_ ?_ ?_) hkeys.symm⟩
    · rintro rfl
      exact hmany.elim (by simp [hlength]) (absurd hmem)
    · exact fun k hk => hheld k (hsub.subset hk)
    · exact hnodup.sublist (hsub.map _)
  · refine ⟨t, by rw [hrest, storeRest], ?_⟩
    rw [Finset.erase_eq_of_notMem hnot, ← (h.present name chain hold).2, update_eq_self]
    exact h

lemma Stores.deletekeynode (hname : key.name ≠ []) :
    ∃ t', deletekeynode bal t key = some t' ∧ Stores t' (A.step (.deletekeynode key)) := by
  obtain ⟨name, m⟩ := key
  simp only at hname
  simp only [deletekeynode, Anchors.step]
  by_cases hold : ∃ chain, t.Holds name (some chain)
  · obtain ⟨chain, hold⟩ := hold
    obtain ⟨hsuccess, hdata⟩ := dataOf_eq h.good hname hold
    obtain ⟨hchain, hkeys⟩ := h.present name chain hold
    rw [if_pos hsuccess, hdata, hkeys]
    have hgone := h.deleteNode bal hname hold
    cases hchain with
    | marked managed => simpa [keys, anchor] using hgone
    | listed _ hne hheld hnodup =>
      have hnull : keys chain ≠ {none} := fun heq =>
        none_notMem_keys hheld (heq ▸ Finset.mem_singleton_self _)
      rw [if_neg hnull]
      have hremove := h.removeKey bal (m := m) hold hheld hnodup
      match chain, hne with
      | [k], _ =>
        obtain ⟨m', hm'⟩ := hheld k (mem_singleton_self _)
        have hkeys' : keys [k] = {some m'} := by simp [keys, anchor_held hm']
        simp only [hm', compare, reduceCtorEq, decide_false, Bool.false_or, Option.some.injEq,
          decide_eq_true_eq]
        by_cases heq : m' = m
        · simpa [heq, hkeys'] using hgone
        · rw [if_neg heq]
          exact hremove (.inr (by simpa [hkeys', eq_comm] using heq))
      | k :: k' :: ks, _ => simpa using hremove (.inl (by simp))
  · push Not at hold
    have hempty := h.absent name hold
    rw [if_neg (not_success h.good hname hold).1, hempty, if_neg (by simp), Finset.erase_empty,
      ← hempty, update_eq_self]
    exact ⟨t, rfl, h⟩

lemma Stores.step (bal : Balancer α (List (Keynode μ))) {op : Op α μ} (hname : op.name ≠ [])
    (hallowed : Allowed t op) : ∃ t', step bal t op = some t' ∧ Stores t' (A.step op) := by
  cases op with
  | add managed key => exact h.add hname hallowed
  | marksecure name => exact h.marksecure hname hallowed
  | delete name => exact h.delete hname
  | deletekeynode key => exact h.deletekeynode hname

def AllowedRun (bal : Balancer α (List (Keynode μ))) : List (Op α μ) → Table α μ → Prop
  | [], _ => True
  | op :: ops, t => Allowed t op ∧ ∀ t', Keytable.step bal t op = some t' → AllowedRun bal ops t'

lemma Stores.run {ops : List (Op α μ)} (hnames : ∀ op ∈ ops, op.name ≠ [])
    (hallowed : AllowedRun bal ops t) :
    ∃ t', run bal ops t = some t' ∧ Stores t' (A.run ops) := by
  induction ops generalizing t A with
  | nil => exact ⟨t, rfl, h⟩
  | cons op ops ih =>
    obtain ⟨t1, hstep, hstores⟩ := h.step bal (hnames op (.head _)) hallowed.1
    obtain ⟨t', hrun, hstores'⟩ := ih hstores (fun op hop => hnames op (.tail _ hop))
      (hallowed.2 t1 hstep)
    exact ⟨t', by rw [run, hstep]; exact hrun, hstores'⟩

def Deepest (A : Anchors α μ) (name p : List α) : Prop :=
  p <+: name ∧ A.Secure p ∧ ∀ q, q <+: name → A.Secure q → q <+: p

lemma Stores.secure_iff {k : List α} : A.Secure k ↔ ∃ chain, t.Holds k (some chain) := by
  constructor
  · intro hsecure
    by_contra hnone
    push Not at hnone
    rw [Secure, h.absent k hnone] at hsecure
    exact Finset.not_nonempty_empty hsecure
  · rintro ⟨chain, hold⟩
    obtain ⟨hchain, hkeys⟩ := h.present k chain hold
    rw [Secure, hkeys]
    exact hchain.keys_nonempty

lemma Stores.search (hname : name ≠ []) : (issecuredomain t name ↔ ∃ p, p <+: name ∧ A.Secure p) ∧
      ((∃ p, finddeepestmatch t name = (.success, some p) ∧ Deepest A name p) ∨
        finddeepestmatch t name = (.notFound, none) ∧ ∀ p, p <+: name → ¬A.Secure p) := by
  have spec := findnode_spec h.good hname
  simp only [issecuredomain, finddeepestmatch, Deepest, h.secure_iff]
  generalize t.findnode name = out at spec ⊢
  cases spec with
  | held k v hold hk hdeep =>
    refine ⟨?_, .inl ⟨k, ?_, hk, ⟨v, hold⟩, fun q hq ⟨w, hw⟩ => hdeep q w hw hq⟩⟩
    · have hexists : ∃ p, p <+: name ∧ ∃ chain, t.Holds p (some chain) := ⟨k, hk, v, hold⟩
      by_cases heq : k = name <;> simp [heq, hexists]
    · by_cases heq : k = name <;> simp [heq]
  | none hnone =>
    refine ⟨?_, .inr ⟨by simp, fun p hp ⟨w, hw⟩ => hnone p w hw hp⟩⟩
    have hnot : ¬∃ p, p <+: name ∧ ∃ chain, t.Holds p (some chain) :=
      fun ⟨p, hp, w, hw⟩ => hnone p w hw hp
    simp [hnot]

end

/-- After any allowed calls the table tells for each name whether it is at or below a name that was
added or marked as secure, and finds the deepest such name. -/
theorem run_secure (bal : Balancer α (List (Keynode μ))) (ops : List (Op α μ))
    (hnames : ∀ op ∈ ops, op.name ≠ []) (hallowed : AllowedRun bal ops nil) :
    ∃ t, run bal ops nil = some t ∧ ∀ name : List α, name ≠ [] →
      (issecuredomain t name ↔ ∃ p, p <+: name ∧ (Anchors.run empty ops).Secure p) ∧
      ((∃ p, finddeepestmatch t name = (.success, some p) ∧
          Deepest (Anchors.run empty ops) name p) ∨
        finddeepestmatch t name = (.notFound, none) ∧
          ∀ p, p <+: name → ¬(Anchors.run empty ops).Secure p) := by
  obtain ⟨t, hrun, hstores⟩ := stores_empty.run hnames hallowed
  exact ⟨t, hrun, fun name hname => hstores.search hname⟩

def exampleOps : List (Op ℕ ℕ) := [.add true ⟨[0, 1], 7⟩, .deletekeynode ⟨[0, 1], 8⟩]

theorem run_secure_add : ∃ t, run Balancer.none exampleOps nil = some t ∧
    issecuredomain t [0, 1, 2] := by
  obtain ⟨t, hrun, hsearch⟩ := run_secure Balancer.none exampleOps (by simp [exampleOps, Op.name])
    ⟨by simp [Allowed, dataOf, findnode, findOptions, levelSearch], fun _ _ => ⟨trivial, fun _ _ => trivial⟩⟩
  exact ⟨t, hrun, (hsearch [0, 1, 2] (by simp)).1.mpr ⟨[0, 1], by decide, by decide⟩⟩

/-- Two keys are added to names below another one, and then that name is marked as secure. -/
def exampleMark : List (Op ℕ ℕ) :=
  [.add true ⟨[0, 1, 2], 7⟩, .add true ⟨[0, 1, 3], 8⟩, .marksecure [0, 1]]

/-- The mark is lost. -/
theorem run_mark_lost : ((run Balancer.none exampleMark nil).map fun t => issecuredomain t [0, 1]) =
      some false ∧ (Anchors.run empty exampleMark).Secure [0, 1] := by
  refine ⟨by decide, by decide⟩

/-! ### The keys handed over

A key that is handed over belongs to a node until it is freed. The keys are counted for each name;
keys that `dst_key_compare` finds equal are not told apart. -/

variable (bal) {op : Op α μ} {ops : List (Op α μ)} {given gone : List α → Multiset μ}

/-- The keys that the nodes of a list point to. -/
def refs (chain : List (Keynode μ)) : Multiset μ := chain.filterMap anchor

def handed : Op α μ → Multiset μ
  | .add _ key => {key.material}
  | _ => 0

/-- What a call gives to `dst_key_free`: the key handed over if a node takes it or has an equal one,
and the keys of the nodes that go. -/
def freed (t : Table α μ) : Op α μ → Multiset μ
  | .add _ key =>
    if (storeKey key.material (dataOf t key.name)).join.isSome then {key.material} else 0
  | .marksecure _ => 0
  | .delete name => refs (dataOf t name)
  | .deletekeynode key =>
    if (removeKey key.material (dataOf t key.name)).join.isSome then {key.material} else 0

/-- A node points to each key handed over, or it was freed once, and no node points to a key that
was freed. -/
def Balanced (t : Table α μ) (given gone : List α → Multiset μ) : Prop :=
  ∀ name, name ≠ [] → given name = refs (dataOf t name) + gone name ∧
    ∀ k ∈ dataOf t name, ∀ m, k.key ≠ .released m

def BalancedRun : List (Op α μ) → Table α μ → (given gone : List α → Multiset μ) → Prop
  | [], t, given, gone => Balanced t given gone
  | op :: ops, t, given, gone => Balanced t given gone ∧ ∃ t', step bal t op = some t' ∧
    BalancedRun ops t' (update given op.name (given op.name + handed op))
      (update gone op.name (gone op.name + freed t op))

/-- No key is added to a name that is only marked. -/
def Unmarked (t : Table α μ) : Op α μ → Prop
  | .add _ key => ∀ k ∈ dataOf t key.name, k.key ≠ .null
  | _ => True

def UnmarkedRun : List (Op α μ) → Table α μ → Prop
  | [], _ => True
  | op :: ops, t => Unmarked t op ∧ ∀ t', step bal t op = some t' → UnmarkedRun ops t'

def known (S : Finset (Option μ)) : Multiset μ := S.val.filterMap id

lemma known_insert (h : some m ∉ S) : known (Insert.insert (some m) S) = {m} + known S := by
  rw [known, Finset.insert_val_of_notMem h]
  exact Multiset.filterMap_cons_some id _ _ rfl

lemma refs_eq_known (h : (chain.map anchor).Nodup) : refs chain = known (keys chain) := by
  rw [known, keys, toFinset_val, h.dedup, refs, Multiset.filterMap_coe, filterMap_map]
  rfl

lemma Anchors.step_of_ne (h : name ≠ op.name) : A.step op name = A name := by
  cases op <;> exact update_of_ne h ..

section
variable (h : Stores t A)
include h

lemma Stores.dataOf_cases (hname : name ≠ []) : A name = keys (dataOf t name) ∧
    ((∃ managed, dataOf t name = [⟨.null, managed⟩] ∧ t.Holds name (some [⟨.null, managed⟩])) ∨
      (∀ k ∈ dataOf t name, ∃ m, k.key = .held m) ∧ ((dataOf t name).map anchor).Nodup) := by
  by_cases hold : ∃ chain, t.Holds name (some chain)
  · obtain ⟨chain, hold⟩ := hold
    obtain ⟨hchain, hkeys⟩ := h.present name chain hold
    rw [(dataOf_eq h.good hname hold).2]
    refine ⟨hkeys, ?_⟩
    cases hchain with
    | marked managed => exact .inl ⟨managed, rfl, hold⟩
    | listed _ _ hheld hnodup => exact .inr ⟨hheld, hnodup⟩
  · push Not at hold
    rw [(not_success h.good hname hold).2]
    exact ⟨h.absent name hold, .inr (by simp)⟩

lemma Stores.refs_dataOf (hname : name ≠ []) : refs (dataOf t name) = known (A name) := by
  obtain ⟨hkeys, ⟨managed, hmark, -⟩ | ⟨-, hnodup⟩⟩ := h.dataOf_cases hname
  · rw [hkeys, hmark]
    rfl
  · rw [hkeys, refs_eq_known hnodup]

lemma Stores.balanced (hknown : ∀ name, given name = known (A name) + gone name) :
    Balanced t given gone := by
  refine fun name hname => ⟨by rw [hknown, h.refs_dataOf hname], fun k hk m hm => ?_⟩
  obtain ⟨-, ⟨managed, hmark, -⟩ | ⟨hheld, -⟩⟩ := h.dataOf_cases hname
  · rw [hmark] at hk
    rw [mem_singleton.mp hk] at hm
    cases hm
  · obtain ⟨m', hm'⟩ := hheld k hk
    rw [hm] at hm'
    cases hm'

lemma Stores.account (hname : op.name ≠ []) (hunmarked : Unmarked t op) :
    handed op + known (A op.name) = known (A.step op op.name) + freed t op := by
  obtain ⟨hkeys, hcases⟩ := h.dataOf_cases hname
  cases op <;> simp only [Op.name, handed, freed, Anchors.step, update_self, Unmarked] at *
  case add managed key =>
    rcases hcases with ⟨managed, hmark, -⟩ | ⟨hheld, -⟩
    · simp [hmark] at hunmarked
    rw [hkeys, Finset.erase_eq_of_notMem (none_notMem_keys hheld), Finset.singleton_union]
    rcases storeKey_spec (m := key.material) hheld with ⟨hstore, hin⟩ | ⟨hstore, hin⟩
    · simp [hstore, Finset.insert_eq_of_mem hin, add_comm]
    · simp [hstore, known_insert hin]
  case marksecure name =>
    split_ifs with hempty
    · rw [hempty]
      rfl
    · exact add_comm ..
  case delete name =>
    rw [h.refs_dataOf hname]
    rfl
  case deletekeynode key =>
    rw [hkeys]
    rcases hcases with ⟨managed, hmark, -⟩ | ⟨hheld, hnodup⟩
    · rw [hmark]
      rfl
    have hnull : keys (dataOf t key.name) ≠ {none} := fun heq =>
      none_notMem_keys hheld (by simp [heq])
    rw [if_neg hnull]
    rcases removeKey_spec (m := key.material) hheld hnodup with
      ⟨rest, hremove, -, hmem, -, -⟩ | ⟨hremove, hmem⟩
    · have hknown :=
        known_insert (Finset.notMem_erase (some key.material) (keys (dataOf t key.name)))
      rw [Finset.insert_erase hmem] at hknown
      simp [hremove, hknown, add_comm]
    · simp [hremove, Finset.erase_eq_of_notMem hmem]

lemma Stores.unmarked (hname : op.name ≠ []) (hunmarked : Unmarked t op) :
    ∃ t' A', Keytable.step bal t op = some t' ∧ Stores t' A' ∧
      (∀ name, name ≠ op.name → A' name = A name) ∧
      handed op + known (A op.name) = known (A' op.name) + freed t op := by
  by_cases hallowed : Allowed t op
  · obtain ⟨t', hstep, hstores⟩ := h.step bal hname hallowed
    exact ⟨t', _, hstep, hstores, fun _ => step_of_ne, h.account hname hunmarked⟩
  · cases op with
    | add => exact absurd hunmarked hallowed
    | delete | deletekeynode => exact absurd trivial hallowed
    | marksecure name =>
      -- the mark is lost
      refine ⟨t, A, ?_, h, fun _ _ => rfl, add_comm ..⟩
      rcases (addnode_spec bal h.good hname).result with ⟨hexists, heq⟩ | ⟨-, hnew⟩
      · simp only [Op.name] at hexists heq
        simp [Keytable.step, Keytable.marksecure, insert, hexists, heq]
      · exact absurd (hnew _) hallowed

/-- The node that had the mark points to the key that was freed. -/
lemma Stores.not_balanced (hname : op.name ≠ []) (hmarked : ¬Unmarked t op)
    (hstep : Keytable.step bal t op = some t') : ¬Balanced t' given gone := by
  intro hbalanced
  cases op with
  | marksecure | delete | deletekeynode => exact hmarked trivial
  | add managed key =>
    obtain ⟨name, m⟩ := key
    simp only [Op.name] at hname
    obtain ⟨-, ⟨managed', hmark, hold⟩ | ⟨hheld, -⟩⟩ := h.dataOf_cases hname
    · rcases (addnode_spec bal h.good hname).result with ⟨hexists, heq⟩ | ⟨-, hnew⟩
      · have spec : AlterSpec t name (some [⟨.released m, managed'⟩]) _ := setData_spec bal h.good hold
        have hold' := (spec.data name _).mpr (.inl ⟨rfl, rfl⟩)
        simp [Keytable.step, Keytable.add, insert, hexists, heq, hmark, storeKey, pointer] at hstep
        subst hstep
        refine (hbalanced name hname).2 ⟨.released m, managed'⟩ ?_ _ rfl
        simp [(dataOf_eq spec.good hname hold').2]
      · exact hnew _ hold
    · refine hmarked fun k hk hnull => ?_
      obtain ⟨m, hm⟩ := hheld k hk
      rw [hnull] at hm
      cases hm

lemma Stores.balancedRun_iff (hnames : ∀ op ∈ ops, op.name ≠ [])
    (hknown : ∀ name, given name = known (A name) + gone name) :
    BalancedRun bal ops t given gone ↔ UnmarkedRun bal ops t := by
  induction ops generalizing t A given gone with
  | nil => exact iff_of_true (h.balanced hknown) trivial
  | cons op ops ih =>
    obtain ⟨hname, hnames⟩ := forall_mem_cons.mp hnames
    by_cases hunmarked : Unmarked t op
    · obtain ⟨t', A', hstep, hstores, hother, hown⟩ := h.unmarked bal hname hunmarked
      simp only [BalancedRun, UnmarkedRun, h.balanced hknown, hunmarked, hstep, Option.some.injEq,
        true_and, exists_eq_left', forall_eq']
      refine ih hstores hnames fun name => ?_
      by_cases heq : name = op.name
      · subst heq
        rw [update_self, update_self, hknown, add_right_comm, add_comm (known _), hown, add_assoc,
          add_comm (freed t op)]
      · rw [update_of_ne heq, update_of_ne heq, hother name heq, hknown]
    · refine iff_of_false ?_ fun hrun => hunmarked hrun.1
      rintro ⟨-, t', hstep, hrun⟩
      cases ops with
      | nil => exact h.not_balanced bal hname hunmarked hstep hrun
      | cons => exact h.not_balanced bal hname hunmarked hstep hrun.1

end

/-- After each call every key is held by one node or was freed once, and no node points to a key
that was freed, exactly if no key is added to a name that is only marked. -/
theorem balancedRun_nil_iff (hnames : ∀ op ∈ ops, op.name ≠ []) :
    BalancedRun bal ops nil 0 0 ↔ UnmarkedRun bal ops nil :=
  stores_empty.balancedRun_iff bal hnames fun _ => rfl

theorem balancedRun_nil_iff_add : BalancedRun Balancer.none exampleOps nil 0 0 := by
  have hnames : ∀ op ∈ exampleOps, op.name ≠ [] := by decide
  refine (balancedRun_nil_iff Balancer.none hnames).mpr ?_
  exact ⟨by simp [Unmarked, dataOf, findnode, findOptions, levelSearch],
    fun _ _ => ⟨trivial, fun _ _ => trivial⟩⟩

def exampleMarked : List (Op ℕ ℕ) := [.marksecure [0], .add true ⟨[0], 7⟩]

/-- The table points to the key after it was freed, and frees it again. -/
theorem run_marked_add : ¬BalancedRun Balancer.none exampleMarked nil 0 0 ∧
    (run Balancer.none exampleMarked nil).map (dataOf · [0]) = some [⟨.released 7, true⟩] ∧
    run Balancer.none (exampleMarked ++ [.delete [0]]) nil = none := by
  refine ⟨fun h => ?_, by decide, by decide⟩
  have hnames : ∀ op ∈ exampleMarked, op.name ≠ [] := by decide
  rw [stores_empty.balancedRun_iff _ hnames] at h
  · exact (h.2 _ rfl).1 ⟨.null, true⟩ (by decide) rfl
  · exact fun _ => rfl

end LbBind.Keytable

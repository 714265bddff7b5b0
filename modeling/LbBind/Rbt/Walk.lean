import LbBind.Rbt.Chain

/-! Walks over the tree of trees. In a tree that comes from additions and deletions the nodes are
listed in the order of their full names, each of them once; a chain goes along the list with
`dns_rbtnodechain_next` and back with `dns_rbtnodechain_prev`. -/

namespace LbBind.Rbt

open Lib List Option Entry Prod Name

structure Entry.Fits {α δ : Type*} (t : Levels α δ) (e : Entry α) : Prop where
  present : t.sub e.pos ≠ .nil
  name_eq : e.name = t.fullName e.pos
  levels_eq : e.levels = Pos.levels e.pos
  origin_eq : t.chainName e.levels = t.originAt e.pos

namespace Levels

section
variable {α δ : Type*} {t u l r dn : Levels α δ} {n : List α} {d : Option δ} {p : Pos}
  {levels : List Pos} {pre : List α} {e : Entry α}

lemma chainName_cons (t : Levels α δ) (p : Pos) (levels : List Pos) :
    t.chainName (p :: levels) = t.chainName levels ++ t.nameAt p := by
  simp [chainName]

lemma nameAt_eq (hp : t.sub p = node l n d dn r) : t.nameAt p = n := by
  rw [nameAt, hp]

attribute [local simp] visit

lemma fits_of_mem_visit (hp : t.sub p = u) (horigin : t.originAt p = pre)
    (hlevels : levels = Pos.levels p) (hname : t.chainName levels = pre)
    (he : e ∈ u.visit p levels pre) : Entry.Fits t e := by
  induction u generalizing p levels pre with
  | nil => simp at he
  | node l n d dn r ihl ihdn ihr =>
    obtain ⟨hl, hr, hdn⟩ := sub_cons hp
    have hn := nameAt_eq hp
    rw [visit, mem_append, mem_cons, mem_append] at he
    rcases he with he | rfl | he | he
    · exact ihl hl (by simpa [originAt] using horigin) hlevels hname he
    · exact ⟨by simp [hp], by simp [fullName, horigin, hn], hlevels, hname.trans horigin.symm⟩
    · exact ihdn hdn (by simp [originAt, horigin, hn]) (by rw [hlevels]; rfl)
        (by simp [chainName_cons, hname, hn]) he
    · exact ihr hr (by simpa [originAt] using horigin) hlevels hname he

lemma fits_of_mem_visit_top (he : e ∈ t.visit [] [] []) : e.Fits t :=
  fits_of_mem_visit (t := t) (p := []) rfl rfl rfl rfl he

lemma sub_append (t : Levels α δ) (q p : Pos) : t.sub (q ++ p) = (t.sub p).sub q := by
  induction q with
  | nil => rfl
  | cons s q ih => simp [sub, ih]

lemma sub_nil (q : Pos) : (nil : Levels α δ).sub q = nil := by
  induction q with
  | nil => rfl
  | cons s q ih => simp [sub, ih, child]

lemma exists_mem_visit (q : Pos) (h : u.sub q ≠ nil) :
    ∃ e ∈ u.visit p levels pre, e.pos = q ++ p := by
  induction q using reverseRecOn generalizing u p levels pre with
  | nil =>
    cases u with
    | nil => exact absurd rfl h
    | node l n d dn r => exact ⟨⟨p, levels, pre ++ n⟩, by simp, rfl⟩
  | append_singleton q s ih =>
    cases u with
    | nil => exact absurd (sub_nil _) h
    | node l n d dn r =>
      rw [sub_append] at h
      rw [append_assoc]
      cases s with
      | left =>
        obtain ⟨e, he, hpos⟩ := @ih l (.left :: p) levels pre h
        exact ⟨e, by simp [he], hpos⟩
      | right =>
        obtain ⟨e, he, hpos⟩ := @ih r (.right :: p) levels pre h
        exact ⟨e, by simp [he], hpos⟩
      | down =>
        obtain ⟨e, he, hpos⟩ := @ih dn (.down :: p) (p :: levels) (pre ++ n) h
        exact ⟨e, by simp [he], hpos⟩

lemma exists_mem_visit_top (hp : t.sub p ≠ nil) : ∃ e ∈ t.visit [] [] [], e.pos = p := by
  obtain ⟨e, he, hpos⟩ : ∃ e ∈ t.visit [] [] [], e.pos = p ++ [] := exists_mem_visit p hp
  exact ⟨e, he, by simpa using hpos⟩

lemma holds_of_mem_visit (he : e ∈ u.visit p levels pre) :
    ∃ k d, e.name = pre ++ k ∧ u.Holds k d := by
  induction u generalizing p levels pre with
  | nil => simp at he
  | node l n d dn r ihl ihdn ihr =>
    rw [visit, mem_append, mem_cons, mem_append] at he
    rcases he with he | rfl | he | he
    · obtain ⟨k, d, hname, hold⟩ := ihl he
      exact ⟨k, d, hname, .inl hold⟩
    · exact ⟨n, d, rfl, .inr (.inl (.inl ⟨rfl, rfl⟩))⟩
    · obtain ⟨k, d, hname, hold⟩ := ihdn he
      exact ⟨n ++ k, d, by rw [hname, append_assoc], .inr (.inl (.inr ⟨k, rfl, hold⟩))⟩
    · obtain ⟨k, d, hname, hold⟩ := ihr he
      exact ⟨k, d, hname, .inr (.inr hold)⟩

lemma visit_trails_top (t : Levels α δ) :
    Trails (fun p levels => (t.predecessor p levels).dest) (none, []) (t.visit [] [] []) := by
  have h : Trails _ (t.backward [] []) (t.visit [] [] []) := visit_trails rfl
  exact h

end

section
variable {α δ : Type*} [LinearOrder α] {u l r dn : Levels α δ} {n k : List α} {d e : Option δ}

lemma Good.headLt_left (h : (node l n e dn r).Good) (hk : l.Holds k d) : HeadLt k n := by
  by_contra hlt
  exact not_holds_left h hlt hk

lemma Good.headLt_right (h : (node l n e dn r).Good) (hk : r.Holds k d) : HeadLt n k := by
  by_contra hlt
  exact not_holds_right h hlt hk

lemma lt_append_of_ne_nil (a : List α) {b : List α} (hb : b ≠ []) : a < a ++ b := by
  cases b with
  | nil => exact absurd rfl hb
  | cons x b =>
    have h := (append_lt_append_iff (b := x :: b) a).mpr (nil_lt_cons x b)
    rwa [append_nil] at h

lemma visit_sorted (h : u.Good) (p : Pos) (levels : List Pos) (pre : List α) :
    (u.visit p levels pre).Pairwise fun e f => e.name < f.name := by
  induction u generalizing p levels pre with
  | nil => simp [visit]
  | node l n d dn r ihl ihdn ihr =>
    obtain ⟨hl, ⟨hn, hdn⟩, hr, -, -⟩ := good_node.mp h
    have hbelow : ∀ k d, dn.Holds k d → (n ++ k).head? = n.head? := fun k d _ =>
      head?_append_of_ne_nil _ hn
    rw [visit, pairwise_append, pairwise_cons, pairwise_append]
    refine ⟨ihl hl _ _ _, ⟨?_, ihdn hdn _ _ _, ihr hr _ _ _, ?_⟩, ?_⟩
    · -- The node comes before those below it and to the right of it.
      intro f hf
      rcases mem_append.mp hf with hf | hf
      · obtain ⟨k, d, hname, hold⟩ := holds_of_mem_visit hf
        rw [hname]
        exact lt_append_of_ne_nil _ (hdn.ne_nil hold)
      · obtain ⟨k, d, hname, hold⟩ := holds_of_mem_visit hf
        rw [hname, append_lt_append_iff]
        exact (h.headLt_right hold).lt
    · intro e he f hf
      obtain ⟨k, d, hname, hold⟩ := holds_of_mem_visit he
      obtain ⟨k', d', hname', hold'⟩ := holds_of_mem_visit hf
      rw [hname, hname', append_assoc, append_lt_append_iff]
      exact ((headLt_congr (hbelow k d hold)).mpr (h.headLt_right hold')).lt
    · -- Those to the left come first.
      intro e he f hf
      obtain ⟨k, d, hname, hold⟩ := holds_of_mem_visit he
      have hlt := h.headLt_left hold
      rw [hname]
      rcases mem_cons.mp hf with rfl | hf
      · rw [append_lt_append_iff]
        exact hlt.lt
      · rcases mem_append.mp hf with hf | hf
        · obtain ⟨k', d', hname', hold'⟩ := holds_of_mem_visit hf
          rw [hname', append_assoc, append_lt_append_iff]
          exact ((headLt_congr_right (hbelow k' d' hold')).mpr hlt).lt
        · obtain ⟨k', d', hname', hold'⟩ := holds_of_mem_visit hf
          rw [hname', append_lt_append_iff]
          exact (hlt.trans (h.headLt_right hold')).lt

end

variable {α δ : Type*} [LinearOrder α] {t u l r dn : Levels α δ} {n k name : List α}
  {d e : Option δ} (bal : Balancer α δ)

section
omit [LinearOrder α]

def HasNode (t : Levels α δ) (k : List α) : Prop := ∃ d, t.Holds k d

lemma hasNode_node : (node l n e dn r).HasNode k ↔
    l.HasNode k ∨ (k = n ∨ ∃ k', k = n ++ k' ∧ dn.HasNode k') ∨ r.HasNode k := by
  simp only [HasNode, Holds, exists_or, exists_and_left, exists_eq, and_true]
  constructor
  · rintro (h | (h | ⟨d, k', rfl, h⟩) | h)
    · exact .inl h
    · exact .inr (.inl (.inl h))
    · exact .inr (.inl (.inr ⟨k', rfl, d, h⟩))
    · exact .inr (.inr h)
  · rintro (h | (h | ⟨k', rfl, d, h⟩) | h)
    · exact .inl h
    · exact .inr (.inl (.inl h))
    · exact .inr (.inl (.inr ⟨d, k', rfl, h⟩))
    · exact .inr (.inr h)

lemma hasNode_congr (h : u.nodes = t.nodes) : u.HasNode k ↔ t.HasNode k :=
  exists_congr fun _ => holds_congr h

@[simp] lemma not_hasNode_nil : ¬(nil : Levels α δ).HasNode k := fun ⟨_, h⟩ => h

lemma HasNode.mono {dn' : Levels α δ} {e' : Option δ} (h : ∀ k, dn'.HasNode k → dn.HasNode k)
    (hk : (node l n e' dn' r).HasNode k) : (node l n e dn r).HasNode k := by
  rw [hasNode_node] at hk ⊢
  exact hk.imp_right fun hk => hk.imp_left fun hk => hk.imp_right fun ⟨k', heq, hold⟩ =>
    ⟨k', heq, h k' hold⟩

end

lemma alter_good (edit : Levels α δ → Option (Option δ)) (h : t.Good) :
    (alter bal edit t name).2.Good ∧
      (∀ x ∈ (alter bal edit t name).2.nodes, ∃ y ∈ t.nodes, x.name = y.name) ∧
      ∀ k, (alter bal edit t name).2.HasNode k → t.HasNode k := by
  induction t generalizing name with
  | nil => exact ⟨good_nil, by simp [alter, nodes], fun _ => id⟩
  | node l n e dn r ihl ihdn ihr =>
    obtain ⟨hl, ⟨hn, hdn⟩, hr, hln, hrn⟩ := good_node.mp h
    have hself : ∀ e' dn', ∀ x ∈ (node l n e' dn' r).nodes,
        ∃ y ∈ (node l n e dn r).nodes, x.name = y.name := by
      intro e' dn' x hx
      rw [nodes, mem_append, mem_cons] at hx
      rcases hx with hx | rfl | hx
      · exact ⟨x, by simp [nodes, hx], rfl⟩
      · exact ⟨⟨n, e, dn⟩, by simp [nodes], rfl⟩
      · exact ⟨x, by simp [nodes, hx], rfl⟩
    rw [alter]
    cases hrel : reln name n with
    | equal =>
      cases hedit : edit dn with
      | some d' =>
        exact ⟨good_node.mpr ⟨hl, ⟨hn, hdn⟩, hr, hln, hrn⟩, hself d' dn, fun k => .mono fun _ => id⟩
      | none =>
        have hsub : (l.nodes ++ r.nodes).Sublist (node l n e dn r).nodes :=
          List.Sublist.append_left (sublist_cons_self ..) _
        have hgood := good_iff.mp h
        simp only [HasNode, holds_iff]
        rw [good_iff, nodes_glue]
        refine ⟨⟨hgood.1.sublist hsub, fun x hx => hgood.2 x (hsub.subset hx)⟩,
          fun x hx => ⟨x, hsub.subset hx, rfl⟩, ?_⟩
        rintro k ⟨d, x, hx, hold⟩
        exact ⟨d, x, hsub.subset hx, hold⟩
    | none =>
      simp only
      split_ifs
      · obtain ⟨hl', hnames, hnodes⟩ := @ihl name hl
        refine ⟨good_node.mpr ⟨hl', ⟨hn, hdn⟩, hr, fun x hx => ?_, hrn⟩, fun x hx => ?_,
          fun k hk => hasNode_node.mpr ((hasNode_node.mp hk).imp_left (hnodes k))⟩
        · obtain ⟨y, hy, heq⟩ := hnames x hx
          rw [heq]
          exact hln y hy
        · rw [nodes, mem_append] at hx
          rcases hx with hx | hx
          · obtain ⟨y, hy, heq⟩ := hnames x hx
            exact ⟨y, by simp [nodes, hy], heq⟩
          · exact ⟨x, by simp only [nodes, mem_append, hx, or_true], rfl⟩
      · obtain ⟨hr', hnames, hnodes⟩ := @ihr name hr
        refine ⟨good_node.mpr ⟨hl, ⟨hn, hdn⟩, hr', hln, fun x hx => ?_⟩, fun x hx => ?_, fun k hk =>
          hasNode_node.mpr ((hasNode_node.mp hk).imp_right fun h => h.imp_right (hnodes k))⟩
        · obtain ⟨y, hy, heq⟩ := hnames x hx
          rw [heq]
          exact hrn y hy
        · rw [nodes, mem_append, mem_cons] at hx
          rcases hx with hx | rfl | hx
          · exact ⟨x, by simp [nodes, hx], rfl⟩
          · exact ⟨_, by simp [nodes], rfl⟩
          · obtain ⟨y, hy, heq⟩ := hnames x hx
            exact ⟨y, by simp [nodes, hy], heq⟩
    | subdomain =>
      obtain ⟨hdn', -, hnodes⟩ := @ihdn (name.drop n.length) hdn
      simp only
      split_ifs
      · have hrun := bal.nodes_run (alter bal edit dn (name.drop n.length)).2
        exact ⟨good_node.mpr ⟨hl, ⟨hn, (good_congr hrun).mpr hdn'⟩, hr, hln, hrn⟩, hself _ _,
          fun k => .mono fun k hk => hnodes k ((hasNode_congr hrun).mp hk)⟩
      · exact ⟨good_node.mpr ⟨hl, ⟨hn, hdn'⟩, hr, hln, hrn⟩, hself _ _, fun k => .mono hnodes⟩
    | contains => exact ⟨h, fun x hx => ⟨x, hx, rfl⟩, fun _ => id⟩
    | commonancestor => exact ⟨h, fun x hx => ⟨x, hx, rfl⟩, fun _ => id⟩

/-- `dns_rbt_deletenode` with recursion: the node is taken out with all that is below it. -/
def deletetree (t : Levels α δ) (name : List α) : Levels α δ :=
  let (b, t') := alter bal (fun _ => none) t name
  if b then bal.run t' else t'

end Levels

open Levels

/-- The trees that additions and deletions of absolute names make. The data of a node may be set at
any time. -/
inductive Reachable {δ : Type*} : Levels (List ℕ) δ → Prop
  | create : Reachable .nil
  | addnode {t : Levels (List ℕ) δ} (bal : Balancer (List ℕ) δ) (name : Name)
      (habs : name.absolute) (h : Reachable t) : Reachable (t.addnode bal name.key).2
  | setData {t : Levels (List ℕ) δ} (bal : Balancer (List ℕ) δ) (name : Name) (data : Option δ)
      (h : Reachable t) : Reachable (t.setData bal name.key data)
  | deletenode {t : Levels (List ℕ) δ} (bal : Balancer (List ℕ) δ) (name : Name)
      (h : Reachable t) : Reachable (t.deletenode bal name.key)
  | deletetree {t : Levels (List ℕ) δ} (bal : Balancer (List ℕ) δ) (name : Name)
      (h : Reachable t) : Reachable (t.deletetree bal name.key)

lemma exists_name_of_isPrefix {name : Name} (habs : name.absolute) {k : List (List ℕ)}
    (hk : k ≠ []) (hpfx : k <+: name.key) : ∃ above : Name, above.absolute ∧ above.key = k := by
  have hlen : k.length ≤ name.labels.length := by
    rw [← name.length_key]
    exact hpfx.length_le
  refine ⟨name.getlabelsequence (name.labels.length - k.length) k.length, ?_, ?_⟩
  · rw [absolute_iff_key, key_getlabelsequence hlen, ← prefix_iff_eq_take.mp hpfx]
    rw [absolute_iff_key] at habs
    obtain ⟨rest, hrest⟩ := hpfx
    rwa [← hrest, head?_append_of_ne_nil _ hk] at habs
  · rw [key_getlabelsequence hlen, ← prefix_iff_eq_take.mp hpfx]

section
variable {δ : Type*} {t : Levels (List ℕ) δ}

structure Sound (t : Levels (List ℕ) δ) : Prop where
  good : t.Good
  named : ∀ k, t.HasNode k → ∃ name : Name, name.absolute ∧ name.key = k

lemma Sound.alter (h : Sound t) (bal : Balancer (List ℕ) δ)
    (edit : Levels (List ℕ) δ → Option (Option δ)) (name : List (List ℕ)) :
    Sound (t.alter bal edit name).2 :=
  ⟨(alter_good bal edit h.good).1, fun k hk => h.named k ((alter_good bal edit h.good).2.2 k hk)⟩

lemma Sound.run (h : Sound t) (bal : Balancer (List ℕ) δ) (p : Prop) [Decidable p] :
    Sound (if p then bal.run t else t) := by
  have hnodes := bal.nodes_run t
  split_ifs
  · exact ⟨(good_congr hnodes).mpr h.good, fun k hk => h.named k ((hasNode_congr hnodes).mp hk)⟩
  · exact h

lemma key_ne_nil {name : Name} (habs : name.absolute) : name.key ≠ [] := by
  intro hnil
  simp [absolute_iff_key, hnil] at habs

lemma Reachable.sound (h : Reachable t) : Sound t := by
  induction h with
  | create => exact ⟨good_nil, fun k hk => absurd hk not_hasNode_nil⟩
  | addnode bal name habs h ih =>
    have spec := addnode_spec bal ih.good (key_ne_nil habs)
    refine ⟨spec.good, fun k ⟨d, hold⟩ => ?_⟩
    rcases spec.nodes k d hold with hold' | hpfx
    · exact ih.named k hold'
    · exact exists_name_of_isPrefix habs (spec.good.ne_nil hold) hpfx
  | setData bal name data h ih => exact ih.alter bal _ _
  | deletenode bal name h ih => exact (ih.alter bal _ _).run bal _
  | deletetree bal name h ih => exact (ih.alter bal _ _).run bal _

lemma Sound.head (h : Sound t) {k : List (List ℕ)} (hk : t.HasNode k) : k.head? = some [] := by
  obtain ⟨name, habs, rfl⟩ := h.named k hk
  exact name.absolute_iff_key.mp habs

lemma Sound.top (h : Sound t) (hne : t ≠ .nil) : ∃ n d dn, t = .node .nil n d dn .nil := by
  cases t with
  | nil => exact absurd rfl hne
  | node l n d dn r =>
    have hn := h.head (hasNode_node.mpr (.inr (.inl (.inl rfl))))
    cases l with
    | node ll m e ldn lr =>
      have hm : (node ll m e ldn lr).Holds m e := .inr (.inl (.inl ⟨rfl, rfl⟩))
      have hm' := h.head (hasNode_node.mpr (.inl ⟨e, hm⟩))
      exact absurd (hm'.trans hn.symm) (h.good.headLt_left hm).head_ne
    | nil =>
      cases r with
      | node rl m e rdn rr =>
        have hm : (node rl m e rdn rr).Holds m e := .inr (.inl (.inl ⟨rfl, rfl⟩))
        have hm' := h.head (hasNode_node.mpr (.inr (.inr ⟨e, hm⟩)))
        exact absurd (hn.trans hm'.symm) (h.good.headLt_right hm).head_ne
      | nil => exact ⟨n, d, dn, rfl⟩

end

def Entry.chain {α : Type*} (levelMatches : ℕ) (e : Entry α) : Chain :=
  ⟨some e.pos, e.levels, levelMatches⟩

namespace Levels

variable {α δ : Type*} [DecidableEq α] {t : Levels α δ} {e f : Entry α} {root : α} {k : ℕ}
  {w : List (Entry α)}

/-- Repeated `dns_rbtnodechain_next`: the chains from `chain` on, if there is no more node after at
most so many calls. -/
def nexts (t : Levels α δ) : ℕ → Chain → Option (List Chain)
  | 0, _ => none
  | calls + 1, chain => do
    match t.next chain with
    | none => none
    | some m =>
      if m.result = .noMore then some [chain] else (nexts t calls m.chain).map (chain :: ·)

omit [DecidableEq α] in
lemma next_of_dest (h : (t.successor e.pos e.levels).dest = (some f.pos, f.levels)) (k : ℕ) :
    ∃ m, t.next (e.chain k) = some m ∧ m.result ≠ .noMore ∧ m.chain = f.chain k := by
  obtain ⟨hfound, hlevels⟩ := mk.inj h
  refine ⟨_, rfl, ?_⟩
  simp only [chain, hfound, hlevels, and_true]
  by_cases hnew : (t.successor e.pos e.levels).newOrigin = true <;> simp [hnew]

variable {levels : List Pos}

omit [DecidableEq α] in
lemma next_noMore (h : (t.successor e.pos e.levels).dest = (none, levels))
    (k : ℕ) : ∃ m, t.next (e.chain k) = some m ∧ m.result = .noMore := by
  obtain ⟨hfound, -⟩ := mk.inj h
  refine ⟨_, rfl, ?_⟩
  simp only [chain, hfound]

lemma current_chain (hfits : e.Fits t) (hroot : e.name.head? = some root) (k : ℕ) :
    ∃ name origin, t.current root (e.chain k) = some (.success, some e.pos, name, origin) ∧
      origin ++ name = t.fullName e.pos := by
  have horigin := hfits.origin_eq
  rw [hfits.name_eq, fullName] at hroot
  by_cases hnil : e.levels = []
  · rw [hnil] at horigin
    rw [← horigin] at hroot
    have hhead : (t.nameAt e.pos).head? = some root := hroot
    refine ⟨(t.nameAt e.pos).tail, [root], by simp [current, chain, hnil, hhead], ?_⟩
    rw [fullName, ← horigin]
    exact cons_head?_tail hhead
  · refine ⟨t.nameAt e.pos, t.chainName e.levels, by simp [current, chain, hnil], ?_⟩
    rw [horigin, fullName]

lemma prev_of_dest (h : (t.predecessor f.pos f.levels).dest = (some e.pos, e.levels))
    (hfits : e.Fits t) (hroot : e.name.head? = some root) (withOrigin : Bool) (k : ℕ) :
    ∃ m, t.prev root withOrigin (f.chain k) = some m ∧ m.result ≠ .noMore ∧ m.chain = e.chain k := by
  obtain ⟨hfound, hlevels⟩ := mk.inj h
  obtain ⟨name, origin, hcurrent, -⟩ := current_chain hfits hroot k
  rw [chain] at hcurrent
  simp only [prev, chain, bind_some, hfound, hlevels, hcurrent, map_some]
  refine ⟨_, rfl, ?_⟩
  split_ifs <;> simp

lemma prev_noMore (h : (t.predecessor f.pos f.levels).dest = (none, levels))
    (root : α) (withOrigin : Bool) (k : ℕ) :
    ∃ m, t.prev root withOrigin (f.chain k) = some m ∧ m.result = .noMore := by
  obtain ⟨hfound, -⟩ := mk.inj h
  refine ⟨⟨.noMore, f.chain k, none, none⟩, ?_, rfl⟩
  simp only [prev, chain, bind_some, hfound]

lemma arrive_chain (hfits : e.Fits t) (hroot : e.name.head? = some root) (k : ℕ) :
    ∃ m, t.arrive root (e.chain k) = some m ∧ m.chain = e.chain k := by
  obtain ⟨name, origin, hcurrent, -⟩ := current_chain hfits hroot k
  exact ⟨_, by rw [arrive, hcurrent]; rfl, rfl⟩

omit [DecidableEq α] in
lemma nexts_eq (h : Leads (fun p levels => (t.successor p levels).dest) (none, levels) (e :: w))
    (k : ℕ) : t.nexts (w.length + 1) (e.chain k) = some ((e :: w).map (chain k)) := by
  induction w generalizing e with
  | nil =>
    obtain ⟨m, hm, hresult⟩ := next_noMore h.1 k
    simp [nexts, hm, hresult]
  | cons f w ih =>
    obtain ⟨m, hm, hresult, hchain⟩ := next_of_dest h.1 k
    rw [length_cons, nexts, hm]
    simp only [if_neg hresult, hchain, ih h.2]
    simp

end Levels

/-- A chain goes over the places of `w`: each node stands there once, in the order of the full
names, and `dns_rbtnodechain_next` and `dns_rbtnodechain_prev` are the steps along it. -/
structure Traversal {δ : Type*} (t : Levels (List ℕ) δ) (w : List (Entry (List ℕ))) : Prop where
  nodes : ∀ p, p ∈ w.map Entry.pos ↔ t.sub p ≠ .nil
  once : (w.map Entry.pos).Nodup
  levels : ∀ e ∈ w, e.levels = Pos.levels e.pos
  names : ∀ e ∈ w, ∃ name : Name, name.absolute ∧ name.key = t.fullName e.pos
  sorted : w.Pairwise fun e f => ∀ a b : Name, a.key = t.fullName e.pos →
    b.key = t.fullName f.pos → (a.fullcompare b).order < 0
  visits : ∃ m, t.first [] = some m ∧ t.nexts w.length m.chain = some (w.map (Entry.chain 0))
  steps : ∀ u e f v, w = u ++ e :: f :: v → ∀ k withOrigin,
    (∃ m, t.next (e.chain k) = some m ∧ m.result ≠ .noMore ∧ m.chain = f.chain k) ∧
      ∃ m, t.prev [] withOrigin (f.chain k) = some m ∧ m.result ≠ .noMore ∧ m.chain = e.chain k
  begins : ∀ e ∈ w.head?, ∀ k withOrigin,
    ∃ m, t.prev [] withOrigin (e.chain k) = some m ∧ m.result = .noMore
  ends : ∃ m, ∃ e ∈ w.getLast?, t.last [] = some m ∧ m.chain = e.chain 0 ∧
    ∀ k, ∃ m', t.next (e.chain k) = some m' ∧ m'.result = .noMore
  currents : ∀ e ∈ w, ∀ k, ∃ name origin,
    t.current [] (e.chain k) = some (.success, some e.pos, name, origin) ∧
      origin ++ name = t.fullName e.pos

section
variable {δ : Type*} {t : Levels (List ℕ) δ}

lemma Sound.name_head (h : Sound t) (e : Entry (List ℕ)) (he : e ∈ t.visit [] [] []) :
    e.name.head? = some [] := by
  obtain ⟨k, d, hname, hold⟩ := holds_of_mem_visit he
  rw [hname, nil_append]
  exact h.head ⟨d, hold⟩

lemma Sound.exists_name (h : Sound t) (e : Entry (List ℕ)) (he : e ∈ t.visit [] [] []) :
    ∃ name : Name, name.absolute ∧ name.key = t.fullName e.pos := by
  obtain ⟨k, d, hname, hold⟩ := holds_of_mem_visit he
  obtain ⟨name, habs, hkey⟩ := h.named k ⟨d, hold⟩
  refine ⟨name, habs, ?_⟩
  rw [← (fits_of_mem_visit_top he).name_eq, hname, hkey, nil_append]

lemma Sound.leads (h : Sound t) :
    Leads (fun p levels => (t.successor p levels).dest) (none, []) (t.visit [] [] []) := by
  by_cases hne : t = .nil
  · subst hne
    trivial
  · have hend : (t.upward [] []).dest = (none, []) := by
      obtain ⟨n, d, dn, rfl⟩ := h.top hne
      rfl
    rw [← hend]
    exact visit_leads rfl

theorem Reachable.traversal (ht : Reachable t) (hne : t ≠ .nil) :
    Traversal t (t.visit [] [] []) := by
  have h := ht.sound
  have hfits (e) (he : e ∈ t.visit [] [] []) : e.Fits t := fits_of_mem_visit_top he
  have hleads := h.leads
  have htrails := visit_trails_top t
  have hsorted := visit_sorted h.good [] [] []
  constructor
  case nodes =>
    intro p
    rw [List.mem_map]
    constructor
    · rintro ⟨e, he, rfl⟩
      exact (hfits e he).present
    · exact exists_mem_visit_top
  case once =>
    rw [List.Nodup, pairwise_map]
    refine hsorted.imp_of_mem fun {e f} he hf hlt heq => ?_
    rw [(hfits e he).name_eq, (hfits f hf).name_eq, heq] at hlt
    exact lt_irrefl _ hlt
  case levels => exact fun e he => (hfits e he).levels_eq
  case names => exact h.exists_name
  case sorted =>
    refine hsorted.imp_of_mem fun {e f} he hf hlt a b ha hb => ?_
    rw [(a.fullcompare_spec b).lt, ha, hb, ← (hfits e he).name_eq, ← (hfits f hf).name_eq]
    exact hlt
  case visits =>
    obtain ⟨n, d, dn, rfl⟩ := h.top hne
    have he : (⟨[], [], n⟩ : Entry (List ℕ)) ∈ (node nil n d dn nil).visit [] [] [] := by
      simp [visit]
    obtain ⟨m, hfirst, hchain⟩ := arrive_chain (hfits _ he) (h.name_head _ he) 0
    exact ⟨m, hfirst, by rw [hchain]; exact nexts_eq hleads 0⟩
  case steps =>
    intro u e f v hw k withOrigin
    have he : e ∈ t.visit [] [] [] := by simp [hw]
    rw [hw] at hleads htrails
    exact ⟨next_of_dest hleads.of_append.2.1 k,
      prev_of_dest htrails.of_append.2.2.1 (hfits e he) (h.name_head e he) withOrigin k⟩
  case begins =>
    intro e he k withOrigin
    obtain ⟨w, hw⟩ := head?_eq_some_iff.mp he
    rw [hw] at htrails
    exact prev_noMore htrails.1 [] withOrigin k
  case ends =>
    obtain ⟨e, hlast⟩ : ∃ e, (t.visit [] [] []).getLast? = some e :=
      ne_none_iff_exists'.mp (by simpa [visit_eq_nil] using hne)
    obtain ⟨w, hw⟩ := getLast?_eq_some_iff.mp hlast
    have he : e ∈ t.visit [] [] [] := by simp [hw]
    obtain ⟨m, harrive, hchain⟩ := arrive_chain (hfits e he) (h.name_head e he) 0
    have hfinish := finish_visit (none, []) t [] [] []
    rw [hw, finish_append, if_neg (by simpa [isNil_iff] using hne)] at hfinish
    obtain ⟨hpos, hlevels⟩ := mk.inj hfinish
    refine ⟨m, e, hlast, ?_, hchain, fun k => ?_⟩
    · rw [last, if_neg (by simpa [isNil_iff] using hne)]
      simp only [← hpos, ← hlevels]
      exact harrive
    · rw [hw] at hleads
      exact next_noMore hleads.of_append.2.1 k
  case currents => exact fun e he k => current_chain (hfits e he) (h.name_head e he) k

end

/-- The tree of the two names `a.` and `b.`, which have the node of the root above them. -/
theorem Reachable.traversal_two :
    let t : Levels (List ℕ) Unit :=
      ((nil.addnode .none (letter 97).key).2.addnode .none (letter 98).key).2
    Traversal t (t.visit [] [] []) :=
  Reachable.traversal (.addnode _ _ (by decide) (.addnode _ _ (by decide) .create)) (by decide)

end LbBind.Rbt

import Mathlib.Data.List.Pairwise
import LbBind.Rbt.Levels

/-! What the tree of trees holds. Each node is found by its full name, adding a name or deleting a
node changes no other data, and a search finds the deepest node with data at or above a name. -/

namespace LbBind.Rbt

open Lib List Option Label

variable {α δ : Type*} [LinearOrder α] {a b c k : List α} {d e : Option δ} {v : δ}

def HeadLt (a b : List α) : Prop := ∃ x ∈ a.head?, ∃ y ∈ b.head?, x < y

lemma HeadLt.trans (h1 : HeadLt a b) (h2 : HeadLt b c) : HeadLt a c := by
  obtain ⟨x, hx, y, hy, hxy⟩ := h1
  obtain ⟨y', hy', z, hz, hyz⟩ := h2
  obtain rfl : y = y' := mem_unique hy hy'
  exact ⟨x, hx, z, hz, hxy.trans hyz⟩

lemma HeadLt.head_ne (h : HeadLt a b) : a.head? ≠ b.head? := by
  obtain ⟨x, hx, y, hy, hxy⟩ := h
  rw [hx, hy]
  simpa using hxy.ne

lemma headLt_congr (ha : a.head? = c.head?) : HeadLt a b ↔ HeadLt c b := by
  simp [HeadLt, ha]

lemma headLt_congr_right (hb : b.head? = c.head?) : HeadLt a b ↔ HeadLt a c := by
  simp [HeadLt, hb]

lemma HeadLt.lt (h : HeadLt a b) : a < b := by
  obtain ⟨x, hx, y, hy, hxy⟩ := h
  cases a with
  | nil => simp at hx
  | cons x' a =>
    cases b with
    | nil => simp at hy
    | cons y' b =>
      obtain rfl : x' = x := by simpa using hx
      obtain rfl : y' = y := by simpa using hy
      exact cons_lt_cons_iff.mpr (.inl hxy)

lemma headLt_or (ha : a ≠ []) (hb : b ≠ []) (h : a.head? ≠ b.head?) :
    HeadLt a b ∧ a < b ∨ HeadLt b a ∧ ¬a < b := by
  cases a with
  | nil => exact absurd rfl ha
  | cons x a =>
    cases b with
    | nil => exact absurd rfl hb
    | cons y b =>
      have hne : x ≠ y := by simpa using h
      rcases lt_or_gt_of_ne hne with hlt | hgt
      · have hhead : HeadLt (x :: a) (y :: b) := ⟨x, rfl, y, rfl, hlt⟩
        exact .inl ⟨hhead, hhead.lt⟩
      · have hhead : HeadLt (y :: b) (x :: a) := ⟨y, rfl, x, rfl, hgt⟩
        exact .inr ⟨hhead, hhead.lt.not_gt⟩

inductive Related (a b : List α) : NameReln → Prop
  | equal (h : a = b) : Related a b .equal
  | subdomain (tail : List α) (htail : tail ≠ []) (h : a = b ++ tail) : Related a b .subdomain
  | none (h : a.head? ≠ b.head?) : Related a b .none
  | contains (common rest : List α) (hcommon : commonPrefix a b = common) (hne : common ≠ [])
      (hrest : rest ≠ []) (ha : a = common) (hb : b = common ++ rest) : Related a b .contains
  | commonancestor (common tail rest : List α) (hcommon : commonPrefix a b = common)
      (hne : common ≠ []) (htail : tail ≠ []) (hrest : rest ≠ []) (hhead : tail.head? ≠ rest.head?)
      (ha : a = common ++ tail) (hb : b = common ++ rest) : Related a b .commonancestor

attribute [local simp] commonPrefix

lemma exists_commonPrefix (a b : List α) : ∃ tail rest, a = commonPrefix a b ++ tail ∧
    b = commonPrefix a b ++ rest ∧ (tail = [] ∨ rest = [] ∨ tail.head? ≠ rest.head?) := by
  induction a generalizing b with
  | nil => exact ⟨[], b, by cases b <;> simp⟩
  | cons x a ih =>
    cases b with
    | nil => exact ⟨x :: a, [], by simp⟩
    | cons y b =>
      by_cases hxy : x = y
      · obtain ⟨tail, rest, ha, hb, hor⟩ := ih b
        refine ⟨tail, rest, ?_, ?_, hor⟩
        · simpa [hxy] using ha
        · simpa [hxy] using hb
      · exact ⟨x :: a, y :: b, by simp [hxy]⟩

lemma related_reln (ha : a ≠ []) (hb : b ≠ []) : Related a b (reln a b) := by
  obtain ⟨tail, rest, hta, hrb, hor⟩ := exists_commonPrefix a b
  rw [reln]
  split_ifs with heq hsub hcontains hnone
  · exact .equal heq
  · obtain ⟨tail, rfl⟩ := hsub
    exact .subdomain tail (fun h => heq (by simp [h])) rfl
  · have hcommon : commonPrefix a b = a := by
      have := isPrefix_commonPrefix.mpr ⟨prefix_refl a, hcontains⟩
      exact (commonPrefix_left a b).eq_of_length_le this.length_le
    rw [hcommon] at hrb
    refine .contains a rest hcommon ha (fun h => heq ?_) rfl hrb
    rw [hrb, h, append_nil]
  · refine .none fun hhead => ?_
    rw [hnone, nil_append] at hta hrb
    rcases hor with h | h | h
    · exact ha (hta.trans h)
    · exact hb (hrb.trans h)
    · rw [← hta, ← hrb] at h
      exact h hhead
  · have htail : tail ≠ [] := fun h => hcontains ⟨rest, by rw [h, append_nil] at hta; rw [hta, ← hrb]⟩
    have hrest : rest ≠ [] := fun h => hsub ⟨tail, by rw [h, append_nil] at hrb; rw [hrb, ← hta]⟩
    exact .commonancestor _ tail rest rfl hnone htail hrest ((hor.resolve_left htail).resolve_left hrest)
      hta hrb

lemma reln_cons (x : α) (a b : List α) : reln (x :: a) (x :: b) =
    if reln a b = .none then .commonancestor else reln a b := by
  simp only [reln, List.cons.injEq, true_and, cons_prefix_cons, commonPrefix, if_true]
  split_ifs <;> simp_all

lemma reln_fullcompareFrom (n : ℕ) (ls ms : List Label) : (fullcompareFrom n ls ms).reln =
      if 0 < n ∧ reln (ls.map key) (ms.map key) = .none then .commonancestor
      else reln (ls.map key) (ms.map key) := by
  induction ls generalizing n ms with
  | nil => cases ms <;> simp [fullcompareFrom, reln]
  | cons l ls ih =>
    cases ms with
    | nil => simp [fullcompareFrom, reln]
    | cons m ms =>
      have heq : compareLabel l.1 m.1 = 0 ↔ l.key = m.key := (compareLabel_spec l.1 m.1).2
      rw [fullcompareFrom]
      by_cases horder : compareLabel l.1 m.1 = 0
      · simp only [horder, ne_eq, not_true_eq_false, if_false, ih, map_cons, heq.mp horder,
          reln_cons]
        split_ifs <;> simp_all
      · have hkey : l.key ≠ m.key := fun h => horder (heq.mpr h)
        have hnone : reln ((l :: ls).map key) ((m :: ms).map key) = .none := by
          simp [reln, hkey, hkey.symm, cons_prefix_cons]
        rw [map_cons, map_cons] at hnone ⊢
        simp [horder, hnone]

theorem reln_fullcompare (name1 name2 : Name) :
    (name1.fullcompare name2).reln = reln name1.key name2.key := by
  have h := reln_fullcompareFrom 0 name1.labels.reverse name2.labels.reverse
  rwa [if_neg (by simp)] at h

def Levels.Holds : Levels α δ → List α → Option δ → Prop
  | nil, _, _ => False
  | node l n e dn r, k, d =>
    Holds l k d ∨ (k = n ∧ d = e ∨ ∃ k', k = n ++ k' ∧ Holds dn k' d) ∨ Holds r k d

/-- The node of a level has this full name and data, or one below it does. -/
def Node.Holds (x : Node α δ) (k : List α) (d : Option δ) : Prop :=
  k = x.name ∧ d = x.data ∨ ∃ k', k = x.name ++ k' ∧ x.down.Holds k' d

namespace Levels

variable {t t' l r dn : Levels α δ} {n : List α} {x y : Node α δ}

attribute [local simp] nodes single

omit [LinearOrder α] in
lemma holds_iff : t.Holds k d ↔ ∃ x ∈ t.nodes, x.Holds k d := by
  induction t with
  | nil => simp [Holds]
  | node l n e dn r ihl _ ihr =>
    simp only [Holds, nodes, ihl, ihr, mem_append, mem_cons, or_and_right, exists_or,
      exists_eq_left, Node.Holds]

def Sorted (t : Levels α δ) : Prop := t.nodes.Pairwise fun x y => HeadLt x.name y.name

def Deep : Levels α δ → Prop
  | nil => True
  | node l n _ dn r => Deep l ∧ (n ≠ [] ∧ Sorted dn ∧ Deep dn) ∧ Deep r

def Good (t : Levels α δ) : Prop := t.Sorted ∧ t.Deep

lemma deep_iff : t.Deep ↔ ∀ x ∈ t.nodes, x.name ≠ [] ∧ x.down.Good := by
  induction t with
  | nil => simp [Deep]
  | node l n e dn r ihl _ ihr =>
    rw [Deep, ihl, ihr, nodes]
    simp only [mem_append, mem_cons, or_imp, forall_and, forall_eq, Good]
    tauto

lemma good_iff : t.Good ↔ (t.nodes.Pairwise fun x y => HeadLt x.name y.name) ∧
    ∀ x ∈ t.nodes, x.name ≠ [] ∧ x.down.Good := by
  rw [Good, deep_iff, Sorted]

lemma good_nil : (nil : Levels α δ).Good := ⟨List.Pairwise.nil, trivial⟩

lemma good_node : (node l n d dn r).Good ↔ l.Good ∧ (n ≠ [] ∧ dn.Good) ∧ r.Good ∧
    (∀ x ∈ l.nodes, HeadLt x.name n) ∧ ∀ x ∈ r.nodes, HeadLt n x.name := by
  rw [good_iff, good_iff (t := l), good_iff (t := r), nodes]
  simp only [pairwise_append, pairwise_cons, mem_append, mem_cons, or_imp, forall_and, forall_eq]
  constructor
  · rintro ⟨⟨hl, ⟨hr, hrs⟩, hln, hlr⟩, ⟨hl1, hn, hr1⟩, hl2, hdn, hr2⟩
    exact ⟨⟨hl, hl1, hl2⟩, ⟨hn, hdn⟩, ⟨hrs, hr1, hr2⟩, hln, hr⟩
  · rintro ⟨⟨hl, hl1, hl2⟩, ⟨hn, hdn⟩, ⟨hrs, hr1, hr2⟩, hln, hr⟩
    exact ⟨⟨hl, ⟨hr, hrs⟩, hln, fun x hx y hy => (hln x hx).trans (hr y hy)⟩, ⟨hl1, hn, hr1⟩, hl2, hdn,
      hr2⟩

lemma good_single : (single n d dn).Good ↔ n ≠ [] ∧ dn.Good := by
  simp [good_node, good_nil]

lemma good_congr (h : t'.nodes = t.nodes) : t'.Good ↔ t.Good := by
  rw [good_iff, good_iff, h]

section
omit [LinearOrder α]

lemma holds_congr (h : t'.nodes = t.nodes) : t'.Holds k d ↔ t.Holds k d := by
  rw [holds_iff, holds_iff, h]

lemma head_of_holds (hx : x.name ≠ []) (h : x.Holds k d) : k.head? = x.name.head? ∧ k ≠ [] := by
  rcases h with ⟨rfl, -⟩ | ⟨k', rfl, -⟩
  · exact ⟨rfl, hx⟩
  · exact ⟨head?_append_of_ne_nil _ hx, by simp [hx]⟩

lemma name_isPrefix (h : x.Holds k d) : x.name <+: k := by
  rcases h with ⟨rfl, -⟩ | ⟨k', rfl, -⟩
  · exact prefix_refl _
  · exact prefix_append ..

end

lemma eq_of_head_eq (h : t.Good) (hx : x ∈ t.nodes) (hy : y ∈ t.nodes)
    (heq : x.name.head? = y.name.head?) : x = y := by
  by_contra hne
  have hsymm : Std.Symm fun x y : Node α δ => x.name.head? ≠ y.name.head? := ⟨fun _ _ => Ne.symm⟩
  have hpair : t.nodes.Pairwise fun x y => x.name.head? ≠ y.name.head? := h.1.imp HeadLt.head_ne
  exact hpair.forall hx hy hne heq

lemma Good.name_ne (h : t.Good) (hx : x ∈ t.nodes) : x.name ≠ [] := ((good_iff.mp h).2 x hx).1

lemma Good.head_eq (h : t.Good) (hk : t.Holds k d) :
    ∃ x ∈ t.nodes, x.Holds k d ∧ k.head? = x.name.head? := by
  obtain ⟨x, hx, hold⟩ := holds_iff.mp hk
  exact ⟨x, hx, hold, (head_of_holds (h.name_ne hx) hold).1⟩

section
variable (h : (node l n e dn r).Good)
include h

lemma not_holds_left (hk : ¬HeadLt k n) : ¬l.Holds k d := by
  intro hold
  obtain ⟨hl, -, -, hln, -⟩ := good_node.mp h
  obtain ⟨x, hx, -, heq⟩ := hl.head_eq hold
  exact hk ((headLt_congr heq).mpr (hln x hx))

lemma not_holds_right (hk : ¬HeadLt n k) : ¬r.Holds k d := by
  intro hold
  obtain ⟨-, -, hr, -, hrn⟩ := good_node.mp h
  obtain ⟨x, hx, -, heq⟩ := hr.head_eq hold
  exact hk ((headLt_congr_right heq).mpr (hrn x hx))

lemma not_holds_here (hk : k.head? ≠ n.head?) : ¬Node.Holds ⟨n, e, dn⟩ k d := by
  intro hold
  obtain ⟨-, ⟨hn, -⟩, -⟩ := good_node.mp h
  exact hk (head_of_holds hn hold).1

lemma holds_left (hk : HeadLt k n) : (node l n e dn r).Holds k d ↔ l.Holds k d := by
  have hhere := not_holds_here h (d := d) hk.head_ne
  have hright := not_holds_right h (d := d) fun hlt => (hlt.trans hk).head_ne rfl
  exact ⟨fun hold => (hold.resolve_right fun h' => h'.elim hhere hright), .inl⟩

lemma holds_right (hk : HeadLt n k) : (node l n e dn r).Holds k d ↔ r.Holds k d := by
  have hhere := not_holds_here h (d := d) hk.head_ne.symm
  have hleft := not_holds_left h (d := d) fun hlt => (hlt.trans hk).head_ne rfl
  exact ⟨fun hold => (hold.resolve_left hleft).resolve_left hhere, fun hold => .inr (.inr hold)⟩

lemma holds_here (hk : k.head? = n.head?) :
    (node l n e dn r).Holds k d ↔ Node.Holds ⟨n, e, dn⟩ k d := by
  have hleft := not_holds_left h (d := d) fun hlt => hlt.head_ne hk
  have hright := not_holds_right h (d := d) fun hlt => hlt.head_ne hk.symm
  exact ⟨fun hold => (hold.resolve_left hleft).resolve_right hright, fun hold => .inr (.inl hold)⟩

end

lemma Good.ne_nil (h : t.Good) (hk : t.Holds k d) : k ≠ [] := by
  obtain ⟨x, hx, hold, -⟩ := h.head_eq hk
  exact (head_of_holds (h.name_ne hx) hold).2

lemma Good.holds_unique (h : t.Good) {d' : Option δ} (hd : t.Holds k d) (hd' : t.Holds k d') :
    d = d' := by
  induction t generalizing k with
  | nil => cases hd
  | node l n e dn r ihl ihdn ihr =>
    obtain ⟨hl, ⟨hn, hdn⟩, hr, -, -⟩ := good_node.mp h
    have hk := h.ne_nil hd
    by_cases heq : k.head? = n.head?
    · rw [holds_here h heq] at hd hd'
      rcases hd with ⟨rfl, rfl⟩ | ⟨k1, rfl, hd⟩ <;> rcases hd' with ⟨hname, rfl⟩ | ⟨k2, hname, hd'⟩
      · rfl
      · exact absurd (by simpa using hname) (hdn.ne_nil hd')
      · exact absurd (by simpa using hname) (hdn.ne_nil hd)
      · rw [append_cancel_left hname] at hd
        exact ihdn hdn hd hd'
    · rcases headLt_or hk hn heq with ⟨hlt, -⟩ | ⟨hlt, -⟩
      · rw [holds_left h hlt] at hd hd'
        exact ihl hl hd hd'
      · rw [holds_right h hlt] at hd hd'
        exact ihr hr hd hd'

def HeadsIn (t' t : Levels α δ) (name : List α) : Prop :=
  ∀ x ∈ t'.nodes, x.name.head? = name.head? ∨ ∃ y ∈ t.nodes, x.name.head? = y.name.head?

structure AddSpec (t : Levels α δ) (name : List α) (p : Added × Levels α δ) : Prop where
  good : p.2.Good
  heads : HeadsIn p.2 t name
  data : ∀ k v, p.2.Holds k (some v) ↔ t.Holds k (some v)
  nodes : ∀ k d, p.2.Holds k d → (∃ d', t.Holds k d') ∨ k <+: name
  mem : ∃ d, p.2.Holds name d
  found : p.1 = .found → p.2 = t
  new : p.1 ≠ .found → ∀ d, ¬t.Holds name d

variable {dn' l' r' level : Levels α δ} {rest common name tail : List α}

section
variable (h : (node l n e dn r).Good)
include h

lemma replace_node {n' : List α} (e' : Option δ)
    (hhead : n'.head? = n.head?) (hdn : dn'.Good) :
    (node l n' e' dn' r).Good ∧ HeadsIn (node l n' e' dn' r) (node l n e dn r) n' := by
  obtain ⟨hl, ⟨hn, -⟩, hr, hln, hrn⟩ := good_node.mp h
  have hn' : n' ≠ [] := by
    rintro rfl
    exact hn (head?_eq_none_iff.mp hhead.symm)
  refine ⟨good_node.mpr ⟨hl, ⟨hn', hdn⟩, hr, fun x hx => (headLt_congr_right hhead).mpr (hln x hx),
    fun x hx => (headLt_congr hhead).mpr (hrn x hx)⟩, fun x hx => ?_⟩
  rw [nodes, mem_append, mem_cons] at hx
  rcases hx with hx | rfl | hx
  · exact .inr ⟨x, by simp [hx], rfl⟩
  · exact .inl rfl
  · exact .inr ⟨x, by simp [hx], rfl⟩

lemma replace_left (hl : l'.Good)
    (hheads : HeadsIn l' l name) (hlt : HeadLt name n) :
    (node l' n e dn r).Good ∧ HeadsIn (node l' n e dn r) (node l n e dn r) name := by
  obtain ⟨-, hmid, hr, hln, hrn⟩ := good_node.mp h
  refine ⟨good_node.mpr ⟨hl, hmid, hr, fun x hx => ?_, hrn⟩, fun x hx => ?_⟩
  · rcases hheads x hx with heq | ⟨y, hy, heq⟩
    · exact (headLt_congr heq).mpr hlt
    · exact (headLt_congr heq).mpr (hln y hy)
  · rw [nodes, mem_append] at hx
    rcases hx with hx | hx
    · exact (hheads x hx).imp_right fun ⟨y, hy, heq⟩ => ⟨y, by simp [hy], heq⟩
    · exact .inr ⟨x, by simp only [nodes, mem_append, hx, or_true], rfl⟩

lemma replace_right (hr : r'.Good)
    (hheads : HeadsIn r' r name) (hlt : HeadLt n name) :
    (node l n e dn r').Good ∧ HeadsIn (node l n e dn r') (node l n e dn r) name := by
  obtain ⟨hl, hmid, -, hln, hrn⟩ := good_node.mp h
  refine ⟨good_node.mpr ⟨hl, hmid, hr, hln, fun x hx => ?_⟩, fun x hx => ?_⟩
  · rcases hheads x hx with heq | ⟨y, hy, heq⟩
    · exact (headLt_congr_right heq).mpr hlt
    · exact (headLt_congr_right heq).mpr (hrn y hy)
  · rw [nodes, mem_append, mem_cons] at hx
    rcases hx with hx | rfl | hx
    · exact .inr ⟨x, by simp [hx], rfl⟩
    · exact .inr ⟨_, by simp, rfl⟩
    · exact (hheads x hx).imp_right fun ⟨y, hy, heq⟩ => ⟨y, by simp [hy], heq⟩

end

lemma append_lt_append_iff (c : List α) : c ++ a < c ++ b ↔ a < b := by
  induction c with
  | nil => rfl
  | cons x c ih => simpa [cons_lt_cons_iff] using ih

lemma good_splitLevel (hname : name = common ++ tail)
    (hn : n = common ++ rest) (htail : tail ≠ []) (hrest : rest ≠ [])
    (hhead : tail.head? ≠ rest.head?) (hdn : dn.Good) :
    (splitLevel name n rest d dn tail).Good := by
  have hlt : name < n ↔ tail < rest := by rw [hname, hn, append_lt_append_iff]
  have hsingle : (single tail none nil : Levels α δ).Good := good_single.mpr ⟨htail, good_nil⟩
  rw [splitLevel]
  rcases headLt_or htail hrest hhead with ⟨hbefore, hcmp⟩ | ⟨hafter, hcmp⟩
  · rw [if_pos (hlt.mpr hcmp)]
    refine good_node.mpr ⟨hsingle, ⟨hrest, hdn⟩, good_nil, ?_, by simp⟩
    simpa using hbefore
  · rw [if_neg (mt hlt.mp hcmp)]
    refine good_node.mpr ⟨good_nil, ⟨hrest, hdn⟩, hsingle, by simp, ?_⟩
    simpa using hafter

lemma holds_splitLevel : (splitLevel name n rest e dn tail).Holds k d ↔
    k = tail ∧ d = none ∨ Node.Holds ⟨rest, e, dn⟩ k d := by
  rw [splitLevel]
  split_ifs
  · simp [Holds, Node.Holds]
  · simp [Holds, Node.Holds, or_comm]

section
omit [LinearOrder α]

lemma holds_split (hn : n = common ++ rest)
    (hlevel : ∀ k v, level.Holds k (some v) ↔ Node.Holds ⟨rest, e, dn⟩ k (some v)) :
    Node.Holds ⟨common, none, level⟩ k (some v) ↔ Node.Holds ⟨n, e, dn⟩ k (some v) := by
  simp only [Node.Holds, hlevel, reduceCtorEq, and_false, false_or, hn]
  constructor
  · rintro ⟨k', rfl, ⟨rfl, rfl⟩ | ⟨k'', rfl, hold⟩⟩
    · exact .inl ⟨rfl, rfl⟩
    · exact .inr ⟨k'', by simp, hold⟩
  · rintro (⟨rfl, rfl⟩ | ⟨k'', rfl, hold⟩)
    · exact ⟨rest, rfl, .inl ⟨rfl, rfl⟩⟩
    · exact ⟨rest ++ k'', by simp, .inr ⟨k'', rfl, hold⟩⟩

lemma nodes_split (hn : n = common ++ rest) (hcommon : common <+: name)
    (hlevel : ∀ k d, level.Holds k d → (∃ d', Node.Holds ⟨rest, e, dn⟩ k d') ∨ common ++ k <+: name)
    (k : List α) (d : Option δ) (hold : Node.Holds ⟨common, none, level⟩ k d) :
    (∃ d', Node.Holds ⟨n, e, dn⟩ k d') ∨ k <+: name := by
  rcases hold with ⟨rfl, -⟩ | ⟨k', rfl, hold⟩
  · exact .inr hcommon
  · refine (hlevel k' d hold).imp_left ?_
    rintro ⟨d', ⟨rfl, -⟩ | ⟨k'', rfl, hbelow⟩⟩
    · exact ⟨e, .inl ⟨hn.symm, rfl⟩⟩
    · exact ⟨d', .inr ⟨k'', by simp [hn], hbelow⟩⟩

lemma not_holds_split (hname : name = common ++ tail)
    (hn : n = common ++ rest) (hrest : rest ≠ []) (hhead : tail.head? ≠ rest.head?) :
    ¬Node.Holds ⟨n, e, dn⟩ name d := by
  rw [Node.Holds, hn, hname]
  rintro (⟨heq, -⟩ | ⟨k', heq, -⟩)
  · exact hhead (by rw [append_cancel_left heq])
  · rw [append_assoc] at heq
    exact hhead (by rw [append_cancel_left heq, head?_append_of_ne_nil _ hrest])

end

lemma AddSpec.replace (h : (node l n e dn r).Good) {name n' : List α} {e' : Option δ}
    (hhead : n'.head? = n.head?) (hhead' : n'.head? = name.head?) (hdn : dn'.Good)
    (hdata : ∀ k v, Node.Holds ⟨n', e', dn'⟩ k (some v) ↔ Node.Holds ⟨n, e, dn⟩ k (some v))
    (hnodes : ∀ k d, Node.Holds ⟨n', e', dn'⟩ k d → (∃ d', Node.Holds ⟨n, e, dn⟩ k d') ∨ k <+: name)
    (hmem : ∃ d, Node.Holds ⟨n', e', dn'⟩ name d) (hnew : ∀ d, ¬Node.Holds ⟨n, e, dn⟩ name d) :
    AddSpec (node l n e dn r) name (.below, node l n' e' dn' r) := by
  obtain ⟨hgood, hheads⟩ := replace_node h e' hhead hdn
  refine ⟨hgood, fun x hx => hhead' ▸ hheads x hx, fun k v => ?_, ?_, ?_, ?_, fun _ d hold => ?_⟩
  · exact or_congr_right (or_congr_left (hdata k v))
  · rintro k d (hold | hold | hold)
    · exact .inl ⟨d, .inl hold⟩
    · exact (hnodes k d hold).imp_left fun ⟨d', hold⟩ => ⟨d', .inr (.inl hold)⟩
    · exact .inl ⟨d, .inr (.inr hold)⟩
  · exact hmem.imp fun d hold => .inr (.inl hold)
  · rintro ⟨⟩
  · exact hnew d ((holds_here h (hhead'.symm.trans hhead)).mp hold)

lemma AddSpec.of_found (h : t.Good) (hmem : ∃ d, t.Holds name d) :
    AddSpec t name (.found, t) :=
  ⟨h, fun x hx => .inr ⟨x, hx, rfl⟩, fun _ _ => Iff.rfl, fun _ d hold => .inl ⟨d, hold⟩, hmem,
    fun _ => rfl, fun hne => absurd rfl hne⟩

variable (bal : Balancer α δ)

lemma addOnLevel_spec (h : t.Good) (hname : name ≠ []) :
    AddSpec t name (addOnLevel bal t name) := by
  induction t generalizing name with
  | nil =>
    refine ⟨good_single.mpr ⟨hname, good_nil⟩, fun x hx => ?_, ?_, ?_, ⟨none, ?_⟩, ?_, ?_⟩
    · exact .inl (by simp_all [addOnLevel])
    · simp [addOnLevel, Holds]
    · simp +contextual [addOnLevel, single, Holds]
    · simp [addOnLevel, Holds]
    · simp [addOnLevel]
    · simp [Holds]
  | node l n e dn r ihl ihdn ihr =>
    obtain ⟨hl, ⟨hn, hdn⟩, hr, -, -⟩ := good_node.mp h
    have hrel := related_reln hname hn
    rw [addOnLevel]
    generalize reln name n = q at hrel ⊢
    cases hrel with
    | equal heq => exact .of_found h ⟨e, .inr (.inl (.inl ⟨heq, rfl⟩))⟩
    | none hne =>
      rcases headLt_or hname hn hne with ⟨hlt, hcmp⟩ | ⟨hlt, hcmp⟩
      · have spec := ihl hl hname
        obtain ⟨hgood, hheads⟩ := replace_left h spec.good spec.heads hlt
        simp only [if_pos hcmp]
        refine ⟨hgood, hheads, fun k v => or_congr_left (spec.data k v), ?_,
          spec.mem.imp fun _ => .inl, fun hfound => by rw [spec.found hfound],
          fun hnew d hold => spec.new hnew d ((holds_left h hlt).mp hold)⟩
        rintro k d (hold | hold)
        · exact (spec.nodes k d hold).imp_left fun ⟨d', hold⟩ => ⟨d', .inl hold⟩
        · exact .inl ⟨d, .inr hold⟩
      · have spec := ihr hr hname
        obtain ⟨hgood, hheads⟩ := replace_right h spec.good spec.heads hlt
        simp only [if_neg hcmp]
        refine ⟨hgood, hheads, fun k v => or_congr_right (or_congr_right (spec.data k v)), ?_,
          spec.mem.imp fun _ hold => .inr (.inr hold), fun hfound => by rw [spec.found hfound],
          fun hnew d hold => spec.new hnew d ((holds_right h hlt).mp hold)⟩
        rintro k d (hold | hold | hold)
        · exact .inl ⟨d, .inl hold⟩
        · exact .inl ⟨d, .inr (.inl hold)⟩
        · exact (spec.nodes k d hold).imp_left fun ⟨d', hold⟩ => ⟨d', .inr (.inr hold)⟩
    | subdomain tail htail heq =>
      subst heq
      have spec := ihdn hdn htail
      have hhead : n.head? = (n ++ tail).head? := (head?_append_of_ne_nil _ hn).symm
      have hnew : (addOnLevel bal dn tail).1 ≠ .found →
          ∀ d, ¬Node.Holds ⟨n, e, dn⟩ (n ++ tail) d := by
        rintro hne d (⟨hnil, -⟩ | ⟨k', heq, hold⟩)
        · exact htail (by simpa using hnil)
        · rw [← append_cancel_left heq] at hold
          exact spec.new hne d hold
      have hnodes : ∀ k d, (⟨n, e, (addOnLevel bal dn tail).2⟩ : Node α δ).Holds k d →
          (∃ d', Node.Holds ⟨n, e, dn⟩ k d') ∨ k <+: n ++ tail := by
        rintro k d (hk | ⟨k', rfl, hold⟩)
        · exact .inl ⟨d, .inl hk⟩
        · exact (spec.nodes k' d hold).imp (fun ⟨d', hold⟩ => ⟨d', .inr ⟨k', rfl, hold⟩⟩)
            (prefix_append_right_inj n).mpr
      simp only [drop_left]
      cases hadd : (addOnLevel bal dn tail).1 with
      | found =>
        have hmem := spec.mem
        rw [spec.found hadd] at hmem
        simp only [reduceCtorEq, if_false, spec.found hadd]
        exact .of_found h (hmem.imp fun d hold => .inr (.inl (.inr ⟨tail, rfl, hold⟩)))
      | onLevel =>
        have hrun := bal.nodes_run (addOnLevel bal dn tail).2
        refine .replace h rfl hhead ((good_congr hrun).mpr spec.good) (fun k v => ?_) ?_ ?_
          (hnew (by simp [hadd]))
        · simp only [Node.Holds, holds_congr hrun, spec.data]
        · simpa only [Node.Holds, holds_congr hrun] using hnodes
        · exact spec.mem.imp fun d hold => .inr ⟨tail, rfl, (holds_congr hrun).mpr hold⟩
      | below =>
        refine .replace h rfl hhead spec.good (fun k v => ?_) hnodes ?_ (hnew (by simp [hadd]))
        · simp only [Node.Holds, spec.data]
        · exact spec.mem.imp fun d hold => .inr ⟨tail, rfl, hold⟩
    | contains common rest hcommon hne hrest hname' hn' =>
      subst hname'
      have hlevel : ∀ k v, (single rest e dn).Holds k (some v) ↔
          Node.Holds ⟨rest, e, dn⟩ k (some v) := by simp [Holds, Node.Holds]
      have hdrop : n.drop name.length = rest := by rw [hn', drop_left]
      simp only [hcommon, if_true, hdrop]
      refine .replace h (by rw [hn', head?_append_of_ne_nil _ hne]) rfl
        (good_single.mpr ⟨hrest, hdn⟩) (fun k v => holds_split hn' hlevel)
        (nodes_split hn' (prefix_refl _) fun k d hold => .inl ⟨d, by
          simpa [Holds, Node.Holds] using hold⟩)
        ⟨none, .inl ⟨rfl, rfl⟩⟩ fun d hold => ?_
      exact not_holds_split (append_nil name).symm hn' hrest
        (fun h => hrest (head?_eq_none_iff.mp h.symm)) hold
    | commonancestor common tail rest hcommon hne htail hrest hhead hname' hn' =>
      have hgood := good_splitLevel (d := e) hname' hn' htail hrest hhead hdn
      have hrun := bal.nodes_run (splitLevel name n rest e dn tail)
      have hlength : common.length ≠ name.length := by simp [hname', htail]
      have hdrop : n.drop common.length = rest := by rw [hn', drop_left]
      have hdrop' : name.drop common.length = tail := by rw [hname', drop_left]
      simp only [hcommon, if_neg hlength, hdrop, hdrop']
      refine .replace h (by rw [hn', head?_append_of_ne_nil _ hne])
        (by rw [hname', head?_append_of_ne_nil _ hne]) ((good_congr hrun).mpr hgood)
        (fun k v => holds_split hn' fun k v => by simp [holds_congr hrun, holds_splitLevel])
        (nodes_split hn' ⟨tail, hname'.symm⟩ fun k d hold => ?_)
        ⟨none, .inr ⟨tail, hname', (holds_congr hrun).mpr (holds_splitLevel.mpr (.inl ⟨rfl, rfl⟩))⟩⟩
        fun d => not_holds_split hname' hn' hrest hhead
      rw [holds_congr hrun, holds_splitLevel] at hold
      rcases hold with ⟨rfl, -⟩ | hold
      · exact .inr (by rw [hname'])
      · exact .inl ⟨d, hold⟩

structure AddnodeSpec (t : Levels α δ) (name : List α) (p : Result × Levels α δ) : Prop where
  good : p.2.Good
  data : ∀ k v, p.2.Holds k (some v) ↔ t.Holds k (some v)
  nodes : ∀ k d, p.2.Holds k d → (∃ d', t.Holds k d') ∨ k <+: name
  mem : ∃ d, p.2.Holds name d
  result : p.1 = .exists ∧ p.2 = t ∨ p.1 = .success ∧ ∀ d, ¬t.Holds name d

lemma addnode_spec (h : t.Good) (hname : name ≠ []) :
    AddnodeSpec t name (addnode bal t name) := by
  have spec := addOnLevel_spec bal h hname
  have hrun := bal.nodes_run (addOnLevel bal t name).2
  cases hadd : (addOnLevel bal t name).1 with
  | found =>
    simp only [addnode, hadd, reduceCtorEq, if_true, if_false]
    exact ⟨spec.good, spec.data, spec.nodes, spec.mem, .inl ⟨rfl, spec.found hadd⟩⟩
  | onLevel =>
    simp only [addnode, hadd, reduceCtorEq, if_true, if_false]
    exact ⟨(good_congr hrun).mpr spec.good, fun k v => (holds_congr hrun).trans (spec.data k v),
      fun k d hold => spec.nodes k d ((holds_congr hrun).mp hold),
      spec.mem.imp fun d => (holds_congr hrun).mpr, .inr ⟨rfl, spec.new (by simp [hadd])⟩⟩
  | below =>
    simp only [addnode, hadd, reduceCtorEq, if_false]
    exact ⟨spec.good, spec.data, spec.nodes, spec.mem, .inr ⟨rfl, spec.new (by simp [hadd])⟩⟩

omit [LinearOrder α] in
lemma nodes_takeFirst (l : Levels α δ) (x : Node α δ) (r : Levels α δ) :
    (takeFirst l x r).1 :: (takeFirst l x r).2.nodes = l.nodes ++ x :: r.nodes := by
  induction l generalizing x r with
  | nil => rfl
  | node ll n d dn lr ihl _ _ =>
    have hfirst := ihl ⟨n, d, dn⟩ lr
    simp only [takeFirst, nodes, ← hfirst, cons_append]

omit [LinearOrder α] in
lemma nodes_glue (l r : Levels α δ) : (glue l r).nodes = l.nodes ++ r.nodes := by
  cases l with
  | nil => rfl
  | node ll n d dn lr =>
    cases r with
    | nil => simp [glue]
    | node rl m e dm rr =>
      simp only [glue]
      rw [nodes, nodes_takeFirst, nodes, nodes]

structure AlterSpec (t : Levels α δ) (name : List α) (new : Option δ) (t' : Levels α δ) : Prop where
  good : t'.Good
  heads : HeadsIn t' t name
  data : ∀ k v, t'.Holds k (some v) ↔ k = name ∧ new = some v ∨ k ≠ name ∧ t.Holds k (some v)

variable {new : Option δ}

lemma AlterSpec.congr {u : Levels α δ} (spec : AlterSpec t name new t') (h : u.nodes = t'.nodes) :
    AlterSpec t name new u :=
  ⟨(good_congr h).mpr spec.good, fun x hx => spec.heads x (h ▸ hx),
    fun k v => (holds_congr h).trans (spec.data k v)⟩

section
variable (h : (node l n e dn r).Good)
include h

lemma alterSpec_here :
    AlterSpec (node l n e dn r) n new (node l n new dn r) := by
  obtain ⟨-, ⟨-, hdn⟩, -⟩ := good_node.mp h
  obtain ⟨hgood, hheads⟩ := replace_node h new rfl hdn
  refine ⟨hgood, hheads, fun k v => ?_⟩
  by_cases hk : k = n
  · subst hk
    rw [holds_here hgood rfl, Node.Holds]
    constructor
    · rintro (⟨-, heq⟩ | ⟨k', heq, hold⟩)
      · exact .inl ⟨rfl, heq.symm⟩
      · exact absurd (by simpa using heq) (hdn.ne_nil hold)
    · rintro (⟨-, heq⟩ | ⟨hne, -⟩)
      · exact .inl ⟨rfl, heq.symm⟩
      · exact absurd rfl hne
  · simp [Holds, hk]

omit h in
lemma alterSpec_glue (h : (node l n e nil r).Good) :
    AlterSpec (node l n e nil r) n none (glue l r) := by
  have hsub : (l.nodes ++ r.nodes).Sublist (node l n e nil r).nodes :=
    List.Sublist.append_left (sublist_cons_self ..) _
  have hgood := good_iff.mp h
  refine ⟨good_iff.mpr ?_, fun x hx => ?_, fun k v => ?_⟩
  · rw [nodes_glue]
    exact ⟨hgood.1.sublist hsub, fun x hx => hgood.2 x (hsub.subset hx)⟩
  · rw [nodes_glue] at hx
    exact .inr ⟨x, hsub.subset hx, rfl⟩
  · rw [holds_iff, nodes_glue]
    simp only [mem_append, or_and_right, exists_or, ← holds_iff]
    by_cases hk : k = n
    · subst hk
      have hleft := not_holds_left h (d := some v) fun hlt => hlt.head_ne rfl
      have hright := not_holds_right h (d := some v) fun hlt => hlt.head_ne rfl
      simp [hleft, hright]
    · simp [Holds, hk]

lemma alterSpec_left (hlt : HeadLt name n)
    (spec : AlterSpec l name new l') : AlterSpec (node l n e dn r) name new (node l' n e dn r) := by
  obtain ⟨hgood, hheads⟩ := replace_left h spec.good spec.heads hlt
  refine ⟨hgood, hheads, fun k v => ?_⟩
  by_cases hk : k = name
  · rw [hk, holds_left hgood hlt, spec.data]
    simp
  · rw [Holds, spec.data, Holds]
    simp [hk]

lemma alterSpec_right (hlt : HeadLt n name)
    (spec : AlterSpec r name new r') : AlterSpec (node l n e dn r) name new (node l n e dn r') := by
  obtain ⟨hgood, hheads⟩ := replace_right h spec.good spec.heads hlt
  refine ⟨hgood, hheads, fun k v => ?_⟩
  by_cases hk : k = name
  · rw [hk, holds_right hgood hlt, spec.data]
    simp
  · rw [Holds, spec.data, Holds]
    simp [hk]

lemma alterSpec_down (hname : name ≠ [])
    (spec : AlterSpec dn name new dn') :
    AlterSpec (node l n e dn r) (n ++ name) new (node l n e dn' r) := by
  obtain ⟨-, ⟨hn, -⟩, -⟩ := good_node.mp h
  have hhead : (n ++ name).head? = n.head? := head?_append_of_ne_nil _ hn
  obtain ⟨hgood, hheads⟩ := replace_node h e rfl spec.good
  refine ⟨hgood, fun x hx => hhead ▸ hheads x hx, fun k v => ?_⟩
  have hbelow : (∃ k', k = n ++ k' ∧ dn'.Holds k' (some v)) ↔ k = n ++ name ∧ new = some v ∨
        k ≠ n ++ name ∧ ∃ k', k = n ++ k' ∧ dn.Holds k' (some v) := by
    constructor
    · rintro ⟨k', rfl, hold⟩
      rcases (spec.data k' v).mp hold with ⟨rfl, heq⟩ | ⟨hne, hold⟩
      · exact .inl ⟨rfl, heq⟩
      · exact .inr ⟨fun heq => hne (append_cancel_left heq), k', rfl, hold⟩
    · rintro (⟨rfl, heq⟩ | ⟨hne, k', rfl, hold⟩)
      · exact ⟨name, rfl, (spec.data name v).mpr (.inl ⟨rfl, heq⟩)⟩
      · exact ⟨k', rfl, (spec.data k' v).mpr (.inr ⟨fun heq => hne (heq ▸ rfl), hold⟩)⟩
  by_cases hk : k = n ++ name
  · rw [hk, holds_here hgood hhead, Node.Holds]
    rw [hk] at hbelow
    simp only [hbelow]
    simp [hname]
  · rw [Holds, Holds, hbelow]
    simp [hk]

end

lemma alter_spec (edit : Levels α δ → Option (Option δ))
    (hedit : ∀ dn, edit dn = some new ∨ edit dn = none ∧ dn = nil ∧ new = none) (h : t.Good)
    (hmem : t.Holds name d) : AlterSpec t name new (alter bal edit t name).2 := by
  induction t generalizing name with
  | nil => cases hmem
  | node l n e dn r ihl ihdn ihr =>
    obtain ⟨hl, ⟨hn, hdn⟩, hr, -, -⟩ := good_node.mp h
    have hrel := related_reln (h.ne_nil hmem) hn
    rw [alter]
    generalize reln name n = q at hrel ⊢
    cases hrel with
    | equal heq =>
      subst heq
      rcases hedit dn with hsome | ⟨hnone, rfl, rfl⟩
      · rw [hsome]
        exact alterSpec_here h
      · rw [hnone]
        exact alterSpec_glue h
    | none hne =>
      rcases headLt_or (h.ne_nil hmem) hn hne with ⟨hlt, hcmp⟩ | ⟨hlt, hcmp⟩
      · simp only [if_pos hcmp]
        exact alterSpec_left h hlt (ihl hl ((holds_left h hlt).mp hmem))
      · simp only [if_neg hcmp]
        exact alterSpec_right h hlt (ihr hr ((holds_right h hlt).mp hmem))
    | subdomain tail htail heq =>
      subst heq
      have hbelow : dn.Holds tail d := by
        rw [holds_here h (head?_append_of_ne_nil _ hn)] at hmem
        rcases hmem with ⟨heq, -⟩ | ⟨k', heq, hold⟩
        · exact absurd (by simpa using heq) htail
        · rwa [append_cancel_left heq]
      have spec := ihdn hdn hbelow
      simp only [drop_left]
      refine alterSpec_down h htail ?_
      split_ifs
      · exact spec.congr (bal.nodes_run _)
      · exact spec
    | contains common rest hcommon hne hrest hname' hn' =>
      rw [holds_here h (by rw [hname', hn', head?_append_of_ne_nil _ hne])] at hmem
      refine absurd hmem (not_holds_split (hname'.trans (append_nil _).symm) hn' hrest ?_)
      exact fun h => hrest (head?_eq_none_iff.mp h.symm)
    | commonancestor common tail rest hcommon hne htail hrest hhead hname' hn' =>
      rw [holds_here h (by simp only [hname', hn', head?_append_of_ne_nil _ hne])] at hmem
      exact absurd hmem (not_holds_split hname' hn' hrest hhead)

lemma setData_spec (h : t.Good) (hmem : t.Holds name d) :
    AlterSpec t name new (t.setData bal name new) :=
  alter_spec bal _ (fun _ => .inl rfl) h hmem

lemma deletenode_spec (h : t.Good) (hmem : t.Holds name d) :
    AlterSpec t name none (t.deletenode bal name) := by
  have spec : AlterSpec t name none
      (alter bal (fun | nil => none | node .. => some none) t name).2 :=
    alter_spec bal _ (fun dn => by cases dn <;> simp) h hmem
  rw [deletenode]
  simp only
  split_ifs
  · exact spec.congr (bal.nodes_run _)
  · exact spec

variable {search pre : List α} {best : Option (List α × δ)} {out : Result × Option (List α × δ)}

lemma eq_of_isPrefix (h : t.Good) (hx : x ∈ t.nodes) (hy : y ∈ t.nodes) (hpx : x.name <+: search)
    (hpy : y.name <+: search) : x = y := by
  refine eq_of_head_eq h hx hy ?_
  obtain ⟨xs, rfl⟩ := hpx
  obtain ⟨ys, heq⟩ := hpy
  rw [← head?_append_of_ne_nil x.name (h.name_ne hx), ← heq,
    head?_append_of_ne_nil _ (h.name_ne hy)]

lemma hashSearch_eq_some_iff (h : t.Good) :
    hashSearch t search = some x ↔ x ∈ t.nodes ∧ x.name <+: search := by
  have hsound : ∀ y, hashSearch t search = some y → y ∈ t.nodes ∧ y.name <+: search := by
    intro y hy
    obtain ⟨i, -, hfind⟩ := exists_of_findSome?_eq_some hy
    have hname : y.name = search.take (i + 1) := by simpa using find?_some hfind
    exact ⟨mem_of_find?_eq_some hfind, hname ▸ take_prefix ..⟩
  refine ⟨hsound x, fun ⟨hx, hpre⟩ => ?_⟩
  -- the node is found at the length of its name
  have hlength : 0 < x.name.length := length_pos_iff.mpr (h.name_ne hx)
  have hsome : (hashSearch t search).isSome := by
    refine findSome?_isSome_iff.mpr ⟨x.name.length - 1, ?_, ?_⟩
    · rw [mem_range]
      have := hpre.length_le
      omega
    · rw [find?_isSome]
      refine ⟨x, hx, decide_eq_true ?_⟩
      rw [Nat.sub_add_cancel hlength]
      exact prefix_iff_eq_take.mp hpre
  obtain ⟨y, hy⟩ := isSome_iff_exists.mp hsome
  rw [hy, eq_of_isPrefix h hx (hsound y hy).1 hpre (hsound y hy).2]

lemma mem_node_iff_of_head (h : (node l n e dn r).Good) (hhead : search.head? = n.head?) :
    x ∈ (node l n e dn r).nodes ∧ x.name <+: search ↔ x = ⟨n, e, dn⟩ ∧ n <+: search := by
  have hmid : (⟨n, e, dn⟩ : Node α δ) ∈ (node l n e dn r).nodes := by simp
  constructor
  · rintro ⟨hx, hpre⟩
    obtain ⟨tail, rfl⟩ := hpre
    rw [head?_append_of_ne_nil _ (h.name_ne hx)] at hhead
    obtain rfl := eq_of_head_eq h hx hmid hhead
    exact ⟨rfl, prefix_append ..⟩
  · rintro ⟨rfl, hpre⟩
    exact ⟨hmid, hpre⟩

lemma levelSearch_eq_some_iff (h : t.Good) (hs : search ≠ []) :
    levelSearch t search = some x ↔ x ∈ t.nodes ∧ x.name <+: search := by
  cases t with
  | nil => simp [levelSearch]
  | node l n e dn r =>
    obtain ⟨-, ⟨hn, -⟩, -⟩ := good_node.mp h
    have hrel := related_reln hs hn
    rw [levelSearch]
    generalize reln search n = q at hrel ⊢
    cases hrel with
    | equal heq =>
      rw [mem_node_iff_of_head h (by rw [heq])]
      simp [heq, eq_comm]
    | subdomain tail htail heq =>
      rw [mem_node_iff_of_head h (by rw [heq, head?_append_of_ne_nil _ hn])]
      simp [heq, eq_comm]
    | none hne => exact hashSearch_eq_some_iff h
    | contains common rest hcommon hne hrest hs' hn' =>
      have hhead : search.head? = n.head? := by rw [hs', hn', head?_append_of_ne_nil _ hne]
      rw [mem_node_iff_of_head h hhead]
      have hnot : ¬n <+: search := fun hle => by
        have hlength := hle.length_le
        have hpos := length_pos_iff.mpr hrest
        rw [hs', hn', length_append] at hlength
        omega
      simp [hnot]
    | commonancestor common tail rest hcommon hne htail hrest hhead hs' hn' =>
      have hhead' : search.head? = n.head? := by
        rw [hs', hn', head?_append_of_ne_nil _ hne, head?_append_of_ne_nil _ hne]
      rw [mem_node_iff_of_head h hhead', hs', hn', prefix_append_right_inj]
      simp only [reduceCtorEq, false_iff, not_and]
      rintro - ⟨tail', rfl⟩
      exact hhead (head?_append_of_ne_nil _ hrest)

lemma binarySearch_eq_some_iff (h : t.Good) (hs : search ≠ []) :
    binarySearch t search = some x ↔ x ∈ t.nodes ∧ x.name <+: search := by
  induction t with
  | nil => simp [binarySearch]
  | node l n e dn r ihl _ ihr =>
    obtain ⟨hl, ⟨hn, -⟩, hr, hln, hrn⟩ := good_node.mp h
    have hrel := related_reln hs hn
    have hlevel := levelSearch_eq_some_iff (x := x) h hs
    rw [levelSearch] at hlevel
    rw [binarySearch]
    generalize reln search n = q at hrel hlevel ⊢
    cases hrel with
    | none hne =>
      have hhead (hx : x ∈ (node l n e dn r).nodes) (hpre : x.name <+: search) :
          search.head? = x.name.head? := by
        obtain ⟨tail, rfl⟩ := hpre
        exact head?_append_of_ne_nil _ (h.name_ne hx)
      -- a node at the name or above it starts with the same label
      rw [nodes, mem_append, mem_cons] at hhead ⊢
      rcases headLt_or hs hn hne with ⟨hlt, hcmp⟩ | ⟨hlt, hcmp⟩
      · simp only [if_pos hcmp, ihl hl]
        refine and_congr_left fun hpre => ⟨.inl, fun hx => hx.resolve_right ?_⟩
        rintro (rfl | hx)
        · exact hne (hhead (.inr (.inl rfl)) hpre)
        · exact (hlt.trans (hrn x hx)).head_ne (hhead (.inr (.inr hx)) hpre)
      · simp only [if_neg hcmp, ihr hr]
        refine and_congr_left fun hpre => ⟨fun hx => .inr (.inr hx), ?_⟩
        rintro (hx | rfl | hx)
        · exact absurd (hhead (.inl hx) hpre).symm ((hln x hx).trans hlt).head_ne
        · exact absurd (hhead (.inr (.inl rfl)) hpre) hne
        · exact hx
    | equal | subdomain | contains | commonancestor => exact hlevel

/-- A node is found at a name or above it, and no other node with data is as deep; or there is
none. -/
inductive FindSpec (t : Levels α δ) (search : List α) : Result × Option (List α × δ) → Prop
  | held (k : List α) (v : δ) (hold : t.Holds k (some v)) (hk : k <+: search)
      (hdeepest : ∀ k' v', t.Holds k' (some v') → k' <+: search → k' <+: k) :
      FindSpec t search (if k = search then .success else .partialMatch, some (k, v))
  | none (h : ∀ k v, t.Holds k (some v) → ¬k <+: search) : FindSpec t search (.notFound, none)

lemma holds_of_isPrefix (h : t.Good) (hx : x ∈ t.nodes) (hpre : x.name <+: search)
    (hold : t.Holds k d) (hk : k <+: search) : x.Holds k d := by
  obtain ⟨y, hy, hold⟩ := holds_iff.mp hold
  rwa [eq_of_isPrefix h hx hy hpre ((name_isPrefix hold).trans hk)]

section
variable {level level' : List α → Levels α δ → List α → Option (Node α δ)}
  {emptydata noexact : Bool} {above : Option (List α × Option δ)}

def Finds (level : List α → Levels α δ → List α → Option (Node α δ)) : Prop :=
  ∀ ⦃pre t search x⦄, t.Good → search ≠ [] →
    (level pre t search = some x ↔ x ∈ t.nodes ∧ x.name <+: search)

def Wanted (emptydata : Bool) (d : Option δ) : Prop := (d.isSome || emptydata)

def NotFound (emptydata noexact : Bool) (t : Levels α δ) (search : List α) : Prop :=
  ∀ d, t.Holds search d → Wanted emptydata d → noexact

variable (emptydata noexact t pre search above) in
/-- The node of a name, where it is wanted, or else the closest one above it that has data or need
not have them. -/
inductive Answer : Result × Option (List α × Option δ) → Prop
  | exact (d : Option δ) (hold : t.Holds search d) (hd : Wanted emptydata d)
      (hexact : noexact = false) : Answer (.success, some (pre ++ search, d))
  | above (hnot : NotFound emptydata noexact t search) (k : List α) (d : Option δ)
      (hold : t.Holds k d) (hd : Wanted emptydata d) (hk : k <+: search) (hne : k ≠ search)
      (hdeepest : ∀ k' d', t.Holds k' d' → Wanted emptydata d' → k' <+: search → k' ≠ search →
        k' <+: k) : Answer (.partialMatch, some (pre ++ k, d))
  | none (hnot : NotFound emptydata noexact t search)
      (hnone : ∀ k d, t.Holds k d → Wanted emptydata d → k <+: search → k = search) :
      Answer (if above.isSome then .partialMatch else .notFound, above)

lemma findOptions_congr {P : List α → Levels α δ → Prop}
    (hdown : ∀ pre t, P pre t → ∀ x ∈ t.nodes, P (pre ++ x.name) x.down)
    (hlevel : Finds level) (hlevel' : ∀ pre t search, P pre t → t.Good → search ≠ [] →
      level' pre t search = level pre t search) (fuel : ℕ) (hP : P pre t) (h : t.Good)
    (hs : search ≠ []) : findOptions level' emptydata noexact fuel t pre search above =
      findOptions level emptydata noexact fuel t pre search above := by
  induction fuel generalizing t pre search above with
  | zero => rfl
  | succ fuel ih =>
    rw [findOptions, findOptions, hlevel' pre t search hP h hs]
    cases hfound : level pre t search with
    | none => rfl
    | some x =>
      obtain ⟨hx, tail, rfl⟩ := (hlevel h hs).mp hfound
      by_cases htail : tail = []
      · simp [htail]
      · simp only [drop_left, ih (hdown pre t hP x hx) ((good_iff.mp h).2 x hx).2 htail]

lemma findOptions_answer (hlevel : Finds level) (fuel : ℕ) (h : t.Good) (hs : search ≠ [])
    (hfuel : search.length ≤ fuel) : Answer t search pre emptydata noexact above
      (findOptions level emptydata noexact fuel t pre search above) := by
  induction fuel generalizing t pre search above with
  | zero => exact absurd (length_eq_zero_iff.mp (Nat.le_zero.mp hfuel)) hs
  | succ fuel ih =>
    rw [findOptions]
    cases hfound : level pre t search with
    | none =>
      have hnone : ∀ k d, t.Holds k d → ¬k <+: search := by
        intro k d hold hk
        obtain ⟨x, hx, hxk⟩ := holds_iff.mp hold
        have := hfound ▸ (hlevel h hs).mpr ⟨hx, (name_isPrefix hxk).trans hk⟩
        cases this
      exact .none (fun d hold => absurd (prefix_refl _) (hnone _ d hold))
        fun k d hold _ hk => absurd hk (hnone k d hold)
    | some x =>
      obtain ⟨hx, hpre⟩ := (hlevel h hs).mp hfound
      have hdown : x.down.Good := ((good_iff.mp h).2 x hx).2
      have hself : t.Holds x.name x.data := holds_iff.mpr ⟨x, hx, .inl ⟨rfl, rfl⟩⟩
      obtain ⟨tail, rfl⟩ := hpre
      -- what is at the name or above it is the node, or below it
      have hinside : ∀ {k d}, t.Holds k d → k <+: x.name ++ tail → k = x.name ∧ d = x.data ∨
          ∃ k', k = x.name ++ k' ∧ k' ≠ [] ∧ x.down.Holds k' d ∧ k' <+: tail := by
        intro k d hold hk
        rcases holds_of_isPrefix h hx (prefix_append ..) hold hk with ⟨rfl, rfl⟩ | ⟨k', rfl, hbelow⟩
        · exact .inl ⟨rfl, rfl⟩
        · exact .inr ⟨k', rfl, hdown.ne_nil hbelow, hbelow, (prefix_append_right_inj _).mp hk⟩
      simp only
      by_cases htail : tail = []
      · subst htail
        rw [append_nil] at hs hinside ⊢
        have hall : ∀ {k d}, t.Holds k d → k <+: x.name → k = x.name ∧ d = x.data := by
          intro k d hold hk
          refine (hinside hold hk).resolve_right ?_
          rintro ⟨k', -, hne, -, hnil⟩
          exact hne (prefix_nil.mp hnil)
        rw [if_pos rfl]
        by_cases hwant : (!noexact && (x.data.isSome || emptydata))
        · rw [if_pos hwant]
          simp only [Bool.and_eq_true, Bool.not_eq_true'] at hwant
          exact .exact x.data hself hwant.2 hwant.1
        · rw [if_neg hwant]
          refine .none (fun d hold hd => ?_) fun k d hold _ hk => (hall hold hk).1
          rw [(hall hold (prefix_refl _)).2, Wanted] at hd
          simpa [hd] using hwant
      · have hne : x.name ≠ x.name ++ tail := fun heq => htail (by simpa using heq)
        have hlength := length_pos_iff.mpr (h.name_ne hx)
        rw [length_append] at hfuel
        rw [if_neg hne, drop_left]
        generalize habove : (if x.data.isSome || emptydata then some (pre ++ x.name, x.data)
          else above) = above'
        have spec : Answer x.down tail (pre ++ x.name) emptydata noexact above' _ :=
          ih hdown htail (by omega)
        have hnot (hnot : NotFound emptydata noexact x.down tail) :
            NotFound emptydata noexact t (x.name ++ tail) := by
          intro d hold hd
          rcases hinside hold (prefix_refl _) with ⟨heq, -⟩ | ⟨k', heq, -, hbelow, -⟩
          · exact absurd heq.symm hne
          · exact hnot d (append_cancel_left heq ▸ hbelow) hd
        generalize findOptions level emptydata noexact fuel x.down (pre ++ x.name) tail above' = out
          at spec ⊢
        cases spec with
        | exact d hold hd hexact =>
          rw [append_assoc]
          exact .exact d (holds_iff.mpr ⟨x, hx, .inr ⟨tail, rfl, hold⟩⟩) hd hexact
        | above hbelow k d hold hd hk hkne hdeepest =>
          rw [append_assoc]
          refine .above (hnot hbelow) _ d (holds_iff.mpr ⟨x, hx, .inr ⟨k, rfl, hold⟩⟩) hd
            ((prefix_append_right_inj _).mpr hk) (by simpa using hkne) fun k' d' hold' hd' hk' hne' => ?_
          rcases hinside hold' hk' with ⟨rfl, -⟩ | ⟨k'', rfl, -, hbelow', hk''⟩
          · exact prefix_append ..
          · exact (prefix_append_right_inj _).mpr
              (hdeepest k'' d' hbelow' hd' hk'' (by simpa using hne'))
        | none hbelow hnone =>
          by_cases hwant : (x.data.isSome || emptydata)
          · rw [if_pos hwant] at habove
            subst habove
            refine .above (hnot hbelow) x.name x.data hself hwant (prefix_append ..) hne
              fun k' d' hold' hd' hk' hne' => ?_
            rcases hinside hold' hk' with ⟨rfl, -⟩ | ⟨k'', rfl, -, hbelow', hk''⟩
            · exact prefix_refl _
            · exact absurd (congrArg _ (hnone k'' d' hbelow' hd' hk'')) hne'
          · rw [if_neg hwant] at habove
            subst habove
            refine .none (hnot hbelow) fun k d hold hd hk => ?_
            rcases hinside hold hk with ⟨-, rfl⟩ | ⟨k', rfl, -, hbelow', hk'⟩
            · exact absurd hd hwant
            · rw [hnone k' d hbelow' hd hk']

end

lemma findnode_spec (h : t.Good) (hs : search ≠ []) : FindSpec t search (findnode t search) := by
  have hanswer : Answer t search [] false false none _ :=
    findOptions_answer (fun _ _ _ _ => levelSearch_eq_some_iff) _ h hs le_rfl
  rw [findnode]
  generalize findOptions _ _ _ _ t [] search none = out at hanswer ⊢
  cases hanswer with
  | exact d hold hd =>
    obtain ⟨v, rfl⟩ : ∃ v, d = some v := isSome_iff_exists.mp (by simpa [Wanted] using hd)
    have hfound : FindSpec t search _ := .held search v hold (prefix_refl _) fun _ _ _ hk => hk
    rwa [if_pos rfl] at hfound
  | above hnot k d hold hd hk hne hdeepest =>
    obtain ⟨v, rfl⟩ : ∃ v, d = some v := isSome_iff_exists.mp (by simpa [Wanted] using hd)
    have hfound : FindSpec t search _ := .held k v hold hk fun k' v' hold' hk' =>
      hdeepest k' _ hold' rfl hk' fun heq => by cases hnot (some v') (heq ▸ hold') rfl
    rwa [if_neg hne] at hfound
  | none hnot hnone =>
    refine .none fun k v hold hk => ?_
    obtain rfl := hnone k _ hold rfl hk
    cases hnot (some v) hold rfl

end Levels

end LbBind.Rbt

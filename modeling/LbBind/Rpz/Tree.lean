import LbBind.Rpz.Cidr

/-! Trees of IP triggers and what they hold. In an ordered tree the nodes below a child continue the
prefix of their parent with the number of that child. Recursive functions say what looking up,
adding and deleting do; the loops over the links of the nodes compute them. -/

namespace LbBind.Rpz

open Function Option Tree

def canonical (ip : Key) (bits : ℕ) : Key × ℕ := (maskKey ip bits, bits)

def Contains (e : Key × ℕ) (a : Key) : Prop := Agree a e.1 e.2

def IsLongest (present : Set (Key × ℕ)) (a : Key) : Option (Key × ℕ) → Prop
  | none => ∀ e ∈ present, ¬Contains e a
  | some e => e ∈ present ∧ Contains e a ∧ ∀ e' ∈ present, Contains e' a → e'.2 ≤ e.2

def Tree.Has : Tree → Key × ℕ → Prop
  | .nil, _ => False
  | .node n child, e => (.ipData ∈ n.flags ∧ e = (n.ip, n.bits)) ∨ ∃ b, (child b).Has e

def Useful (n : Node) (child : Bool → Tree) : Prop :=
  n.flags = {.ip, .ipData} ∨ n.flags = {.ip} ∧ ∀ b, child b ≠ .nil

structure Fits (p : ℕ → Bool) (m : ℕ) (n : Node) (child : Bool → Tree) : Prop where
  le_bits : m ≤ n.bits
  bits_le : n.bits ≤ 128
  masked : maskKey n.ip n.bits = n.ip
  start : ∀ i < m, n.ip.bit i = p i
  useful : Useful n child

def Tree.Ordered : (p : ℕ → Bool) → (m : ℕ) → Tree → Prop
  | _, _, .nil => True
  | p, m, .node n child =>
    Fits p m n child ∧ ∀ b, (child b).Ordered (update n.ip.bit n.bits b) (n.bits + 1)

structure Starts (p : ℕ → Bool) (m : ℕ) (e : Key × ℕ) : Prop where
  le_bits : m ≤ e.2
  bits_le : e.2 ≤ 128
  masked : maskKey e.1 e.2 = e.1
  start : ∀ i < m, e.1.bit i = p i

@[simp] lemma children_self (b : Bool) (x y : Tree) : children b x y b = x := if_pos rfl

@[simp] lemma children_not (b : Bool) (x y : Tree) : children b x y (!b) = y :=
  if_neg (Bool.not_ne_self b)

lemma children_eta (b : Bool) (child : Bool → Tree) :
    children b (child b) (child (!b)) = child := by
  funext c
  cases b <;> cases c <;> rfl

variable {b : Bool} {P : Tree → Prop} {t : Tree} {p : ℕ → Bool} {m : ℕ} {n : Node} {e : Key × ℕ}

lemma forall_children {P : Bool → Tree → Prop} {x y : Tree} :
    (∀ c, P c (children b x y c)) ↔ P b x ∧ P (!b) y := by
  cases b <;> simp [children, and_comm]

lemma exists_children {x y : Tree} : (∃ c, P (children b x y c)) ↔ P x ∨ P y := by
  cases b <;> simp [children, or_comm]

lemma exists_child (b : Bool) {child : Bool → Tree} :
    (∃ c, P (child c)) ↔ P (child b) ∨ P (child (!b)) := by
  cases b <;> simp [or_comm]

@[simp] lemma isNil_iff : t.isNil ↔ t = .nil := by
  cases t <;> simp [isNil]

@[simp] lemma isNil_false_iff : t.isNil = false ↔ t ≠ .nil := by
  cases t <;> simp [isNil]

lemma Tree.Ordered.weaken {q : ℕ → Bool} {k : ℕ} (h : t.Ordered q k) (hm : m ≤ k)
    (hp : ∀ i < m, q i = p i) : t.Ordered p m := by
  cases t with
  | nil => trivial
  | node n child =>
    exact ⟨⟨hm.trans h.1.le_bits, h.1.bits_le, h.1.masked,
      fun i hi => (h.1.start i (by omega)).trans (hp i hi), h.1.useful⟩, h.2⟩

lemma Tree.Ordered.child {child : Bool → Tree}
    (h : (node n child).Ordered p m) (b : Bool) : (child b).Ordered p m :=
  (h.2 b).weaken (by have := h.1.le_bits; omega) fun i hi => by
    rw [update_of_ne (by have := h.1.le_bits; omega), h.1.start i hi]

lemma Tree.Ordered.starts (h : t.Ordered p m) (he : t.Has e) : Starts p m e := by
  induction t generalizing p m with
  | nil => exact he.elim
  | node n child ih =>
    obtain ⟨-, rfl⟩ | ⟨b, hb⟩ := he
    · exact ⟨h.1.le_bits, h.1.bits_le, h.1.masked, h.1.start⟩
    · exact ih b (h.child b) hb

variable {child : Bool → Tree}

lemma Tree.Ordered.below (h : (node n child).Ordered p m)
    (he : (child b).Has e) : n.bits < e.2 ∧ Agree e.1 n.ip n.bits ∧ e.1.bit n.bits = b := by
  have hs := (h.2 b).starts he
  refine ⟨hs.le_bits, fun i hi => ?_, ?_⟩
  · rw [hs.start i (by omega), update_of_ne (by omega)]
  · rw [hs.start _ (by omega), update_self]

lemma Tree.Ordered.root (h : (node n child).Ordered p m)
    (he : (node n child).Has e) : n.bits ≤ e.2 ∧ Agree e.1 n.ip n.bits := by
  obtain ⟨-, rfl⟩ | ⟨b, hb⟩ := he
  · exact ⟨le_rfl, fun _ _ => rfl⟩
  · exact ⟨(h.below hb).1.le, (h.below hb).2.1⟩

lemma Tree.Ordered.exists_has (h : t.Ordered p m) (ht : t ≠ .nil) : ∃ e, t.Has e := by
  induction t generalizing p m with
  | nil => exact absurd rfl ht
  | node n child ih =>
    obtain hdata | ⟨-, hchild⟩ := h.1.useful
    · exact ⟨_, .inl ⟨by simp [hdata], rfl⟩⟩
    · obtain ⟨e, he⟩ := ih false (h.child false) (hchild false)
      exact ⟨e, .inr ⟨_, he⟩⟩

def longest (a : Key) : Tree → Option Node
  | .nil => none
  | .node n child =>
    if Agree a n.ip n.bits then
      (longest a (child (a.bit n.bits))).or (if .ipData ∈ n.flags then some n else none)
    else none

lemma longest_spec (h : t.Ordered p m) (a : Key) :
    IsLongest {e | t.Has e} a ((longest a t).map fun n => (n.ip, n.bits)) := by
  induction t generalizing p m with
  | nil => exact fun e he => he.elim
  | node n child ih =>
    rw [longest]
    split
    case isFalse hdiffer =>
      intro e he hcontains
      obtain ⟨hle, hroot⟩ := h.root he
      exact hdiffer (Agree.trans (Agree.mono hcontains hle) hroot)
    case isTrue hagree =>
      -- the other child does not contain the address
      have hother : ∀ b e, (child b).Has e → Contains e a → b = a.bit n.bits := by
        intro b e he hcontains
        obtain ⟨hlt, -, hbit⟩ := h.below he
        rw [← hbit, hcontains _ hlt]
      have hchild := ih (a.bit n.bits) (h.child _)
      rcases hl : longest a (child (a.bit n.bits)) with _ | x
      · rw [hl] at hchild
        rw [none_or]
        split
        · rename_i hdata
          refine ⟨.inl ⟨hdata, rfl⟩, hagree, fun e he hcontains => ?_⟩
          obtain ⟨-, rfl⟩ | ⟨b, hb⟩ := he
          · exact le_rfl
          · obtain rfl := hother b e hb hcontains
            exact absurd hcontains (hchild e hb)
        · rename_i hdata
          intro e he hcontains
          obtain ⟨hmem, -⟩ | ⟨b, hb⟩ := he
          · exact hdata hmem
          · obtain rfl := hother b e hb hcontains
            exact hchild e hb hcontains
      · rw [hl] at hchild
        obtain ⟨hmem, hcontains, hmax⟩ := hchild
        refine ⟨.inr ⟨_, hmem⟩, hcontains, fun e he hc => ?_⟩
        obtain ⟨-, rfl⟩ | ⟨b, hb⟩ := he
        · exact (h.below hmem).1.le
        · obtain rfl := hother b e hb hc
          exact hmax e hb hc

def dataNode (ip : Key) (bits : ℕ) : Node := ⟨maskKey ip bits, bits, {.ip, .ipData}⟩

variable (behind : Behind) (ip : Key) (bits : ℕ)

def dbit (n : Node) : ℕ := (diffKeys behind.target ip bits (behind.node n) n.ip n.bits).1

def added : Tree → Tree
  | .nil => .node (dataNode ip bits) fun _ => .nil
  | .node n child =>
    if dbit behind ip bits n = bits then
      if bits = n.bits then .node (n.mark {.ip, .ipData}) child
      else .node (dataNode ip bits)
        (children (ipBit (behind.node n) n.ip (bits + 1)) (.node n child) .nil)
    else if dbit behind ip bits n = n.bits then
      .node n (children (ip.bit n.bits) (added (child (ip.bit n.bits))) (child (!ip.bit n.bits)))
    else
      let d := dbit behind ip bits n
      .node ⟨maskKey ip d, d, {.ip}⟩
        (children (ip.bit d) (.node (dataNode ip bits) fun _ => .nil) (.node n child))

def above : Tree → Option Node
  | .nil => none
  | .node n child =>
    if dbit behind ip bits n = bits then if bits = n.bits then none else some n
    else if dbit behind ip bits n = n.bits then above (child (ip.bit n.bits))
    else none

/-- The node that gets the target as its parent becomes the child it belongs to. -/
def OnRightSide (t : Tree) : Prop :=
  ∀ n, above behind ip bits t = some n → ipBit (behind.node n) n.ip (bits + 1) = n.ip.bit bits

variable {behind ip bits}

lemma dbit_spec (behind : Behind) (ip : Key) (hbits : bits ≤ 128) (n : Node) :
    FirstDiff ip bits n.ip n.bits (dbit behind ip bits n) := diffKeys_spec _ _ _ _ hbits

lemma dataNode_fits (hbits : bits ≤ 128) (hm : m ≤ bits)
    (hp : ∀ i < m, ip.bit i = p i) (child : Bool → Tree) : Fits p m (dataNode ip bits) child :=
  ⟨hm, hbits, maskKey_maskKey ip hbits,
    fun i hi => (maskKey_agree ip hbits i (hi.trans_le hm)).trans (hp i hi), .inl rfl⟩

lemma Agree.update {a k : Key} {d : ℕ} (h : Agree a k d) :
    ∀ i < d + 1, a.bit i = update k.bit d (a.bit d) i := by
  intro i hi
  rcases Nat.lt_succ_iff_lt_or_eq.mp hi with hlt | rfl
  · rw [update_of_ne hlt.ne, h i hlt]
  · rw [update_self]

lemma Tree.Ordered.hang (h : (node n child).Ordered p m) {k : Key}
    {d : ℕ} (hd : d < n.bits) (hagree : Agree n.ip k d) :
    (node n child).Ordered (update k.bit d (n.ip.bit d)) (d + 1) :=
  ⟨⟨hd, h.1.bits_le, h.1.masked, hagree.update, h.1.useful⟩, h.2⟩

lemma added_ne_nil (t : Tree) : added behind ip bits t ≠ .nil := by
  cases t with
  | nil => simp [added]
  | node n child =>
    rw [added]
    split_ifs <;> simp

section
variable (h : t.Ordered p m) (hbits : bits ≤ 128)
include h hbits

lemma Tree.Ordered.added (hm : m ≤ bits) (hp : ∀ i < m, ip.bit i = p i)
    (hside : OnRightSide behind ip bits t) : (added behind ip bits t).Ordered p m := by
  induction t generalizing p m with
  | nil => exact ⟨dataNode_fits hbits hm hp _, fun _ => trivial⟩
  | node n child ih =>
    have hd := dbit_spec behind ip hbits n
    rw [added]
    split_ifs with htarget hsame hnode
    · refine ⟨⟨h.1.le_bits, h.1.bits_le, h.1.masked, h.1.start, .inl ?_⟩, h.2⟩
      obtain hf | ⟨hf, -⟩ := h.1.useful <;> simp [Node.mark, hf]
    · -- the target becomes the parent
      have hlt : bits < n.bits := lt_of_le_of_ne (htarget ▸ hd.le_right) hsame
      have hbit := hside n (by simp [above, htarget, hsame])
      refine ⟨dataNode_fits hbits hm hp _, ?_⟩
      rw [forall_children (P := fun b t => t.Ordered _ _), hbit]
      exact ⟨h.hang hlt ((maskKey_agree ip hbits).trans (htarget ▸ hd.agree)).symm, trivial⟩
    · -- the target goes below the node
      have hlt : n.bits < bits := lt_of_le_of_ne (hnode ▸ hd.le_left) (by omega)
      have hagree : Agree ip n.ip n.bits := hnode ▸ hd.agree
      have hbelow := ih (ip.bit n.bits) (h.2 (ip.bit n.bits)) hlt hagree.update
        (fun x hx => hside x (by rw [above, if_neg htarget, if_pos hnode, hx]))
      refine ⟨⟨h.1.le_bits, h.1.bits_le, h.1.masked, h.1.start, ?_⟩, ?_⟩
      · exact h.1.useful.imp_right fun hc => ⟨hc.1,
          (forall_children (P := fun _ t => t ≠ .nil)).mpr ⟨added_ne_nil _, hc.2 _⟩⟩
      · rw [forall_children (P := fun b t => t.Ordered _ _)]
        exact ⟨hbelow, h.2 _⟩
    · -- both go below a fork
      have hlt : dbit behind ip bits n < bits := lt_of_le_of_ne hd.le_left htarget
      have hlt' : dbit behind ip bits n < n.bits := lt_of_le_of_ne hd.le_right hnode
      have hle : dbit behind ip bits n ≤ 128 := by omega
      have hm' : m ≤ dbit behind ip bits n :=
        hd.le_of_agree (fun i hi => (hp i hi).trans (h.1.start i hi).symm) hm h.1.le_bits
      refine ⟨⟨hm', hle, maskKey_maskKey ip hle, fun i hi => ?_, .inr ⟨rfl, ?_⟩⟩, ?_⟩
      · exact (maskKey_agree ip hle i (hi.trans_le hm')).trans (hp i hi)
      · exact (forall_children (P := fun _ t => t ≠ .nil)).mpr ⟨by simp, by simp⟩
      · rw [forall_children (P := fun b t => t.Ordered _ _)]
        have hother : (!ip.bit (dbit behind ip bits n)) = n.ip.bit (dbit behind ip bits n) :=
          Bool.not_eq.mpr (hd.differ hlt hlt')
        refine ⟨⟨dataNode_fits hbits hlt (maskKey_agree ip hle).symm.update _,
          fun _ => trivial⟩, ?_⟩
        rw [hother]
        exact h.hang hlt' ((maskKey_agree ip hle).trans hd.agree).symm

lemma Tree.Ordered.has_added (e : Key × ℕ) :
    (Rpz.added behind ip bits t).Has e ↔ t.Has e ∨ e = canonical ip bits := by
  induction t generalizing p m with
  | nil => simp [Rpz.added, Has, dataNode, canonical]
  | node n child ih =>
    have hd := dbit_spec behind ip hbits n
    rw [Rpz.added]
    split_ifs with htarget hsame hnode
    · have hip : n.ip = maskKey ip bits := by
        rw [← h.1.masked, ← hsame]
        exact (maskKey_eq_iff hbits).mpr (htarget ▸ hd.agree).symm
      obtain hf | ⟨hf, -⟩ := h.1.useful <;>
        simp [Has, Node.mark, canonical, hf, hip, ← hsame] <;> tauto
    · simp only [Has, exists_children (P := fun t => t.Has e), dataNode, canonical]
      simp
      tauto
    · simp only [Has, exists_children (P := fun t => t.Has e), ih _ (h.child _),
        exists_child (P := fun t => t.Has e) (ip.bit n.bits)]
      tauto
    · simp only [Has, exists_children (P := fun t => t.Has e), dataNode, canonical]
      simp
      tauto

lemma Tree.Ordered.lost (hside : ¬OnRightSide behind ip bits t) : ∃ e, t.Has e ∧ bits < e.2 ∧
      longest e.1 (Rpz.added behind ip bits t) = some (dataNode ip bits) := by
  obtain ⟨x, hx, hwrong⟩ : ∃ x, above behind ip bits t = some x ∧
      ipBit (behind.node x) x.ip (bits + 1) ≠ x.ip.bit bits := by
    simpa [OnRightSide] using hside
  clear hside
  induction t generalizing p m with
  | nil => simp [above] at hx
  | node n child ih =>
    have hd := dbit_spec behind ip hbits n
    rw [above] at hx
    rw [Rpz.added]
    split_ifs at hx ⊢ with htarget hsame hnode
    · obtain rfl := some_inj.mp hx
      have hlt : bits < n.bits := lt_of_le_of_ne (htarget ▸ hd.le_right) hsame
      obtain ⟨e, he⟩ := h.exists_has (by simp)
      obtain ⟨hle, hroot⟩ := h.root he
      have hagree : Agree e.1 (dataNode ip bits).ip (dataNode ip bits).bits :=
        (hroot.mono hlt.le).trans ((maskKey_agree ip hbits).trans (htarget ▸ hd.agree)).symm
      refine ⟨e, he, by omega, ?_⟩
      have hchild : e.1.bit (dataNode ip bits).bits = !ipBit (behind.node n) n.ip (bits + 1) := by
        rw [show (dataNode ip bits).bits = bits from rfl, hroot bits hlt]
        exact (Bool.not_eq.mpr hwrong).symm
      rw [longest, if_pos hagree, hchild, children_not]
      simp [longest, dataNode]
    · obtain ⟨e, he, hlong, hfound⟩ := ih _ (h.child _) hx
      obtain ⟨-, hagree, hbit⟩ := h.below he
      refine ⟨e, .inr ⟨_, he⟩, hlong, ?_⟩
      rw [longest, if_pos hagree, hbit, children_self, hfound, some_or]

end

def rejoin (n : Node) (b : Bool) (t sibling : Tree) : Tree :=
  if t.isNil ∧ .ipData ∉ n.flags then sibling else .node n (children b t sibling)

def collapse (n : Node) (child : Bool → Tree) : Tree :=
  if (child false).isNil ∨ (child true).isNil then onlyChild child
  else .node { n with flags := {.ip} } child

variable (behind ip bits) in
def removed : Tree → Tree
  | .nil => .nil
  | .node n child =>
    if dbit behind ip bits n = bits then
      if bits = n.bits ∧ .ipData ∈ n.flags then collapse n child else .node n child
    else if dbit behind ip bits n = n.bits then
      rejoin n (ip.bit n.bits) (removed (child (ip.bit n.bits))) (child (!ip.bit n.bits))
    else .node n child

lemma has_onlyChild (h : (child false).isNil ∨ (child true).isNil)
    (e : Key × ℕ) : (onlyChild child).Has e ↔ ∃ b, (child b).Has e := by
  unfold onlyChild
  rw [exists_child (P := fun t => t.Has e) false]
  split <;> simp_all [Has]

lemma has_collapse (n : Node) (child : Bool → Tree) (e : Key × ℕ) :
    (collapse n child).Has e ↔ ∃ b, (child b).Has e := by
  unfold collapse
  split
  · exact has_onlyChild ‹_› e
  · simp [Has]

lemma has_rejoin (n : Node) (b : Bool) (t sibling : Tree) (e : Key × ℕ) :
    (rejoin n b t sibling).Has e ↔
      (.ipData ∈ n.flags ∧ e = (n.ip, n.bits)) ∨ t.Has e ∨ sibling.Has e := by
  unfold rejoin
  split
  · rename_i hnil
    rw [isNil_iff] at hnil
    simp [hnil.1, hnil.2, Has]
  · rw [Has, exists_children (P := fun t => t.Has e)]

lemma Tree.Ordered.collapse
    (h : (node n child).Ordered p m) : (Rpz.collapse n child).Ordered p m := by
  unfold Rpz.collapse onlyChild
  split_ifs with hmissing hnil
  · exact h.child _
  · exact h.child _
  · refine ⟨⟨h.1.le_bits, h.1.bits_le, h.1.masked, h.1.start, .inr ⟨rfl, ?_⟩⟩, h.2⟩
    simpa using hmissing

lemma Tree.Ordered.rejoin (h : (node n child).Ordered p m) {b : Bool}
    (ht : t.Ordered (update n.ip.bit n.bits b) (n.bits + 1)) :
    (Rpz.rejoin n b t (child !b)).Ordered p m := by
  unfold Rpz.rejoin
  split
  · exact h.child _
  · rename_i hkeep
    refine ⟨⟨h.1.le_bits, h.1.bits_le, h.1.masked, h.1.start, ?_⟩, ?_⟩
    · refine h.1.useful.imp_right fun hc => ⟨hc.1, ?_⟩
      have hne : t ≠ .nil := fun hnil => hkeep ⟨isNil_iff.mpr hnil, by simp [hc.1]⟩
      exact (forall_children (P := fun _ t => t ≠ .nil)).mpr ⟨hne, hc.2 _⟩
    · exact (forall_children (P := fun _ t => t.Ordered _ _)).mpr ⟨ht, h.2 _⟩

lemma Tree.Ordered.removed (h : t.Ordered p m) : (removed behind ip bits t).Ordered p m := by
  induction t generalizing p m with
  | nil => trivial
  | node n child ih =>
    rw [removed]
    split_ifs
    · exact h.collapse
    · exact h
    · exact h.rejoin (ih _ (h.2 _))
    · exact h

lemma Tree.Ordered.has_removed (h : t.Ordered p m) (hbits : bits ≤ 128) (e : Key × ℕ) :
    (Rpz.removed behind ip bits t).Has e ↔ t.Has e ∧ e ≠ canonical ip bits := by
  induction t generalizing p m with
  | nil => simp [Rpz.removed, Has]
  | node n child ih =>
    have hd := dbit_spec behind ip hbits n
    have hcanonical : Agree (canonical ip bits).1 ip bits := maskKey_agree ip hbits
    rw [Rpz.removed]
    split_ifs with htarget hsame hnode
    · -- the node loses its data; what is below it is longer
      have hip : n.ip = maskKey ip bits := by
        rw [← h.1.masked, ← hsame.1]
        exact (maskKey_eq_iff hbits).mpr (htarget ▸ hd.agree).symm
      have hself : (n.ip, n.bits) = canonical ip bits := by rw [canonical, hip, hsame.1]
      rw [has_collapse, Has, hself]
      constructor
      · rintro ⟨b, hb⟩
        refine ⟨.inr ⟨b, hb⟩, ?_⟩
        rintro rfl
        exact (h.below hb).1.ne hsame.1.symm
      · rintro ⟨⟨-, rfl⟩ | hb, hne⟩
        · exact absurd rfl hne
        · exact hb
    · -- there is no such trigger: what is here is longer, or has no data
      refine ⟨fun he => ⟨he, ?_⟩, And.left⟩
      rintro rfl
      have hle : bits ≤ n.bits := htarget ▸ hd.le_right
      obtain ⟨hdata, heq⟩ | ⟨b, hb⟩ := he
      · exact hsame ⟨congrArg Prod.snd heq, hdata⟩
      · exact absurd (h.below hb).1 (not_lt.mpr hle)
    · -- the trigger is below the child that is rejoined
      have hlt : n.bits < bits := lt_of_le_of_ne (hnode ▸ hd.le_left) (by omega)
      have hother : ¬(child !ip.bit n.bits).Has (canonical ip bits) := fun he => by
        have hbit := (h.below he).2.2
        rw [hcanonical _ hlt] at hbit
        simp at hbit
      have hself : canonical ip bits ≠ (n.ip, n.bits) := fun heq =>
        hlt.ne' (congrArg Prod.snd heq)
      rw [has_rejoin, ih _ (h.child _), Has, exists_child (P := fun t => t.Has e) (ip.bit n.bits)]
      constructor
      · rintro (⟨hdata, rfl⟩ | ⟨he, hne⟩ | he)
        · exact ⟨.inl ⟨hdata, rfl⟩, hself.symm⟩
        · exact ⟨.inr (.inl he), hne⟩
        · exact ⟨.inr (.inr he), fun heq => hother (heq ▸ he)⟩
      · rintro ⟨hdata | he | he, hne⟩
        · exact .inl hdata
        · exact .inr (.inl ⟨he, hne⟩)
        · exact .inr (.inr he)
    · refine ⟨fun he => ⟨he, ?_⟩, And.left⟩
      rintro rfl
      have hlt : dbit behind ip bits n < bits := lt_of_le_of_ne hd.le_left htarget
      have hlt' : dbit behind ip bits n < n.bits := lt_of_le_of_ne hd.le_right hnode
      exact hd.differ hlt hlt' ((hcanonical _ hlt).symm.trans ((h.root he).2 _ hlt'))

end LbBind.Rpz

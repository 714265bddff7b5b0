import LbBind.Rbt.Lookup

/-! Node chains (`dns_rbtnodechain_t` of `lib/dns/rbt.c`). A node is addressed by the links that
lead to it, the last one first, so its parent pointer drops a link. A chain holds the node it stands
at and the nodes it came down through. The nodes are listed in the order in which the chain visits
them, and its moves are the steps along the list. -/

namespace LbBind.Rbt

open Bool

variable {α δ : Type*}

inductive Step where
  | left
  | right
  | down
  deriving DecidableEq

abbrev Pos := List Step

def Pos.isRoot : Pos → Bool
  | [] => true
  | s :: _ => s = .down

def Pos.levels : Pos → List Pos
  | [] => []
  | .down :: p => p :: levels p
  | .left :: p => levels p
  | .right :: p => levels p

namespace Levels

def isNil : Levels α δ → Bool
  | nil => true
  | node .. => false

def child (s : Step) : Levels α δ → Levels α δ
  | nil => nil
  | node l _ _ dn r =>
    match s with
    | .left => l
    | .right => r
    | .down => dn

def sub (t : Levels α δ) : Pos → Levels α δ
  | [] => t
  | s :: p => child s (sub t p)

variable (t : Levels α δ)

def link (s : Step) (p : Pos) : Option Pos :=
  if (t.sub (s :: p)).isNil then none else some (s :: p)

def nameAt (p : Pos) : List α := match t.sub p with
  | nil => []
  | node _ n _ _ _ => n

def dataAt (p : Pos) : Option δ := match t.sub p with
  | nil => none
  | node _ _ d _ _ => d

def originAt (t : Levels α δ) : Pos → List α
  | [] => []
  | .down :: p => originAt t p ++ t.nameAt p
  | .left :: p => originAt t p
  | .right :: p => originAt t p

def fullName (p : Pos) : List α := t.originAt p ++ t.nameAt p

def leftmost : Levels α δ → Pos → Pos
  | nil, p => p
  | node l _ _ _ _, p => if l.isNil then p else leftmost l (.left :: p)

/-- `while (RIGHT(current) != NULL) current = RIGHT(current)`, from the root of a tree. -/
def rightmost : Levels α δ → Pos → Pos
  | nil, p => p
  | node _ _ _ _ r, p => if r.isNil then p else rightmost r (.right :: p)

def moveToLast : Levels α δ → Pos → List Pos → Pos × List Pos
  | nil, p, levels => (p, levels)
  | node _ _ _ dn r, p, levels =>
    if r.isNil then
      if dn.isNil then (p, levels) else moveToLast dn (.down :: p) (p :: levels)
    else moveToLast r (.right :: p) levels

/-- The way up to the root of the level, as long as it is not a link `s` that is gone back: where it
ends, and the node with the link. -/
def climb (t : Levels α δ) (s : Step) : Pos → Pos × Option Pos
  | [] => ([], none)
  | x :: p =>
    if Pos.isRoot (x :: p) then (x :: p, none)
    else if t.link s p = some (x :: p) then (p, some p)
    else climb t s p

end Levels

/-- `dns_rbtnodechain_t`: the node `end` and the levels, the last one first. -/
structure Chain where
  end_ : Option Pos
  levels : List Pos
  levelMatches : ℕ
  deriving DecidableEq

def Chain.reset : Chain := ⟨none, [], 0⟩

structure Moved (α : Type*) where
  result : Result
  chain : Chain
  name : Option (List α)
  origin : Option (List α)

structure Movement where
  current : Pos
  found : Option Pos
  levels : List Pos
  newOrigin : Bool

def Movement.dest (m : Movement) : Option Pos × List Pos := (m.found, m.levels)

namespace Levels

variable (t : Levels α δ)

def chainName (levels : List Pos) : List α := levels.reverse.flatMap t.nameAt

/-- `dns_rbtnodechain_current`: the result, the node, its name and the origin. The last label of a
name of the top level is left out and stands in the origin; `none` is a failed `INSIST`. -/
def current [DecidableEq α] (root : α) (t : Levels α δ) (chain : Chain) :
    Option (Result × Option Pos × List α × List α) :=
  match chain.end_ with
  | none => some (.notFound, none, [], [])
  | some p =>
    if chain.levels = [] then
      if (t.nameAt p).head? = some root then some (.success, some p, (t.nameAt p).tail, [root])
      else none
    else some (.success, some p, t.nameAt p, t.chainName chain.levels)

/-- The loop of `dns_rbtnodechain_next` that looks for the successor upwards. -/
def ascend (t : Levels α δ) : List Pos → Pos → Movement
  | [], current =>
    match t.climb .left current with
    | (_, some p) => ⟨p, some p, [], false⟩
    | (p, none) => ⟨p, none, [], false⟩
  | level :: levels, current =>
    match t.climb .left current with
    | (_, some p) => ⟨p, some p, level :: levels, false⟩
    | (_, none) =>
      if (t.link .right level).isSome then ⟨level, none, levels, true⟩
      else { ascend t levels level with newOrigin := true }

/-- If no successor was found, the leftmost node to the right of `current`. -/
def goRight (m : Movement) : Movement :=
  match m.found, t.link .right m.current with
  | none, some q => { m with found := some (leftmost (t.sub q) q) }
  | _, _ => m

def successor (current : Pos) (levels : List Pos) : Movement := t.goRight <|
    match t.link .down current with
    | some q => ⟨leftmost (t.sub q) q, some (leftmost (t.sub q) q), current :: levels,
        levels ≠ [] || 1 < (t.nameAt current).length⟩
    | none =>
      if (t.link .right current).isSome then ⟨current, none, levels, false⟩
      else t.ascend levels current

/-- `dns_rbtnodechain_next`; `none` is a failed `REQUIRE`. -/
def next (chain : Chain) : Option (Moved α) := chain.end_.map fun current =>
    let m := t.successor current chain.levels
    match m.found with
    | none => ⟨.noMore, { chain with levels := m.levels }, none, none⟩
    | some q => ⟨if m.newOrigin then .newOrigin else .success,
        { chain with end_ := some q, levels := m.levels }, some (t.nameAt q),
        if m.newOrigin then some (t.chainName m.levels) else none⟩

def descend (p : Pos) (levels : List Pos) : Pos × List Pos :=
  match t.link .down p with
  | none => (p, levels)
  | some q => moveToLast (t.sub q) q (p :: levels)

def predecessor (current : Pos) (levels : List Pos) : Movement :=
  let (current, found) := match t.link .left current with
    | some q => (rightmost (t.sub q) q, some (rightmost (t.sub q) q))
    | none => t.climb .right current
  match found, levels with
  | some p, _ =>
    let (q, levels) := t.descend p levels
    ⟨current, some q, levels, (t.link .down p).isSome⟩
  | none, level :: levels =>
    ⟨current, some level, levels, levels ≠ [] || 1 < (t.nameAt level).length⟩
  | none, [] => ⟨current, none, [], false⟩

/-- `dns_rbtnodechain_prev`, with an `origin` or without one; `none` is a failed `REQUIRE` or
`INSIST`. -/
def prev [DecidableEq α] (root : α) (t : Levels α δ) (withOrigin : Bool) (chain : Chain) :
    Option (Moved α) :=
  chain.end_.bind fun current =>
    let m := t.predecessor current chain.levels
    match m.found with
    | none => some ⟨.noMore, chain, none, none⟩
    | some q =>
      let chain := { chain with end_ := some q, levels := m.levels }
      (t.current root chain).map fun (_, _, name, origin) =>
        if withOrigin && m.newOrigin then ⟨.newOrigin, chain, some name, some origin⟩
        else ⟨.success, chain, some name, none⟩

def arrive [DecidableEq α] (root : α) (t : Levels α δ) (chain : Chain) : Option (Moved α) :=
  (t.current root chain).map fun (result, _, name, origin) =>
    ⟨if result = .success then .newOrigin else result, chain, some name, some origin⟩

def first [DecidableEq α] (root : α) (t : Levels α δ) : Option (Moved α) :=
  t.arrive root { Chain.reset with end_ := if t.isNil then none else some [] }

/-- `dns_rbtnodechain_last`; `none` is a failed `INSIST`, or a read of the root of an empty tree. -/
def last [DecidableEq α] (root : α) (t : Levels α δ) : Option (Moved α) := if t.isNil then none
  else
    let (q, levels) := moveToLast t [] []
    t.arrive root { Chain.reset with end_ := some q, levels := levels }

end Levels

structure Entry (α : Type*) where
  pos : Pos
  levels : List Pos
  name : List α

namespace Levels

/-- The nodes of the tree at `p` in order: those to the left, the node, those below it and those to
the right. -/
def visit : Levels α δ → Pos → List Pos → List α → List (Entry α)
  | nil, _, _, _ => []
  | node l n _ dn r, p, levels, pre =>
    visit l (.left :: p) levels pre ++
      ⟨p, levels, pre ++ n⟩ :: (visit dn (.down :: p) (p :: levels) (pre ++ n) ++
        visit r (.right :: p) levels pre)

variable {t l r dn : Levels α δ} {n : List α} {d : Option δ} {p : Pos} {s : Step}

@[simp] lemma isNil_nil : (nil : Levels α δ).isNil := rfl

@[simp] lemma isNil_node : (node l n d dn r).isNil = false := rfl

lemma isNil_iff : t.isNil ↔ t = nil := by cases t <;> simp [isNil]

lemma sub_cons (hp : t.sub p = node l n d dn r) :
    t.sub (.left :: p) = l ∧ t.sub (.right :: p) = r ∧ t.sub (.down :: p) = dn := by
  simp [sub, hp, child]

lemma link_eq (t : Levels α δ) (s : Step) (p : Pos) :
    t.link s p = if (t.sub (s :: p)).isNil then none else some (s :: p) := rfl

lemma visit_eq_nil {levels : List Pos} {pre : List α} : t.visit p levels pre = [] ↔ t = nil := by
  cases t <;> simp [visit]

lemma climb_same (hs : s ≠ .down) (h : (t.sub (s :: p)).isNil = false) :
    t.climb s (s :: p) = (p, some p) := by
  simp [climb, Pos.isRoot, hs, link, h]

lemma climb_other {x : Step} (hx : x ≠ .down) (hs : s ≠ x) : t.climb s (x :: p) = t.climb s p := by
  have hne : t.link s p ≠ some (x :: p) := by
    rw [link]
    split_ifs <;> simp [hs]
  simp [climb, Pos.isRoot, hx, hne]

lemma climb_down (s : Step) (p : Pos) : t.climb s (.down :: p) = (.down :: p, none) := by
  simp [climb, Pos.isRoot]

/-- The successor of the last node of the tree at `p`. -/
def upward (t : Levels α δ) (p : Pos) (levels : List Pos) : Movement :=
  t.goRight (t.ascend levels p)

variable {levels : List Pos}

lemma ascend_climb_some {q : Pos} (h : t.climb .left p = (q, some q)) :
    t.ascend levels p = ⟨q, some q, levels, false⟩ := by
  cases levels <;> simp [ascend, h]

lemma upward_left (h : (t.sub (.left :: p)).isNil = false) :
    t.upward (.left :: p) levels = ⟨p, some p, levels, false⟩ := by
  rw [upward, ascend_climb_some (climb_same (by simp) h), goRight]

lemma upward_right : t.upward (.right :: p) levels = t.upward p levels := by
  rw [upward, upward]
  congr 1
  cases levels <;> simp only [ascend, climb_other (show Step.right ≠ .down by simp)
    (show Step.left ≠ .right by simp)]

def rightward (t : Levels α δ) (p : Pos) (levels : List Pos) : Option Pos × List Pos :=
  if (t.sub (.right :: p)).isNil then (t.upward p levels).dest
  else (some (leftmost (t.sub (.right :: p)) (.right :: p)), levels)

lemma upward_down : (t.upward (.down :: p) (p :: levels)).dest = t.rightward p levels := by
  rw [upward, ascend, climb_down, rightward, link_eq]
  by_cases h : (t.sub (.right :: p)).isNil
  · simp only [h, if_true, Option.isSome_none, false_eq_true, if_false]
    rw [upward, goRight, goRight]
    split <;> simp_all [Movement.dest]
  · simp [h, goRight, link, Movement.dest]

lemma successor_dest (t : Levels α δ) (p : Pos) (levels : List Pos) :
    (t.successor p levels).dest = if (t.sub (.down :: p)).isNil then t.rightward p levels
      else (some (leftmost (t.sub (.down :: p)) (.down :: p)), p :: levels) := by
  rw [successor, link_eq, rightward, link_eq]
  by_cases hdown : (t.sub (.down :: p)).isNil
  · by_cases hright : (t.sub (.right :: p)).isNil
    · simp [hdown, hright, upward]
    · simp [hdown, hright, goRight, link, Movement.dest]
  · simp [hdown, goRight, Movement.dest]

end Levels

def start (x : Option Pos × List Pos) : List (Entry α) → Option Pos × List Pos
  | [] => x
  | e :: _ => (some e.pos, e.levels)

def finish (y : Option Pos × List Pos) : List (Entry α) → Option Pos × List Pos
  | [] => y
  | e :: w => finish (some e.pos, e.levels) w

def Leads (move : Pos → List Pos → Option Pos × List Pos) (x : Option Pos × List Pos) :
    List (Entry α) → Prop
  | [] => True
  | e :: w => move e.pos e.levels = start x w ∧ Leads move x w

/-- A move leads back from each place of a walk to the one before, and from the first one to `y`. -/
def Trails (move : Pos → List Pos → Option Pos × List Pos) (y : Option Pos × List Pos) :
    List (Entry α) → Prop
  | [] => True
  | e :: w => move e.pos e.levels = y ∧ Trails move (some e.pos, e.levels) w

section
variable {move : Pos → List Pos → Option Pos × List Pos} {x y : Option Pos × List Pos}
  {w w' : List (Entry α)}

lemma start_append (x : Option Pos × List Pos) (w w' : List (Entry α)) :
    start x (w ++ w') = start (start x w') w := by
  cases w <;> rfl

lemma finish_append (y : Option Pos × List Pos) (w w' : List (Entry α)) :
    finish y (w ++ w') = finish (finish y w) w' := by
  induction w generalizing y with
  | nil => rfl
  | cons e w ih => exact ih _

lemma Leads.append (h : Leads move (start x w') w) (h' : Leads move x w') :
    Leads move x (w ++ w') := by
  induction w with
  | nil => exact h'
  | cons e w ih => exact ⟨h.1.trans (start_append x w w').symm, ih h.2⟩

lemma Trails.append (h : Trails move y w) (h' : Trails move (finish y w) w') :
    Trails move y (w ++ w') := by
  induction w generalizing y with
  | nil => exact h'
  | cons e w ih => exact ⟨h.1, ih h.2 h'⟩

lemma Leads.of_append (h : Leads move x (w ++ w')) : Leads move (start x w') w ∧ Leads move x w' := by
  induction w with
  | nil => exact ⟨trivial, h⟩
  | cons e w ih => exact ⟨⟨h.1.trans (start_append x w w'), (ih h.2).1⟩, (ih h.2).2⟩

lemma Trails.of_append (h : Trails move y (w ++ w')) :
    Trails move y w ∧ Trails move (finish y w) w' := by
  induction w generalizing y with
  | nil => exact ⟨trivial, h⟩
  | cons e w ih => exact ⟨⟨h.1, (ih h.2).1⟩, (ih h.2).2⟩

end

namespace Levels

variable {t l r dn : Levels α δ} {n : List α} {d : Option δ} {p : Pos} {levels : List Pos}
  {pre : List α}

lemma start_visit (x : Option Pos × List Pos) (t : Levels α δ) (p : Pos) (levels : List Pos)
    (pre : List α) :
    start x (t.visit p levels pre) = if t.isNil then x else (some (leftmost t p), levels) := by
  induction t generalizing x p with
  | nil => rfl
  | node l n d dn r ihl _ _ =>
    rw [visit, start_append, ihl, leftmost]
    simp only [isNil_node, false_eq_true, if_false, start]
    split_ifs <;> rfl

lemma finish_visit (y : Option Pos × List Pos) (t : Levels α δ) (p : Pos) (levels : List Pos)
    (pre : List α) : finish y (t.visit p levels pre) = if t.isNil then y
      else (some (moveToLast t p levels).1, (moveToLast t p levels).2) := by
  induction t generalizing y p levels pre with
  | nil => rfl
  | node l n d dn r _ ihdn ihr =>
    rw [visit, finish_append, finish, finish_append, ihdn, ihr, moveToLast]
    simp only [isNil_node, false_eq_true, if_false]
    split_ifs <;> rfl

variable {u : Levels α δ}

lemma visit_leads (hp : t.sub p = u) :
    Leads (fun p levels => (t.successor p levels).dest) (t.upward p levels).dest
      (u.visit p levels pre) := by
  induction u generalizing p levels pre with
  | nil => trivial
  | node l n d dn r ihl ihdn ihr =>
    obtain ⟨hl, hr, hdn⟩ := sub_cons hp
    have hright : start (t.upward p levels).dest (r.visit (.right :: p) levels pre) =
        t.rightward p levels := by
      rw [start_visit, rightward, hr]
    refine Leads.append ?_ ⟨?_, Leads.append ?_ ?_⟩
    · -- The last node to the left leads to the node.
      cases hnil : l.isNil with
      | true =>
        rw [isNil_iff.mp hnil]
        trivial
      | false =>
        have : Leads _ (t.upward (.left :: p) levels).dest (l.visit (.left :: p) levels pre) := ihl hl
        rwa [upward_left (by rw [hl, hnil])] at this
    · change (t.successor p levels).dest = _
      rw [start_append, hright, start_visit, successor_dest, hdn]
    · rw [hright, ← upward_down]
      exact ihdn hdn
    · rw [← upward_right]
      exact ihr hr

def backward (t : Levels α δ) (p : Pos) (levels : List Pos) : Option Pos × List Pos :=
  match t.climb .right p, levels with
  | (_, some q), _ => (some (t.descend q levels).1, (t.descend q levels).2)
  | (_, none), level :: levels => (some level, levels)
  | (_, none), [] => (none, [])

lemma descend_rightmost (hp : t.sub p = u) (hnil : u.isNil = false) :
    t.descend (rightmost u p) levels = moveToLast u p levels := by
  induction u generalizing p with
  | nil => simp at hnil
  | node l n d dn r _ _ ihr =>
    obtain ⟨-, hr, hdn⟩ := sub_cons hp
    rw [rightmost, moveToLast]
    cases hrnil : r.isNil with
    | true =>
      rw [if_pos rfl, if_pos rfl, descend, link, hdn]
      cases hdnil : dn.isNil with
      | true => simp
      | false => simp [hdn]
    | false =>
      rw [if_neg (by simp), if_neg (by simp)]
      exact ihr hr hrnil

lemma predecessor_dest (t : Levels α δ) (p : Pos) (levels : List Pos) :
    (t.predecessor p levels).dest = if (t.sub (.left :: p)).isNil then t.backward p levels
      else (some (moveToLast (t.sub (.left :: p)) (.left :: p) levels).1,
        (moveToLast (t.sub (.left :: p)) (.left :: p) levels).2) := by
  unfold predecessor backward
  rw [link_eq]
  cases hnil : (t.sub (.left :: p)).isNil with
  | true =>
    simp only [if_true]
    generalize t.climb .right p = c
    obtain ⟨q, _ | q'⟩ := c
    · cases levels <;> rfl
    · rfl
  | false =>
    simp only [false_eq_true, if_false]
    rw [descend_rightmost rfl hnil]
    rfl

lemma backward_left : t.backward (.left :: p) levels = t.backward p levels := by
  unfold backward
  rw [climb_other (by simp) (by simp)]

lemma backward_down : t.backward (.down :: p) (p :: levels) = (some p, levels) := by
  unfold backward
  rw [climb_down]

lemma backward_right (h : (t.sub (.right :: p)).isNil = false) : t.backward (.right :: p) levels =
      (some (t.descend p levels).1, (t.descend p levels).2) := by
  unfold backward
  rw [climb_same (by simp) h]

lemma visit_trails (hp : t.sub p = u) :
    Trails (fun p levels => (t.predecessor p levels).dest) (t.backward p levels)
      (u.visit p levels pre) := by
  induction u generalizing p levels pre with
  | nil => trivial
  | node l n d dn r ihl ihdn ihr =>
    obtain ⟨hl, hr, hdn⟩ := sub_cons hp
    refine Trails.append ?_ ⟨?_, Trails.append ?_ ?_⟩
    · rw [← backward_left]
      exact ihl hl
    · change (t.predecessor p levels).dest = _
      rw [finish_visit, predecessor_dest, hl]
    · rw [← backward_down]
      exact ihdn hdn
    · -- The first node to the right comes after the last one below the node.
      cases hnil : r.isNil with
      | true =>
        rw [isNil_iff.mp hnil]
        trivial
      | false =>
        have : Trails _ (t.backward (.right :: p) levels) (r.visit (.right :: p) levels pre) := ihr hr
        rw [backward_right (by rw [hr, hnil]), descend, link_eq, hdn] at this
        rw [finish_visit]
        cases hdnil : dn.isNil with
        | true => simpa [hdnil] using this
        | false => simpa [hdnil, hdn] using this

end Levels

end LbBind.Rbt

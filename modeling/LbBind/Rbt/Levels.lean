import LbBind.Name.Compare

/-! The tree of trees (`lib/dns/rbt.c`): `dns_rbt_addnode`, `dns_rbt_findnode` and
`dns_rbt_deletenode`. A level is a binary search tree of relative names without a trailing label in
common, and each node may have a level below it. A name is the list of its labels, the root first.

How a level is balanced is left open; its nodes and their order stay the same, as they do under
rotations. A name has at most 128 labels, so the limit on the number of levels is never reached. -/

namespace LbBind.Rbt

open Lib

/-- The tree below a `dns_rbtnode_t`: its children on the level, and the level below it. -/
inductive Levels (α δ : Type*)
  | nil
  | node (left : Levels α δ) (name : List α) (data : Option δ) (down right : Levels α δ)
  deriving DecidableEq

structure Node (α δ : Type*) where
  name : List α
  data : Option δ
  down : Levels α δ

variable {α δ : Type*}

def Levels.nodes : Levels α δ → List (Node α δ)
  | nil => []
  | node l n d dn r => l.nodes ++ ⟨n, d, dn⟩ :: r.nodes

structure Balancer (α δ : Type*) where
  run : Levels α δ → Levels α δ
  nodes_run : ∀ t, (run t).nodes = t.nodes

namespace Levels

def rotateLeft : Levels α δ → Levels α δ
  | node l n d dn (node rl rn rd rdn rr) => node (node l n d dn rl) rn rd rdn rr
  | t => t

def rotateRight : Levels α δ → Levels α δ
  | node (node ll ln ld ldn lr) n d dn r => node ll ln ld ldn (node lr n d dn r)
  | t => t

/-- A rotation at the node that a path of left (`true`) and right links leads to. -/
def rotateAt (rotate : Levels α δ → Levels α δ) : List Bool → Levels α δ → Levels α δ
  | true :: path, node l n d dn r => node (rotateAt rotate path l) n d dn r
  | false :: path, node l n d dn r => node l n d dn (rotateAt rotate path r)
  | _, t => rotate t

lemma nodes_rotateAt (left : Bool) (path : List Bool) (t : Levels α δ) :
    (rotateAt (if left then rotateLeft else rotateRight) path t).nodes = t.nodes := by
  fun_induction rotateAt with
  | case1 path l n d dn r ih => rw [nodes, ih, nodes]
  | case2 path l n d dn r ih => rw [nodes, ih, nodes]
  | case3 path t =>
    cases left
    · simp only [Bool.false_eq_true, if_false]
      fun_cases rotateRight t <;> simp [nodes]
    · simp only [if_true]
      fun_cases rotateLeft t <;> simp [nodes]

end Levels

/-- The rotations by which `dns_rbt_addonlevel` and `dns_rbt_deletefromlevel` balance a level; the
colors of the nodes, which choose them, are left open. -/
def Balancer.rotations (turns : List (Bool × List Bool)) : Balancer α δ where
  run t := turns.foldl
    (fun t turn => t.rotateAt (if turn.1 then .rotateLeft else .rotateRight) turn.2) t
  nodes_run t := by
    induction turns generalizing t with
    | nil => rfl
    | cons turn turns ih => exact (ih _).trans (Levels.nodes_rotateAt ..)

def Balancer.none : Balancer α δ := .rotations []

variable [LinearOrder α]

/-- The relation of two names, as `dns_name_fullcompare` finds it. -/
def reln (a b : List α) : NameReln := if a = b then .equal
  else if b <+: a then .subdomain
  else if a <+: b then .contains
  else if commonPrefix a b = [] then .none
  else .commonancestor

inductive Added
  | found
  | onLevel
  | below
  deriving DecidableEq

namespace Levels

variable (bal : Balancer α δ)

def single (name : List α) (data : Option δ) (down : Levels α δ) : Levels α δ :=
  node nil name data down nil

def splitLevel (name n rest : List α) (d : Option δ) (dn : Levels α δ) (tail : List α) :
    Levels α δ :=
  if name < n then node (single tail none nil) rest d dn nil
  else node nil rest d dn (single tail none nil)

def addOnLevel : Levels α δ → List α → Added × Levels α δ
  | nil, name => (.onLevel, single name none nil)
  | node l n d dn r, name =>
    match reln name n with
    | .equal => (.found, node l n d dn r)
    | .none =>
      if name < n then
        let (added, l') := addOnLevel l name
        (added, node l' n d dn r)
      else
        let (added, r') := addOnLevel r name
        (added, node l n d dn r')
    | .subdomain =>
      let (added, dn') := addOnLevel dn (name.drop n.length)
      if added = .onLevel then (.below, node l n d (bal.run dn') r) else (added, node l n d dn' r)
    | .contains | .commonancestor =>
      let common := commonPrefix name n
      let rest := n.drop common.length
      if common.length = name.length then (.below, node l common none (single rest d dn) r)
      else (.below, node l common none
        (bal.run (splitLevel name n rest d dn (name.drop common.length))) r)

variable (t : Levels α δ) (name : List α)

def addnode : Result × Levels α δ :=
  let (added, t') := addOnLevel bal t name
  (if added = .found then .exists else .success, if added = .onLevel then bal.run t' else t')

def hashSearch (search : List α) : Option (Node α δ) :=
  (List.range search.length).findSome? fun i =>
    t.nodes.find? fun x => x.name = search.take (i + 1)

def levelSearch (search : List α) : Option (Node α δ) := match t with
  | nil => none
  | node _ n d dn _ =>
    match reln search n with
    | .equal | .subdomain => some ⟨n, d, dn⟩
    | .none => hashSearch t search
    | .contains | .commonancestor => none

/-- The search of a level without a hash table. -/
def binarySearch : Levels α δ → List α → Option (Node α δ)
  | nil, _ => none
  | node l n d dn r, search =>
    match reln search n with
    | .equal | .subdomain => some ⟨n, d, dn⟩
    | .none => if search < n then binarySearch l search else binarySearch r search
    | .contains | .commonancestor => none

/-- The loop of `dns_rbt_findnode` with the options `DNS_RBTFIND_EMPTYDATA` and
`DNS_RBTFIND_NOEXACT`, from the level below `pre` on; `level` searches one level. -/
def findOptions (level : List α → Levels α δ → List α → Option (Node α δ))
    (emptydata noexact : Bool) : ℕ → Levels α δ → (pre search : List α) →
      Option (List α × Option δ) → Result × Option (List α × Option δ)
  | 0, _, _, _, best => (if best.isSome then .partialMatch else .notFound, best)
  | fuel + 1, t, pre, search, best =>
    match level pre t search with
    | none => (if best.isSome then .partialMatch else .notFound, best)
    | some x =>
      if x.name = search then
        if !noexact && (x.data.isSome || emptydata) then (.success, some (pre ++ search, x.data))
        else (if best.isSome then .partialMatch else .notFound, best)
      else
        findOptions level emptydata noexact fuel x.down (pre ++ x.name)
          (search.drop x.name.length)
          (if x.data.isSome || emptydata then some (pre ++ x.name, x.data) else best)

/-- `dns_rbt_findnode` without options, a chain or a callback: the result, and the node with its
data. -/
def findnode : Result × Option (List α × δ) :=
  let found := findOptions (fun _ => levelSearch) false false name.length t [] name none
  (found.1, found.2.bind fun x => x.2.map fun d => (x.1, d))

def takeFirst : Levels α δ → Node α δ → Levels α δ → Node α δ × Levels α δ
  | nil, x, r => (x, r)
  | node ll n d dn lr, x, r =>
    let (first, l') := takeFirst ll ⟨n, d, dn⟩ lr
    (first, node l' x.name x.data x.down r)

/-- What is left of a level when the node between two trees is taken out. If both have nodes the
next node takes its place. -/
def glue : Levels α δ → Levels α δ → Levels α δ
  | nil, r => r
  | l, nil => l
  | l, node rl n d dn rr =>
    let (next, r') := takeFirst rl ⟨n, d, dn⟩ rr
    node l next.name next.data next.down r'

/-- The node with a full name gets other data, or is taken out of its level. The first part of the
result says whether the level has to be balanced. -/
def alter (edit : Levels α δ → Option (Option δ)) : Levels α δ → List α → Bool × Levels α δ
  | nil, _ => (false, nil)
  | node l n d dn r, name =>
    match reln name n with
    | .equal =>
      match edit dn with
      | some d' => (false, node l n d' dn r)
      | none => (true, glue l r)
    | .none =>
      if name < n then
        let (b, l') := alter edit l name
        (b, node l' n d dn r)
      else
        let (b, r') := alter edit r name
        (b, node l n d dn r')
    | .subdomain =>
      let (b, dn') := alter edit dn (name.drop n.length)
      (false, node l n d (if b then bal.run dn' else dn') r)
    | .contains | .commonancestor => (false, node l n d dn r)

def setData (d : Option δ) : Levels α δ :=
  (alter bal (fun _ => some d) t name).2

/-- A node with a level below it only loses its data. -/
def emptied : Levels α δ → Option (Option δ)
  | nil => none
  | node .. => some none

/-- `dns_rbt_deletenode` without recursion. -/
def deletenode : Levels α δ :=
  let (b, t') := alter bal emptied t name
  if b then bal.run t' else t'

end Levels

end LbBind.Rbt

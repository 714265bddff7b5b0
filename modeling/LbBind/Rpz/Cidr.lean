import Mathlib.Data.Fintype.Pi
import LbBind.Rpz.Key

/-! The CIDR tree of a response policy zone: a path-compressed binary tree of prefixes. A node has
triggers for its prefix or is a fork, and its flags say which kinds of triggers there are at and
below it. `search` remembers the nodes it passed, which stand for the parent pointers of the source.
The words of the keys that are read are kept with every result. -/

namespace LbBind.Rpz

inductive Flag
  | ip
  | ipData
  | nsipv4
  | nsipv6
  | nsipData
deriving DecidableEq

inductive Kind
  | ip
  | nsip
deriving DecidableEq

def dataFlags : Finset Flag := {.ipData, .nsipData}

structure Node where
  ip : Key
  bits : ℕ
  flags : Finset Flag
deriving DecidableEq

inductive Tree
  | nil
  | node (n : Node) (child : Bool → Tree)

/-- The node above, left towards `child[num]`. -/
structure Frame where
  node : Node
  num : Bool
  sibling : Tree

structure Behind where
  target : Word
  node : Node → Word

inductive Result
  | success
  | notfound
  | partialmatch
  | exists
  | nomemory
deriving DecidableEq

structure Place where
  node : Node
  child : Bool → Tree
  path : List Frame

structure Outcome where
  result : Result
  found : Option Place
  root : Tree
  words : List ℕ

def children (num : Bool) (x y : Tree) : Bool → Tree := fun b => if b = num then x else y

/-- The node above with `t` as the child that was left. -/
def Frame.plug (f : Frame) (t : Tree) : Tree := .node f.node (children f.num t f.sibling)

variable (n : Node) (child : Bool → Tree)

def frame (num : Bool) : Frame := ⟨n, num, child (!num)⟩

def plug : List Frame → Tree → Tree
  | [], t => t
  | f :: path, t => plug path (f.plug t)

def Tree.isNil : Tree → Bool
  | .nil => true
  | .node _ _ => false

def Tree.flags : Tree → Finset Flag
  | .nil => ∅
  | .node n _ => n.flags

def Node.mark (flags : Finset Flag) : Node := { n with flags := n.flags ∪ flags }

def Node.clear (flags : Finset Flag) : Node := { n with flags := n.flags \ flags }

def getFlags (ip : Key) (bits : ℕ) : Kind → Finset Flag
  | .nsip =>
    if 96 ≤ bits ∧ ip 0 = 0 ∧ ip 1 = 0 ∧ ip 2 = 0xffff then {.nsipData, .nsipv4}
    else {.nsipData, .nsipv6}
  | .ip => {.ip, .ipData}

def setNodeFlags (kind : Kind) (n : Node) (path : List Frame) : Node × List Frame :=
  let flags := getFlags n.ip n.bits kind
  (n.mark flags, path.map fun f => { f with node := f.node.mark (flags \ dataFlags) })

def newNode (ip : Key) (bits : ℕ) (flags : Finset Flag) : Node :=
  { ip := maskKey ip bits, bits := bits, flags := flags \ dataFlags }

/-- `search` of a target, from a node with the nodes above it. `room` is the number of nodes
there is memory for. -/
def search (behind : Behind) (ip : Key) (bits : ℕ) (kind : Kind) (create : Bool) (room : ℕ) :
    Tree → List Frame → Result → Option Place → List ℕ → Outcome
  | .nil, path, result, found, words =>
    if !create then ⟨result, found, plug path .nil, words⟩
    else if room < 1 then ⟨.nomemory, found, plug path .nil, words⟩
    else
      let p := setNodeFlags kind (newNode ip bits ∅) path
      ⟨.success, none, plug p.2 (.node p.1 fun _ => .nil), words⟩
  | .node cur child, path, result, found, words =>
    let flags := getFlags ip bits kind
    let dataFlag := flags ∩ dataFlags
    if cur.flags ∩ flags = ∅ ∧ !create then ⟨result, found, plug path (.node cur child), words⟩
    else
      let diff := diffKeys behind.target ip bits (behind.node cur) cur.ip cur.bits
      let dbit := diff.1
      let words := words ++ diff.2
      if dbit = bits then
        if bits = cur.bits then
          if cur.flags ∩ dataFlag ≠ ∅ then
            if create then ⟨.exists, found, plug path (.node cur child), words⟩
            else ⟨.success, some ⟨cur, child, path⟩, plug path (.node cur child), words⟩
          else if create then
            let p := setNodeFlags kind cur path
            ⟨.success, some ⟨p.1, child, p.2⟩, plug p.2 (.node p.1 child), words⟩
          else ⟨result, found, plug path (.node cur child), words⟩
        else if !create then ⟨result, found, plug path (.node cur child), words⟩
        else if room < 1 then ⟨.nomemory, found, plug path (.node cur child), words⟩
        else
          -- the target becomes the parent of the current node; the bit after the one that
          -- tells its children apart decides which child the current node is
          let childNum := ipBit (behind.node cur) cur.ip (bits + 1)
          let p := setNodeFlags kind (newNode ip bits cur.flags) path
          let child' := children childNum (.node cur child) .nil
          ⟨.success, some ⟨p.1, child', p.2⟩, plug p.2 (.node p.1 child'),
            words ++ [(bits + 1) / 32]⟩
      else if dbit = cur.bits then
        let curNum := ipBit behind.target ip dbit
        let hit := cur.flags ∩ dataFlag ≠ ∅
        search behind ip bits kind create room (child curNum)
          (frame cur child curNum :: path) (if hit then .partialmatch else result)
          (if hit then some ⟨cur, child, path⟩ else found) (words ++ [dbit / 32])
      else if !create then ⟨result, found, plug path (.node cur child), words⟩
      else if room < 2 then ⟨.nomemory, found, plug path (.node cur child), words⟩
      else
        let childNum := ipBit behind.target ip dbit
        let p := setNodeFlags kind (newNode ip bits ∅)
          (⟨newNode ip dbit cur.flags, childNum, .node cur child⟩ :: path)
        ⟨.success, some ⟨p.1, fun _ => .nil, p.2⟩, plug p.2 (.node p.1 fun _ => .nil),
          words ++ [dbit / 32]⟩

variable (behind : Behind) (root : Tree) (ip : Key) (bits : ℕ) (kind : Kind)

/-- `dns_rpz_cidr_addip` of the key and the prefix length of a name. -/
def addip (room : ℕ) : Outcome :=
  search behind ip bits kind true room root [] .notfound none []

def keepsFlags (flags dataFlag : Finset Flag) (n : Node) (child : Bool → Tree) : Bool :=
  n.flags ∩ dataFlag ≠ ∅ ∨ (child false).flags ∩ flags ≠ ∅ ∨ (child true).flags ∩ flags ≠ ∅

def clearPath (flags dataFlag : Finset Flag) : Tree → List Frame → List Frame
  | _, [] => []
  | t, f :: path =>
    if keepsFlags flags dataFlag f.node (children f.num t f.sibling) then f :: path
    else
      let f' := { f with node := f.node.clear flags }
      f' :: clearPath flags dataFlag (f'.plug t) path

/-- The first loop of `dns_rpz_cidr_deleteip`, which takes the flags from a node and from the
nodes above it. -/
def clearFlags (flags dataFlag : Finset Flag) (p : Place) : Place :=
  if keepsFlags flags dataFlag p.node p.child then p
  else
    let n := p.node.clear flags
    ⟨n, p.child, clearPath flags dataFlag (.node n p.child) p.path⟩

def useless : Bool :=
  ((child false).isNil || (child true).isNil) && n.flags ∩ dataFlags = ∅

def onlyChild : Tree :=
  if (child false).isNil then child true else child false

/-- The second loop of `dns_rpz_cidr_deleteip`, which replaces useless nodes by their child. -/
def prune (n : Node) (child : Bool → Tree) : List Frame → Tree
  | [] => if useless n child then onlyChild child else .node n child
  | f :: path =>
    if useless n child then prune f.node (children f.num (onlyChild child) f.sibling) path
    else plug path (f.plug (.node n child))

/-- `dns_rpz_cidr_deleteip` of the key and the prefix length of a name: the tree and the words
that were read. -/
def deleteip : Tree × List ℕ :=
  let s := search behind ip bits kind false 0 root [] .notfound none []
  match s.result, s.found with
  | .success, some tgt =>
    let flags := getFlags ip bits kind
    let dataFlag := flags ∩ dataFlags
    let p := clearFlags flags dataFlag { tgt with node := tgt.node.clear dataFlag }
    (prune p.node p.child p.path, s.words)
  | _, _ => (s.root, s.words)

inductive Netaddr
  | inet (addr : Word)
  | inet6 (words : Fin 4 → Word)
  | other

def Netaddr.key : Netaddr → Option Key
  | .inet addr => some fun i => if i = 3 then addr else if i = 2 then 0xffff else 0
  | .inet6 words => some words
  | .other => none

/-- The search of `dns_rpz_cidr_find`. -/
def lookup (key : Key) : Outcome :=
  search behind key 128 kind false 0 root [] .notfound none []

/-- `dns_rpz_cidr_find`: the prefix found. -/
def find (netaddr : Netaddr) : Option (Key × ℕ) :=
  match netaddr.key with
  | none => none
  | some key =>
    let s := lookup behind root kind key
    if s.result = .success ∨ s.result = .partialmatch then
      s.found.map fun p => (p.node.ip, p.node.bits)
    else none

end LbBind.Rpz

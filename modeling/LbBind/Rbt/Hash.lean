import LbBind.Lib.Buckets
import LbBind.Rbt.Walk

/-! The hash table of a tree (`lib/dns/rbt.c`). A bucket is the chain of its nodes, each with the
hash of its full name. The full name stands for the node: it stays the same when the name of the
node is split, and no other node has it. -/

namespace LbBind.Rbt

open Lib List

variable {α δ : Type*}

namespace Levels

/-- The full names of the nodes below `pre`, in the order in which `dns_rbt_deletetree` takes them
out. -/
def fulls (pre : List α) : Levels α δ → List (List α)
  | nil => []
  | node l n _ dn r => fulls pre l ++ fulls pre r ++ fulls (pre ++ n) dn ++ [pre ++ n]

variable {t u : Levels α δ} {pre name : List α}

lemma fulls_perm : (fulls pre t).Perm
    (t.nodes.flatMap fun x => (pre ++ x.name) :: fulls (pre ++ x.name) x.down) := by
  classical
  induction t with
  | nil => exact .refl _
  | node l n d dn r ihl _ ihr =>
    rw [fulls, nodes, flatMap_append, flatMap_cons]
    grind

lemma fulls_congr (pre : List α) (h : u.nodes = t.nodes) : (fulls pre u).Perm (fulls pre t) := by
  refine fulls_perm.trans ?_
  rw [h]
  exact fulls_perm.symm

lemma fulls_run (bal : Balancer α δ) (p : Prop) [Decidable p] :
    (fulls pre (if p then bal.run t else t)).Perm (fulls pre t) := by
  split_ifs
  · exact fulls_congr pre (bal.nodes_run t)
  · exact .refl _

lemma mem_fulls {k : List α} : k ∈ fulls pre t ↔
    ∃ x ∈ t.nodes, k = pre ++ x.name ∨ k ∈ fulls (pre ++ x.name) x.down := by
  rw [fulls_perm.mem_iff]
  simp only [mem_flatMap, mem_cons]

variable [LinearOrder α]

/-- The full names of the nodes that `dns_rbt_addnode` creates, in their order. -/
def created (pre : List α) : Levels α δ → List α → List (List α)
  | nil, name => [pre ++ name]
  | node l n _ dn r, name =>
    match reln name n with
    | .equal => []
    | .none => if name < n then created pre l name else created pre r name
    | .subdomain => created (pre ++ n) dn (name.drop n.length)
    | .contains | .commonancestor =>
      let common := commonPrefix name n
      if common.length = name.length then [pre ++ common] else [pre ++ common, pre ++ name]

/-- The full names of the nodes that an edit takes out, in their order. -/
def removed (edit : Levels α δ → Option (Option δ)) (pre : List α) :
    Levels α δ → List α → List (List α)
  | nil, _ => []
  | node l n _ dn r, name =>
    match reln name n with
    | .equal => if (edit dn).isSome then [] else fulls (pre ++ n) dn ++ [pre ++ n]
    | .none => if name < n then removed edit pre l name else removed edit pre r name
    | .subdomain => removed edit (pre ++ n) dn (name.drop n.length)
    | .contains | .commonancestor => []

lemma removed_some (data : Option δ) : removed (fun _ => some data) pre t name = [] := by
  induction t generalizing pre name with
  | nil => rfl
  | node l n d dn r ihl ihdn ihr =>
    rw [removed]
    cases reln name n <;> simp [ihl, ihdn, ihr]

lemma fulls_splitLevel (pre name n rest tail : List α) (d : Option δ) (dn : Levels α δ) :
    (fulls pre (splitLevel name n rest d dn tail)).Perm
      ((pre ++ tail) :: (fulls (pre ++ rest) dn ++ [pre ++ rest])) := by
  rw [splitLevel]
  split_ifs <;> simp only [fulls, single] <;> grind

variable (bal : Balancer α δ)

lemma addOnLevel_fulls :
    (fulls pre (addOnLevel bal t name).2).Perm (created pre t name ++ fulls pre t) := by
  induction t generalizing pre name with
  | nil => simp [addOnLevel, created, fulls, single]
  | node l n d dn r ihl ihdn ihr =>
    obtain ⟨tail, rest, hname, hn, -⟩ := exists_commonPrefix name n
    rw [addOnLevel, created]
    cases hrel : reln name n with
    | equal => exact .refl _
    | none =>
      have := @ihl pre name
      have := @ihr pre name
      simp only
      split_ifs <;> simp only [fulls] <;> grind
    | subdomain =>
      have hdn := @ihdn (pre ++ n) (name.drop n.length)
      have hrun := fulls_congr (pre ++ n) (bal.nodes_run (addOnLevel bal dn (name.drop n.length)).2)
      simp only
      split_ifs <;> simp only [fulls] <;> grind
    | contains | commonancestor =>
      generalize commonPrefix name n = common at hname hn ⊢
      have hdrop : n.drop common.length = rest := by rw [hn, drop_left]
      have hdrop' : name.drop common.length = tail := by rw [hname, drop_left]
      have hfull : pre ++ common ++ rest = pre ++ n := by rw [append_assoc, ← hn]
      have hfull' : pre ++ common ++ tail = pre ++ name := by rw [append_assoc, ← hname]
      have hsplit := (fulls_congr _ (bal.nodes_run _)).trans
        (fulls_splitLevel (pre ++ common) name n rest tail d dn)
      rw [hfull, hfull'] at hsplit
      simp only [hdrop, hdrop']
      split_ifs
      · simp only [fulls, single, hfull]
        grind
      · simp only [fulls]
        grind

lemma addnode_fulls :
    (fulls [] (addnode bal t name).2).Perm (created [] t name ++ fulls [] t) :=
  (fulls_run bal _).trans (addOnLevel_fulls bal)

lemma alter_fulls (edit : Levels α δ → Option (Option δ)) (pre name : List α) :
    (fulls pre t).Perm (removed edit pre t name ++ fulls pre (alter bal edit t name).2) := by
  induction t generalizing pre name with
  | nil => exact .refl _
  | node l n d dn r ihl ihdn ihr =>
    rw [alter, removed]
    cases hrel : reln name n with
    | equal =>
      cases hedit : edit dn with
      | some d' => exact .refl _
      | none =>
        have hglue : (fulls pre (glue l r)).Perm (fulls pre l ++ fulls pre r) := by
          refine fulls_perm.trans ?_
          rw [nodes_glue, flatMap_append]
          exact fulls_perm.symm.append fulls_perm.symm
        simp only [fulls]
        grind
    | none =>
      have := ihl pre name
      have := ihr pre name
      simp only
      split_ifs <;> simp only [fulls] <;> grind
    | subdomain =>
      have := ihdn (pre ++ n) (name.drop n.length)
      have hrun := fulls_congr (pre ++ n)
        (bal.nodes_run (alter bal edit dn (name.drop n.length)).2)
      simp only
      split_ifs <;> simp only [fulls] <;> grind
    | contains | commonancestor => exact .refl _

/-- The search of the hash table for a node of the level below `pre`, by `find_up`, whose name ends
the name that is searched. -/
def bucketSearch (hash : List α → ℕ) (hashtable : Buckets (List α)) (pre : List α)
    (t : Levels α δ) (search : List α) : Option (Node α δ) :=
  (range search.length).findSome? fun i =>
    let hashval := hash (pre ++ search.take (i + 1))
    (hashtable.bucket hashval).findSome? fun full =>
      if hash full = hashval then
        t.nodes.find? fun x => pre ++ x.name = full ∧ x.name = search.take (i + 1)
      else none

def tableSearch (hash : List α → ℕ) (hashtable : Buckets (List α)) (pre : List α)
    (t : Levels α δ) (search : List α) : Option (Node α δ) :=
  match t with
  | nil => none
  | node _ n d dn _ =>
    match reln search n with
    | .equal | .subdomain => some ⟨n, d, dn⟩
    | .none => bucketSearch hash hashtable pre t search
    | .contains | .commonancestor => none

variable {hash : List α → ℕ} {hashtable : Buckets (List α)} {search : List α}
  {names : List (List α)}

lemma findSome?_ite_eq {β : Type*} (k : List α) (found : Option β) :
    (names.findSome? fun full => if full = k then found else none) =
      if k ∈ names then found else none := by
  induction names with
  | nil => rfl
  | cons full names ih =>
    rw [findSome?_cons, ih]
    by_cases hk : full = k
    · cases found <;> simp [hk]
    · simp [hk, Ne.symm hk]

lemma bucketSearch_eq (h : hashtable.Keeps hash names) (hsub : fulls pre t ⊆ names) :
    bucketSearch hash hashtable pre t search = hashSearch t search := by
  refine congrArg (findSome? · _) (funext fun i => ?_)
  set key := search.take (i + 1) with hkey
  -- an entry gives the node if it is the node, and is passed over otherwise
  have hentry : ∀ full, (if hash full = hash (pre ++ key) then
      t.nodes.find? fun x => pre ++ x.name = full ∧ x.name = key else none) =
      if full = pre ++ key then t.nodes.find? fun x => x.name = key else none := by
    intro full
    by_cases heq : full = pre ++ key
    · rw [if_pos (by rw [heq]), if_pos heq]
      refine congrArg (find? · _) (funext fun x => ?_)
      by_cases hx : x.name = key <;> simp [hx, heq]
    · rw [if_neg heq]
      have hnone : (t.nodes.find? fun x => pre ++ x.name = full ∧ x.name = key) = none := by
        rw [find?_eq_none]
        rintro x - hx
        obtain ⟨hfull, hname⟩ := of_decide_eq_true hx
        exact heq (by rw [← hfull, hname])
      rw [hnone, ite_self]
  simp only [hentry, findSome?_ite_eq]
  cases hnode : t.nodes.find? fun x => x.name = key with
  | none => exact ite_self _
  | some x =>
    have hfound := find?_some hnode
    have hname : x.name = key := of_decide_eq_true hfound
    have hmem := h.mem_bucket (hsub (mem_fulls.mpr ⟨x, mem_of_find?_eq_some hnode, .inl rfl⟩))
    rw [hname] at hmem
    exact if_pos hmem

lemma tableSearch_eq (h : hashtable.Keeps hash names) (hsub : fulls pre t ⊆ names) :
    tableSearch hash hashtable pre t search = levelSearch t search := by
  cases t with
  | nil => rfl
  | node _ n =>
    rw [tableSearch, levelSearch]
    cases reln search n with
    | none => exact bucketSearch_eq h hsub
    | _ => rfl

end Levels

open Levels

/-- A `dns_rbt_t`; `hashsize` is the number of buckets. -/
structure Tree (α δ : Type*) where
  root : Levels α δ
  nodecount : ℕ
  hashtable : Buckets (List α)

def rbtHashSize : ℕ := 64

section
variable (hash : List α → ℕ)

/-- `hash_add_node`: the node comes first in its bucket. -/
def hashAddNode (hashtable : Buckets (List α)) (full : List α) : Buckets (List α) :=
  hashtable.push hash full

/-- `rehash` with the memory for a larger table: the old buckets are emptied in their order, each
from the front. -/
def rehash (hashtable : Buckets (List α)) : Buckets (List α) :=
  hashtable.flatten.foldl (hashAddNode hash) (replicate (hashtable.length * 2 + 1) [])

/-- A new node is counted, and `hash_node` puts it into the table; `memory` says whether there is
memory for a larger one. -/
def hashNode (memory : Bool) (tree : Tree α δ) (full : List α) : Tree α δ :=
  let nodecount := tree.nodecount + 1
  let hashtable := if tree.hashtable.length * 3 ≤ nodecount && memory then rehash hash tree.hashtable
    else tree.hashtable
  { tree with nodecount := nodecount, hashtable := hashAddNode hash hashtable full }

variable [LinearOrder α]

/-- `unhash_node`: there is no result if the assertion that the node is in its bucket fails. -/
def unhashNode (hashtable : Buckets (List α)) (full : List α) : Option (Buckets (List α)) :=
  hashtable.pull hash full

namespace Tree

variable (bal : Balancer α δ) (memory : List α → Bool) (tree : Tree α δ) (name : List α)

def create : Tree α δ := ⟨.nil, 0, replicate rbtHashSize []⟩

/-- `dns_rbt_addnode`, where `memory` is asked for each node that is hashed. -/
def addnode : Result × Tree α δ :=
  let (result, root) := tree.root.addnode bal name
  (result, (created [] tree.root name).foldl (fun s full => hashNode hash (memory full) s full)
    { tree with root := root })

def setData (data : Option δ) : Tree α δ := { tree with root := tree.root.setData bal name data }

def unhash (removed : List (List α)) (root : Levels α δ) : Option (Tree α δ) :=
  (removed.foldlM (unhashNode hash) tree.hashtable).map fun hashtable =>
    ⟨root, tree.nodecount - removed.length, hashtable⟩

/-- `dns_rbt_deletenode` -/
def deletenode (recurse : Bool) : Option (Tree α δ) :=
  tree.unhash hash (removed (if recurse then fun _ => none else emptied) [] tree.root name)
    (if recurse then tree.root.deletetree bal name else tree.root.deletenode bal name)

end Tree

end

variable {hash : List α → ℕ}

lemma keeps_rehash [DecidableEq α] {hashtable : Buckets (List α)} {names : List (List α)}
    (h : hashtable.Keeps hash names) : (rehash hash hashtable).Keeps hash names := by
  have hempty : Buckets.Keeps hash (replicate (hashtable.length * 2 + 1) []) [] :=
    Buckets.keeps_replicate (Nat.succ_pos _)
  have hkeeps := hempty.foldl_push hashtable.flatten
  rw [append_nil] at hkeeps
  exact hkeeps.congr h.perm

namespace Tree

variable [LinearOrder α] {tree tree' : Tree α δ}

/-- The table has every node of the tree once. -/
def Kept (hash : List α → ℕ) (tree : Tree α δ) : Prop :=
  tree.hashtable.Keeps hash (fulls [] tree.root)

lemma keeps_hashNode {names : List (List α)} (h : tree.hashtable.Keeps hash names) (memory : Bool)
    (full : List α) :
    (hashNode hash memory tree full).hashtable.Keeps hash (full :: names) := by
  rw [hashNode]
  simp only
  split_ifs
  · exact (keeps_rehash h).push
  · exact h.push

lemma keeps_hashNodes {names : List (List α)} (h : tree.hashtable.Keeps hash names)
    (memory : List α → Bool) (created : List (List α)) :
    let tree' := created.foldl (fun s full => hashNode hash (memory full) s full) tree
    tree'.root = tree.root ∧ tree'.hashtable.Keeps hash (created ++ names) := by
  induction created generalizing tree names with
  | nil => exact ⟨rfl, h⟩
  | cons full created ih =>
    obtain ⟨hroot, hkeeps⟩ := ih (keeps_hashNode h (memory full) full)
    exact ⟨hroot, hkeeps.congr perm_middle⟩

lemma Kept.addnode (h : tree.Kept hash) (bal : Balancer α δ) (memory : List α → Bool)
    (name : List α) : (tree.addnode hash bal memory name).2.root = (tree.root.addnode bal name).2 ∧
      (tree.addnode hash bal memory name).2.Kept hash := by
  have hkept : Buckets.Keeps hash
      { tree with root := (tree.root.addnode bal name).2 : Tree α δ }.hashtable _ := h
  obtain ⟨hroot, hkeeps⟩ := keeps_hashNodes hkept memory (created [] tree.root name)
  refine ⟨hroot, ?_⟩
  rw [Kept, show (tree.addnode hash bal memory name).2.root = _ from hroot]
  exact hkeeps.congr (addnode_fulls bal).symm

/-- The assertions of `unhash_node` hold, and the table has the nodes that are left. -/
lemma Kept.unhash (h : tree.Kept hash) {removed : List (List α)} {root : Levels α δ}
    (hperm : (fulls [] tree.root).Perm (removed ++ fulls [] root)) :
    ∃ tree', tree.unhash hash removed root = some tree' ∧ tree'.root = root ∧ tree'.Kept hash := by
  obtain ⟨hashtable, htable, hkeeps⟩ := (Buckets.Keeps.congr h hperm).foldlM_pull
  refine ⟨⟨root, tree.nodecount - removed.length, hashtable⟩, ?_, rfl, hkeeps⟩
  exact congrArg (Option.map _) htable

lemma Kept.deletenode (h : tree.Kept hash) (bal : Balancer α δ) (name : List α) (recurse : Bool) :
    ∃ tree', tree.deletenode hash bal name recurse = some tree' ∧ tree'.root =
      (if recurse then tree.root.deletetree bal name else tree.root.deletenode bal name) ∧
      tree'.Kept hash := by
  cases recurse <;>
    exact h.unhash ((alter_fulls bal _ _ _).trans (.append_left _ (fulls_run bal _).symm))

lemma Kept.setData (h : tree.Kept hash) (bal : Balancer α δ) (name : List α) (data : Option δ) :
    (tree.setData bal name data).Kept hash := by
  have hperm := alter_fulls (t := tree.root) bal (fun _ => some data) [] name
  rw [removed_some, nil_append] at hperm
  exact Buckets.Keeps.congr h hperm

/-- The trees that additions and deletions of absolute names make, with their tables. -/
inductive Reachable (hash : List (List ℕ) → ℕ) : Tree (List ℕ) δ → Prop
  | create : Reachable hash create
  | addnode {tree : Tree (List ℕ) δ} (bal : Balancer (List ℕ) δ) (memory : List (List ℕ) → Bool)
      (name : Name) (habs : name.absolute) (h : Reachable hash tree) :
      Reachable hash (tree.addnode hash bal memory name.key).2
  | setData {tree : Tree (List ℕ) δ} (bal : Balancer (List ℕ) δ) (name : Name) (data : Option δ)
      (h : Reachable hash tree) : Reachable hash (tree.setData bal name.key data)
  | deletenode {tree tree' : Tree (List ℕ) δ} (bal : Balancer (List ℕ) δ) (name : Name)
      (recurse : Bool) (h : Reachable hash tree)
      (hdelete : tree.deletenode hash bal name.key recurse = some tree') : Reachable hash tree'

lemma Reachable.kept {hash : List (List ℕ) → ℕ} {tree : Tree (List ℕ) δ}
    (h : tree.Reachable hash) : Rbt.Reachable tree.root ∧ tree.Kept hash := by
  induction h with
  | create => exact ⟨.create, Buckets.keeps_replicate (by decide)⟩
  | addnode bal memory name habs h ih =>
    obtain ⟨hroot, hkept⟩ := ih.2.addnode bal memory name.key
    exact ⟨hroot ▸ .addnode bal name habs ih.1, hkept⟩
  | setData bal name data h ih => exact ⟨.setData bal name data ih.1, ih.2.setData bal _ data⟩
  | deletenode bal name recurse h hdelete ih =>
    obtain ⟨tree'', htree, hroot, hkept⟩ := ih.2.deletenode bal name.key recurse
    obtain rfl := Option.some_inj.mp (htree.symm.trans hdelete)
    refine ⟨hroot ▸ ?_, hkept⟩
    cases recurse
    · exact .deletenode bal name ih.1
    · exact .deletetree bal name ih.1

/-- A search with any options finds the node of the name or the closest one above it, whatever the
hash of a name is, and the same without a hash table. -/
theorem Reachable.findnode_answer {hash : List (List ℕ) → ℕ} {tree : Tree (List ℕ) δ}
    (h : tree.Reachable hash) {name : Name} (habs : name.absolute) (emptydata noexact : Bool) :
    let found := findOptions (tableSearch hash tree.hashtable) emptydata noexact
      name.key.length tree.root [] name.key none
    Answer tree.root name.key [] emptydata noexact none found ∧
      found = findOptions (fun _ => binarySearch) emptydata noexact name.key.length
        tree.root [] name.key none := by
  have hne := key_ne_nil habs
  obtain ⟨hreachable, hkept⟩ := h.kept
  have hgood := hreachable.sound.good
  have hbinary : Finds fun _ => binarySearch (α := List ℕ) (δ := δ) :=
    fun _ _ _ _ => binarySearch_eq_some_iff
  intro found
  -- every level that is searched has its nodes in the table
  have hsame : found = findOptions (fun _ => binarySearch) emptydata noexact
      name.key.length tree.root [] name.key none := by
    refine findOptions_congr (P := fun pre t => fulls pre t ⊆ fulls [] tree.root)
      (fun pre t hsub x hx k hk => hsub (mem_fulls.mpr ⟨x, hx, .inr hk⟩)) hbinary
      (fun pre t search hsub hlevel hs => ?_) _ (Subset.refl _) hgood hne
    refine Option.ext fun x => ?_
    rw [tableSearch_eq hkept hsub, levelSearch_eq_some_iff hlevel hs,
      binarySearch_eq_some_iff hlevel hs]
  exact ⟨hsame ▸ findOptions_answer hbinary _ hgood hne le_rfl, hsame⟩

/-- The names of three letters and the root, which is made for what they have in common, in one
bucket. -/
def lettersTree : Tree (List ℕ) Unit := [97, 99, 98].foldl
  (fun tree c => (tree.addnode (fun _ => 0) (.rotations [(true, [])]) (fun _ => true) (letter c).key).2)
  create

theorem Reachable.findnode_answer_letters :
    let found := findOptions (tableSearch (fun _ => 0) lettersTree.hashtable) true
      false 2 lettersTree.root [] (letter 98).key none
    (lettersTree.hashtable.bucket 0).length = 4 ∧ found = (.success, some ((letter 98).key, none)) ∧
      Answer lettersTree.root (letter 98).key [] true false none found ∧
      found = findOptions (fun _ => binarySearch) true false 2 lettersTree.root []
        (letter 98).key none :=
  ⟨by decide, by decide, Reachable.findnode_answer (.addnode _ _ (letter 98) (by decide)
    (.addnode _ _ (letter 99) (by decide) (.addnode _ _ (letter 97) (by decide) .create)))
    (by decide) true false⟩

end Tree

end LbBind.Rbt

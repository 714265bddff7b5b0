import Mathlib.Data.Finset.Basic
import LbBind.Rbt.Lookup

/-! The table of trust anchors (`lib/dns/keytable.c`): a tree of trees whose nodes point to lists of
keys. A name that is only marked as secure has a list with a null key.

A key that is added to such a name is stored in the list, and then `dst_key_free` gives back the
reference that is stored. What is done with it from then on is not defined. -/

namespace LbBind.Keytable

open Rbt Function

variable {α μ : Type*}

structure Key (α μ : Type*) where
  name : List α
  material : μ

inductive KeyRef (μ : Type*)
  | null
  | held (material : μ)
  | released (material : μ)
  deriving DecidableEq

structure Keynode (μ : Type*) where
  key : KeyRef μ
  managed : Bool
  deriving DecidableEq

abbrev Table (α μ : Type*) := Levels α (List (Keynode μ))

inductive Op (α μ : Type*)
  | add (managed : Bool) (key : Key α μ)
  | marksecure (name : List α)
  | delete (name : List α)
  | deletekeynode (key : Key α μ)

def Op.name : Op α μ → List α
  | add _ key => key.name
  | marksecure name => name
  | delete name => name
  | deletekeynode key => key.name

def pointer (chain : List (Keynode μ)) : Option (List (Keynode μ)) :=
  if chain.isEmpty then none else some chain

variable [LinearOrder α] [DecidableEq μ]

def dataOf (t : Table α μ) (name : List α) : List (Keynode μ) := match t.findnode name with
  | (.success, some (_, chain)) => chain
  | _ => []

def storeKey (material : μ) : List (Keynode μ) → Option (Option (List (Keynode μ)))
  | [] => some none
  | k :: ks =>
    match k.key with
    | .null => some (some ({ k with key := .released material } :: ks))
    | .held m => if m = material then some (some (k :: ks))
      else (storeKey material ks).map fun found => found.map (k :: ·)
    | .released _ => none

variable (bal : Balancer α (List (Keynode μ))) (t : Table α μ)

/-- `insert`. The whole result is missing if a key was used that may be gone. -/
def insert (managed : Bool) (keyname : List α) (key : Option μ) : Option (Table α μ) :=
  let (result, t) := t.addnode bal keyname
  match key with
  | none =>
    if result = .success then some (t.setData bal keyname (pointer [⟨.null, managed⟩])) else some t
  | some material =>
    let chain := dataOf t keyname
    let fresh := t.setData bal keyname (pointer (⟨.held material, managed⟩ :: chain))
    if result = .exists then
      match storeKey material chain with
      | none => none
      | some (some chain) => some (t.setData bal keyname (pointer chain))
      | some none => some fresh
    else some fresh

def add (managed : Bool) (key : Key α μ) : Option (Table α μ) :=
  insert bal t managed key.name (some key.material)

variable (name : List α)

def marksecure : Option (Table α μ) := insert bal t true name none

/-- `dns_rbt_deletenode`, and the keys of the node are freed. -/
def deleteNode : Option (Table α μ) :=
  if (dataOf t name).all fun k => match k.key with | .released _ => false | _ => true then
    some (t.deletenode bal name)
  else none

def delete : Option (Table α μ) :=
  if (t.findnode name).1 = .success then deleteNode bal t name else some t

def compare (material : μ) : KeyRef μ → Option Bool
  | .null => none
  | .held m => some (m = material)
  | .released _ => none

/-- The loop of `dns_keytable_deletekeynode`: the list without the key, if it is found. -/
def removeKey (material : μ) : List (Keynode μ) → Option (Option (List (Keynode μ)))
  | [] => some none
  | k :: ks =>
    match compare material k.key with
    | none => none
    | some true => some (some ks)
    | some false => (removeKey material ks).map fun found => found.map (k :: ·)

def storeRest : Option (Option (List (Keynode μ))) → Option (Table α μ)
  | none => none
  | some (some chain) => some (t.setData bal name (pointer chain))
  | some none => some t

def deletekeynode (key : Key α μ) : Option (Table α μ) := if (t.findnode key.name).1 = .success then
    let chain := dataOf t key.name
    let only : Bool := match chain with
      | [k] => k.key = .null || compare key.material k.key = some true
      | _ => false
    if only then deleteNode bal t key.name
    else storeRest bal t key.name (removeKey key.material chain)
  else some t

def step : Op α μ → Option (Table α μ)
  | .add managed key => add bal t managed key
  | .marksecure name => marksecure bal t name
  | .delete name => delete bal t name
  | .deletekeynode key => deletekeynode bal t key

def run : List (Op α μ) → Table α μ → Option (Table α μ)
  | [], t => some t
  | op :: ops, t => (step bal t op).bind (run ops)

def issecuredomain : Bool :=
  (t.findnode name).1 = .success || (t.findnode name).1 = .partialMatch

def finddeepestmatch : Result × Option (List α) :=
  let (result, node) := t.findnode name
  if result = .success || result = .partialMatch then (.success, node.map (·.1)) else (result, none)

abbrev Anchors (α μ : Type*) := List α → Finset (Option μ)

namespace Anchors

def empty : Anchors α μ := fun _ => ∅

variable (anchors : Anchors α μ)

def step : Op α μ → Anchors α μ
  | .add _ key => update anchors key.name
      ({some key.material} ∪ (anchors key.name).erase none)
  | .marksecure name =>
      update anchors name (if anchors name = ∅ then {none} else anchors name)
  | .delete name => update anchors name ∅
  | .deletekeynode key => update anchors key.name
      (if anchors key.name = {none} then ∅ else (anchors key.name).erase (some key.material))

def run (ops : List (Op α μ)) : Anchors α μ := ops.foldl step anchors

def Secure (name : List α) : Prop := (anchors name).Nonempty

instance (anchors : Anchors α μ) (name : List α) : Decidable (anchors.Secure name) :=
  inferInstanceAs (Decidable (anchors name).Nonempty)

end Anchors

end LbBind.Keytable

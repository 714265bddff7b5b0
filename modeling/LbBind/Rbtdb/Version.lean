import Mathlib.Algebra.GroupWithZero.Nat
import LbBind.Rbtdb.Node

/-! The versions of a zone database (`lib/dns/rbtdb.c`): the current one, older ones that readers
still hold, and perhaps one that is being written. A version keeps changed records, each with a
reference to a node; when it is closed they go to another version or to the cleanup list of the
call.

A function that returns nothing has failed an assertion. What is done under one lock is one step. -/

namespace LbBind.Rbtdb

open Function

variable {ν δ : Type*}

structure Changed (ν : Type*) where
  node : ν
  dirty : Bool
  deriving DecidableEq

structure Version (ν : Type*) where
  serial : ℕ
  references : ℕ
  commitOk : Bool
  changedList : List (Changed ν)
  deriving DecidableEq

/-- A changed record on the cleanup list of a `closeversion` call, with the serial number of
the version if it is rolled back, and the least serial number that the call has read. -/
structure Cleanup (ν : Type*) where
  node : ν
  rollback : Option ℕ
  leastSerial : ℕ
  deriving DecidableEq

/-- `dns_rbtdb_t`. The open versions are the current one and the older ones, newest
first; the future version is the one with `writer` set. -/
structure Db (ν δ : Type*) where
  current : Version ν
  older : List (Version ν)
  future : Option (Version ν)
  leastSerial : ℕ
  nextSerial : ℕ
  nodes : ν → Node δ
  cleanups : List (Cleanup ν)
  origin : ν
  stub : Bool

namespace Db

def serialSize : ℕ := 2 ^ 32

variable (db : Db ν δ)

def currentversion : Db ν δ :=
  { db with current := { db.current with references := db.current.references + 1 } }

variable (serial : ℕ)

def attached (v : Version ν) : Version ν :=
  if v.serial = serial then { v with references := v.references + 1 } else v

def attachversion : Db ν δ := { db with
    current := attached serial db.current
    older := db.older.map (attached serial)
    future := db.future.map (attached serial) }

def newversion (memory : Bool) : Option (Result × Db ν δ) :=
  if db.future.isSome || db.nextSerial = 0 then none
  else if memory then
    some (.success, { db with
      future := some ⟨db.nextSerial, 1, true, []⟩
      nextSerial := (db.nextSerial + 1) % serialSize })
  else some (.noMemory, db)

def cleanupList (rollback : Option ℕ) (leastSerial : ℕ) (changed : List (Changed ν)) :
    List (Cleanup ν) :=
  changed.map fun c => ⟨c.node, rollback, leastSerial⟩

variable (v : Version ν)

/-- The commit of the version `v` in `closeversion`, with the open versions that remain
and the changed records of the former current version if nobody holds it. -/
def become (openVersions : List (Version ν))
    (inherited : List (Changed ν)) : Db ν δ :=
  if openVersions = [] then
    -- make_least_version
    { db with
      current := { v with references := 1, changedList := inherited }
      older := []
      future := none
      leastSerial := v.serial
      cleanups := db.cleanups ++ cleanupList none v.serial v.changedList }
  else
    -- cleanup_nondirty
    { db with
      current :=
        { v with references := 1, changedList := v.changedList.filter (·.dirty) ++ inherited }
      older := openVersions
      future := none
      cleanups := db.cleanups ++
        cleanupList none db.leastSerial (v.changedList.filter fun c => !c.dirty) }

def commit : Option (Db ν δ) :=
  let cur := db.current
  if !v.commitOk then none
  else if 1 < cur.references then
    some (db.become v ({ cur with references := cur.references - 1 } :: db.older) [])
  else if cur.serial = db.leastSerial && cur.changedList ≠ [] then none
  else some (db.become v db.older cur.changedList)

def rollback : Db ν δ := { db with
    future := none
    cleanups := db.cleanups ++ cleanupList (some v.serial) db.leastSerial v.changedList }

structure Closed (ν : Type*) where
  above : Version ν
  older : List (Version ν)
  leastSerial : ℕ
  cleanup : List (Changed ν)

/-- The end of the last reference to an older version in `closeversion`. -/
def unlink (leastSerial : ℕ) (leastGreater version : Version ν) (rest : List (Version ν)) :
    Option (Closed ν) :=
  if ¬version.serial < leastGreater.serial then none
  else if version.serial = leastSerial then
    -- make_least_version; the version that goes must have no records
    if version.changedList ≠ [] then none
    else some ⟨{ leastGreater with changedList := [] }, rest, leastGreater.serial,
      leastGreater.changedList⟩
  else
    some ⟨{ leastGreater with changedList := leastGreater.changedList ++ version.changedList },
      rest, leastSerial, []⟩

def closeOlder (leastSerial serial : ℕ) : (leastGreater : Version ν) → List (Version ν) →
    Option (Closed ν)
  | _, [] => none
  | leastGreater, version :: rest =>
    if version.serial = serial then
      if 1 < version.references then
        some ⟨leastGreater, { version with references := version.references - 1 } :: rest,
          leastSerial, []⟩
      else unlink leastSerial leastGreater version rest
    else
      (closeOlder leastSerial serial version rest).map fun c =>
        { c with above := leastGreater, older := c.above :: c.older }

/-- `closeversion` for a version that is not written. The database itself holds a
reference to the current version. -/
def closeReader : Option (Db ν δ) := if db.current.serial = serial then
    if 1 < db.current.references then
      some { db with current := { db.current with references := db.current.references - 1 } }
    else none
  else
    (closeOlder db.leastSerial serial db.current db.older).map fun c =>
      { db with
        current := c.above
        older := c.older
        leastSerial := c.leastSerial
        cleanups := db.cleanups ++ cleanupList none c.leastSerial c.cleanup }

def closeWriter (commit : Bool) : Option (Db ν δ) :=
  if 1 < v.references then
    if commit then none
    else some { db with future := some { v with references := v.references - 1 } }
  else if commit then db.commit v
  else some (db.rollback v)

def closeversion (commit : Bool) : Option (Db ν δ) :=
  match db.future with
  | some v => if v.serial = serial then db.closeWriter v commit else db.closeReader serial
  | none => db.closeReader serial

variable [DecidableEq ν] (db : Db ν δ)

def cleanup (c : Cleanup ν) : Db ν δ :=
  let node := db.nodes c.node
  let node := match c.rollback with
    | some serial => rollbackNode node serial
    | none => node
  { db with
    nodes := update db.nodes c.node (decrementReference node c.leastSerial)
    cleanups := db.cleanups.erase c }

variable (n : ν)

def attachnode : Db ν δ :=
  let node := db.nodes n
  { db with nodes := update db.nodes n { node with references := node.references + 1 } }

def detachnode : Db ν δ := { db with
    nodes := update db.nodes n (decrementReference (db.nodes n) db.leastSerial) }

/-- A change of a node in the version that is written: `add_changed`, which may find no
memory, and then the change itself. -/
def change (memory : Bool) (f : (serial : ℕ) → Node δ → Change δ) :
    Option (Result × Db ν δ) :=
  match db.future with
  | none => none
  | some v =>
    if memory then
      let node := db.nodes n
      let c := f v.serial { node with references := node.references + 1 }
      some (c.result, { db with
        future := some { v with changedList := v.changedList ++ [⟨n, c.dirty⟩] }
        nodes := update db.nodes n c.node })
    else some (.noMemory, { db with future := some { v with commitOk := false } })

def delegatingType (type : ℕ) : Bool :=
  type = Rdatatype.dname || (type = Rdatatype.ns && (n ≠ db.origin || db.stub))

def flagged (delegating : Bool) (c : Change δ) : Change δ :=
  if c.result = .success && delegating then
    { c with node := { c.node with findCallback := true } }
  else c

variable (ops : SlabOps δ) (db : Db ν δ) (n : ν) (type : Typepair) (rdataset : Rdataset δ)

/-- `addrdataset`. The preparation of the header and of the tree of NSEC names fails
early, or not at all. -/
def addrdataset (options : AddOptions) (early : Option Result) (memory : Bool) :
    Option (Result × Db ν δ) :=
  match early with
  | some r => some (r, db)
  | none => db.change n memory fun serial node =>
      flagged (db.delegatingType n type.base)
        (node.add ops ⟨type, serial, false, some rdataset⟩ options)

def subtractrdataset (exact : Bool) (early : Option Result) (memory headerMemory : Bool) :
    Option (Result × Db ν δ) :=
  match early with
  | some r => some (r, db)
  | none => db.change n memory fun serial node =>
      node.subtract ops serial type rdataset exact headerMemory

def deleterdataset (headerMemory memory : Bool) : Option (Result × Db ν δ) :=
  if type.base = Rdatatype.any || (type.base = Rdatatype.rrsig && type.covers = 0) then
    some (.notImplemented, db)
  else if !headerMemory then some (.noMemory, db)
  else db.change n memory fun serial node =>
    node.add ops ⟨type, serial, false, none⟩ ⟨false, false, false⟩

end Db

end LbBind.Rbtdb

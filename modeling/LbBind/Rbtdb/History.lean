import LbBind.Rbtdb.Version
import LbBind.Rbtdb.Cleaning

/-! Histories of a zone database. Readers and one writer make calls in any order, with the cleanup
of `closeversion` calls in between. Next to the database runs a ledger, which is only a list of the
committed transactions and of the writes of the open one. The contents of a version are what the
transactions up to it make of what was loaded. -/

namespace LbBind.Rbtdb

open Typepair Function

variable {ν δ : Type*}

inductive Edit (δ : Type*)
  | add (new : Option (Rdataset δ)) (options : AddOptions)
  | subtract (rdataset : Rdataset δ) (exact memory : Bool)

def Edit.outcome (ops : SlabOps δ) (type : Typepair) (old : Option (Rdataset δ)) :
    Edit δ → Except Result (Option (Rdataset δ))
  | .add new options => applyAdd ops type options new old
  | .subtract rdataset exact memory => applySubtract ops type rdataset exact memory old

structure Write (ν δ : Type*) where
  node : ν
  type : Typepair
  edit : Edit δ

abbrev Contents (ν δ : Type*) := ν → Typepair → Option (Rdataset δ)

def Write.apply [DecidableEq ν] (ops : SlabOps δ) (c : Contents ν δ) (w : Write ν δ) :
    Contents ν δ :=
  match w.edit.outcome ops w.type (c w.node w.type) with
  | .error _ => c
  | .ok rdataset => update c w.node (update (c w.node) w.type rdataset)

structure Transaction (ν δ : Type*) where
  serial : ℕ
  writes : List (Write ν δ)

structure Ledger (ν δ : Type*) where
  loaded : Contents ν δ
  committed : List (Transaction ν δ)
  writer : Option (Transaction ν δ)

namespace Ledger

/-- The contents of the version with serial number `serial`: the writes of the committed
versions up to it, and its own if it is the one being written. -/
def contents [DecidableEq ν] (ops : SlabOps δ) (l : Ledger ν δ) (serial : ℕ) : Contents ν δ :=
  (((l.committed ++ l.writer.toList).filter (·.serial ≤ serial)).flatMap (·.writes)).foldl
    (Write.apply ops) l.loaded

variable (l : Ledger ν δ)

def start (serial : ℕ) : Ledger ν δ := { l with writer := some ⟨serial, []⟩ }

def write (w : Write ν δ) : Ledger ν δ :=
  { l with writer := l.writer.map fun t => { t with writes := t.writes ++ [w] } }

def close (commit : Bool) : Ledger ν δ := { l with
    committed := if commit then l.committed ++ l.writer.toList else l.committed
    writer := none }

end Ledger

inductive Op (ν δ : Type*)
  | currentversion
  | attachversion (serial : ℕ)
  | newversion (memory : Bool)
  | closeversion (serial : ℕ) (commit : Bool)
  | cleanup (c : Cleanup ν)
  | attachnode (n : ν)
  | detachnode (n : ν)
  | addrdataset (n : ν) (type : Typepair) (rdataset : Rdataset δ) (options : AddOptions)
      (early : Option Result) (memory : Bool)
  | subtractrdataset (n : ν) (type : Typepair) (rdataset : Rdataset δ) (exact : Bool)
      (early : Option Result) (memory headerMemory : Bool)
  | deleterdataset (n : ν) (type : Typepair) (headerMemory memory : Bool)

variable [DecidableEq ν] (db : Db ν δ)

def Db.openVersions : List (Version ν) := db.current :: db.older

def changedNodes (vs : List (Version ν)) : List ν := vs.flatMap fun v => v.changedList.map (·.node)

def Db.records (n : ν) : ℕ :=
  (changedNodes db.future.toList).count n + (changedNodes db.openVersions).count n +
    (db.cleanups.map (·.node)).count n

/-- What the callers have to see to. A transaction starts when the call that has rolled
back the one before is over; a cleanup step is one that is left to do; a reference to a
node is dropped by somebody who holds one; an rdataset has a type. -/
def Op.Allowed : Op ν δ → Prop
  | .newversion _ => ∀ c ∈ db.cleanups, c.rollback = none
  | .cleanup c => c ∈ db.cleanups
  | .detachnode n => db.records n < (db.nodes n).references
  | .addrdataset _ type _ _ _ _ => type ≠ zero
  | .subtractrdataset _ type _ _ _ _ _ => type ≠ zero
  | .deleterdataset _ type _ _ => type ≠ zero
  | _ => True

instance (db : Db ν δ) : (op : Op ν δ) → Decidable (op.Allowed db)
  | .newversion _ => inferInstanceAs (Decidable (∀ c ∈ db.cleanups, c.rollback = none))
  | .cleanup c => inferInstanceAs (Decidable (c ∈ db.cleanups))
  | .detachnode n => inferInstanceAs (Decidable (db.records n < (db.nodes n).references))
  | .addrdataset _ type _ _ _ _ => inferInstanceAs (Decidable (type ≠ zero))
  | .subtractrdataset _ type _ _ _ _ _ => inferInstanceAs (Decidable (type ≠ zero))
  | .deleterdataset _ type _ _ => inferInstanceAs (Decidable (type ≠ zero))
  | .currentversion | .attachversion _ | .closeversion _ _ | .attachnode _ => isTrue trivial

def Op.run (ops : SlabOps δ) (db : Db ν δ) : Op ν δ → Option (Result × Db ν δ)
  | .currentversion => some (.success, db.currentversion)
  | .attachversion serial => some (.success, db.attachversion serial)
  | .newversion memory => db.newversion memory
  | .closeversion serial commit => (db.closeversion serial commit).map fun db => (.success, db)
  | .cleanup c => some (.success, db.cleanup c)
  | .attachnode n => some (.success, db.attachnode n)
  | .detachnode n => some (.success, db.detachnode n)
  | .addrdataset n type rdataset options early memory =>
      db.addrdataset ops n type rdataset options early memory
  | .subtractrdataset n type rdataset exact early memory headerMemory =>
      db.subtractrdataset ops n type rdataset exact early memory headerMemory
  | .deleterdataset n type headerMemory memory => db.deleterdataset ops n type headerMemory memory

def Op.write : Op ν δ → Option (Write ν δ)
  | .addrdataset n type rdataset options none true => some ⟨n, type, .add (some rdataset) options⟩
  | .subtractrdataset n type rdataset exact none true headerMemory =>
      some ⟨n, type, .subtract rdataset exact headerMemory⟩
  | .deleterdataset n type true true =>
      if type.base = Rdatatype.any || (type.base = Rdatatype.rrsig && type.covers = 0) then none
      else some ⟨n, type, .add none ⟨false, false, false⟩⟩
  | _ => none

def Ledger.next (l : Ledger ν δ) (op : Op ν δ) (db db' : Db ν δ) : Ledger ν δ := match op with
  | .newversion _ => if db'.future.isSome then l.start db.nextSerial else l
  | .closeversion _ commit => if db.future.isSome && db'.future.isNone then l.close commit else l
  | op => match op.write with
    | some w => l.write w
    | none => l

structure Db.Loaded (db : Db ν δ) : Prop where
  current : db.current.serial = 1 ∧ db.current.changedList = []
  alone : db.older = [] ∧ db.future = none ∧ db.cleanups = []
  serials : db.leastSerial = 1 ∧ db.nextSerial = 2
  nodes : ∀ n, (db.nodes n).WellFormed
  headers : ∀ n, ∀ c ∈ (db.nodes n).data, c.down = [] ∧ c.top.serial = 1 ∧ c.top.ignore = false

inductive History (ops : SlabOps δ) : Db ν δ → Ledger ν δ → Prop
  | load {db : Db ν δ} : db.Loaded →
      History ops db ⟨fun n => (db.nodes n).view db.current.serial, [], none⟩
  | call {db db' : Db ν δ} {l : Ledger ν δ} {r : Result} (op : Op ν δ) : History ops db l →
      op.Allowed db → op.run ops db = some (r, db') → History ops db' (l.next op db db')

def Op.runs (ops : SlabOps δ) : List (Op ν δ) → Db ν δ → Ledger ν δ → Option (Db ν δ × Ledger ν δ)
  | [], db, l => some (db, l)
  | op :: rest, db, l =>
    if op.Allowed db then
      (op.run ops db).bind fun p => Op.runs ops rest p.2 (l.next op db p.2)
    else none

lemma History.runs {ops : SlabOps δ} {calls : List (Op ν δ)} {db db' : Db ν δ}
    {l l' : Ledger ν δ} (h : History ops db l)
    (hruns : Op.runs ops calls db l = some (db', l')) : History ops db' l' := by
  induction calls generalizing db l with
  | nil =>
    cases hruns
    exact h
  | cons op rest ih =>
    simp only [Op.runs] at hruns
    split at hruns
    · rename_i hallowed
      obtain ⟨⟨r, db1⟩, hrun, hrest⟩ := Option.bind_eq_some_iff.mp hruns
      exact ih (h.call op hallowed hrun) hrest
    · simp at hruns

end LbBind.Rbtdb

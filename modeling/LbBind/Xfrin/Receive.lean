import LbBind.Diff.Apply
import LbBind.Journal.File

/-! Incoming zone transfers (`lib/dns/xfrin.c`). The state says whether a record belongs to a whole
zone or to a sequence of differences, and whether it is deleted or added. The changes are collected
in a diff that is applied when it has more than 100 tuples and before a commit. -/

namespace LbBind.Xfrin

open Lib Call Diff
open Rbtdb (Typepair)
open Zone (Contents Node)

variable {ρ : Type} [DecidableEq ρ]

inductive State
  | soaquery
  | gotsoa
  | initialsoa
  | firstdata
  | ixfrDelsoa
  | ixfrDel
  | ixfrAddsoa
  | ixfrAdd
  | ixfrEnd
  | axfr
  | axfrEnd
  deriving DecidableEq

inductive Reqtype
  | soa
  | axfr
  | ixfr
  deriving DecidableEq

structure Rr (ρ : Type) where
  name : List (List ℕ)
  ttl : ℕ
  rdclass : ℕ
  type : ℕ
  covered : ℕ
  rdata : ρ

namespace Rr

def typepair (rr : Rr ρ) : Typepair := ⟨rr.type, if rr.type = Rdatatype.rrsig then rr.covered else 0⟩

def isSoa (rr : Rr ρ) : Bool := rr.type = Rdatatype.soa

end Rr

/-- What a transfer works with: the zone and the request, the serial number of a SOA record, and
what the checks of names and the journal say, which may depend on the number of records read. -/
structure Env (ρ : Type) where
  origin : List (List ℕ)
  rdclass : ℕ
  reqtype : Reqtype
  requestSerial : ℕ
  forced : Bool
  serial : ρ → ℕ
  checknames : Rr ρ → Except Result Unit
  journalOpen : ℕ → Except Result Unit
  journalBegin : ℕ → Except Result Unit
  journalWrite : ℕ → Except Result Unit
  journalCommit : ℕ → Except Result Unit
  endload : ℕ → Except Result Unit

/-- The fields of `dns_xfrin_ctx_t` that `xfr_rr` works on: `db` is the contents of the current
version of the database, and `ver` that of the version being written. -/
structure Xfr (ρ : Type) where
  state : State
  nrecs : ℕ
  isIxfr : Bool
  checkid : Bool
  endSerial : ℕ
  currentSerial : ℕ
  diff : List (Tuple ρ)
  difflen : ℕ
  db : Contents ρ
  ver : Option (Contents ρ)

variable (env : Env ρ)

def append (op : Op) (rr : Rr ρ) : Call (Xfr ρ) Result Unit := modify fun x => { x with
    diff := x.diff ++ [⟨op, rr.name, rr.ttl, rr.typepair, rr.rdata⟩]
    difflen := x.difflen + 1 }

def enter (state : State) : Call (Xfr ρ) Result Unit := modify fun x => { x with state := state }

def axfrInit : Call (Xfr ρ) Result Unit :=
  modify fun x => { x with isIxfr := false, db := fun _ => Node.empty }

def axfrApply : Call (Xfr ρ) Result Unit := do
  let x ← read
  let z ← lift (Diff.load env.origin x.diff x.db)
  modify fun x => { x with db := z, diff := [], difflen := 0 }

variable (rr : Rr ρ)

def axfrPutdata : Call (Xfr ρ) Result Unit := do
  lift (env.checknames rr)
  append .add rr
  let x ← read
  if 100 < x.difflen then axfrApply env else pure ()

def axfrCommit : Call (Xfr ρ) Result Unit := do
  axfrApply env
  let x ← read
  lift (env.endload x.nrecs)

def ixfrInit : Call (Xfr ρ) Result Unit := if env.reqtype ≠ .ixfr then fail .formErr
  else do
    modify fun x => { x with isIxfr := true, difflen := 0 }
    let x ← read
    lift (env.journalOpen x.nrecs)

def openVersion : Call (Xfr ρ) Result Unit := do
  let x ← read
  if x.ver.isSome then pure ()
  else do
    modify fun x => { x with ver := some x.db }
    lift (env.journalBegin x.nrecs)

def ixfrApply : Call (Xfr ρ) Result Unit := do
  openVersion env
  let x ← read
  let z ← lift (Diff.apply x.diff (x.ver.getD x.db))
  modify fun x => { x with ver := some z }
  lift (env.journalWrite x.nrecs)
  modify fun x => { x with diff := [], difflen := 0 }

def ixfrPutdata (op : Op) (rr : Rr ρ) : Call (Xfr ρ) Result Unit := do
  lift (if op = .add then env.checknames rr else .ok ())
  append op rr
  let x ← read
  if 100 < x.difflen then ixfrApply env else pure ()

def ixfrCommit : Call (Xfr ρ) Result Unit := do
  ixfrApply env
  let x ← read
  lift (env.journalCommit x.nrecs)
  modify fun x => { x with db := x.ver.getD x.db, ver := none }

/-- A record in the state `XFRST_IXFR_DELSOA`. -/
def recvDelsoa : Call (Xfr ρ) Result Unit := do
  assert (rr.isSoa)
  ixfrPutdata env .del rr
  enter .ixfrDel

/-- A record in the state `XFRST_IXFR_ADDSOA`. -/
def recvAddsoa : Call (Xfr ρ) Result Unit := do
  assert (rr.isSoa)
  ixfrPutdata env .add rr
  enter .ixfrAdd

/-- A record in the state `XFRST_IXFR_DEL`. -/
def recvDel : Call (Xfr ρ) Result Unit := if rr.isSoa then do
    modify fun x => { x with state := .ixfrAddsoa, currentSerial := env.serial rr.rdata }
    recvAddsoa env rr
  else ixfrPutdata env .del rr

/-- A record in the state `XFRST_IXFR_ADD`. -/
def recvAdd : Call (Xfr ρ) Result Unit := do
  let x ← read
  if rr.isSoa then
    if env.serial rr.rdata = x.endSerial then do
      ixfrCommit env
      enter .ixfrEnd
    else if env.serial rr.rdata ≠ x.currentSerial then fail .formErr
    else do
      ixfrCommit env
      enter .ixfrDelsoa
      recvDelsoa env rr
  else if rr.type = Rdatatype.ns && iswildcard rr.name then fail .invalidNs
  else ixfrPutdata env .add rr

/-- A record in the state `XFRST_AXFR`. Address records of another class are skipped. -/
def recvAxfr : Call (Xfr ρ) Result Unit :=
  if rr.type = Rdatatype.a && rr.rdclass ≠ env.rdclass && env.rdclass ≠ 1 then pure ()
  else do
    axfrPutdata env rr
    if rr.isSoa then do
      axfrCommit env
      enter .axfrEnd
    else pure ()

/-- A record in the state `XFRST_FIRSTDATA`: the second one of the transfer. -/
def recvFirst : Call (Xfr ρ) Result Unit :=
  if env.reqtype = .ixfr && rr.isSoa && env.requestSerial = env.serial rr.rdata then do
    ixfrInit env
    enter .ixfrDelsoa
    recvDelsoa env rr
  else do
    axfrInit
    enter .axfr
    recvAxfr env rr

def recvInitial : Call (Xfr ρ) Result Unit := if !rr.isSoa then fail .formErr
  else do
    modify fun x => { x with endSerial := env.serial rr.rdata }
    if env.reqtype = .ixfr && !Journal.serialGT (env.serial rr.rdata) env.requestSerial &&
        !env.forced then fail .upToDate
    else
      modify fun x => { x with
        state := .firstdata
        checkid := if env.reqtype = .axfr then false else x.checkid }

def recvSoaquery : Call (Xfr ρ) Result Unit := if !rr.isSoa then fail .formErr
  else do
    modify fun x => { x with endSerial := env.serial rr.rdata }
    if !Journal.serialGT (env.serial rr.rdata) env.requestSerial && !env.forced then fail .upToDate
    else enter .gotsoa

def xfrRr : Call (Xfr ρ) Result Unit := do
  modify fun x => { x with nrecs := x.nrecs + 1 }
  if rr.type = Rdatatype.none || Rdatatype.ismeta rr.type then fail .formErr
  else do
    let x ← read
    match x.state with
    | .soaquery => recvSoaquery env rr
    | .gotsoa => pure ()
    | .initialsoa => recvInitial env rr
    | .firstdata => recvFirst env rr
    | .ixfrDelsoa => recvDelsoa env rr
    | .ixfrDel => recvDel env rr
    | .ixfrAddsoa => recvAddsoa env rr
    | .ixfrAdd => recvAdd env rr
    | .axfr => recvAxfr env rr
    | .axfrEnd | .ixfrEnd => fail .extraData

def xfrAll : List (Rr ρ) → Call (Xfr ρ) Result Unit
  | [] => pure ()
  | rr :: rrs => do
    xfrRr env rr
    xfrAll rrs

/-- The state in which the answer to an AXFR or an IXFR request is awaited, with a database that
has the contents `db`. -/
def Xfr.start (db : Contents ρ) : Xfr ρ := ⟨.initialsoa, 0, false, true, 0, 0, [], 0, db, none⟩

end LbBind.Xfrin

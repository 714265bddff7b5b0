import Mathlib.Data.Finset.Sort
import LbBind.Diff.Replay
import LbBind.Journal.File

/-! Dynamic update (`bin/named/update.c`): the prescan of the update section and its processing.
Each record of the section adds a record, deletes one, or deletes all records of a type or of a
name, in a new version of the zone, and the changes are recorded in a minimal diff. -/

namespace LbBind.Update

open Lib Call Diff
open Rbtdb (Typepair)
open Zone
open Rdatatype

/-- What `dns_rdata_casecompare` and the bytes of rdata say. The order of rdata is that of
`dns_rdata_compare`; `dns_rdata_casecompare` ignores case in more types, but not for NS records. -/
structure Rdatas (ρ : Type) where
  data : ρ → List UInt8
  casecompare : ℕ → ρ → ρ → Bool
  casecompare_self : ∀ type d, casecompare type d d
  casecompare_ns : ∀ d d', casecompare ns d d' → d = d'

/-- A record of the update section as `get_current_rr` gives it. The message says which type a
signature covers, also for the old type SIG. -/
structure Rr (ρ : Type) where
  name : List (List ℕ)
  ttl : ℕ
  updateClass : ℕ
  type : ℕ
  covers : ℕ
  rdata : ρ
  covers_eq : type ≠ sig → type ≠ rrsig → covers = 0

/-- What an update works with: the zone, and what the checks of names and the update policy say.
The policy has the signer and the address of the request. `addnode` is what `dns_rbt_addnode` makes of
the nodes of the trees: there is a node at the place then, and perhaps one more above it. -/
structure Env (ρ : Type) where
  origin : List (List ℕ)
  rdclass : ℕ
  privatetype : ℕ
  rdatas : Rdatas ρ
  checknames : Rr ρ → Bool
  ssutable : Option (List (List ℕ) → ℕ → Bool)
  addnode : (Place → Bool) → Place → Place → Bool
  addnode_self : ∀ nodes p, addnode nodes p p
  addnode_mono : ∀ nodes p q, nodes q → addnode nodes p q

def classAny : ℕ := 255

def classNone : ℕ := 254

structure State (ρ : Type) where
  ver : Contents ρ
  diff : List (Tuple ρ)
  soaSerialChanged : Bool
  /-- Where the trees have a node, with or without records in this version. -/
  nodes : Place → Bool

def Rr.tuple {ρ : Type} (op : Op) (rr : Rr ρ) : Tuple ρ :=
  ⟨op, rr.name, rr.ttl, tupleType ⟨rr.type, rr.covers⟩, rr.rdata⟩

structure Found (ρ : Type) where
  type : Typepair
  ttl : ℕ
  rdata : ρ

def Found.tuple {ρ : Type} (op : Op) (name : List (List ℕ)) (rr : Found ρ) : Tuple ρ :=
  ⟨op, name, rr.ttl, tupleType rr.type, rr.rdata⟩

variable {ρ : Type} [LinearOrder ρ] (env : Env ρ)

def rrs (s : Rdataset ρ) : List (Found ρ) := s.rdatas.sort.map fun d => ⟨s.type, s.ttl, d⟩

def rrsOf : Option (Rdataset ρ) → List (Found ρ)
  | none => []
  | some s => rrs s

def findnode (name : List (List ℕ)) (type covers : ℕ) : Place :=
  ⟨type = nsec3 || (type = rrsig && covers = nsec3), name⟩

variable (z : Contents ρ)

def foreachRr (name : List (List ℕ)) (type covers : ℕ) : List (Found ρ) :=
  if type = any then (z ⟨false, name⟩).rdatasets.flatMap rrs
  else rrsOf ((z (findnode name type covers)).find ⟨type, covers⟩)

/-- `dns_db_findrdataset` for a node that exists: `REQUIRE(covers == 0 || type == dns_rdatatype_rrsig)`. -/
def Findable (nodes : Place → Bool) (name : List (List ℕ)) (type covers : ℕ) : Prop :=
  type = any ∨ nodes (findnode name type covers) = false ∨ covers = 0 ∨ type = rrsig

instance (nodes : Place → Bool) (name : List (List ℕ)) (type covers : ℕ) :
    Decidable (Findable nodes name type covers) := inferInstanceAs (Decidable (_ ∨ _))

def rrsetExists (name : List (List ℕ)) (type covers : ℕ) : Bool :=
  !(foreachRr z name type covers).isEmpty

def cnameIncompatibleRrsetExists (name : List (List ℕ)) : Bool :=
  (z ⟨false, name⟩).rdatasets.any fun s =>
    s.type.base ≠ cname && !isdnssec s.type.base

def ssuCheckall (grants : List (List ℕ) → ℕ → Bool) (z : Contents ρ) (name : List (List ℕ)) : Bool :=
  (z ⟨false, name⟩).rdatasets.all fun s =>
    s.type.base = rrsig || s.type.base = nsec || grants name s.type.base

variable (rr : Rr ρ)

/-- The class, type and TTL of a record of the update section fit together. -/
def prescanClass : Except Result Unit := if rr.updateClass = env.rdclass then
    if ismeta rr.type then .error .formErr
    else if !env.checknames rr then .error .refused
    else .ok ()
  else if rr.updateClass = classAny then
    if rr.ttl ≠ 0 || env.rdatas.data rr.rdata ≠ [] ||
        (ismeta rr.type && rr.type ≠ any) then .error .formErr
    else .ok ()
  else if rr.updateClass = classNone then
    if rr.ttl ≠ 0 || ismeta rr.type then .error .formErr else .ok ()
  else .error .formErr

def prescanType : Except Result Unit := if rr.type = nsec3 then .error .refused
  else if rr.type = nsec then .error .refused
  else if rr.type = rrsig && rr.name ≠ env.origin then .error .refused
  else .ok ()

def prescanPolicy (rr : Rr ρ) : Except Result Unit := match env.ssutable with
  | none => .ok ()
  | some grants =>
    if rr.type ≠ any then
      if grants rr.name rr.type then .ok () else .error .refused
    else if ssuCheckall grants z rr.name then .ok () else .error .refused

def prescanRr (rr : Rr ρ) : Except Result Unit := do
  if !env.origin.isPrefixOf rr.name then .error .notZone
  prescanClass env rr
  prescanType env rr
  prescanPolicy env z rr

def prescan (z : Contents ρ) : List (Rr ρ) → Except Result Unit
  | [] => .ok ()
  | rr :: rest => do
    prescanRr env z rr
    prescan z rest

def doOneTuple (t : Tuple ρ) : Call (State ρ) Result Unit := do
  let x ← read
  let z ← lift (Diff.apply [t] x.ver)
  modify fun x => { x with
    ver := z
    diff := appendminimal x.diff t
    nodes := env.addnode x.nodes (place t.name t.type) }

def doDiff : List (Tuple ρ) → Call (State ρ) Result Unit
  | [] => pure ()
  | t :: ts => do
    doOneTuple env t
    doDiff ts

variable (p : Found ρ → Bool) (name : List (List ℕ))

def deletions (found : List (Found ρ)) : List (Tuple ρ) :=
  (found.filter p).map (Found.tuple .del name)

def deleteType (type covers : ℕ) :
    Call (State ρ) Result Unit := do
  let x ← read
  assert (Findable x.nodes name type covers)
  doDiff env (deletions p name (foreachRr x.ver name type covers))

def deleteEach (p : Found ρ → Bool) (name : List (List ℕ)) : List Typepair → Call (State ρ) Result Unit
  | [] => pure ()
  | type :: types => do
    let x ← read
    doDiff env (deletions p name (rrsOf ((x.ver ⟨false, name⟩).find type)))
    deleteEach p name types

def deleteAny : Call (State ρ) Result Unit := do
  let x ← read
  deleteEach env p name ((x.ver ⟨false, name⟩).rdatasets.map (·.type))

def typeNotSoaNorNs (rr : Found ρ) : Bool := !List.contains
    [soa, ns, nsec3param, rrsig, nsec]
    rr.type.base

def typeNotDnssec (rr : Found ρ) : Bool := !List.contains [rrsig, nsec] rr.type.base

def rrEqual (found : Found ρ) : Bool :=
  found.type.base = rr.type && env.rdatas.casecompare rr.type rr.rdata found.rdata

def sigKey (data : List UInt8) : List UInt8 := data.take 3 ++ (data.drop 16).take 2

def replaces (found : Found ρ) : Call (State ρ) Result Bool :=
  let new := env.rdatas.data rr.rdata
  let old := env.rdatas.data found.rdata
  if found.type.base ≠ rr.type then pure false
  else if [cname, dname, soa, nsec].contains rr.type then
    pure true
  else if rr.type = rrsig then pure (sigKey old = sigKey new)
  else if rr.type = wks then do
    assert (5 ≤ old.length ∧ 5 ≤ new.length)
    pure (old.take 5 = new.take 5)
  else if rr.type = nsec3param && old.length = new.length then do
    assert (4 ≤ old.length ∧ 4 ≤ new.length)
    pure (old.take 1 = new.take 1 && old.drop 2 = new.drop 2)
  else pure false

structure Prepared (ρ : Type) where
  ignoreAdd : Bool
  dels : List (Tuple ρ)
  adds : List (Tuple ρ)

def addRrPrepareAction (ctx : Prepared ρ) (found : Found ρ) :
    Call (State ρ) Result (Prepared ρ) := do
  let equal := found.type.base = rr.type && env.rdatas.casecompare rr.type found.rdata rr.rdata
  if equal && found.ttl = rr.ttl then pure { ctx with ignoreAdd := true }
  else do
    let replaced ← replaces env rr found
    if replaced then pure { ctx with dels := ctx.dels ++ [found.tuple .del rr.name] }
    else if found.ttl ≠ rr.ttl then
      pure { ctx with
        dels := ctx.dels ++ [found.tuple .del rr.name]
        adds := if equal then ctx.adds
          else ctx.adds ++ [{ found.tuple .add rr.name with ttl := rr.ttl }] }
    else pure ctx

def addRrPrepare (rr : Rr ρ) : Prepared ρ → List (Found ρ) → Call (State ρ) Result (Prepared ρ)
  | ctx, [] => pure ctx
  | ctx, found :: rest => do
    let ctx ← addRrPrepareAction env rr ctx found
    addRrPrepare rr ctx rest

def addPrepared : Call (State ρ) Result Unit := do
  let x ← read
  assert (Findable x.nodes rr.name rr.type rr.covers)
  let ctx ← addRrPrepare env rr ⟨false, [], []⟩ (foreachRr x.ver rr.name rr.type rr.covers)
  if ctx.ignoreAdd then pure ()
  else do
    doDiff env ctx.dels
    doDiff env ctx.adds
    doOneTuple env (rr.tuple .add)

def serial (data : List UInt8) : ℕ :=
  ((data.drop (data.length - 20)).take 4).foldl (fun n b => n * 256 + b.toNat) 0

def checkSoaIncrement : Call (State ρ) Result Bool := do
  let x ← read
  match foreachRr x.ver env.origin soa 0 with
  | [] => fail .notFound
  | soa :: rest => do
    assert (rest = [] ∧ 20 < (env.rdatas.data soa.rdata).length)
    pure (!Journal.serialGE (serial (env.rdatas.data soa.rdata)) (serial (env.rdatas.data rr.rdata)))

/-- Records of types that are for internal use, and NSEC3PARAM records with other flags than
`DNS_NSEC3FLAG_OPTOUT`, are not added. -/
def addUnlessInternal : Call (State ρ) Result Unit :=
  if rr.type = env.privatetype then pure ()
  else if rr.type = nsec3param &&
      (((env.rdatas.data rr.rdata).drop 1).headD 0 &&& 0xfe) ≠ 0 then pure ()
  else addPrepared env rr

def addRr : Call (State ρ) Result Unit := do
  let x ← read
  if rr.type = md || rr.type = mf then pure ()
  else if (rr.type = ns || rr.type = dname) && iswildcard rr.name then pure ()
  else if rr.type = cname && cnameIncompatibleRrsetExists x.ver rr.name then pure ()
  else if rr.type ≠ cname && rrsetExists x.ver rr.name cname 0 &&
      !isdnssec rr.type then pure ()
  else if rr.type = soa then
    if !rrsetExists x.ver rr.name soa 0 then pure ()
    else do
      let ok ← checkSoaIncrement env rr
      if !ok then pure ()
      else do
        modify fun x => { x with soaSerialChanged := true }
        addUnlessInternal env rr
  else addUnlessInternal env rr

def deleteRrset : Call (State ρ) Result Unit := if rr.type = any then
    if rr.name = env.origin then deleteAny env typeNotSoaNorNs rr.name
    else deleteAny env typeNotDnssec rr.name
  else if rr.name = env.origin && (rr.type = soa || rr.type = ns) then pure ()
  else deleteType env (fun _ => true) rr.name rr.type rr.covers

def deleteRr : Call (State ρ) Result Unit := do
  let x ← read
  if rr.name = env.origin && rr.type = soa then pure ()
  else if rr.name = env.origin && rr.type = ns &&
      (foreachRr x.ver rr.name ns 0).length = 1 then pure ()
  else deleteType env (rrEqual env rr) rr.name rr.type rr.covers

def updateRr : Call (State ρ) Result Unit :=
  if rr.updateClass = env.rdclass then addRr env rr
  else if rr.updateClass = classAny then deleteRrset env rr
  else if rr.updateClass = classNone then deleteRr env rr
  else pure ()

def updateSection : List (Rr ρ) → Call (State ρ) Result Unit
  | [] => pure ()
  | rr :: rest => do
    updateRr env rr
    updateSection rest

end LbBind.Update

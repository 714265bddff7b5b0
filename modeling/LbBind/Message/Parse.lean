import LbBind.Lib.Call
import LbBind.Lib.Chain
import LbBind.Name.Fromwire
import LbBind.Rdatatype

/-! Parsing a message (`dns_message_parse` in `lib/dns/message.c`). Names and rdatasets are cells of
two pools; a cell that is not linked into the message when its record is done has to be put back.
With best-effort parsing a malformed record is only noted. The decoder of the rdata is a parameter.
-/

namespace LbBind.Message

open Lib Call Function
open Rdatatype (dnskey issingleton opt questiononly rrsig sig tkey tsig)

namespace Rdataclass

def none : ℕ := 254
def any : ℕ := 255

end Rdataclass

def opcodeUpdate : ℕ := 5

def flagQR : ℕ := 0x8000

inductive Sect
  | question
  | answer
  | authority
  | additional
  deriving DecidableEq

structure Rdata where
  rdclass : ℕ
  type : ℕ
  data : List UInt8
  /-- `DNS_RDATA_UPDATE`: no data, in a dynamic update. -/
  update : Bool
  deriving DecidableEq

/-- `dns_rdata_covers`: the first two bytes of a signature. -/
def Rdata.covers (r : Rdata) : ℕ := (r.data.getD 0 0).toNat * 256 + (r.data.getD 1 0).toNat

structure Rdataset where
  cell : ℕ
  rdclass : ℕ
  type : ℕ
  covers : ℕ
  ttl : ℕ
  /-- `DNS_RDATASETATTR_QUESTION`. -/
  question : Bool
  /-- `DNS_RDATASETATTR_TTLADJUSTED`. -/
  ttladjusted : Bool
  rdatas : List Rdata
  deriving DecidableEq

structure Owner where
  cell : ℕ
  name : Wire
  list : List Rdataset
  deriving DecidableEq

structure Parser where
  current : ℕ
  id : ℕ
  flags : ℕ
  rcode : ℕ
  opcode : ℕ
  rdclass : ℕ
  /-- The state is not `DNS_SECTION_ANY`: a class has been established. -/
  classKnown : Bool
  counts : Sect → ℕ
  sections : Sect → List Owner
  opt : Option Rdataset
  tsig : Option (Owner × Rdataset)
  sig0 : Option (Owner × Rdataset)
  sigstart : Option ℕ
  namepool : Allocator
  rdspool : Allocator
  /-- Memory for everything that is not in one of the pools. -/
  mctx : Allocator
  /-- The room left in the current scratch buffer. -/
  scratch : ℕ

def Parser.create (namepool rdspool mctx : Allocator) : Parser where
  current := 0
  id := 0
  flags := 0
  rcode := 0
  opcode := 0
  rdclass := 0
  classKnown := false
  counts _ := 0
  sections _ := []
  opt := none
  tsig := none
  sig0 := none
  sigstart := none
  namepool := namepool
  rdspool := rdspool
  mctx := mctx
  scratch := 512

structure Options where
  preserveOrder : Bool
  bestEffort : Bool
  ignoreTruncation : Bool
  cloneBuffer : Bool
  deriving DecidableEq

def newBlock : Call Parser Result Unit := ⟨fun s =>
  match s.mctx.get with
  | (none, m) => some (.error .noMemory, { s with mctx := m })
  | (some _, m) => some (.ok (), { s with mctx := m })⟩

def scratchpadSize : ℕ := 512

def newbuffer (size : ℕ) : Call Parser Result Unit := do
  newBlock
  modify fun s => { s with scratch := size }

def getName : Call Parser Result ℕ := ⟨fun s =>
  match s.namepool.get with
  | (none, m) => some (.error .noMemory, { s with namepool := m })
  | (some cell, m) => some (.ok cell, { s with namepool := m })⟩

/-- `isc_mempool_put` of a name. Only a cell in use can be put back. -/
def putName (cell : ℕ) : Call Parser Result Unit := do
  let s ← read
  assert (cell ∈ s.namepool.live)
  modify fun s => { s with namepool := s.namepool.put cell }

def getRdataset : Call Parser Result ℕ := ⟨fun s =>
  match s.rdspool.get with
  | (none, m) => some (.error .noMemory, { s with rdspool := m })
  | (some cell, m) => some (.ok cell, { s with rdspool := m })⟩

def putRdataset (cell : ℕ) : Call Parser Result Unit := do
  let s ← read
  assert (cell ∈ s.rdspool.live)
  modify fun s => { s with rdspool := s.rdspool.put cell }

variable (base : Mem) (used : ℕ)
  (decode : (rdclass rdtype current rdatalen available : ℕ) → Except Result (List UInt8))

def getname : ℕ → Call Parser Result Wire
  | 0 => do
    assert False
    fail .failure
  | tries + 1 => do
    let s ← read
    match fromwire base used true false s.current s.scratch with
    | .ok d => do
      modify fun s => { s with
        current := s.current + d.cused, scratch := s.scratch - d.name.ndata.length }
      pure d.name
    | .error .noSpace => do
      newbuffer scratchpadSize
      getname tries
    | .error r => fail r

def takeRdata (rdatalen : ℕ) (data : List UInt8) : Call Parser Result (List UInt8) := do
  modify fun s => { s with current := s.current + rdatalen, scratch := s.scratch - data.length }
  pure data

/-- The later tries of `getrdata`, each with a new buffer. -/
def getrdataRetry (rdclass rdtype rdatalen trysize : ℕ) : Call Parser Result (List UInt8) := do
  newbuffer trysize
  let s ← read
  match decode rdclass rdtype s.current rdatalen s.scratch with
  | .ok data => takeRdata rdatalen data
  | .error .noSpace =>
    if h : trysize = 0 then do
      assert False
      fail .failure
    else if h' : 65535 ≤ trysize then fail .noSpace
    else getrdataRetry rdclass rdtype rdatalen (trysize * 2)
  | .error r => fail r
termination_by 65535 - trysize

def getrdata (rdclass rdtype rdatalen : ℕ) : Call Parser Result (List UInt8) := do
  let s ← read
  assert (s.current + rdatalen ≤ used)
  match decode rdclass rdtype s.current rdatalen s.scratch with
  | .ok data => takeRdata rdatalen data
  | .error .noSpace =>
    getrdataRetry decode rdclass rdtype rdatalen
      (if 2 * rdatalen < scratchpadSize then scratchpadSize else 2 * rdatalen)
  | .error r => fail r

def getuint16 : Call Parser Result ℕ := do
  let s ← read
  assert (s.current + 2 ≤ used)
  modify fun s => { s with current := s.current + 2 }
  pure (base.rd16 s.current)

def getuint32 : Call Parser Result ℕ := do
  let s ← read
  assert (s.current + 4 ≤ used)
  modify fun s => { s with current := s.current + 4 }
  pure (base.rd32 s.current)

variable (options : Options)

/-- `DO_FORMERR` under a condition; the value is `seen_problem`. -/
def formErr (bad seen : Bool) : Call Parser Result Bool := if bad then
    if options.bestEffort then pure true else fail .formErr
  else pure seen

def findname (name : Wire) (section_ : List Owner) : Option Owner :=
  section_.reverse.find? fun o => o.name.equal name

def find (rdclass type covers : ℕ) (list : List Rdataset) : Option Rdataset :=
  list.reverse.find? fun r => r.rdclass = rdclass && r.type = type && r.covers = covers

variable (sect : Sect)

def link (owner : Owner) : Call Parser Result Unit := modify fun s => { s with
    sections := update s.sections sect (s.sections sect ++ [owner]) }

variable (cell : ℕ)

def changeOwner (f : Owner → Owner) : Call Parser Result Unit :=
  modify fun s => { s with
    sections := update s.sections sect
      ((s.sections sect).map fun o => if o.cell = cell then f o else o) }

def readName : Call Parser Result Wire :=
  onError (do newBlock; getname base used 2) (putName cell)

def questionName (name : Wire) (seen : Bool) : Call Parser Result (ℕ × Bool) := do
  let s ← read
  match findname name (s.sections .question) with
  | some o => do
    putName cell
    pure (o.cell, seen)
  | none => do
    let seen ← onError (formErr options (s.sections .question ≠ []) seen) (putName cell)
    link .question ⟨cell, name, []⟩
    pure (cell, seen)

def getquestion (seen : Bool) : Call Parser Result Bool := do
  let cell ← getName
  let name ← readName base used cell
  let (owner, seen) ← questionName options cell name seen
  let s ← read
  if used - s.current < 4 then fail .unexpectedEnd
  else do
    let rdtype ← getuint16 base used
    let rdclass ← getuint16 base used
    let s ← read
    let seen ← (if s.classKnown then formErr options (s.rdclass ≠ rdclass) seen
      else do
        modify fun s => { s with classKnown := true, rdclass := rdclass }
        pure seen)
    let s ← read
    let asked := (s.sections .question).any fun o =>
      o.cell = owner && (find rdclass rdtype 0 o.list).isSome
    let seen ← formErr options asked seen
    newBlock
    let rds ← getRdataset
    changeOwner .question owner fun o =>
      { o with list := o.list ++ [⟨rds, rdclass, rdtype, 0, 0, true, false, []⟩] }
    pure seen

def getquestions : ℕ → Call Parser Result Bool
  | 0 => pure false
  | n + 1 => do
    let seen ← getquestions n
    getquestion base used options seen

def update (rdclass : ℕ) : Bool := match sect with
  | .answer => rdclass = Rdataclass.any || rdclass = Rdataclass.none
  | .authority => rdclass = Rdataclass.any
  | _ => false

structure Rec where
  recstart : ℕ
  name : Wire
  rdtype : ℕ
  rdclass : ℕ
  ttl : ℕ
  rdata : Rdata
  covers : ℕ
  issigzero : Bool
  deriving DecidableEq

variable (r : Rec)

def Rec.isMeta : Bool :=
  r.rdtype = tsig || r.rdtype = opt || r.issigzero

variable (s : Parser)

def wrongClass (rdtype rdclass : ℕ) : Bool :=
  s.opcode ≠ opcodeUpdate && rdtype ≠ tsig && rdtype ≠ opt &&
    rdtype ≠ dnskey && rdtype ≠ sig && rdtype ≠ tkey &&
    s.rdclass ≠ Rdataclass.any && s.rdclass ≠ rdclass

def rootname : Wire := wire [Label.root]

def misplaced (sect : Sect) (count : ℕ) (name : Wire) (rdtype rdclass : ℕ) : Bool :=
  if rdtype = tsig then
    sect ≠ .additional || rdclass ≠ Rdataclass.any || count + 1 ≠ s.counts sect
  else if rdtype = opt then
    !Wire.equal rootname name || s.opt.isSome
  else if rdtype = tkey then
    sect ≠ (if s.flags &&& flagQR = 0 then .additional else .answer) && sect ≠ .answer
  else false

def readRdata (rdclass rdtype rdatalen : ℕ) : Call Parser Result Rdata := do
  newBlock
  let s ← read
  if s.opcode = opcodeUpdate && update sect rdclass then
    if rdatalen ≠ 0 then fail .formErr
    else pure ⟨rdclass, rdtype, [], true⟩
  else do
    let data ← getrdata used decode
      (if rdclass = Rdataclass.none && s.opcode = opcodeUpdate && sect = .authority then s.rdclass
        else rdclass) rdtype rdatalen
    pure ⟨rdclass, rdtype, data, false⟩

def readCovers (count recstart rdtype : ℕ) (rdata : Rdata) (seen : Bool) :
    Call Parser Result (ℕ × Bool × Bool) := do
  if rdtype = rrsig && !rdata.update then do
    let seen ← formErr options (rdata.covers = 0) seen
    pure (rdata.covers, false, seen)
  else if rdtype = sig && !rdata.update then
    if rdata.covers = 0 then do
      let s ← read
      let seen ← formErr options (sect ≠ .additional || count + 1 ≠ s.counts sect) seen
      modify fun s => { s with sigstart := some recstart }
      pure (0, true, seen)
    else pure (rdata.covers, false, seen)
  else pure (0, false, seen)

def establishClass (rdtype rdclass : ℕ) (s : Parser) : Parser :=
  if !s.classKnown && rdtype ≠ opt && rdtype ≠ tsig &&
      rdtype ≠ tkey then { s with rdclass := rdclass, classKnown := true }
  else s

def markTsig (rdtype recstart : ℕ) (s : Parser) : Parser :=
  if rdtype = tsig then { s with sigstart := some recstart } else s

variable (count : ℕ) (seen : Bool)

def readOwner : Call Parser Result (Wire × ℕ × ℕ × Bool) := do
  let s ← read
  let recstart := s.current
  newBlock
  let name ← getname base used 2
  let s ← read
  if used - s.current < 10 then fail .unexpectedEnd
  else do
    let rdtype ← getuint16 base used
    let rdclass ← getuint16 base used
    modify (establishClass rdtype rdclass)
    let s ← read
    let seen ← formErr options (wrongClass s rdtype rdclass) seen
    let seen ← formErr options (misplaced s sect count name rdtype rdclass) seen
    modify (markTsig rdtype recstart)
    pure (name, rdtype, rdclass, seen)

/-- A record is read as far as its rdata and checked; `seen_problem` is returned as well. -/
def readRecord : Call Parser Result (Rec × Bool) := do
  let s ← read
  let recstart := s.current
  let (name, rdtype, rdclass, seen) ← readOwner base used options sect count seen
  let ttl ← getuint32 base used
  let rdatalen ← getuint16 base used
  let s ← read
  if used - s.current < rdatalen then fail .unexpectedEnd
  else do
    let rdata ← readRdata used decode sect rdclass rdtype rdatalen
    let (covers, issigzero, seen) ← readCovers options sect count recstart rdtype rdata seen
    pure (⟨recstart, name, rdtype, rdclass, ttl, rdata, covers, issigzero⟩, seen)

def appends (r : Rec) : Bool :=
  options.preserveOrder || s.opcode = opcodeUpdate || r.isMeta

/-- The name of a record: linked, found in the section, or (none) still to be put away. -/
def place : Call Parser Result (Option ℕ) := do
  let s ← read
  if appends options s r then
    if r.isMeta then pure none
    else do
      link sect ⟨cell, r.name, []⟩
      pure (some cell)
  else
    match findname r.name (s.sections sect) with
    | some o => do
      putName cell
      pure (some o.cell)
    | none => do
      link sect ⟨cell, r.name, []⟩
      pure (some cell)

def findRdataset (owner : Option ℕ) (r : Rec) (seen : Bool) :
    Call Parser Result (Option ℕ × Bool) := do
  let s ← read
  if appends options s r then pure (none, seen)
  else do
    let seen ← formErr options (questiononly r.rdtype) seen
    let found := ((s.sections sect).filter fun o => some o.cell = owner).findSome? fun o =>
      find r.rdclass r.rdtype r.covers o.list
    let seen ← formErr options (found.isSome && issingleton r.rdtype) seen
    pure (found.map Rdataset.cell, seen)

def Rdataset.add (rds : Rdataset) (ttl : ℕ) (rdata : Rdata) : Rdataset := { rds with
    ttl := min ttl rds.ttl
    ttladjusted := rds.ttladjusted || ttl ≠ rds.ttl
    rdatas := rds.rdatas ++ [rdata] }

def newRdataset : Call Parser Result Rdataset := do
  let cell ← getRdataset
  onError newBlock (putRdataset cell)
  pure ⟨cell, r.rdclass, r.rdtype, r.covers, r.ttl, false, false, []⟩

/-- A name and an rdataset that are not linked into a section. They become the OPT, SIG(0)
or TSIG of the message; what is left is put back if there was a problem in the section. -/
def keep (rds : Rdataset) (seen : Bool) : Call Parser Result Unit := do
  let s ← read
  if r.rdtype = opt && s.opt.isNone then do
    modify fun s => { s with
      opt := some rds
      rcode := s.rcode ||| ((rds.ttl &&& 0xff000000) >>> 20) }
    putName cell
  else if r.issigzero && s.sig0.isNone then
    modify fun s => { s with sig0 := some (⟨cell, r.name, []⟩, rds) }
  else if r.rdtype = tsig && s.tsig.isNone then
    modify fun s => { s with tsig := some (⟨cell, r.name, []⟩, rds) }
  else if seen then do
    putName cell
    putRdataset rds.cell
  else assert False

def file : Call Parser Result Bool := do
  let owner ← place options sect cell r
  let (found, seen) ← findRdataset options sect owner r seen
  match owner, found with
  | none, _ => do
    let rds ← onError (newRdataset r) (putName cell)
    keep cell r (rds.add r.ttl r.rdata) seen
    pure seen
  | some owner, none => do
    let rds ← newRdataset r
    changeOwner sect owner fun o => { o with list := o.list ++ [rds.add r.ttl r.rdata] }
    pure seen
  | some owner, some found => do
    changeOwner sect owner fun o => { o with
      list := o.list.map fun rds => if rds.cell = found then rds.add r.ttl r.rdata else rds }
    pure seen

def getrecord : Call Parser Result Bool := do
  let cell ← getName
  let (r, seen) ← onError (readRecord base used decode options sect count seen) (putName cell)
  file options sect cell r seen

def getsection (sect : Sect) : ℕ → Call Parser Result Bool
  | 0 => pure false
  | n + 1 => do
    let seen ← getsection sect n
    getrecord base used decode options sect n seen

def headerlen : ℕ := 12

def getheader : Call Parser Result Unit := do
  let id ← getuint16 base used
  let tmpflags ← getuint16 base used
  let qd ← getuint16 base used
  let an ← getuint16 base used
  let ns ← getuint16 base used
  let ar ← getuint16 base used
  modify fun s => { s with
    id := id
    opcode := (tmpflags &&& 0x7800) >>> 11
    rcode := tmpflags &&& 0x000f
    flags := tmpflags &&& 0x8ff0
    counts := fun
      | .question => qd
      | .answer => an
      | .authority => ns
      | .additional => ar }

/-- The four sections, one after another; the value is `seen_problem`. -/
def getsections : Call Parser Result Bool := do
  let s ← read
  let problem ← getquestions base used options (s.counts .question)
  let p ← getsection base used decode options .answer (s.counts .answer)
  let q ← getsection base used decode options .authority (s.counts .authority)
  let r ← getsection base used decode options .additional (s.counts .additional)
  pure (problem || p || q || r)

/-- The end of a parse. A truncated message is no error if truncation is ignored; a copy of
the source may be kept. -/
def finish (r : Except Result Bool) : Call Parser Result Unit := match r with
  | .error .unexpectedEnd =>
    if options.ignoreTruncation then do
      if options.cloneBuffer then newBlock else pure ()
      fail .recoverable
    else fail .unexpectedEnd
  | .error e => fail e
  | .ok seen => do
    if options.cloneBuffer then newBlock else pure ()
    if seen then fail .recoverable else pure ()

def parse : Call Parser Result Unit := do
  let s ← read
  if used - s.current < headerlen then fail .unexpectedEnd
  else do
    getheader base used
    ⟨fun s =>
      match (getsections base used decode options).run s with
      | none => none
      | some (r, s') => (finish options r).run s'⟩

end LbBind.Message

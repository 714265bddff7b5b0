import LbBind.Compress.Context
import LbBind.Lib.Qsort
import LbBind.Message.Parse

/-! Rendering a message (`dns_message_renderbegin` to `dns_message_renderend` in
`lib/dns/message.c`, `towiresorted` in `lib/dns/rdataset.c`, `dns_ncache_towire` in
`lib/dns/ncache.c`). Space that is wanted later is reserved by making the buffer shorter. Lengths
are of 32 bits and may wrap. How the rdata of a type is cut into names and other bytes is a
parameter. -/

namespace LbBind.Message

open Lib Call Compress
open Buffer (available)

inductive Piece
  | name (name : Name) (nocompress global14 : Bool)
  | bytes (bs : List UInt8)

structure Negative where
  name : Name
  type : ℕ
  rdatas : List Rdata

structure RRset where
  type : ℕ
  rdclass : ℕ
  covers : ℕ
  ttl : ℕ
  rdatas : List Rdata
  question : Bool
  /-- `DNS_RDATASETATTR_NEGATIVE`, with what the cache knows. -/
  negative : Option (List Negative)
  fixedOrder : Bool
  randomize : Bool
  requiredGlue : Bool
  rendered : Bool
  optout : Bool
  /-- The trust is `dns_trust_secure`. -/
  secure : Bool
  /-- The counter of the cyclic order. -/
  count : ℕ

structure RName where
  name : Name
  nocompress : Bool
  list : List RRset

structure Target where
  cctx : Context
  buffer : Buffer
  mctx : Allocator
  /-- How many random numbers have been drawn. -/
  drawn : ℕ

structure Render where
  id : ℕ
  opcode : ℕ
  rcode : ℕ
  flags : ℕ
  counts : Sect → ℕ
  sections : Sect → List RName
  reserved : ℕ
  optReserved : ℕ
  sigReserved : ℕ
  opt : Option RRset
  tsigkey : Bool
  sig0key : Bool
  tsig : Option (Name × RRset)
  sig0 : Option RRset
  /-- The message has a buffer. -/
  started : Bool
  target : Target

structure RenderOptions where
  ordered : Bool
  partially : Bool
  omitDnssec : Bool
  preferA : Bool
  preferAaaa : Bool
  deriving DecidableEq

/-- What rendering depends on: the parts of an rdata (none where it is copied as it is), the
order of the message, the random numbers, the sorting routine, and the TSIG and SIG(0) that are
made for a message. -/
structure Renderer where
  pieces : Rdata → Option (List Piece)
  order : Option (Rdata → ℤ)
  random : ℕ → ℕ
  qsort : Qsort (ℤ × Rdata)
  tsigSign : Render → Except Result (Name × RRset)
  signmessage : Render → Except Result RRset

def put (bs : List UInt8) : Call Target Result Unit :=
  modify fun s => { s with buffer := s.buffer.putmem bs }

def addUsed (n : ℕ) : Call Target Result Unit :=
  modify fun s => { s with buffer := { s.buffer with used := s.buffer.used + n } }

def nameTowire (name : Name) (nocompress global14 : Bool) : Call Target Result Unit := ⟨fun s =>
  match towire name nocompress (s.cctx.setmethods global14) s.buffer with
  | none => none
  | some (.success, cctx, target) => some (.ok (), { s with cctx := cctx, buffer := target })
  | some (r, cctx, target) => some (.error r, { s with cctx := cctx, buffer := target })⟩

def compressRollback (offset : ℕ) : Call Target Result Unit := ⟨fun s =>
  match s.cctx.rollback (offset % 2 ^ 16) with
  | none => none
  | some cctx => some (.ok (), { s with cctx := cctx })⟩

/-- The buffer and the compression table are put back to an earlier state of the buffer. The
bytes behind it stay as they are. -/
def cutBack (saved : Buffer) : Call Target Result Unit := do
  assert (saved.used < 65536)
  compressRollback saved.used
  modify fun s => { s with buffer := { saved with base := s.buffer.base } }

def putPiece : Piece → Call Target Result Unit
  | .name name nocompress global14 => nameTowire name nocompress global14
  | .bytes bs => do
    let s ← read
    if available s.buffer < bs.length then fail .noSpace else put bs

def putPieces : List Piece → Call Target Result Unit
  | [] => pure ()
  | p :: ps => do
    putPiece p
    putPieces ps

section
variable (env : Renderer)

def rdataTowire (rdata : Rdata) : Call Target Result Unit :=
  if rdata.update then assert (rdata.data = [])
  else
    match env.pieces rdata with
    | none => putPiece (.bytes rdata.data)
    | some ps => do
      let s ← read
      onError (putPieces ps) (cutBack s.buffer)

variable (owner : Name) (nocompress : Bool)

def towireRecord (type rdclass ttl : ℕ) (rdata : Rdata) :
    Call Target Result Unit := do
  nameTowire owner nocompress true
  let s ← read
  if available s.buffer < 10 then fail .noSpace
  else do
    put (be16 type)
    put (be16 rdclass)
    put (be32 ttl)
    let rdlen ← read
    addUsed 2
    rdataTowire env rdata
    let s ← read
    assert (rdlen.buffer.used + 2 ≤ s.buffer.used ∧ s.buffer.used - rdlen.buffer.used - 2 < 65536)
    modify fun s => { s with
      buffer := { s.buffer with
        base := s.buffer.base.put rdlen.buffer.used
          (be16 (s.buffer.used - rdlen.buffer.used - 2)) } }

def towireQuestion (type rdclass : ℕ) :
    Call Target Result Unit := do
  nameTowire owner nocompress true
  let s ← read
  if available s.buffer < 4 then fail .noSpace
  else do
    put (be16 type)
    put (be16 rdclass)

structure Failed where
  result : Result
  added : ℕ
  rrbuffer : Buffer

def towireLoop (owner : Name) (nocompress : Bool) (rds : RRset) :
    ℕ → List (Option Rdata) → Call Target Failed Unit
  | _, [] => pure ()
  | added, item :: rest => do
    let s ← read
    mapError (fun r => ⟨r, added, s.buffer⟩)
      (match item with
      | none => towireQuestion owner nocompress rds.type rds.rdclass
      | some rdata => towireRecord env owner nocompress rds.type rds.rdclass rds.ttl rdata)
    towireLoop owner nocompress rds (added + 1) rest

/-- One step of the random order: the first element changes places with a later one. -/
def swapHead (x : Rdata) (xs : List Rdata) (choice : ℕ) : Rdata × List Rdata := match choice with
  | 0 => (x, xs)
  | c + 1 => (xs.getD c x, xs.set c x)

def shuffleLoop : ℕ → ℕ → List Rdata → List Rdata
  | 0, _, l => l
  | _, _, [] => []
  | k + 1, drawn, x :: xs =>
    let (y, ys) := swapHead x xs (env.random drawn % (xs.length + 1))
    y :: shuffleLoop k (drawn + 1) ys

def towireCompare (a b : ℤ × Rdata) : ℤ := a.1 - b.1

variable (rds : RRset)

def baseOrder : Call Target Result (List Rdata) := do
  let s ← read
  let count := rds.rdatas.length
  if rds.fixedOrder then pure rds.rdatas
  else if rds.randomize then do
    modify fun s => { s with drawn := s.drawn + count }
    pure (shuffleLoop env count s.drawn rds.rdatas)
  else if rds.count = 2 ^ 32 - 1 then do
    modify fun s => { s with drawn := s.drawn + 1 }
    pure (rds.rdatas.rotate (env.random s.drawn % 2 ^ 32 % count))
  else pure (rds.rdatas.rotate (rds.count % count))

def arrange (order : Option (Rdata → ℤ)) (rds : RRset) : Call Target Result (List Rdata) := do
  let l ← baseOrder env rds
  match order with
  | none => pure l
  | some f => pure ((env.qsort.sort towireCompare (l.map fun r => (f r, r))).map Prod.snd)

def maxShuffle : ℕ := 32

/-- Memory that `towiresorted` takes for the time of the call; a refusal is no error. -/
def takeCell : Call Target Result (Option ℕ) := ⟨fun s =>
  some (.ok s.mctx.get.1, { s with mctx := s.mctx.get.2 })⟩

def freeCell (cell : Option ℕ) : Call Target Result Unit :=
  modify fun s => { s with mctx := cell.elim s.mctx s.mctx.put }

def ncacheLoop (rds : RRset) : List (Negative × Rdata) → Call Target Result Unit
  | [] => pure ()
  | (e, rdata) :: rest => do
    towireRecord env e.name false e.type rds.rdclass rds.ttl rdata
    ncacheLoop rds rest

def ncacheTowire (entries : List Negative) (omitDnssec : Bool) :
    Call Target Result (Result × ℕ) := do
  let saved ← read
  let items := (entries.filter fun e => !(omitDnssec && Rdatatype.isdnssec e.type)).flatMap fun e =>
    e.rdatas.map fun r => (e, r)
  let r ← attempt (ncacheLoop env rds items)
  match r with
  | .ok _ => pure (.success, items.length)
  | .error e => do
    cutBack saved.buffer
    pure (e, 0)

def towireAll (partially : Bool)
    (items : List (Option Rdata)) : Call Target Result (Result × ℕ) := do
  let saved ← read
  let r ← attempt (towireLoop env owner nocompress rds 0 items)
  match r with
  | .ok _ => pure (.success, items.length)
  | .error e =>
    if partially && e.result = .noSpace then do
      cutBack e.rrbuffer
      pure (.noSpace, e.added)
    else do
      cutBack saved.buffer
      pure (e.result, 0)

def towiresorted (owner : Name) (nocompress : Bool) (order : Option (Rdata → ℤ))
    (partially omitDnssec : Bool) : Call Target Result (Result × ℕ) :=
  if rds.question then do
    assert (rds.rdatas = [])
    towireAll env owner nocompress rds partially [none]
  else
    match rds.negative with
    | some entries => ncacheTowire env rds entries omitDnssec
    | none =>
      let count := rds.rdatas.length
      if count = 0 then pure (.success, 0)
      else if 1 < count && (!rds.fixedOrder || order.isSome) && rds.type ≠ Rdatatype.rrsig then
        if maxShuffle < count then do
          let shuffled ← takeCell
          let sorted ← takeCell
          let items ← (if shuffled.isSome && sorted.isSome then arrange env order rds
            else pure rds.rdatas)
          let r ← towireAll env owner nocompress rds partially (items.map some)
          freeCell sorted
          freeCell shuffled
          pure r
        else do
          let items ← arrange env order rds
          towireAll env owner nocompress rds partially (items.map some)
      else towireAll env owner nocompress rds partially (rds.rdatas.map some)

end

def onTarget {ε α : Type} (c : Call Target ε α) : Call Render ε α := ⟨fun s =>
  match c.run s.target with
  | none => none
  | some (r, t) => some (r, { s with target := t })⟩

def renderbegin (cctx : Context) (buffer : Buffer) : Call Render Result Unit := do
  let s ← read
  assert (s.started = false)
  modify fun s => { s with target := { s.target with cctx := cctx, buffer := { buffer with used := 0 } } }
  let s ← read
  if available s.target.buffer < headerlen then fail .noSpace
  else if available s.target.buffer < s.reserved then fail .noSpace
  else do
    onTarget (addUsed headerlen)
    modify fun s => { s with started := true }

def renderrelease (space : ℕ) : Call Render Result Unit := do
  let s ← read
  assert (space ≤ s.reserved)
  modify fun s => { s with reserved := s.reserved - space }

def renderreserve (space : ℕ) : Call Render Result Unit := do
  let s ← read
  if s.started && available s.target.buffer < (space + s.reserved) % 2 ^ 32 then fail .noSpace
  else modify fun s => { s with reserved := (s.reserved + space) % 2 ^ 32 }

def classIN : ℕ := 1

def wrongPriority (rds : RRset) (pass preferredGlue : ℕ) : Bool := rds.rdclass = classIN &&
    (if rds.type = 1 || rds.type = 28 then if preferredGlue = rds.type then 4 else 3
      else if rds.type = Rdatatype.rrsig || rds.type = Rdatatype.dnskey then 2 else 1) < pass

def flagAD : ℕ := 0x0020

def flagTC : ℕ := 0x0200

def passes (sect : Sect) (options : RenderOptions) : ℕ × ℕ :=
  if sect = .additional && !options.ordered then
    if options.preferA then (4, 1) else if options.preferAaaa then (4, 28) else (3, 0)
  else (1, 0)

def Render.rdatasetAt (s : Render) (sect : Sect) (place : ℕ × ℕ) : Option (RName × RRset) :=
  (s.sections sect)[place.1]?.bind fun n => (n.list[place.2]?).map fun rds => (n, rds)

def Render.places (s : Render) (sect : Sect) : List (ℕ × ℕ) :=
  (s.sections sect).zipIdx.flatMap fun (n, i) => (List.range n.list.length).map fun j => (i, j)

def markRendered (sect : Sect) (place : ℕ × ℕ) (s : Render) : Render := { s with
    sections := Function.update s.sections sect
      ((s.sections sect).modify place.1 fun n =>
        { n with list := n.list.modify place.2 fun rds => { rds with rendered := true } }) }

variable (env : Renderer) (sect : Sect)

def addCount (count : ℕ) : Call Render Result Unit :=
  modify fun s => { s with counts := Function.update s.counts sect (s.counts sect + count) }

def renderRdataset (n : RName) (rds : RRset) (partially omitDnssec : Bool) :
    Call Render Result Unit := do
  let st ← read
  let (r, count) ← onTarget
    (towiresorted env rds n.name n.nocompress env.order partially omitDnssec)
  addCount sect count
  if partially && r = .noSpace then fail .noSpace
  else if r ≠ .success then do
    onTarget (cutBack st.target.buffer)
    fail r
  else pure ()

def renderGlue (partially omitDnssec : Bool) : Call Render Result Unit := do
  let s ← read
  match s.rdatasetAt sect (0, 0) with
  | none => pure ()
  | some (n, rds) =>
    if rds.requiredGlue && !rds.rendered then do
      let r ← attempt (renderRdataset env sect n rds partially omitDnssec)
      match r with
      | .ok _ => modify (markRendered sect (0, 0))
      | .error e => do
        if e = .noSpace then modify fun s => { s with flags := s.flags ||| flagTC } else pure ()
        fail e
    else pure ()

variable (options : RenderOptions)

def renderPlace (partially : Bool) (pass preferredGlue : ℕ)
    (place : ℕ × ℕ) : Call Render Result Unit := do
  let s ← read
  match s.rdatasetAt sect place with
  | none => pure ()
  | some (n, rds) =>
    if rds.rendered then pure ()
    else if !options.ordered && sect = .additional && wrongPriority rds pass preferredGlue then pure ()
    else do
      renderRdataset env sect n rds partially options.omitDnssec
      if !rds.secure && (sect = .answer || sect = .authority) || rds.optout then
        modify fun s => { s with flags := s.flags &&& (2 ^ 32 - 1 - flagAD) }
      else pure ()
      modify (markRendered sect place)

def renderPlaces (sect : Sect) (options : RenderOptions) (partially : Bool)
    (pass preferredGlue : ℕ) : List (ℕ × ℕ) → Call Render Result Unit
  | [] => pure ()
  | place :: rest => do
    renderPlace env sect options partially pass preferredGlue place
    renderPlaces sect options partially pass preferredGlue rest

def renderPasses (sect : Sect) (options : RenderOptions) (partially : Bool) (preferredGlue : ℕ) :
    ℕ → Call Render Result Unit
  | 0 => pure ()
  | pass + 1 => do
    let s ← read
    renderPlaces env sect options partially (pass + 1) preferredGlue (s.places sect)
    renderPasses sect options partially preferredGlue pass

def changeLength (f : ℕ → ℕ) (s : Render) : Render := { s with
    target := { s.target with
      buffer := { s.target.buffer with length := f s.target.buffer.length % 2 ^ 32 } } }

def rendersection : Call Render Result Unit := do
  let s ← read
  assert (s.started)
  let partially := s.reserved = 0 && options.partially
  modify (changeLength fun n => n + (2 ^ 32 - s.reserved))
  let r ← attempt (do
    renderGlue env sect partially options.omitDnssec
    renderPasses env sect options partially (passes sect options).2 (passes sect options).1)
  modify (changeLength fun n => n + s.reserved)
  match r with
  | .ok _ => pure ()
  | .error e => fail e

def Render.header (s : Render) : List UInt8 := be16 s.id ++
    be16 ((s.opcode <<< 11) &&& 0x7800 ||| s.rcode &&& 0x000f ||| s.flags &&& 0x8ff0) ++
    be16 (s.counts .question) ++ be16 (s.counts .answer) ++ be16 (s.counts .authority) ++
    be16 (s.counts .additional)

/-- `dns_message_renderheader`, on the used region of the buffer. -/
def renderheader : Call Render Result Unit := do
  let s ← read
  assert (headerlen ≤ s.target.buffer.used)
  assert (s.counts .question < 65536 ∧ s.counts .answer < 65536 ∧ s.counts .authority < 65536 ∧
    s.counts .additional < 65536)
  modify fun s => { s with
    target := { s.target with
      buffer := { s.target.buffer with base := s.target.buffer.base.put 0 s.header } } }

def renderExtra (owner : Name) (rds : RRset) : Call Render Result Unit := do
  let (r, count) ← onTarget (towiresorted env rds owner false none false false)
  addCount .additional count
  if r ≠ .success then fail r else pure ()

/-- `msgresetnames` from the answer section on, and `dns_message_renderreset`. -/
def renderreset (s : Render) : Render := { s with
    counts := fun _ => 0
    sections := fun sect =>
      if sect = .question then
        (s.sections sect).map fun n =>
          { n with list := n.list.map fun rds => { rds with rendered := false } }
      else []
    tsig := none
    sig0 := none }

def extendRcode (ttl rcode : ℕ) : ℕ := (ttl &&& 0x00ffffff) ||| ((rcode <<< 20) &&& 0xff000000)

def renderOpt : Call Render Result Unit := do
  let s ← read
  match s.opt with
  | none => pure ()
  | some opt => do
    renderrelease s.optReserved
    modify fun s => { s with
      optReserved := 0
      opt := some { opt with ttl := extendRcode opt.ttl s.rcode } }
    renderExtra env Name.root { opt with ttl := extendRcode opt.ttl s.rcode }

/-- Before a signature is added to a truncated message everything but the question is taken
out of it; and the question as well if it does not fit. -/
def renderTruncated : Call Render Result Unit := do
  let s ← read
  if (s.tsigkey || s.sig0key) && s.flags &&& flagTC ≠ 0 then do
    modify renderreset
    modify fun s => { s with
      target := { s.target with buffer := { s.target.buffer with used := headerlen } } }
    onTarget (compressRollback 0)
    let r ← attempt (rendersection env .question ⟨false, false, false, false, false⟩)
    match r with
    | .ok _ => pure ()
    | .error .noSpace => pure ()
    | .error e => fail e
  else pure ()

def renderTsig : Call Render Result Unit := do
  let s ← read
  if s.tsigkey then do
    renderrelease s.sigReserved
    modify fun s => { s with sigReserved := 0 }
    let s ← read
    match env.tsigSign s with
    | .error e => fail e
    | .ok (owner, tsig) => do
      modify fun s => { s with tsig := some (owner, tsig) }
      renderExtra env owner tsig
  else pure ()

def renderSig0 : Call Render Result Unit := do
  let s ← read
  if s.sig0key then do
    renderrelease s.sigReserved
    modify fun s => { s with sigReserved := 0 }
    let s ← read
    match env.signmessage s with
    | .error e => fail e
    | .ok sig0 => do
      modify fun s => { s with sig0 := some sig0 }
      renderExtra env Name.root sig0
  else pure ()

def renderend : Call Render Result Unit := do
  let s ← read
  assert (s.started)
  if s.rcode &&& 0xfff0 ≠ 0 && s.opt.isNone then fail .formErr
  else do
    renderOpt env
    renderTruncated env
    renderTsig env
    renderSig0 env
    renderheader
    modify fun s => { s with started := false }

end LbBind.Message

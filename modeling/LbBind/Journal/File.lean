import LbBind.Lib.Call
import LbBind.Lib.Disk
import LbBind.Name.Fromwire

/-! The journal of a zone (`lib/dns/journal.c`): its file, how a transaction is written and
committed, and how the records between two serial numbers are read back. Memory is taken to be there
and input and output to succeed; only the end of the file can stop a read. -/

namespace LbBind.Journal

open Lib Call

/-- `DNS_SERIAL_GT`: the difference in 32 bits, as a signed number, is positive. -/
def serialGT (a b : ℕ) : Bool :=
  0 < (a + (2 ^ 32 - b)) % 2 ^ 32 && (a + (2 ^ 32 - b)) % 2 ^ 32 < 2 ^ 31

def serialGE (a b : ℕ) : Bool := (a + (2 ^ 32 - b)) % 2 ^ 32 < 2 ^ 31

structure Pos where
  serial : ℕ
  offset : ℕ
  deriving DecidableEq

def Pos.valid (p : Pos) : Bool := p.offset ≠ 0

def Pos.invalid : Pos := ⟨0, 0⟩

def Pos.encode (p : Pos) : List UInt8 := be32 p.serial ++ be32 p.offset

structure Header where
  format : List UInt8
  start : Pos
  stop : Pos
  indexSize : ℕ
  sourceserial : ℕ
  serialset : Bool
  deriving DecidableEq

def Header.empty (h : Header) : Bool := h.start.offset = h.stop.offset

def headerSize : ℕ := 64

/-- The format of a journal file: `;BIND LOG V9` and a newline, padded with zeros. -/
def journalFormat : List UInt8 :=
  [0x3b, 0x42, 0x49, 0x4e, 0x44, 0x20, 0x4c, 0x4f, 0x47, 0x20, 0x56, 0x39, 0x0a, 0, 0, 0]

def Header.encode (h : Header) : List UInt8 :=
  h.format ++ h.start.encode ++ h.stop.encode ++ be32 h.indexSize ++ be32 h.sourceserial ++
    (if h.serialset then 1 else 0) :: List.replicate 23 0

/-- `journal_pos_decode`, of the bytes at an offset of the file. -/
def Pos.decode (m : Mem) (p : ℕ) : Pos := ⟨m.rd32 p, m.rd32 (p + 4)⟩

def Header.decode (m : Mem) : Header where
  format := m.slice 0 16
  start := .decode m 16
  stop := .decode m 24
  indexSize := m.rd32 32
  sourceserial := m.rd32 36
  serialset := m 40 % 2 = 1

structure RR where
  name : Wire
  type : ℕ
  rdclass : ℕ
  ttl : ℕ
  data : List UInt8
  deriving DecidableEq

def soaType : ℕ := 6

variable (r : RR)

def RR.isSoa : Bool := r.type = soaType

def RR.serial : ℕ := (asMem r.data).rd32 (r.data.length - 20)

def RR.size : ℕ := r.name.ndata.length + 10 + r.data.length

def RR.encode : List UInt8 :=
  be32 r.size ++ r.name.ndata ++ be16 r.type ++ be16 r.rdclass ++ be32 r.ttl ++
    be16 r.data.length ++ r.data

inductive State
  | reading
  | writing
  | transaction
  | inline
  deriving DecidableEq

structure Iter where
  bpos : Pos
  epos : Pos
  currentSerial : ℕ
  xsize : ℕ
  xpos : ℕ
  target : ℕ

/-- `dns_journal_t`. The states that the disk went through are remembered. -/
structure Handle where
  disk : Disk
  past : List Disk
  offset : ℕ
  header : Header
  index : List Pos
  state : State
  nSoa : ℕ
  pos0 : Pos
  pos1 : Pos
  iter : Iter

abbrev Routine (α : Type) := Call Handle Result α

def seek (offset : ℕ) : Routine Unit := modify fun j => { j with offset := offset }

/-- `journal_read`; the end of the file is `ISC_R_NOMORE`. -/
def readBytes (n : ℕ) : Routine (List UInt8) := do
  let j ← read
  if j.offset + n ≤ j.disk.view.size then do
    modify fun j => { j with offset := j.offset + n }
    pure (j.disk.view.bytes.slice j.offset n)
  else fail .noMore

def writeBytes (bs : List UInt8) : Routine Unit := modify fun j => { j with
    disk := j.disk.write ⟨j.offset, bs⟩
    past := j.disk :: j.past
    offset := j.offset + bs.length }

def fsync : Routine Unit :=
  modify fun j => { j with disk := j.disk.sync, past := j.disk :: j.past }

def xhdrSize : ℕ := 12

structure Xhdr where
  size : ℕ
  serial0 : ℕ
  serial1 : ℕ
  deriving DecidableEq

def Xhdr.encode (x : Xhdr) : List UInt8 := be32 x.size ++ be32 x.serial0 ++ be32 x.serial1

def Xhdr.decode (bs : List UInt8) : Xhdr :=
  ⟨(asMem bs).rd32 0, (asMem bs).rd32 4, (asMem bs).rd32 8⟩

def readXhdr : Routine Xhdr := do
  let bs ← readBytes xhdrSize
  pure (.decode bs)

def posSize : ℕ := 8

def newJournal : List UInt8 :=
  (⟨journalFormat, .invalid, .invalid, 56, 0, false⟩ : Header).encode ++
    List.replicate (56 * posSize) 0

def journalOpen (disk : Disk) (write : Bool) : Except Result Handle :=
  let f := disk.view
  let header := Header.decode f.bytes
  if f.size < headerSize then .error .noMore
  else if header.format ≠ journalFormat then .error .unexpected
  else if f.size < headerSize + header.indexSize * posSize then .error .noMore
  else .ok {
    disk := disk
    past := []
    offset := 0
    header := header
    index := (List.range header.indexSize).map fun i => .decode f.bytes (headerSize + i * posSize)
    state := if write then .writing else .reading
    nSoa := 0
    pos0 := .invalid
    pos1 := .invalid
    iter := ⟨.invalid, .invalid, 0, 0, 0, 0⟩ }

/-- `journal_next`. Offsets are wide enough for the sum not to wrap. -/
def journalNext (pos : Pos) : Routine Pos := do
  seek pos.offset
  let j ← read
  if pos.serial = j.header.stop.serial then fail .noMore
  else do
    let xhdr ← readXhdr
    if xhdr.serial0 ≠ pos.serial then fail .unexpected
    else pure ⟨xhdr.serial1, pos.offset + xhdrSize + xhdr.size⟩

def indexFind (index : List Pos) (serial : ℕ) (bestGuess : Pos) : Pos := index.foldl (fun best e =>
    if e.valid && serialGE serial e.serial && serialGT e.serial best.serial then e else best) bestGuess

def evens : List Pos → List Pos
  | [] => []
  | [e] => [e]
  | e :: _ :: rest => e :: evens rest

/-- `index_add`. If there is no vacant entry every other one is dropped. -/
def indexAdd (pos : Pos) : Routine Unit := do
  let j ← read
  let n := j.index.length
  if n = 0 then pure ()
  else do
    let i := j.index.findIdx fun e => !e.valid
    if i < n then modify fun j => { j with index := j.index.set i pos }
    else do
      let kept := evens j.index
      assert (kept.length < n)
      modify fun j => { j with
        index := (kept ++ List.replicate (n - kept.length) Pos.invalid).set kept.length pos }

def indexInvalidate (serial : ℕ) (index : List Pos) : List Pos :=
  index.map fun e => if serialGT serial e.serial then e else .invalid

def findLoop (serial : ℕ) : ℕ → Pos → Routine Pos
  | 0, _ => do
    assert False
    fail .failure
  | rounds + 1, pos =>
    if pos.serial = serial then pure pos
    else if serialGT pos.serial serial then fail .notFound
    else do
      let pos ← journalNext pos
      findLoop serial rounds pos

/-- `journal_find`. Each round passes a transaction header in the file. -/
def journalFind (serial : ℕ) : Routine Pos := do
  let j ← read
  if serialGT j.header.start.serial serial then fail .range
  else if serialGT serial j.header.stop.serial then fail .range
  else if serial = j.header.stop.serial then pure j.header.stop
  else findLoop serial (j.disk.view.size + 1) (indexFind j.index serial j.header.start)

def beginTransaction : Routine Unit := do
  let j ← read
  assert (j.state = .writing ∨ j.state = .inline)
  let offset := if j.header.empty then headerSize + j.header.indexSize * posSize
    else j.header.stop.offset
  modify fun j => { j with
    pos0 := { j.pos0 with offset := offset }
    pos1 := { j.pos1 with offset := offset }
    nSoa := 0 }
  seek offset
  writeBytes (List.replicate xhdrSize 0)
  modify fun j => { j with pos1 := { j.pos1 with offset := j.offset }, state := .transaction }

def noteSoa (j : Handle) (r : RR) : Handle := if r.isSoa then
    { j with
      pos0 := if j.nSoa = 0 then { j.pos0 with serial := r.serial } else j.pos0
      pos1 := if j.nSoa = 1 then { j.pos1 with serial := r.serial } else j.pos1
      nSoa := j.nSoa + 1 }
  else j

def writediff (diff : List RR) : Routine Unit := do
  let j ← read
  assert (j.state = .transaction)
  assert (∀ r ∈ diff, r.data.length < 65536 ∧ (r.isSoa → 20 ≤ r.data.length))
  modify fun j => diff.foldl noteSoa j
  let bytes := diff.flatMap RR.encode
  modify fun j => { j with pos1 := { j.pos1 with offset := j.pos1.offset + bytes.length } }
  writeBytes bytes

def indexToDisk : Routine Unit := do
  let j ← read
  if j.header.indexSize = 0 then pure ()
  else do
    seek headerSize
    writeBytes (j.index.flatMap Pos.encode)

def purgeLoop (serial : ℕ) : ℕ → Routine Unit
  | 0 => do
    assert False
    fail .failure
  | rounds + 1 => do
    let j ← read
    if serialGT serial j.header.start.serial then pure ()
    else do
      let pos ← journalNext j.header.start
      modify fun j => { j with header := { j.header with start := pos } }
      purgeLoop serial rounds

def writeHeader : Routine Unit := do
  let j ← read
  seek 0
  writeBytes j.header.encode

def purge : Routine Unit := do
  let j ← read
  if j.header.empty then pure ()
  else do
    purgeLoop j.pos1.serial (j.disk.view.size + 1)
    modify fun j => { j with index := indexInvalidate j.pos1.serial j.index }

def writeXhdr : Routine Unit := do
  let j ← read
  seek j.pos0.offset
  writeBytes (Xhdr.encode ⟨j.pos1.offset - j.pos0.offset - xhdrSize, j.pos0.serial, j.pos1.serial⟩)

def moveEnd : Routine Unit := modify fun j => { j with
    header := { j.header with
      start := if j.header.empty then j.pos0 else j.header.start
      stop := j.pos1 } }

/-- The part of `dns_journal_commit` after its checks. -/
def commitTransaction : Routine Unit := do
  purge
  fsync
  writeXhdr
  moveEnd
  writeHeader
  let j ← read
  indexAdd j.pos0
  indexToDisk
  fsync
  modify fun j => { j with state := .writing }

def bind8Compat : Bool := true

def commit : Routine Unit := do
  let j ← read
  assert (j.state = .transaction ∨ j.state = .inline)
  if j.state = .inline then do
    fsync
    writeHeader
    fsync
    modify fun j => { j with state := .writing }
  else if j.nSoa ≠ 2 then fail .unexpected
  else if !(serialGT j.pos1.serial j.pos0.serial ||
      bind8Compat && j.pos1.serial = j.pos0.serial) then fail .unexpected
  else if !j.header.empty && j.pos0.serial ≠ j.header.stop.serial then fail .unexpected
  else commitTransaction

def writediffs : List (List RR) → Routine Unit
  | [] => pure ()
  | diff :: rest => do
    writediff diff
    writediffs rest

variable (diffs : List (List RR))

/-- A transaction up to its commit: `dns_journal_begin_transaction` and some
`dns_journal_writediff`. -/
def prepare : Routine Unit := do
  beginTransaction
  writediffs diffs

def transaction : Routine Unit := do
  prepare diffs
  commit

variable (decode : (rdclass rdtype : ℕ) → (data : List UInt8) → (available : ℕ) →
  Except Result (List UInt8))

def enterTransaction : Routine Unit := do
  let j ← read
  if j.iter.xpos = j.iter.xsize then do
    let xhdr ← readXhdr
    if xhdr.size = 0 then fail .unexpected
    else if xhdr.serial0 ≠ j.iter.currentSerial then fail .unexpected
    else modify fun j => { j with iter := { j.iter with xsize := xhdr.size, xpos := 0 } }
  else pure ()

def parseRR (source : List UInt8) (target : ℕ) : Except Result RR :=
  let m := asMem source
  match fromwire m source.length false false 0 target with
  | .error e => .error e
  | .ok d =>
    let p := d.cused
    if source.length - p < 10 then .error .formErr
    else if source.length - (p + 10) ≠ m.rd16 (p + 8) then .error .formErr
    else
      match decode (m.rd16 (p + 2)) (m.rd16 p) (source.drop (p + 10))
        (target - d.name.ndata.length) with
      | .error e => .error e
      | .ok data => .ok ⟨d.name, m.rd16 p, m.rd16 (p + 2), m.rd32 (p + 4), data⟩

/-- The part of `read_one_rr` that reads the record itself. -/
def readRecord : Routine RR := do
  let size ← readBytes 4
  let size := (asMem size).rd32 0
  if size < 11 || 70000 < size then fail .unexpected
  else do
    let source ← readBytes size
    modify fun j => { j with iter := { j.iter with target := max j.iter.target size } }
    let j ← read
    match parseRR decode source j.iter.target with
    | .error e => fail e
    | .ok r => do
      assert (r.isSoa → 20 ≤ r.data.length)
      modify fun j => { j with
        iter := { j.iter with
          xpos := j.iter.xpos + 4 + size
          currentSerial := if r.isSoa then r.serial else j.iter.currentSerial } }
      pure r

def readOneRR : Routine RR := do
  let j ← read
  assert (j.offset ≤ j.iter.epos.offset)
  if j.offset = j.iter.epos.offset then fail .noMore
  else do
    enterTransaction
    readRecord decode

def iterInit (beginSerial endSerial : ℕ) : Routine Unit := do
  let bpos ← journalFind beginSerial
  assert (bpos.serial = beginSerial)
  let epos ← journalFind endSerial
  assert (epos.serial = endSerial)
  modify fun j => { j with iter := { j.iter with bpos := bpos, epos := epos } }

def firstRR : Routine Unit := do
  let j ← read
  seek j.iter.bpos.offset
  modify fun j => { j with
    iter := { j.iter with currentSerial := j.iter.bpos.serial, xsize := 0, xpos := 0 } }

/-- `dns_journal_next_rr` until there are no more records, with a bound on their number. -/
def allRRs : ℕ → Routine (List RR)
  | 0 => fail .failure
  | rounds + 1 => do
    let r ← attempt (readOneRR decode)
    match r with
    | .ok r => do
      let rest ← allRRs rounds
      pure (r :: rest)
    | .error .noMore => pure []
    | .error e => fail e

/-- `dns_journal_iter_init`, `dns_journal_first_rr` and `dns_journal_next_rr` to the end. -/
def iterate (beginSerial endSerial : ℕ) : Routine (List RR) := do
  iterInit beginSerial endSerial
  firstRR
  let j ← read
  allRRs decode (j.disk.view.size + 1)

end LbBind.Journal

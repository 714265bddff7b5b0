import LbBind.Lib.Bytes
import LbBind.Lib.Chain
import LbBind.Name.Basic

/-! Name compression (`lib/dns/compress.c`) and the writing of names (`dns_name_towire` of
`lib/dns/name.c`). A compression context is a hash table of 64 chains of nodes, of which the first
16 live in the context. A node records a suffix of a written name and its offset; the bytes it
points to are taken to stay as they were. -/

namespace LbBind.Compress

open Lib Function

inductive Slot where
  | initial (i : ℕ)
  | heap (a : ℕ)
  deriving DecidableEq

structure Node where
  r : List UInt8 := []
  offset : ℕ := 0
  count : ℕ := 0
  labels : ℕ := 0
  next : Option Slot := none
  deriving DecidableEq

def Node.name (node : Node) : Wire := ⟨node.r, node.labels⟩

/-- How names are compared, depending on `DNS_COMPRESS_CASESENSITIVE`. -/
def sameName (caseSensitive : Bool) (nname tname : Wire) : Bool :=
  if caseSensitive then nname.caseequal tname else nname.equal tname

def tablesize : ℕ := 64

def initialnodes : ℕ := 16

/-- `dns_compress_t`: the two bits of `allowed`, the table, the nodes by the place
where they live, their number in 16 bits, and the memory context. -/
structure Context where
  global14 : Bool
  caseSensitive : Bool
  table : ℕ → Option Slot
  nodes : Slot → Node
  count : ℕ
  mctx : Allocator

def init (nodes : Slot → Node) (mctx : Allocator) (sensitive : Bool) : Context :=
  ⟨false, sensitive, fun _ => none, nodes, 0, mctx⟩

namespace Context

variable (cctx : Context)

def setmethods (global14 : Bool) : Context := { cctx with global14 := global14 }

def next (s : Slot) : Option Slot := (cctx.nodes s).next

def bucket (name : Wire) : ℕ := name.hash false % tablesize

lemma bucket_lt (name : Wire) : bucket name < tablesize := Nat.mod_lt _ (by decide)

def hit (tname : Wire) (s : Slot) : Bool := sameName cctx.caseSensitive (cctx.nodes s).name tname

/-- The loop of `dns_compress_findglobal` over the suffixes of the name from label
`n` on, of which `k` are left to try. A chain is searched for at most `2 ^ 16`
nodes, which is more than the node count can tell. -/
def findLoop (name : Name) : (k n : ℕ) → Option (Option (ℕ × ℕ))
  | 0, _ => some none
  | k + 1, n =>
    let tname := (name.getlabelsequence n (name.labels.length - n)).wire
    match Chain.find cctx.next (cctx.hit tname) (2 ^ 16) (cctx.table (bucket tname)) with
    | none => none
    | some (some node) => some (some (n, (cctx.nodes node).offset))
    | some none => findLoop name k (n + 1)

/-- `dns_compress_findglobal`: the number of labels before the longest registered
suffix, and the offset of this suffix. -/
def findglobal (name : Name) : Option (Option (ℕ × ℕ)) :=
  if cctx.count = 0 then some none else cctx.findLoop name (name.labels.length - 1) 0

def newNode : Option Slot × Allocator :=
  if cctx.count < initialnodes then (some (.initial cctx.count), cctx.mctx)
  else (cctx.mctx.get.1.map .heap, cctx.mctx.get.2)

def push (node : Slot) (mctx : Allocator) (tname : Wire) (toffset : ℕ) : Context := { cctx with
    mctx := mctx
    nodes := update cctx.nodes node
      ⟨tname.ndata, toffset, cctx.count, tname.labels, cctx.table (bucket tname)⟩
    table := update cctx.table (bucket tname) (some node)
    count := (cctx.count + 1) % 2 ^ 16 }

/-- The loop of `dns_compress_add`: `count` more suffixes, the next from label
`start` on. -/
def addLoop (name : Name) (offset : ℕ) : (count start : ℕ) → Context → Context
  | 0, _, cctx => cctx
  | count + 1, start, cctx =>
    if offset ≥ 0x4000 then cctx
    else
      let tname := name.getlabelsequence start (name.labels.length - start)
      let toffset := (offset + (name.length - tname.length)) % 2 ^ 16
      match cctx.newNode with
      | (none, mctx) => { cctx with mctx := mctx }
      | (some node, mctx) =>
        addLoop name offset count (start + 1) (cctx.push node mctx tname.wire toffset)

/-- `dns_compress_add`: the suffixes of `name` that start inside `gp`. -/
def add (name gp : Name) (offset : ℕ) : Context :=
  addLoop name offset (if gp.absolute then gp.labels.length - 1 else gp.labels.length) 0 cctx

/-- `isc_mem_put` of a node: its contents are lost. -/
def free : Slot → Context
  | .initial i => { cctx with nodes := update cctx.nodes (.initial i) {} }
  | .heap a => { cctx with
      nodes := update cctx.nodes (.heap a) {}
      mctx := cctx.mctx.put a }

/-- Take the node `node` off the head of chain `i`. -/
def pop (i : ℕ) (node : Slot) : Context :=
  let unlinked := { cctx with
    table := update cctx.table i (cctx.nodes node).next
    count := (cctx.count + (2 ^ 16 - 1)) % 2 ^ 16 }
  if (cctx.nodes node).count ≥ initialnodes then unlinked.free node else unlinked

/-- The inner loop of `dns_compress_rollback`, on chain `i`, with a bound on the
number of rounds. -/
def rollbackChain (offset i : ℕ) : ℕ → Context → Option Context
  | 0, _ => none
  | rounds + 1, cctx =>
    match cctx.table i with
    | none => some cctx
    | some node =>
      if (cctx.nodes node).offset ≥ offset then rollbackChain offset i rounds (cctx.pop i node)
      else some cctx

def rollback (offset : ℕ) : Option Context :=
  (List.range tablesize).foldlM (fun cctx i => rollbackChain offset i (2 ^ 16) cctx) cctx

end Context

structure Buffer where
  base : Mem
  length : ℕ
  used : ℕ

def Buffer.available (b : Buffer) : ℕ := (b.length + (2 ^ 32 - b.used)) % 2 ^ 32

lemma Buffer.available_of_le {b : Buffer} (hused : b.used ≤ b.length) (hlength : b.length < 2 ^ 32) :
    b.available = b.length - b.used := by
  rw [available, show b.length + (2 ^ 32 - b.used) = b.length - b.used + 2 ^ 32 by omega,
    Nat.add_mod_right, Nat.mod_eq_of_lt (by omega)]

/-- `isc_buffer_putmem`: copy the bytes and move `used`. -/
def Buffer.putmem (b : Buffer) (bs : List UInt8) : Buffer :=
  { b with base := b.base.put b.used bs, used := b.used + bs.length }

/-- The search of `dns_name_towire` for a pointer target: only where compression is
wanted, only below offset `0x4000`, and only if the pointer makes the name shorter. -/
def pointerTarget (name : Name) (nocompress : Bool) (cctx : Context) : Option (Option (ℕ × ℕ)) :=
  if !nocompress && cctx.global14 then
    (cctx.findglobal name).map fun found => found.filter fun (n, go) =>
      go < 0x4000 && (name.getlabelsequence 0 n).length + 2 < name.length
  else some none

def towire (name : Name) (nocompress : Bool) (cctx : Context) (target : Buffer) :
    Option (Result × Context × Buffer) :=
  let offset := target.used % 2 ^ 16
  match pointerTarget name nocompress cctx with
  | none => none
  | some (some (n, go)) =>
    let gp := name.getlabelsequence 0 n
    if target.available < gp.length then some (.noSpace, cctx, target)
    else
      let target := target.putmem gp.wire.ndata
      if target.available < 2 then some (.noSpace, cctx, target)
      else
        let target := target.putmem (be16 (go ||| 0xc000))
        some (.success, if gp.length ≠ 0 then cctx.add name gp offset else cctx, target)
  | some none =>
    if target.available < name.length then some (.noSpace, cctx, target)
    else some (.success, cctx.add name name offset, target.putmem name.wire.ndata)

end LbBind.Compress

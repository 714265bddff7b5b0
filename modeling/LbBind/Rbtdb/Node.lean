import Mathlib.Data.List.Nodup
import LbBind.Rdatatype
import LbBind.Result

/-! The headers at a node of a zone database (`lib/dns/rbtdb.c`). A node has one chain of headers
per type, the newest first. A header belongs to the version that wrote it, may say that the type
does not exist, and is ignored once its version is rolled back. The rdata is abstract, with the two
operations that build new rdata out of old. -/

namespace LbBind.Rbtdb

structure Typepair where
  base : ℕ
  covers : ℕ
  deriving DecidableEq

def Typepair.zero : Typepair := ⟨Rdatatype.none, Rdatatype.none⟩

variable {δ : Type*}

structure Rdataset (δ : Type*) where
  ttl : ℕ
  trust : ℕ
  resign : Option ℕ
  slab : δ
  deriving DecidableEq

structure Header (δ : Type*) where
  type : Typepair
  serial : ℕ
  ignore : Bool
  rdataset : Option (Rdataset δ)
  deriving DecidableEq

namespace Header

def nonexistent (h : Header δ) : Bool := h.rdataset.isNone

def activeIn (serial : ℕ) (h : Header δ) : Bool := h.serial ≤ serial && !h.ignore

end Header

structure Chain (δ : Type*) where
  top : Header δ
  down : List (Header δ)
  deriving DecidableEq

namespace Chain

def headers (c : Chain δ) : List (Header δ) := c.top :: c.down

def extant (serial : ℕ) (c : Chain δ) : Option (Header δ) :=
  (c.headers.find? (·.activeIn serial)).filter fun h => !h.nonexistent

def unignored (c : Chain δ) : Option (Header δ) := c.headers.find? fun h => !h.ignore

def push (h : Header δ) (c : Chain δ) : Chain δ := ⟨h, c.headers⟩

end Chain

structure Node (δ : Type*) where
  data : List (Chain δ)
  dirty : Bool
  references : ℕ
  findCallback : Bool
  deriving DecidableEq

section
variable (serial : ℕ) (matchtype sigmatchtype : Typepair)

def findLoop : List (Chain δ) → (found foundsig : Option (Header δ)) →
    Option (Header δ) × Option (Header δ)
  | [], found, foundsig => (found, foundsig)
  | c :: rest, found, foundsig =>
    match c.extant serial with
    | none => findLoop rest found foundsig
    | some header =>
      if header.type = matchtype then
        if foundsig.isSome then (some header, foundsig) else findLoop rest (some header) foundsig
      else if header.type = sigmatchtype then
        if found.isSome then (found, some header) else findLoop rest found (some header)
      else findLoop rest found foundsig

end

variable (node : Node δ)

/-- `zone_findrdataset` in the version with the given serial number: the result and
the rdatasets bound. -/
def zoneFindrdataset (serial type covers : ℕ) :
    Result × Option (Rdataset δ) × Option (Rdataset δ) :=
  let matchtype : Typepair := ⟨type, covers⟩
  let sigmatchtype := if covers = 0 then ⟨Rdatatype.rrsig, type⟩ else Typepair.zero
  match findLoop serial matchtype sigmatchtype node.data none none with
  | (none, _) => (.notFound, none, none)
  | (some found, foundsig) => (.success, found.rdataset, foundsig.bind (·.rdataset))

variable (serial : ℕ)

def cnameAndOtherData : Bool :=
  (node.data.any fun c => c.top.type = ⟨Rdatatype.cname, 0⟩ && (c.extant serial).isSome) &&
    node.data.any fun c => c.top.type ≠ ⟨Rdatatype.cname, 0⟩ &&
      !List.contains [Rdatatype.key, Rdatatype.sig, Rdatatype.nsec, Rdatatype.rrsig]
        c.top.type.base &&
      (c.extant serial).isSome

structure SlabOps (δ : Type*) where
  merge : Typepair → (exact force : Bool) → (old new : δ) → Except Result δ
  subtract : Typepair → (exact : Bool) → (old sub : δ) → Except Result δ

structure AddOptions where
  merge : Bool
  exact : Bool
  exactttl : Bool
  deriving DecidableEq

structure Change (δ : Type*) where
  result : Result
  node : Node δ
  dirty : Bool

/-- Replace the first chain whose top header satisfies `p`. -/
def replaceChain (p : Chain δ → Bool) (c' : Chain δ) : List (Chain δ) → List (Chain δ)
  | [] => []
  | c :: rest => if p c then c' :: rest else c :: replaceChain p c' rest

variable (ops : SlabOps δ)

def mergeRdataset (type : Typepair) (options : AddOptions)
    (old new : Rdataset δ) : Except Result (Rdataset δ) :=
  if options.exactttl && new.ttl ≠ old.ttl then .error .notExact
  else (ops.merge type options.exact (new.ttl ≠ old.ttl) old.slab new.slab).map fun slab =>
    { new with slab := slab }

/-- The header that `add` links in, given the header it supersedes: a merged one if
both exist and merging is wanted. -/
def mergeHeader (options : AddOptions) (header newheader : Header δ) :
    Except Result (Header δ) :=
  match options.merge, header.rdataset, newheader.rdataset with
  | true, some old, some new => (mergeRdataset ops header.type options old new).map fun rdataset =>
      { newheader with rdataset := some rdataset }
  | _, _, _ => .ok newheader

/-- The chain that `add` puts a header on: that of the type; `negtype` is zero in a
zone. -/
def addsTo (type : Typepair) (c : Chain δ) : Bool := c.top.type = type || c.top.type = Typepair.zero

def Node.supersede (p : Chain δ → Bool) (c : Chain δ) (h : Header δ) : Node δ :=
  { node with data := replaceChain p (c.push h) node.data, dirty := true }

/-- The end of `add`: the warning about a CNAME with other data. -/
def warned : Result :=
  if cnameAndOtherData node serial then .cnameAndOther else .success

/-- `add`, for a version of a zone and not while loading, after the changed record
has been added. -/
def Node.add (node : Node δ) (newheader : Header δ) (options : AddOptions) :
    Change δ :=
  match node.data.find? (addsTo newheader.type) with
  | some c =>
    match c.unignored with
    | some header =>
      if header.nonexistent && newheader.nonexistent then ⟨.unchanged, node, false⟩
      else
        match mergeHeader ops options header newheader with
        | .error r => ⟨r, node, false⟩
        | .ok newheader =>
          let node' := node.supersede (addsTo newheader.type) c newheader
          ⟨warned node' newheader.serial, node', true⟩
    | none =>
      if newheader.nonexistent then ⟨.unchanged, node, false⟩
      else
        let node' := node.supersede (addsTo newheader.type) c newheader
        ⟨warned node' newheader.serial, node', true⟩
  | none =>
    if newheader.nonexistent then ⟨.unchanged, node, false⟩
    else
      let node' := { node with data := ⟨newheader, []⟩ :: node.data }
      ⟨warned node' newheader.serial, node', false⟩

/-- The part of `subtractrdataset` after the changed record has been added. The
last argument tells whether a nonexistent header can be allocated. -/
def Node.subtract (node : Node δ) (serial : ℕ) (type : Typepair)
    (rdataset : Rdataset δ) (exact memory : Bool) : Change δ :=
  let missing : Change δ := ⟨if exact then .notExact else .unchanged, node, false⟩
  match node.data.find? fun c => c.top.type = type with
  | none => missing
  | some c =>
    match c.unignored with
    | none => missing
    | some header =>
      match header.rdataset with
      | none => missing
      | some old =>
        let link (result : Result) (h : Header δ) : Change δ :=
          ⟨result, node.supersede (fun c => c.top.type = type) c h, true⟩
        if exact && rdataset.ttl ≠ old.ttl then ⟨.notExact, node, false⟩
        else
          match ops.subtract header.type exact old.slab rdataset.slab with
          | .ok slab => link .success ⟨header.type, serial, false, some { old with slab := slab }⟩
          | .error r =>
            if r = .nxrrset then
              if memory then link .nxrrset ⟨c.top.type, serial, false, none⟩
              else ⟨.noMemory, node, false⟩
            else ⟨r, node, false⟩

/-- The header with `RDATASET_ATTR_IGNORE` set if it belongs to version `serial`. -/
def marked (h : Header δ) : Header δ :=
  if h.serial = serial then { h with ignore := true } else h

def rollbackNode : Node δ := { node with
    data := node.data.map fun c => ⟨marked serial c.top, c.down.map (marked serial)⟩
    dirty := node.dirty || node.data.any fun c => c.headers.any fun h => h.serial = serial }

/-- The first loop of `clean_zone_node` below a header: headers of the same version
as the one above them, and ignored ones, go. -/
def cleanDuplicates : (dparent : Header δ) → List (Header δ) → List (Header δ)
  | _, [] => []
  | dparent, d :: rest =>
    if d.serial = dparent.serial || d.ignore then cleanDuplicates dparent rest
    else d :: cleanDuplicates d rest

def pullUp (c : Chain δ) : Option (Chain δ) := if c.top.ignore then
    match c.down with
    | [] => none
    | d :: rest => some ⟨d, rest⟩
  else some c

variable (leastSerial : ℕ)

/-- One round of `clean_zone_node`: what remains of a chain. -/
def cleanChain (c : Chain δ) : Option (Chain δ) :=
  (pullUp ⟨c.top, cleanDuplicates c.top c.down⟩).bind fun current =>
    let down := current.down.takeWhile fun d => !(d.serial < leastSerial)
    if down = [] && current.top.nonexistent then none else some ⟨current.top, down⟩

def cleanZoneNode : Node δ :=
  let data := node.data.filterMap (cleanChain leastSerial)
  { node with
    data := data
    dirty := if data.any fun c => c.down ≠ [] then node.dirty else false }

/-- `decrement_reference`. The removal of a node without data from the tree is not
part of this, since there is no data to be found at a removed node either. -/
def decrementReference : Node δ :=
  let node := { node with references := node.references - 1 }
  if node.references = 0 && node.dirty then cleanZoneNode node leastSerial else node

end LbBind.Rbtdb

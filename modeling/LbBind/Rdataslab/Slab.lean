import LbBind.Rdatatype
import LbBind.Result
import LbBind.Lib.Bytes
import LbBind.Lib.Qsort

/-! The rdata slab of `lib/dns/rdataslab.c` in its `DNS_RDATASET_FIXED` layout: a record count, an
offset table in load order, and the records, each with its length, its position in the offset table,
a meta byte for RRSIG, and its data. Addresses are offsets from the end of the header. Memory that
is not written keeps what it held. -/

namespace LbBind.Rdataslab

open Lib Rdatatype

variable (type : ℕ)

structure Rdata where
  data : List UInt8
  offline : Bool
  deriving DecidableEq

/-- The per RR meta data: one byte for RRSIG. -/
def metaLength : ℕ := if type = rrsig then 1 else 0

/-- The rdataset a slab is made from: what `dns_rdataset_first` and
`dns_rdataset_next` enumerate. Each length fits its 16-bit field. -/
structure Source where
  type : ℕ
  rdatas : List Rdata
  fits : ∀ r ∈ rdatas, r.data.length + metaLength type ≤ 0xffff

structure XRdata where
  rdata : Option Rdata
  order : ℕ
  deriving DecidableEq

def offlineBit (r : Rdata) : UInt8 := if r.offline then 0x01 else 0

/-! ### Comparing rdata

The routines take `dns_rdata_compare` as a parameter; for types without names in
their data, such as A and AAAA, it is `isc_region_compare`. -/

def memcmp : ℕ → List UInt8 → List UInt8 → ℤ
  | n + 1, a :: s, b :: t => if a < b then -1 else if b < a then 1 else memcmp n s t
  | _, _, _ => 0

def regionCompare (r1 r2 : List UInt8) : ℤ :=
  let l := if r1.length < r2.length then r1.length else r2.length
  let result := memcmp l r1 r2
  if result ≠ 0 then (if result < 0 then -1 else 1)
  else if r1.length = r2.length then 0
  else if r1.length < r2.length then -1 else 1

/-- `fillin_offsets`: `j` counts the entries written so far. -/
def fillinOffsets : List ℕ → ℕ → Mem → Mem
  | [], _, m => m
  | off :: t, j, m =>
    if off = 0 then fillinOffsets t j m
    else fillinOffsets t (j + 1) ((m.put (j * 4 + 2) (be32 off)).put (off + 2) (be16 j))

variable (compare : List UInt8 → List UInt8 → ℤ)

/-- Remove duplicates from the sorted array: `a` is the element before the rest.
A duplicate's data becomes `NULL` and its successor keeps the least order. -/
def removeDuplicates (a : Rdata) (order : ℕ) : List (Rdata × ℕ) → List XRdata
  | [] => [⟨some a, order⟩]
  | (b, border) :: t =>
    if compare a.data b.data = 0 then
      ⟨none, order⟩ ::
        removeDuplicates b (if order < border then order else border) t
    else ⟨some a, order⟩ :: removeDuplicates b border t

/-- Write one record at `p`. The order field is filled in later, and the meta
byte is or-ed into what the buffer holds. Returns the address after it. -/
def putRecord (r : Rdata) (m : Mem) (p : ℕ) : Mem × ℕ :=
  let length := r.data.length + metaLength type
  let m := m.put p (be16 length)
  let p := p + 4
  let m := if type = rrsig then m.put p [m p ||| offlineBit r] else m
  let p := p + metaLength type
  (m.put p r.data, p + r.data.length)

/-- Copy the array into the buffer, noting in `offsettable` where each starts. -/
def putRecords (type : ℕ) : List XRdata → Mem → ℕ → List ℕ → Mem × ℕ × List ℕ
  | [], m, p, offsettable => (m, p, offsettable)
  | x :: t, m, p, offsettable =>
    match x.rdata with
    | none => putRecords type t m p offsettable
    | some r =>
      let (m, p') := putRecord type r m p
      putRecords type t m p' (offsettable.set x.order p)

structure Region where
  base : Mem
  length : ℕ

/-- `buflen`: two bytes of count, then eight bytes, the meta byte and the data of
every rdata kept. -/
def bufferLength (type reservelen : ℕ) (xs : List XRdata) : ℕ :=
  (reservelen + 2 + (xs.map fun x => match x.rdata with
    | none => 0
    | some r => 8 + r.data.length + metaLength type).sum) % 2 ^ 32

variable (qsort : Qsort (Rdata × ℕ))

def sortedArray (source : Source) : List XRdata :=
  match qsort.sort (fun a b => compare a.1.data b.1.data) source.rdatas.zipIdx with
  | [] => []
  | (a, order) :: t => removeDuplicates compare a order t

/-- `dns_rdataslab_fromrdataset`, into a buffer that holds `garbage` beforehand;
`none` if the buffer's length wraps around and the copy runs past its end. -/
def fromrdataset
    (source : Source) (reservelen : ℕ) (garbage : Mem) : Option (Result × Option Region) :=
  let nalloc := source.rdatas.length
  if nalloc = 0 ∧ source.type ≠ 0 then some (.failure, none)
  else if nalloc > 0xffff then some (.noSpace, none)
  else
    let x := sortedArray compare qsort source
    let nitems := (x.filter fun y => y.rdata.isSome).length
    if nitems > 1 ∧ issingleton source.type then some (.singleton, none)
    else
      let buflen := bufferLength source.type reservelen x
      let m := garbage.put 0 (be16 nitems)
      let (m, p, offsettable) :=
        putRecords source.type x m (2 + nitems * 4) (List.replicate nalloc 0)
      if reservelen + p > buflen then none
      else some (.success, some ⟨fillinOffsets offsettable 0 m, buflen⟩)

/-- The method tables of slab rdatasets. `rbtdb false` is the stock code of
`rbtdb.c`; with `LBBIND` defined it is the offset-table code of `rdataslab.c`. -/
inductive Methods where
  | rdataslab
  | rbtdb (lbbind : Bool)
  deriving DecidableEq

/-- The part of `dns_rdataset_t` the slab methods use: `privateuint4` counts the
rdata beyond the cursor, `private5` points to it. -/
structure Rdataset where
  methods : Methods
  type : ℕ
  loadorder : Bool
  privateuint4 : ℕ
  private5 : Option ℕ
  deriving DecidableEq

variable (m : Mem)

def count : ℕ := m.rd16 0

variable (rs : Rdataset)

def rdatasetFirst : Result × Rdataset :=
  if count m = 0 then (.noMore, { rs with private5 := none })
  else (.success, { rs with privateuint4 := count m - 1, private5 := some (m.rd32 2) })

def rdatasetNext : Result × Rdataset :=
  if rs.privateuint4 = 0 then (.noMore, rs)
  else
    let current := count m - rs.privateuint4
    (.success, { rs with
      privateuint4 := rs.privateuint4 - 1
      private5 := some (m.rd32 (2 + current * 4)) })

/-- The rdata of the record at `raw`: `length--` is on an unsigned int. -/
def rdataAt (type raw : ℕ) : Rdata :=
  let length := m.rd16 raw
  if type = rrsig then
    ⟨m.slice (raw + 5) ((length + (2 ^ 32 - 1)) % 2 ^ 32), m (raw + 4) &&& 0x01 != 0⟩
  else ⟨m.slice (raw + 4) length, false⟩

/-- `rdataset_current` of `rdataslab.c`; `none` if it fails `REQUIRE(raw != NULL)`. -/
def rdatasetCurrent : Option Rdata :=
  rs.private5.map fun raw => rdataAt m rs.type raw

/-- `rdataset_first` of the stock `rbtdb.c`: `private5` is the first record, or in
load order the first entry of the offset table. -/
def rbtdbFirst : Result × Rdataset :=
  if count m = 0 then (.noMore, { rs with private5 := none })
  else (.success, { rs with
    privateuint4 := count m - 1
    private5 := some (if rs.loadorder then 2 else 2 + 4 * count m) })

/-- `rdataset_next` of the stock `rbtdb.c`: skip forward one record or one offset. -/
def rbtdbNext : Result × Rdataset :=
  if rs.privateuint4 = 0 then (.noMore, rs)
  else (.success, { rs with
    privateuint4 := rs.privateuint4 - 1
    private5 := rs.private5.map fun raw => raw + (if rs.loadorder then 0 else m.rd16 raw) + 4 })

def rbtdbCurrent : Option Rdata :=
  rs.private5.map fun raw => rdataAt m rs.type (if rs.loadorder then m.rd32 raw else raw)

def first : Result × Rdataset := match rs.methods with
  | .rbtdb false => rbtdbFirst m rs
  | _ => rdatasetFirst m rs

def next : Result × Rdataset := match rs.methods with
  | .rbtdb false => rbtdbNext m rs
  | _ => rdatasetNext m rs

def current : Option Rdata := match rs.methods with
  | .rbtdb false => rbtdbCurrent m rs
  | _ => rdatasetCurrent m rs

def tordataset : Rdataset := ⟨.rdataslab, type, false, 0, none⟩

/-- The loop `for (…; i < nitems && result == ISC_R_SUCCESS; i++)` that takes the
current rdata and moves to the next one. -/
def collect (m : Mem) : ℕ → Result × Rdataset → Option (List Rdata × Result × Rdataset)
  | 0, (result, rs) => some ([], result, rs)
  | k + 1, (result, rs) =>
    if result = .success then do
      let r ← current m rs
      let (l, last) ← collect m k (next m rs)
      some (r :: l, last)
    else some ([], result, rs)

structure AddrStats where
  inAddr : ℕ
  offset : ℕ
  cpuLoad : ℚ
  ioLoad : ℚ
  netLoad : ℚ
  deriving DecidableEq

/-- The loop of `dns_rdataslab_sort_fromrdataset`: fill entry `i` of the offset
table and update the table index of its record. -/
def sortLoop : List ℕ → ℕ → Mem → Mem
  | [], _, m => m
  | off :: t, i, m => sortLoop t (i + 1) ((m.put (2 + i * 4) (be32 off)).put (off + 2) (be16 i))

variable (addrStats : List AddrStats)

/-- `dns_rdataslab_sort_fromrdataset`: the slab afterwards, and the rdataset with
its iterator state reset. -/
def sortFromrdataset : Mem × Rdataset :=
  (sortLoop ((addrStats.take (count m)).map (·.offset)) 0 m,
    { rs with privateuint4 := 0, private5 := none })

/-- Give the entries of `addr_stats` the offsets of the records just laid out. -/
def setOffsets (offsets : List ℕ) : List AddrStats :=
  List.zipWith (fun a off => { a with offset := off }) addrStats offsets ++
    addrStats.drop offsets.length

/-- `dns_rdataslab_transformrdataset`: copy the rdata out in iteration order and
lay the slab out again in that order. `malloc` is taken to succeed, also for
length 0; `none` is a failed assertion of the iterator. -/
def transformrdataset :
    Option (Result × Mem × Rdataset × List AddrStats) :=
  let nitems := count m
  if nitems = 0 then some (.success, m, rs, addrStats)
  else do
    let (x, result, rs) ← collect m nitems (first m rs)
    if result ≠ .noMore then some (result, m, rs, addrStats)
    else if x.length ≠ nitems then some (.failure, m, rs, addrStats)
    else
      let m := m.put 0 (be16 nitems)
      let (m, _, offsettable) := putRecords rs.type
        (x.zipIdx.map fun y => ⟨some y.1, y.2⟩) m (2 + nitems * 4) (List.replicate nitems 0)
      some (.success, fillinOffsets offsettable 0 m,
        { rs with methods := .rdataslab, privateuint4 := 0, private5 := none },
        setOffsets addrStats offsettable)

end LbBind.Rdataslab

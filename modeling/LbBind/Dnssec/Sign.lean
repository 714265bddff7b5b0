import LbBind.Lib.Qsort
import LbBind.Name.Compare
import LbBind.Rdatatype
import LbBind.Tsig.Verify

/-! Signing and verifying an rdataset (`dns_dnssec_sign` and `dns_dnssec_verify2`). Both digest the
fixed part of the RRSIG with the signer, and then every record once, in order. The verifier rebuilds
the wildcard from a name that has more labels than the signature counts. The order of the records,
`dns_rdata_digest` and the public-key algorithm are parameters. -/

namespace LbBind.Dnssec

open Lib Tsig

abbrev Rdata := { data : List UInt8 // data.length < 65536 }

structure Rdataset where
  rdclass : ℕ
  type : ℕ
  ttl : ℕ
  rdatas : List Rdata

structure DstKey where
  name : Name
  alg : ℕ
  id : ℕ
  flags : ℕ
  sigsize : Except Result ℕ
  sign : List UInt8 → Except Result (List UInt8)
  verify : List UInt8 → List UInt8 → Except Result Unit
  verify_sign : ∀ d s, sign d = .ok s → verify d s = .ok ()

structure Rrsig where
  covered : ℕ
  algorithm : ℕ
  labels : ℕ
  originalttl : ℕ
  timeexpire : ℕ
  timesigned : ℕ
  keyid : ℕ
  signer : Name
  signature : List UInt8

def Rrsig.toregion (sig : Rrsig) : List UInt8 :=
  be16 sig.covered ++ [UInt8.ofNat sig.algorithm, UInt8.ofNat sig.labels] ++
    be32 sig.originalttl ++ be32 sig.timeexpire ++ be32 sig.timesigned ++
    be16 sig.keyid ++ sig.signer.wire.ndata ++ sig.signature

def iswildcard (name : Name) : Bool := 2 ≤ name.length && name.wire.ndata.take 2 = [1, 42]

variable (compare : Rdata → Rdata → ℤ) (qsort : Qsort Rdata)
  (digest : Rdata → Except Result (List UInt8))

def digestSig (sig : Rrsig) : List UInt8 := sig.toregion.take 18 ++ sig.signer.downcase.wire.ndata

def sortedarray (set : Rdataset) : Except Result (List Rdata) :=
  if set.rdatas = [] then .error .noMore else .ok (qsort.sort compare set.rdatas)

def digestRecords (envelope : List UInt8) : List Rdata → Except Result (List UInt8)
  | [] => .ok []
  | r :: l => do
    let data ← digest r
    let rest ← digestRecords envelope l
    pure (envelope ++ be16 r.1.length ++ data ++ rest)

def digestSet (owner : List UInt8) (ttl : ℕ) (set : Rdataset) : Except Result (List UInt8) := do
  let rdatas ← sortedarray compare qsort set
  digestRecords digest (owner ++ be16 set.type ++ be16 set.rdclass ++ be32 ttl)
    (skipRepeats compare none rdatas)

/-- Flags of a key that may sign: not `DNS_KEYTYPE_NOAUTH`, and a zone key. -/
def authorized (flags : ℕ) : Bool := flags &&& 0x8000 = 0 && flags &&& 0x0300 = 0x0100

variable (name : Name) (set : Rdataset)

def unsigned (key : DstKey) (inception expire : ℕ) : Rrsig where
  covered := set.type
  algorithm := key.alg
  labels := if iswildcard name then name.labels.length - 1 - 1 else name.labels.length - 1
  originalttl := set.ttl
  timeexpire := expire
  timesigned := inception
  keyid := key.id
  signer := key.name
  signature := []

variable (sig : Rrsig)

def signData : Except Result (List UInt8) := do
  let records ← digestSet compare qsort digest name.downcase.wire.ndata set.ttl set
  pure (digestSig sig ++ records)

def sign (set : Rdataset) (key : DstKey) (inception expire room : ℕ) :
    Except Result Rrsig :=
  if expire ≤ inception then .error .invalidTime
  else if !authorized key.flags then .error .keyUnauthorized
  else
    let sig := unsigned name set key inception expire
    match key.sigsize with
    | .error r => .error r
    | .ok sigsize =>
      match signData compare qsort digest name set sig with
      | .error r => .error r
      | .ok data =>
        match key.sign data with
        | .error r => .error r
        | .ok signature =>
          let sig := { sig with signature := signature }
          if signature.length ≠ sigsize then .error .noSpace
          else if room < sig.toregion.length then .error .noSpace
          else .ok sig

def signerFits (type : ℕ) (name signer : Name) : Bool :=
  if type = Rdatatype.ns || type = Rdatatype.soa || type = Rdatatype.dnskey then
    sameName name signer
  else if type = Rdatatype.ds then !sameName name signer && name.issubdomain signer
  else name.issubdomain signer

def expanded : Bool := sig.labels < name.labels.length - 1

def newname : Name :=
  if expanded name sig then name.downcase.suffix (sig.labels + 1) else name.downcase

def verifyData : Except Result (List UInt8) := do
  let owner := (if expanded name sig then [1, 42] else []) ++ (newname name sig).wire.ndata
  let records ← digestSet compare qsort digest owner sig.originalttl set
  pure (digestSig sig ++ records)

def verify2 (key : DstKey) (ignoretime : Bool) (now : ℕ)
    (sig : Rrsig) : Except Result Unit × Option (Except Result Name) :=
  if set.type ≠ sig.covered then (.error .sigInvalid, none)
  else if serialLt sig.timeexpire sig.timesigned then (.error .sigInvalid, none)
  else if !ignoretime && serialLt now sig.timesigned then (.error .sigFuture, none)
  else if !ignoretime && serialLt sig.timeexpire now then (.error .sigExpired, none)
  else if !signerFits set.type name sig.signer then (.error .sigInvalid, none)
  else if !authorized key.flags then (.error .keyUnauthorized, none)
  else
    let ret := do
      let data ← verifyData compare qsort digest name set sig
      match key.verify data sig.signature with
      | .error .verifyFailure => .error .sigInvalid
      | r => r
    match ret with
    | .error r => (.error r, none)
    | .ok () =>
      if expanded name sig then
        (.error .fromWildcard,
          some (Name.wildcardname.concatenate (newname name sig) Name.wildcardname_relative))
      else (.ok (), none)

end LbBind.Dnssec

import LbBind.Lib.Bytes
import LbBind.Lib.Call
import LbBind.Name.Basic

/-! The verification of TSIG records (`lib/dns/tsig.c`). A message is verified against the key that
its TSIG record names, or that it was given; the later messages of a TCP response go through a
routine that keeps a digest context. Each check passes or ends the verification with a result code,
and may leave a status in the message. -/

namespace LbBind.Tsig

open Lib Call

inductive Algorithm
  | rsamd5
  | dh
  | dsa
  | rsasha1
  | nsec3dsa
  | nsec3rsasha1
  | rsasha256
  | rsasha512
  | eccgost
  | hmacmd5
  | hmacsha1
  | hmacsha224
  | hmacsha256
  | hmacsha384
  | hmacsha512
  | gssapi
  | other
  deriving DecidableEq

namespace Algorithm

def hmac : Algorithm → Bool
  | hmacmd5 | hmacsha1 | hmacsha224 | hmacsha256 | hmacsha384 | hmacsha512 => true
  | _ => false

def sigsize (size : ℕ) : Algorithm → Except Result ℕ
  | rsamd5 | rsasha1 | nsec3rsasha1 | rsasha256 | rsasha512 => .ok ((size + 7) / 8)
  | dsa | nsec3dsa => .ok 41
  | eccgost => .ok 64
  | hmacmd5 => .ok 16
  | hmacsha1 => .ok 20
  | hmacsha224 => .ok 28
  | hmacsha256 => .ok 32
  | hmacsha384 => .ok 48
  | hmacsha512 => .ok 64
  | gssapi => .ok 128
  | dh | other => .error .unsupportedAlg

end Algorithm

structure DstKey where
  alg : Algorithm
  size : ℕ
  bits : ℕ
  digest : List UInt8 → List UInt8
  length_digest : alg.hmac → ∀ data, alg.sigsize size = .ok (digest data).length
  createctx : Except Result Unit
  otherAdddata : (ctx data : List UInt8) → Except Result Unit
  otherVerify : (ctx sig : List UInt8) → Except Result Unit

namespace DstKey

variable (key : DstKey)

def adddata (ctx data : List UInt8) : Except Result (List UInt8) :=
  if key.alg.hmac then .ok (ctx ++ data)
  else (key.otherAdddata ctx data).map fun _ => ctx ++ data

def adddatas (ctx : List UInt8) (pieces : List (List UInt8)) :
    Except Result (List UInt8) :=
  pieces.foldlM key.adddata ctx

/-- `dst_context_verify`. An HMAC is compared as far as the signature goes. -/
def verify (ctx sig : List UInt8) : Except Result Unit := if key.alg.hmac then
    if (key.digest ctx).length < sig.length || (key.alg ≠ .hmacmd5 && sig.length = 0) then
      .error .verifyFailure
    else if sig = (key.digest ctx).take sig.length then .ok ()
    else .error .verifyFailure
  else key.otherVerify ctx sig

end DstKey

structure TsigKey where
  name : Name
  algorithm : Name
  key : Option DstKey
  generated : Bool
  creator : Option Name
  inception : ℕ
  expire : ℕ

def TsigKey.identity (key : TsigKey) : Option Name :=
  if key.generated then key.creator else some key.name

/-- `dns_tsig_keyring_t`, after `cleanup_ring`. -/
abbrev Ring := List TsigKey

def sameName (a b : Name) : Bool := a.wire.equal b.wire

def serialLt (a b : ℕ) : Bool :=
  0 < (b + (2 ^ 32 - a)) % 2 ^ 32 && (b + (2 ^ 32 - a)) % 2 ^ 32 < 2 ^ 31

def Ring.find (ring : Ring) (now : ℕ) (name algorithm : Name) : Option TsigKey :=
  match List.find? (fun k => sameName k.name name) ring with
  | none => none
  | some key =>
    if !sameName key.algorithm algorithm then none
    else if key.inception ≠ key.expire && serialLt key.expire now then none
    else some key

namespace Rcode

def noerror : ℕ := 0
def badsig : ℕ := 16
def badkey : ℕ := 17
def badtime : ℕ := 18
def badtrunc : ℕ := 22

end Rcode

open Rcode

/-- A TSIG record: its owner, class and TTL, and the fields of `dns_rdata_any_tsig_t`. -/
structure TsigRecord where
  keyname : Name
  rdclass : ℕ
  ttl : ℕ
  algorithm : Name
  timesigned : ℕ
  fudge : ℕ
  signature : List UInt8
  originalid : ℕ
  error : ℕ
  other : List UInt8

def TsigRecord.siglen (t : TsigRecord) : ℕ := t.signature.length

/-- The fields of a `dns_message_t` that the verification works on. The saved bytes of the message
are `source`; `sig0` is the signer of a SIG(0) record, if it can be read. -/
structure Msg where
  response : Bool
  source : List UInt8
  sigstart : ℕ
  tsig : Option TsigRecord
  sig0 : Option (Except { e : Result // e ≠ .success } Name)
  tsigkey : Option TsigKey
  querytsig : Option TsigRecord
  tsigctx : Option (List UInt8)
  tcpContinuation : Bool
  timeadjust : ℤ
  tsigstatus : ℕ
  sig0status : ℕ
  verifyAttempted : Bool
  verifiedSig : Bool

structure Failure where
  result : Result
  status : Option ℕ
  deriving DecidableEq

def check (c : Except Failure Unit) : Call Msg Result Unit := match c with
  | .ok () => pure ()
  | .error ⟨result, none⟩ => fail result
  | .error ⟨result, some status⟩ => do
    modify fun m => { m with tsigstatus := status }
    fail result

def Msg.clock (m : Msg) (now : ℕ) : ℕ := ((now + m.timeadjust) % 2 ^ 32).toNat

def checkTime (m : Msg) (now : ℕ) (t : TsigRecord) : Except Failure Unit :=
  if t.timesigned + t.fudge < m.clock now then .error ⟨.clockSkew, some badtime⟩
  else if m.clock now < (t.timesigned + (2 ^ 64 - t.fudge)) % 2 ^ 64 then
    .error ⟨.clockSkew, some badtime⟩
  else .ok ()

def checkLength (key : DstKey) (siglen : ℕ) : Except Failure Unit :=
  match key.alg.sigsize key.size with
  | .error e => .error ⟨e, none⟩
  | .ok full =>
    if key.alg.hmac then
      if full < siglen then .error ⟨.formErr, none⟩
      else if 0 < siglen && (siglen < 10 || siglen < (full + 1) / 2) then .error ⟨.formErr, none⟩
      else if 0 < siglen && key.bits ≠ 0 && siglen < (key.bits + 1) / 8 then
        .error ⟨.tsigVerifyFailure, some badtrunc⟩
      else if 0 < siglen && key.bits = 0 && siglen < full then
        .error ⟨.tsigVerifyFailure, some badtrunc⟩
      else .ok ()
    else .ok ()

def headerlen : ℕ := 12

/-- Six bytes, most significant first. -/
def be48 (n : ℕ) : List UInt8 := be16 (n / 2 ^ 32) ++ be32 (n % 2 ^ 32)

namespace Msg

def signedHeader (m : Msg) (t : TsigRecord) : List UInt8 :=
  be16 t.originalid ++ (m.source.drop 2).take 8 ++ be16 (((asMem m.source).rd16 10 + 65535) % 65536)

def signedRecords (m : Msg) : List UInt8 := (m.source.drop headerlen).take (m.sigstart - headerlen)

end Msg

def macPieces (q : TsigRecord) : List (List UInt8) :=
  be16 q.siglen :: if 0 < q.siglen then [q.signature] else []

variable (m : Msg)

def pieces (k : TsigKey) (t : TsigRecord) : List (List UInt8) :=
  (match m.response, m.querytsig with
    | true, some q => macPieces q
    | _, _ => []) ++
  [m.signedHeader t, m.signedRecords, k.name.wire.ndata, be16 t.rdclass ++ be32 t.ttl,
    k.algorithm.wire.ndata, be48 t.timesigned ++ be16 t.fudge ++ be16 t.error ++ be16 t.other.length] ++
  if 0 < t.other.length then [t.other] else []

variable (key : DstKey)

def compareMac (pieces : List (List UInt8)) (sig : List UInt8) : Except Result Unit := do
  key.createctx
  let ctx ← key.adddatas [] pieces
  key.verify ctx sig

def macFailure (r : Except Result Unit) : Except Failure Unit := match r with
  | .ok () => .ok ()
  | .error e =>
    if e = .verifyFailure then .error ⟨.tsigVerifyFailure, some badsig⟩ else .error ⟨e, none⟩

def checkMac (k : TsigKey) (key : DstKey) (t : TsigRecord) : Except Failure Unit :=
  if 0 < t.siglen then macFailure (compareMac key (pieces m k t) t.signature)
  else if t.error ≠ badsig && t.error ≠ badkey then
    .error ⟨.tsigVerifyFailure, some badsig⟩
  else .ok ()

def openContext (q : TsigRecord) : Option (List UInt8) → Except Result (List UInt8)
  | some ctx => .ok ctx
  | none => do
    key.createctx
    key.adddatas [] (macPieces q)

def tcpPieces : List (List UInt8) := match m.tsig with
  | some t => [m.signedHeader t, m.signedRecords, be48 t.timesigned ++ be16 t.fudge]
  | none => [m.source.take headerlen, m.source.drop headerlen]

def errorResult (error : ℕ) : Result := if error = badtime then .clockSkew else .tsigErrorSet

def checkTcpMac (ctx : List UInt8) (t : TsigRecord) : Except Failure Unit :=
  if t.siglen = 0 then
    if t.error ≠ noerror then .error ⟨errorResult t.error, none⟩
    else .error ⟨.tsigVerifyFailure, none⟩
  else macFailure (key.verify ctx t.signature)

def checkTcp (now : ℕ) (k : TsigKey) (q : TsigRecord) : Except Failure Unit :=
  match m.tsig with
  | none => .ok ()
  | some t =>
    if !sameName t.keyname k.name || !sameName t.algorithm q.algorithm then
      .error ⟨.tsigVerifyFailure, some badkey⟩
    else checkTime m now t

def dropContext : Call Msg Result Unit := modify fun m => { m with tsigctx := none }

def closeContext (ctx : List UInt8) : Option TsigRecord → Call Msg Result Unit
  | none => pure ()
  | some t => do
    onError (check (checkTcpMac key ctx t)) dropContext
    dropContext

def verifyTcp (now : ℕ) : Call Msg Result Unit := do
  let m ← read
  match m.tsigkey, m.querytsig with
  | some k, some q =>
    if !m.response then fail .expectedResponse
    else do
      check (checkTcp m now k q)
      match k.key with
      | none => do
        assert False
        fail .failure
      | some key =>
        match openContext key q m.tsigctx with
        | .error e => do
          dropContext
          fail e
        | .ok ctx =>
          match key.adddatas ctx (tcpPieces m) with
          | .error e => do
            dropContext
            fail e
          | .ok ctx => do
            modify fun m => { m with tsigctx := some ctx }
            closeContext key ctx m.tsig
            modify fun m => { m with tsigstatus := noerror }
  | _, _ => do
    assert False
    fail .failure

structure View where
  statickeys : Option Ring
  dynamickeys : Option Ring
  create : (keyname algorithm : Name) → Except Result TsigKey

variable (view : View)

def View.find (now : ℕ) (t : TsigRecord) : Option TsigKey :=
  ((view.statickeys.bind fun ring => Ring.find ring now t.keyname t.algorithm)).or
    (view.dynamickeys.bind fun ring => Ring.find ring now t.keyname t.algorithm)

variable (now : ℕ) (t : TsigRecord)

def findKey : Call Msg Result TsigKey := do
  let m ← read
  match m.tsigkey with
  | some k => pure k
  | none =>
    match view.find now t with
    | some k => do
      modify fun m => { m with tsigkey := some k }
      pure k
    | none => do
      modify fun m => { m with tsigstatus := badkey }
      match view.create t.keyname t.algorithm with
      | .error e => fail e
      | .ok k => do
        modify fun m => { m with tsigkey := some k }
        fail .tsigVerifyFailure

def checkQuery : Except Failure Unit :=
  match m.response, m.tsigkey, m.querytsig with
  | true, some k, some q =>
    if !sameName t.keyname k.name || !sameName t.algorithm q.algorithm then
      .error ⟨.tsigVerifyFailure, some badkey⟩
    else .ok ()
  | _, _, _ => .ok ()

def finish : Call Msg Result Unit := do
  modify fun m => { m with tsigstatus := noerror }
  if t.error ≠ noerror then fail (errorResult t.error)
  else modify fun m => { m with verifiedSig := true }

def verifyWith (k : TsigKey) (t : TsigRecord) : Call Msg Result Unit := do
  let m ← read
  check (checkTime m now t)
  match k.key with
  | none => do
    assert False
    fail .failure
  | some key => do
    check (checkLength key t.siglen)
    check (checkMac m k key t)
    finish t

def verify : Call Msg Result Unit := do
  modify fun m => { m with verifyAttempted := true }
  let m ← read
  if m.tcpContinuation then
    if m.tsigkey.isNone || m.querytsig.isNone then fail .unexpectedTsig
    else verifyTcp now
  else
    match m.tsig with
    | none => fail .expectedTsig
    | some t =>
      if m.response && (m.tsigkey.isNone || m.querytsig.isNone) then fail .unexpectedTsig
      else do
        check (checkQuery m t)
        let k ← findKey view now t
        verifyWith now k t

def resetsig : Call Msg Result Unit := modify fun m => { m with
    verifiedSig := false
    verifyAttempted := false
    tsigstatus := noerror
    sig0status := noerror
    timeadjust := 0
    tsigkey := none }

/-- `dns_message_rechecksig` of a message with a TSIG record: `dns_message_checksig` is then
`dns_tsig_verify`. -/
def rechecksig : Call Msg Result Unit := do
  resetsig
  let m ← read
  assert m.tsig.isSome
  verify view now

/-- `dns_message_signer`: the result, and the name of the signer if one is given. Nothing is
returned if an assertion fails. -/
def signer : Option (Result × Option Name) := match m.sig0, m.tsig with
  | none, none => some (.notFound, none)
  | sig0, tsig =>
    if !m.verifyAttempted then some (.notVerifiedYet, none)
    else
      match sig0, tsig with
      | some (.error e), _ => some (e.1, none)
      | some (.ok name), _ =>
        some (if m.verifiedSig && m.sig0status = noerror then .success else .sigInvalid, some name)
      | none, none => none
      | none, some t =>
        let result : Result := if m.tsigstatus ≠ noerror then .tsigVerifyFailure
          else if t.error ≠ noerror then .tsigErrorSet
          else .success
        match m.tsigkey with
        | none => if result ≠ .success then some (result, none) else none
        | some k =>
          match k.identity with
          | some identity => some (result, some identity)
          | none => some (if result = .success then .noIdentity else result, some k.name)

end LbBind.Tsig

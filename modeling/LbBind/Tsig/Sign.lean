import LbBind.Tsig.Stream

/-! Signing a message (`dns_tsig_sign`), its bytes once it is rendered, and what a parsed message
has of them. The signer digests the header that it is about to render and its own copy of the
variables; the verifier takes all of this from the bytes and from the record. -/

namespace LbBind.Tsig

open Lib Call

/-- What `dns_tsig_sign` reads of a `dns_message_t`. The used region of its buffer is the place of
the header and `body`; `word` is the second word of the header. -/
structure Outgoing where
  id : ℕ
  word : ℕ
  qdcount : ℕ
  ancount : ℕ
  nscount : ℕ
  arcount : ℕ
  body : List UInt8
  tsigkey : TsigKey
  querytsig : Option TsigRecord
  querytsigstatus : ℕ
  timeadjust : ℤ
  tcpContinuation : Bool

def tsigFudge : ℕ := 300

namespace Outgoing

variable (m : Outgoing)

def response : Bool := m.word.testBit 15

/-- `dns_message_renderheader`, with the number of additional records. -/
def header (arcount : ℕ) : List UInt8 :=
  be16 m.id ++ (be16 m.word ++ be16 m.qdcount ++ be16 m.ancount ++ be16 m.nscount) ++ be16 arcount

def error : ℕ := if m.response then m.querytsigstatus else Rcode.noerror

def clock (now : ℕ) : ℕ := ((now + m.timeadjust) % 2 ^ 32).toNat

/-- The record without its signature. The reply to a record with a bad time has the time of that
record, and its own as other data. -/
def unsigned (now : ℕ) : TsigRecord where
  keyname := m.tsigkey.name
  rdclass := 255
  ttl := 0
  algorithm := m.tsigkey.algorithm
  timesigned := m.clock now
  fudge := tsigFudge
  signature := []
  originalid := m.id
  error := m.error
  other := if m.error = Rcode.badtime then be48 (m.clock now) else []

def queryMac : Except Result (List (List UInt8)) :=
  match m.response, m.querytsig with
  | true, some q =>
    if 126 < q.siglen then .error .noSpace else .ok [be16 q.siglen ++ q.signature]
  | _, _ => .ok []

def signPieces (t : TsigRecord) : List (List UInt8) :=
  [m.header m.arcount, m.body] ++
  (if m.tcpContinuation then []
    else [m.tsigkey.name.wire.ndata, be16 255 ++ be32 0, m.tsigkey.algorithm.wire.ndata]) ++
  [be48 t.timesigned ++ be16 t.fudge] ++
  if m.tcpContinuation then []
  else (be16 t.error ++ be16 t.other.length) :: if 0 < t.other.length then [t.other] else []

/-- The length to which a signature is cut: the digest bits of the key, but not less than the
query had, and not more than there is. -/
def siglen (key : DstKey) (full : ℕ) : ℕ := if key.bits = 0 then full
  else
    match m.response, m.querytsig with
    | true, some q => min (max ((key.bits + 1) / 8) q.siglen) full
    | _, _ => min ((key.bits + 1) / 8) full

def withTime (t : TsigRecord) : TsigRecord := match m.querytsig with
  | some q => if t.error = Rcode.badtime then { t with timesigned := q.timesigned } else t
  | none => t

variable (otherSign : DstKey → List UInt8 → Except Result (List UInt8))

def signature (m : Outgoing)
    (key : DstKey) (t : TsigRecord) : Except Result (List UInt8) := do
  key.createctx
  let query ← m.queryMac
  let ctx ← key.adddatas [] (query ++ m.signPieces t)
  let _ ← key.alg.sigsize key.size
  let mac ← if key.alg.hmac then .ok (key.digest ctx) else otherSign key ctx
  return mac.take (m.siglen key mac.length)

def sign (now : ℕ) (m : Outgoing) :
    Except Result TsigRecord :=
  if m.response && m.querytsig.isNone then .error .expectedTsig
  else
    match m.tsigkey.key with
    | none => .ok (m.unsigned now)
    | some key =>
      if m.error = Rcode.badsig then .ok (m.unsigned now)
      else do
        let t := m.withTime (m.unsigned now)
        let signature ← m.signature otherSign key t
        return { t with signature := signature }

end Outgoing

namespace TsigRecord

def rdata (t : TsigRecord) : List UInt8 :=
  t.algorithm.wire.ndata ++ (be48 t.timesigned ++ (be16 t.fudge ++ (be16 t.siglen ++ (t.signature ++
    (be16 t.originalid ++ (be16 t.error ++ (be16 t.other.length ++ t.other)))))))

def wire (t : TsigRecord) : List UInt8 :=
  t.keyname.wire.ndata ++ (be16 250 ++ (be16 t.rdclass ++ (be32 t.ttl ++
    (be16 t.rdata.length ++ t.rdata))))

structure Fits (t : TsigRecord) : Prop where
  keyname : t.keyname.absolute
  rdclass : t.rdclass < 2 ^ 16
  ttl : t.ttl < 2 ^ 32
  algorithm : t.algorithm.absolute
  timesigned : t.timesigned < 2 ^ 48
  fudge : t.fudge < 2 ^ 16
  signature : t.siglen < 2 ^ 16
  originalid : t.originalid < 2 ^ 16
  error : t.error < 2 ^ 16
  other : t.other.length < 2 ^ 16

end TsigRecord

/-- The bytes that `dns_message_renderend` leaves: one more additional record is counted, and the
TSIG record stands last. -/
def rendered (m : Outgoing) (t : TsigRecord) : List UInt8 :=
  m.header (m.arcount + 1) ++ (m.body ++ t.wire)

structure Parsed (bytes : List UInt8) (m : Msg) : Prop where
  source : m.source = bytes
  response : m.response = ((asMem bytes).rd16 2).testBit 15
  record : ∃ t, m.tsig = some t ∧ t.Fits ∧ bytes.drop m.sigstart = t.wire

end LbBind.Tsig

import Mathlib.Data.Nat.Notation

/-! Types of records. -/

namespace LbBind.Rdatatype

protected def none : ℕ := 0
def a : ℕ := 1
def ns : ℕ := 2
def md : ℕ := 3
def mf : ℕ := 4
def cname : ℕ := 5
def soa : ℕ := 6
def wks : ℕ := 11
def sig : ℕ := 24
def key : ℕ := 25
def nxt : ℕ := 30
def dname : ℕ := 39
def opt : ℕ := 41
def ds : ℕ := 43
def rrsig : ℕ := 46
def nsec : ℕ := 47
def dnskey : ℕ := 48
def nsec3 : ℕ := 50
def nsec3param : ℕ := 51
def tkey : ℕ := 249
def tsig : ℕ := 250
def any : ℕ := 255
def keydata : ℕ := 65533

variable (type : ℕ)

def atparent : Bool := type == ds

def ismeta : Bool := type = opt || (128 ≤ type && type ≤ 255)

/-- `dns_rdatatype_questiononly`: the types from IXFR to ANY. -/
def questiononly : Bool := 251 ≤ type && type ≤ 255

def issingleton : Bool := type = cname || type = soa || type = dname || type = opt

def isdnssec : Bool := [ds, rrsig, nsec, dnskey, nsec3, nsec3param, keydata].contains type

end LbBind.Rdatatype

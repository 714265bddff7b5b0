import LbBind.Tsig.Signer

/-! The signatures of a response of many messages (`xfrin_recv_done` of `lib/dns/xfrin.c`). The
later messages may come without a TSIG record; their bytes are kept in a digest context until a
signed message covers them. The routine for them compares a signature as far as it goes and has no
rule for its length. -/

namespace LbBind.Tsig

open Lib Call List Option Except DstKey Msg

/-- A message as it was received and parsed. `records` is what came of its records: an error, or
whether they end the transfer. -/
structure Packet where
  now : ℕ
  response : Bool
  source : List UInt8
  sigstart : ℕ
  tsig : Option TsigRecord
  records : Except Result Bool

/-- The fields of `dns_xfrin_ctx_t` that have to do with signatures. -/
structure Transfer where
  tsigkey : Option TsigKey
  lasttsig : Option TsigRecord
  tsigctx : Option (List UInt8)
  nmsg : ℕ
  sincetsig : ℕ

variable (k : TsigKey) (q : TsigRecord)

/-- The state after the request was sent with the signature `q`. -/
def Transfer.start : Transfer := ⟨some k, some q, none, 0, 0⟩

def Transfer.message (x : Transfer) (p : Packet) : Msg where
  response := p.response
  source := p.source
  sigstart := p.sigstart
  tsig := p.tsig
  sig0 := none
  tsigkey := x.tsigkey
  querytsig := x.lasttsig
  tsigctx := x.tsigctx
  tcpContinuation := 0 < x.nmsg
  timeadjust := 0
  tsigstatus := Rcode.noerror
  sig0status := Rcode.noerror
  verifyAttempted := false
  verifiedSig := false

/-- `dns_message_checksig` of a message without a SIG(0) record. -/
def checksig (view : View) (now : ℕ) : Call Msg Result Unit := do
  let m ← read
  if m.tsigkey.isSome || m.tsig.isSome then verify view now else pure ()

def Transfer.count (x : Transfer) (p : Packet) (ended : Bool) : Except Result Transfer :=
  if p.tsig.isSome then .ok { x with lasttsig := p.tsig, sincetsig := 0 }
  else if x.tsigkey.isSome then
    if 100 < x.sincetsig + 1 || x.nmsg = 0 || ended then .error .expectedTsig
    else .ok { x with sincetsig := x.sincetsig + 1 }
  else .ok x

/-- `xfrin_recv_done`, as far as it is about signatures. Nothing is returned if an assertion
fails. -/
def recv (view : View) (p : Packet) (x : Transfer) : Option (Except Result Transfer) := do
  let (r, m) ← (checksig view p.now).run (x.message p)
  return do
    r
    let ended ← p.records
    let x ← x.count p ended
    return { x with nmsg := x.nmsg + 1, tsigctx := m.tsigctx }

def recvAll (view : View) : List Packet → Transfer → Option (Except Result Transfer)
  | [], x => some (.ok x)
  | p :: ps, x =>
    match recv view p x with
    | some (.ok x) => recvAll view ps x
    | r => r

variable (ps : List Packet)

def lastSigned : TsigRecord :=
  ps.foldl (fun q p => p.tsig.getD q) q

def sinceSigned : List Packet :=
  ps.foldl (fun us p => if p.tsig.isSome then [] else us ++ [p]) []

def carried : List UInt8 :=
  (macPieces (lastSigned q ps)).flatten ++ (sinceSigned ps).flatMap Packet.source

def timers (t : TsigRecord) : List UInt8 := be48 t.timesigned ++ be16 t.fudge

def tsigVariables (t : TsigRecord) : List UInt8 :=
  k.name.wire.ndata ++ be16 t.rdclass ++ be32 t.ttl ++ k.algorithm.wire.ndata ++ timers t ++
    be16 t.error ++ be16 t.other.length ++ t.other

/-- The data under the signature `t` of the packet `p`, when `ps` came before it: the previous
signature, all bytes since then, and the time fields. -/
def digested (p : Packet) (t : TsigRecord) :
    List UInt8 :=
  let m := (Transfer.start k q).message p
  carried q ps ++ m.signedHeader t ++ m.signedRecords ++
    if ps = [] then tsigVariables k t else timers t

def Agrees (key : DstKey) (q : TsigRecord) (ps : List Packet) (p : Packet)
    (t : TsigRecord) : Prop :=
  t.signature = (key.digest (digested k q ps p t)).take t.siglen

structure Authentic (k : TsigKey) (key : DstKey) (q : TsigRecord) (ps : List Packet) (p : Packet)
    (t : TsigRecord) : Prop where
  length : ∃ full, Acceptable key full t.siglen
  mac : Agrees k key q ps p t

variable {view : View} {now : ℕ} {m m' : Msg} {k : TsigKey} {key : DstKey} {q t : TsigRecord}
  {x x' : Transfer} {p : Packet} {ps : List Packet}

@[simp]
lemma lastSigned_snoc : lastSigned q (ps ++ [p]) = p.tsig.getD (lastSigned q ps) := by
  simp [lastSigned]

@[simp]
lemma sinceSigned_snoc :
    sinceSigned (ps ++ [p]) = if p.tsig.isSome then [] else sinceSigned ps ++ [p] := by
  simp [sinceSigned]

section
variable (hmac : key.alg.hmac)
include hmac

lemma adddatas_hmac (ctx : List UInt8) (ds : List (List UInt8)) :
    key.adddatas ctx ds = .ok (ctx ++ ds.flatten) := by
  induction ds generalizing ctx with
  | nil => simp [adddatas, pure, Except.pure]
  | cons d ds ih =>
    rw [adddatas, foldlM_cons, adddata, if_pos hmac]
    refine (ih (ctx ++ d)).trans ?_
    simp

lemma verify_hmac {ctx sig : List UInt8}
    (h : key.verify ctx sig = .ok ()) : sig = (key.digest ctx).take sig.length := by
  rw [DstKey.verify, if_pos hmac] at h
  split_ifs at h with hlength hsig
  exact hsig

lemma compareMac_hmac {ds : List (List UInt8)} {sig : List UInt8}
    (h : compareMac key ds sig = .ok ()) : sig = (key.digest ds.flatten).take sig.length := by
  rw [compareMac, adddatas_hmac hmac] at h
  cases hctx : key.createctx with
  | error e =>
    rw [hctx] at h
    cases h
  | ok u =>
    rw [hctx] at h
    simpa using verify_hmac hmac h

lemma openContext_hmac {ctx : Option (List UInt8)} {data : List UInt8}
    (h : openContext key q ctx = .ok data) : data = ctx.getD (macPieces q).flatten := by
  cases ctx with
  | some ctx => exact (ok.inj h).symm
  | none =>
    rw [openContext, adddatas_hmac hmac] at h
    cases hctx : key.createctx with
    | error e =>
      rw [hctx] at h
      cases h
    | ok u =>
      rw [hctx] at h
      exact (ok.inj h).symm

end

lemma check_eq_ok {c : Except Failure Unit} (h : (check c).run m = some (.ok (), m')) :
    c = .ok () ∧ m = m' := by
  rcases c with ⟨result, _ | status⟩ | _
  · cases h
  · cases h
  · cases h
    exact ⟨rfl, rfl⟩

lemma verifyWith_ok (hkey : k.key = some key)
    (h : (verifyWith now k t).run m = some (.ok (), m')) :
    checkLength key t.siglen = .ok () ∧ checkMac m k key t = .ok () ∧ t.error = Rcode.noerror ∧
      m'.tsigctx = m.tsigctx := by
  simp only [verifyWith, hkey] at h
  obtain ⟨_, _, hread, h1⟩ := bind_eq_ok.mp h
  cases hread
  obtain ⟨_, _, htime, h2⟩ := bind_eq_ok.mp h1
  obtain ⟨-, rfl⟩ := check_eq_ok htime
  obtain ⟨_, _, hcheck, h3⟩ := bind_eq_ok.mp h2
  obtain ⟨hlength, rfl⟩ := check_eq_ok hcheck
  obtain ⟨_, _, hcheck', h4⟩ := bind_eq_ok.mp h3
  obtain ⟨hcompare, rfl⟩ := check_eq_ok hcheck'
  simp only [finish, bind_run, modify_run] at h4
  split_ifs at h4 with herror
  · cases h4
  · cases h4
    exact ⟨hlength, hcompare, not_not.mp herror, rfl⟩

lemma verify_ok (htcp : m.tcpContinuation = false) (hk : m.tsigkey = some k)
    (hkey : k.key = some key) (h : (verify view now).run m = some (.ok (), m')) :
    ∃ t, m.tsig = some t ∧ checkLength key t.siglen = .ok () ∧ checkMac m k key t = .ok () ∧
      t.error = Rcode.noerror ∧ m'.tsigctx = m.tsigctx := by
  obtain ⟨_, m1, hattempt, h1⟩ := bind_eq_ok.mp h
  cases hattempt
  obtain ⟨_, m1, hread, h2⟩ := bind_eq_ok.mp h1
  cases hread
  simp only [htcp, Bool.false_eq_true, if_false] at h2
  cases ht : m.tsig with
  | none =>
    simp only [ht] at h2
    cases h2
  | some t =>
    simp only [ht] at h2
    split_ifs at h2
    · cases h2
    obtain ⟨_, _, hquery, h3⟩ := bind_eq_ok.mp h2
    obtain ⟨-, rfl⟩ := check_eq_ok hquery
    obtain ⟨_, _, hfind, h4⟩ := bind_eq_ok.mp h3
    simp only [findKey, bind_run, read_run, hk, pure_run] at hfind
    cases hfind
    refine ⟨t, rfl, ?_⟩
    simpa only [checkMac, pieces, signedHeader, signedRecords] using verifyWith_ok hkey h4

lemma verifyTcp_ok (hk : m.tsigkey = some k) (hq : m.querytsig = some q) (hkey : k.key = some key)
    (hmac : key.alg.hmac) (h : (verifyTcp now).run m = some (.ok (), m')) :
    let ctx := m.tsigctx.getD (macPieces q).flatten ++ (tcpPieces m).flatten
    (∀ t, m.tsig = some t → t.signature = (key.digest ctx).take t.siglen ∧ m'.tsigctx = none) ∧
      (m.tsig = none → m'.tsigctx = some ctx) := by
  obtain ⟨_, _, hread, h1⟩ := bind_eq_ok.mp h
  cases hread
  simp only [hk, hq, hkey] at h1
  split_ifs at h1 with hresponse
  · cases h1
  obtain ⟨_, _, hcheck, h2⟩ := bind_eq_ok.mp h1
  obtain ⟨-, rfl⟩ := check_eq_ok hcheck
  cases hopen : openContext key q m.tsigctx with
  | error e =>
    simp only [hopen] at h2
    cases h2
  | ok data =>
    obtain rfl := openContext_hmac hmac hopen
    simp only [hopen, adddatas_hmac hmac] at h2
    obtain ⟨_, _, hstore, h3⟩ := bind_eq_ok.mp h2
    cases hstore
    obtain ⟨_, m2, hclose, h4⟩ := bind_eq_ok.mp h3
    cases h4
    cases ht : m.tsig with
    | none =>
      rw [ht] at hclose
      cases hclose
      exact ⟨fun t h => absurd h (by simp), fun _ => rfl⟩
    | some t =>
      rw [ht] at hclose
      obtain ⟨_, m3, hcompare, hdrop⟩ := bind_eq_ok.mp hclose
      cases hdrop
      refine ⟨fun t' h => ?_, fun h => by cases h⟩
      cases h
      have hok := (check_eq_ok (onError_eq_ok.mp hcompare)).1
      rw [checkTcpMac] at hok
      split_ifs at hok
      exact ⟨verify_hmac hmac (macFailure_eq_ok hok), rfl⟩

structure Carries (k : TsigKey) (q : TsigRecord) (ps : List Packet) (x : Transfer) : Prop where
  tsigkey : x.tsigkey = some k
  lasttsig : x.lasttsig = some (lastSigned q ps)
  nmsg : x.nmsg = ps.length
  tsigctx : x.tsigctx = if sinceSigned ps = [] then none else some (carried q ps)

lemma Carries.start (k : TsigKey) (q : TsigRecord) : Carries k q [] (Transfer.start k q) :=
  ⟨rfl, rfl, rfl, rfl⟩

lemma Transfer.count_ok {ended : Bool} (hk : x.tsigkey = some k) (h : x.count p ended = .ok x') :
    x'.tsigkey = some k ∧ x'.lasttsig = p.tsig.or x.lasttsig ∧ x'.nmsg = x.nmsg := by
  rw [count] at h
  cases ht : p.tsig with
  | some t =>
    rw [ht, isSome_some, if_pos rfl] at h
    cases h
    exact ⟨hk, rfl, rfl⟩
  | none =>
    simp only [ht, hk, isSome_none, Bool.false_eq_true, if_false, isSome_some, if_true] at h
    split_ifs at h
    cases h
    exact ⟨rfl, rfl, rfl⟩

attribute [local simp] Transfer.message

lemma recv_ok (hk : x.tsigkey = some k) (h : recv view p x = some (.ok x')) :
    ∃ m, (verify view p.now).run (x.message p) = some (.ok (), m) ∧ x'.tsigkey = some k ∧
      x'.lasttsig = p.tsig.or x.lasttsig ∧ x'.nmsg = x.nmsg + 1 ∧ x'.tsigctx = m.tsigctx := by
  have hcheck : (checksig view p.now).run (x.message p) = (verify view p.now).run (x.message p) := by
    simp [checksig, hk]
  rw [recv, hcheck] at h
  rcases hrun : (verify view p.now).run (x.message p) with _ | ⟨e | _, m⟩
  · rw [hrun] at h
    cases h
  · rw [hrun] at h
    cases h
  · rw [hrun] at h
    rcases hrecords : p.records with e | ended
    · rw [hrecords] at h
      cases h
    rcases hcount : x.count p ended with e | y
    · rw [hrecords] at h
      simp [bind, Except.bind, hcount] at h
    · rw [hrecords] at h
      simp only [bind, Except.bind, hcount] at h
      cases h
      obtain ⟨hkey, hlast, hnmsg⟩ := Transfer.count_ok hk hcount
      exact ⟨m, rfl, hkey, hlast, by simp [hnmsg], rfl⟩

section
variable (hkey : k.key = some key) (hmac : key.alg.hmac)
include hkey hmac

section
variable (h : recv view p x = some (.ok x'))
include h

lemma Carries.recv_first (hc : Carries k q [] x) (hresponse : p.response) :
    ∃ t, p.tsig = some t ∧ Carries k q [p] x' ∧ Authentic k key q [] p t := by
  obtain ⟨m, hverify, hk, hlast, hnmsg, hctx⟩ := recv_ok hc.tsigkey h
  have htcp : (x.message p).tcpContinuation = false := by simp [hc.nmsg]
  obtain ⟨t, ht, hlength, hcompare, herror, hkeep⟩ := verify_ok htcp hc.tsigkey hkey hverify
  change p.tsig = some t at ht
  obtain ⟨hmatch, hempty, -⟩ := checkMac_ok hcompare
  have hpos : 0 < t.siglen := by
    by_contra hzero
    exact hempty (by omega) herror
  have hpieces : (pieces (x.message p) k t).flatten = digested k q [] p t := by
    have hother : (if 0 < t.other.length then [t.other] else []).flatten = t.other := by
      split_ifs with hlength
      · simp
      · simpa using hlength
    simp [pieces, digested, carried, sinceSigned, lastSigned, hother, tsigVariables, timers, signedHeader, signedRecords, hc.lasttsig, hresponse]
  refine ⟨t, ht, ⟨hk, ?_, ?_, ?_⟩, checkLength_acceptable hlength hpos hmac, ?_⟩
  · simp [hlast, ht, lastSigned]
  · simp [hnmsg, hc.nmsg]
  · have hnone : x.tsigctx = none := hc.tsigctx
    rw [hctx, hkeep]
    simp [sinceSigned, ht, hnone]
  · rw [Agrees, ← hpieces]
    exact compareMac_hmac hmac (hmatch hpos)

lemma Carries.recv_next (hc : Carries k q ps x) (hps : ps ≠ []) :
    Carries k q (ps ++ [p]) x' ∧ ∀ t, p.tsig = some t → Agrees k key q ps p t := by
  obtain ⟨m, hverify, hk, hlast, hnmsg, hctx⟩ := recv_ok hc.tsigkey h
  have hpos : 0 < x.nmsg := by
    rw [hc.nmsg]
    exact length_pos_iff.mpr hps
  have htcp : (verifyTcp p.now).run { x.message p with verifyAttempted := true } =
      some (.ok (), m) := by
    simpa [verify, hpos, hc.tsigkey, hc.lasttsig] using hverify
  have hdata : x.tsigctx.getD (macPieces (lastSigned q ps)).flatten = carried q ps := by
    rw [hc.tsigctx]
    split_ifs with hnil
    · simp [carried, hnil]
    · rfl
  obtain ⟨hsigned, hunsigned⟩ := verifyTcp_ok hc.tsigkey hc.lasttsig hkey hmac htcp
  change ∀ t, p.tsig = some t → _ at hsigned
  change p.tsig = none → _ at hunsigned
  refine ⟨⟨hk, ?_, ?_, ?_⟩, fun t ht => ?_⟩
  · rw [hlast, hc.lasttsig, lastSigned_snoc]
    cases p.tsig <;> rfl
  · simp [hnmsg, hc.nmsg]
  · cases ht : p.tsig with
    | some t => simp [hctx, (hsigned t ht).2, ht]
    | none =>
      rw [hctx, hunsigned ht]
      simp [ht, tcpPieces, hdata, carried]
  · rw [Agrees, (hsigned t ht).1]
    simp [digested, hps, tcpPieces, ht, hdata, timers, signedHeader, signedRecords]

lemma Carries.recv (hc : Carries k q ps x) (hresponse : p.response) :
    Carries k q (ps ++ [p]) x' ∧ ∀ t, p.tsig = some t →
      Agrees k key q ps p t ∧ (ps = [] → ∃ full, Acceptable key full t.siglen) := by
  by_cases hps : ps = []
  · subst hps
    obtain ⟨t, ht, hc', hauthentic⟩ := hc.recv_first hkey hmac h hresponse
    refine ⟨hc', fun t' ht' => ?_⟩
    obtain rfl := some.inj (ht.symm.trans ht')
    exact ⟨hauthentic.mac, fun _ => hauthentic.length⟩
  · obtain ⟨hc', hagrees⟩ := hc.recv_next hkey hmac h hps
    exact ⟨hc', fun t ht => ⟨hagrees t ht, fun hnil => absurd hnil hps⟩⟩

end

lemma Carries.recvAll {qs : List Packet} (hc : Carries k q qs x)
    (hresponse : ∀ p ∈ ps, p.response) (h : recvAll view ps x = some (.ok x'))
    (pre : List Packet) (p : Packet) (post : List Packet) (t : TsigRecord)
    (hps : ps = pre ++ p :: post) (ht : p.tsig = some t) : Agrees k key q (qs ++ pre) p t ∧
      (qs ++ pre = [] → ∃ full, Acceptable key full t.siglen) := by
  induction ps generalizing qs x pre with
  | nil => simp at hps
  | cons p' ps ih =>
    have hfirst : ∃ x1, Tsig.recv view p' x = some (.ok x1) ∧
        recvAll view ps x1 = some (.ok x') := by
      rw [recvAll] at h
      split at h
      next x1 hrecv => exact ⟨x1, hrecv, h⟩
      next hno => exact absurd h (hno x')
    obtain ⟨x1, hrecv, hrest⟩ := hfirst
    obtain ⟨hc', hsigned⟩ := hc.recv hkey hmac hrecv (hresponse p' mem_cons_self)
    cases pre with
    | nil =>
      obtain ⟨rfl, -⟩ := cons.inj hps
      simpa using hsigned t ht
    | cons p0 pre =>
      obtain ⟨rfl, htail⟩ := cons.inj hps
      simpa using ih hc' (fun p hp => hresponse p (.tail _ hp)) hrest pre htail

end

/-- Every signature of a response of many messages has an acceptable length and agrees with the
digest of the previous signature, of all bytes since then and of the time fields: if and only if
the signatures after the first one come with an acceptable length. -/
theorem recvAll_authentic_iff (hkey : k.key = some key) (hmac : key.alg.hmac)
    (hresponse : ∀ p ∈ ps, p.response) (h : recvAll view ps (Transfer.start k q) = some (.ok x)) :
    (∀ pre p post t, ps = pre ++ p :: post → p.tsig = some t → Authentic k key q pre p t) ↔
      ∀ p ∈ ps.tail, ∀ t, p.tsig = some t → ∃ full, Acceptable key full t.siglen := by
  have hrun := (Carries.start k q).recvAll hkey hmac hresponse h
  constructor
  · intro hall p hp t ht
    obtain ⟨pre, post, htail⟩ := append_of_mem hp
    cases ps with
    | nil => simp at hp
    | cons p0 ps => exact (hall (p0 :: pre) p post t (congrArg (p0 :: ·) htail) ht).length
  · intro hlength pre p post t hps ht
    obtain ⟨hagrees, hfirst⟩ := hrun pre p post t hps ht
    refine ⟨?_, hagrees⟩
    cases pre with
    | nil => exact hfirst rfl
    | cons p0 pre => exact hlength p (by simp [hps]) t ht

variable (signature : List UInt8)

def rootTsig : TsigRecord :=
  ⟨Name.root, 255, 0, Name.root, 300, 300, signature, 0, 0, []⟩

def signedResponse : Packet where
  now := 300
  response := true
  source := List.replicate 12 0
  sigstart := 12
  tsig := some (rootTsig signature)
  records := .ok false

theorem recvAll_authentic_iff_two :
    let ps := [signedResponse (List.replicate 16 0), signedResponse (List.replicate 16 0)]
    let q := rootTsig (List.replicate 16 0)
    (∃ x, recvAll rootView ps (Transfer.start rootKey q) = some (.ok x)) ∧
      ((∀ pre p post t, ps = pre ++ p :: post → p.tsig = some t →
          Authentic rootKey md5Key q pre p t) ↔
        ∀ p ∈ ps.tail, ∀ t, p.tsig = some t → ∃ full, Acceptable md5Key full t.siglen) := by
  intro ps q
  have hrun : ∃ x, recvAll rootView ps (Transfer.start rootKey q) = some (.ok x) := ⟨_, rfl⟩
  obtain ⟨x, hx⟩ := hrun
  refine ⟨⟨x, hx⟩, recvAll_authentic_iff rfl rfl ?_ hx⟩
  intro p hp
  rcases mem_pair.mp hp with rfl | rfl <;> rfl

/-- The second message of a response is accepted with a signature of one byte. -/
theorem recvAll_short_signature :
    let ps := [signedResponse (List.replicate 16 0), signedResponse [0]]
    let q := rootTsig (List.replicate 16 0)
    (∃ x, recvAll rootView ps (Transfer.start rootKey q) = some (.ok x)) ∧
      ∀ full, ¬Acceptable md5Key full (rootTsig [0]).siglen := by
  refine ⟨⟨_, rfl⟩, fun full h => ?_⟩
  exact absurd h.ten (by decide)

end LbBind.Tsig

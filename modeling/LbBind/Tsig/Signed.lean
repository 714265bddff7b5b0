import LbBind.Tsig.Sign

/-! A message that was signed is verified: the bytes determine the record, the verifier digests what
the signer digested, and it accepts the length of the signature. What remains is that the algorithm
of the query is that of the key, and that the time of the record is not so early that the
subtraction of the fudge wraps around. -/

namespace LbBind

open List Label

/-- The wire forms of two absolute names that begin alike are the same. -/
lemma wireOf_append_inj {ls ms : List Label} {x y : List UInt8}
    (hls : ∀ l ∈ ls.dropLast, l ≠ root) (hls' : ls.getLast? = some root)
    (hms : ∀ l ∈ ms.dropLast, l ≠ root) (hms' : ms.getLast? = some root)
    (h : wireOf ls ++ x = wireOf ms ++ y) : ls = ms ∧ x = y := by
  induction ls generalizing ms with
  | nil => simp at hls'
  | cons l ls ih =>
    cases ms with
    | nil => simp at hms'
    | cons m ms =>
      simp only [wireOf_cons, bytes, cons_append, List.cons.injEq, append_assoc] at h
      obtain ⟨hlength, hrest⟩ := h
      have hlen : l.1.length = m.1.length := by
        rw [← toNat_length l, ← toNat_length m, hlength]
      obtain ⟨hlm, htail⟩ := append_inj hrest hlen
      obtain rfl : l = m := Subtype.ext hlm
      by_cases hnil : ls = []
      · subst hnil
        obtain rfl : l = root := by simpa using hls'
        have hms_nil : ms = [] := by
          by_contra hne
          exact hms root (by simp [dropLast_cons_of_ne_nil hne]) rfl
        subst hms_nil
        exact ⟨rfl, by simpa using htail⟩
      · have hl : l ≠ root := hls l (by simp [dropLast_cons_of_ne_nil hnil])
        have hne : ms ≠ [] := by
          rintro rfl
          exact hl (by simpa using hms')
        rw [dropLast_cons_of_ne_nil hnil] at hls
        rw [dropLast_cons_of_ne_nil hne] at hms
        obtain ⟨hrest, hxy⟩ := ih (fun a ha => hls a (.tail _ ha))
          (by rwa [getLast?_cons_of_ne_nil hnil] at hls')
          (fun a ha => hms a (.tail _ ha))
          (by rwa [getLast?_cons_of_ne_nil hne] at hms') htail
        exact ⟨by rw [hrest], hxy⟩

lemma Name.wire_append_inj {a b : Name} (ha : a.absolute) (hb : b.absolute)
    {x y : List UInt8} (h : a.wire.ndata ++ x = b.wire.ndata ++ y) : a = b ∧ x = y := by
  obtain ⟨la, ha1, ha2⟩ := a
  obtain ⟨lb, hb1, hb2⟩ := b
  obtain ⟨hl, hxy⟩ := wireOf_append_inj ha1 (by simpa [absolute] using ha) hb1
    (by simpa [absolute] using hb) h
  subst hl
  exact ⟨rfl, hxy⟩

end LbBind

namespace LbBind.Tsig

open Lib Call List Rcode

variable {m n : ℕ}

lemma be16_inj (hm : m < 2 ^ 16) (hn : n < 2 ^ 16) (h : be16 m = be16 n) : m = n := by
  have hrd := congrArg (fun bs => (Mem.put (fun _ => 0) 0 bs).rd16 0) h
  simpa [Mem.rd16_put _ _ _ hm, Mem.rd16_put _ _ _ hn] using hrd

lemma be32_inj (hm : m < 2 ^ 32) (hn : n < 2 ^ 32) (h : be32 m = be32 n) : m = n := by
  have hrd := congrArg (fun bs => (Mem.put (fun _ => 0) 0 bs).rd32 0) h
  simpa [Mem.rd32_put _ _ _ hm, Mem.rd32_put _ _ _ hn] using hrd

lemma be48_inj (hm : m < 2 ^ 48) (hn : n < 2 ^ 48) (h : be48 m = be48 n) : m = n := by
  obtain ⟨hhigh, hlow⟩ := append_inj h rfl
  have h1 := be16_inj (by omega) (by omega) hhigh
  have h2 := be32_inj (Nat.mod_lt _ (by decide)) (Nat.mod_lt _ (by decide)) hlow
  omega

lemma TsigRecord.wire_inj {t u : TsigRecord} (ht : t.Fits) (hu : u.Fits)
    (h : t.wire = u.wire) : t = u := by
  obtain ⟨hname, h⟩ := Name.wire_append_inj ht.keyname hu.keyname h
  obtain ⟨-, h⟩ := append_inj h rfl
  obtain ⟨hclass, h⟩ := append_inj h rfl
  obtain ⟨httl, h⟩ := append_inj h rfl
  obtain ⟨-, h⟩ := append_inj h rfl
  obtain ⟨halg, h⟩ := Name.wire_append_inj ht.algorithm hu.algorithm h
  obtain ⟨htime, h⟩ := append_inj h rfl
  obtain ⟨hfudge, h⟩ := append_inj h rfl
  obtain ⟨hsiglen, h⟩ := append_inj h rfl
  obtain ⟨hsig, h⟩ := append_inj h (be16_inj ht.signature hu.signature hsiglen)
  obtain ⟨hid, h⟩ := append_inj h rfl
  obtain ⟨herror, h⟩ := append_inj h rfl
  obtain ⟨-, hother⟩ := append_inj h rfl
  obtain ⟨⟩ := t
  obtain ⟨⟩ := u
  simp only [TsigRecord.mk.injEq]
  exact ⟨hname, be16_inj ht.rdclass hu.rdclass hclass, be32_inj ht.ttl hu.ttl httl, halg,
    be48_inj ht.timesigned hu.timesigned htime, be16_inj ht.fudge hu.fudge hfudge, hsig,
    be16_inj ht.originalid hu.originalid hid, be16_inj ht.error hu.error herror, hother⟩

structure Outgoing.Fits (m : Outgoing) : Prop where
  id : m.id < 2 ^ 16
  word : m.word < 2 ^ 16
  arcount : m.arcount + 1 < 2 ^ 16
  status : m.querytsigstatus < 2 ^ 16
  name : m.tsigkey.name.absolute
  algorithm : m.tsigkey.algorithm.absolute
  query : ∀ q, m.querytsig = some q → q.timesigned < 2 ^ 48

lemma length_header (m : Outgoing) (n : ℕ) : (m.header n).length = headerlen := rfl

lemma rd16_asMem_append (pre post : List UInt8) (hn : n < 2 ^ 16) :
    (asMem (pre ++ be16 n ++ post)).rd16 pre.length = n :=
  Mem.rd16_of_slice _ (asMem_slice pre (be16 n) post) hn

section
variable {m : Outgoing} {t : TsigRecord} {m' : Msg}

lemma rd16_word (hm : m.Fits) (t : TsigRecord) : (asMem (rendered m t)).rd16 2 = m.word := by
  have h := rd16_asMem_append (be16 m.id) (be16 m.qdcount ++ be16 m.ancount ++ be16 m.nscount ++
    be16 (m.arcount + 1) ++ (m.body ++ t.wire)) hm.word
  simpa [rendered, Outgoing.header] using h

lemma rd16_arcount (hm : m.Fits) (t : TsigRecord) :
    (asMem (rendered m t)).rd16 10 = m.arcount + 1 := by
  have h := rd16_asMem_append (be16 m.id ++ (be16 m.word ++ be16 m.qdcount ++ be16 m.ancount ++
    be16 m.nscount)) (m.body ++ t.wire) hm.arcount
  simpa [rendered, Outgoing.header] using h

section
variable (hp : Parsed (rendered m t) m')
include hp

lemma Parsed.response_eq (hm : m.Fits) : m'.response = m.response := by
  rw [hp.response, rd16_word hm, Outgoing.response]

lemma Parsed.tsig_eq (ht : t.Fits)
    (hstart : m'.sigstart = headerlen + m.body.length) : m'.tsig = some t := by
  obtain ⟨u, hu, hfits, hwire⟩ := hp.record
  have hdrop : (rendered m t).drop m'.sigstart = t.wire := by
    rw [rendered, ← append_assoc]
    exact drop_left' (by rw [length_append, length_header, hstart])
  rw [hdrop] at hwire
  rw [hu, TsigRecord.wire_inj ht hfits hwire]

lemma Parsed.signedHeader_eq (hm : m.Fits)
    (hid : t.originalid = m.id) : m'.signedHeader t = m.header m.arcount := by
  have hcount : (m.arcount + 1 + 65535) % 65536 = m.arcount := by
    have := hm.arcount
    omega
  have hmiddle : ((rendered m t).drop 2).take 8 =
      be16 m.word ++ be16 m.qdcount ++ be16 m.ancount ++ be16 m.nscount := by
    rw [rendered, Outgoing.header, append_assoc, append_assoc, drop_left' (length_be16 _)]
    exact take_left' rfl
  rw [Msg.signedHeader, hp.source, rd16_arcount hm, hcount, hmiddle, hid, Outgoing.header]

lemma Parsed.signedRecords_eq
    (hstart : m'.sigstart = headerlen + m.body.length) : m'.signedRecords = m.body := by
  rw [Msg.signedRecords, hp.source, rendered, drop_left' (length_header _ _), hstart,
    Nat.add_sub_cancel_left]
  exact take_left' rfl

end
end

structure Describes (m : Outgoing) (t : TsigRecord) : Prop where
  keyname : t.keyname = m.tsigkey.name
  rdclass : t.rdclass = 255
  ttl : t.ttl = 0
  algorithm : t.algorithm = m.tsigkey.algorithm
  timesigned : t.timesigned < 2 ^ 48
  fudge : t.fudge = tsigFudge
  originalid : t.originalid = m.id
  error : t.error = m.error
  other : t.other.length < 2 ^ 16

section
variable {otherSign : DstKey → List UInt8 → Except Result (List UInt8)} {m : Outgoing}
  {t : TsigRecord} {key : DstKey} {now full : ℕ}

lemma unsigned_describes (hm : m.Fits) : Describes m (m.withTime (m.unsigned now)) := by
  have hclock : m.clock now < 2 ^ 48 := by
    rw [Outgoing.clock]
    omega
  have hother : (m.unsigned now).other.length < 2 ^ 16 := by
    simp only [Outgoing.unsigned]
    split_ifs <;> simp [be48]
  unfold Outgoing.withTime
  split
  · rename_i q hq
    split_ifs
    · exact ⟨rfl, rfl, rfl, rfl, hm.query q hq, rfl, rfl, rfl, hother⟩
    · exact ⟨rfl, rfl, rfl, rfl, hclock, rfl, rfl, rfl, hother⟩
  · exact ⟨rfl, rfl, rfl, rfl, hclock, rfl, rfl, rfl, hother⟩

lemma withTime_badsig (herror : m.error = badsig) :
    m.withTime (m.unsigned now) = m.unsigned now := by
  unfold Outgoing.withTime
  split
  · exact if_neg (by simp [Outgoing.unsigned, herror, badsig, badtime])
  · rfl

lemma sign_ok (hkey : m.tsigkey.key = some key) (hmac : key.alg.hmac)
    (h : m.sign otherSign now = .ok t) : (m.response → m.querytsig ≠ none) ∧
      ((m.error = badsig ∧ t = m.withTime (m.unsigned now)) ∨
        m.error ≠ badsig ∧ ∃ query, key.createctx = .ok () ∧ m.queryMac = .ok query ∧
          t = { m.withTime (m.unsigned now) with
            signature := (key.digest (query ++ m.signPieces t).flatten).take
              (m.siglen key (key.digest (query ++ m.signPieces t).flatten).length) }) := by
  unfold Outgoing.sign at h
  by_cases hquery : (m.response && m.querytsig.isNone)
  · rw [if_pos hquery] at h
    cases h
  rw [if_neg hquery] at h
  have hresponse : m.response → m.querytsig ≠ none := by
    intro hr hnone
    simp [hr, hnone] at hquery
  refine ⟨hresponse, ?_⟩
  simp only [hkey] at h
  by_cases herror : m.error = badsig
  · rw [if_pos herror] at h
    cases h
    exact .inl ⟨herror, (withTime_badsig herror).symm⟩
  · rw [if_neg herror] at h
    refine .inr ⟨herror, ?_⟩
    unfold Outgoing.signature at h
    cases hctx : key.createctx with
    | error e => simp [hctx, bind, Except.bind] at h
    | ok u =>
      cases hq : m.queryMac with
      | error e => simp [hctx, hq, bind, Except.bind] at h
      | ok query =>
        have hsize := key.length_digest hmac
          (query ++ m.signPieces (m.withTime (m.unsigned now))).flatten
        simp only [hctx, hq, adddatas_hmac hmac, hsize, hmac, bind, Except.bind, pure, Except.pure,
          nil_append, if_true, Except.ok.injEq] at h
        subst h
        exact ⟨query, rfl, rfl, rfl⟩

lemma sign_describes (hm : m.Fits) (hkey : m.tsigkey.key = some key)
    (hmac : key.alg.hmac) (h : m.sign otherSign now = .ok t) : Describes m t := by
  have hd : Describes m (m.withTime (m.unsigned now)) := unsigned_describes hm
  obtain ⟨-, ⟨-, rfl⟩ | ⟨-, query, -, -, ht⟩⟩ := sign_ok hkey hmac h
  · exact hd
  · rw [ht]
    exact ⟨hd.1, hd.2, hd.3, hd.4, hd.5, hd.6, hd.7, hd.8, hd.9⟩

lemma siglen_le (m : Outgoing) (key : DstKey) (full : ℕ) : m.siglen key full ≤ full := by
  unfold Outgoing.siglen
  split_ifs
  · exact le_rfl
  · split <;> exact min_le_right _ _

lemma sign_siglen (hkey : m.tsigkey.key = some key) (hmac : key.alg.hmac)
    (hfull : key.alg.sigsize key.size = .ok full) (h : m.sign otherSign now = .ok t) :
    t.siglen = if m.error = badsig then 0 else m.siglen key full := by
  obtain ⟨-, ⟨herror, rfl⟩ | ⟨herror, query, -, -, ht⟩⟩ := sign_ok hkey hmac h
  · rw [if_pos herror, withTime_badsig herror]
    rfl
  · have hlength : (key.digest (query ++ m.signPieces t).flatten).length = full := by
      have := key.length_digest hmac (query ++ m.signPieces t).flatten
      rw [hfull] at this
      exact (Except.ok.inj this).symm
    rw [if_neg herror, TsigRecord.siglen, ht]
    simp only [length_take, hlength]
    exact min_eq_left (siglen_le m key full)

lemma sigsize_le (hmac : key.alg.hmac)
    (hfull : key.alg.sigsize key.size = .ok full) : full ≤ 64 ∧ 16 ≤ full ∧ full % 2 = 0 := by
  unfold Algorithm.sigsize at hfull
  cases halg : key.alg <;> simp_all [Algorithm.hmac] <;> omega

lemma sign_fits (hm : m.Fits) (hkey : m.tsigkey.key = some key) (hmac : key.alg.hmac)
    (hfull : key.alg.sigsize key.size = .ok full) (h : m.sign otherSign now = .ok t) : t.Fits := by
  have hd := sign_describes hm hkey hmac h
  have hsiglen := sign_siglen hkey hmac hfull h
  have hsize := sigsize_le hmac hfull
  have hle := siglen_le m key full
  exact
    { keyname := by rw [hd.keyname]; exact hm.name
      rdclass := by rw [hd.rdclass]; decide
      ttl := by rw [hd.ttl]; decide
      algorithm := by rw [hd.algorithm]; exact hm.algorithm
      timesigned := hd.timesigned
      fudge := by rw [hd.fudge]; decide
      signature := by
        rw [hsiglen]
        split_ifs <;> omega
      originalid := by rw [hd.originalid]; exact hm.id
      error := by
        rw [hd.error, Outgoing.error]
        split_ifs
        · exact hm.status
        · decide
      other := hd.other }

end

section
variable {m : Outgoing} {t : TsigRecord} {m' : Msg} {key : DstKey} {view : View} {now full : ℕ}

lemma pieces_eq (hp : Parsed (rendered m t) m') (hm : m.Fits) (htcp : m.tcpContinuation = false)
    (hstart : m'.sigstart = headerlen + m.body.length) (hquery : m'.querytsig = m.querytsig)
    (hd : Describes m t) {query : List (List UInt8)} (hq : m.queryMac = .ok query) :
    (pieces m' m.tsigkey t).flatten = (query ++ m.signPieces t).flatten := by
  unfold Outgoing.queryMac at hq
  rw [pieces, hp.response_eq hm, hquery, hp.signedHeader_eq hm hd.originalid,
    hp.signedRecords_eq hstart]
  -- both sides go on in the same way after the MAC of the query
  cases hr : m.response with
  | false =>
    simp only [hr] at hq
    cases hq
    simp [Outgoing.signPieces, htcp, hd.rdclass, hd.ttl]
  | true =>
    cases hqt : m.querytsig with
    | none =>
      simp only [hr, hqt] at hq
      cases hq
      simp [Outgoing.signPieces, htcp, hd.rdclass, hd.ttl]
    | some q =>
      simp only [hr, hqt] at hq
      split_ifs at hq
      cases hq
      cases hsig : q.signature <;>
        simp [macPieces, TsigRecord.siglen, hsig, Outgoing.signPieces, htcp, hd.rdclass, hd.ttl]

lemma checkLength_siglen (hmac : key.alg.hmac)
    (hfull : key.alg.sigsize key.size = .ok full)
    (hbits : key.bits = 0 ∨ 8 ∣ key.bits ∧ 80 ≤ key.bits ∧ 8 * full ≤ 2 * key.bits)
    (hmax : key.bits ≤ 8 * full) (m : Outgoing) :
    checkLength key (m.siglen key full) = .ok () ∧ 0 < m.siglen key full := by
  obtain ⟨-, hmin, heven⟩ := sigsize_le hmac hfull
  have hle := siglen_le m key full
  have hlow : (key.bits = 0 → m.siglen key full = full) ∧
      (key.bits ≠ 0 → key.bits / 8 ≤ m.siglen key full) := by
    unfold Outgoing.siglen
    refine ⟨fun h => if_pos h, fun h => ?_⟩
    rw [if_neg h]
    have hdiv : (key.bits + 1) / 8 = key.bits / 8 := by omega
    rw [hdiv]
    split <;> omega
  refine ⟨?_, by omega⟩
  simp only [checkLength, hfull, hmac, if_true]
  rw [if_neg (by omega), if_neg (by simp; omega), if_neg (by simp; omega), if_neg (by simp; omega)]

lemma checkLength_zero (hmac : key.alg.hmac)
    (hfull : key.alg.sigsize key.size = .ok full) : checkLength key 0 = .ok () := by
  simp [checkLength, hfull, hmac]

lemma compareMac_take (hmac : key.alg.hmac) (hctx : key.createctx = .ok ())
    {ds : List (List UInt8)} {n : ℕ} (hpos : 0 < n) (hle : n ≤ (key.digest ds.flatten).length) :
    compareMac key ds ((key.digest ds.flatten).take n) = .ok () := by
  have hlength : ((key.digest ds.flatten).take n).length = n := by
    rw [length_take]
    omega
  simp only [compareMac, hctx, adddatas_hmac hmac, nil_append, bind, Except.bind, DstKey.verify,
    hmac, if_true, hlength]
  rw [if_neg (by simp; omega)]

def Msg.given (m : Msg) (k : TsigKey) : Msg :=
  { m with verifyAttempted := true, tsigkey := some k }

def HasKey (view : View) (now : ℕ) (m : Msg) (t : TsigRecord) (k : TsigKey) : Prop :=
  m.tsigkey = some k ∨ m.response = false ∧ m.tsigkey = none ∧ view.find now t = some k

lemma verify_eq (htcp : m'.tcpContinuation = false) (htsig : m'.tsig = some t)
    (hsome : (m'.response && (m'.tsigkey.isNone || m'.querytsig.isNone)) = false) :
    (verify view now).run m' =
      (do check (checkQuery { m' with verifyAttempted := true } t)
          let k ← findKey view now t
          verifyWith now k t).run { m' with verifyAttempted := true } := by
  generalize hm : ({ m' with verifyAttempted := true } : Msg) = m0
  have htcp0 : m0.tcpContinuation = false := by rw [← hm]; exact htcp
  have htsig0 : m0.tsig = some t := by rw [← hm]; exact htsig
  have hsome0 : (m0.response && (m0.tsigkey.isNone || m0.querytsig.isNone)) = false := by
    rw [← hm]
    exact hsome
  simp only [verify, bind_run, modify_run, hm, read_run, htcp0, htsig0, hsome0, Bool.false_eq_true,
    if_false]

variable {k : TsigKey}

lemma verify_run (htcp : m'.tcpContinuation = false) (htsig : m'.tsig = some t)
    (hkey : HasKey view now m' t k) (hquery : m'.response → m'.querytsig ≠ none)
    (hcheck : checkQuery m' t = .ok ()) :
    (verify view now).run m' = (verifyWith now k t).run (m'.given k) := by
  have hcheck' : checkQuery { m' with verifyAttempted := true } t = .ok () := hcheck
  rcases hkey with hk | ⟨hr, hk, hfind⟩
  · have hsome : (m'.response && (m'.tsigkey.isNone || m'.querytsig.isNone)) = false := by
      cases hr : m'.response with
      | false => rfl
      | true => simpa [hk, Option.isSome_iff_ne_none] using hquery hr
    have hgiven : { m' with verifyAttempted := true } = m'.given k := by rw [Msg.given, ← hk]
    rw [verify_eq htcp htsig hsome, hcheck', hgiven]
    rfl
  · have hsome : (m'.response && (m'.tsigkey.isNone || m'.querytsig.isNone)) = false := by
      rw [hr, Bool.false_and]
    rw [verify_eq htcp htsig hsome, hcheck']
    simp only [findKey, bind_run, check_run_ok, read_run, hk, hfind, modify_run, pure_run]
    rfl

lemma verify_run_badkey {q : TsigRecord} (htcp : m'.tcpContinuation = false)
    (htsig : m'.tsig = some t) (hr : m'.response) (hk : m'.tsigkey = some k)
    (hq : m'.querytsig = some q) (halg : sameName t.algorithm q.algorithm = false) :
    (verify view now).run m' = some (.error .tsigVerifyFailure,
      { m' with verifyAttempted := true, tsigstatus := badkey }) := by
  have hcheck : checkQuery { m' with verifyAttempted := true } t =
      .error ⟨.tsigVerifyFailure, some badkey⟩ := by
    simp [checkQuery, hr, hk, hq, halg]
  rw [verify_eq htcp htsig (by simp [hk, hq]), hcheck]
  rfl

lemma verifyWith_run (hkey : k.key = some key) (htime : checkTime m' now t = .ok ())
    (hlength : checkLength key t.siglen = .ok ()) (hmac : checkMac m' k key t = .ok ()) :
    (verifyWith now k t).run m' = (finish t).run m' := by
  simp [verifyWith, htime, hkey, hlength, hmac, check_run_ok]

lemma verifyWith_run_error (m' : Msg) (hkey : k.key = some key)
    (h : (∃ f, checkTime m' now t = .error f) ∨ ∃ f, checkLength key t.siglen = .error f) :
    ∃ e m'', (verifyWith now k t).run m' = some (.error e, m'') ∧
      m''.verifiedSig = m'.verifiedSig := by
  have hfail : ∀ (f : Failure), ∃ e m'', (check (.error f)).run m' = some (.error e, m'') ∧
      m''.verifiedSig = m'.verifiedSig := by
    rintro ⟨result, _ | status⟩
    · exact ⟨result, m', check_run_none _ _, rfl⟩
    · exact ⟨result, _, check_run_some _ _ _, rfl⟩
  cases htime : checkTime m' now t with
  | error f =>
    obtain ⟨e, m'', hrun, hsig⟩ := hfail f
    exact ⟨e, m'', by simp [verifyWith, htime, hrun], hsig⟩
  | ok u =>
    obtain rfl : u = () := rfl
    obtain ⟨f, hf⟩ | ⟨f, hf⟩ := h
    · simp [htime] at hf
    · obtain ⟨e, m'', hrun, hsig⟩ := hfail f
      refine ⟨e, m'', ?_, hsig⟩
      simp only [verifyWith, bind_run, read_run, htime, check_run_ok, hkey, hf, hrun]

lemma checkTime_fudge (m' : Msg) (hlate : m'.clock now ≤ t.timesigned + t.fudge)
    (hearly : t.timesigned ≤ m'.clock now + t.fudge) (hfudge : t.fudge < 2 ^ 16) :
    if t.fudge ≤ t.timesigned then checkTime m' now t = .ok ()
    else ∃ f, checkTime m' now t = .error f := by
  unfold checkTime
  split_ifs with h1 h2 h3 h2 h3
  all_goals first | exact ⟨_, rfl⟩ | rfl | omega

def SameAlgorithm (m : Outgoing) : Prop := ∀ q, m.response → m.querytsig = some q →
    sameName m.tsigkey.algorithm q.algorithm

lemma checkLength_long (hmac : key.alg.hmac)
    (hfull : key.alg.sigsize key.size = .ok full) (hbits : 8 ∣ key.bits)
    (hmax : 8 * full < key.bits) (m : Outgoing) :
    ∃ f, checkLength key (m.siglen key full) = .error f := by
  obtain ⟨-, hmin, heven⟩ := sigsize_le hmac hfull
  have hsiglen : m.siglen key full = full := by
    unfold Outgoing.siglen
    rw [if_neg (by omega)]
    split <;> omega
  refine ⟨⟨.tsigVerifyFailure, some badtrunc⟩, ?_⟩
  simp only [checkLength, hfull, hmac, if_true, hsiglen]
  rw [if_neg (by omega), if_neg (by simp; omega), if_pos (by simp; omega)]

lemma sameName_self (a : Name) : sameName a a := (Wire.equal_iff _ _).mpr (SameLabels.refl _)

lemma checkQuery_sign (halg : SameAlgorithm m) (hd : Describes m t)
    (hresponse : m'.response = m.response) (hquery : m'.querytsig = m.querytsig)
    (hk : ∀ j, m'.response → m'.tsigkey = some j → j = m.tsigkey) : checkQuery m' t = .ok () := by
  unfold checkQuery
  split
  · rename_i j q hr hj hq
    have hsame := halg q (hresponse ▸ hr) (hquery ▸ hq)
    rw [hk j hr hj, hd.keyname, hd.algorithm, sameName_self, hsame]
    rfl
  · rfl

lemma finish_run (t : TsigRecord) (m' : Msg) : ∃ r m'', (finish t).run m' = some (r, m'') ∧
      if t.error = noerror then r = .ok () ∧ m''.verifiedSig
      else r = .error (errorResult t.error) ∧ m''.verifiedSig = m'.verifiedSig := by
  by_cases herror : t.error = noerror
  · simp only [if_pos herror]
    refine ⟨.ok (), { m' with tsigstatus := noerror, verifiedSig := true }, ?_, rfl, rfl⟩
    simp [finish, herror]
  · simp only [if_neg herror]
    refine ⟨.error (errorResult t.error), { m' with tsigstatus := noerror }, ?_, rfl, rfl⟩
    simp [finish, herror]

/-- A signed message is rendered, parsed and verified with the same key and query within the fudge.
The result is the one for the error field if the query has the algorithm of the key, the fudge can
be subtracted from the time, and the key has no more digest bits than the digest has; otherwise the
message is refused. -/
theorem verify_sign {otherSign : DstKey → List UInt8 → Except Result (List UInt8)} {now₀ full : ℕ}
    (hm : m.Fits) (htcp : m.tcpContinuation = false) (hkey : m.tsigkey.key = some key)
    (hmac : key.alg.hmac) (hfull : key.alg.sigsize key.size = .ok full)
    (hbits : key.bits = 0 ∨ 8 ∣ key.bits ∧ 80 ≤ key.bits ∧ 8 * full ≤ 2 * key.bits)
    (hsign : m.sign otherSign now₀ = .ok t) (hp : Parsed (rendered m t) m')
    (hstart : m'.sigstart = headerlen + m.body.length) (htcp' : m'.tcpContinuation = false)
    (hquery : m'.querytsig = m.querytsig) (hfound : HasKey view now m' t m.tsigkey)
    (hlate : m'.clock now ≤ t.timesigned + t.fudge)
    (hearly : t.timesigned ≤ m'.clock now + t.fudge) :
    m'.tsig = some t ∧ (t.error ≠ badsig → ∃ query, m.queryMac = .ok query ∧
        (pieces m' m.tsigkey t).flatten = (query ++ m.signPieces t).flatten) ∧
      ∃ r m'', (verify view now).run m' = some (r, m'') ∧
        (SameAlgorithm m ∧ t.fudge ≤ t.timesigned ∧ (t.error = badsig ∨ key.bits ≤ 8 * full) →
          if t.error = noerror then r = .ok () ∧ m''.verifiedSig
          else r = .error (errorResult t.error) ∧ m''.verifiedSig = m'.verifiedSig) ∧
        (¬(SameAlgorithm m ∧ t.fudge ≤ t.timesigned ∧ (t.error = badsig ∨ key.bits ≤ 8 * full)) →
          (∃ e, r = .error e) ∧ m''.verifiedSig = m'.verifiedSig) := by
  have hd := sign_describes hm hkey hmac hsign
  have hfits := sign_fits hm hkey hmac hfull hsign
  have htsig := hp.tsig_eq hfits hstart
  have hresponse := hp.response_eq hm
  have hsiglen := sign_siglen hkey hmac hfull hsign
  rw [← hd.error] at hsiglen
  obtain ⟨hsome, hcases⟩ := sign_ok hkey hmac hsign
  -- with a signature, the digest is compared with itself
  have hdigest : t.error ≠ badsig → ∃ query, key.createctx = .ok () ∧ m.queryMac = .ok query ∧
      (pieces m' m.tsigkey t).flatten = (query ++ m.signPieces t).flatten ∧
      t.signature = (key.digest (pieces m' m.tsigkey t).flatten).take t.siglen := by
    intro herror
    obtain ⟨hbad, -⟩ | ⟨-, query, hctx, hq, ht⟩ := hcases
    · exact absurd (hd.error.trans hbad) herror
    · have hpieces := pieces_eq hp hm htcp hstart hquery hd hq
      have hlength := key.length_digest hmac (query ++ m.signPieces t).flatten
      rw [hfull, Except.ok.injEq] at hlength
      refine ⟨query, hctx, hq, hpieces, ?_⟩
      rw [hpieces, hsiglen, if_neg herror, hlength]
      exact congrArg TsigRecord.signature ht
  refine ⟨htsig, fun herror => ?_, ?_⟩
  · obtain ⟨query, -, hq, hpieces, -⟩ := hdigest herror
    exact ⟨query, hq, hpieces⟩
  have hquery' : m'.response → m'.querytsig ≠ none := by
    rw [hresponse, hquery]
    exact hsome
  have hk : ∀ j, m'.response → m'.tsigkey = some j → j = m.tsigkey := by
    intro j hr hj
    obtain h | ⟨h, -⟩ := hfound
    · exact Option.some.inj (hj.symm.trans h)
    · simp [h] at hr
  by_cases halg : SameAlgorithm m
  · rw [verify_run htcp' htsig hfound hquery' (checkQuery_sign halg hd hresponse hquery hk)]
    have htime := checkTime_fudge (m'.given m.tsigkey) hlate hearly hfits.fudge
    by_cases hfudge : t.fudge ≤ t.timesigned
    · rw [if_pos hfudge] at htime
      by_cases herror : t.error = badsig
      · -- no signature is expected with this error
        rw [if_pos herror] at hsiglen
        have hcheck : checkMac (m'.given m.tsigkey) m.tsigkey key t = .ok () := by
          simp [checkMac, hsiglen, herror]
        rw [verifyWith_run hkey htime (hsiglen ▸ checkLength_zero hmac hfull) hcheck]
        obtain ⟨r, m'', hrun, hr⟩ := finish_run t (m'.given m.tsigkey)
        exact ⟨r, m'', hrun, fun _ => hr, fun h => absurd ⟨halg, hfudge, .inl herror⟩ h⟩
      · rw [if_neg herror] at hsiglen
        by_cases hmax : key.bits ≤ 8 * full
        · obtain ⟨hlength, hpos⟩ := checkLength_siglen hmac hfull hbits hmax m
          obtain ⟨query, hctx, -, -, hsig⟩ := hdigest herror
          have hcheck : checkMac (m'.given m.tsigkey) m.tsigkey key t = .ok () := by
            have hfits : t.siglen ≤ (key.digest (pieces m' m.tsigkey t).flatten).length := by
              have := congrArg List.length hsig
              rw [length_take] at this
              exact this.trans_le (min_le_right _ _)
            rw [checkMac, if_pos (hsiglen ▸ hpos), hsig]
            exact congrArg macFailure (compareMac_take hmac hctx (hsiglen ▸ hpos) hfits)
          rw [verifyWith_run hkey htime (hsiglen ▸ hlength) hcheck]
          obtain ⟨r, m'', hrun, hr⟩ := finish_run t (m'.given m.tsigkey)
          exact ⟨r, m'', hrun, fun _ => hr, fun h => absurd ⟨halg, hfudge, .inr hmax⟩ h⟩
        · have hdvd : 8 ∣ key.bits := by omega
          have hlong := checkLength_long hmac hfull hdvd (by omega) m
          rw [← hsiglen] at hlong
          obtain ⟨e, m'', hrun, hsig⟩ := verifyWith_run_error (m'.given m.tsigkey) hkey
            (.inr hlong)
          exact ⟨_, m'', hrun, fun h => absurd h.2.2 (by simp [herror, hmax]),
            fun _ => ⟨⟨e, rfl⟩, hsig⟩⟩
    · rw [if_neg hfudge] at htime
      obtain ⟨e, m'', hrun, hsig⟩ := verifyWith_run_error (m'.given m.tsigkey) hkey
        (.inl htime)
      exact ⟨_, m'', hrun, fun h => absurd h.2.1 hfudge, fun _ => ⟨⟨e, rfl⟩, hsig⟩⟩
  · obtain ⟨q, hr, hq, hne⟩ : ∃ q, m.response ∧ m.querytsig = some q ∧
        sameName m.tsigkey.algorithm q.algorithm = false := by
      simpa [SameAlgorithm] using halg
    have hgiven : m'.tsigkey = some m.tsigkey := by
      obtain h | ⟨h, -⟩ := hfound
      · exact h
      · simp [h, hr] at hresponse
    rw [verify_run_badkey htcp' htsig (hresponse.trans hr) hgiven (hquery.trans hq)
      (hd.algorithm ▸ hne)]
    exact ⟨_, _, rfl, fun h => absurd h.1 halg, fun _ => ⟨⟨_, rfl⟩, rfl⟩⟩

end

def shortMessage (word : ℕ) (q : Option TsigRecord) : Outgoing :=
  ⟨0, word, 0, 0, 0, 0, [], rootKey, q, 0, 0, false⟩

def parsedMessage (word : ℕ) (t : TsigRecord) (q : Option TsigRecord) : Msg where
  response := word.testBit 15
  source := rendered (shortMessage word q) t
  sigstart := headerlen
  tsig := some t
  sig0 := none
  tsigkey := some rootKey
  querytsig := q
  tsigctx := none
  tcpContinuation := false
  timeadjust := 0
  tsigstatus := 0
  sig0status := 0
  verifyAttempted := false
  verifiedSig := false

def rootRecord (algorithm : Name) : TsigRecord :=
  ⟨Name.root, 255, 0, algorithm, 300, 300, List.replicate 16 0, 0, 0, []⟩

lemma rootRecord_fits : (rootRecord Name.root).Fits := by
  constructor <;> decide

theorem verify_sign_response :
    (shortMessage 32768 (some (rootRecord Name.root))).sign (fun _ _ => .error .failure) 300 =
        .ok (rootRecord Name.root) ∧
      ∃ r m'', (verify rootView 300).run
          (parsedMessage 32768 (rootRecord Name.root) (some (rootRecord Name.root))) =
        some (r, m'') ∧ r = .ok () ∧ m''.verifiedSig := by
  have hsign : (shortMessage 32768 (some (rootRecord Name.root))).sign
      (fun _ _ => .error .failure) 300 = .ok (rootRecord Name.root) := by rfl
  refine ⟨hsign, ?_⟩
  have hfits : (shortMessage 32768 (some (rootRecord Name.root))).Fits :=
    ⟨by decide, by decide, by decide, by decide, by decide, by decide,
      fun q hq => by cases hq; decide⟩
  have hparsed : Parsed (rendered (shortMessage 32768 (some (rootRecord Name.root)))
      (rootRecord Name.root))
      (parsedMessage 32768 (rootRecord Name.root) (some (rootRecord Name.root))) :=
    ⟨rfl, by decide +kernel, _, rfl, rootRecord_fits, by decide +kernel⟩
  have hfound : HasKey rootView 300
      (parsedMessage 32768 (rootRecord Name.root) (some (rootRecord Name.root)))
      (rootRecord Name.root) rootKey := .inl rfl
  obtain ⟨-, -, r, m'', hrun, hgood, -⟩ := verify_sign hfits rfl rfl rfl rfl (.inl rfl) hsign hparsed
    rfl rfl rfl hfound (by decide) (by decide)
  have h := hgood ⟨fun q _ hq => by cases hq; decide, by decide, .inr (by decide)⟩
  exact ⟨r, m'', hrun, h⟩

def otherAlgorithm : Name := ⟨[⟨[97], Label.one_short⟩, Label.root], by decide, by decide⟩

/-- The query has another algorithm than the key, and the response is refused. -/
theorem verify_sign_algorithm :
    (shortMessage 32768 (some (rootRecord otherAlgorithm))).sign (fun _ _ => .error .failure) 300 =
        .ok (rootRecord Name.root) ∧
      ((verify rootView 300).run (parsedMessage 32768 (rootRecord Name.root)
          (some (rootRecord otherAlgorithm)))).map (fun s => (s.1.toBool, s.2.verifiedSig)) =
        some (false, false) :=
  ⟨rfl, by decide +kernel⟩

end LbBind.Tsig

import LbBind.Tsig.Verify

/-! The signer of a verified message. `dns_message_signer` trusts the status and the key that the
verification has left in the message. Most checks leave a status when they fail, but some do
not, and after one of those the message has a signer although it was not verified. -/

namespace LbBind.Tsig

open Lib Call Option Rcode Bool Msg

variable {view : View} {now : ℕ} {m m' : Msg} {t : TsigRecord} {k : TsigKey} {key : DstKey}

def InWindow (now : ℕ) (t : TsigRecord) : Prop := now % 2 ^ 32 ≤ t.timesigned + t.fudge ∧
    (t.timesigned + (2 ^ 64 - t.fudge)) % 2 ^ 64 ≤ now % 2 ^ 32

structure Acceptable (key : DstKey) (full siglen : ℕ) : Prop where
  size : key.alg.sigsize key.size = .ok full
  le : siglen ≤ full
  ten : 10 ≤ siglen
  half : (full + 1) / 2 ≤ siglen
  bits : key.bits ≠ 0 → (key.bits + 1) / 8 ≤ siglen
  whole : key.bits = 0 → siglen = full

def LengthRefused (key : DstKey) (siglen : ℕ) : Prop := match key.alg.sigsize key.size with
  | .error _ => True
  | .ok full => key.alg.hmac ∧
      (full < siglen ∨ 0 < siglen ∧ (siglen < 10 ∨ siglen < (full + 1) / 2))

lemma checkTime_eq_ok (h : m.timeadjust = 0) : checkTime m now t = .ok () ↔ InWindow now t := by
  have hclock : m.clock now = now % 2 ^ 32 := by
    simp only [clock, h, add_zero]
    omega
  rw [checkTime, hclock, InWindow]
  split_ifs <;> simp <;> omega

variable {f : Failure} {siglen : ℕ} {r : Except Result Unit}

lemma checkTime_status (h : checkTime m now t = .error f) : f.status = some badtime := by
  rw [checkTime] at h
  split_ifs at h <;> cases h <;> rfl

lemma checkLength_acceptable (h : checkLength key siglen = .ok ()) (hpos : 0 < siglen)
    (hmac : key.alg.hmac) : ∃ full, Acceptable key full siglen := by
  rw [checkLength] at h
  cases hsize : key.alg.sigsize key.size with
  | error e => simp [hsize] at h
  | ok full =>
    simp only [hsize, hmac, if_true, hpos, decide_true, Bool.true_and, or_eq_true,
      and_eq_true, decide_eq_true_eq] at h
    split_ifs at h with h1 h2 h3 h4
    refine ⟨full, hsize, by omega, by omega, by omega, fun hbits => ?_, fun hbits => ?_⟩
    · by_contra hlt
      exact h3 ⟨hbits, by omega⟩
    · by_contra hne
      exact h4 ⟨hbits, by omega⟩

lemma checkLength_status (h : checkLength key siglen = .error f) :
    f.status = none ∧ LengthRefused key siglen ∨
      f.status = some badtrunc ∧ ¬LengthRefused key siglen := by
  rw [checkLength] at h
  rw [LengthRefused]
  cases hsize : key.alg.sigsize key.size with
  | error e =>
    simp only [hsize] at h
    cases h
    exact .inl ⟨rfl, trivial⟩
  | ok full =>
    simp only [hsize, and_eq_true, or_eq_true, decide_eq_true_eq] at h
    split_ifs at h with hmac h1 h2 h3 h4
    · cases h
      exact .inl ⟨rfl, hmac, .inl h1⟩
    · cases h
      exact .inl ⟨rfl, hmac, .inr h2⟩
    · cases h
      exact .inr ⟨rfl, fun hbad => hbad.2.elim h1 h2⟩
    · cases h
      exact .inr ⟨rfl, fun hbad => hbad.2.elim h1 h2⟩

lemma not_lengthRefused (h : checkLength key siglen = .ok ()) : ¬LengthRefused key siglen := by
  rw [checkLength] at h
  rw [LengthRefused]
  cases hsize : key.alg.sigsize key.size with
  | error e => simp [hsize] at h
  | ok full =>
    simp only [hsize, and_eq_true, or_eq_true, decide_eq_true_eq] at h
    split_ifs at h with hmac h1 h2
    · exact fun hbad => hbad.2.elim h1 h2
    · exact fun hbad => hmac hbad.1

def MacUnreported (m : Msg) (k : TsigKey) (key : DstKey) (t : TsigRecord) : Prop :=
  0 < t.siglen ∧ ∃ e, e ≠ .verifyFailure ∧ compareMac key (pieces m k t) t.signature = .error e

lemma checkMac_status (h : checkMac m k key t = .error f) :
    f.status = none ∧ MacUnreported m k key t ∨
      f.status = some badsig ∧ ¬MacUnreported m k key t := by
  rw [checkMac] at h
  split_ifs at h with hpos herror
  · cases hmac : compareMac key (pieces m k t) t.signature with
    | ok u =>
      rw [hmac] at h
      cases h
    | error e =>
      rw [hmac, macFailure] at h
      by_cases he : e = .verifyFailure
      · rw [if_pos he] at h
        cases h
        refine .inr ⟨rfl, ?_⟩
        rintro ⟨-, e', he', hmac'⟩
        rw [hmac] at hmac'
        cases hmac'
        exact he' he
      · rw [if_neg he] at h
        cases h
        exact .inl ⟨rfl, hpos, e, he, hmac⟩
  · cases h
    exact .inr ⟨rfl, fun hbad => hpos hbad.1⟩

lemma macFailure_eq_ok (h : macFailure r = .ok ()) : r = .ok () := by
  cases r with
  | ok u => rfl
  | error e =>
    rw [macFailure] at h
    split_ifs at h

lemma checkMac_ok (h : checkMac m k key t = .ok ()) :
    (0 < t.siglen → compareMac key (pieces m k t) t.signature = .ok ()) ∧
      (t.siglen = 0 → t.error ≠ noerror) ∧ ¬MacUnreported m k key t := by
  rw [checkMac] at h
  by_cases hpos : 0 < t.siglen
  · rw [if_pos hpos] at h
    have hmac : compareMac key (pieces m k t) t.signature = .ok () := macFailure_eq_ok h
    refine ⟨fun _ => hmac, by omega, ?_⟩
    rintro ⟨-, e, -, he⟩
    rw [hmac] at he
    cases he
  · rw [if_neg hpos] at h
    refine ⟨fun h => absurd h hpos, fun _ herror => ?_, fun hbad => hpos hbad.1⟩
    rw [herror] at h
    simp [noerror, badsig, badkey] at h

lemma check_run_ok (m : Msg) : (check (.ok ())).run m = some (.ok (), m) := rfl

lemma check_run_none (result : Result) (m : Msg) :
    (check (.error ⟨result, none⟩)).run m = some (.error result, m) := rfl

lemma check_run_some (result : Result) (status : ℕ) (m : Msg) :
    (check (.error ⟨result, some status⟩)).run m =
      some (.error result, { m with tsigstatus := status }) := rfl

structure Verified (view : View) (now : ℕ) (m : Msg) (t : TsigRecord) (k : TsigKey) (key : DstKey) :
    Prop where
  found : view.find now t = some k
  hasKey : k.key = some key
  window : InWindow now t
  pos : 0 < t.siglen
  length : key.alg.hmac → ∃ full, Acceptable key full t.siglen
  mac : compareMac key (pieces m k t) t.signature = .ok ()

structure KeyUnreported (view : View) (now : ℕ) (m : Msg) (t : TsigRecord) (k : TsigKey) : Prop where
  found : view.find now t = some k
  window : InWindow now t
  refused : ∃ key, k.key = some key ∧
    (LengthRefused key t.siglen ∨ checkLength key t.siglen = .ok () ∧ MacUnreported m k key t)

/-- The message fails the verification in a way that leaves no status, and its key, if there is
one, has an identity. -/
def Unreported (view : View) (now : ℕ) (m : Msg) (t : TsigRecord) : Prop :=
  m.tcpContinuation ∨ m.response ∨ ∃ k, KeyUnreported view now m t k ∧ k.identity.isSome

inductive Outcome (view : View) (now : ℕ) (m : Msg) (t : TsigRecord) :
    Except Result Unit → (tsigkey : Option TsigKey) → (status : ℕ) → (verified : Bool) → Prop
  | verified {k : TsigKey} {key : DstKey} : m.tcpContinuation = false → m.response = false →
      t.error = noerror → Verified view now m t k key → ¬KeyUnreported view now m t k →
      Outcome view now m t (.ok ()) (some k) noerror true
  | reported {e : Result} {tsigkey : Option TsigKey} {status : ℕ} : m.tcpContinuation = false →
      m.response = false → status ≠ noerror → (∀ k, ¬KeyUnreported view now m t k) →
      Outcome view now m t (.error e) tsigkey status false
  | errorSet {e : Result} {k : TsigKey} : t.error ≠ noerror →
      Outcome view now m t (.error e) (some k) noerror false
  | noKey {e : Result} : m.tcpContinuation ∨ m.response →
      Outcome view now m t (.error e) none noerror false
  | unreported {e : Result} {k : TsigKey} : m.tcpContinuation = false → m.response = false →
      KeyUnreported view now m t k → Outcome view now m t (.error e) (some k) noerror false

def Msg.fresh (m : Msg) : Msg := { m with
    verifiedSig := false
    verifyAttempted := true
    tsigstatus := noerror
    sig0status := noerror
    timeadjust := 0
    tsigkey := none }

lemma checkMac_fresh (m : Msg) (tsigkey : Option TsigKey) (k : TsigKey) (key : DstKey)
    (t : TsigRecord) : checkMac { m.fresh with tsigkey := tsigkey } k key t = checkMac m k key t := rfl

lemma verifyWith_outcome (htcp : m.tcpContinuation = false)
    (hresponse : m.response = false) (hfound : view.find now t = some k)
    (hrun : (verifyWith now k t).run { m.fresh with tsigkey := some k } = some (r, m')) :
    ∃ status verified, m' = { m.fresh with
      tsigkey := some k, tsigstatus := status, verifiedSig := verified } ∧
      Outcome view now m t r (some k) status verified := by
  -- a key is found at most once, so nothing else can be unreported
  have honly : ∀ k', KeyUnreported view now m t k' → k' = k := by
    intro k' hk'
    exact some.inj (hk'.found.symm.trans hfound)
  have htime : checkTime { m.fresh with tsigkey := some k } now t = .ok () ↔ InWindow now t :=
    checkTime_eq_ok rfl
  simp only [verifyWith, bind_run, read_run] at hrun
  rcases hcheck : checkTime { m.fresh with tsigkey := some k } now t with f | _
  · obtain ⟨result, status⟩ := f
    obtain rfl : status = some badtime := checkTime_status hcheck
    rw [hcheck, check_run_some] at hrun
    cases hrun
    refine ⟨_, _, rfl, .reported htcp hresponse (by decide) fun k' hk' => ?_⟩
    rw [hcheck] at htime
    exact absurd (htime.mpr hk'.window) (by simp)
  rw [hcheck, check_run_ok] at hrun
  have hwindow := htime.mp hcheck
  cases hkey : k.key with
  | none => simp [hkey] at hrun
  | some key =>
    simp only [hkey, bind_run] at hrun
    rcases hlength : checkLength key t.siglen with f | _
    · obtain ⟨result, status⟩ := f
      rw [hlength] at hrun
      rcases checkLength_status hlength with ⟨rfl, hrefused⟩ | ⟨rfl, hrefused⟩
      · rw [check_run_none] at hrun
        cases hrun
        exact ⟨_, _, rfl, .unreported htcp hresponse ⟨hfound, hwindow, key, hkey, .inl hrefused⟩⟩
      · rw [check_run_some] at hrun
        cases hrun
        refine ⟨_, _, rfl, .reported htcp hresponse (by decide) fun k' hk' => ?_⟩
        obtain rfl := honly k' hk'
        obtain ⟨key', hkey', hcases⟩ := hk'.refused
        rw [hkey] at hkey'
        cases hkey'
        rcases hcases with h | ⟨h, -⟩
        · exact hrefused h
        · rw [hlength] at h
          cases h
    rw [hlength, check_run_ok] at hrun
    simp only [checkMac_fresh] at hrun
    have hunreported : KeyUnreported view now m t k ↔ MacUnreported m k key t := by
      constructor
      · rintro ⟨-, -, key', hkey', hcases⟩
        rw [hkey] at hkey'
        cases hkey'
        exact hcases.elim (fun h => absurd h (not_lengthRefused hlength)) fun h => h.2
      · exact fun h => ⟨hfound, hwindow, key, hkey, .inr ⟨hlength, h⟩⟩
    rcases hmac : checkMac m k key t with f | _
    · obtain ⟨result, status⟩ := f
      rw [hmac] at hrun
      rcases checkMac_status hmac with ⟨rfl, hbad⟩ | ⟨rfl, hbad⟩
      · rw [check_run_none] at hrun
        cases hrun
        exact ⟨_, _, rfl, .unreported htcp hresponse (hunreported.mpr hbad)⟩
      · rw [check_run_some] at hrun
        cases hrun
        refine ⟨_, _, rfl, .reported htcp hresponse (by decide) fun k' hk' => ?_⟩
        obtain rfl := honly k' hk'
        exact hbad (hunreported.mp hk')
    · rw [hmac, check_run_ok] at hrun
      obtain ⟨hcompare, hempty, hnot⟩ := checkMac_ok hmac
      by_cases herror : t.error = noerror
      · simp only [finish, bind_run, modify_run, herror] at hrun
        cases hrun
        have hpos : 0 < t.siglen := Nat.pos_of_ne_zero fun h => hempty h herror
        exact ⟨_, _, rfl, .verified htcp hresponse herror ⟨hfound, hkey, hwindow, hpos,
          checkLength_acceptable hlength hpos, hcompare hpos⟩ fun h => hnot (hunreported.mp h)⟩
      · simp only [finish, bind_run, modify_run, ne_eq, herror, not_false_eq_true, if_true] at hrun
        cases hrun
        exact ⟨_, _, rfl, .errorSet herror⟩

lemma rechecksig_outcome (ht : m.tsig = some t)
    (hrun : (rechecksig view now).run m = some (r, m')) :
    ∃ tsigkey status verified, m' = { m.fresh with
      tsigkey := tsigkey, tsigstatus := status, verifiedSig := verified } ∧
      Outcome view now m t r tsigkey status verified := by
  have hstart : (rechecksig view now).run m = (verify view now).run
      { m.fresh with verifyAttempted := false } := by
    simp [rechecksig, resetsig, fresh, ht]
  rw [hstart] at hrun
  have hverify : (verify view now).run { m.fresh with verifyAttempted := false } =
      (if m.tcpContinuation then fail .unexpectedTsig
        else if m.response then fail .unexpectedTsig
        else do
          let k ← findKey view now t
          verifyWith now k t : Call Msg Result Unit).run m.fresh := by
    cases htcp : m.tcpContinuation <;> cases hresponse : m.response <;>
      simp [verify, fresh, htcp, hresponse, ht, checkQuery, check]
  rw [hverify] at hrun
  cases htcp : m.tcpContinuation with
  | true =>
    simp only [htcp, if_true] at hrun
    cases hrun
    exact ⟨none, _, _, rfl, .noKey (.inl htcp)⟩
  | false =>
    cases hresponse : m.response with
    | true =>
      simp only [htcp, hresponse, if_true] at hrun
      cases hrun
      exact ⟨none, _, _, rfl, .noKey (.inr hresponse)⟩
    | false =>
      simp only [htcp, hresponse] at hrun
      cases hfound : view.find now t with
      | some k =>
        simp only [findKey, fresh, hfound] at hrun
        obtain ⟨status, verified, hm', hout⟩ := verifyWith_outcome htcp hresponse hfound hrun
        exact ⟨_, status, verified, hm', hout⟩
      | none =>
        have hnone : ∀ k, ¬KeyUnreported view now m t k := by
          intro k hk
          have := hk.found
          rw [hfound] at this
          cases this
        simp only [findKey, fresh, hfound] at hrun
        cases hcreate : view.create t.keyname t.algorithm with
        | error e =>
          simp [hcreate] at hrun
          obtain ⟨rfl, rfl⟩ := hrun
          exact ⟨none, _, _, rfl, .reported htcp hresponse (by decide) hnone⟩
        | ok k =>
          simp [hcreate] at hrun
          obtain ⟨rfl, rfl⟩ := hrun
          exact ⟨some k, _, _, rfl, .reported htcp hresponse (by decide) hnone⟩

lemma signer_sig0 {x : Except { e : Result // e ≠ .success } Name} (hx : m.sig0 = some x)
    (hattempted : m.verifyAttempted) :
    ∃ e name, signer m = some (e, name) ∧ (e = .success → m.verifiedSig) := by
  cases x with
  | error e => exact ⟨e.1, none, by simp [signer, hx, hattempted], fun h => absurd h e.2⟩
  | ok name =>
    refine ⟨_, some name, by simp only [signer, hx, hattempted]; rfl, fun h => ?_⟩
    split_ifs at h with hv
    · simp only [and_eq_true] at hv
      exact hv.1

lemma signer_reported (hx : m.sig0 = none) (ht : m.tsig = some t)
    (hattempted : m.verifyAttempted) (hbad : m.tsigstatus ≠ noerror ∨ t.error ≠ noerror) :
    ∃ e name, e ≠ .success ∧ signer m = some (e, name) := by
  obtain ⟨result, hresult, hne⟩ : ∃ result : Result, (if m.tsigstatus ≠ noerror then
      .tsigVerifyFailure else if t.error ≠ noerror then .tsigErrorSet else .success) = result ∧
      result ≠ .success := by
    split_ifs with h1 h2
    · exact ⟨_, rfl, by simp⟩
    · exact ⟨_, rfl, by simp⟩
    · exact absurd hbad (by simp [not_not.mp h1, not_not.mp h2])
  simp only [signer, hx, ht, hattempted, hresult]
  cases hkey : m.tsigkey with
  | none => exact ⟨result, none, hne, by simp [hne]⟩
  | some k =>
    cases hid : k.identity with
    | none => exact ⟨result, some k.name, hne, by simp [hid, hne]⟩
    | some identity => exact ⟨result, some identity, hne, by simp [hid]⟩

lemma signer_unreported (hx : m.sig0 = none) (ht : m.tsig = some t)
    (hattempted : m.verifyAttempted) (hstatus : m.tsigstatus = noerror)
    (herror : t.error = noerror) : signer m = match m.tsigkey with
      | none => none
      | some k => match k.identity with
        | some identity => some (.success, some identity)
        | none => some (.noIdentity, some k.name) := by
  simp only [signer, hx, ht, hattempted, hstatus, herror]
  cases m.tsigkey with
  | none => rfl
  | some k => cases hid : k.identity <;> simp [hid]

structure SignerSound (view : View) (now : ℕ) (m : Msg) (t : TsigRecord) (r : Except Result Unit)
    (m' : Msg) : Prop where
  verified : ∀ name, signer m' = some (.success, name) →
    r = .ok () ∧ ∃ k key, Verified view now m t k key
  reported : ∀ e, r = .error e → ∃ e' name, e' ≠ .success ∧ signer m' = some (e', name)

lemma SignerSound.of_reported
    (h : ∃ e' name, e' ≠ .success ∧ signer m' = some (e', name)) : SignerSound view now m t r m' := by
  obtain ⟨e', name, hne, hsigner⟩ := h
  refine ⟨fun name' hsuccess => ?_, fun _ _ => ⟨e', name, hne, hsigner⟩⟩
  rw [hsigner] at hsuccess
  cases hsuccess
  exact absurd rfl hne

lemma SignerSound.of_sig0 (hx : m'.sig0 ≠ none) (hattempted : m'.verifyAttempted) (hverified : m'.verifiedSig = false) :
    SignerSound view now m t r m' := by
  obtain ⟨x, hsome⟩ := ne_none_iff_exists'.mp hx
  obtain ⟨e', name, hsigner, hsuccess⟩ := signer_sig0 hsome hattempted
  refine .of_reported ⟨e', name, fun h => ?_, hsigner⟩
  rw [hsuccess h] at hverified
  cases hverified

lemma SignerSound.of_bad (ht : m'.tsig = some t) (hattempted : m'.verifyAttempted)
    (hverified : m'.verifiedSig = false) (hbad : m'.tsigstatus ≠ noerror ∨ t.error ≠ noerror) :
    SignerSound view now m t r m' := by
  by_cases hx : m'.sig0 = none
  · exact .of_reported (signer_reported hx ht hattempted hbad)
  · exact .of_sig0 hx hattempted hverified

/-- After the check of a signature a message has a signer only if it was verified, and an error is
reported if it was not: if and only if it did not fail in one of the ways that leave no
status. -/
theorem rechecksig_signer_iff {r : Except Result Unit} (ht : m.tsig = some t)
    (hrun : (rechecksig view now).run m = some (r, m')) : SignerSound view now m t r m' ↔
      (t.error = noerror → m.sig0 = none → ¬Unreported view now m t) := by
  obtain ⟨tsigkey, status, verified, rfl, hout⟩ := rechecksig_outcome ht hrun
  have hrequest : m.tcpContinuation = false → m.response = false →
      (∀ k, KeyUnreported view now m t k → k.identity.isSome → False) →
      ¬Unreported view now m t := by
    rintro htcp hresponse hkey (h | h | ⟨k, hk, hid⟩)
    · rw [htcp] at h
      cases h
    · rw [hresponse] at h
      cases h
    · exact hkey k hk hid
  cases hout with
  | @verified k key htcp hresponse herror hverified hnot =>
    refine iff_of_true ⟨fun _ _ => ⟨rfl, k, key, hverified⟩, fun e h => by cases h⟩
      fun _ _ => hrequest htcp hresponse fun k' hk' _ => ?_
    obtain rfl := some.inj (hk'.found.symm.trans hverified.found)
    exact hnot hk'
  | reported htcp hresponse hstatus hnone =>
    exact iff_of_true (.of_bad ht rfl rfl (.inl hstatus))
      fun _ _ => hrequest htcp hresponse fun k hk _ => hnone k hk
  | errorSet herror => exact iff_of_true (.of_bad ht rfl rfl (.inr herror)) fun h => absurd h herror
  | @noKey e hno =>
    by_cases herror : t.error = noerror
    · by_cases hx : m.sig0 = none
      · -- the assertion on the key of the message fails
        have hsigner := signer_unreported (m := { m.fresh with
          tsigkey := none, tsigstatus := noerror, verifiedSig := false }) hx ht rfl rfl herror
        refine iff_of_false (fun h => ?_) fun h =>
          h herror hx (hno.elim .inl fun h => .inr (.inl h))
        obtain ⟨e', name, -, hsome⟩ := h.reported e rfl
        cases hsigner.symm.trans hsome
      · exact iff_of_true (.of_sig0 hx rfl rfl) fun _ h => absurd h hx
    · exact iff_of_true (.of_bad ht rfl rfl (.inr herror)) fun h => absurd h herror
  | @unreported e k htcp hresponse hbad =>
    by_cases herror : t.error = noerror
    · by_cases hx : m.sig0 = none
      · have hsigner := signer_unreported (m := { m.fresh with
          tsigkey := some k, tsigstatus := noerror, verifiedSig := false }) hx ht rfl rfl herror
        cases hid : k.identity with
        | some identity =>
          simp only [hid] at hsigner
          refine iff_of_false (fun h => ?_) fun h =>
            h herror hx (.inr (.inr ⟨k, hbad, by rw [hid]; rfl⟩))
          exact absurd (h.verified _ hsigner).1 (by simp)
        | none =>
          simp only [hid] at hsigner
          refine iff_of_true (.of_reported ⟨_, _, by simp, hsigner⟩) fun _ _ =>
            hrequest htcp hresponse fun k' hk' hid' => ?_
          obtain rfl := some.inj (hk'.found.symm.trans hbad.found)
          rw [hid] at hid'
          cases hid'
      · exact iff_of_true (.of_sig0 hx rfl rfl) fun _ h => absurd h hx
    · exact iff_of_true (.of_bad ht rfl rfl (.inr herror)) fun h => absurd h herror

def md5Key : DstKey where
  alg := .hmacmd5
  size := 128
  bits := 0
  digest _ := List.replicate 16 0
  length_digest _ _ := rfl
  createctx := .ok ()
  otherAdddata _ _ := .ok ()
  otherVerify _ _ := .ok ()

def rootKey : TsigKey := ⟨Name.root, Name.root, some md5Key, false, none, 0, 0⟩

def rootView : View := ⟨some [rootKey], none, fun _ _ => .error .noMemory⟩

def signedRequest (signature : List UInt8) : Msg where
  response := false
  source := List.replicate 12 0
  sigstart := 12
  tsig := some ⟨Name.root, 255, 0, Name.root, 300, 300, signature, 0, 0, []⟩
  sig0 := none
  tsigkey := none
  querytsig := none
  tsigctx := none
  tcpContinuation := false
  timeadjust := 0
  tsigstatus := 0
  sig0status := 0
  verifyAttempted := false
  verifiedSig := false

theorem rechecksig_signer_iff_root : ∃ r m' t, (signedRequest (List.replicate 16 0)).tsig = some t ∧
    (rechecksig rootView 300).run (signedRequest (List.replicate 16 0)) = some (r, m') ∧
    (SignerSound rootView 300 (signedRequest (List.replicate 16 0)) t r m' ↔
      (t.error = noerror → (signedRequest (List.replicate 16 0)).sig0 = none →
        ¬Unreported rootView 300 (signedRequest (List.replicate 16 0)) t)) := by
  have hrun : ((rechecksig rootView 300).run (signedRequest (List.replicate 16 0))).isSome := by
    decide +kernel
  obtain ⟨⟨r, m'⟩, hsome⟩ := isSome_iff_exists.mp hrun
  exact ⟨r, m', _, rfl, hsome, rechecksig_signer_iff rfl hsome⟩

/-- A signature of one byte is refused, and the message has a signer. -/
theorem signer_short_signature :
    ((rechecksig rootView 300).run (signedRequest [1])).map (fun s => (s.1.toBool, signer s.2)) =
      some (false, some (.success, some Name.root)) := by
  decide +kernel

end LbBind.Tsig

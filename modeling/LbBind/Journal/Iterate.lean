import LbBind.Journal.Find

/-! Reading transactions back. From the position of a transaction the records come one by one,
over the headers of the transactions, until the end position is reached. What is read are the
records as they were written, in their order. -/

namespace LbBind.Journal

open Lib Call List File Tx

variable {decode : (rdclass rdtype : ℕ) → (data : List UInt8) → (available : ℕ) →
  Except Result (List UInt8)} {j : Handle} {r : RR} {rs : List RR} {t : Tx} {ts pre mid post : List Tx}

def records (ts : List Tx) : List RR := ts.flatMap Tx.rrs

variable (decode) in
/-- `rs` are left of the transaction that is being read, and `post` are to come. -/
structure Reading (j : Handle) (rs : List RR) (post : List Tx) : Prop where
  bytes : j.disk.view.Has j.offset (body rs ++ encodes post)
  stop : j.iter.epos.offset = j.offset + (body rs ++ encodes post).length
  left : j.iter.xpos + (body rs).length = j.iter.xsize
  follows : Follows (lastSerial j.iter.currentSerial rs) post
  records : ∀ r ∈ rs, r.Valid decode
  valid : ∀ t ∈ post, t.Valid decode
  small : ∀ t ∈ post, (body t.rrs).length < 2 ^ 32

lemma body_pos (rs : List RR) (h : r.Valid decode) : 15 ≤ (body (r :: rs)).length := by
  have := h.size_ge
  rw [body_cons, length_append, r.encode_eq, length_append, length_be32, r.length_fields]
  omega

lemma Tx.Valid.exists_cons (h : t.Valid decode) : ∃ r rs, t.rrs = r :: rs :=
  exists_cons_of_ne_nil h.ne_nil

lemma enterTransaction_next (h : Reading decode j [] (t :: post)) :
    Succeeds enterTransaction j fun _ j' => Reading decode j' t.rrs post := by
  have ht := h.valid t mem_cons_self
  have hbytes := h.bytes
  rw [body_nil, nil_append, encodes_cons, encode, append_assoc, has_append] at hbytes
  have hsmall := h.small t mem_cons_self
  have hleft : j.iter.xpos = j.iter.xsize := h.left
  refine .read (.ite (fun _ => ?_) fun hne => absurd hleft hne)
  refine readXhdr_then ⟨hbytes.1, hsmall⟩ ht.increasing
    (.ite (fun hsize => ?_) fun _ => .ite (fun hserial => absurd h.follows.1 hserial) fun _ =>
      .modify ?_)
  · obtain ⟨r, rs, hrs⟩ := ht.exists_cons
    have := body_pos rs (ht.records r (by rw [hrs]; exact mem_cons_self))
    rw [← hrs] at this
    have hsize : (body t.rrs).length = 0 := hsize
    omega
  · rintro _ rfl
    refine ⟨hbytes.2, ?_, Nat.zero_add _, ?_, ht.records,
      fun u hu => h.valid u (.tail _ hu),
      fun u hu => h.small u (.tail _ hu)⟩
    · have := h.stop
      simp only [body_nil, nil_append, encodes_cons, length_append, length_encode] at this
      simp only [length_append]
      omega
    · rw [ht.lastSerial]
      exact h.follows.2

lemma enterTransaction_within (h : Reading decode j (r :: rs) post) :
    Succeeds enterTransaction j fun _ j' => j' = j := by
  have hpos := body_pos rs (h.records r mem_cons_self)
  have hleft := h.left
  exact .read (.ite (fun heq => by omega) fun _ => .pure fun _ hj => hj)

lemma readRecord_meets (h : Reading decode j (r :: rs) post) :
    Succeeds (readRecord decode) j fun r' j' => r' = r ∧ Reading decode j' rs post := by
  have hr := h.records r mem_cons_self
  have hge := hr.size_ge
  have hle := hr.size_le
  have hbytes := h.bytes
  rw [body_cons, r.encode_eq, append_assoc, append_assoc, has_append, has_append] at hbytes
  obtain ⟨hlen, hfields, hrest⟩ := hbytes
  have hsize : (asMem (be32 r.size)).rd32 0 = r.size := by
    refine Mem.rd32_of_slice _ ?_ (by omega)
    have := asMem_slice [] (be32 r.size) []
    rwa [append_nil] at this
  refine readBytes_then rfl hlen ?_
  rw [hsize]
  refine .ite (fun hbad => ?_) fun _ => ?_
  · simp only [Bool.or_eq_true, decide_eq_true_eq] at hbad
    omega
  refine readBytes_then r.length_fields.symm hfields (.change (.read ?_))
  simp only [parseRR_fields hr (le_max_right j.iter.target r.size)]
  refine .check hr.soa (.change (.pure ?_))
  rintro _ rfl
  have hstop := h.stop
  have hleft := h.left
  simp only [body_cons, r.encode_eq, length_append, length_be32, r.length_fields] at hstop hleft
  refine ⟨rfl, ?_, ?_, ?_, h.follows, fun q hq => h.records q (.tail _ hq), h.valid,
    h.small⟩
  · rw [r.length_fields] at hrest
    exact hrest
  · simp only [length_append]
    omega
  · simp only
    omega

lemma readOneRR_meets (h : Reading decode j rs post) {rest : List RR}
    (hrest : rs ++ records post = r :: rest) : Succeeds (readOneRR decode) j fun r' j' =>
      r' = r ∧ ∃ rs' post', rs' ++ records post' = rest ∧ Reading decode j' rs' post' := by
  have hstop := h.stop
  cases rs with
  | nil =>
    cases post with
    | nil => simp [records] at hrest
    | cons t post =>
      obtain ⟨r', rs', hrs⟩ := (h.valid t mem_cons_self).exists_cons
      have hall : r' = r ∧ rs' ++ records post = rest := by
        simpa [records, hrs] using hrest
      obtain ⟨rfl, hall⟩ := hall
      simp only [body_nil, nil_append, encodes_cons, length_append, length_encode,
        xhdrSize] at hstop
      refine .read (.check (by omega) (.ite (fun heq => by omega) fun _ => ?_))
      refine (enterTransaction_next h).next fun _ j' hj' => ?_
      rw [hrs] at hj'
      exact (readRecord_meets hj').mono (fun _ h => h)
        (fun _ _ h => ⟨h.1, rs', post, hall, h.2⟩) (fun _ _ h => h)
  | cons r' rs' =>
    obtain ⟨rfl, hall⟩ : r' = r ∧ rs' ++ records post = rest := by simpa using hrest
    have hpos := body_pos rs' (h.records r' mem_cons_self)
    rw [length_append] at hstop
    refine .read (.check (by omega) (.ite (fun heq => by omega) fun _ => ?_))
    refine (enterTransaction_within h).next ?_
    rintro _ _ rfl
    exact (readRecord_meets h).mono (fun _ h => h)
      (fun _ _ h => ⟨h.1, rs', post, hall, h.2⟩) (fun _ _ h => h)

lemma readOneRR_end (h : Reading decode j rs post) (hrest : rs ++ records post = []) :
    Meets (· = j) (readOneRR decode) (fun _ _ => False) (fun e _ => e = .noMore) := by
  obtain ⟨rfl, hpost⟩ := append_eq_nil_iff.mp hrest
  have hpost : post = [] := by
    cases post with
    | nil => rfl
    | cons t post =>
      obtain ⟨r, rs, hrs⟩ := (h.valid t mem_cons_self).exists_cons
      simp [records, hrs] at hpost
  subst hpost
  have hstop : j.iter.epos.offset = j.offset := h.stop
  exact .read (.check hstop.ge (.ite (fun _ => .fail fun _ _ => rfl) fun hne => absurd hstop.symm hne))

lemma allRRs_meets {all : List RR} (rs : List RR) (post : List Tx) (h : Reading decode j rs post)
    (hall : rs ++ records post = all) {rounds : ℕ} (hrounds : all.length < rounds) :
    Succeeds (allRRs decode rounds) j fun l _ => l = all := by
  induction all generalizing rs post j rounds with
  | nil =>
    cases rounds with
    | zero => simp at hrounds
    | succ rounds =>
      refine Meets.attempt (readOneRR_end h hall) (fun _ _ h => h.elim) ?_
      rintro _ _ rfl
      exact .pure fun _ _ => rfl
  | cons r rest ih =>
    cases rounds with
    | zero => simp at hrounds
    | succ rounds =>
      refine Meets.attempt (readOneRR_meets h hall) ?_ (fun _ _ h => h.elim)
      rintro _ j' ⟨rfl, rs', post', hrest, hj'⟩
      refine (ih rs' post' hj' hrest (by simpa using hrounds)).next ?_
      rintro _ _ rfl
      exact .pure fun _ _ => rfl

variable (decode) in
structure Stores (f : File) (h : Header) (ts : List Tx) : Prop where
  valid : ∀ t ∈ ts, t.Valid decode
  has : f.Has h.start.offset (encodes ts)
  small : h.start.offset + (encodes ts).length < 2 ^ 32

namespace Stores

variable {f : File} {h : Header}

section
variable (hs : Stores decode f h ts)
include hs

lemma length_le : ts.length ≤ f.size :=
  length_le_encodes.trans (le_trans (Nat.le_add_left _ _) hs.has.2)

lemma small_of_mem (ht : t ∈ ts) : (body t.rrs).length < 2 ^ 32 := by
  obtain ⟨pre, post, rfl⟩ := append_of_mem ht
  have := hs.small
  simp only [encodes_append, encodes_cons, length_append, length_encode] at this
  omega

lemma readable (hpre : pre ++ [t] <+: ts) :
    Readable f (h.start.past pre).offset t := by
  have hsmall := hs.small_of_mem (hpre.subset (mem_append_right pre mem_cons_self))
  obtain ⟨post, rfl⟩ := hpre
  have hbytes := hs.has
  simp only [encodes_append, encodes_cons, encode, append_assoc, has_append] at hbytes
  exact ⟨hbytes.2.1, hsmall⟩

end

lemma length_records_le (hs : ∀ t ∈ ts, t.Valid decode) :
    (records ts).length ≤ (encodes ts).length := by
  have hbody : ∀ rs : List RR, rs.length ≤ (body rs).length := by
    intro rs
    induction rs with
    | nil => exact le_rfl
    | cons r rs ih =>
      simp only [body_cons, r.encode_eq, length_append, length_be32, length_cons]
      omega
  induction ts with
  | nil => exact le_rfl
  | cons t ts ih =>
    have := hbody t.rrs
    have := ih fun u hu => hs u (.tail _ hu)
    simp only [records, flatMap_cons, encodes_cons, length_append, length_encode] at *
    omega

end Stores

variable {b e : ℕ}

lemma iterInit_meets (hd : Describes j.header j.index ts)
    (hs : Stores decode j.disk.view j.header ts) (hne : ts ≠ []) {pre pre' : List Tx}
    (hpre : pre <+: ts) (hpre' : pre' <+: ts) :
    Succeeds (iterInit (j.header.start.past pre).serial (j.header.start.past pre').serial) j
      fun _ j' => ∃ offset, j' = { j with
        offset := offset
        iter := { j.iter with bpos := j.header.start.past pre, epos := j.header.start.past pre' } } := by
  refine (journalFind_found hd hne hpre hs.length_le
    fun us t hus => hs.readable (hus.trans hpre)).next ?_
  rintro _ _ ⟨rfl, offset, rfl⟩
  refine .check rfl ?_
  refine (journalFind_found (j := { j with offset := offset }) hd hne hpre' hs.length_le
    fun us t hus => hs.readable (hus.trans hpre')).next ?_
  rintro _ _ ⟨rfl, offset', rfl⟩
  refine .check rfl (.modify ?_)
  rintro _ rfl
  exact ⟨offset', rfl⟩

lemma firstRR_meets : Succeeds firstRR j fun _ j' => j' = { j with
      offset := j.iter.bpos.offset
      iter := { j.iter with currentSerial := j.iter.bpos.serial, xsize := 0, xpos := 0 } } := by
  refine .read (.change (.modify ?_))
  rintro _ rfl
  rfl

variable (hd : Describes j.header j.index ts) (hs : Stores decode j.disk.view j.header ts)
  (hne : ts ≠ [])
include hd hs hne

lemma iterate_found (hmid : pre ++ mid <+: ts) :
    (iterate decode (j.header.start.past pre).serial (j.header.start.past (pre ++ mid)).serial).outcome
      j = some (.ok (records mid)) := by
  have hpre : pre <+: ts := (prefix_append pre mid).trans hmid
  refine Meets.outcome_ok ((iterInit_meets hd hs hne hpre hmid).next ?_)
  rintro _ _ ⟨offset, rfl⟩
  obtain ⟨post, rfl⟩ := hmid
  refine firstRR_meets.next ?_
  rintro _ _ rfl
  refine .read (allRRs_meets [] mid ?_ rfl ?_)
  · have hbytes := hs.has
    simp only [encodes_append, append_assoc, has_append] at hbytes
    have hfollows := hd.follows
    simp only [follows_append] at hfollows
    refine ⟨hbytes.2.1, ?_, rfl, hfollows.1.2, by simp, fun t ht => hs.valid t (by simp [ht]),
      fun t ht => hs.small_of_mem (by simp [ht])⟩
    simp [Pos.past, Nat.add_assoc]
  · have hrecords : (records mid).length ≤ (encodes mid).length :=
      Stores.length_records_le fun t ht => hs.valid t (by simp [ht])
    have hsize := hs.has.2
    simp only [encodes_append, length_append] at hsize
    simp only [nil_append]
    omega

lemma iterate_noBegin (hb : b < 2 ^ 32)
    (hmiss : ∀ us, us <+: ts → (j.header.start.past us).serial ≠ b) :
    (iterate decode b e).outcome j = some (.error (refusal j.header ts b)) := by
  refine Meets.outcome_error (.seq (Q := fun _ _ => False)
    (E := fun e' _ => e' = refusal j.header ts b) ?_ (fun _ _ h => h) (fun _ _ h => h.elim))
  exact (journalFind_missing hd hne hb hs.length_le hmiss fun us t hus => hs.readable hus).seq
    (fun _ _ h => h.1) (fun _ _ h => h.elim)

lemma iterate_noEnd (he : e < 2 ^ 32) (hpre : pre <+: ts)
    (hmiss : ∀ us, us <+: ts → (j.header.start.past us).serial ≠ e) :
    (iterate decode (j.header.start.past pre).serial e).outcome j =
      some (.error (refusal j.header ts e)) := by
  refine Meets.outcome_error (.seq (Q := fun _ _ => False)
    (E := fun e' _ => e' = refusal j.header ts e) ?_ (fun _ _ h => h) (fun _ _ h => h.elim))
  refine (journalFind_found hd hne hpre hs.length_le
    fun us t hus => hs.readable (hus.trans hpre)).seq (fun _ _ h => h.elim) ?_
  rintro _ _ ⟨rfl, offset, rfl⟩
  refine .check rfl ?_
  exact (journalFind_missing (j := { j with offset := offset }) hd hne he hs.length_le hmiss
    fun us t hus => hs.readable hus).seq (fun _ _ h => h.1) (fun _ _ h => h.elim)

lemma iterate_backward (hmid : pre ++ mid <+: ts) (hmid' : mid ≠ []) :
    (iterate decode (j.header.start.past (pre ++ mid)).serial
      (j.header.start.past pre).serial).outcome j = none := by
  have hpre : pre <+: ts := (prefix_append pre mid).trans hmid
  rcases iterInit_meets hd hs hne hmid hpre j rfl with ⟨_, _, hinit, offset, rfl⟩ | ⟨_, _, _, h⟩
  · have hpos : encodes mid ≠ [] := by
      have : mid.length ≤ (encodes mid).length := length_le_encodes
      exact ne_nil_of_length_pos (by have := length_pos_iff.mpr hmid'; omega)
    simp only [outcome, iterate, bind_run, hinit]
    simp [firstRR, seek, allRRs, attempt, readOneRR, Pos.past, hpos]
  · exact h.elim

end LbBind.Journal

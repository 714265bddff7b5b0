import LbBind.Journal.Commit

/-! Journals over their whole life: transactions are committed, and the journal is read and opened
again. At any time its file holds the addressable transactions of its history, and an iteration
between two serials gives the records of the transactions between them. -/

namespace LbBind.Journal

open Lib Call List Handle Pos

variable {decode : (rdclass rdtype : ℕ) → (data : List UInt8) → (available : ℕ) →
  Except Result (List UInt8)} {j j' : Handle} {t : Tx} {ts history : List Tx}

def created : Disk := ⟨⟨fun _ => 0, 0⟩, [⟨0, newJournal⟩]⟩

variable (decode) in
inductive Committed : List Tx → Handle → Prop
  | create {write : Bool} {j : Handle} : journalOpen created write = .ok j → Committed [] j
  | transact {history : List Tx} {j j' : Handle} {diffs : List (List RR)} {serial0 serial1 : ℕ} :
      Committed history j → Tx.Valid decode ⟨diffs.flatten, serial0, serial1⟩ →
      (∀ u ∈ history.getLast?, serial0 = u.serial1) →
      (transaction diffs).run j = some (.ok (), j') → j'.disk.view.size < 2 ^ 32 →
      Committed (history ++ [⟨diffs.flatten, serial0, serial1⟩]) j'
  | iterate {history : List Tx} {j j' : Handle} {b e : ℕ} {r : Except Result (List RR)} :
      Committed history j → (iterate decode b e).run j = some (r, j') →
      Committed history j'
  | reopen {history : List Tx} {j j' : Handle} {write : Bool} :
      Committed history j → journalOpen j.disk write = .ok j' → Committed history j'

variable (decode) in
structure Rest (j : Handle) (ts : List Tx) : Prop where
  stored : Stored decode j.disk.view j.header j.index ts
  indexed : Indexed j.header.start j.index ts
  length : 2 ≤ j.index.length
  state : j.state = .reading ∨ j.state = .writing
  durable : j.disk.pending = [] ∨ ts = [] ∧ j.disk = created

lemma flatMap_invalid (n : ℕ) :
    (replicate n invalid).flatMap encode = replicate (n * posSize) 0 := by
  induction n with
  | zero => rfl
  | succ n ih =>
    rw [replicate_succ, flatMap_cons, ih, Nat.succ_mul, Nat.add_comm, ← replicate_append_replicate]
    rfl

attribute [local simp] invalid

lemma stored_created : Stored decode created.view ⟨journalFormat, .invalid, .invalid, 56, 0, false⟩
    (replicate 56 .invalid) [] := by
  have hbytes : created.view.Has 0 newJournal :=
    File.has_write_self (w := ⟨0, newJournal⟩) (by simp [newJournal, Header.encode])
  rw [newJournal, File.has_append] at hbytes
  refine ⟨⟨by simp, trivial, by simp, rfl, by simp, ?_⟩,
    ⟨by simp, ⟨rfl, Nat.zero_le _⟩, by simp⟩, fun _ => rfl, by simp, hbytes.1, ?_, rfl,
    by simp, ?_, by simp, by simp⟩
  · intro e he hvalid
    rw [eq_of_mem_replicate he] at hvalid
    simp [valid] at hvalid
  · rw [flatMap_invalid]
    exact hbytes.2
  · intro e he
    rw [eq_of_mem_replicate he]
    exact ⟨by simp, by simp⟩

lemma onDisk_created : OnDisk created.view ⟨journalFormat, .invalid, .invalid, 56, 0, false⟩
    (replicate 56 .invalid) :=
  (stored_created : Stored (fun _ _ data _ => .ok data) _ _ _ []).onDisk

def Handle.file (j : Handle) : Disk × Header × List Pos × State :=
  (j.disk, j.header, j.index, j.state)

section

lemma readBytes_keeps {n : ℕ} : Keeps file (readBytes n) :=
  .bind .read fun _ => .ite (.bind (.modify fun _ => rfl) fun _ => .pure) .fail

lemma journalNext_keeps {pos : Pos} : Keeps file (journalNext pos) :=
  .bind (.modify fun _ => rfl) fun _ => .bind .read fun _ => .ite .fail
    (.bind (.bind readBytes_keeps fun _ => .pure) fun _ => .ite .fail .pure)

lemma findLoop_keeps {serial rounds : ℕ} {pos : Pos} :
    Keeps file (findLoop serial rounds pos) := by
  induction rounds generalizing pos with
  | zero => exact .bind .assert fun _ => .fail
  | succ rounds ih => exact .ite .pure (.ite .fail (.bind journalNext_keeps fun _ => ih))

lemma journalFind_keeps {serial : ℕ} : Keeps file (journalFind serial) :=
  .bind .read fun _ => .ite .fail (.ite .fail (.ite .pure findLoop_keeps))

lemma enterTransaction_keeps : Keeps file enterTransaction :=
  .bind .read fun _ => .ite (.bind (.bind readBytes_keeps fun _ => .pure) fun _ =>
    .ite .fail (.ite .fail (.modify fun _ => rfl))) .pure

lemma readOneRR_keeps : Keeps file (readOneRR decode) := by
  refine .bind .read fun _ => .bind .assert fun _ => .ite .fail (.bind enterTransaction_keeps fun _ =>
    .bind readBytes_keeps fun _ => .ite .fail (.bind readBytes_keeps fun _ =>
    .bind (.modify fun _ => rfl) fun _ => .bind .read fun j => ?_))
  split
  · exact .fail
  · exact .bind .assert fun _ => .bind (.modify fun _ => rfl) fun _ => .pure

lemma allRRs_keeps {rounds : ℕ} : Keeps file (allRRs decode rounds) := by
  induction rounds with
  | zero => exact .fail
  | succ rounds ih =>
    refine .bind (.attempt readOneRR_keeps) fun r => ?_
    split
    · exact .bind ih fun _ => .pure
    · exact .pure
    · exact .fail

lemma iterate_keeps {b e : ℕ} : Keeps file (iterate decode b e) := by
  refine .bind (.bind journalFind_keeps fun _ => .bind .assert fun _ => .bind journalFind_keeps fun _ =>
    .bind .assert fun _ => .modify fun _ => rfl) fun _ => .bind (.bind .read fun _ =>
    .bind (.modify fun _ => rfl) fun _ => .modify fun _ => rfl) fun _ => .bind .read fun _ => ?_
  exact allRRs_keeps

end

variable {diffs : List (List RR)}

section
variable (hr : Rest decode j ts) (hstate : j.state = .writing) (ht : t.Valid decode)
  (hrrs : t.rrs = diffs.flatten)
include hr hstate ht hrrs

lemma prepare_meets :
    Succeeds (prepare diffs) j fun _ j₁ => Filling j (newOffset j₁.header) t.rrs j₁ ∧
      Stored decode j₁.disk.view j₁.header j₁.index ts ∧ Indexed j₁.header.start j₁.index ts := by
  have hvalid : ∀ r ∈ diffs.flatten, r.Valid decode := hrrs ▸ ht.records
  refine (beginTransaction_meets hstate).next fun _ j₁ h1 => ?_
  refine (writediffs_meets h1 hvalid).mono (fun _ h => h) (fun _ j₂ h2 => ?_) fun _ _ h => h
  rw [nil_append, ← hrrs] at h2
  obtain ⟨ws, hpending, hws⟩ := h2.pending
  have hview : j₂.disk.view = j.disk.view.writes ws := by
    rw [Disk.view, h2.synced, hpending, File.writes_append]
    rfl
  rw [hview, h2.header, h2.index]
  exact ⟨h2, hr.stored.writes hws, hr.indexed⟩

lemma transaction_meets (hf : ts ≠ [] → t.serial0 = j.header.stop.serial) :
    Succeeds (transaction diffs) j fun _ j' => ∃ j₁ gone kept,
      Filling j (newOffset j₁.header) t.rrs j₁ ∧ Stored decode j₁.disk.view j₁.header j₁.index ts ∧
      Commits j₁ ts (newOffset j₁.header) t gone kept j' := by
  refine (prepare_meets hr hstate ht hrrs).next ?_
  rintro _ j₁ ⟨hfill, hstored, hindexed⟩
  refine (commit_meets hstored hindexed ?_ ht ?_ hfill).mono (fun _ h => h) ?_ fun _ _ h => h
  · rw [hfill.index]
    exact hr.length
  · rw [hfill.header]
    exact hf
  · rintro _ j' ⟨gone, kept, hc⟩
    exact ⟨j₁, gone, kept, hfill, hstored, hc⟩

end

lemma Rest.writing {r : Except Result Unit} (hr : Rest decode j ts)
    (hrun : (prepare diffs).run j = some (r, j')) : j.state = .writing := by
  rcases hr.state with h | h
  · simp [prepare, beginTransaction, h] at hrun
  · exact h

lemma Stored.serial0_eq {f : File} {h : Header} {index : List Pos}
    (hs : Stored decode f h index ts) (hne : ts ≠ []) {serial : ℕ}
    (hlast : ∀ u ∈ ts.getLast?, serial = u.serial1) : serial = h.stop.serial := by
  obtain ⟨us, u, rfl⟩ := eq_nil_or_concat ts |>.resolve_left hne
  rw [hs.describes.stop, hlast u (by simp)]
  simp [Pos.past, after]

lemma addressable_ne_nil (hinc : ∀ t ∈ ts, t.Increasing) (hne : ts ≠ []) : addressable ts ≠ [] := by
  induction ts with
  | nil => exact absurd rfl hne
  | cons t ts ih =>
    rw [addressable]
    split_ifs with h
    · simp
    · cases ts with
      | nil =>
        have := (hinc t mem_cons_self).step_lt
        simp only [span_cons, span_nil, Nat.add_zero] at h
        exact absurd this h
      | cons u ts => exact ih (fun v hv => hinc v (.tail _ hv)) (by simp)

lemma getLast_addressable (hinc : ∀ t ∈ ts, t.Increasing) :
    (addressable ts).getLast? = ts.getLast? := by
  by_cases hne : ts = []
  · subst hne
    rfl
  · obtain ⟨us, hus⟩ := addressable_suffix ts
    have := addressable_ne_nil hinc hne
    conv_rhs => rw [← hus]
    rw [getLast?_append_of_ne_nil _ this]

lemma Rest.open {write : Bool} (hr : Rest decode j ts) (hopen : journalOpen j.disk write = .ok j') :
    Rest decode j' ts := by
  obtain ⟨j₁, hj1, hdisk, hheader, hindex, hstate⟩ := hr.stored.onDisk.journalOpen_eq write
  rw [hopen] at hj1
  cases hj1
  refine ⟨?_, ?_, ?_, ?_, ?_⟩
  · rw [hdisk, hheader, hindex]
    exact hr.stored
  · rw [hheader, hindex]
    exact hr.indexed
  · rw [hindex]
    exact hr.length
  · rw [hstate]
    cases write
    exacts [.inl rfl, .inr rfl]
  · rw [hdisk]
    exact hr.durable

lemma Committed.rest (h : Committed decode history j) :
    Rest decode j (addressable history) ∧ ∀ t ∈ history, t.Valid decode := by
  induction h with
  | @create write j hopen =>
    obtain ⟨j₁, hj1, hdisk, hheader, hindex, hstate⟩ := onDisk_created.journalOpen_eq write
    rw [hopen] at hj1
    cases hj1
    refine ⟨⟨?_, ?_, ?_, ?_, .inr ⟨rfl, hdisk⟩⟩, by simp⟩
    · rw [hdisk, hheader, hindex]
      exact stored_created
    · rw [hindex]
      intro e he hvalid
      rw [eq_of_mem_replicate he] at hvalid
      simp [valid] at hvalid
    · rw [hindex]
      simp
    · rw [hstate]
      cases write
      exacts [.inl rfl, .inr rfl]
  | @transact history j j' diffs serial0 serial1 _ ht hlast hrun hsize ih =>
    obtain ⟨hr, hvalid⟩ := ih
    have hinc := fun t h => (hvalid t h).increasing
    have hstate : j.state = .writing := by
      obtain ⟨_, _, hprepare, -⟩ := bind_eq_ok.mp hrun
      exact hr.writing hprepare
    have hf : addressable history ≠ [] → serial0 = j.header.stop.serial := by
      intro hne
      rw [← getLast_addressable hinc] at hlast
      exact hr.stored.serial0_eq hne hlast
    obtain ⟨j₁, gone, kept, hfill, hstored, hc⟩ :=
      (transaction_meets (t := ⟨diffs.flatten, serial0, serial1⟩) hr hstate ht rfl hf).of_run hrun
    obtain ⟨hnew, hindexed⟩ := hc.stored hstored (by rw [hfill.index]; exact hr.length) ht
      (by rw [hfill.header]; exact hf) hfill hsize
    rw [← addressable_concat, hc.purged.addressable_eq]
    refine ⟨⟨hnew, hindexed, ?_, .inr hc.state, .inl ?_⟩, ?_⟩
    · rw [hc.length, hfill.index]
      exact hr.length
    · rw [hc.disk]
      rfl
    · intro t h
      rcases mem_append.mp h with h | h
      · exact hvalid t h
      · rw [mem_singleton.mp h]
        exact ht
  | @iterate history j j' b e r _ hrun ih =>
    obtain ⟨hr, hvalid⟩ := ih
    have hkeep := iterate_keeps j r j' hrun
    simp only [file, Prod.mk.injEq] at hkeep
    obtain ⟨hdisk, hheader, hindex, hstate⟩ := hkeep
    refine ⟨⟨?_, ?_, ?_, ?_, ?_⟩, hvalid⟩
    · rw [hdisk, hheader, hindex]
      exact hr.stored
    · rw [hheader, hindex]
      exact hr.indexed
    · rw [hindex]
      exact hr.length
    · rw [hstate]
      exact hr.state
    · rw [hdisk]
      exact hr.durable
  | reopen _ hopen ih => exact ⟨ih.1.open hopen, ih.2⟩

/-- A transaction ends or starts at `serial`, behind the first ones `pre`. -/
def Boundary (ts pre : List Tx) (serial : ℕ) : Prop :=
  pre <+: ts ∧ ((∃ t ∈ pre.getLast?, t.serial1 = serial) ∨
    ∃ t, pre ++ [t] <+: ts ∧ t.serial0 = serial)

variable (decode) in
/-- An iteration from `b` to `e` gives the records of the transactions between the two, and is
refused if one of them is not at the boundary of a transaction. -/
structure Reads (j : Handle) (ts : List Tx) (b e : ℕ) : Prop where
  records : ∀ pre mid, Boundary ts pre b → Boundary ts (pre ++ mid) e →
    (iterate decode b e).outcome j = some (.ok (records mid))
  refused : (∀ pre, ¬Boundary ts pre b) ∨ (∀ pre, ¬Boundary ts pre e) →
    (iterate decode b e).outcome j = some (.error .range) ∨
      (iterate decode b e).outcome j = some (.error .notFound)

variable (decode) in
def IndexFree (j : Handle) (ts : List Tx) (b e : ℕ) : Prop :=
  ∀ index : List Pos, (∀ p ∈ index, p.valid →
    ∃ pre t, pre ++ [t] <+: ts ∧ p = j.header.start.past pre) →
    (iterate decode b e).outcome { j with index := index } = (iterate decode b e).outcome j

lemma boundary_iff {serial s : ℕ} {pre : List Tx} (hf : Follows s ts) (hne : ts ≠ []) :
    Boundary ts pre serial ↔ pre <+: ts ∧ after s pre = serial := by
  refine and_congr_right fun hpre => ?_
  have hstart : ∀ t, pre ++ [t] <+: ts → t.serial0 = after s pre := by
    rintro t ⟨post, rfl⟩
    rw [append_assoc, follows_append] at hf
    exact hf.2.1
  have hend : ∀ t ∈ pre.getLast?, t.serial1 = after s pre := by
    intro t ht
    obtain ⟨us, rfl⟩ := getLast?_eq_some_iff.mp ht
    simp [after]
  constructor
  · rintro (⟨t, ht, rfl⟩ | ⟨t, ht, rfl⟩)
    · exact (hend t ht).symm
    · exact (hstart t ht).symm
  · rintro rfl
    rcases hpre with ⟨post, rfl⟩
    rcases post with _ | ⟨t, post⟩
    · rw [append_nil] at hne
      obtain ⟨us, t, rfl⟩ := eq_nil_or_concat pre |>.resolve_left hne
      exact .inl ⟨t, by simp, hend t (by simp)⟩
    · exact .inr ⟨t, ⟨post, by simp⟩, hstart t ⟨post, by simp⟩⟩

section
variable {b e : ℕ}

lemma Stored.reads (hs : Stored decode j.disk.view j.header j.index ts) (hne : ts ≠ [])
    (hb : b < 2 ^ 32) (he : e < 2 ^ 32) : Reads decode j ts b e := by
  have hd := hs.describes
  constructor
  · intro pre mid hpre hmid
    obtain ⟨-, rfl⟩ := (boundary_iff hd.follows hne).mp hpre
    obtain ⟨hpfx, rfl⟩ := (boundary_iff hd.follows hne).mp hmid
    exact iterate_found hd hs.stores hne hpfx
  · intro hmiss
    have hrefusal : ∀ serial, refusal j.header ts serial = .range ∨
        refusal j.header ts serial = .notFound := by
      intro serial
      rw [refusal]
      split_ifs
      exacts [.inl rfl, .inr rfl]
    have hoff : ∀ serial, (∀ pre, ¬Boundary ts pre serial) →
        ∀ us, us <+: ts → (j.header.start.past us).serial ≠ serial :=
      fun serial h us hus hserial => h us ((boundary_iff hd.follows hne).mpr ⟨hus, hserial⟩)
    by_cases hbegin : ∀ pre, ¬Boundary ts pre b
    · rw [iterate_noBegin hd hs.stores hne hb (hoff b hbegin)]
      exact (hrefusal b).imp (congrArg _ <| congrArg _ ·) (congrArg _ <| congrArg _ ·)
    · have hend := hoff e (hmiss.resolve_left hbegin)
      obtain ⟨pre, hpre⟩ := not_forall_not.mp hbegin
      obtain ⟨hpfx, rfl⟩ := (boundary_iff hd.follows hne).mp hpre
      have hanswer := iterate_noEnd hd hs.stores hne he hpfx hend
      simp only [Pos.past] at hanswer
      rw [hanswer]
      exact (hrefusal e).imp (congrArg _ <| congrArg _ ·) (congrArg _ <| congrArg _ ·)

lemma exists_answer (hd : Describes j.header [] ts) (hs : Stores decode j.disk.view j.header ts)
    (hne : ts ≠ []) (hb : b < 2 ^ 32) (he : e < 2 ^ 32) :
    ∃ r, ∀ index : List Pos, (∀ p ∈ index, p.valid → Harmless j.header.start ts p) →
      (iterate decode b e).outcome { j with index := index } = r := by
  by_cases hbegin : ∃ us, us <+: ts ∧ (j.header.start.past us).serial = b
  · obtain ⟨us, hus, rfl⟩ := hbegin
    by_cases hend : ∃ us, us <+: ts ∧ (j.header.start.past us).serial = e
    · obtain ⟨us', hus', rfl⟩ := hend
      by_cases hle : us <+: us'
      · obtain ⟨mid, rfl⟩ := hle
        exact ⟨_, fun index hindex =>
          iterate_found (j := { j with index := index }) (hd.mono_index hindex) hs hne hus'⟩
      · obtain ⟨mid, rfl⟩ := ( prefix_or_prefix_of_prefix hus hus').resolve_left hle
        have hmid : mid ≠ [] := by
          rintro rfl
          exact hle (by simp)
        exact ⟨_, fun index hindex =>
          iterate_backward (j := { j with index := index }) (hd.mono_index hindex) hs hne hus hmid⟩
    · have hend : ∀ us, us <+: ts → (j.header.start.past us).serial ≠ e :=
        fun us hus h => hend ⟨us, hus, h⟩
      exact ⟨some (.error (refusal j.header ts e)), fun index hindex =>
        iterate_noEnd (j := { j with index := index }) (hd.mono_index hindex) hs hne he hus hend⟩
  · have hbegin : ∀ us, us <+: ts → (j.header.start.past us).serial ≠ b :=
      fun us hus h => hbegin ⟨us, hus, h⟩
    exact ⟨some (.error (refusal j.header ts b)), fun index hindex =>
      iterate_noBegin (j := { j with index := index }) (hd.mono_index hindex) hs hne hb hbegin⟩

def emptyAnswer (b e : ℕ) : Except Result (List RR) := if b = 0 then
    if e = 0 then .ok [] else if e = 2 ^ 31 then .error .noMore else .error .range
  else if b = 2 ^ 31 then .error .noMore else .error .range

lemma indexFind_invalid {index : List Pos} (hindex : ∀ p ∈ index, p.valid = false) (serial : ℕ)
    (best : Pos) : indexFind index serial best = best := by
  induction index with
  | nil => rfl
  | cons p index ih =>
    rw [indexFind, foldl_cons, hindex p mem_cons_self]
    exact ih fun q hq => hindex q (.tail _ hq)

variable {serial : ℕ}

lemma journalFind_empty (hstart : j.header.start = .invalid) (hstop : j.header.stop = .invalid)
    (hindex : ∀ p ∈ j.index, p.valid = false) (hs : serial < 2 ^ 32) :
    ∃ offset, (journalFind serial).run j = some (if serial = 0 then .ok .invalid
      else if serial = 2 ^ 31 then .error .noMore else .error .range, { j with offset := offset }) := by
  have hfind := indexFind_invalid hindex serial .invalid
  by_cases hzero : serial = 0
  · subst hzero
    exact ⟨j.offset, by simp [journalFind, hstart, hstop, serialGT]⟩
  · by_cases hhalf : serial = 2 ^ 31
    · -- neither of the two comparisons holds
      have hgt : serialGT 0 serial = false := by
        simp only [serialGT, Bool.and_eq_false_iff, decide_eq_false_iff_not]
        omega
      have hgt' : serialGT serial 0 = false := by
        simp only [serialGT, Bool.and_eq_false_iff, decide_eq_false_iff_not]
        omega
      refine ⟨0, ?_⟩
      rw [if_neg hzero, if_pos hhalf]
      simp only [journalFind, bind_run, read_run, hstart, hstop, hfind, findLoop]
      simp [hgt, hgt', journalNext, seek, hstop, hzero, Ne.symm hzero]
    · refine ⟨j.offset, ?_⟩
      have hgt : serialGT 0 serial ∨ serialGT serial 0 := by
        simp only [serialGT, Bool.and_eq_true, decide_eq_true_eq]
        omega
      rw [if_neg hzero, if_neg hhalf]
      rcases hgt with hgt | hgt
      · simp [journalFind, hstart, hgt]
      · by_cases hgt' : serialGT 0 serial
        · simp [journalFind, hstart, hgt']
        · simp [journalFind, hstart, hstop, hgt, hgt']

section
variable {j₁ j₂ : Handle} {r : Result} {bpos epos : Pos}

lemma iterate_of_noBegin (hbegin : (journalFind b).run j = some (.error r, j₁)) :
    (iterate decode b e).outcome j = some (.error r) := by
  simp [outcome, iterate, iterInit, hbegin]

lemma iterate_of_noEnd (hbegin : (journalFind b).run j = some (.ok bpos, j₁)) (hb : bpos.serial = b)
    (hend : (journalFind e).run j₁ = some (.error r, j₂)) :
    (iterate decode b e).outcome j = some (.error r) := by
  subst hb
  simp [outcome, iterate, iterInit, hbegin, hend]

lemma iterate_of_same (hbegin : (journalFind b).run j = some (.ok bpos, j₁)) (hb : bpos.serial = b)
    (hend : (journalFind e).run j₁ = some (.ok epos, j₂)) (he : epos.serial = e)
    (hsame : bpos.offset = epos.offset) : (iterate decode b e).outcome j = some (.ok []) := by
  subst hb he
  simp [outcome, iterate, iterInit, hbegin, hend, firstRR, seek, allRRs, attempt, readOneRR, hsame]

end

lemma iterate_empty (hstart : j.header.start = .invalid) (hstop : j.header.stop = .invalid)
    (hindex : ∀ p ∈ j.index, p.valid = false) (hb : b < 2 ^ 32) (he : e < 2 ^ 32) :
    (iterate decode b e).outcome j = some (emptyAnswer b e) := by
  obtain ⟨o1, hbegin⟩ := journalFind_empty hstart hstop hindex hb
  obtain ⟨o2, hend⟩ := journalFind_empty (j := { j with offset := o1 }) hstart hstop hindex he
  rw [emptyAnswer]
  by_cases hb0 : b = 0
  · rw [if_pos hb0] at hbegin ⊢
    by_cases he0 : e = 0
    · rw [if_pos he0] at hend ⊢
      exact iterate_of_same hbegin hb0.symm hend he0.symm rfl
    · rw [if_neg he0] at hend ⊢
      by_cases hhalf : e = 2 ^ 31
      · rw [if_pos hhalf] at hend ⊢
        exact iterate_of_noEnd hbegin hb0.symm hend
      · rw [if_neg hhalf] at hend ⊢
        exact iterate_of_noEnd hbegin hb0.symm hend
  · rw [if_neg hb0] at hbegin ⊢
    by_cases hhalf : b = 2 ^ 31
    · rw [if_pos hhalf] at hbegin ⊢
      exact iterate_of_noBegin hbegin
    · rw [if_neg hhalf] at hbegin ⊢
      exact iterate_of_noBegin hbegin

lemma Rest.invalid (hr : Rest decode j []) : ∀ p ∈ j.index, p.valid = false := by
  intro p hp
  by_contra hvalid
  rw [Bool.not_eq_false] at hvalid
  obtain ⟨us, hus, rfl⟩ := hr.indexed p hp hvalid
  rw [prefix_nil.mp hus, past_nil, hr.stored.empty rfl] at hvalid
  simp [valid] at hvalid

lemma Rest.empty (hr : Rest decode j []) :
    j.header.start = .invalid ∧ j.header.stop = .invalid := by
  have hstart := hr.stored.empty rfl
  exact ⟨hstart, by rw [hr.stored.describes.stop, hstart]; rfl⟩

lemma Rest.indexFree (hr : Rest decode j ts) (hb : b < 2 ^ 32) (he : e < 2 ^ 32) :
    IndexFree decode j ts b e := by
  intro index hindex
  by_cases hnil : ts = []
  · subst hnil
    obtain ⟨hstart, hstop⟩ := hr.empty
    rw [iterate_empty hstart hstop hr.invalid hb he]
    refine iterate_empty (j := { j with index := index }) hstart hstop (fun p hp => ?_) hb he
    by_contra hvalid
    obtain ⟨pre, t, hpre, -⟩ := hindex p hp (by simpa using hvalid)
    exact absurd (prefix_nil.mp hpre) (by simp)
  · have hbare : Describes j.header [] ts := hr.stored.describes.mono_index (by simp)
    obtain ⟨r, hall⟩ := exists_answer hbare hr.stored.stores hnil hb he
    rw [hall index fun p hp hvalid => ?_]
    · exact (hall j.index hr.stored.describes.index).symm
    · obtain ⟨pre, t, hpre, rfl⟩ := hindex p hp hvalid
      exact .inl ⟨pre, (prefix_append pre [t]).trans hpre, rfl⟩

lemma not_boundary_nil (pre : List Tx) (serial : ℕ) : ¬Boundary [] pre serial := by
  rintro ⟨hpre, ⟨t, ht, -⟩ | ⟨t, ht, -⟩⟩
  · rw [prefix_nil.mp hpre] at ht
    simp at ht
  · exact absurd (prefix_nil.mp ht) (by simp)

/-- Every iteration in a journal gives what has been committed, whatever the index has; only in a
journal without transactions two serials are not refused. -/
theorem iterate_reads_iff (h : Committed decode history j) (hb : b < 2 ^ 32) (he : e < 2 ^ 32) :
    Reads decode j (addressable history) b e ∧ IndexFree decode j (addressable history) b e ↔
      history ≠ [] ∨ b ≠ 2 ^ 31 ∧ (b = 0 → e ≠ 0 ∧ e ≠ 2 ^ 31) := by
  obtain ⟨hr, hvalid⟩ := h.rest
  rw [and_iff_left (hr.indexFree hb he)]
  by_cases hnil : history = []
  · subst hnil
    obtain ⟨hstart, hstop⟩ := hr.empty
    have hanswer : (iterate decode b e).outcome j = _ := iterate_empty hstart hstop hr.invalid hb he
    have hreads : Reads decode j [] b e ↔
        emptyAnswer b e = .error .range ∨ emptyAnswer b e = .error .notFound := by
      constructor
      · intro hreads
        simpa [hanswer] using hreads.refused (.inl fun pre => not_boundary_nil pre b)
      · intro hrefused
        refine ⟨fun pre mid hpre => absurd hpre (not_boundary_nil pre b), fun _ => ?_⟩
        simpa [hanswer] using hrefused
    simp only [addressable, ne_eq, not_true_eq_false, false_or]
    rw [hreads, emptyAnswer]
    split_ifs <;> simp_all
  · simp only [ne_eq, hnil, not_false_eq_true, true_or, iff_true]
    exact hr.stored.reads (addressable_ne_nil (fun t ht => (hvalid t ht).increasing) hnil) hb he

end

def plainDecode (_rdclass _rdtype : ℕ) (data : List UInt8) (_available : ℕ) :
    Except Result (List UInt8) := .ok data

def rootSoa (serial : ℕ) : RR :=
  ⟨Name.root.wire, soaType, 1, 0, [0, 0] ++ be32 serial ++ List.replicate 16 0⟩

def oneTx : Tx := ⟨[[rootSoa 1, rootSoa 2]].flatten, 1, 2⟩

lemma rootSoa_valid (serial : ℕ) : (rootSoa serial).Valid plainDecode where
  name := ⟨Name.root, by decide, rfl⟩
  type := by simp [rootSoa, soaType]
  rdclass := by simp [rootSoa]
  ttl := by simp [rootSoa]
  length := by simp [rootSoa]
  decode _ _ := rfl
  soa _ := by simp [rootSoa]

lemma oneTx_valid : oneTx.Valid plainDecode where
  records r hr := by
    have hr : r ∈ [rootSoa 1, rootSoa 2] := hr
    simp only [mem_cons, not_mem_nil, or_false] at hr
    rcases hr with rfl | rfl <;> exact rootSoa_valid _
  serials := by decide +kernel
  later := by decide +kernel

lemma committed_one : ∃ j, Committed plainDecode [oneTx] j := by
  have hruns := exists_of_toOption (e := journalOpen created true)
    (q := fun j => ((transaction [[rootSoa 1, rootSoa 2]]).run j).any fun r =>
      r.1.isOk && decide (r.2.disk.view.size < 2 ^ 32)) (by decide +kernel)
  obtain ⟨j, hopen, hj⟩ := hruns
  obtain ⟨j', hrun, hsize⟩ := exists_of_any (s := j)
    (q := fun j => decide (j.disk.view.size < 2 ^ 32)) hj
  exact ⟨j', .transact (.create hopen) oneTx_valid (by simp) hrun (of_decide_eq_true hsize)⟩

theorem iterate_reads_iff_one : ∃ j, Committed plainDecode [oneTx] j ∧
    (Reads plainDecode j (addressable [oneTx]) 1 2 ∧
      IndexFree plainDecode j (addressable [oneTx]) 1 2 ↔
      [oneTx] ≠ [] ∨ 1 ≠ 2 ^ 31 ∧ (1 = 0 → 2 ≠ 0 ∧ 2 ≠ 2 ^ 31)) := by
  obtain ⟨j, hone⟩ := committed_one
  exact ⟨j, hone, iterate_reads_iff hone (by omega) (by omega)⟩

/-- In a new journal the serial half way round the circle is taken for one that is there. -/
theorem iterate_new_noMore : ∃ j, Committed plainDecode [] j ∧
    (∀ pre, ¬Boundary (addressable []) pre (2 ^ 31)) ∧
    (iterate plainDecode (2 ^ 31) 0).outcome j = some (.error .noMore) := by
  have hanswer : (match journalOpen created true with
      | .ok j => (iterate plainDecode (2 ^ 31) 0).outcome j
      | .error _ => none) = some (.error .noMore) := by
    decide +kernel
  split at hanswer
  case h_1 j hopen => exact ⟨j, .create hopen, fun pre => not_boundary_nil pre _, hanswer⟩
  case h_2 => simp at hanswer

end LbBind.Journal

import LbBind.Journal.History

/-! Compacting a journal (`dns_journal_compact`). The transactions behind some position are copied
to a new journal, which takes the place of the old one. The file of the new journal is taken not to
exist beforehand, and to be renamed without error. -/

namespace LbBind.Journal

open Lib Call Disk File List Describes

variable {j : Handle}

/-- `dns_journal_get_sourceserial` -/
def getSourceserial (j : Handle) : Option ℕ :=
  if j.header.serialset then some j.header.sourceserial else none

variable (h : Header)

def indexend : ℕ := (headerSize + h.indexSize * posSize) % 2 ^ 32

/-- The number of bytes up to the end of the journal, in 32 bits. -/
def bytesFrom (pos : Pos) : ℕ := (((h.stop.offset : ℤ) - pos.offset) % 2 ^ 32).toNat

variable (targetSize : ℕ)

/-- Very small target sizes are raised. -/
def raisedTarget : ℕ :=
  if targetSize < indexend h * 2 % 2 ^ 32 then (targetSize / 2 + indexend h) % 2 ^ 32 else targetSize

/-- There is work to do. -/
def oversized : Bool :=
  !h.empty && raisedTarget h targetSize ≤ h.stop.offset % 2 ^ 32

/-- The target size without the overhead. -/
def netTarget : ℕ :=
  let targetSize := raisedTarget h targetSize
  if indexend h ≤ targetSize then targetSize - indexend h else targetSize

def frees (serial targetSize : ℕ) (best pos : Pos) : Bool :=
  serialGE serial pos.serial && targetSize / 2 ≤ bytesFrom h pos && best.offset < pos.offset

def guessLoop (serial targetSize : ℕ) : ℕ → (best current : Pos) → Routine Pos
  | 0, _, _ => do
    assert False
    fail .failure
  | rounds + 1, best, current =>
    if current.serial = serial then pure best
    else do
      let current ← journalNext current
      let j ← read
      if current.serial = j.header.stop.serial then pure best
      else if frees j.header serial targetSize best current then
        guessLoop serial targetSize rounds current current
      else pure best

/-- The position to copy from. -/
def bestGuess (serial targetSize : ℕ) : Routine Pos := do
  let j ← read
  let guess := j.index.foldl (fun best e =>
    if e.valid && frees j.header serial targetSize best e then e else best) j.header.start
  let best ← guessLoop serial targetSize (j.disk.view.size + 1) guess guess
  assert (best.serial ≠ j.header.stop.serial)
  if best.serial ≠ serial then journalNext best else pure best

/-- The position to copy from, and what is copied. -/
def copied (serial targetSize : ℕ) : Routine (Pos × List UInt8) := do
  let best ← bestGuess serial targetSize
  let j ← read
  if bytesFrom j.header best = 0 then pure (best, [])
  else do
    seek best.offset
    let bytes ← readBytes (bytesFrom j.header best)
    pure (best, bytes)

def reindex : ℕ → Pos → Routine Unit
  | 0, _ => do
    assert False
    fail .failure
  | rounds + 1, pos => do
    let j ← read
    if pos.serial = j.header.stop.serial then pure ()
    else do
      indexAdd pos
      let pos ← journalNext pos
      reindex rounds pos

def compactedHeader (old h : Header) (best : Pos) (copyLength : ℕ) : Header := { h with
    start := ⟨best.serial, indexend old⟩
    stop := ⟨old.stop.serial, (indexend old + copyLength) % 2 ^ 32⟩
    sourceserial := old.sourceserial
    serialset := old.serialset }

/-- What happens to the new journal if there is something to copy. -/
def copyInto (old : Header) (best : Pos) (bytes : List UInt8) : Routine Unit := do
  seek (indexend old)
  writeBytes bytes
  fsync
  modify fun j => { j with header := compactedHeader old j.header best bytes.length }
  writeHeader
  fsync
  let j ← read
  reindex (j.disk.view.size + 1) j.header.start
  indexToDisk
  fsync

def newCompacted (new : Except Result Handle) (old : Header) (best : Pos) (bytes : List UInt8) :
    Option (Except Result Disk) :=
  match new with
  | .error e => some (.error e)
  | .ok new =>
    if bytes = [] then some (.ok new.disk)
    else
      match (copyInto old best bytes).run new with
      | none => none
      | some (.error e, _) => some (.error e)
      | some (.ok (), new) => some (.ok new.disk)

/-- `dns_journal_compact`, with what the file of the journal is then. -/
def compact (disk : Disk) (serial targetSize : ℕ) : Option (Except Result Disk) :=
  match journalOpen disk false with
  | .error e => some (.error e)
  | .ok j =>
    if j.header.empty then some (.ok disk)
    else if serialGT j.header.start.serial serial || serialGT serial j.header.stop.serial then
      some (.error .range)
    else if oversized j.header targetSize then
      match (copied serial (netTarget j.header targetSize)).outcome j with
      | none => none
      | some (.error e) => some (.error e)
      | some (.ok (best, bytes)) => newCompacted (journalOpen created true) j.header best bytes
    else some (.ok disk)

lemma readBytes_length {n : ℕ} : Ensures (readBytes n) j fun bytes _ => bytes.length = n :=
  .read (.ite (fun _ => .change (.pure (by simp))) fun _ => .fail trivial)

/-- The last transaction is passed over: it starts before the serial, and either it is the only one or
it has half of the target size. -/
def Forgets (serial targetSize : ℕ) (ts : List Tx) : Prop := ∃ us t, ts = us ++ [t] ∧
  t.serial0 ≠ serial ∧ serialGE serial t.serial0 ∧ (us = [] ∨ targetSize / 2 ≤ t.encode.length)

section
variable {decode : (rdclass rdtype : ℕ) → (data : List UInt8) → (available : ℕ) →
  Except Result (List UInt8)} {ts us : List Tx} {t : Tx} {serial target d : ℕ}

/-- A position behind some transactions that may be copied from. -/
def Far (h : Header) (serial targetSize : ℕ) (us : List Tx) : Prop :=
  serialGE serial (h.start.past us).serial ∧ targetSize / 2 ≤ bytesFrom h (h.start.past us)

section
variable {f : File} {h : Header} {index : List Pos} (hs : Stored decode f h index ts)
include hs

lemma bytesFrom_past {post : List Tx} (hts : ts = us ++ post) :
    bytesFrom h (h.start.past us) = (encodes post).length := by
  have hsmall := hs.stores.small
  subst hts
  rw [encodes_append, List.length_append] at hsmall
  simp only [bytesFrom, hs.describes.stop, Pos.past, encodes_append, List.length_append]
  omega

section
variable (hus : us <+: ts) (hd : d ≤ span ts) (hserial : serial = (h.start.serial + d) % 2 ^ 32)
include hus hd hserial

lemma serialGE_past : serialGE serial (h.start.past us).serial ↔ span us ≤ d := by
  have hshort := hs.describes.short
  have hle := span_le hus
  rw [hs.describes.serial_past hus, hserial, serialGE_add (by omega) (by omega), decide_eq_true_eq]

lemma Far.mono {us' : List Tx} (hpre : us' <+: us) (hfar : Far h serial target us) :
    Far h serial target us' := by
  obtain ⟨hge, hbytes⟩ := hfar
  rw [serialGE_past hs hus hd hserial] at hge
  refine ⟨(serialGE_past hs (hpre.trans hus) hd hserial).mpr ((span_le hpre).trans hge), hbytes.trans ?_⟩
  obtain ⟨mid, rfl⟩ := hpre
  obtain ⟨post, hpost⟩ := hus
  rw [bytesFrom_past hs hpost.symm, bytesFrom_past hs (by rw [← hpost, append_assoc]), encodes_append,
    length_append]
  omega

end

lemma forgets_iff (hd : d ≤ span ts) (hserial : serial = (h.start.serial + d) % 2 ^ 32)
    (hts : ts = us ++ [t]) : Forgets serial target ts ↔
      (h.start.past us).serial ≠ serial ∧ (us = [] ∨ Far h serial target us) := by
  have hstart : t.serial0 = (h.start.past us).serial := by
    have hfollows := hs.describes.follows
    rw [hts, follows_append] at hfollows
    exact hfollows.2.1
  have hbytes : bytesFrom h (h.start.past us) = t.encode.length := by
    rw [bytesFrom_past hs hts, encodes_cons, encodes_nil, List.append_nil]
  have hfirst : us = [] → serialGE serial (h.start.past us).serial := by
    rintro rfl
    exact (serialGE_past hs nil_prefix hd hserial).mpr (Nat.zero_le d)
  constructor
  · rintro ⟨us', t', heq, hne, hge, hsize⟩
    obtain ⟨rfl, rfl⟩ : us' = us ∧ t' = t := by
      rw [hts] at heq
      simpa [eq_comm] using heq
    exact ⟨hstart ▸ hne, hsize.imp_right fun hsize => ⟨hstart ▸ hge, hbytes ▸ hsize⟩⟩
  · rintro ⟨hne, hcase⟩
    exact ⟨us, t, hts, hstart ▸ hne, hstart ▸ hcase.elim hfirst And.left,
      hcase.imp_right fun hfar => hbytes ▸ hfar.2⟩

/-- Before the last transaction is passed over, every other one is. -/
lemma Forgets.before (hforgets : Forgets serial target ts) (hd : d ≤ span ts)
    (hserial : serial = (h.start.serial + d) % 2 ^ 32) (hus : us <+: ts) (hne : us ≠ ts) :
    (us = [] ∨ Far h serial target us) ∧ (h.start.past us).serial ≠ serial := by
  obtain ⟨us₀, t₀, rfl, -⟩ := id hforgets
  obtain ⟨hne₀, hlast⟩ := (forgets_iff hs hd hserial rfl).mp hforgets
  have hbefore : us <+: us₀ := (prefix_concat_iff.mp hus).resolve_left hne
  rcases hlast with rfl | hfar
  · rw [prefix_nil.mp hbefore]
    exact ⟨.inl rfl, hne₀⟩
  · refine ⟨.inr (hfar.mono hs ⟨[t₀], rfl⟩ hd hserial hbefore), fun heq => hne₀ ?_⟩
    -- the serial would be the one at which the last transaction starts
    have hge := (serialGE_past hs ⟨[t₀], rfl⟩ hd hserial).mp hfar.1
    have hshort := hs.describes.short
    have hle := span_le hus
    have hle₀ := span_le hbefore
    have hspan := heq
    rw [hs.describes.serial_past hus, hserial] at hspan
    rw [← hs.describes.prefix_unique hus ⟨[t₀], rfl⟩ (by omega)]
    exact heq

omit hs in
lemma guess_past (hindexed : Indexed h.start index ts) : ∃ us, us <+: ts ∧
    (us = [] ∨ Far h serial target us) ∧ index.foldl (fun best e =>
      if e.valid && frees h serial target best e then e else best) h.start = h.start.past us := by
  suffices hsuff : ∀ (es : List Pos) us, (∀ e ∈ es, e ∈ index) → us <+: ts →
      (us = [] ∨ Far h serial target us) → ∃ us', us' <+: ts ∧ (us' = [] ∨ Far h serial target us') ∧
        es.foldl (fun best e => if e.valid && frees h serial target best e then e else best)
          (h.start.past us) = h.start.past us' from
    hsuff index [] (fun _ h => h) List.nil_prefix (.inl rfl)
  intro es
  induction es with
  | nil => exact fun us _ hus hfar => ⟨us, hus, hfar, rfl⟩
  | cons e es ih =>
    intro us hmem hus hfar
    rw [List.foldl_cons]
    split_ifs with htaken
    · simp only [frees, Bool.and_eq_true, decide_eq_true_eq] at htaken
      obtain ⟨us', hus', rfl⟩ := hindexed e (hmem e (.head _)) htaken.1
      exact ih us' (fun e he => hmem e (.tail _ he)) hus' (.inr htaken.2.1)
    · exact ih us (fun e he => hmem e (.tail _ he)) hus hfar

end

section
variable (hs : Stored decode j.disk.view j.header j.index ts)
include hs

lemma journalNext_ends (hus : us <+: ts) : Ensures (journalNext (j.header.start.past us)) j
    fun pos j' => ∃ t, us ++ [t] <+: ts ∧ pos = j.header.start.past (us ++ [t]) ∧ Moved j j' := by
  obtain ⟨post, hpost⟩ := hus
  cases post with
  | nil =>
    rw [List.append_nil] at hpost
    refine .change (.read (.ite (fun _ => .fail trivial) fun hne => absurd ?_ hne))
    rw [hpost]
    exact congrArg Pos.serial hs.describes.stop.symm
  | cons t post =>
    have hpre : us ++ [t] <+: ts := ⟨post, by simp [hpost]⟩
    refine ⟨fun pos j' hrun => ⟨t, hpre, ?_⟩, fun _ _ _ => trivial⟩
    exact (journalNext_meets hs.describes hpre (hs.stores.readable hpre)).of_run hrun

/-- The walk ends at the serial, at the last transaction, or before one that is not far from the end. -/
lemma guessLoop_ends (rounds : ℕ) (hus : us <+: ts) (hfar : us = [] ∨ Far j.header serial target us) :
    Ensures (guessLoop serial target rounds (j.header.start.past us) (j.header.start.past us)) j
      fun best j' => Moved j j' ∧ ∃ us', us' <+: ts ∧ best = j.header.start.past us' ∧
        (us' = [] ∨ Far j.header serial target us') ∧ ((j.header.start.past us').serial = serial ∨
          ∃ t, us' ++ [t] <+: ts ∧ (us' ++ [t] = ts ∨ ¬Far j.header serial target (us' ++ [t]))) := by
  induction rounds generalizing us j with
  | zero => exact .check fun h => h.elim
  | succ rounds ih =>
    refine .ite (fun heq => .pure ⟨.refl _, us, hus, rfl, hfar, .inl heq⟩) fun _ => ?_
    refine (journalNext_ends hs hus).bind ?_
    rintro _ _ ⟨t, hpre, rfl, offset, rfl⟩
    refine .read (.ite (fun hstop => .pure ?_) fun _ => .ite (fun hfrees => ?_) fun hfrees => .pure ?_)
    · have hlast : us ++ [t] = ts := by
        refine hs.describes.serial_inj hpre List.prefix_rfl ?_
        exact hstop.trans (congrArg Pos.serial hs.describes.stop)
      exact ⟨⟨offset, rfl⟩, us, hus, rfl, hfar, .inr ⟨t, hpre, .inl hlast⟩⟩
    · simp only [frees, Bool.and_eq_true, decide_eq_true_eq] at hfrees
      exact (ih (j := { j with offset := offset }) hs hpre (.inr hfrees.1)).imp
        fun _ _ h => ⟨.trans ⟨offset, rfl⟩ h.1, h.2⟩
    · refine ⟨⟨offset, rfl⟩, us, hus, rfl, hfar, .inr ⟨t, hpre, .inr fun hfar' => hfrees ?_⟩⟩
      have hlater : (j.header.start.past us).offset < (j.header.start.past (us ++ [t])).offset := by
        simp [Pos.past, xhdrSize]
      simp only [frees, Bool.and_eq_true, decide_eq_true_eq]
      exact ⟨hfar', hlater⟩

variable (hindexed : Indexed j.header.start j.index ts) (hd : d ≤ span ts)
  (hserial : serial = (j.header.start.serial + d) % 2 ^ 32)
include hindexed hd hserial

lemma bestGuess_ends : Ensures (bestGuess serial target) j fun pos j' => Moved j j' ∧
    ∃ us, us <+: ts ∧ pos = j.header.start.past us ∧ (us = ts ↔ Forgets serial target ts) := by
  obtain ⟨us, hus, hfar, hguess⟩ : ∃ us, us <+: ts ∧ (us = [] ∨ Far j.header serial target us) ∧ _ :=
    guess_past hindexed
  refine .read ?_
  rw [hguess]
  refine (guessLoop_ends hs _ hus hfar).bind ?_
  rintro _ _ ⟨⟨offset, rfl⟩, us, hus, rfl, hfar, hend⟩
  refine .check fun hne => ?_
  have hts : us ≠ ts := by
    rintro rfl
    exact hne (congrArg Pos.serial hs.describes.stop.symm)
  refine .ite (fun hserial' => ?_) fun hserial' => .pure ⟨⟨offset, rfl⟩, us, hus, rfl, ?_⟩
  · refine (journalNext_ends (j := { j with offset := offset }) hs hus).imp ?_
    rintro _ j' ⟨t, hpre, rfl, hmoved⟩
    refine ⟨.trans ⟨offset, rfl⟩ hmoved, us ++ [t], hpre, rfl, fun heq => ?_, fun hforgets => ?_⟩
    · exact (forgets_iff hs hd hserial heq.symm).mpr ⟨hserial', hfar⟩
    · by_contra hshorter
      obtain ⟨t', hpre', hcase⟩ := hend.resolve_left hserial'
      have ht : us ++ [t'] = us ++ [t] :=
        (prefix_of_prefix_length_le hpre' hpre (by simp)).eq_of_length (by simp)
      rw [ht] at hcase
      have hbefore := (hforgets.before hs hd hserial hpre hshorter).1
      exact hcase.resolve_left hshorter (hbefore.resolve_left (by simp))
  · refine iff_of_false hts fun hforgets => ?_
    exact hserial' (hforgets.before hs hd hserial hus hts).2

lemma copied_ends : Ensures (copied serial target) j
    fun r _ => r.2 = [] ↔ Forgets serial target ts := by
  refine (bestGuess_ends hs hindexed hd hserial).bind ?_
  rintro _ _ ⟨⟨offset, rfl⟩, us, ⟨post, hpost⟩, rfl, hforgets⟩
  have hbytes := bytesFrom_past hs hpost.symm
  have hnil : bytesFrom j.header (j.header.start.past us) = 0 ↔ us = ts := by
    rw [hbytes, ← hpost, length_eq_zero_iff]
    constructor
    · intro hnil
      have hlength : post.length ≤ (encodes post).length := length_le_encodes
      rw [hnil, length_nil, Nat.le_zero, length_eq_zero_iff] at hlength
      rw [hlength, append_nil]
    · intro heq
      rw [List.self_eq_append_right.mp heq]
      rfl
  rw [← hforgets, ← hnil]
  refine .read (.ite (fun hzero => .pure (iff_of_true rfl hzero)) fun hne => .change ?_)
  refine readBytes_length.bind fun bytes _ hlength => .pure (iff_of_false (fun heq => hne ?_) hne)
  rw [← hlength]
  exact congrArg List.length heq

end
end

lemma reindex_keeps {rounds : ℕ} {pos : Pos} :
    Keeps (fun j : Handle => (j.disk, j.header)) (reindex rounds pos) := by
  have hadd {pos : Pos} : Keeps (fun j : Handle => (j.disk, j.header)) (indexAdd pos) :=
    .bind .read fun _ => .ite .pure (.ite (.modify fun _ => rfl)
      (.bind .assert fun _ => .modify fun _ => rfl))
  have hnext {pos : Pos} : Keeps (fun j : Handle => (j.disk, j.header)) (journalNext pos) :=
    fun s r s' h => congrArg (fun file => (file.1, file.2.1)) (journalNext_keeps s r s' h)
  induction rounds generalizing pos with
  | zero => exact .bind .assert fun _ => .fail
  | succ rounds ih => exact .bind .read fun _ => .ite .pure (.bind hadd fun _ => .bind hnext fun _ => ih)

/-- The header is on the disk, and the file is as long as a new one. -/
structure Written (h : Header) (j : Handle) : Prop where
  header : j.header = h
  has : j.disk.view.Has 0 h.encode
  size : 512 ≤ j.disk.view.size

lemma copyInto_ends {old : Header} {best : Pos} {bytes : List UInt8}
    (hformat : j.header.format = journalFormat) (hsize : 512 ≤ j.disk.view.size) :
    Ensures (copyInto old best bytes) j
      fun _ => Written (compactedHeader old j.header best bytes.length) := by
  set h := compactedHeader old j.header best bytes.length with hh
  have hlen : h.encode.length = headerSize := length_headerEncode hformat
  refine .change (.change (.change (.change ?_)))
  refine Ends.seq (Q := fun _ => Written h) (E := fun _ _ => True) (.read (.change (.modify ?_)))
    (fun _ _ h => h) fun _ j1 h1 => .change (.read ?_)
  · refine ⟨rfl, ?_, ?_⟩
    · simp only [view_write]
      exact has_write_self (List.ne_nil_of_length_pos (by rw [hlen]; decide))
    · simp only [view_write, view_sync]
      exact hsize.trans ((size_le_write ..).trans (size_le_write ..))
  refine Ends.seq (Q := fun _ => Written h) (E := fun _ _ => True)
    ⟨fun _ j2 hrun => ?_, fun _ _ _ => trivial⟩ (fun _ _ h => h) fun _ j2 h2 => ?_
  · obtain ⟨hdisk, hheader⟩ := Prod.mk.inj (reindex_keeps _ _ _ hrun)
    exact ⟨hheader.trans h1.header, hdisk ▸ h1.has, hdisk ▸ h1.size⟩
  refine Ends.seq (Q := fun _ => Written h) (E := fun _ _ => True) (.read (.ite (fun _ => .pure h2)
    fun _ => .change (.modify ⟨h2.header, ?_, ?_⟩))) (fun _ _ h => h)
    fun _ j3 h3 => .modify ⟨h3.header, h3.has, h3.size⟩
  · simp only [view_write]
    exact h2.has.write (.inl (by rw [hlen, Nat.zero_add]))
  · simp only [view_write]
    exact h2.size.trans (size_le_write ..)

lemma journalOpen_of_has {h : Header} {disk : Disk} (hhas : disk.view.Has 0 h.encode)
    (hformat : h.format = journalFormat) (hindexSize : h.indexSize = 56)
    (hsource : h.sourceserial < 2 ^ 32) (hsize : 512 ≤ disk.view.size) (write : Bool) :
    ∃ j, journalOpen disk write = .ok j ∧ j.header.sourceserial = h.sourceserial ∧
      j.header.serialset = h.serialset := by
  obtain ⟨hformat', hindexSize', hsourceserial, hserialset⟩ :=
    decode_fields hhas hformat (by rw [hindexSize]; decide) hsource
  simp only [journalOpen, hformat', hformat, hindexSize', hindexSize]
  rw [if_neg (by simp only [headerSize]; omega), if_neg (by simp),
    if_neg (by simp only [headerSize, posSize]; omega)]
  exact ⟨_, rfl, hsourceserial, hserialset⟩

lemma newCompacted_sourceserial {old : Header} {best : Pos} {bytes : List UInt8} {disk' : Disk}
    (hset : old.serialset) (hsource : old.sourceserial < 2 ^ 32)
    (h : newCompacted (journalOpen created true) old best bytes = some (.ok disk')) :
    (∃ j', journalOpen disk' false = .ok j' ∧ getSourceserial j' = some old.sourceserial) ↔
      bytes ≠ [] := by
  obtain ⟨new, hnew, hdisk, hheader, -⟩ := onDisk_created.journalOpen_eq true
  rw [hnew, newCompacted] at h
  split at h
  · next hnil =>
    -- the new journal is as it was created
    obtain ⟨j', hj', -, hheader', -⟩ := onDisk_created.journalOpen_eq false
    simp only [Option.some.injEq, Except.ok.injEq] at h
    refine iff_of_false ?_ (not_not.mpr hnil)
    rintro ⟨j1, hj1, hsame⟩
    rw [← h, hdisk, hj'] at hj1
    cases hj1
    simp [getSourceserial, hheader'] at hsame
  · next hne =>
    refine iff_of_true ?_ hne
    split at h
    · cases h
    · cases h
    · next new' hrun =>
      simp only [Option.some.injEq, Except.ok.injEq] at h
      have hindexed := onDisk_created.indexed.2
      rw [length_flatMap_encode, List.length_replicate] at hindexed
      have hends : Ends (copyInto old best bytes) new _ _ :=
        copyInto_ends (by rw [hheader]) (by rw [hdisk]; exact hindexed)
      obtain ⟨-, hhas, hsize⟩ := hends.1 () new' hrun
      obtain ⟨j', hj', hserial, hset'⟩ := journalOpen_of_has hhas (by simp [compactedHeader, hheader])
        (by simp [compactedHeader, hheader]) hsource hsize false
      refine ⟨j', h ▸ hj', ?_⟩
      rw [getSourceserial, if_pos (hset'.trans hset), hserial]
      rfl

/-- The source serial of a journal is kept if and only if there is no work to do or the last transaction
is not passed over. -/
theorem compact_sourceserial_iff {decode : (rdclass rdtype : ℕ) → (data : List UInt8) →
      (available : ℕ) → Except Result (List UInt8)}
    {disk disk' : Disk} {serial targetSize : ℕ} {ts : List Tx}
    (hopen : journalOpen disk false = .ok j) (hs : Stored decode disk.view j.header j.index ts)
    (hindexed : Indexed j.header.start j.index ts) (hserial : serial < 2 ^ 32)
    (hset : j.header.serialset) (h : compact disk serial targetSize = some (.ok disk')) :
    (∃ j', journalOpen disk' false = .ok j' ∧ getSourceserial j' = getSourceserial j) ↔
      (oversized j.header targetSize → ¬Forgets serial (netTarget j.header targetSize) ts) := by
  have hdisk : j.disk = disk := by
    simp only [journalOpen] at hopen
    split_ifs at hopen <;> cases hopen <;> rfl
  have hsame : getSourceserial j = some j.header.sourceserial := by rw [getSourceserial, if_pos hset]
  simp only [compact, hopen] at h
  split_ifs at h with hempty hrange hwork
  · cases h
    exact iff_of_true ⟨j, hopen, rfl⟩ (by simp [oversized, hempty])
  · cases h
  · obtain ⟨d, hd, hdist⟩ := exists_distance (s := j.header.start.serial) hserial
    have hle : d ≤ span ts := by
      have hshort := hs.describes.short
      have hpos : 0 < span ts := by
        refine span_pos hs.describes.increasing fun hnil => hempty ?_
        rw [Header.empty, hs.describes.stop, hnil]
        simp [Pos.past]
      rw [Bool.or_eq_true, hs.describes.serial_stop, hdist] at hrange
      simp only [serialGT, Bool.and_eq_true, decide_eq_true_eq] at hrange
      have hstart := hs.describes.start
      omega
    split at h
    · cases h
    · cases h
    · next best bytes hcopied =>
      obtain ⟨j', hrun⟩ : ∃ j', (copied serial (netTarget j.header targetSize)).run j =
          some (.ok (best, bytes), j') := by
        simpa [outcome] using hcopied
      have hforgets := (copied_ends (hdisk ▸ hs) hindexed hle hdist).1 _ _ hrun
      rw [hsame, newCompacted_sourceserial hset hs.sourceserial h]
      exact ⟨fun hne _ => hforgets.not.mp hne, fun hnot => hforgets.not.mpr (hnot hwork)⟩
  · cases h
    exact iff_of_true ⟨j, hopen, rfl⟩ fun hover => absurd hover hwork

def sevenHeader : Header := ⟨journalFormat, ⟨1, 512⟩, ⟨2, 598⟩, 56, 7, true⟩

def sevenIndex : List Pos := ⟨1, 512⟩ :: replicate 55 .invalid

/-- A journal that has the source serial 7 and one transaction, from 1 to 2. -/
def sevenDisk : Disk :=
  let bytes := sevenHeader.encode ++ sevenIndex.flatMap Pos.encode ++ oneTx.encode
  ⟨⟨asMem bytes, bytes.length⟩, []⟩

lemma sevenDisk_indexed : Indexed sevenHeader.start sevenIndex [oneTx] := by
  intro e he hvalid
  rcases mem_cons.mp he with rfl | he
  · exact ⟨[], nil_prefix, rfl⟩
  · rw [eq_of_mem_replicate he] at hvalid
    cases hvalid

lemma sevenDisk_has : sevenDisk.view.Has 0 sevenHeader.encode ∧
    sevenDisk.view.Has 64 (sevenIndex.flatMap Pos.encode) ∧ sevenDisk.view.Has 512 oneTx.encode := by
  have hlength : sevenHeader.encode.length = 64 ∧ (sevenIndex.flatMap Pos.encode).length = 448 := by
    decide +kernel
  have hbytes : sevenDisk.view.Has 0 (sevenHeader.encode ++ sevenIndex.flatMap Pos.encode ++ oneTx.encode) := by
    refine ⟨?_, (Nat.zero_add _).le⟩
    have hslice := asMem_slice [] (sevenHeader.encode ++ sevenIndex.flatMap Pos.encode ++ oneTx.encode) []
    rwa [nil_append, append_nil] at hslice
  rw [has_append, has_append, length_append, hlength.1, hlength.2] at hbytes
  exact ⟨hbytes.1.1, hbytes.1.2, hbytes.2⟩

lemma sevenDisk_stored : Stored plainDecode sevenDisk.view sevenHeader sevenIndex [oneTx] where
  describes := {
    increasing := by simpa using oneTx_valid.increasing
    follows := ⟨rfl, trivial⟩
    start := by decide
    stop := by decide +kernel
    short := by decide +kernel
    index := fun e he hvalid => .inl (sevenDisk_indexed e he hvalid) }
  stores := {
    valid := by simpa using oneTx_valid
    has := by
      rw [encodes_cons, encodes_nil, append_nil]
      exact sevenDisk_has.2.2
    small := by decide +kernel }
  empty := by simp
  base _ := by decide
  header := sevenDisk_has.1
  indexed := sevenDisk_has.2.1
  format := rfl
  length := rfl
  fits := by unfold Pos.Fits; decide +kernel
  indexSize := by decide
  sourceserial := by decide

lemma compact_sevenDisk (serial : ℕ) (source : Option ℕ) (h : (compact sevenDisk serial 0).any
    fun r => r.toOption.any fun disk' => (journalOpen disk' false).toOption.any
      fun j' => getSourceserial j' = source) :
    ∃ disk' j', compact sevenDisk serial 0 = some (.ok disk') ∧ journalOpen disk' false = .ok j' ∧
      getSourceserial j' = source := by
  obtain ⟨r, hcompact, hr⟩ := (Option.any_eq_true _ _).mp h
  obtain ⟨disk', rfl, hdisk⟩ := exists_of_toOption hr
  obtain ⟨j', hopen', hj'⟩ := exists_of_toOption hdisk
  exact ⟨disk', j', hcompact, hopen', of_decide_eq_true hj'⟩

theorem compact_sourceserial_iff_seven : ∃ j disk', journalOpen sevenDisk false = .ok j ∧
    oversized j.header 0 ∧ compact sevenDisk 1 0 = some (.ok disk') ∧
    ∃ j', journalOpen disk' false = .ok j' ∧ getSourceserial j' = getSourceserial j := by
  obtain ⟨j, hopen, hdisk, hheader, hindex, -⟩ := sevenDisk_stored.onDisk.journalOpen_eq false
  obtain ⟨disk', -, hcompact, -⟩ := compact_sevenDisk 1 (some 7) (by decide +kernel)
  refine ⟨j, disk', hopen, by rw [hheader]; decide, hcompact, ?_⟩
  have hstored : Stored plainDecode sevenDisk.view j.header j.index [oneTx] := by
    rw [hheader, hindex]
    exact sevenDisk_stored
  refine (compact_sourceserial_iff hopen hstored (by rw [hheader, hindex]; exact sevenDisk_indexed)
    (by decide) (by rw [hheader]; rfl) hcompact).mpr fun _ hforgets => ?_
  -- the serial is the one at which the transaction starts
  obtain ⟨us, t, heq, hne, -⟩ := hforgets
  obtain ⟨-, rfl⟩ : us = [] ∧ t = oneTx := by
    cases us <;> simp_all
  exact hne rfl

/-- Nothing of the journal is kept if the serial is the one at its end. -/
theorem compact_forgets : ∃ j disk', journalOpen sevenDisk false = .ok j ∧
    Stored plainDecode sevenDisk.view j.header j.index [oneTx] ∧ getSourceserial j = some 7 ∧
    compact sevenDisk 2 0 = some (.ok disk') ∧
    ¬∃ j', journalOpen disk' false = .ok j' ∧ getSourceserial j' = getSourceserial j := by
  obtain ⟨j, hopen, hdisk, hheader, hindex, -⟩ := sevenDisk_stored.onDisk.journalOpen_eq false
  obtain ⟨disk', j', hcompact, hopen', hnone⟩ :=
    compact_sevenDisk 2 none (by decide +kernel)
  have hseven : getSourceserial j = some 7 := by
    rw [getSourceserial, hheader]
    rfl
  refine ⟨j, disk', hopen, by rw [hheader, hindex]; exact sevenDisk_stored, hseven, hcompact, ?_⟩
  rintro ⟨j'', hopen'', hsame⟩
  rw [hopen'] at hopen''
  cases hopen''
  rw [hnone, hseven] at hsame
  cases hsame

end LbBind.Journal

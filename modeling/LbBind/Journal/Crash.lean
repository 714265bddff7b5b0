import LbBind.Journal.History

/-! Crashes during a commit. A crash leaves the file as it was last synchronised, with any of the
writes since then. The journal that is found afterwards has the transactions from before, or the new
one as well, unless its header was written without the header of the transaction, or it is a new
journal. -/

namespace LbBind.Journal

open Lib Call List Pos Describes File

variable {decode : (rdclass rdtype : ℕ) → (data : List UInt8) → (available : ℕ) →
  Except Result (List UInt8)} {j j₁ j₂ : Handle} {t : Tx} {ts history gone kept : List Tx} {f : File}
  {h : Header} {index : List Pos}

variable (decode) in
def Shows (f : File) (ts : List Tx) : Prop :=
  ∃ j, journalOpen ⟨f, []⟩ false = .ok j ∧ (ts = [] → j.header.empty) ∧
    (ts ≠ [] → ∀ b < 2 ^ 32, ∀ e < 2 ^ 32, Reads decode j ts b e)

/-- The disk during a commit that starts from `j₁` and ends in `j₂`. -/
def crashPoints (j₁ j₂ : Handle) : List Disk :=
  j₂.disk :: j₂.past.take (j₂.past.length - j₁.past.length)

/-- What was written before the transaction is there, and the journal header is not there
without the header of the transaction at `p`. -/
def Survives (before : List Write) (p : ℕ) (d : Disk) (ws : List Write) : Prop :=
  (∀ w ∈ before, w ∈ d.pending → w ∈ ws) ∧
    ((∃ w ∈ ws, w ∉ before ∧ w.offset = 0) → ∃ w ∈ ws, w.offset = p)

lemma Stored.shows (hs : Stored decode f h index ts) : Shows decode f ts := by
  have hdisk : OnDisk (⟨f, []⟩ : Disk).view h index := hs.onDisk
  obtain ⟨j, hopen, hdisk, hheader, hindex, -⟩ := hdisk.journalOpen_eq false
  refine ⟨j, hopen, fun hnil => ?_, fun hne b hb e he => ?_⟩
  · rw [hheader]
    exact hs.empty_iff.mpr hnil
  · refine Stored.reads ?_ hne hb he
    rw [hdisk, hheader, hindex]
    exact hs

variable {index' : List Pos} {p : ℕ} {ws : List Write}

lemma Stored.with_index {g : File} (hs : Stored decode f h index ts)
    (hindex : ∀ e ∈ index', e.valid → Harmless h.start ts e)
    (hold : g.Has h.start.offset (encodes ts)) (hheader : g.Has 0 h.encode)
    (hindexed : g.Has headerSize (index'.flatMap encode)) (hlength : index'.length = h.indexSize)
    (hfits : ∀ e ∈ index', e.Fits) : Stored decode g h index' ts :=
  { hs with
    describes := hs.describes.mono_index hindex
    stores := { hs.stores with has := hold }
    header := hheader
    indexed := hindexed
    length := hlength
    fits := hfits }

lemma Purged.harmless_old (hp : Purged ts t gone kept) (hd : Describes h index ts) {e : Pos}
    (hstart : ts = [] → h.start = .invalid) (he : ∃ us, us <+: ts ∧ e = h.start.past us)
    (hvalid : e.valid) : Harmless (newStart h ts p t gone) (kept ++ [t]) e := by
  obtain ⟨us, hus, rfl⟩ := he
  rw [newStart]
  split_ifs with hnil
  · subst hnil
    rw [prefix_nil.mp hus, past_nil, hstart rfl] at hvalid
    simp [invalid, valid] at hvalid
  · have hgone : gone <+: ts := hp.parts ▸ prefix_append gone kept
    by_cases hle : gone <+: us
    · obtain ⟨us', rfl⟩ := hle
      refine .inl ⟨us', ?_, h.start.past_append⟩
      rw [hp.parts] at hus
      exact ((prefix_append_right_inj _).mp hus).trans (prefix_append kept [t])
    · -- an entry for a transaction that is gone is older than all that stay
      refine .inr fun pre u hpre => ?_
      have hlt : us <+: gone := ( prefix_or_prefix_of_prefix hus hgone).resolve_right hle
      have hpre' : pre <+: kept := by
        have hlen := hpre.length_le
        simp only [length_append, length_singleton] at hlen
        exact prefix_of_prefix_length_le ((prefix_append pre [u]).trans hpre)
          (prefix_append kept [t]) (by omega)
      have hboth : gone ++ pre <+: ts := by
        rw [hp.parts]
        exact (prefix_append_right_inj _).mpr hpre'
      have hshort := hd.short
      have h1 := span_le hus
      have h2 := span_le hboth
      have h3 := span_le hlt
      rw [← past_append, hd.serial_past hus, hd.serial_past hboth,
        serialGT_add (by omega) (by omega), decide_eq_false_iff_not]
      rw [span_append]
      omega

lemma journalFind_stop (hd : Describes j.header j.index ts) :
    (journalFind j.header.stop.serial).run j = some (.ok j.header.stop, j) := by
  have hshort := hd.short
  have hstop := hd.serial_stop
  have h1 : serialGT j.header.start.serial j.header.stop.serial = false := by
    rw [hstop]
    simp only [serialGT, Bool.and_eq_false_iff, decide_eq_false_iff_not]
    omega
  have h2 : serialGT j.header.stop.serial j.header.stop.serial = false := by
    rw [hstop, serialGT_add (by omega) (by omega)]
    simp
  simp [journalFind, h1, h2]

/-- An empty transaction header cannot be read. -/
lemma iterate_of_zeros {b e : ℕ} {bpos epos : Pos}
    (hbegin : (journalFind b).run j = some (.ok bpos, j₁)) (hb : bpos.serial = b)
    (hend : (journalFind e).run j₁ = some (.ok epos, j₂)) (he : epos.serial = e)
    (hlt : bpos.offset < epos.offset)
    (hzeros : j₂.disk.view.Has bpos.offset (replicate xhdrSize 0)) :
    (iterate decode b e).outcome j = some (.error .unexpected) := by
  subst hb he
  have hslice : j₂.disk.view.bytes.slice bpos.offset xhdrSize = replicate xhdrSize 0 := hzeros.1
  have hsize : bpos.offset + xhdrSize ≤ j₂.disk.view.size := hzeros.2
  have hzero : Xhdr.decode (replicate xhdrSize 0) = ⟨0, 0, 0⟩ := by decide
  have hle : bpos.offset ≤ epos.offset := hlt.le
  simp [outcome, iterate, iterInit, hbegin, hend, firstRR, seek, allRRs, attempt, readOneRR, hle,
    hlt.ne, enterTransaction, readXhdr, readBytes, hsize, hslice, hzero]

section
lemma not_shows_of_torn {g : File} (hs : Stored decode g h index ts) (hp : Purged ts t gone kept)
    (ht : t.Valid decode) (hf : ts ≠ [] → t.serial0 = h.stop.serial) {index' : List Pos}
    (hdisk : OnDisk f (newHeader h (newStart h ts (newOffset h) t gone) (newOffset h) t) index')
    (hindex : ∀ e ∈ index', e.valid → Harmless (newStart h ts (newOffset h) t gone) (kept ++ [t]) e)
    (hold : f.Has h.start.offset (encodes ts))
    (hzeros : f.Has (newOffset h) (replicate xhdrSize 0)) :
    ¬Shows decode f ts ∧ ¬Shows decode f (kept ++ [t]) := by
  have hd := hs.describes_new hp ht hf hindex
  have hinc := ht.increasing
  have hpast := newStart_past hp fun hne => hs.past_eq hne (hf hne)
  replace hdisk : OnDisk (⟨f, []⟩ : Disk).view _ index' := hdisk
  obtain ⟨j, hopen, hjdisk, hjheader, hjindex, -⟩ := hdisk.journalOpen_eq false
  have hview : j.disk.view = f := by rw [hjdisk]; rfl
  rw [← hjheader, ← hjindex] at hd
  have hstop : j.header.stop = ⟨t.serial1, newOffset h + t.encode.length⟩ := by rw [hjheader]; rfl
  have hfindStop : (journalFind t.serial1).run j = some (.ok j.header.stop, j) := by
    have := journalFind_stop hd
    rwa [show j.header.stop.serial = t.serial1 by rw [hstop]] at this
  constructor
  · rintro ⟨j', hopen', hempty, hreads⟩
    rw [hopen] at hopen'
    cases hopen'
    by_cases hnil : ts = []
    · -- the new header has an end behind its begin
      have hne := hempty hnil
      rw [Header.empty, decide_eq_true_eq, hd.stop] at hne
      simp [past, Tx.encode, Xhdr.encode, be32] at hne
    · -- the new end is no serial of the old journal
      have hmiss : ∀ pre, ¬Boundary ts pre t.serial1 := by
        intro pre hpre
        obtain ⟨hpre, hserial⟩ := (boundary_iff hs.describes.follows hnil).mp hpre
        have hafter := hs.describes.serial_past hpre
        have hlast := hs.describes.serial1_eq hinc (hf hnil)
        have h1 := span_le hpre
        have h2 := hs.describes.short
        have h3 := hinc.step_pos
        have h4 := hinc.step_lt
        simp only [past] at hafter
        simp only [span_append, span_cons, span_nil] at hlast
        omega
      have hsame : (iterate decode t.serial1 t.serial1).outcome j = some (.ok []) :=
        iterate_of_same hfindStop (by rw [hstop]) hfindStop (by rw [hstop]) rfl
      rcases (hreads hnil _ hinc.serial1 _ hinc.serial1).refused (.inl hmiss) with h | h <;>
        simp [hsame] at h
  · rintro ⟨j', hopen', -, hreads⟩
    rw [hopen] at hopen'
    cases hopen'
    have hne : kept ++ [t] ≠ [] := by simp
    have hstart : j.header.start = newStart h ts (newOffset h) t gone := by rw [hjheader]; rfl
    have hkept : j.header.start.past kept = ⟨t.serial0, newOffset h⟩ := by rw [hstart, hpast]
    have hbegin := journalFind_found hd hne (prefix_append kept [t]) ?_ ?_
    · rw [hkept] at hbegin
      rcases hbegin j rfl with ⟨_, j₁, hrun, rfl, offset, rfl⟩ | ⟨_, _, _, h⟩
      · have hend : (journalFind t.serial1).run { j with offset := offset } =
            some (.ok j.header.stop, { j with offset := offset }) := by
          have := journalFind_stop (j := { j with offset := offset }) hd
          rwa [show ({ j with offset := offset } : Handle).header.stop.serial = t.serial1 by
            simp only [hstop]] at this
        have hlast := (boundary_iff hd.follows hne).mpr ⟨prefix_rfl, rfl⟩
        have hfirst := (boundary_iff hd.follows hne).mpr ⟨prefix_append kept [t], rfl⟩
        have hread := (hreads hne _ hinc.serial0 _ hinc.serial1).records kept [t] ?_ ?_
        · rw [iterate_of_zeros hrun rfl hend (by rw [hstop]) ?_ ?_] at hread
          · cases hread
          · rw [hstop]
            simp [Tx.encode, Xhdr.encode, be32]
          · simp only [hview]
            exact hzeros
        · convert hfirst using 1
          exact (congrArg serial hkept).symm
        · convert hlast using 1
          simp [after]
      · exact h.elim
    · have hle : kept.length ≤ (encodes kept).length := length_le_encodes
      have hoffset := congrArg offset hkept
      have hsize := hzeros.2
      simp only [past] at hoffset
      simp only [length_replicate, xhdrSize] at hsize
      rw [hview, length_append, length_singleton]
      omega
    · intro us u hus
      have hnil : ts ≠ [] := by
        rintro rfl
        obtain ⟨-, rfl⟩ := append_eq_nil_iff.mp hp.parts.symm
        exact absurd (prefix_nil.mp hus) (by simp)
      have hsmall := hs.stores.small
      have hgone : j.header.start = h.start.past gone := by rw [hstart, newStart, if_neg hnil]
      have hstores : Stores decode f j.header kept := by
        rw [hp.parts, encodes_append, has_append] at hold
        rw [hp.parts, encodes_append, length_append] at hsmall
        refine ⟨fun v hv => hs.stores.valid v ?_, by rw [hgone]; exact hold.2, ?_⟩
        · rw [hp.parts]
          exact mem_append_right _ hv
        · rw [hgone]
          simp only [past]
          omega
      rw [hview]
      exact hstores.readable hus

lemma shows_iff_after {ws : List Write} {j0 : Handle}
    (hs : Stored decode j₁.disk.view j₁.header j₁.index ts) (hi : Indexed j₁.header.start j₁.index ts)
    (hlen : 2 ≤ j₁.index.length) (ht : t.Valid decode)
    (hf : ts ≠ [] → t.serial0 = j₁.header.stop.serial)
    (hfill : Filling j0 (newOffset j₁.header) t.rrs j₁)
    (hc : Commits j₁ ts (newOffset j₁.header) t gone kept j₂)
    (hsmall : newOffset j₁.header + t.encode.length < 2 ^ 32)
    (hws : ws.Sublist (commitWrites j₂.header j₂.index (newOffset j₁.header) t)) :
    Shows decode (j₁.disk.view.writes ws) ts ∨ Shows decode (j₁.disk.view.writes ws) (kept ++ [t]) ↔
      (headerWrite j₂.header ∈ ws → xhdrWrite (newOffset j₁.header) t ∈ ws) := by
  have hr : Regions j₂.header j₂.index (newOffset j₁.header) j₁.header.indexSize ws t :=
    ⟨hws, length_headerEncode (by rw [hc.header]; exact hs.format),
      by rw [length_flatMap_encode, hc.length, hs.length], hs.base_le_newOffset⟩
  have hold := hs.has_encodes rfl hr
  have hfits := hc.fits hs ht (by omega)
  -- the index is the old one or the new one, and neither does any harm
  obtain ⟨index', hindexed, hlength, hfits', hentries⟩ : ∃ index' : List Pos,
      (j₁.disk.view.writes ws).Has headerSize (index'.flatMap encode) ∧
      index'.length = j₁.header.indexSize ∧ (∀ e ∈ index', e.Fits) ∧
      (index' = j₁.index ∨ index' = j₂.index) := by
    by_cases hmem : indexWrite j₂.index ∈ ws
    · refine ⟨j₂.index, hr.has_of_mem (w := indexWrite j₂.index) hmem ?_, hc.length.trans hs.length,
        hfits, .inr rfl⟩
      refine ne_nil_of_length_pos ?_
      simp only [indexWrite, length_flatMap_encode, hc.length, posSize]
      omega
    · exact ⟨j₁.index, hr.has_index hs.indexed (by rw [length_flatMap_encode, hs.length]) hmem,
        hs.length, hs.fits, .inl rfl⟩
  have hnewIndex : ∀ e ∈ index', e.valid →
      Harmless (newStart j₁.header ts (newOffset j₁.header) t gone) (kept ++ [t]) e := by
    rcases hentries with rfl | rfl
    · exact fun e he hv => hc.purged.harmless_old hs.describes hs.empty (hi e he hv) hv
    · intro e he hv
      obtain ⟨us, hus, heq⟩ := hc.indexed e he hv
      exact .inl ⟨us, hus.trans (prefix_append kept [t]), heq⟩
  by_cases hheader : headerWrite j₂.header ∈ ws
  · have hhas : (j₁.disk.view.writes ws).Has 0 j₂.header.encode := by
      refine hr.has_of_mem (w := headerWrite j₂.header) hheader ?_
      exact ne_nil_of_length_pos (by have := hr.header; simp [headerWrite, this, headerSize])
    have hbody := hfill.has
    rw [has_append] at hbody
    rw [hc.header] at hhas
    simp only [hheader, true_implies]
    by_cases hxhdr : xhdrWrite (newOffset j₁.header) t ∈ ws
    · simp only [hxhdr, iff_true]
      refine .inr (Stored.shows (hs.stored_new hc.purged ht hf hnewIndex hold ?_ hhas hindexed hsmall
        hlength hfits'))
      rw [Tx.encode, has_append]
      exact ⟨hr.has_of_mem (w := xhdrWrite (newOffset j₁.header) t) hxhdr
        (by simp [xhdrWrite, Xhdr.encode, be32]), hr.has_behind hbody.2 (by simp)⟩
    · simp only [hxhdr, iff_false, not_or]
      have hd := hs.describes_new hc.purged ht hf hnewIndex
      have hpast := newStart_past hc.purged fun hne => hs.past_eq hne (hf hne)
      refine not_shows_of_torn hs hc.purged ht hf ⟨hhas, hindexed, hs.format, hlength, hfits', ?_, ?_,
        hs.indexSize, hs.sourceserial⟩ hnewIndex hold (hr.has_xhdr hbody.1 hxhdr)
      · refine ⟨hd.start, ?_⟩
        have hoffset := congrArg offset hpast
        simp only [past] at hoffset
        simp only [newHeader]
        omega
      · exact ⟨ht.increasing.serial1, hsmall⟩
  · simp only [hheader, false_implies, iff_true]
    refine .inl (Stored.shows (hs.with_index ?_ hold (hr.has_header hs.header
      (length_headerEncode hs.format) hheader) hindexed hlength hfits'))
    rcases hentries with rfl | rfl
    · exact hs.describes.index
    · intro e he hv
      rcases hc.entries e he with h | rfl | rfl
      · exact hs.describes.index e h hv
      · simp [invalid, valid] at hv
      · by_cases hnil : ts = []
        · subst hnil
          exact .inr fun pre u hpre => absurd (prefix_nil.mp hpre) (by simp)
        · exact .inl ⟨ts, prefix_rfl, (hs.past_eq hnil (hf hnil)).symm⟩

end

lemma not_shows_of_lost (hws : ∀ w ∈ ws, 16 ≤ w.offset) (ts : List Tx) :
    ¬Shows decode (created.synced.writes ws) ts := by
  rintro ⟨j, hopen, -⟩
  have hformat : (Header.decode (created.synced.writes ws).bytes).format = replicate 16 0 := by
    have hslice : (created.synced.writes ws).bytes.slice 0 16 = created.synced.bytes.slice 0 16 :=
      slice_writes fun w hw => .inl (hws w hw)
    exact hslice.trans (by decide)
  have hne : (Header.decode (created.synced.writes ws).bytes).format ≠ journalFormat := by
    rw [hformat]
    decide
  have hview : (⟨created.synced.writes ws, []⟩ : Disk).view = created.synced.writes ws := rfl
  simp only [journalOpen, hview] at hopen
  rw [if_pos hne] at hopen
  split_ifs at hopen

lemma length_newJournal : newJournal.length = 512 := by
  rw [newJournal, length_append, length_replicate, length_headerEncode rfl]
  rfl

lemma survives_iff {before : List Write} {n : ℕ} {d : Disk} (hr : Regions h index' p n ws t)
    (hn : 2 ≤ n) (hpending : d.pending.Sublist (commitWrites h index' p t))
    (hbefore : before = [] ∨ before = created.pending) :
    Survives before p d ws ↔ (headerWrite h ∈ ws → xhdrWrite p t ∈ ws) := by
  have hbase := hr.base
  have hheaderSize : headerSize = 64 := rfl
  rw [show posSize = 8 from rfl] at hbase
  have hp : 0 < p := by omega
  -- the first write of the journal is not one of the commit
  have hnew : ∀ w ∈ commitWrites h index' p t, w ∉ before := by
    intro w hw hmem
    rcases hbefore with rfl | rfl
    · simp at hmem
    · obtain rfl : w = ⟨0, newJournal⟩ := by simpa [created] using hmem
      simp only [commitWrites, mem_cons, not_mem_nil, or_false] at hw
      rcases hw with h | h | h
      · exact absurd (congrArg Write.offset h) hp.ne
      · have hlen : newJournal.length = headerSize :=
          (congrArg (fun w => w.bytes.length) h).trans hr.header
        rw [length_newJournal] at hlen
        omega
      · have hoffset : 0 = headerSize := congrArg Write.offset h
        omega
  have hhead : (∃ w ∈ ws, w ∉ before ∧ w.offset = 0) ↔ headerWrite h ∈ ws := by
    constructor
    · rintro ⟨w, hw, -, hoffset⟩
      rcases hr.mem hw with rfl | rfl | rfl
      · exact absurd hoffset hp.ne'
      · exact hw
      · have hoffset : headerSize = 0 := hoffset
        omega
    · exact fun hw => ⟨_, hw, hnew _ (hr.sub.subset hw), rfl⟩
  have hxhdr : (∃ w ∈ ws, w.offset = p) ↔ xhdrWrite p t ∈ ws := by
    constructor
    · rintro ⟨w, hw, hoffset⟩
      rcases hr.mem hw with rfl | rfl | rfl
      · exact hw
      · exact absurd hoffset hp.ne
      · have hoffset : headerSize = p := hoffset
        omega
    · exact fun hw => ⟨_, hw, rfl⟩
  rw [Survives, hhead, hxhdr, and_iff_right]
  exact fun w hw hmem => absurd hw (hnew w (hpending.subset hmem))

lemma shows_iff_before (hr : Rest decode j ts)
    (hfill : Filling j p t.rrs j₁) (hp : p = newOffset j.header) (hcrash : j₁.disk.Crash ws f)
    (us : List Tx) : Shows decode f ts ∨ Shows decode f us ↔ Survives j.disk.pending p j₁.disk ws := by
  obtain ⟨hsub, rfl⟩ := hcrash
  obtain ⟨new, hpending, hnew⟩ := hfill.pending
  rw [hpending, sublist_append_iff] at hsub
  obtain ⟨ws0, ws1, rfl, hsub0, hsub1⟩ := hsub
  have hws1 : ∀ w ∈ ws1, p ≤ w.offset := fun w hw => hnew w (hsub1.subset hw)
  have hbase := hr.stored.base_le_newOffset
  have hpos : 16 ≤ p := by
    simp only [headerSize] at hbase
    omega
  -- if all earlier writes survive the old journal is there
  have hkept : ws0 = j.disk.pending → (Shows decode (j₁.disk.synced.writes (ws0 ++ ws1)) ts ∨
      Shows decode (j₁.disk.synced.writes (ws0 ++ ws1)) us ↔
        Survives j.disk.pending p j₁.disk (ws0 ++ ws1)) := by
    rintro rfl
    have hstored := hr.stored.writes fun w (hw : w ∈ ws1) => hp ▸ hws1 w hw
    rw [writes_append, hfill.synced]
    refine iff_of_true (.inl hstored.shows) ⟨fun w hw _ => mem_append_left _ hw, ?_⟩
    rintro ⟨w, hw, hold, hoffset⟩
    have := hws1 w ((mem_append.mp hw).resolve_left hold)
    omega
  rcases hr.durable with hnil | ⟨rfl, hcreated⟩
  · rw [hnil] at hsub0
    exact hkept (by rw [hnil, sublist_nil.mp hsub0])
  · have hone : j.disk.pending = [⟨0, newJournal⟩] := by rw [hcreated]; rfl
    rw [hone, sublist_singleton] at hsub0
    rcases hsub0 with rfl | rfl
    · -- the journal is lost with its first write
      rw [hfill.synced, hcreated]
      have hlost : ∀ us : List Tx, ¬Shows decode (created.synced.writes ws1) us :=
        not_shows_of_lost fun w hw => hpos.trans (hws1 w hw)
      refine iff_of_false (not_or.mpr ⟨hlost _, hlost _⟩) fun hsurvives => ?_
      have hmem := hsurvives.1 ⟨0, newJournal⟩ (by simp [created])
        (by rw [hpending, hone]; simp)
      have := hws1 _ hmem
      simp only at this
      omega
    · exact hkept hone.symm

/-- After a crash in a commit the journal is as it was before or after it, if and only if the
writes of the commit that reached the disk were not the journal header without the header of the
transaction, and a new journal had reached the disk. -/
theorem commit_crash_iff {diffs : List (List RR)} {serial0 serial1 : ℕ} {r : Except Result Unit}
    {d : Disk} {ws : List Write} (h : Committed decode history j)
    (ht : Tx.Valid decode ⟨diffs.flatten, serial0, serial1⟩)
    (hlast : ∀ u ∈ history.getLast?, serial0 = u.serial1)
    (hprepare : (prepare diffs).run j = some (.ok (), j₁)) (hcommit : commit.run j₁ = some (r, j₂))
    (hsize : j₂.disk.view.size < 2 ^ 32) (hd : d ∈ crashPoints j₁ j₂) (hcrash : d.Crash ws f) :
    Shows decode f (addressable history) ∨
        Shows decode f (addressable (history ++ [⟨diffs.flatten, serial0, serial1⟩])) ↔
      Survives j.disk.pending j₁.pos0.offset d ws := by
  obtain ⟨hr, hvalid⟩ := h.rest
  generalize htx : (⟨diffs.flatten, serial0, serial1⟩ : Tx) = t at ht ⊢
  have hrrs : t.rrs = diffs.flatten := by rw [← htx]
  have hinc := fun t h => (hvalid t h).increasing
  obtain ⟨hfill, hstored, hindexed⟩ :=
    (prepare_meets hr (hr.writing hprepare) ht hrrs).of_run hprepare
  have hlen : 2 ≤ j₁.index.length := by rw [hfill.index]; exact hr.length
  have hf : addressable history ≠ [] → t.serial0 = j₁.header.stop.serial := by
    intro hne
    rw [← getLast_addressable hinc] at hlast
    rw [hfill.header, ← htx]
    exact hr.stored.serial0_eq hne hlast
  -- the commit succeeds
  rcases commit_meets hstored hindexed hlen ht hf hfill j₁ rfl with
    ⟨_, j', hrun, gone, kept, hc⟩ | ⟨_, _, _, hfalse⟩
  swap
  · exact hfalse.elim
  rw [hcommit] at hrun
  cases hrun
  rw [← addressable_concat, hc.purged.addressable_eq, hfill.pos0]
  have hregions : ∀ ws' : List Write,
      ws'.Sublist (commitWrites j₂.header j₂.index (newOffset j₁.header) t) →
      Regions j₂.header j₂.index (newOffset j₁.header) j₁.header.indexSize ws' t := fun ws' hws' =>
    ⟨hws', length_headerEncode (by rw [hc.header]; exact hstored.format),
      by rw [length_flatMap_encode, hc.length, hstored.length], hstored.base_le_newOffset⟩
  have hnew := (hc.stored hstored hlen ht hf hfill hsize).1
  have hsmall : newOffset j₁.header + t.encode.length < 2 ^ 32 := by
    have := hnew.stopFits.2
    rw [hc.header] at this
    exact this
  have hbefore : j.disk.pending = [] ∨ j.disk.pending = created.pending :=
    hr.durable.imp id fun h => by rw [h.2]
  -- a crash between the two synchronisations
  have hbetween : d.synced = j₁.disk.view →
      d.pending.Sublist (commitWrites j₂.header j₂.index (newOffset j₁.header) t) →
      (Shows decode f (addressable history) ∨ Shows decode f (kept ++ [t]) ↔
        Survives j.disk.pending (newOffset j₁.header) d ws) := by
    intro hsynced hpending
    have hws := hcrash.sub.trans hpending
    rw [hcrash.file, hsynced, shows_iff_after hstored hindexed hlen ht hf hfill hc hsmall hws]
    exact (survives_iff (hregions ws hws) (by rw [← hstored.length]; exact hlen) hpending
      hbefore).symm
  have hpast : j₂.past.length - j₁.past.length = 5 := by
    rw [hc.past, length_append, Nat.add_sub_cancel]
    rfl
  rw [crashPoints, hpast, hc.past] at hd
  simp only [cons_append, nil_append, take_succ_cons, take_zero, mem_cons, not_mem_nil,
    or_false] at hd
  rcases hd with rfl | rfl | rfl | rfl | rfl | rfl
  · obtain ⟨hsub, rfl⟩ := hcrash
    rw [hc.disk] at hsub
    obtain rfl := sublist_nil.mp hsub
    have hview : j₂.disk.synced = j₂.disk.view := by rw [hc.disk]; rfl
    rw [writes_nil, hview, hc.disk]
    rw [hc.disk] at hnew
    exact iff_of_true (.inr hnew.shows) ⟨by simp [Disk.sync], by simp⟩
  · exact hbetween rfl (.refl _)
  · exact hbetween rfl (by simp [Disk.write, Disk.sync, commitWrites])
  · exact hbetween rfl (by simp [Disk.write, Disk.sync, commitWrites])
  · exact hbetween rfl (by simp [Disk.sync])
  · exact shows_iff_before hr hfill (by rw [hfill.header]) hcrash _

structure FirstCommit (j j₁ j₂ : Handle) (d : Disk) (x hd ix : Write) : Prop where
  committed : Committed plainDecode [] j
  prepare : (prepare [[rootSoa 1, rootSoa 2]]).run j = some (.ok (), j₁)
  commit : commit.run j₁ = some (.ok (), j₂)
  size : j₂.disk.view.size < 2 ^ 32
  point : d ∈ crashPoints j₁ j₂
  pending : d.pending = [x, hd, ix]

/-- The new journal header alone is on the disk, and the journal is then neither empty nor
readable. -/
def torn (d : Disk) (hd : Write) : Bool := match journalOpen ⟨d.synced.writes [hd], []⟩ false with
  | .ok j => !j.header.empty && (iterate plainDecode 1 2).outcome j = some (.error .unexpected)
  | .error _ => false

/-- The first crash point of the commit has three writes pending, of which the header tears. -/
def tears (j₁ j₂ : Handle) : Bool :=
  match j₂.past.take (j₂.past.length - j₁.past.length) with
  | d :: _ =>
    match d.pending with
    | [_, hd, _] => decide (j₂.disk.view.size < 2 ^ 32) && torn d hd
    | _ => false
  | _ => false

lemma firstCommit : ∃ j j₁ j₂ d x hd ix, FirstCommit j j₁ j₂ d x hd ix ∧ torn d hd = true := by
  have hruns := exists_of_toOption (e := journalOpen created true)
    (q := fun j => ((prepare [[rootSoa 1, rootSoa 2]]).run j).any fun r => r.1.isOk &&
      (run LbBind.Journal.commit r.2).any fun p => p.1.isOk && tears r.2 p.2)
    (by decide +kernel)
  obtain ⟨j, hopen, hj⟩ := hruns
  obtain ⟨j₁, hprepare, hj1⟩ := exists_of_any (s := j) (q := fun j₁ =>
    (run LbBind.Journal.commit j₁).any fun p => p.1.isOk && tears j₁ p.2) hj
  obtain ⟨j₂, hcommit, hrun⟩ := exists_of_any (q := tears j₁) hj1
  unfold tears at hrun
  split at hrun
  case h_2 => cases hrun
  case h_1 d ds hpast =>
  split at hrun
  case h_2 => cases hrun
  case h_1 x hd ix hpending =>
  obtain ⟨hsize, htorn⟩ := Bool.and_eq_true_iff.mp hrun
  refine ⟨j, j₁, j₂, d, x, hd, ix, ⟨.create hopen, hprepare, hcommit, of_decide_eq_true hsize, ?_,
    hpending⟩, htorn⟩
  rw [crashPoints, hpast]
  simp

theorem commit_crash_iff_first : ∃ j j₁ j₂ d x hd ix, FirstCommit j j₁ j₂ d x hd ix ∧
    (Shows plainDecode (d.synced.writes [x, hd, ix]) (addressable []) ∨
        Shows plainDecode (d.synced.writes [x, hd, ix]) (addressable ([] ++ [oneTx])) ↔
      Survives j.disk.pending j₁.pos0.offset d [x, hd, ix]) := by
  obtain ⟨j, j₁, j₂, d, x, hd, ix, h, -⟩ := firstCommit
  exact ⟨j, j₁, j₂, d, x, hd, ix, h, commit_crash_iff h.committed oneTx_valid (by simp) h.prepare
    h.commit h.size h.point ⟨by rw [h.pending], rfl⟩⟩

/-- The journal header can reach the disk without the header of the transaction. -/
theorem commit_crash_torn : ∃ j j₁ j₂ d x hd ix, FirstCommit j j₁ j₂ d x hd ix ∧
    d.Crash [hd] (d.synced.writes [hd]) ∧ ¬Shows plainDecode (d.synced.writes [hd]) [] ∧
    ¬Shows plainDecode (d.synced.writes [hd]) [oneTx] := by
  obtain ⟨j, j₁, j₂, d, x, hd, ix, h, htorn⟩ := firstCommit
  refine ⟨j, j₁, j₂, d, x, hd, ix, h, ⟨by simp [h.pending], rfl⟩, ?_, ?_⟩
  · rintro ⟨j', hopen, hempty, -⟩
    simp only [torn, hopen, hempty rfl] at htorn
    cases htorn
  · rintro ⟨j', hopen, -, hreads⟩
    have hread := (hreads (by simp) 1 (by omega) 2 (by omega)).records [] [oneTx]
      ⟨ nil_prefix, .inr ⟨oneTx, prefix_rfl, rfl⟩⟩
      ⟨prefix_rfl, .inl ⟨oneTx, rfl, rfl⟩⟩
    simp only [torn, hopen, hread] at htorn
    simp at htorn

end LbBind.Journal

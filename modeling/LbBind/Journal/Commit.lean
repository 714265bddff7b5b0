import LbBind.Journal.Iterate

/-! Writing a transaction. The records go behind the last transaction, with an empty header in front
of them; the commit gives up the transactions that would no longer be addressable, and then writes
the transaction header, the journal header and the index. -/

namespace LbBind.Journal

open Lib Call List Pos File Nat Mem

variable {decode : (rdclass rdtype : ℕ) → (data : List UInt8) → (available : ℕ) →
  Except Result (List UInt8)} {j : Handle} {t : Tx} {ts : List Tx}

def Pos.Fits (p : Pos) : Prop := p.serial < 2 ^ 32 ∧ p.offset < 2 ^ 32

structure OnDisk (f : File) (h : Header) (index : List Pos) : Prop where
  header : f.Has 0 h.encode
  indexed : f.Has headerSize (index.flatMap encode)
  format : h.format = journalFormat
  length : index.length = h.indexSize
  fits : ∀ e ∈ index, e.Fits
  start : h.start.Fits
  stop : h.stop.Fits
  indexSize : h.indexSize < 2 ^ 32
  sourceserial : h.sourceserial < 2 ^ 32

variable (decode) in
structure Stored (f : File) (h : Header) (index : List Pos) (ts : List Tx) : Prop where
  describes : Describes h index ts
  stores : Stores decode f h ts
  empty : ts = [] → h.start = .invalid
  base : ts ≠ [] → headerSize + h.indexSize * posSize ≤ h.start.offset
  header : f.Has 0 h.encode
  indexed : f.Has headerSize (index.flatMap encode)
  format : h.format = journalFormat
  length : index.length = h.indexSize
  fits : ∀ e ∈ index, e.Fits
  indexSize : h.indexSize < 2 ^ 32
  sourceserial : h.sourceserial < 2 ^ 32

@[simp] lemma length_posEncode (p : Pos) : p.encode.length = posSize := rfl

lemma length_flatMap_encode (index : List Pos) :
    (index.flatMap encode).length = index.length * posSize := by
  simp [length_flatMap]

variable {p : ℕ}

lemma Pos.decode_of_has {f : File} {pos : Pos} (h : f.Has p pos.encode) (hf : pos.Fits) :
    Pos.decode f.bytes p = pos := by
  rw [encode, has_append] at h
  cases pos
  simp only [Pos.decode, mk.injEq]
  exact ⟨rd32_of_slice _ h.1.1 hf.1, rd32_of_slice _ h.2.1 hf.2⟩

/-- The fields of a header of the usual format are read back. -/
lemma decode_fields {f : File} {h : Header} (hbytes : f.Has 0 h.encode)
    (hformat : h.format = journalFormat) (hindexSize : h.indexSize < 2 ^ 32)
    (hsourceserial : h.sourceserial < 2 ^ 32) :
    (Header.decode f.bytes).format = h.format ∧ (Header.decode f.bytes).indexSize = h.indexSize ∧
      (Header.decode f.bytes).sourceserial = h.sourceserial ∧
      (Header.decode f.bytes).serialset = h.serialset := by
  have hlen : h.format.length = 16 := by
    rw [hformat]
    rfl
  simp only [Header.encode, has_append, length_append, hlen, length_posEncode,
    length_be32] at hbytes
  obtain ⟨⟨⟨⟨⟨hform, -⟩, -⟩, hsize⟩, hsource⟩, hflag⟩ := hbytes
  have hset : f.bytes 40 = if h.serialset then 1 else 0 := by
    have := congrArg (·[0]?) hflag.1
    simpa [slice_succ, posSize] using this
  refine ⟨by simpa only [hlen, Header.decode] using hform.1, rd32_of_slice _ hsize.1 hindexSize,
    rd32_of_slice _ hsource.1 hsourceserial, ?_⟩
  simp only [Header.decode]
  rw [hset]
  split <;> simp_all

namespace OnDisk

variable {f : File} {h : Header} {index : List Pos}

lemma decode_header (hs : OnDisk f h index) : Header.decode f.bytes = h := by
  have hbytes := hs.header
  simp only [Header.encode, has_append, length_append, length_posEncode, hs.format] at hbytes
  obtain ⟨⟨⟨⟨⟨-, hstart⟩, hstop⟩, -⟩, -⟩, -⟩ := hbytes
  have h1 : (Header.decode f.bytes).start = h.start := decode_of_has hstart hs.start
  have h2 : (Header.decode f.bytes).stop = h.stop := decode_of_has hstop hs.stop
  obtain ⟨h3, h4, h5, h6⟩ := decode_fields hs.header hs.format hs.indexSize hs.sourceserial
  generalize Header.decode f.bytes = d at *
  cases d
  cases h
  simp_all

lemma decode_index (hs : OnDisk f h index) :
    (range h.indexSize).map (fun i => Pos.decode f.bytes (headerSize + i * posSize)) = index := by
  rw [← hs.length]
  have hfits := hs.fits
  have hbytes := hs.indexed
  clear hs
  -- entry by entry, the rest of the index is one entry further on
  suffices ∀ p, f.Has p (index.flatMap encode) →
      (range index.length).map (fun i => Pos.decode f.bytes (p + i * posSize)) = index from
    this _ hbytes
  clear hbytes
  induction index with
  | nil => exact fun _ _ => rfl
  | cons e index ih =>
    intro p hbytes
    rw [flatMap_cons, has_append, length_posEncode] at hbytes
    rw [length_cons, range_succ_eq_map, map_cons, map_map]
    congr 1
    · rw [zero_mul, add_zero]
      exact decode_of_has hbytes.1 (hfits e mem_cons_self)
    · refine (map_congr_left fun i _ => ?_).trans
        (ih (fun e he => hfits e (.tail _ he)) _ hbytes.2)
      simp only [Function.comp, succ_eq_add_one]
      congr 1
      ring

lemma journalOpen_eq {disk : Disk} (hs : OnDisk disk.view h index) (write : Bool) :
    ∃ j, journalOpen disk write = .ok j ∧ j.disk = disk ∧ j.header = h ∧ j.index = index ∧
      j.state = (if write then .writing else .reading) := by
  have hsize := hs.indexed.2
  rw [length_flatMap_encode, hs.length] at hsize
  simp only [journalOpen, hs.decode_header, hs.format, hs.decode_index]
  rw [if_neg (by omega), if_neg (by simp), if_neg (by omega)]
  exact ⟨_, rfl, rfl, rfl, rfl, rfl⟩

end OnDisk

namespace Stored

variable {f : File} {h : Header} {index : List Pos}

variable (hs : Stored decode f h index ts)
include hs

lemma startFits : h.start.Fits := by
  have := hs.stores.small
  exact ⟨hs.describes.start, by omega⟩

lemma stop_serial_lt : h.stop.serial < 2 ^ 32 := by
  rw [hs.describes.stop, hs.describes.serial_past prefix_rfl]
  omega

lemma stopFits : h.stop.Fits := by
  refine ⟨hs.stop_serial_lt, ?_⟩
  rw [hs.describes.stop]
  exact hs.stores.small

lemma onDisk : OnDisk f h index :=
  ⟨hs.header, hs.indexed, hs.format, hs.length, hs.fits, hs.startFits, hs.stopFits, hs.indexSize,
    hs.sourceserial⟩

lemma empty_iff : h.empty ↔ ts = [] := by
  rw [Header.empty, decide_eq_true_eq, hs.describes.stop]
  constructor
  · intro heq
    have hle : ts.length ≤ (encodes ts).length := length_le_encodes
    simp only [past] at heq
    exact eq_nil_of_length_eq_zero (by omega)
  · rintro rfl
    rfl

end Stored

def newOffset (h : Header) : ℕ :=
  if h.empty then headerSize + h.indexSize * posSize else h.stop.offset

namespace Stored

variable {f : File} {h : Header} {index : List Pos}

variable (hs : Stored decode f h index ts)
include hs

lemma base_le_newOffset :
    headerSize + h.indexSize * posSize ≤ newOffset h := by
  rw [newOffset]
  split_ifs with hempty
  · exact le_rfl
  · have := hs.base fun hnil => hempty (hs.empty_iff.mpr hnil)
    rw [hs.describes.stop]
    simp only [past]
    omega

lemma past_eq (hne : ts ≠ [])
    (hf : t.serial0 = h.stop.serial) : h.start.past ts = ⟨t.serial0, newOffset h⟩ := by
  rw [← hs.describes.stop, hf, newOffset, if_neg (by rw [hs.empty_iff]; exact hne)]

lemma writes {ws : List Write}
    (hws : ∀ w ∈ ws, newOffset h ≤ w.offset) : Stored decode (f.writes ws) h index ts := by
  have hbase := hs.base_le_newOffset
  have hlen : h.encode.length ≤ headerSize := by
    simp [Header.encode, hs.format, journalFormat, headerSize, posSize]
  refine { hs with
    stores := { hs.stores with has := ?_ }
    header := hs.header.writes fun w hw => .inl ?_
    indexed := hs.indexed.writes fun w hw => .inl ?_ }
  · refine hs.stores.has.writes fun w hw => .inl ?_
    have := hws w hw
    by_cases hts : ts = []
    · rw [hs.empty hts, hts]
      exact zero_le _
    · rw [newOffset, if_neg (by rw [hs.empty_iff]; exact hts), hs.describes.stop] at this
      exact this
  · have := hws w hw
    omega
  · have := hws w hw
    rw [length_flatMap_encode, hs.length]
    omega

end Stored

def soaSerials (rrs : List RR) : List ℕ := (rrs.filter RR.isSoa).map RR.serial

structure Noted (serials : List ℕ) (j : Handle) : Prop where
  count : j.nSoa = serials.length
  first : ∀ s ∈ serials[0]?, j.pos0.serial = s
  second : ∀ s ∈ serials[1]?, j.pos1.serial = s

lemma Noted.noteSoa {rs : List RR} (h : Noted (soaSerials rs) j) (r : RR) :
    Noted (soaSerials (rs ++ [r])) (noteSoa j r) := by
  have hcount := h.count
  by_cases hsoa : r.isSoa
  · simp only [LbBind.Journal.noteSoa, if_pos hsoa]
    have hs : soaSerials (rs ++ [r]) = soaSerials rs ++ [r.serial] := by simp [soaSerials, hsoa]
    rw [hs]
    refine ⟨by simp [hcount], ?_, ?_⟩
    · intro s hs
      rcases hnil : soaSerials rs with _ | ⟨a, l⟩
      · simp_all
      · have := h.first a (by simp [hnil])
        simp_all
    · intro s hs
      rcases hnil : soaSerials rs with _ | ⟨a, _ | ⟨b, l⟩⟩
      · simp_all
      · simp_all
      · have := h.second b (by simp [hnil])
        simp_all
  · simp only [LbBind.Journal.noteSoa, if_neg hsoa]
    have hs : soaSerials (rs ++ [r]) = soaSerials rs := by simp [soaSerials, hsoa]
    rw [hs]
    exact h

lemma foldl_noteSoa (diff : List RR) {rs : List RR} (j : Handle) (h : Noted (soaSerials rs) j) :
    ∃ s0 s1 n, diff.foldl noteSoa j = { j with
      pos0 := ⟨s0, j.pos0.offset⟩, pos1 := ⟨s1, j.pos1.offset⟩, nSoa := n } ∧
      Noted (soaSerials (rs ++ diff)) (diff.foldl noteSoa j) := by
  induction diff generalizing rs j with
  | nil => exact ⟨_, _, _, rfl, by simpa using h⟩
  | cons r diff ih =>
    obtain ⟨s0, s1, n, heq, hnoted⟩ := ih (noteSoa j r) (h.noteSoa r)
    rw [append_assoc] at hnoted
    refine ⟨s0, s1, n, ?_, hnoted⟩
    rw [foldl_cons, heq, noteSoa]
    split_ifs <;> rfl

structure Filling (j₀ : Handle) (p : ℕ) (rrs : List RR) (j : Handle) : Prop where
  header : j.header = j₀.header
  index : j.index = j₀.index
  state : j.state = .transaction
  offset : j.offset = p + xhdrSize + (body rrs).length
  pos0 : j.pos0.offset = p
  pos1 : j.pos1.offset = p + xhdrSize + (body rrs).length
  noted : Noted (soaSerials rrs) j
  synced : j.disk.synced = j₀.disk.synced
  pending : ∃ ws, j.disk.pending = j₀.disk.pending ++ ws ∧ ∀ w ∈ ws, p ≤ w.offset
  has : j.disk.view.Has p (List.replicate xhdrSize 0 ++ body rrs)

lemma beginTransaction_meets (hstate : j.state = .writing) :
    Succeeds beginTransaction j fun _ j' => Filling j (newOffset j.header) [] j' := by
  refine .read (.check (.inl hstate) (.change (.change (.change (.modify ?_)))))
  rintro _ rfl
  refine ⟨rfl, rfl, rfl, rfl, rfl, rfl, ⟨rfl, by simp [soaSerials], by simp [soaSerials]⟩, rfl,
    ⟨[⟨newOffset j.header, replicate xhdrSize 0⟩], rfl, ?_⟩, ?_⟩
  · simp
  · have : (j.disk.view.write ⟨newOffset j.header, replicate xhdrSize 0⟩).Has
        (newOffset j.header) (replicate xhdrSize 0) := has_write_self (by simp [xhdrSize])
    rw [body_nil, append_nil]
    exact (j.disk.view_write _).symm ▸ this

lemma writediff_meets {j0 : Handle} {rrs diff : List RR} (h : Filling j0 p rrs j)
    (hvalid : ∀ r ∈ diff, r.Valid decode) :
    Succeeds (writediff diff) j fun _ j' => Filling j0 p (rrs ++ diff) j' := by
  obtain ⟨s0, s1, n, heq, hnoted⟩ := foldl_noteSoa diff j h.noted
  refine .read (.check h.state (.check (fun r hr => ⟨(hvalid r hr).length, (hvalid r hr).soa⟩)
    (.change ?_)))
  rw [heq] at hnoted ⊢
  refine .change (.modify ?_)
  rintro _ rfl
  have hbody : body (rrs ++ diff) = body rrs ++ body diff := by simp [body]
  have hlen : (diff.flatMap RR.encode).length = (body diff).length := rfl
  obtain ⟨ws, hpending, hws⟩ := h.pending
  have hoffset := h.offset
  refine ⟨h.header, h.index, h.state, ?_, h.pos0, ?_, ⟨hnoted.count, hnoted.first, hnoted.second⟩,
    h.synced, ⟨ws ++ [⟨j.offset, body diff⟩], ?_, ?_⟩, ?_⟩
  · simp only [hoffset, hbody, length_append, hlen]
    omega
  · have := h.pos1
    simp only [this, hbody, length_append, hlen]
    omega
  · simp only [Disk.write, hpending, append_assoc]
    rfl
  · simp only [mem_append, mem_singleton]
    rintro w (hw | rfl)
    · exact hws w hw
    · simp only [hoffset]
      omega
  · have hext := h.has.extend (body diff)
    rw [length_append, length_replicate, ← add_assoc, ← hoffset] at hext
    rw [hbody, ← append_assoc]
    exact (j.disk.view_write _).symm ▸ hext

lemma writediffs_meets {j0 : Handle} {rrs : List RR} {diffs : List (List RR)}
    (h : Filling j0 p rrs j) (hvalid : ∀ r ∈ diffs.flatten, r.Valid decode) :
    Succeeds (writediffs diffs) j fun _ j' => Filling j0 p (rrs ++ diffs.flatten) j' := by
  induction diffs generalizing rrs j with
  | nil =>
    refine .pure ?_
    rintro _ rfl
    simpa using h
  | cons diff diffs ih =>
    rw [flatten_cons] at hvalid ⊢
    refine (writediff_meets h fun r hr => hvalid r (mem_append_left _ hr)).next
      fun _ j' hj' => ?_
    rw [← append_assoc]
    exact ih hj' fun r hr => hvalid r (mem_append_right _ hr)

variable {gone kept : List Tx} {index : List Pos} {h : Header} {index' : List Pos}

lemma Describes.tail {u : Tx} (hd : Describes h index (u :: ts)) :
    Describes { h with start := h.start.past [u] } [] ts where
  increasing v hv := hd.increasing v (.tail _ hv)
  follows := hd.follows.2
  start := (hd.increasing u mem_cons_self).serial1
  stop := by
    rw [hd.stop]
    exact (past_append h.start : h.start.past ([u] ++ ts) = _)
  short := by
    have := hd.short
    rw [span_cons] at this
    omega
  index := by simp

lemma Describes.serial1_eq (hd : Describes h index ts) (ht : t.Increasing)
    (hf : t.serial0 = h.stop.serial) :
    t.serial1 = (h.start.serial + span (ts ++ [t])) % 2 ^ 32 := by
  rw [ht.serial1_eq, hf, hd.stop, hd.serial_past prefix_rfl, span_append, span_cons, span_nil]
  omega

structure Purged (ts : List Tx) (t : Tx) (gone kept : List Tx) : Prop where
  parts : ts = gone ++ kept
  short : span (kept ++ [t]) < 2 ^ 31
  long : ∀ us, us <+: gone → us ≠ gone → span us + 2 ^ 31 ≤ span (ts ++ [t])

lemma Purged.addressable_eq (h : Purged ts t gone kept) : addressable (ts ++ [t]) = kept ++ [t] := by
  obtain ⟨rfl, hshort, hlong⟩ := h
  induction gone with
  | nil => exact addressable_of_span hshort
  | cons u gone ih =>
    have hfirst := hlong [] nil_prefix (by simp)
    rw [cons_append, cons_append, addressable, if_neg]
    · refine ih fun us hus hne => ?_
      have := hlong (u :: us) (cons_prefix_cons.mpr ⟨rfl, hus⟩) (by simpa using hne)
      simp only [cons_append, span_cons] at this
      omega
    · simp only [cons_append, span_nil, zero_add] at hfirst
      omega

lemma purgeLoop_meets (hd : Describes j.header index ts) (ht : t.Increasing)
    (hf : t.serial0 = j.header.stop.serial)
    (hread : ∀ us u, us ++ [u] <+: ts → Readable j.disk.view (j.header.start.past us).offset u)
    {rounds : ℕ} (hrounds : ts.length < rounds) : Succeeds (purgeLoop t.serial1 rounds) j
      fun _ j' => ∃ gone kept, Purged ts t gone kept ∧
        Moved { j with header := { j.header with start := j.header.start.past gone } } j' := by
  have hserial := hd.serial1_eq ht hf
  have hstart := hd.start
  have hshort := hd.short
  have hpos := ht.step_pos
  have hlt := ht.step_lt
  have hspan : span (ts ++ [t]) = span ts + t.step := by simp
  induction ts generalizing j rounds index with
  | nil =>
    cases rounds with
    | zero => simp at hrounds
    | succ rounds =>
      refine .read (.ite (fun _ => .pure ?_) fun h => ?_)
      · rintro _ rfl
        exact ⟨[], [], ⟨rfl, by simpa using hlt, by simp⟩, .refl _⟩
      · simp only [serialGT, Bool.and_eq_true, decide_eq_true_eq] at h
        simp only [span_nil] at hspan
        omega
  | cons u ts ih =>
    cases rounds with
    | zero => simp at hrounds
    | succ rounds =>
      refine .read (.ite (fun h => .pure ?_) fun h => ?_)
      · rintro _ rfl
        simp only [serialGT, Bool.and_eq_true, decide_eq_true_eq] at h
        exact ⟨[], u :: ts, ⟨rfl, by omega, by simp⟩, .refl _⟩
      · simp only [serialGT, Bool.and_eq_true, decide_eq_true_eq] at h
        have hlong : 2 ^ 31 ≤ span (u :: ts ++ [t]) := by omega
        have hfirst : [] ++ [u] <+: u :: ts := ⟨ts, rfl⟩
        refine (journalNext_meets hd hfirst (hread [] u ⟨ts, rfl⟩)).next ?_
        rintro _ _ ⟨rfl, offset, rfl⟩
        have htail := hd.tail
        refine .change ((ih (j := { j with
            offset := offset
            header := { j.header with start := j.header.start.past [u] } }) htail hf ?_
          (by simpa using hrounds) (htail.serial1_eq ht hf) htail.start htail.short (by simp)).mono
          (fun _ h => h) ?_ fun _ _ h => h)
        · intro us v hus
          have := hread (u :: us) v (cons_prefix_cons.mpr ⟨rfl, hus⟩)
          rwa [show u :: us = [u] ++ us from rfl, past_append] at this
        · rintro _ j' ⟨gone, kept, ⟨hparts, hkept, hgone⟩, hmoved⟩
          refine ⟨u :: gone, kept, ⟨by rw [hparts]; rfl, hkept, ?_⟩, ?_⟩
          · intro us hus hne
            cases us with
            | nil => simpa using hlong
            | cons v us =>
              obtain ⟨rfl, hus'⟩ := cons_prefix_cons.mp hus
              have := hgone us hus' (by simpa using hne)
              simp only [cons_append, span_cons] at this ⊢
              omega
          · rw [show u :: gone = [u] ++ gone from rfl, past_append]
            exact .trans ⟨offset, rfl⟩ hmoved

def Indexed (start : Pos) (index : List Pos) (ts : List Tx) : Prop :=
  ∀ e ∈ index, e.valid → ∃ us, us <+: ts ∧ e = start.past us

attribute [local simp] invalid

lemma Purged.indexed (hp : Purged ts t gone kept) (hd : Describes h index ts)
    (ht : t.Increasing) (hf : t.serial0 = h.stop.serial) (hi : Indexed h.start index ts) :
    Indexed (h.start.past gone) (indexInvalidate t.serial1 index) kept := by
  intro e he hvalid
  simp only [indexInvalidate, mem_map] at he
  obtain ⟨e', he', rfl⟩ := he
  split_ifs at hvalid ⊢ with hgt
  · obtain ⟨us, hus, rfl⟩ := hi e' he' hvalid
    rw [hd.serial1_eq ht hf, hd.serial_past hus] at hgt
    have hshort := hd.short
    have hlt := ht.step_lt
    have hspan : span (ts ++ [t]) = span ts + t.step := by simp
    simp only [serialGT, Bool.and_eq_true, decide_eq_true_eq] at hgt
    -- an entry before the new begin would be too far away
    have hgone : gone <+: us := by
      rcases prefix_or_prefix_of_prefix hus (hp.parts ▸ prefix_append gone kept) with h | h
      · by_cases heq : us = gone
        · exact heq ▸ prefix_rfl
        · have := hp.long us h heq
          omega
      · exact h
    obtain ⟨us', rfl⟩ := hgone
    refine ⟨us', ?_, h.start.past_append⟩
    rw [hp.parts] at hus
    exact (prefix_append_right_inj _).mp hus
  · simp [valid] at hvalid

lemma evens_length (l : List Pos) : (evens l).length = (l.length + 1) / 2 := by
  induction l using evens.induct with
  | case1 => rfl
  | case2 e => simp [evens]
  | case3 e e' rest ih =>
    simp only [evens, length_cons, ih]
    omega

lemma mem_of_mem_evens {l : List Pos} {e : Pos} (h : e ∈ evens l) : e ∈ l := by
  induction l using evens.induct with
  | case1 => exact h
  | case2 e => exact h
  | case3 e' e'' rest ih =>
    rcases mem_cons.mp h with rfl | h
    · exact mem_cons_self
    · exact .tail _ (.tail _ (ih h))

lemma indexAdd_meets (pos : Pos) (hlen : 2 ≤ j.index.length) :
    Succeeds (indexAdd pos) j fun _ j' => ∃ index, j' = { j with index := index } ∧
      index.length = j.index.length ∧ ∀ e ∈ index, e ∈ j.index ∨ e = .invalid ∨ e = pos := by
  refine .read (.ite (fun h => by omega) fun _ => .ite (fun _ => .modify ?_) fun _ => ?_)
  · rintro _ rfl
    refine ⟨_, rfl, by simp, fun e he => ?_⟩
    rcases mem_or_eq_of_mem_set he with h | h
    · exact .inl h
    · exact .inr (.inr h)
  · have hkept := evens_length j.index
    refine .check (by omega) (.modify ?_)
    rintro _ rfl
    refine ⟨_, rfl, ?_, fun e he => ?_⟩
    · simp only [length_set, length_append, length_replicate]
      omega
    · rcases mem_or_eq_of_mem_set he with h | h
      · rcases mem_append.mp h with h | h
        · exact .inl (mem_of_mem_evens h)
        · exact .inr (.inl (eq_of_mem_replicate h))
      · exact .inr (.inr h)

lemma purge_meets (hs : Stored decode j.disk.view j.header j.index ts) (ht : t.Increasing)
    (hf : ts ≠ [] → t.serial0 = j.header.stop.serial) (hi : Indexed j.header.start j.index ts)
    (hserial : j.pos1.serial = t.serial1) : Succeeds purge j
      fun _ j' => ∃ gone kept index, Purged ts t gone kept ∧
        Indexed (j.header.start.past gone) index kept ∧ index.length = j.index.length ∧
        (∀ e ∈ index, e ∈ j.index ∨ e = .invalid) ∧
        Moved { j with
          header := { j.header with start := j.header.start.past gone }, index := index } j' := by
  refine .read (.ite (fun hempty => .pure ?_) fun hempty => ?_)
  · obtain rfl := hs.empty_iff.mp hempty
    rintro _ rfl
    exact ⟨[], [], _, ⟨rfl, by simpa using ht.step_lt, by simp⟩, hi, rfl, fun _ => .inl, .refl _⟩
  · have hne : ts ≠ [] := fun h => hempty (hs.empty_iff.mpr h)
    rw [hserial]
    refine (purgeLoop_meets hs.describes ht (hf hne) (fun us u hus => hs.stores.readable hus)
      (lt_succ_of_le hs.stores.length_le)).next ?_
    rintro _ _ ⟨gone, kept, hp, offset, rfl⟩
    refine .modify ?_
    rintro _ rfl
    refine ⟨gone, kept, indexInvalidate j.pos1.serial j.index, hp, ?_, by simp [indexInvalidate],
      fun e he => ?_, offset, rfl⟩
    · rw [hserial]
      exact hp.indexed hs.describes ht (hf hne) hi
    simp only [indexInvalidate, mem_map] at he
    obtain ⟨e', he', rfl⟩ := he
    split_ifs
    · exact .inl he'
    · exact .inr rfl

def xhdrWrite (p : ℕ) (t : Tx) : Write := ⟨p, t.xhdr.encode⟩

def headerWrite (h : Header) : Write := ⟨0, h.encode⟩

def indexWrite (index : List Pos) : Write := ⟨headerSize, index.flatMap encode⟩

def newHeader (h : Header) (start : Pos) (p : ℕ) (t : Tx) : Header :=
  { h with start := start, stop := ⟨t.serial1, p + t.encode.length⟩ }

/-- The begin position after the commit of a transaction at `p`. -/
def newStart (h : Header) (ts : List Tx) (p : ℕ) (t : Tx) (gone : List Tx) : Pos :=
  if ts = [] then ⟨t.serial0, p⟩ else h.start.past gone

/-- What the commit of `t` at `p` does, and the states in which the disk is meanwhile. -/
structure Commits (j : Handle) (ts : List Tx) (p : ℕ) (t : Tx) (gone kept : List Tx) (j' : Handle) :
    Prop where
  purged : Purged ts t gone kept
  header : j'.header = newHeader j.header (newStart j.header ts p t gone) p t
  length : j'.index.length = j.index.length
  entries : ∀ e ∈ j'.index, e ∈ j.index ∨ e = .invalid ∨ e = ⟨t.serial0, p⟩
  indexed : Indexed (newStart j.header ts p t gone) j'.index kept
  state : j'.state = .writing
  disk : j'.disk = (((j.disk.sync.write (xhdrWrite p t)).write (headerWrite j'.header)).write
    (indexWrite j'.index)).sync
  past : j'.past = [((j.disk.sync.write (xhdrWrite p t)).write (headerWrite j'.header)).write
    (indexWrite j'.index), (j.disk.sync.write (xhdrWrite p t)).write (headerWrite j'.header),
    j.disk.sync.write (xhdrWrite p t), j.disk.sync, j.disk] ++ j.past

structure Looks (j : Handle) (disk : Disk) (past : List Disk) (header : Header) (index : List Pos)
    (pos0 pos1 : Pos) : Prop where
  disk : j.disk = disk
  past : j.past = past
  header : j.header = header
  index : j.index = index
  pos0 : j.pos0 = pos0
  pos1 : j.pos1 = pos1

section
variable {disk : Disk} {past : List Disk} {header : Header} {pos0 pos1 : Pos}
  (hlook : Looks j disk past header index pos0 pos1)
include hlook

lemma fsync_looks : Succeeds fsync j
      fun _ j' => Looks j' disk.sync (disk :: past) header index pos0 pos1 := by
  obtain ⟨rfl, rfl, rfl, rfl, rfl, rfl⟩ := hlook
  exact .modify fun _ hj => hj ▸ ⟨rfl, rfl, rfl, rfl, rfl, rfl⟩

lemma writeXhdr_looks (hpos0 : pos0.serial = t.serial0) (hpos1 : pos1.serial = t.serial1)
    (hsize : pos1.offset = pos0.offset + t.encode.length) : Succeeds writeXhdr j fun _ j' =>
      Looks j' (disk.write (xhdrWrite pos0.offset t)) (disk :: past) header index pos0 pos1 := by
  obtain ⟨rfl, rfl, rfl, rfl, rfl, rfl⟩ := hlook
  have hx : Xhdr.mk (j.pos1.offset - j.pos0.offset - xhdrSize) j.pos0.serial j.pos1.serial = t.xhdr := by
    rw [hsize, Tx.length_encode, hpos0, hpos1, Tx.xhdr]
    congr 1
    omega
  refine .read ?_
  rw [hx]
  exact .change (.modify fun _ hj => hj ▸ ⟨rfl, rfl, rfl, rfl, rfl, rfl⟩)

lemma moveEnd_looks : Succeeds moveEnd j fun _ j' => Looks j' disk past { header with
      start := if header.empty then pos0 else header.start, stop := pos1 } index pos0 pos1 := by
  obtain ⟨rfl, rfl, rfl, rfl, rfl, rfl⟩ := hlook
  exact .modify fun _ hj => hj ▸ ⟨rfl, rfl, rfl, rfl, rfl, rfl⟩

lemma writeHeader_looks : Succeeds writeHeader j fun _ j' =>
      Looks j' (disk.write (headerWrite header)) (disk :: past) header index pos0 pos1 := by
  obtain ⟨rfl, rfl, rfl, rfl, rfl, rfl⟩ := hlook
  exact .read (.change (.modify fun _ hj => hj ▸ ⟨rfl, rfl, rfl, rfl, rfl, rfl⟩))

lemma indexToDisk_looks (hsize : header.indexSize ≠ 0) : Succeeds indexToDisk j fun _ j' =>
      Looks j' (disk.write (indexWrite index)) (disk :: past) header index pos0 pos1 := by
  obtain ⟨rfl, rfl, rfl, rfl, rfl, rfl⟩ := hlook
  exact .read (.ite (fun h => absurd h hsize) fun _ =>
    .change (.modify fun _ hj => hj ▸ ⟨rfl, rfl, rfl, rfl, rfl, rfl⟩))

end

section
variable (hp : Purged ts t gone kept)
include hp

lemma newStart_past {p : ℕ}
    (hstop : ts ≠ [] → h.start.past ts = ⟨t.serial0, p⟩) :
    (newStart h ts p t gone).past kept = ⟨t.serial0, p⟩ := by
  rw [newStart]
  split_ifs with hnil
  · obtain ⟨-, rfl⟩ := append_eq_nil_iff.mp (hp.parts.symm.trans hnil)
    rfl
  · rw [← past_append, ← hp.parts]
    exact hstop hnil

lemma forall_kept {P : Tx → Prop} (hts : ∀ u ∈ ts, P u) (ht : P t) : ∀ u ∈ kept ++ [t], P u := by
  intro u hu
  rcases mem_append.mp hu with hu | hu
  · exact hts u (by rw [hp.parts]; exact mem_append_right _ hu)
  · rw [mem_singleton.mp hu]
    exact ht

lemma Stored.describes_new {f : File} (hs : Stored decode f h index ts) (ht : t.Valid decode)
    (hf : ts ≠ [] → t.serial0 = h.stop.serial)
    (hindex : ∀ e ∈ index', e.valid →
      Harmless (newStart h ts (newOffset h) t gone) (kept ++ [t]) e) :
    Describes (newHeader h (newStart h ts (newOffset h) t gone) (newOffset h) t) index'
      (kept ++ [t]) := by
  have hinc := ht.increasing
  have hpast := newStart_past hp fun hne => hs.past_eq hne (hf hne)
  have hserial := congrArg serial hpast
  refine ⟨forall_kept hp hs.describes.increasing hinc, ?_, ?_, ?_, hp.short, hindex⟩
  · refine follows_append.mpr ⟨?_, hserial.symm, trivial⟩
    simp only [newHeader, newStart]
    split_ifs with hnil
    · obtain ⟨-, rfl⟩ := append_eq_nil_iff.mp (hp.parts.symm.trans hnil)
      trivial
    · have := hs.describes.follows
      rw [hp.parts, follows_append] at this
      exact this.2
  · simp only [newHeader, newStart]
    split_ifs with hnil
    · exact hinc.serial0
    · rw [hs.describes.serial_past (hp.parts ▸ prefix_append gone kept)]
      omega
  · simp only [newHeader]
    rw [past_append, hpast]
    simp [past, after]

lemma Stored.stored_new {f g : File} (hs : Stored decode g h index ts) (ht : t.Valid decode)
    (hf : ts ≠ [] → t.serial0 = h.stop.serial)
    (hindex : ∀ e ∈ index', e.valid → Harmless (newStart h ts (newOffset h) t gone) (kept ++ [t]) e)
    (hold : f.Has h.start.offset (encodes ts)) (hnew : f.Has (newOffset h) t.encode)
    (hheader : f.Has 0 (newHeader h (newStart h ts (newOffset h) t gone) (newOffset h) t).encode)
    (hindexed : f.Has headerSize (index'.flatMap encode))
    (hsmall : newOffset h + t.encode.length < 2 ^ 32) (hlength : index'.length = h.indexSize)
    (hfits : ∀ e ∈ index', e.Fits) :
    Stored decode f (newHeader h (newStart h ts (newOffset h) t gone) (newOffset h) t) index'
      (kept ++ [t]) := by
  have hdescribes := hs.describes_new hp ht hf hindex
  have hpast := newStart_past hp fun hne => hs.past_eq hne (hf hne)
  have hoffset := congrArg offset hpast
  simp only [past] at hoffset
  refine ⟨hdescribes, ⟨forall_kept hp hs.stores.valid ht, ?_, ?_⟩, by simp, fun _ => ?_, hheader,
    hindexed, hs.format, hlength, hfits, hs.indexSize, hs.sourceserial⟩
  · rw [encodes_append, has_append]
    simp only [newHeader]
    rw [hoffset]
    refine ⟨?_, by simpa using hnew⟩
    simp only [newStart]
    split_ifs with hnil
    · obtain ⟨-, rfl⟩ := append_eq_nil_iff.mp (hp.parts.symm.trans hnil)
      have := hnew.2
      exact ⟨rfl, by simp only [encodes_nil, length_nil]; omega⟩
    · rw [hp.parts, encodes_append, has_append] at hold
      exact hold.2
  · simp only [newHeader, encodes_append, length_append, encodes_cons, encodes_nil, append_nil]
    omega
  · simp only [newHeader, newStart]
    split_ifs with hnil
    · exact hs.base_le_newOffset
    · have := hs.base hnil
      simp only [past]
      omega

end

lemma commit_meets {j0 : Handle} (hs : Stored decode j.disk.view j.header j.index ts)
    (hi : Indexed j.header.start j.index ts) (hlen : 2 ≤ j.index.length) (ht : t.Valid decode)
    (hf : ts ≠ [] → t.serial0 = j.header.stop.serial)
    (h : Filling j0 (newOffset j.header) t.rrs j) :
    Succeeds commit j
      fun _ j' => ∃ gone kept, Commits j ts (newOffset j.header) t gone kept j' := by
  have hserials : soaSerials t.rrs = [t.serial0, t.serial1] := ht.serials
  have hnoted := h.noted
  rw [hserials] at hnoted
  have hsoa : j.nSoa = 2 := hnoted.count
  have hserial0 : j.pos0.serial = t.serial0 := hnoted.first _ rfl
  have hserial1 : j.pos1.serial = t.serial1 := hnoted.second _ rfl
  have hpos0 : j.pos0 = ⟨t.serial0, newOffset j.header⟩ := by
    rw [← hserial0, ← h.pos0]
  have hpos1 : j.pos1 = ⟨t.serial1, newOffset j.header + t.encode.length⟩ := by
    rw [← hserial1, Tx.length_encode, ← add_assoc, ← h.pos1]
  have hinc := ht.increasing
  have hstop := fun hne => hs.past_eq hne (hf hne)
  refine .read (.check (.inl h.state) (.ite (fun hinline => ?_) fun _ =>
    .ite (fun hne => absurd hsoa hne) fun _ => .ite (fun hbad => ?_) fun _ =>
    .ite (fun hbad => ?_) fun _ => ?_))
  · rw [h.state] at hinline
    cases hinline
  · rw [hserial0, hserial1, ht.later] at hbad
    simp at hbad
  · simp only [Bool.and_eq_true, Bool.not_eq_true', decide_eq_true_eq] at hbad
    have hne : ts ≠ [] := fun hnil => by simp [hs.empty_iff.mpr hnil] at hbad
    exact absurd (hserial0.trans (hf hne)) hbad.2
  refine (purge_meets hs hinc hf hi hserial1).next ?_
  rintro _ _ ⟨gone, kept, index1, hp, hindexed, hlength, hentries, offset, rfl⟩
  -- the begin position
  have hstart : (if ({ j.header with start := j.header.start.past gone } : Header).empty then j.pos0
      else j.header.start.past gone) = newStart j.header ts (newOffset j.header) t gone := by
    have hkept := newStart_past hp hstop
    rw [newStart] at hkept ⊢
    split_ifs with hempty hnil hnil
    · exact hpos0
    · rw [if_neg hnil] at hkept
      rw [hpos0, ← hkept]
      have hoffset : (j.header.start.past gone).offset = j.header.stop.offset := by
        simpa [Header.empty] using hempty
      rw [hs.describes.stop, hp.parts, past_append] at hoffset
      have hle : kept.length ≤ (encodes kept).length := length_le_encodes
      have : (encodes kept).length = 0 := by
        simp only [past] at hoffset
        omega
      rw [eq_nil_of_length_eq_zero (show kept.length = 0 by omega), past_nil]
    · subst hnil
      obtain ⟨rfl, rfl⟩ := append_eq_nil_iff.mp hp.parts.symm
      exact absurd (hs.empty_iff.mpr rfl) hempty
    · rfl
  have hlook : Looks { j with
      offset := offset
      header := { j.header with start := j.header.start.past gone }
      index := index1 } j.disk j.past { j.header with start := j.header.start.past gone } index1
      ⟨t.serial0, newOffset j.header⟩ ⟨t.serial1, newOffset j.header + t.encode.length⟩ :=
    ⟨rfl, rfl, rfl, rfl, hpos0, hpos1⟩
  rw [hpos0] at hstart
  refine (fsync_looks hlook).next fun _ j1 h1 => ?_
  refine (writeXhdr_looks h1 rfl rfl rfl).next fun _ j2 h2 => ?_
  refine (moveEnd_looks h2).next fun _ j2 h2 => ?_
  have hheader : j2.header = newHeader j.header
      (newStart j.header ts (newOffset j.header) t gone) (newOffset j.header) t := by
    rw [h2.header, hstart]
    rfl
  refine (writeHeader_looks ⟨h2.disk, h2.past, hheader, h2.index, h2.pos0, h2.pos1⟩).seq
    (fun _ _ h => h) fun _ j3 h3 => ?_
  refine .read ?_
  rw [h3.pos0]
  refine (indexAdd_meets _ (by rw [h3.index, hlength]; exact hlen)).next ?_
  rintro _ _ ⟨index2, rfl, hlength2, hentries2⟩
  rw [h3.index] at hlength2 hentries2
  have h3' : Looks { j3 with index := index2 } _ _ _ index2 _ _ :=
    ⟨h3.disk, h3.past, h3.header, rfl, h3.pos0, h3.pos1⟩
  refine (indexToDisk_looks h3' ?_).next fun _ j4 h4 => ?_
  · have := hs.length
    simp only [newHeader]
    omega
  refine (fsync_looks h4).next fun _ j5 h5 => .modify ?_
  rintro _ rfl
  refine ⟨gone, kept, hp, h5.header, ?_, ?_, ?_, rfl, ?_, ?_⟩
  · rw [h5.index]
    exact hlength2.trans hlength
  · rw [h5.index]
    intro e he
    rcases hentries2 e he with h | h | h
    · rcases hentries e h with h | h
      exacts [.inl h, .inr (.inl h)]
    · exact .inr (.inl h)
    · exact .inr (.inr h)
  · have hkept := newStart_past hp hstop
    rw [h5.index]
    intro e he hvalid
    rcases hentries2 e he with h | rfl | rfl
    · obtain ⟨us, hus, rfl⟩ := hindexed e h hvalid
      rw [newStart]
      split_ifs with hnil
      · -- an empty journal has no entries
        subst hnil
        obtain ⟨rfl, rfl⟩ := append_eq_nil_iff.mp hp.parts.symm
        rw [prefix_nil.mp hus, past_nil, past_nil, hs.empty rfl] at hvalid
        simp [valid] at hvalid
      · exact ⟨us, hus, rfl⟩
    · simp [valid] at hvalid
    · exact ⟨kept, prefix_rfl, hkept.symm⟩
  · simp only [h5.disk, h5.header, h5.index]
  · simp only [h5.past, h5.header, h5.index]
    rfl

section
variable {f : File} {h h' : Header} {index' : List Pos} {ws : List Write}

def commitWrites (h' : Header) (index' : List Pos) (p : ℕ) (t : Tx) : List Write :=
  [xhdrWrite p t, headerWrite h', indexWrite index']

lemma length_headerEncode (hformat : h'.format = journalFormat) : h'.encode.length = headerSize := by
  simp [Header.encode, hformat, journalFormat, headerSize, posSize]

structure Regions (h' : Header) (index' : List Pos) (p : ℕ) (n : ℕ) (ws : List Write) (t : Tx) :
    Prop where
  sub : ws.Sublist (commitWrites h' index' p t)
  header : h'.encode.length = headerSize
  index : (index'.flatMap encode).length = n * posSize
  base : headerSize + n * posSize ≤ p

namespace Regions

variable {p n : ℕ}

section
variable (hr : Regions h' index' p n ws t)
include hr

lemma mem {w : Write} (hw : w ∈ ws) :
    w = xhdrWrite p t ∨ w = headerWrite h' ∨ w = indexWrite index' := by
  simpa [commitWrites] using hr.sub.subset hw

lemma pairwise :
    ws.Pairwise fun w w' => w'.Misses w.offset w.bytes.length := by
  refine List.Pairwise.sublist hr.sub ?_
  have hheader := hr.header
  have hindex := hr.index
  have hbase := hr.base
  simp only [commitWrites, pairwise_cons, mem_cons, not_mem_nil, or_false, false_implies,
    implies_true, List.Pairwise.nil, and_true, forall_eq_or_imp, forall_eq]
  simp only [xhdrWrite, headerWrite, indexWrite, Write.Misses, Write.stop, Tx.length_xhdr]
  omega

lemma has_of_mem {w : Write} (hw : w ∈ ws)
    (hne : w.bytes ≠ []) : (f.writes ws).Has w.offset w.bytes :=
  has_writes_of_mem hr.pairwise hw hne

end

variable {bs : List UInt8}

variable (hr : Regions h' index' p n ws t)
include hr

lemma has_old {q : ℕ} (h : f.Has q bs) (hlow : bs ≠ [] → headerSize + n * posSize ≤ q)
    (hhigh : q + bs.length ≤ p) : (f.writes ws).Has q bs := by
  by_cases hnil : bs = []
  · subst hnil
    exact ⟨rfl, h.2.trans (f.size_le_writes ws)⟩
  have hlow := hlow hnil
  have hheader := hr.header
  have hindex := hr.index
  refine h.writes fun w hw => ?_
  rcases hr.mem hw with rfl | rfl | rfl
  · exact .inl hhigh
  · refine .inr ?_
    simp only [headerWrite, Write.stop]
    omega
  · refine .inr ?_
    simp only [indexWrite, Write.stop]
    omega

lemma has_behind {q : ℕ} (h : f.Has q bs) (hq : p + xhdrSize ≤ q) : (f.writes ws).Has q bs := by
  have hheader := hr.header
  have hindex := hr.index
  have hbase := hr.base
  refine h.writes fun w hw => .inr ?_
  rcases hr.mem hw with rfl | rfl | rfl
  · exact hq
  · simp only [headerWrite, Write.stop]
    omega
  · simp only [indexWrite, Write.stop]
    omega

lemma has_header (hh : f.Has 0 h.encode) (hlen : h.encode.length = headerSize)
    (hw : headerWrite h' ∉ ws) : (f.writes ws).Has 0 h.encode := by
  have hbase := hr.base
  refine hh.writes fun w hmem => .inl ?_
  rcases hr.mem hmem with rfl | rfl | rfl
  · simp only [xhdrWrite]
    omega
  · exact absurd hmem hw
  · simp only [indexWrite]
    omega

lemma has_index (hi : f.Has headerSize (index.flatMap encode))
    (hlen : (index.flatMap encode).length = n * posSize) (hw : indexWrite index' ∉ ws) :
    (f.writes ws).Has headerSize (index.flatMap encode) := by
  have hbase := hr.base
  have hheader := hr.header
  refine hi.writes fun w hmem => ?_
  rcases hr.mem hmem with rfl | rfl | rfl
  · refine .inl ?_
    simp only [xhdrWrite]
    omega
  · refine .inr ?_
    simp only [headerWrite, Write.stop]
    omega
  · exact absurd hmem hw

lemma has_xhdr (h : f.Has p bs) (hw : xhdrWrite p t ∉ ws) : (f.writes ws).Has p bs := by
  have hheader := hr.header
  have hindex := hr.index
  have hbase := hr.base
  refine h.writes fun w hmem => .inr ?_
  rcases hr.mem hmem with rfl | rfl | rfl
  · exact absurd hmem hw
  · simp only [headerWrite, Write.stop]
    omega
  · simp only [indexWrite, Write.stop]
    omega

end Regions

lemma Stored.has_encodes (hs : Stored decode f h index ts) {n : ℕ} (hn : h.indexSize = n)
    (hr : Regions h' index' (newOffset h) n ws t) :
    (f.writes ws).Has h.start.offset (encodes ts) := by
  by_cases hnil : ts = []
  · subst hnil
    exact ⟨rfl, hs.stores.has.2.trans (f.size_le_writes ws)⟩
  · refine hr.has_old hs.stores.has (fun _ => hn ▸ hs.base hnil) ?_
    rw [newOffset, if_neg (by rw [hs.empty_iff]; exact hnil), hs.describes.stop]
    exact le_rfl

end

lemma Commits.fits {p : ℕ} {j' : Handle} (hc : Commits j ts p t gone kept j')
    (hs : Stored decode j.disk.view j.header j.index ts) (ht : t.Valid decode) (hp : p < 2 ^ 32) :
    ∀ e ∈ j'.index, e.Fits := by
  intro e he
  rcases hc.entries e he with h | rfl | rfl
  · exact hs.fits e h
  · exact ⟨by simp, by simp⟩
  · exact ⟨ht.increasing.serial0, hp⟩

lemma Commits.stored {j0 j' : Handle} (hc : Commits j ts (newOffset j.header) t gone kept j')
    (hs : Stored decode j.disk.view j.header j.index ts) (hlen : 2 ≤ j.index.length)
    (ht : t.Valid decode) (hf : ts ≠ [] → t.serial0 = j.header.stop.serial)
    (hfill : Filling j0 (newOffset j.header) t.rrs j) (hsize : j'.disk.view.size < 2 ^ 32) :
    Stored decode j'.disk.view j'.header j'.index (kept ++ [t]) ∧
      Indexed j'.header.start j'.index (kept ++ [t]) := by
  have hindexed : Indexed j'.header.start j'.index (kept ++ [t]) := by
    intro e he hvalid
    obtain ⟨us, hus, rfl⟩ := hc.indexed e he hvalid
    exact ⟨us, hus.trans (prefix_append kept [t]), by rw [hc.header]; rfl⟩
  have hview : j'.disk.view = j.disk.view.writes (commitWrites j'.header j'.index
      (newOffset j.header) t) := by
    rw [hc.disk]
    simp [commitWrites]
  have hr : Regions j'.header j'.index (newOffset j.header) j.header.indexSize
      (commitWrites j'.header j'.index (newOffset j.header) t) t :=
    ⟨.refl _, length_headerEncode (by rw [hc.header]; exact hs.format),
      by rw [length_flatMap_encode, hc.length, hs.length], hs.base_le_newOffset⟩
  have hbody := hfill.has
  rw [has_append] at hbody
  have hnew : j'.disk.view.Has (newOffset j.header) t.encode := by
    rw [hview, Tx.encode, has_append]
    exact ⟨hr.has_of_mem (w := xhdrWrite (newOffset j.header) t) (by simp [commitWrites])
      (by simp [xhdrWrite, Xhdr.encode, be32]), hr.has_behind hbody.2 (by simp)⟩
  have hsmall := hnew.2
  have hold := hs.has_encodes rfl hr
  have hheader : j'.disk.view.Has 0 j'.header.encode := by
    rw [hview]
    refine hr.has_of_mem (w := headerWrite j'.header) (by simp [commitWrites]) ?_
    exact ne_nil_of_length_pos (by have := hr.header; simp [headerWrite, this, headerSize])
  have hindex : j'.disk.view.Has headerSize (j'.index.flatMap encode) := by
    rw [hview]
    refine hr.has_of_mem (w := indexWrite j'.index) (by simp [commitWrites]) ?_
    refine ne_nil_of_length_pos ?_
    simp only [indexWrite, length_flatMap_encode, hc.length, posSize]
    omega
  refine ⟨?_, hindexed⟩
  rw [← hview] at hold
  rw [hc.header] at hheader hindexed ⊢
  refine hs.stored_new hc.purged ht hf (fun e he hv => .inl (hindexed e he hv)) hold hnew hheader
    hindex (by omega) (hc.length.trans hs.length) fun e he => ?_
  exact hc.fits hs ht (by omega) e he

end LbBind.Journal

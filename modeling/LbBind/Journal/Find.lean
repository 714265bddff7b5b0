import LbBind.Journal.Layout

/-! Finding a transaction by its serial. The search starts from the begin of the journal or from an
index entry, and walks over the headers. It finds every serial at which a transaction starts or the
last one ends, and no other, whatever harmless entries the index has. -/

namespace LbBind.Journal

open Lib Call List Describes Bool Nat Xhdr

variable {j : Handle}

def Moved (j j' : Handle) : Prop := ∃ offset, j' = { j with offset := offset }

lemma Moved.refl (j : Handle) : Moved j j := ⟨j.offset, rfl⟩

lemma Moved.trans {j' j'' : Handle} (h : Moved j j') (h' : Moved j' j'') : Moved j j'' := by
  obtain ⟨_, rfl⟩ := h
  obtain ⟨_, rfl⟩ := h'
  exact ⟨_, rfl⟩

variable {E : Result → Handle → Prop}

lemma readBytes_then {β : Type} {n : ℕ} {bs : List UInt8} {f : List UInt8 → Routine β}
    {R : β → Handle → Prop} (hn : n = bs.length) (h : j.disk.view.Has j.offset bs)
    (hf : Meets (· = { j with offset := j.offset + n }) (f bs) R E) :
    Meets (· = j) (readBytes n >>= f) R E := by
  subst hn
  rintro _ rfl
  have hrun := hf _ rfl
  rw [← h.1] at hrun
  simpa [readBytes, h.2] using hrun

lemma Xhdr.decode_encode {x : Xhdr} (h : x.size < 2 ^ 32) (h0 : x.serial0 < 2 ^ 32)
    (h1 : x.serial1 < 2 ^ 32) : decode x.encode = x := by
  have hsize := Mem.rd32_of_slice (asMem x.encode) (asMem_slice [] (be32 x.size) _) h
  have hserial0 := Mem.rd32_of_slice (asMem x.encode)
    (asMem_slice (be32 x.size) (be32 x.serial0) (be32 x.serial1)) h0
  have hserial1 := asMem_slice (be32 x.size ++ be32 x.serial0) (be32 x.serial1) []
  rw [append_nil] at hserial1
  have hserial1 := Mem.rd32_of_slice (asMem x.encode) hserial1 h1
  cases x
  simp only [decode, mk.injEq]
  exact ⟨hsize, hserial0, hserial1⟩

structure Readable (f : File) (p : ℕ) (t : Tx) : Prop where
  has : f.Has p t.xhdr.encode
  size : (body t.rrs).length < 2 ^ 32

lemma readXhdr_then {β : Type} {t : Tx} {f : Xhdr → Routine β} {R : β → Handle → Prop}
    (h : Readable j.disk.view j.offset t) (ht : t.Increasing)
    (hf : Meets (· = { j with offset := j.offset + xhdrSize }) (f t.xhdr) R E) :
    Meets (· = j) (readXhdr >>= f) R E := by
  have hbytes : Meets (· = j) readXhdr
      (fun x j' => x = t.xhdr ∧ j' = { j with offset := j.offset + xhdrSize }) E := by
    refine readBytes_then rfl h.has (.pure ?_)
    rintro _ rfl
    exact ⟨decode_encode h.size ht.serial0 ht.serial1, rfl⟩
  refine hbytes.next ?_
  rintro _ _ ⟨rfl, rfl⟩
  exact hf

variable {ts pre : List Tx} {t : Tx} {serial d : ℕ}

lemma journalNext_meets {index : List Pos} (hd : Describes j.header index ts) (hpre : pre ++ [t] <+: ts)
    (hread : Readable j.disk.view (j.header.start.past pre).offset t) :
    Succeeds (journalNext (j.header.start.past pre)) j
      fun pos j' => pos = j.header.start.past (pre ++ [t]) ∧ Moved j j' := by
  obtain ⟨post, rfl⟩ := hpre
  have ht : t.Increasing := hd.increasing t (by simp)
  have hserial : t.serial0 = (j.header.start.past pre).serial := by
    have := hd.follows
    rw [append_assoc, follows_append] at this
    exact this.2.1
  refine .change (.read (.ite (fun hstop => ?_) fun _ => ?_))
  · -- the chain does not end before `t`
    have hstop : (j.header.start.past pre).serial = j.header.stop.serial := hstop
    rw [hd.stop] at hstop
    have := congrArg List.length (hd.serial_inj ⟨t :: post, by simp⟩ prefix_rfl hstop)
    simp at this
  · refine readXhdr_then hread ht (.ite (fun hne => absurd hserial hne) fun _ => .pure ?_)
    rintro _ rfl
    refine ⟨?_, _, rfl⟩
    rw [Pos.past_append]
    simp [Pos.past, Tx.xhdr, after, add_assoc]

variable (hd : Describes j.header j.index ts)
include hd

lemma findLoop_meets (post : List Tx) (hts : ts = pre ++ post) (hd1 : d < span ts)
    (hs : serial = (j.header.start.serial + d) % 2 ^ 32)
    (hbefore : ∀ us, us <+: pre → us ≠ pre → span us < d)
    (hread : ∀ us t, us ++ [t] <+: ts → span us < d →
      Readable j.disk.view (j.header.start.past us).offset t) (rounds : ℕ)
    (hrounds : post.length < rounds) :
    Meets (· = j) (findLoop serial rounds (j.header.start.past pre))
      (fun pos j' => (∃ us, us <+: ts ∧ span us = d ∧ pos = j.header.start.past us) ∧ Moved j j')
      (fun e j' => (e = .notFound ∧ ∀ us, us <+: ts → span us ≠ d) ∧ Moved j j') := by
  have hshort := hd.short
  have hpre : pre <+: ts := ⟨post, hts.symm⟩
  have hpast := hd.serial_past hpre
  have hle := span_le hpre
  induction post generalizing pre rounds j with
  | nil =>
    cases rounds with
    | zero => omega
    | succ rounds =>
      obtain rfl : ts = pre := by simpa using hts
      refine .ite (fun h => ?_) fun _ => .ite (fun _ => .fail ?_) fun h => ?_
      · rw [hpast, hs] at h
        omega
      · rintro _ rfl
        refine ⟨⟨rfl, fun us hus hspan => ?_⟩, .refl _⟩
        by_cases hne : us = ts
        · rw [hne] at hspan
          omega
        · exact absurd hspan (hbefore us hus hne).ne
      · rw [hpast, hs, serialGT_add (by omega) (by omega)] at h
        simp only [decide_eq_true_eq] at h
        omega
  | cons t post ih =>
    cases rounds with
    | zero => omega
    | succ rounds =>
      refine .ite (fun h => .pure ?_) fun hne => .ite (fun h => .fail ?_) fun h => ?_
      · rintro _ rfl
        refine ⟨⟨pre, hpre, ?_, rfl⟩, .refl _⟩
        rw [hpast, hs] at h
        omega
      · -- all shorter parts end before the serial, all others behind it
        rintro _ rfl
        rw [hpast, hs, serialGT_add (by omega) (by omega)] at h
        simp only [decide_eq_true_eq] at h
        refine ⟨⟨rfl, fun us hus hspan => ?_⟩, .refl _⟩
        rcases prefix_or_prefix_of_prefix hus hpre with hcase | hcase
        · by_cases heq : us = pre
          · subst heq
            omega
          · exact absurd hspan (hbefore us hcase heq).ne
        · have := span_le hcase
          omega
      · rw [hpast, hs, serialGT_add (by omega) (by omega)] at h
        rw [hpast, hs] at hne
        simp only [decide_eq_true_eq] at h
        have hlt : span pre < d := by
          rcases lt_or_ge (span pre) d with h' | h'
          · exact h'
          · exact absurd (by rw [show span pre = d by omega]) hne
        have hnext : pre ++ [t] <+: ts := ⟨post, by rw [hts]; simp⟩
        refine (journalNext_meets hd hnext (hread pre t hnext hlt)).seq (fun _ _ h => h.elim) ?_
        rintro _ _ ⟨rfl, offset, rfl⟩
        have hrest : ts = (pre ++ [t]) ++ post := by rw [hts, append_assoc]; rfl
        refine (ih (j := { j with offset := offset }) hd hrest hs ?_ hread _
          (by simp only [length_cons] at hrounds; omega) hnext (hd.serial_past hnext)
          (span_le hnext)).mono (fun _ h => h) ?_ ?_
        · intro us hus hne
          rcases prefix_concat_iff.mp hus with rfl | hus
          · exact absurd rfl hne
          · exact lt_of_le_of_lt (span_le hus) hlt
        · rintro pos j' ⟨h, hmoved⟩
          exact ⟨h, .trans ⟨_, rfl⟩ hmoved⟩
        · rintro e j' ⟨h, hmoved⟩
          exact ⟨h, .trans ⟨_, rfl⟩ hmoved⟩

lemma indexFind_past (hd1 : d < span ts) (hs : serial = (j.header.start.serial + d) % 2 ^ 32) :
    ∃ us, us <+: ts ∧ span us ≤ d ∧
      indexFind j.index serial j.header.start = j.header.start.past us := by
  have hshort := hd.short
  suffices ∀ (index : List Pos) (us : List Tx), (∀ e ∈ index, e ∈ j.index) → us <+: ts →
      span us ≤ d → ∃ us', us' <+: ts ∧ span us' ≤ d ∧
        indexFind index serial (j.header.start.past us) = j.header.start.past us' from
    this j.index [] (fun _ h => h) List.nil_prefix (zero_le _)
  intro index
  induction index with
  | nil => exact fun us _ hus hle => ⟨us, hus, hle, rfl⟩
  | cons e index ih =>
    intro us hmem hus hle
    have hrest := fun e he => hmem e (.tail _ he)
    rw [indexFind, foldl_cons]
    split_ifs with h
    · simp only [and_eq_true] at h
      obtain ⟨⟨hvalid, hge⟩, hgt⟩ := h
      rcases hd.index e (hmem e mem_cons_self) hvalid with ⟨us', hus', rfl⟩ | hold
      · have hle' := span_le hus'
        rw [hd.serial_past hus', hs, serialGE_add (by omega) (by omega), decide_eq_true_eq] at hge
        exact ih us' hrest hus' hge
      · -- an entry that is newer than no transaction is not taken
        obtain ⟨post, rfl⟩ := hus
        cases post with
        | nil =>
          rw [append_nil] at hd1
          omega
        | cons t post =>
          rw [hold us t ⟨post, by simp⟩] at hgt
          cases hgt
    · exact ih us hrest hus hle

def refusal (h : Header) (ts : List Tx) (serial : ℕ) : Result :=
  if span ts < (serial + (2 ^ 32 - h.start.serial)) % 2 ^ 32 then .range else .notFound

lemma journalFind_found (hne : ts ≠ []) (hpre : pre <+: ts) (hsize : ts.length ≤ j.disk.view.size)
    (hread : ∀ us t, us ++ [t] <+: pre → Readable j.disk.view (j.header.start.past us).offset t) :
    Succeeds (journalFind (j.header.start.past pre).serial) j
      fun pos j' => pos = j.header.start.past pre ∧ Moved j j' := by
  have hshort := hd.short
  have hle := span_le hpre
  have hstop := hd.serial_stop
  have hpast := hd.serial_past hpre
  refine .read (.ite (fun h => ?_) fun _ => .ite (fun h => ?_) fun _ =>
    .ite (fun h => .pure ?_) fun hne' => ?_)
  · simp only [serialGT, hpast, and_eq_true, decide_eq_true_eq] at h
    omega
  · rw [hpast, hstop, serialGT_add (by omega) (by omega), decide_eq_true_eq] at h
    omega
  · rintro _ rfl
    rw [hd.stop] at h ⊢
    exact ⟨congrArg _ (hd.serial_inj hpre prefix_rfl h).symm, .refl _⟩
  · have hlt : span pre < span ts := by
      refine lt_of_le_of_ne hle fun heq => hne' ?_
      rw [hpast, hstop, heq]
    obtain ⟨us, hus, hspan, hfind⟩ := indexFind_past hd hlt hpast
    rw [hfind]
    obtain ⟨post, rfl⟩ := hus
    have hloop := findLoop_meets (j := j) hd post rfl hlt hpast ?_ ?_ (j.disk.view.size + 1)
      (by simp only [length_append] at hsize; omega)
    · refine hloop.mono (fun _ h => h) ?_ ?_
      · rintro pos j' ⟨⟨us', hus', hspan', rfl⟩, hmoved⟩
        exact ⟨congrArg _ (hd.prefix_unique hus' hpre hspan'), hmoved⟩
      · rintro e j' ⟨⟨-, hmiss⟩, -⟩
        exact hmiss pre hpre rfl
    · intro us' hus' hne
      exact lt_of_lt_of_le (hd.span_lt ⟨post, rfl⟩ hus' hne) hspan
    · intro us' t hus' hlt'
      refine hread us' t ?_
      rcases prefix_or_prefix_of_prefix hus' hpre with hcase | hcase
      · exact hcase
      · rcases prefix_concat_iff.mp hcase with rfl | hcase
        · exact prefix_rfl
        · exact absurd hlt' (Nat.not_lt_of_le (span_le hcase))

lemma journalFind_missing (hne : ts ≠ []) (hs : serial < 2 ^ 32)
    (hsize : ts.length ≤ j.disk.view.size)
    (hmiss : ∀ us, us <+: ts → (j.header.start.past us).serial ≠ serial)
    (hread : ∀ us t, us ++ [t] <+: ts → Readable j.disk.view (j.header.start.past us).offset t) :
    Meets (· = j) (journalFind serial) (fun _ _ => False)
      (fun e j' => e = refusal j.header ts serial ∧ Moved j j') := by
  have hshort := hd.short
  have hpos := span_pos hd.increasing hne
  have hstart := hd.start
  have hstop := hd.serial_stop
  obtain ⟨d, hd32, hdist⟩ := exists_distance (s := j.header.start.serial) hs
  have hrefusal : refusal j.header ts serial = if span ts < d then .range else .notFound := by
    rw [refusal, hdist, show ((j.header.start.serial + d) % 2 ^ 32 +
      (2 ^ 32 - j.header.start.serial)) % 2 ^ 32 = d by omega]
  refine .read (.ite (fun h => .fail ?_) fun h1 => .ite (fun h => .fail ?_) fun h2 =>
    .ite (fun h => ?_) fun _ => ?_)
  · rintro _ rfl
    simp only [serialGT, hdist, and_eq_true, decide_eq_true_eq] at h
    exact ⟨by rw [hrefusal, if_pos (by omega)], .refl _⟩
  · rintro _ rfl
    rw [hstop, hdist] at h
    simp only [serialGT, and_eq_true, decide_eq_true_eq] at h
    exact ⟨by rw [hrefusal, if_pos (by omega)], .refl _⟩
  · exact absurd (by rw [h, hd.stop]) (hmiss ts prefix_rfl)
  · have hlt : d < span ts := by
      rw [hdist] at h1
      rw [hstop, hdist] at h2
      simp only [serialGT, and_eq_true, decide_eq_true_eq] at h1 h2
      rcases lt_trichotomy d (span ts) with hcase | hcase | hcase
      · exact hcase
      · exact absurd (by rw [hd.serial_past prefix_rfl, hdist, hcase])
          (hmiss ts prefix_rfl)
      · omega
    obtain ⟨us, hus, hspan, hfind⟩ := indexFind_past hd hlt hdist
    rw [hfind]
    obtain ⟨post, rfl⟩ := hus
    have hloop := findLoop_meets (j := j) hd post rfl hlt hdist ?_ (fun us t hus _ => hread us t hus)
      (j.disk.view.size + 1) (by simp only [length_append] at hsize; omega)
    · refine hloop.mono (fun _ h => h) ?_ ?_
      · rintro pos j' ⟨⟨us', hus', rfl, rfl⟩, -⟩
        exact hmiss us' hus' (by rw [hd.serial_past hus', hdist])
      · rintro e j' ⟨⟨rfl, -⟩, hmoved⟩
        exact ⟨by rw [hrefusal, if_neg (by omega)], hmoved⟩
    · intro us' hus' hne
      exact lt_of_lt_of_le (hd.span_lt ⟨post, rfl⟩ hus' hne) hspan

end LbBind.Journal

import LbBind.Message.Parse

/-! What the reading routines of the parser do. They move the position in the source, take memory
and may establish the class; they leave the sections and the pools alone and never read past the
end. A record that is read stands on the wire where the position was, and a record of a meta-type is
in its place or a problem is noted. -/

namespace LbBind.Message

open Lib Call Rdatatype Meets

variable {base : Mem} {used : ℕ} {options : Options}
  {decode : (rdclass rdtype current rdatalen available : ℕ) → Except Result (List UInt8)}

structure Reads (s s' : Parser) : Prop where
  counts : s'.counts = s.counts
  flags : s'.flags = s.flags
  opcode : s'.opcode = s.opcode
  rcode : s'.rcode = s.rcode
  sections : s'.sections = s.sections
  opt : s'.opt = s.opt
  tsig : s'.tsig = s.tsig
  sig0 : s'.sig0 = s.sig0
  namepool : s'.namepool = s.namepool
  rdspool : s'.rdspool = s.rdspool

namespace Reads

lemma refl (s : Parser) : Reads s s := ⟨rfl, rfl, rfl, rfl, rfl, rfl, rfl, rfl, rfl, rfl⟩

lemma trans {s t u : Parser} (h : Reads s t) (h' : Reads t u) : Reads s u :=
  ⟨h'.counts.trans h.counts, h'.flags.trans h.flags, h'.opcode.trans h.opcode,
    h'.rcode.trans h.rcode, h'.sections.trans h.sections, h'.opt.trans h.opt, h'.tsig.trans h.tsig,
    h'.sig0.trans h.sig0, h'.namepool.trans h.namepool, h'.rdspool.trans h.rdspool⟩

end Reads

def Parser.at (s : Parser) (current scratch : ℕ) (mctx : Allocator) : Parser :=
  { s with current := current, scratch := scratch, mctx := mctx }

lemma Reads.at (s : Parser) (current scratch : ℕ) (mctx : Allocator) :
    Reads s (s.at current scratch mctx) := ⟨rfl, rfl, rfl, rfl, rfl, rfl, rfl, rfl, rfl, rfl⟩

lemma newBlock_meets (s : Parser) :
    Meets (· = s) newBlock (fun _ s' => ∃ m, s' = s.at s.current s.scratch m)
      (fun _ s' => ∃ m, s' = s.at s.current s.scratch m) := by
  apply start
  rcases hm : s.mctx.get with ⟨_ | a, m⟩
  · exact .inr ⟨.noMemory, _, by simp only [newBlock, hm, Parser.at], m, rfl⟩
  · exact .inl ⟨(), _, by simp only [newBlock, hm, Parser.at], m, rfl⟩

lemma newbuffer_meets (size : ℕ) (s : Parser) :
    Meets (· = s) (newbuffer size) (fun _ s' => ∃ m, s' = s.at s.current size m)
      (fun _ s' => ∃ m, s' = s.at s.current s.scratch m) := by
  refine (newBlock_meets s).bind fun _ => ?_
  refine modify ?_
  rintro _ ⟨m, rfl⟩
  exact ⟨m, rfl⟩

lemma getname_meets (s : Parser) : Meets (· = s) (getname base used 2)
      (fun name s' => ∃ d k m, fromwire base used true false s.current 255 = .ok d ∧
        name = d.name ∧ s' = s.at (s.current + d.cused) k m)
      (fun _ s' => ∃ k m, s' = s.at s.current k m) := by
  -- with room for the longest name one try is enough
  have hroom : ∀ t tries, (∃ k m, t = s.at s.current k m) → 255 ≤ t.scratch →
      Meets (· = t) (getname base used (tries + 1))
        (fun name s' => ∃ d k m, fromwire base used true false s.current 255 = .ok d ∧
          name = d.name ∧ s' = s.at (s.current + d.cused) k m)
        (fun _ s' => ∃ k m, s' = s.at s.current k m) := by
    rintro t tries ⟨k, m, rfl⟩ hk
    apply start
    rw [getname]
    simp only [bind_run, read_run]
    cases hd : fromwire base used true false (s.at s.current k m).current
        (s.at s.current k m).scratch with
    | ok d => exact .inl ⟨_, _, rfl, d, _, m, fromwire_room hd, rfl, rfl⟩
    | error r =>
      by_cases hr : r = .noSpace
      · subst hr
        exact absurd hd (fromwire_ne_noSpace hk)
      · exact .inr ⟨r, _, by cases r <;> first | rfl | exact absurd rfl hr, k, m, rfl⟩
  apply start
  rw [getname]
  simp only [bind_run, read_run]
  cases hd : fromwire base used true false s.current s.scratch with
  | ok d => exact .inl ⟨_, _, rfl, d, _, s.mctx, fromwire_room hd, rfl, rfl⟩
  | error r =>
    by_cases hr : r = .noSpace
    · subst hr
      rcases newbuffer_meets scratchpadSize s s rfl with ⟨_, _, hrun, m, rfl⟩ | ⟨e, _, hrun, m, rfl⟩
      · simpa [hrun] using hroom _ 0 ⟨scratchpadSize, m, rfl⟩
          (by simp [Parser.at, scratchpadSize]) _ rfl
      · exact .inr ⟨e, _, by simp only [bind_run, hrun], s.scratch, m, rfl⟩
    · exact .inr ⟨r, _, by cases r <;> first | rfl | exact absurd rfl hr, s.scratch, s.mctx, rfl⟩

variable (decode) in
def Decodes (s : Parser) (rdclass rdtype rdatalen : ℕ) (data : List UInt8) (s' : Parser) : Prop :=
  ∃ available k m, decode rdclass rdtype s.current rdatalen available = .ok data ∧
    s' = s.at (s.current + rdatalen) k m

lemma getrdataRetry_meets (rdclass rdtype rdatalen : ℕ) {trysize : ℕ} (hsize : trysize ≠ 0)
    (s : Parser) : Meets (· = s) (getrdataRetry decode rdclass rdtype rdatalen trysize)
      (Decodes decode s rdclass rdtype rdatalen) (fun _ s' => ∃ k m, s' = s.at s.current k m) := by
  induction hn : 65535 - trysize using Nat.strong_induction_on generalizing trysize s with
  | _ n ih =>
    apply start
    rw [getrdataRetry]
    rcases newbuffer_meets trysize s s rfl with ⟨_, _, hrun, m, rfl⟩ | ⟨e, _, hrun, m, rfl⟩
    · simp only [bind_run, hrun, read_run]
      cases hd : decode rdclass rdtype (s.at s.current trysize m).current rdatalen
          (s.at s.current trysize m).scratch with
      | ok data => exact .inl ⟨_, _, rfl, _, _, m, hd, rfl⟩
      | error r =>
        by_cases hr : r = .noSpace
        · subst hr
          simp only [hsize, dif_neg, not_false_eq_true]
          by_cases hbig : 65535 ≤ trysize
          · simp only [hbig, dif_pos]
            exact .inr ⟨_, _, rfl, _, m, rfl⟩
          · simp only [hbig, dif_neg, not_false_eq_true]
            exact ih (65535 - trysize * 2) (by omega) (by omega) (s.at s.current trysize m) rfl _ rfl
        · exact .inr ⟨r, _, by cases r <;> first | rfl | exact absurd rfl hr, _, m, rfl⟩
    · exact .inr ⟨e, _, by simp only [bind_run, hrun], s.scratch, m, rfl⟩

variable {s : Parser} {E : Result → Parser → Prop} {sect : Sect}

lemma getrdata_meets (rdclass rdtype : ℕ) {rdatalen : ℕ} (hlen : s.current + rdatalen ≤ used) :
    Meets (· = s) (getrdata used decode rdclass rdtype rdatalen)
      (Decodes decode s rdclass rdtype rdatalen) (fun _ s' => ∃ k m, s' = s.at s.current k m) := by
  apply start
  simp only [getrdata, bind_run, read_run, assert_run, hlen, if_true]
  cases hd : decode rdclass rdtype s.current rdatalen s.scratch with
  | ok data => exact .inl ⟨_, _, rfl, _, _, s.mctx, hd, rfl⟩
  | error r =>
    by_cases hr : r = .noSpace
    · subst hr
      refine getrdataRetry_meets rdclass rdtype rdatalen ?_ s s rfl
      split_ifs <;> simp only [scratchpadSize] at * <;> omega
    · exact .inr ⟨r, _, by cases r <;> first | rfl | exact absurd rfl hr, s.scratch, s.mctx, rfl⟩

lemma getuint16_meets (h : s.current + 2 ≤ used) :
    Meets (· = s) (getuint16 base used) (fun n s' => n = base.rd16 s.current ∧
      s' = s.at (s.current + 2) s.scratch s.mctx) E :=
  .read (.check h (.change (.pure fun _ ht => ⟨rfl, ht⟩)))

lemma getuint32_meets (h : s.current + 4 ≤ used) :
    Meets (· = s) (getuint32 base used) (fun n s' => n = base.rd32 s.current ∧
      s' = s.at (s.current + 4) s.scratch s.mctx) E :=
  .read (.check h (.change (.pure fun _ ht => ⟨rfl, ht⟩)))

lemma formErr_meets (bad seen : Bool) (s : Parser) : Meets (· = s) (formErr options bad seen)
      (fun seen' s' => s' = s ∧ seen' = (seen || bad) ∧ (options.bestEffort = false → bad = false))
      (fun _ s' => s' = s) := by
  apply start
  unfold formErr
  cases bad with
  | false => exact .inl ⟨seen, s, rfl, rfl, by simp, fun _ => rfl⟩
  | true =>
    cases hb : options.bestEffort with
    | false => exact .inr ⟨_, s, rfl, rfl⟩
    | true => exact .inl ⟨true, s, rfl, rfl, by simp, by simp⟩

lemma establishClass_reads (rdtype rdclass : ℕ) (s : Parser) :
    Reads s (establishClass rdtype rdclass s) ∧ (establishClass rdtype rdclass s).current = s.current ∧
      (establishClass rdtype rdclass s).sigstart = s.sigstart := by
  unfold establishClass
  split_ifs
  · exact ⟨⟨rfl, rfl, rfl, rfl, rfl, rfl, rfl, rfl, rfl, rfl⟩, rfl, rfl⟩
  · exact ⟨.refl s, rfl, rfl⟩

lemma markTsig_reads (rdtype recstart : ℕ) (s : Parser) :
    Reads s (markTsig rdtype recstart s) ∧ (markTsig rdtype recstart s).current = s.current ∧
      (markTsig rdtype recstart s).sigstart =
        if rdtype = tsig then some recstart else s.sigstart := by
  unfold markTsig
  split_ifs
  · exact ⟨⟨rfl, rfl, rfl, rfl, rfl, rfl, rfl, rfl, rfl, rfl⟩, rfl, rfl⟩
  · exact ⟨.refl s, rfl, rfl⟩

structure ReadsOwner (base : Mem) (used : ℕ) (options : Options) (s : Parser) (sect : Sect)
    (count : ℕ) (seen : Bool) (o : Wire × ℕ × ℕ × Bool) (s' : Parser) : Prop where
  reads : Reads s s'
  stands : ∃ d header, fromwire base used true false s.current 255 = .ok d ∧
    header = s.current + d.cused ∧ header + 10 ≤ used ∧ o.1 = d.name ∧
    o.2.1 = base.rd16 header ∧ o.2.2.1 = base.rd16 (header + 2) ∧ s'.current = header + 4
  inPlace : o.2.2.2 ∨ misplaced s sect count o.1 o.2.1 o.2.2.1 = false
  noted : seen → o.2.2.2
  strict : options.bestEffort = false → o.2.2.2 = seen
  sigstart : s'.sigstart = if o.2.1 = tsig then some s.current else s.sigstart

lemma misplaced_congr {s' : Parser} (h : Reads s s') (sect : Sect) (count : ℕ) (name : Wire)
    (rdtype rdclass : ℕ) :
    misplaced s' sect count name rdtype rdclass = misplaced s sect count name rdtype rdclass := by
  unfold misplaced
  rw [h.counts, h.opt, h.flags]

lemma readOwner_meets (s : Parser) (sect : Sect) (count : ℕ) (seen : Bool) :
    Meets (· = s) (readOwner base used options sect count seen)
      (ReadsOwner base used options s sect count seen) (fun _ s' => Reads s s') := by
  refine .read ((newBlock_meets s).seq (by rintro _ _ ⟨m, rfl⟩; exact .at ..) ?_)
  rintro _ _ ⟨m, rfl⟩
  refine (getname_meets _).seq (by rintro _ _ ⟨k, m, rfl⟩; exact .at ..) ?_
  rintro _ _ ⟨d, k, m, hd, rfl, rfl⟩
  refine .read (.ite (fun _ => .fail (by rintro _ rfl; exact .at ..)) fun hlen => ?_)
  have hheader : s.current + d.cused + 10 ≤ used := by
    simp only [Parser.at] at hlen
    omega
  refine (getuint16_meets (by simp only [Parser.at]; omega)).next ?_
  rintro _ _ ⟨rfl, rfl⟩
  refine (getuint16_meets (by simp only [Parser.at]; omega)).next ?_
  rintro _ _ ⟨rfl, rfl⟩
  refine .change (.read ?_)
  simp only [Parser.at]
  set rdtype := base.rd16 (s.current + d.cused) with htype
  set rdclass := base.rd16 (s.current + d.cused + 2) with hclass
  generalize ht : establishClass rdtype rdclass _ = t
  obtain ⟨hreads, hcurrent, hsig⟩ := ht ▸ establishClass_reads rdtype rdclass _
  replace hreads : Reads s t := (Reads.at s (s.current + d.cused + 2 + 2) k m).trans hreads
  refine (formErr_meets _ _ t).seq (by rintro _ _ rfl; exact hreads) ?_
  rintro seen1 _ ⟨rfl, rfl, hstrict1⟩
  refine (formErr_meets _ _ _).seq (by rintro _ _ rfl; exact hreads) ?_
  rintro seen2 t ⟨rfl, rfl, hstrict2⟩
  obtain ⟨hmark, hmcurrent, hmsig⟩ := markTsig_reads rdtype s.current t
  refine .change (.pure ?_)
  rintro _ rfl
  refine ⟨hreads.trans hmark, ⟨d, _, hd, rfl, hheader, rfl, rfl, rfl, hmcurrent.trans hcurrent⟩,
    ?_, ?_, ?_, ?_⟩
  · rw [← misplaced_congr hreads]
    cases misplaced t sect count d.name rdtype rdclass with
    | false => exact .inr rfl
    | true => exact .inl (by simp)
  · intro h
    simp [h]
  · intro hb
    simp [hstrict1 hb, hstrict2 hb]
  · rw [hmsig, hsig]

variable (decode) in
def RdataRead (sect : Sect) (opcode rdtype start rdatalen : ℕ) (rdata : Rdata) : Prop :=
  (rdata.update ∧ rdata.data = [] ∧ rdatalen = 0 ∧ opcode = opcodeUpdate ∧
      update sect rdata.rdclass) ∨
    (rdata.update = false ∧ ∃ c available, decode c rdtype start rdatalen available = .ok rdata.data)

lemma readRdata_meets (sect : Sect) (rdclass rdtype : ℕ) {rdatalen : ℕ}
    (hlen : s.current + rdatalen ≤ used) :
    Meets (· = s) (readRdata used decode sect rdclass rdtype rdatalen)
      (fun rdata s' => (∃ k m, s' = s.at (s.current + rdatalen) k m) ∧ rdata.rdclass = rdclass ∧
        rdata.type = rdtype ∧ RdataRead decode sect s.opcode rdtype s.current rdatalen rdata)
      (fun _ s' => Reads s s') := by
  refine (newBlock_meets s).seq (by rintro _ _ ⟨m, rfl⟩; exact .at ..) ?_
  rintro _ _ ⟨m, rfl⟩
  refine .read (.ite (fun hup => .ite (fun _ => .fail (by rintro _ rfl; exact .at ..)) fun hz => ?_)
    fun hup => ?_)
  · have hz : rdatalen = 0 := by omega
    obtain ⟨hop, hup⟩ := (Bool.and_eq_true _ _).mp hup
    refine .pure ?_
    rintro _ rfl
    exact ⟨⟨_, m, by rw [hz]; rfl⟩, rfl, rfl, .inl ⟨rfl, rfl, hz, of_decide_eq_true hop, hup⟩⟩
  · refine (getrdata_meets (s := s.at s.current s.scratch m) _ _ hlen).seq (by rintro _ _ ⟨k, m, rfl⟩; exact .at ..) ?_
    rintro data _ ⟨available, k, m, hdata, rfl⟩
    refine .pure ?_
    rintro _ rfl
    exact ⟨⟨k, m, rfl⟩, rfl, rfl, .inr ⟨rfl, _, available, hdata⟩⟩

def sigZero (rdtype : ℕ) (rdata : Rdata) : Bool := rdtype = sig && !rdata.update && rdata.covers = 0

def coveredType (rdtype : ℕ) (rdata : Rdata) : ℕ :=
  if (rdtype = rrsig || rdtype = sig) && !rdata.update then rdata.covers else 0

structure ReadsCovers (options : Options) (s : Parser) (sect : Sect) (count recstart rdtype : ℕ)
    (rdata : Rdata) (seen : Bool) (c : ℕ × Bool × Bool) (s' : Parser) : Prop where
  reads : Reads s s'
  current : s'.current = s.current
  covers : c.1 = coveredType rdtype rdata
  issigzero : c.2.1 = sigZero rdtype rdata
  inPlace : c.2.2 ∨ (c.2.1 → sect = .additional ∧ count + 1 = s.counts sect)
  noted : seen → c.2.2
  strict : options.bestEffort = false → c.2.2 = seen
  sigstart : s'.sigstart = if c.2.1 then some recstart else s.sigstart

lemma readCovers_meets (s : Parser) (sect : Sect) (count recstart rdtype : ℕ) (rdata : Rdata)
    (seen : Bool) : Meets (· = s) (readCovers options sect count recstart rdtype rdata seen)
      (ReadsCovers options s sect count recstart rdtype rdata seen) (fun _ s' => Reads s s') := by
  unfold readCovers
  refine .ite (fun hrr => ?_) fun hrr => .ite (fun hsig => .ite (fun hz => ?_) fun hz => ?_) fun hsig => ?_
  · refine (formErr_meets _ _ s).seq (by rintro _ _ rfl; exact .refl _) ?_
    rintro seen' _ ⟨rfl, rfl, hstrict⟩
    refine .pure ?_
    rintro _ rfl
    simp only [Bool.and_eq_true, decide_eq_true_eq, Bool.not_eq_true'] at hrr
    have hne : rdtype ≠ sig := by
      rw [hrr.1]
      decide
    refine ⟨.refl _, rfl, by simp [coveredType, hrr], by simp [sigZero, hne], .inr (by simp), ?_, ?_,
      by simp⟩
    · intro h
      simp [h]
    · intro hb
      have := hstrict hb
      simp only [decide_eq_false_iff_not] at this
      simp [this]
  · refine .read ((formErr_meets _ _ s).seq (by rintro _ _ rfl; exact .refl _) ?_)
    rintro seen' s ⟨rfl, rfl, hstrict⟩
    refine .change (.pure ?_)
    rintro _ rfl
    simp only [Bool.and_eq_true, decide_eq_true_eq, Bool.not_eq_true'] at hsig
    refine ⟨⟨rfl, rfl, rfl, rfl, rfl, rfl, rfl, rfl, rfl, rfl⟩, rfl, by simp [coveredType, hz],
      by simp [sigZero, hsig, hz], ?_, ?_, ?_, by simp⟩
    · by_cases hbad : sect ≠ .additional ∨ count + 1 ≠ s.counts sect
      · exact .inl (by simpa using .inr hbad)
      · exact .inr fun _ => by simpa using hbad
    · intro h
      simp [h]
    · intro hb
      simp only [hstrict hb, Bool.or_false]
  · refine .pure ?_
    rintro _ rfl
    simp only [Bool.and_eq_true, decide_eq_true_eq, Bool.not_eq_true'] at hsig
    exact ⟨.refl _, rfl, by simp [coveredType, hsig], by simp [sigZero, hz], .inr (by simp),
      fun h => h, fun _ => rfl, by simp⟩
  · refine .pure ?_
    rintro _ rfl
    simp only [Bool.and_eq_true, decide_eq_true_eq, Bool.not_eq_true', not_and] at hrr hsig
    refine ⟨.refl _, rfl, ?_, ?_, .inr (by simp), fun h => h, fun _ => rfl, by simp⟩
    · unfold coveredType
      rw [if_neg]
      simp only [Bool.and_eq_true, Bool.or_eq_true, decide_eq_true_eq, Bool.not_eq_true', not_and]
      rintro (h | h)
      · exact hrr h
      · exact hsig h
    · simp only [sigZero]
      by_cases h : rdtype = sig
      · simp [hsig h]
      · simp [h]

variable (base used decode) in
structure Stands (sect : Sect) (opcode : ℕ) (r : Rec) (header stop : ℕ) : Prop where
  name : ∃ d, fromwire base used true false r.recstart 255 = .ok d ∧
    header = r.recstart + d.cused ∧ r.name = d.name
  rdtype : r.rdtype = base.rd16 header
  rdclass : r.rdclass = base.rd16 (header + 2)
  ttl : r.ttl = base.rd32 (header + 4)
  end_eq : stop = header + 10 + base.rd16 (header + 8)
  inside : stop ≤ used
  rdata : r.rdata.rdclass = r.rdclass ∧ r.rdata.type = r.rdtype ∧
    RdataRead decode sect opcode r.rdtype (header + 10) (base.rd16 (header + 8)) r.rdata
  covers : r.covers = coveredType r.rdtype r.rdata
  issigzero : r.issigzero = sigZero r.rdtype r.rdata

lemma Stands.sigzero_type {opcode header stop : ℕ} {r : Rec}
    (h : Stands base used decode sect opcode r header stop) (hz : r.issigzero) :
    r.rdtype = sig := by
  rw [h.issigzero] at hz
  simp only [sigZero, Bool.and_eq_true] at hz
  exact of_decide_eq_true hz.1.1

structure InPlace (s : Parser) (sect : Sect) (count : ℕ) (r : Rec) : Prop where
  tsig : r.rdtype = tsig →
    sect = .additional ∧ r.rdclass = Rdataclass.any ∧ count + 1 = s.counts sect
  opt : r.rdtype = opt → rootname.equal r.name ∧ s.opt = none
  sigzero : r.issigzero → sect = .additional ∧ count + 1 = s.counts sect

variable (base used decode) in
structure ReadsRecord (options : Options) (s : Parser) (sect : Sect) (count : ℕ) (seen : Bool) (p : Rec × Bool)
    (s' : Parser) : Prop where
  reads : Reads s s'
  recstart : p.1.recstart = s.current
  stands : ∃ header, Stands base used decode sect s.opcode p.1 header s'.current
  inPlace : p.2 ∨ InPlace s sect count p.1
  noted : seen → p.2
  strict : options.bestEffort = false → p.2 = seen
  sigstart : s'.sigstart =
    if p.1.rdtype = tsig ∨ p.1.issigzero then some p.1.recstart else s.sigstart

lemma misplaced_tsig {count : ℕ} {name : Wire} {rdclass : ℕ} :
    misplaced s sect count name tsig rdclass = false ↔
      sect = .additional ∧ rdclass = Rdataclass.any ∧ count + 1 = s.counts sect := by
  simp [misplaced, and_assoc]

lemma misplaced_opt {count : ℕ} {name : Wire} {rdclass : ℕ} :
    misplaced s sect count name opt rdclass = false ↔
      rootname.equal name ∧ s.opt = none := by
  simp [misplaced, opt, tsig]

lemma readRecord_meets (s : Parser) (sect : Sect) (count : ℕ) (seen : Bool) :
    Meets (· = s) (readRecord base used decode options sect count seen)
      (ReadsRecord base used decode options s sect count seen) (fun _ s' => Reads s s') := by
  refine .read ((readOwner_meets s sect count seen).next ?_)
  rintro ⟨name, rdtype, rdclass, seen1⟩ t ⟨hreads, ⟨d, header, hd, rfl, hheader, rfl, rfl, rfl, hcur⟩,
    hplace, hnoted, hstrict, hsig⟩
  dsimp only at hplace hnoted hstrict hsig
  refine (getuint32_meets (by omega)).next ?_
  rintro _ _ ⟨rfl, rfl⟩
  refine (getuint16_meets (by simp only [Parser.at]; omega)).next ?_
  rintro _ _ ⟨rfl, rfl⟩
  have hlast : ∀ k m, Reads s (t.at (t.current + 4 + 2) k m) := fun k m => hreads.trans (.at ..)
  refine .read (.ite (fun _ => .fail (by rintro _ rfl; exact hlast ..)) fun hlen => ?_)
  simp only [Parser.at, hcur] at hlen
  refine (readRdata_meets sect _ _ ?_).seq (fun _ _ h => (hlast ..).trans h) ?_
  · simp only [Parser.at, hcur]
    omega
  rintro rdata _ ⟨⟨k, m, rfl⟩, hclass, htype, hrdata⟩
  refine (readCovers_meets _ sect count s.current _ rdata seen1).seq
    (fun _ _ h => hreads.trans ((Reads.at ..).trans h)) ?_
  rintro ⟨covers, issigzero, seen2⟩ u ⟨hureads, hucur, hcovers, hzero, huplace, hunoted, hustrict,
    husig⟩
  dsimp only at hcovers hzero huplace hunoted hustrict husig
  refine .pure ?_
  rintro u rfl
  have hstop : u.current = s.current + d.cused + 10 + base.rd16 (s.current + d.cused + 8) := by
    rw [hucur]
    simp only [Parser.at, hcur]
  refine ⟨hreads.trans ((Reads.at ..).trans hureads), rfl, ⟨s.current + d.cused, ?_⟩, ?_,
    fun h => hunoted (hnoted h), fun h => (hustrict h).trans (hstrict h), ?_⟩
  · have hbound : u.current ≤ used := by
      have : s.current + d.cused + 4 + 4 = s.current + d.cused + 8 := rfl
      rw [this] at hlen
      rw [hstop]
      omega
    exact ⟨⟨d, hd, rfl, rfl⟩, rfl, rfl, by rw [hcur], hstop, hbound,
      ⟨hclass, htype, by simpa [Parser.at, hcur, hreads.opcode] using hrdata⟩, hcovers, hzero⟩
  · rcases huplace with h | huplace
    · exact .inl h
    rcases hplace with h | hplace
    · exact .inl (hunoted h)
    refine .inr ⟨fun h => ?_, fun h => ?_, fun h => ?_⟩
    · dsimp only at h
      rw [h] at hplace
      exact misplaced_tsig.mp hplace
    · dsimp only at h
      rw [h] at hplace
      exact misplaced_opt.mp hplace
    · simpa [Parser.at, hreads.counts] using huplace h
  · rw [husig]
    simp only [Parser.at, hsig]
    by_cases hz : issigzero
    · simp [hz]
    · simp [hz]

end LbBind.Message

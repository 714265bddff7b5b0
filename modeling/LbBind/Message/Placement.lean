import LbBind.Message.Ownership

/-! Where the records of an accepted message lie. Without best-effort parsing a message is accepted
only if its TSIG or SIG(0) is the last record of the additional section and it has no more than one
OPT record, owned by the root. In which section the OPT record lies is not checked. -/

namespace LbBind.Message

open Lib Call List Rdatatype Rec

variable {base : Mem} {used : ℕ} {options : Options}
  {decode : (rdclass rdtype current rdatalen available : ℕ) → Except Result (List UInt8)}
  {n0 r0 : Multiset ℕ} {s s' : Parser} {sect : Sect} {recs : List Rec}

lemma getname_root {tries : ℕ} (hin : s.current < used) (hroot : base s.current = 0)
    (hroom : 1 ≤ s.scratch) : (getname base used (tries + 1)).run s =
      some (.ok rootname, s.at (s.current + 1) (s.scratch - 1) s.mctx) := by
  have hspell : Spells base s.current s.current (s.current + 1) [Label.root] := .root hroot
  have hd : fromwire base used true false s.current s.scratch = .ok ⟨rootname, [0], 1⟩ := by
    have hbytes : (wireOf [Label.root]).length ≤ min s.scratch 255 := by
      simp only [wireOf, Label.bytes, Label.root, flatMap_cons, flatMap_nil]
      exact le_min hroom (by decide)
    simpa [rootname, labelOffsets] using hspell.fromwire hin hbytes
  rw [getname]
  simp only [bind_run, read_run, hd]
  rfl

lemma getheader_meets {E : Result → Parser → Prop} (h : headerlen ≤ used - s.current) :
    Meets (· = s) (getheader base used)
      (fun _ s' => ∃ id opcode rcode flags counts, s' = { s with
        current := s.current + headerlen
        id := id
        opcode := opcode
        rcode := rcode
        flags := flags
        counts := counts }) E := by
  unfold headerlen at *
  refine (getuint16_meets (by omega)).next ?_
  rintro _ _ ⟨rfl, rfl⟩
  iterate 5
    refine (getuint16_meets (by simp only [Parser.at]; omega)).next ?_
    rintro _ _ ⟨rfl, rfl⟩
  refine .modify ?_
  rintro _ rfl
  exact ⟨_, _, _, _, _, rfl⟩

lemma Owned.create (namepool rdspool mctx : Allocator) (hnames : namepool.live.Nodup)
    (hrdatasets : rdspool.live.Nodup) :
    Owned namepool.live rdspool.live 0 0 (.create namepool rdspool mctx) :=
  ⟨by simp [Parser.create, Parser.names, overSections, nameCells],
    by simp [Parser.create, Parser.rdatasets, overSections, rdatasetCells], hnames, hrdatasets⟩

variable (base used decode) in
inductive Laid (sect : Sect) (opcode start : ℕ) : List Rec → ℕ → Prop
  | nil : Laid sect opcode start [] start
  | snoc {recs : List Rec} {middle header stop : ℕ} {r : Rec} :
    Laid sect opcode start recs middle → r.recstart = middle →
      Stands base used decode sect opcode r header stop →
      Laid sect opcode start (recs ++ [r]) stop

def Rec.isOpt (r : Rec) : Bool := r.rdtype = opt

def Rec.signs (r : Rec) : Bool := r.rdtype = tsig || r.issigzero

variable (base used decode) in
structure Accepted (s : Parser) (sect : Sect) (recs : List Rec) (s' : Parser) : Prop where
  counts : s'.counts = s.counts
  opcode : s'.opcode = s.opcode
  laid : Laid base used decode sect s.opcode s.current recs s'.current
  signs : ∀ i r, recs[i]? = some r → r.signs → sect = .additional ∧ i + 1 = s.counts sect
  tsig_class : ∀ r ∈ recs, r.rdtype = tsig → r.rdclass = Rdataclass.any
  opt_name : ∀ r ∈ recs, r.isOpt → rootname.equal r.name
  opt_count : s'.opt.toList.length = s.opt.toList.length + recs.countP Rec.isOpt
  tsig : s'.tsig.isSome ↔ s.tsig.isSome ∨ ∃ r ∈ recs, r.rdtype = tsig
  sig0 : s'.sig0.isSome ↔ s.sig0.isSome ∨ ∃ r ∈ recs, r.issigzero
  sigstart : ∀ r, recs.getLast? = some r → r.signs → s'.sigstart = some r.recstart

lemma Accepted.nil (s : Parser) (sect : Sect) : Accepted base used decode s sect [] s :=
  ⟨rfl, rfl, .nil, by simp, by simp, by simp, by simp, by simp, by simp, by simp⟩

lemma Accepted.snoc {t : Parser} {seen : Bool} (h : Accepted base used decode s sect recs t)
    (hr : ReadsSection base used decode options t sect recs.length seen false s') :
    ∃ r, Accepted base used decode s sect (recs ++ [r]) s' := by
  obtain ⟨r, header, hstart, hstands, hplace, hkeeps, hsig⟩ := hr.record
  replace hplace := hplace.resolve_left (by simp)
  refine ⟨r, hr.counts.trans h.counts, hr.opcode.trans h.opcode,
    .snoc h.laid hstart (h.opcode ▸ hstands), ?_, ?_, ?_, ?_, ?_, ?_, ?_⟩
  · intro i q hi hq
    rcases Nat.lt_trichotomy i recs.length with hlt | heq | hgt
    · rw [getElem?_append_left hlt] at hi
      exact h.signs i q hi hq
    · rw [heq, getElem?_concat_length, Option.some.injEq] at hi
      subst hi
      rw [heq, ← h.counts]
      simp only [Rec.signs, Bool.or_eq_true, decide_eq_true_eq] at hq
      rcases hq with hq | hq
      · exact ⟨(hplace.tsig hq).1, (hplace.tsig hq).2.2⟩
      · exact hplace.sigzero hq
    · rw [getElem?_eq_none (by rw [length_append, length_singleton]; omega)] at hi
      cases hi
  · intro q hq ht
    rcases mem_append.mp hq with hq | hq
    · exact h.tsig_class q hq ht
    · rw [mem_singleton.mp hq] at ht ⊢
      exact (hplace.tsig ht).2.1
  · intro q hq ht
    rcases mem_append.mp hq with hq | hq
    · exact h.opt_name q hq ht
    · rw [mem_singleton.mp hq] at ht ⊢
      exact (hplace.opt (of_decide_eq_true ht)).1
  · rw [countP_append, ← Nat.add_assoc, ← h.opt_count]
    by_cases ho : r.rdtype = opt
    · obtain ⟨o, hs⟩ := Option.isSome_iff_exists.mp (hkeeps.opt.mpr (.inr ho))
      simp [isOpt, ho, hs, (hplace.opt ho).2]
    · have hopt := hkeeps.opt
      simp only [ho, or_false] at hopt
      cases hs : t.opt <;> cases hs' : s'.opt <;> simp [hs, hs', isOpt, ho] at hopt ⊢
  · rw [hkeeps.tsig, h.tsig]
    simp only [mem_append, mem_singleton, or_and_right, exists_or, exists_eq_left, or_assoc]
  · rw [hkeeps.sig0, h.sig0]
    simp only [mem_append, mem_singleton, or_and_right, exists_or, exists_eq_left, or_assoc]
  · intro q hq hs
    rw [getLast?_concat, Option.some.injEq] at hq
    subst hq
    rw [hsig, if_pos (by simpa [Rec.signs] using hs)]

section
variable (h : Accepted base used decode s sect recs s')
  (hlen : sect = .additional → recs.length < s.counts sect)
include h hlen

lemma Accepted.signs_none : ∀ r ∈ recs, r.signs = false := by
  intro r hr
  obtain ⟨i, hi, rfl⟩ := mem_iff_getElem.mp hr
  rw [← Bool.not_eq_true]
  intro hs
  obtain ⟨hsect, hcount⟩ := h.signs i _ (getElem?_eq_getElem hi) hs
  have := hlen hsect
  omega

lemma Accepted.unsigned (htsig : s.tsig = none) (hsig0 : s.sig0 = none) :
    s'.tsig = none ∧ s'.sig0 = none := by
  have hnone := h.signs_none hlen
  simp only [Rec.signs, Bool.or_eq_false_iff, decide_eq_false_iff_not] at hnone
  constructor
  · rw [← Option.not_isSome_iff_eq_none, h.tsig, htsig]
    rintro (h | ⟨r, hr, ht⟩)
    · simp at h
    · exact (hnone r hr).1 ht
  · rw [← Option.not_isSome_iff_eq_none, h.sig0, hsig0]
    rintro (h | ⟨r, hr, ht⟩)
    · simp at h
    · simp [(hnone r hr).2] at ht

end

lemma room_of_unsigned {count : ℕ} {seen : Bool} (htsig : s.tsig = none) (hsig0 : s.sig0 = none) :
    Room base used decode options s sect count seen := by
  intro cell s1 r s2 rds s3 hget hread hnew hm
  obtain ⟨m, rfl⟩ := getName_run hget
  have hrec := (readRecord_meets _ sect count seen).of_run hread
  refine (keeps_of_inPlace (hrec.inPlace.resolve_left (by simp)) hrec.reads hm).resolve_right ?_
  rintro ⟨-, -, ⟨-, h⟩ | ⟨-, h⟩⟩
  · simp [hrec.reads.tsig, htsig] at h
  · simp [hrec.reads.sig0, hsig0] at h

lemma getsection_accepts (hb : options.bestEffort = false) (h : Owned n0 r0 0 0 s)
    (htsig : s.tsig = none) (hsig0 : s.sig0 = none) {n : ℕ} (hn : n ≤ s.counts sect) :
    Meets (· = s) (getsection base used decode options sect n)
      (fun seen s' => seen = false ∧ Owned n0 r0 0 0 s' ∧
        ∃ recs, recs.length = n ∧ Accepted base used decode s sect recs s')
      (fun _ s' => Owned n0 r0 0 0 s') := by
  induction n with
  | zero =>
    refine .pure ?_
    rintro s rfl
    exact ⟨rfl, h, [], rfl, .nil s sect⟩
  | succ n ih =>
    refine (ih (by omega)).next ?_
    rintro seen t ⟨rfl, hown, recs, hlen, hacc⟩
    obtain ⟨ht, h0⟩ := hacc.unsigned (fun _ => by omega) htsig hsig0
    refine (getrecord_meets hown (room_of_unsigned ht h0)).mono (fun _ h => h) ?_ fun _ _ h => h
    rintro seen u ⟨hown, hread⟩
    have hseen : seen = false := hread.strict hb
    subst hseen
    subst hlen
    obtain ⟨r, hr⟩ := hacc.snoc hread
    exact ⟨rfl, hown, _, by simp, hr⟩

structure Records where
  answer : List Rec
  authority : List Rec
  additional : List Rec

namespace Records

def all (m : Records) : List Rec := m.answer ++ m.authority ++ m.additional

variable (base used decode) in
structure OnWire (m : Records) (s : Parser) : Prop where
  lengths : m.answer.length = s.counts .answer ∧ m.authority.length = s.counts .authority ∧
    m.additional.length = s.counts .additional
  laid : ∃ p q r, Questions base used headerlen (s.counts .question) p ∧
    Laid base used decode .answer s.opcode p m.answer q ∧
    Laid base used decode .authority s.opcode q m.authority r ∧
    Laid base used decode .additional s.opcode r m.additional s.current

structure OptPlaced (m : Records) : Prop where
  one : m.all.countP Rec.isOpt ≤ 1
  name : ∀ r ∈ m.all, r.isOpt → rootname.equal r.name
  place : ∀ r ∈ m.answer ++ m.authority, r.isOpt = false

structure SignsPlaced (m : Records) : Prop where
  tsig : ∀ r ∈ m.all, r.rdtype = tsig → r.rdclass = Rdataclass.any
  last : ∀ r ∈ m.answer ++ m.authority ++ m.additional.dropLast, r.signs = false

/-- The message has a TSIG or SIG(0) only if the last record is one, and then `sigstart` is
the offset at which that record starts. -/
def SigstartRight (m : Records) (s : Parser) : Prop :=
  (s.tsig.isSome → ∃ r, m.additional.getLast? = some r ∧ r.rdtype = tsig ∧
      s.sigstart = some r.recstart) ∧
    (s.sig0.isSome → ∃ r, m.additional.getLast? = some r ∧ r.issigzero ∧
      s.sigstart = some r.recstart)

end Records

variable (base used decode) in
structure AcceptedAll (s : Parser) (m : Records) (s' : Parser) : Prop where
  lengths : m.answer.length = s.counts .answer ∧ m.authority.length = s.counts .authority ∧
    m.additional.length = s.counts .additional
  sections : ∃ t u v, Asks s t ∧ Questions base used s.current (s.counts .question) t.current ∧
    Accepted base used decode t .answer m.answer u ∧
    Accepted base used decode u .authority m.authority v ∧
    Accepted base used decode v .additional m.additional s'

lemma getsections_accepts (hb : options.bestEffort = false) (h : Owned n0 r0 0 0 s)
    (htsig : s.tsig = none) (hsig0 : s.sig0 = none) :
    Meets (· = s) (getsections base used decode options)
      (fun _ s' => Owned n0 r0 0 0 s' ∧ ∃ m, AcceptedAll base used decode s m s')
      (fun _ s' => Owned n0 r0 0 0 s') := by
  refine .read ((getquestions_meets h _).next ?_)
  rintro _ t ⟨ht, hasks, hquestions, -⟩
  have httsig : t.tsig = none := hasks.kept.tsig.trans htsig
  have htsig0 : t.sig0 = none := hasks.kept.sig0.trans hsig0
  refine (getsection_accepts hb ht httsig htsig0 (by rw [hasks.counts])).next ?_
  rintro _ u ⟨rfl, hu, answer, hanswer, hacc⟩
  obtain ⟨hutsig, husig0⟩ := hacc.unsigned (by simp) httsig htsig0
  refine (getsection_accepts hb hu hutsig husig0 ?_).next ?_
  · rw [hacc.counts, hasks.counts]
  rintro _ v ⟨rfl, hv, authority, hauthority, hacc'⟩
  obtain ⟨hvtsig, hvsig0⟩ := hacc'.unsigned (by simp) hutsig husig0
  refine (getsection_accepts hb hv hvtsig hvsig0 ?_).next ?_
  · rw [hacc'.counts, hacc.counts, hasks.counts]
  rintro _ w ⟨rfl, hw, additional, hadditional, hacc''⟩
  refine .pure ?_
  rintro w rfl
  exact ⟨hw, ⟨answer, authority, additional⟩, ⟨hanswer, hauthority, hadditional⟩,
    t, u, v, hasks, hquestions, hacc, hacc', hacc''⟩

section
variable (h : Accepted base used decode s .additional recs s')
  (hlen : recs.length = s.counts .additional)
include h hlen

lemma Accepted.getLast? {p : Rec → Prop} (hp : ∀ r, p r → r.signs) (hr : ∃ r ∈ recs, p r) :
    ∃ r, recs.getLast? = some r ∧ p r ∧ s'.sigstart = some r.recstart := by
  obtain ⟨r, hmem, hpr⟩ := hr
  obtain ⟨i, hi, rfl⟩ := mem_iff_getElem.mp hmem
  obtain ⟨-, hcount⟩ := h.signs i _ (getElem?_eq_getElem hi) (hp _ hpr)
  have hlast : recs.getLast? = some recs[i] := by
    rw [getLast?_eq_getElem?, show recs.length - 1 = i by omega, getElem?_eq_getElem hi]
  exact ⟨_, hlast, hpr, h.sigstart _ hlast (hp _ hpr)⟩

lemma Accepted.signs_dropLast : ∀ r ∈ recs.dropLast, r.signs = false := by
  intro r hr
  obtain ⟨i, hi, rfl⟩ := mem_iff_getElem.mp hr
  rw [length_dropLast] at hi
  rw [← Bool.not_eq_true, getElem_dropLast]
  intro hs
  have := (h.signs i _ (getElem?_eq_getElem (by omega)) hs).2
  omega

end

namespace AcceptedAll

variable {m : Records} (h : AcceptedAll base used decode s m s')
include h

lemma onWire (hcurrent : s.current = headerlen) : m.OnWire base used decode s' := by
  obtain ⟨hlengths, t, u, v, hasks, hquestions, hanswer, hauthority, hadditional⟩ := h
  have hcounts : s'.counts = s.counts := by
    rw [hadditional.counts, hauthority.counts, hanswer.counts, hasks.counts]
  have hu : u.opcode = s'.opcode := by rw [hadditional.opcode, hauthority.opcode]
  have ht : t.opcode = s'.opcode := by rw [← hu, hanswer.opcode]
  refine ⟨hcounts ▸ hlengths, t.current, u.current, v.current, ?_, ht ▸ hanswer.laid,
    hu ▸ hauthority.laid, hadditional.opcode ▸ hadditional.laid⟩
  rw [hcounts, ← hcurrent]
  exact hquestions

lemma opt_one (hopt : s.opt = none) : m.all.countP isOpt ≤ 1 := by
  obtain ⟨-, t, u, v, hasks, -, hanswer, hauthority, hadditional⟩ := h
  have hsum : s'.opt.toList.length = m.all.countP isOpt := by
    rw [hadditional.opt_count, hauthority.opt_count, hanswer.opt_count, hasks.kept.opt, hopt]
    simp [Records.all, Nat.add_assoc]
  rw [← hsum]
  cases s'.opt <;> simp

lemma forall_all {p : Rec → Prop}
    (hp : ∀ {t u sect recs}, Accepted base used decode t sect recs u → ∀ r ∈ recs, p r) :
    ∀ r ∈ m.all, p r := by
  obtain ⟨-, t, u, v, -, -, hanswer, hauthority, hadditional⟩ := h
  intro r hr
  simp only [Records.all, mem_append] at hr
  rcases hr with (hr | hr) | hr
  · exact hp hanswer r hr
  · exact hp hauthority r hr
  · exact hp hadditional r hr

lemma signsPlaced : m.SignsPlaced := by
  refine ⟨h.forall_all fun hacc => hacc.tsig_class, ?_⟩
  obtain ⟨hlengths, t, u, v, hasks, -, hanswer, hauthority, hadditional⟩ := h
  intro r hr
  simp only [mem_append] at hr
  rcases hr with (hr | hr) | hr
  · exact hanswer.signs_none (by simp) r hr
  · exact hauthority.signs_none (by simp) r hr
  · refine hadditional.signs_dropLast ?_ r hr
    rw [hlengths.2.2, hauthority.counts, hanswer.counts, hasks.counts]

lemma sigstartRight (htsig : s.tsig = none) (hsig0 : s.sig0 = none) : m.SigstartRight s' := by
  obtain ⟨hlengths, t, u, v, hasks, -, hanswer, hauthority, hadditional⟩ := h
  have hu := hanswer.unsigned (by simp) (hasks.kept.tsig.trans htsig) (hasks.kept.sig0.trans hsig0)
  obtain ⟨hvtsig, hvsig0⟩ := hauthority.unsigned (by simp) hu.1 hu.2
  have hlen : m.additional.length = v.counts .additional := by
    rw [hlengths.2.2, hauthority.counts, hanswer.counts, hasks.counts]
  constructor
  · intro hs
    rw [hadditional.tsig, hvtsig] at hs
    exact hadditional.getLast? hlen (fun r hr => by simp [signs, hr]) (hs.resolve_left (by simp))
  · intro hs
    rw [hadditional.sig0, hvsig0] at hs
    exact hadditional.getLast? hlen (fun r hr => by simp [signs, hr]) (hs.resolve_left (by simp))

end AcceptedAll

lemma finish_error {e : Result} (he : e ≠ .unexpectedEnd) : finish options (.error e) = fail e := by
  cases e <;> first | rfl | exact absurd rfl he

attribute [local simp] finish

lemma finish_ok {r : Except Result Bool} (h : (finish options r).run s = some (.ok (), s')) :
    r = .ok false ∧ ∃ k, s' = { s with mctx := k } := by
  match r with
  | .error e =>
    by_cases he : e = .unexpectedEnd
    · subst he
      by_cases hi : options.ignoreTruncation
      · by_cases hc : options.cloneBuffer
        · rcases newBlock_meets s s rfl with ⟨_, _, hrun, -⟩ | ⟨_, _, hrun, -⟩ <;>
            simp [hi, hc, hrun] at h
        · simp [hi, hc] at h
      · simp [hi] at h
    · rw [finish_error he] at h
      cases h
  | .ok true =>
    by_cases hc : options.cloneBuffer
    · rcases newBlock_meets s s rfl with ⟨_, _, hrun, -⟩ | ⟨_, _, hrun, -⟩ <;>
        simp [hc, hrun] at h
    · simp [hc] at h
  | .ok false =>
    refine ⟨rfl, ?_⟩
    by_cases hc : options.cloneBuffer
    · rcases newBlock_meets s s rfl with ⟨_, _, hrun, k, rfl⟩ | ⟨_, _, hrun, -⟩
      · simp only [finish, hc, if_true, bind_run, hrun] at h
        cases h
        exact ⟨k, rfl⟩
      · simp [hc, hrun] at h
    · simp only [finish, hc] at h
      cases h
      exact ⟨_, rfl⟩

lemma parse_ok (h : (parse base used decode options).run s = some (.ok (), s')) :
    headerlen ≤ used - s.current ∧ ∃ t u k, (getheader base used).run s = some (.ok (), t) ∧
      (getsections base used decode options).run t = some (.ok false, u) ∧
      s' = { u with mctx := k } := by
  by_cases hlen : used - s.current < headerlen
  · simp [parse, hlen] at h
  refine ⟨by omega, ?_⟩
  simp only [parse, bind_run, read_run, hlen, if_false] at h
  rcases hheader : (getheader base used).run s with _ | ⟨_ | _, t⟩
  · simp [hheader] at h
  · simp [hheader] at h
  simp only [hheader] at h
  rcases hsections : (getsections base used decode options).run t with _ | ⟨r, u⟩
  · simp [hsections] at h
  simp only [hsections] at h
  obtain ⟨rfl, k, rfl⟩ := finish_ok h
  exact ⟨t, u, k, rfl, hsections, rfl⟩

/-- In an accepted message the meta-records are where they belong, if and only if no OPT
record lies in the answer or authority section. -/
theorem parse_placement_iff (hb : options.bestEffort = false) {namepool rdspool mctx : Allocator}
    (hnames : namepool.live.Nodup) (hrdatasets : rdspool.live.Nodup)
    (h : (parse base used decode options).run (.create namepool rdspool mctx) = some (.ok (), s')) :
    ∃ m : Records, m.OnWire base used decode s' ∧
      ((m.OptPlaced ∧ m.SignsPlaced ∧ m.SigstartRight s') ↔
        ∀ r ∈ m.answer ++ m.authority, r.isOpt = false) := by
  obtain ⟨hlen, t, u, k, hheader, hsections, rfl⟩ := parse_ok h
  obtain ⟨id, opcode, rcode, flags, counts, ht⟩ :=
    (getheader_meets (E := fun _ _ => False) hlen).of_run hheader
  have hcreate := Owned.create namepool rdspool mctx hnames hrdatasets
  have hown : Owned namepool.live rdspool.live 0 0 t :=
    ht ▸ ⟨hcreate.names, hcreate.rdatasets, hcreate.nodup⟩
  have htsig : t.tsig = none := ht ▸ rfl
  have hsig0 : t.sig0 = none := ht ▸ rfl
  obtain ⟨-, m, hm⟩ := (getsections_accepts hb hown htsig hsig0).of_run hsections
  have hwire := hm.onWire (by rw [ht]; rfl)
  refine ⟨m, ⟨hwire.lengths, hwire.laid⟩, fun hp => hp.1.place, fun hopt => ?_⟩
  exact ⟨⟨hm.opt_one (ht ▸ rfl), hm.forall_all fun hacc => hacc.opt_name, hopt⟩, hm.signsPlaced,
    hm.sigstartRight htsig hsig0⟩

/-- A decoder that copies the rdata. -/
def copyRdata (base : Mem) (_rdclass _rdtype current rdatalen available : ℕ) :
    Except Result (List UInt8) :=
  if available < rdatalen then .error .noSpace else .ok (base.slice current rdatalen)

/-- A TSIG record with the algorithm `.`, an empty signature and no other data. -/
def tsigRecord : List UInt8 := [0, 0, 250, 0, 255, 0, 0, 0, 0, 0, 17,
    0, 0, 0, 0, 0, 0, 0, 1, 44, 0, 0, 0, 0, 0, 0, 0, 0]

/-- An OPT record and a TSIG record in the additional section. -/
def signedMessage : List UInt8 := [0, 0, 0, 0, 0, 0, 0, 0, 0, 0, 0, 2,
    0, 0, 41, 16, 0, 0, 0, 0, 0, 0, 0] ++ tsigRecord

attribute [local simp] parse headerlen getheader getsections getquestions getsection getrecord
  getName getRdataset newBlock putName Allocator.get Allocator.put Allocator.unlimited Parser.create
  Parser.at readRecord readOwner getname_root getuint16 getuint32 Mem.rd16 Mem.rd32 establishClass
  wrongClass misplaced markTsig formErr readRdata getrdata takeRdata readCovers file place
  findRdataset newRdataset keep appends Rec.isMeta onError tsig opt sig rrsig tkey
  Rdataclass.any opcodeUpdate update finish

theorem parse_placement_iff_signed :
    ∃ s', ∃ m : Records, (parse (asMem signedMessage) signedMessage.length
        (copyRdata (asMem signedMessage)) ⟨false, false, false, false⟩).run
          (.create .unlimited .unlimited .unlimited) = some (.ok (), s') ∧
      s'.opt.isSome ∧ s'.tsig.isSome ∧
      m.OnWire (asMem signedMessage) signedMessage.length (copyRdata (asMem signedMessage)) s' ∧
      ((m.OptPlaced ∧ m.SignsPlaced ∧ m.SigstartRight s') ↔
        ∀ r ∈ m.answer ++ m.authority, r.isOpt = false) := by
  have hroot : rootname.equal rootname := by decide
  have hrun : ∃ s', (parse (asMem signedMessage) signedMessage.length
      (copyRdata (asMem signedMessage)) ⟨false, false, false, false⟩).run
        (.create .unlimited .unlimited .unlimited) = some (.ok (), s') ∧
      s'.opt.isSome ∧ s'.tsig.isSome := by
    simp [signedMessage, tsigRecord, copyRdata, asMem, hroot]
  obtain ⟨s', hrun, hopt, htsig⟩ := hrun
  obtain ⟨m, hm⟩ := parse_placement_iff rfl nodup_nil nodup_nil hrun
  exact ⟨s', m, hrun, hopt, htsig, hm⟩

def optAnswer : List UInt8 := [0, 0, 0, 0, 0, 0, 0, 1, 0, 0, 0, 0,
    0, 0, 41, 16, 0, 0, 0, 0, 0, 0, 0]

/-- It is accepted. -/
theorem optAnswer_accepted :
    ∃ s', (parse (asMem optAnswer) optAnswer.length (copyRdata (asMem optAnswer))
        ⟨false, false, false, false⟩).run (.create .unlimited .unlimited .unlimited) =
          some (.ok (), s') ∧
      s'.counts .answer = 1 ∧ s'.counts .additional = 0 ∧ s'.opt.isSome := by
  have hroot : rootname.equal rootname := by decide
  simp [optAnswer, copyRdata, asMem, hroot]

end LbBind.Message

import LbBind.Message.Placement

/-! Parsing is safe without best-effort parsing. The parser ends on every source, reads only the source,
fails no assertion and loses or doubles no cell of the pools. With best-effort parsing a misplaced TSIG
or SIG(0) record is kept, and for another one that then ends an additional section in which nothing is
wrong there is no place. -/

namespace LbBind.Message

open Lib Call Rdatatype Label List

variable {base base' : Mem} {used : ℕ} {options : Options}
  {decode : (rdclass rdtype current rdatalen available : ℕ) → Except Result (List UInt8)}
  {n0 r0 : Multiset ℕ} {s : Parser}

section
variable (hbase : ∀ p, p < used → base p = base' p)
include hbase

lemma getname_congr (tries : ℕ) : getname base used tries = getname base' used tries := by
  induction tries with
  | zero => rfl
  | succ tries ih =>
    rw [getname, getname, ih]
    congr
    funext s
    rw [fromwire_congr hbase]

lemma getuint16_congr : getuint16 base used = getuint16 base' used := by
  refine ext_run fun s => ?_
  simp only [getuint16, bind_run, read_run, assert_run]
  by_cases h : s.current + 2 ≤ used
  · rw [Mem.rd16_congr fun q _ hq => hbase q (by omega)]
  · simp [h]

lemma getuint32_congr : getuint32 base used = getuint32 base' used := by
  refine ext_run fun s => ?_
  simp only [getuint32, bind_run, read_run, assert_run]
  by_cases h : s.current + 4 ≤ used
  · rw [Mem.rd32_congr fun q _ hq => hbase q (by omega)]
  · simp [h]

lemma getquestions_congr (n : ℕ) :
    getquestions base used options n = getquestions base' used options n := by
  induction n with
  | zero => rfl
  | succ n ih =>
    simp only [getquestions, getquestion, readName, ih, getname_congr hbase, getuint16_congr hbase]

lemma getsection_congr (sect : Sect) (n : ℕ) :
    getsection base used decode options sect n = getsection base' used decode options sect n := by
  induction n with
  | zero => rfl
  | succ n ih =>
    simp only [getsection, getrecord, readRecord, readOwner, ih, getname_congr hbase,
      getuint16_congr hbase, getuint32_congr hbase]

lemma parse_congr : parse base used decode options = parse base' used decode options := by
  simp only [parse, getheader, getsections, getuint16_congr hbase, getquestions_congr hbase,
    getsection_congr hbase]

end

lemma finish_meets (r : Except Result Bool) (h : Owned n0 r0 0 0 s) :
    Meets (· = s) (finish options r) (fun _ => Owned n0 r0 0 0)
      (fun _ => Owned n0 r0 0 0) := by
  -- the copy of the source, and then the rest
  have hclone : ∀ {c : Call Parser Result Unit}, Meets (Owned n0 r0 0 0) c
      (fun _ => Owned n0 r0 0 0) (fun _ => Owned n0 r0 0 0) →
      Meets (· = s) (if options.cloneBuffer then do newBlock; c else c)
        (fun _ => Owned n0 r0 0 0) (fun _ => Owned n0 r0 0 0) := by
    intro c hc
    refine .ite (fun _ => (newBlock_meets s).seq ?_ ?_) fun _ => ?_
    · rintro _ _ ⟨m, rfl⟩
      exact h.reads (.at ..)
    · rintro _ _ ⟨m, rfl⟩
      exact hc.mono (by rintro _ rfl; exact h.reads (.at ..)) (fun _ _ h => h) fun _ _ h => h
    · exact hc.mono (by rintro _ rfl; exact h) (fun _ _ h => h) fun _ _ h => h
  have hfail : ∀ e : Result, Meets (· = s) (fail e) (fun (_ : Unit) s' => Owned n0 r0 0 0 s')
      (fun _ => Owned n0 r0 0 0) := by
    intro e
    refine .fail ?_
    rintro _ rfl
    exact h
  match r with
  | .ok seen =>
    exact hclone (.ite (fun _ => .fail fun _ h => h) fun _ => .pure fun _ h => h)
  | .error e =>
    by_cases he : e = .unexpectedEnd
    · subst he
      exact .ite (fun _ => hclone (.fail fun _ h => h)) fun _ => hfail _
    · exact finish_error he ▸ hfail e

lemma parse_meets (hb : options.bestEffort = false) (h : Owned n0 r0 0 0 s) (htsig : s.tsig = none)
    (hsig0 : s.sig0 = none) :
    Meets (· = s) (parse base used decode options) (fun _ => Owned n0 r0 0 0)
      (fun _ => Owned n0 r0 0 0) := by
  refine .read (.ite (fun _ => .fail (by rintro _ rfl; exact h)) fun hlen => ?_)
  refine (getheader_meets (E := fun _ _ => False) (not_lt.mp hlen)).seq (fun _ _ h => h.elim) ?_
  rintro _ t ⟨id, opcode, rcode, flags, counts, rfl⟩
  have hsections : Meets _ (getsections base used decode options) _ _ := getsections_accepts hb
    (s := { s with current := s.current + headerlen, id, opcode, rcode, flags, counts })
    ⟨h.names, h.rdatasets, h.nodup⟩ htsig hsig0
  refine .start ?_
  rcases hsections _ rfl with ⟨seen, u, hrun, hu, -⟩ | ⟨e, u, hrun, hu⟩
  · simpa only [hrun] using finish_meets (.ok seen) hu u rfl
  · simpa only [hrun] using finish_meets (.error e) hu u rfl

/-- One TSIG record in the answer section, and one that ends the additional section. -/
def twoTsigs : List UInt8 := [0, 0, 0, 0, 0, 0, 0, 1, 0, 0, 0, 1] ++ tsigRecord ++ tsigRecord

lemma parse_bestEffort (preserveOrder ignoreTruncation cloneBuffer : Bool) :
    (parse (asMem twoTsigs) twoTsigs.length (copyRdata (asMem twoTsigs))
      ⟨preserveOrder, true, ignoreTruncation, cloneBuffer⟩).run
        (.create .unlimited .unlimited .unlimited) = none := by
  simp [parse, headerlen, getheader, getsections, getquestions, getsection, getrecord, getName,
    getRdataset, newBlock, Allocator.get, Allocator.unlimited, Parser.create, Parser.at, readRecord,
    readOwner, getname_root, getuint16, getuint32, Mem.rd16, Mem.rd32, twoTsigs, tsigRecord, asMem,
    copyRdata, establishClass,
    wrongClass, misplaced, markTsig, formErr, readRdata, getrdata, takeRdata, readCovers, file, place,
    findRdataset, newRdataset, keep, appends, Rec.isMeta, onError, tsig, opt,
    sig, rrsig, tkey, Rdataclass.any, opcodeUpdate, update]

end LbBind.Message

import LbBind.Rdataslab.Resort

/-! One reader iterating over a slab while the profiler sorts its offset table. At each step the
reader reads entry `count - remaining`. If each sort keeps the set of the entries already passed, it
obtains each record once; a sort that moves a passed record behind the cursor makes it read that
record again and miss another. -/

namespace LbBind.Rdataslab

open Lib List Rdatatype

/-- Where the reader is: before `rdataset_first`, at a record it has not read yet,
at a record it has read, or past `ISC_R_NOMORE`. -/
inductive Phase where
  | start
  | arrived
  | read
  | done
  deriving DecidableEq

structure Reader where
  rdataset : Rdataset
  phase : Phase
  obtained : List (ℕ × Rdata)
  deriving DecidableEq

def Reader.moved (r : Reader) : Result × Rdataset → Reader
  | (result, rs) => { r with
      rdataset := rs
      phase := if result = .success then .arrived else .done }

/-- The reader's next call; `none` if there is none or if it fails an assertion. -/
def Reader.call (m : Mem) (r : Reader) : Option Reader := match r.phase with
  | .start => some (r.moved (first m r.rdataset))
  | .arrived => do
    let raw ← r.rdataset.private5
    let rdata ← current m r.rdataset
    some { r with phase := .read, obtained := r.obtained ++ [(raw, rdata)] }
  | .read => some (r.moved (next m r.rdataset))
  | .done => none

structure Reading where
  slab : Mem
  reader : Reader

inductive Step : Reading → Reading → Prop
  | call {s : Reading} {r : Reader} (h : s.reader.call s.slab = some r) : Step s ⟨s.slab, r⟩
  | sort {s : Reading} (rs : Rdataset) (addrStats : List AddrStats)
      (h : (addrStats.map (·.offset)).Perm (recordStarts s.slab)) :
      Step s ⟨(sortFromrdataset s.slab rs addrStats).1, s.reader⟩

/-- The reader before its first call, with offset-table methods, at a slab whose
records are `rdatas`. -/
structure Initial (rdatas : List Rdata) (s : Reading) : Prop where
  slab : ∃ offs, WellFormed s.slab s.reader.rdataset.type rdatas offs
  methods : s.reader.rdataset.methods ≠ .rbtdb false
  phase : s.reader.phase = .start
  obtained : s.reader.obtained = []

def records (m : Mem) (type : ℕ) : List (ℕ × List UInt8) :=
  (recordStarts m).map fun s => (s, (rdataAt m type s).data)

structure EachOnce (s : Reading) : Prop where
  once : (s.reader.obtained.map fun g => (g.1, g.2.data)).Subperm
    (records s.slab s.reader.rdataset.type)
  each : s.reader.phase = .done → (s.reader.obtained.map fun g => (g.1, g.2.data)).Perm
    (records s.slab s.reader.rdataset.type)
  live : s.reader.phase ≠ .done → (s.reader.call s.slab).isSome

def passed (s : Reading) : ℕ :=
  if s.reader.phase = .start then 0 else count s.slab - s.reader.rdataset.privateuint4

def KeepsPassed (s t : Reading) : Prop :=
  ((offsetTable t.slab).take (passed s)).Perm ((offsetTable s.slab).take (passed s))

def Reader.claimed (r : Reader) : List ℕ :=
  r.obtained.map Prod.fst ++ if r.phase = .arrived then r.rdataset.private5.toList else []

def promised (s : Reading) : List ℕ := s.reader.claimed ++ (offsetTable s.slab).drop (passed s)

structure ReadingInv (rdatas : List Rdata) (s : Reading) : Prop where
  slab : ∃ offs, WellFormed s.slab s.reader.rdataset.type rdatas offs
  methods : s.reader.rdataset.methods ≠ .rbtdb false
  start : s.reader.phase = .start → s.reader.obtained = []
  cursor : s.reader.phase = .arrived ∨ s.reader.phase = .read →
    s.reader.rdataset.privateuint4 < count s.slab
  arrived : s.reader.phase = .arrived → s.reader.rdataset.private5.isSome
  done : s.reader.phase = .done → passed s = count s.slab
  data : ∀ g ∈ s.reader.obtained, g.2.data = (rdataAt s.slab s.reader.rdataset.type g.1).data
  starts : ∀ raw ∈ s.reader.claimed, raw ∈ recordStarts s.slab

section
variable {rdatas : List Rdata} {s t : Reading}

section
variable (hinv : ReadingInv rdatas s)
include hinv

attribute [local simp] Reader.moved

lemma call_cases {r : Reader} (h : s.reader.call s.slab = some r) :
    (s.reader.phase = .start ∧ count s.slab = 0 ∧ r = { s.reader with
      rdataset := { s.reader.rdataset with private5 := none }, phase := .done }) ∨
    (s.reader.phase = .start ∧ 0 < count s.slab ∧ r = { s.reader with
      rdataset := { s.reader.rdataset with
        privateuint4 := count s.slab - 1, private5 := some (s.slab.rd32 2) }
      phase := .arrived }) ∨
    (s.reader.phase = .arrived ∧ ∃ raw, s.reader.rdataset.private5 = some raw ∧ r = { s.reader with
      phase := .read
      obtained := s.reader.obtained ++ [(raw, rdataAt s.slab s.reader.rdataset.type raw)] }) ∨
    (s.reader.phase = .read ∧ s.reader.rdataset.privateuint4 = 0 ∧
      r = { s.reader with phase := .done }) ∨
    (s.reader.phase = .read ∧ 0 < s.reader.rdataset.privateuint4 ∧ r = { s.reader with
      rdataset := { s.reader.rdataset with
        privateuint4 := s.reader.rdataset.privateuint4 - 1
        private5 := some (s.slab.rd32 (2 + (count s.slab - s.reader.rdataset.privateuint4) * 4)) }
      phase := .arrived }) := by
  unfold Reader.call at h
  split at h <;> rename_i hphase
  · rw [first_of_methods hinv.methods, rdatasetFirst] at h
    split_ifs at h with hn
    · exact .inl ⟨hphase, hn, by simpa using h.symm⟩
    · exact .inr (.inl ⟨hphase, by omega, by simpa using h.symm⟩)
  · obtain ⟨raw, hraw⟩ := Option.isSome_iff_exists.mp (hinv.arrived hphase)
    rw [current_of_methods hinv.methods, rdatasetCurrent, hraw] at h
    exact .inr (.inr (.inl ⟨hphase, raw, hraw, by simpa using h.symm⟩))
  · rw [next_of_methods hinv.methods, rdatasetNext] at h
    split_ifs at h with hn
    · exact .inr (.inr (.inr (.inl ⟨hphase, hn, by simpa using h.symm⟩)))
    · exact .inr (.inr (.inr (.inr ⟨hphase, by omega, by simpa using h.symm⟩)))
  · simp at h

attribute [local simp] Reader.claimed promised

lemma call_promised {r : Reader}
    (h : s.reader.call s.slab = some r) : promised ⟨s.slab, r⟩ = promised s := by
  rcases call_cases hinv h with ⟨hp, hn, rfl⟩ | ⟨hp, hn, rfl⟩ | ⟨hp, raw, hraw, rfl⟩ |
    ⟨hp, hu, rfl⟩ | ⟨hp, hu, rfl⟩
  · simp [passed, hp, hn]
  · have hdrop := offsetTable_drop hn
    have hone : count s.slab - (count s.slab - 1) = 1 := by omega
    simp only [promised, Reader.claimed, passed, hp, hinv.start hp, hone]
    simpa using hdrop.symm
  · simp [passed, hp, hraw]
  · simp [passed, hp, hu]
  · have hcursor := hinv.cursor (.inr hp)
    have hdrop := offsetTable_drop (m := s.slab)
      (i := count s.slab - s.reader.rdataset.privateuint4) (by omega)
    have hsucc : count s.slab - (s.reader.rdataset.privateuint4 - 1) =
        count s.slab - s.reader.rdataset.privateuint4 + 1 := by omega
    simp [passed, hp, hsucc, hdrop]

lemma call_inv {r : Reader} (h : s.reader.call s.slab = some r) :
    ReadingInv rdatas ⟨s.slab, r⟩ := by
  obtain ⟨offs, hwf⟩ := hinv.slab
  have hmem : ∀ i < count s.slab, s.slab.rd32 (2 + i * 4) ∈ recordStarts s.slab := fun i hi => by
    rw [hwf.layout.recordStarts_eq, ← hwf.perm.mem_iff, ← hwf.offsetTable_eq]
    exact mem_map.mpr ⟨i, mem_range.mpr hi, rfl⟩
  have hstarts := hinv.starts
  simp only [Reader.claimed, mem_append] at hstarts
  rcases call_cases hinv h with ⟨hp, hn, rfl⟩ | ⟨hp, hn, rfl⟩ | ⟨hp, raw, hraw, rfl⟩ |
    ⟨hp, hu, rfl⟩ | ⟨hp, hu, rfl⟩
  · refine ⟨hinv.slab, hinv.methods, by simp, by simp, by simp, by simp [passed, hn], hinv.data, ?_⟩
    simp [hinv.start hp]
  · refine ⟨hinv.slab, hinv.methods, by simp, by simp; omega, by simp, by simp, hinv.data, ?_⟩
    simpa [hinv.start hp] using hmem 0 hn
  · refine ⟨hinv.slab, hinv.methods, by simp, ?_, by simp, by simp, ?_, ?_⟩
    · intro _
      exact hinv.cursor (.inl hp)
    · simpa [or_imp, forall_and] using hinv.data
    · simpa [hp, hraw] using hinv.starts
  · refine ⟨hinv.slab, hinv.methods, by simp, by simp, by simp, by simp [passed, hu], hinv.data, ?_⟩
    simpa [hp] using hinv.starts
  · have hcursor := hinv.cursor (.inr hp)
    refine ⟨hinv.slab, hinv.methods, by simp, by simp; omega, by simp, by simp, hinv.data, ?_⟩
    intro raw hraw
    simp only [Reader.claimed, if_true, Option.toList_some, mem_append, mem_singleton] at hraw
    rcases hraw with hraw | rfl
    · exact hstarts raw (.inl hraw)
    · exact hmem _ (by omega)

lemma sort_inv (rs : Rdataset) {addrStats : List AddrStats}
    (h : (addrStats.map (·.offset)).Perm (recordStarts s.slab)) :
    ReadingInv rdatas ⟨(sortFromrdataset s.slab rs addrStats).1, s.reader⟩ ∧
      recordStarts (sortFromrdataset s.slab rs addrStats).1 = recordStarts s.slab ∧
      count (sortFromrdataset s.slab rs addrStats).1 = count s.slab := by
  obtain ⟨offs, hwf⟩ := hinv.slab
  have hstarts := hwf.layout.recordStarts_eq
  have hwf' := sortFromrdataset_wellFormed hwf rs (h.trans (hstarts ▸ hwf.perm.symm))
  have hsame : recordStarts (sortFromrdataset s.slab rs addrStats).1 = recordStarts s.slab := by
    rw [hwf'.layout.recordStarts_eq, hstarts]
  have hcount : count (sortFromrdataset s.slab rs addrStats).1 = count s.slab := by
    rw [hwf'.layout.count, hwf.layout.count]
  refine ⟨⟨⟨_, hwf'⟩, hinv.methods, hinv.start, ?_, hinv.arrived, ?_, fun g hg => ?_, ?_⟩,
    hsame, hcount⟩
  · rw [hcount]
    exact hinv.cursor
  · simpa only [passed, hcount] using hinv.done
  · have hmem : g.1 ∈ offs := hwf.perm.mem_iff.mpr (hstarts ▸ hinv.starts g.1
      (mem_append_left _ (mem_map_of_mem hg)))
    rw [hinv.data g hg, hwf.data_eq hwf' hmem]
  · rw [hsame]
    exact hinv.starts

lemma step_inv (h : Step s t) : ReadingInv rdatas t := by
  cases h with
  | call h => exact call_inv hinv h
  | sort rs addrStats h => exact (sort_inv hinv rs h).1

lemma step_recordStarts (h : Step s t) : recordStarts t.slab = recordStarts s.slab := by
  cases h with
  | call h => rfl
  | sort rs addrStats h => exact (sort_inv hinv rs h).2.1

lemma ReadingInv.offsetTable_perm : (offsetTable s.slab).Perm (recordStarts s.slab) := by
  obtain ⟨offs, hwf⟩ := hinv.slab
  rw [hwf.offsetTable_eq, hwf.layout.recordStarts_eq]
  exact hwf.perm

lemma step_drop_iff (h : Step s t) :
    ((offsetTable t.slab).drop (passed s)).Perm ((offsetTable s.slab).drop (passed s)) ↔
      KeepsPassed s t := by
  have hperm : (offsetTable t.slab).Perm (offsetTable s.slab) := by
    refine (step_inv hinv h).offsetTable_perm.trans ?_
    rw [step_recordStarts hinv h]
    exact hinv.offsetTable_perm.symm
  rw [← take_append_drop (passed s) (offsetTable t.slab),
    ← take_append_drop (passed s) (offsetTable s.slab)] at hperm
  constructor
  · intro hdrop
    exact (perm_append_right_iff _).mp (hperm.trans (hdrop.symm.append_left _))
  · intro htake
    exact (perm_append_left_iff _).mp (hperm.trans (htake.symm.append_right _))

lemma step_promised_iff (h : Step s t) : (promised t).Perm (promised s) ↔ KeepsPassed s t := by
  cases h with
  | call h =>
    rw [call_promised hinv h]
    exact ⟨fun _ => .rfl, fun _ => .rfl⟩
  | sort rs addrStats h =>
    rw [← step_drop_iff hinv (.sort rs addrStats h)]
    simp only [promised, passed, (sort_inv hinv rs h).2.2]
    exact perm_append_left_iff _

lemma ReadingInv.promised_done (hdone : s.reader.phase = .done) :
    promised s = s.reader.obtained.map Prod.fst := by
  have hnil : (offsetTable s.slab).drop (passed s) = [] := by
    rw [hinv.done hdone]
    exact drop_eq_nil_of_le (by simp [offsetTable])
  simp [hdone, hnil]

lemma ReadingInv.eachOnce (h : (promised s).Perm (recordStarts s.slab)) : EachOnce s := by
  have hdata : (s.reader.obtained.map fun g => (g.1, g.2.data)) =
      (s.reader.obtained.map Prod.fst).map fun raw =>
        (raw, (rdataAt s.slab s.reader.rdataset.type raw).data) := by
    rw [map_map]
    exact map_congr_left fun g hg => by rw [hinv.data g hg]; rfl
  refine ⟨?_, fun hdone => ?_, fun hlive => ?_⟩
  · rw [hdata]
    have hsub : (s.reader.obtained.map Prod.fst).Subperm (recordStarts s.slab) := by
      refine List.Subperm.trans ?_ h.subperm
      simp only [promised, Reader.claimed, append_assoc]
      exact (sublist_append_left _ _).subperm
    obtain ⟨l, hl, hlsub⟩ := hsub
    exact ⟨l.map _, hl.map _, hlsub.map _⟩
  · rw [hdata]
    rw [hinv.promised_done hdone] at h
    exact h.map _
  · cases hp : s.reader.phase with
    | start => simp [Reader.call, hp]
    | arrived =>
      obtain ⟨raw, hraw⟩ := Option.isSome_iff_exists.mp (hinv.arrived hp)
      simp [Reader.call, hp, current_of_methods hinv.methods, rdatasetCurrent, hraw]
    | read => simp [Reader.call, hp]
    | done => exact absurd hp hlive

end

lemma Initial.inv (h : Initial rdatas s) : ReadingInv rdatas s :=
  ⟨h.slab, h.methods, fun _ => h.obtained, by simp [h.phase], by simp [h.phase], by simp [h.phase],
    by simp [h.obtained], by simp [Reader.claimed, h.phase, h.obtained]⟩

def KeepingRun : Reading → Reading → Prop :=
  Relation.ReflTransGen fun s t => Step s t ∧ KeepsPassed s t

lemma run_promised (hs : Initial rdatas s) (hrun : KeepingRun s t) :
    ReadingInv rdatas t ∧ (promised t).Perm (recordStarts t.slab) := by
  induction hrun with
  | refl =>
    refine ⟨hs.inv, ?_⟩
    simp only [promised, Reader.claimed, hs.obtained, hs.phase, passed]
    simpa using hs.inv.offsetTable_perm
  | tail _ hstep ih =>
    refine ⟨step_inv ih.1 hstep.1, ?_⟩
    rw [step_recordStarts ih.1 hstep.1]
    exact ((step_promised_iff ih.1 hstep.1).mpr hstep.2).trans ih.2

inductive CallStep : Reading → Reading → Prop
  | mk {s : Reading} {r : Reader} (h : s.reader.call s.slab = some r) : CallStep s ⟨s.slab, r⟩

lemma calls_promised (hinv : ReadingInv rdatas s) (hrun : Relation.ReflTransGen CallStep s t) :
    ReadingInv rdatas t ∧ promised t = promised s ∧ t.slab = s.slab := by
  induction hrun with
  | refl => exact ⟨hinv, rfl, rfl⟩
  | tail _ hstep ih =>
    cases hstep with
    | mk h => exact ⟨call_inv ih.1 h, (call_promised ih.1 h).trans ih.2.1, ih.2.2⟩

/-- In a run all of whose sorts keep the set of the entries passed, the reader
obtains each record once. If it finishes after one more sort, it has each record
once if and only if that sort kept them. -/
theorem keepingRun_eachOnce (hs : Initial rdatas s) (hrun : KeepingRun s t) :
    EachOnce t ∧ ∀ u v, Step t u → Relation.ReflTransGen CallStep u v →
      v.reader.phase = .done → (EachOnce v ↔ KeepsPassed t u) := by
  obtain ⟨hinv, hpromised⟩ := run_promised hs hrun
  refine ⟨hinv.eachOnce hpromised, fun u v hstep hcalls hdone => ?_⟩
  have hinvu := step_inv hinv hstep
  obtain ⟨hinvv, hsame, hslab⟩ := calls_promised hinvu hcalls
  have hstarts : recordStarts v.slab = recordStarts t.slab := by
    rw [hslab, step_recordStarts hinv hstep]
  rw [← step_promised_iff hinv hstep, ← hsame]
  constructor
  · intro heach
    have hfst := (heach.each hdone).map Prod.fst
    simp only [records, map_map, Function.comp_def, map_id'] at hfst
    rw [hinvv.promised_done hdone]
    exact (hfst.trans (.of_eq hstarts)).trans hpromised.symm
  · intro hperm
    exact hinvv.eachOnce (hperm.trans (hpromised.trans (.of_eq hstarts.symm)))

end

def twoRecords : Mem := fun q =>
  [0, 2, 0, 0, 0, 10, 0, 0, 0, 18, 0, 4, 0, 0, 10, 0, 0, 1, 0, 4, 0, 1, 10, 0, 0, 2].getD q 0

lemma twoRecords_wellFormed :
    WellFormed twoRecords 1 [⟨[10, 0, 0, 1], false⟩, ⟨[10, 0, 0, 2], false⟩] [10, 18] where
  layout := ⟨by decide, ⟨by decide, by decide⟩, ⟨by decide, by decide⟩, trivial⟩
  table := ⟨by decide, by decide⟩
  perm := by decide
  fits := by simp [Fits, metaLength, rrsig]
  small := by decide

def freshReader : Reader := ⟨tordataset 1, .start, []⟩

def exchangedStats : List AddrStats := [⟨2, 18, 0, 0, 0⟩, ⟨1, 10, 0, 0, 0⟩]

def exchangedRecords : Mem := (sortFromrdataset twoRecords (tordataset 1) exchangedStats).1

lemma freshReader_initial :
    Initial [⟨[10, 0, 0, 1], false⟩, ⟨[10, 0, 0, 2], false⟩] ⟨twoRecords, freshReader⟩ :=
  ⟨⟨_, twoRecords_wellFormed⟩, by decide, rfl, rfl⟩

def Reader.calls (m : Mem) : ℕ → Reader → Option Reader
  | 0, r => some r
  | k + 1, r => (r.call m).bind (Reader.calls m k)

lemma run_of_calls {m : Mem} {k : ℕ} {r r' : Reader} (h : r.calls m k = some r') :
    KeepingRun ⟨m, r⟩ ⟨m, r'⟩ := by
  induction k generalizing r with
  | zero =>
    obtain rfl : r = r' := by simpa [Reader.calls] using h
    exact .refl
  | succ k ih =>
    obtain ⟨r1, h1, h⟩ := Option.bind_eq_some_iff.mp h
    exact .head ⟨.call h1, .rfl⟩ (ih h)

/-- The reader has read both records when the profiler exchanges their entries. -/
def pastBoth : Reader := ⟨⟨.rdataslab, 1, false, 0, some 18⟩, .read,
  [(10, ⟨[10, 0, 0, 1], false⟩), (18, ⟨[10, 0, 0, 2], false⟩)]⟩

theorem keepingRun_eachOnce_exchanged : freshReader.calls twoRecords 4 = some pastBoth ∧
    EachOnce ⟨exchangedRecords, pastBoth⟩ ∧ ∀ u v, Step ⟨exchangedRecords, pastBoth⟩ u →
      Relation.ReflTransGen CallStep u v → v.reader.phase = .done →
      (EachOnce v ↔ KeepsPassed ⟨exchangedRecords, pastBoth⟩ u) := by
  have hread : freshReader.calls twoRecords 4 = some pastBoth := by decide +kernel
  have hkeeps : KeepsPassed ⟨twoRecords, pastBoth⟩ ⟨exchangedRecords, pastBoth⟩ := by
    rw [KeepsPassed]
    decide +kernel
  exact ⟨hread, keepingRun_eachOnce freshReader_initial ((run_of_calls hread).tail
    ⟨.sort (tordataset 1) exchangedStats (by decide), hkeeps⟩)⟩

/-- The reader arrives at the first record and reads it; then the profiler
exchanges the two entries, and the reader arrives at the first record again. -/
theorem sort_repeats_record : ∃ rdatas s t, Initial rdatas s ∧
    Relation.ReflTransGen Step s t ∧ t.reader.phase = .done ∧
    t.reader.obtained.map Prod.fst = [10, 10] ∧ recordStarts t.slab = [10, 18] ∧ ¬EachOnce t := by
  have hread : freshReader.calls twoRecords 2 = some
      ⟨⟨.rdataslab, 1, false, 1, some 10⟩, .read, [(10, ⟨[10, 0, 0, 1], false⟩)]⟩ := by decide
  have hagain : (⟨⟨.rdataslab, 1, false, 1, some 10⟩, .read,
      [(10, ⟨[10, 0, 0, 1], false⟩)]⟩ : Reader).calls exchangedRecords 3 = some
      ⟨⟨.rdataslab, 1, false, 0, some 10⟩, .done,
        [(10, ⟨[10, 0, 0, 1], false⟩), (10, ⟨[10, 0, 0, 1], false⟩)]⟩ := by decide
  have hperm : (exchangedStats.map (·.offset)).Perm (recordStarts twoRecords) := by decide
  have hsort : ∀ r, Step ⟨twoRecords, r⟩ ⟨exchangedRecords, r⟩ := fun r =>
    .sort (tordataset 1) exchangedStats hperm
  have hcalls {s t : Reading} (h : KeepingRun s t) : Relation.ReflTransGen Step s t :=
    Relation.ReflTransGen.mono (fun _ _ h => And.left h) s t h
  refine ⟨_, _, _, freshReader_initial,
    ((hcalls (run_of_calls hread)).tail (hsort _)).trans (hcalls (run_of_calls hagain)), rfl, rfl,
    by decide, fun h => ?_⟩
  exact absurd (h.each rfl) (by decide)

end LbBind.Rdataslab

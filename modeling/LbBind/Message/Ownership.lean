import Mathlib.Algebra.Order.Group.Multiset
import Mathlib.Tactic.Abel
import LbBind.Message.Reading

/-! Who owns the cells of the pools while a message is parsed. A name is linked into a
section or kept for the TSIG or SIG(0); an rdataset hangs off a name or is kept as well.
Between the two, a routine holds the cells of the record it works on. -/

namespace LbBind.Message

open List Message.Parser
open Option (isNone_iff_eq_none isSome_iff_ne_none toList_none toList_some)
open Multiset (add_cons coe_nodup cons_coe le_add_left le_add_right mem_coe nodup_of_le)
open Multiset (cons_add singleton_add coe_singleton coe_nil coe_add)
open Lib Call

variable {base : Mem} {used : ℕ} {options : Options}
  {decode : (rdclass rdtype current rdatalen available : ℕ) → Except Result (List UInt8)}
  {n0 r0 : Multiset ℕ}

def nameCells (owners : List Owner) : Multiset ℕ := owners.map Owner.cell

def rdatasetCells (owners : List Owner) : Multiset ℕ :=
  owners.flatMap fun o => o.list.map Rdataset.cell

variable (s : Parser)

def overSections (f : List Owner → Multiset ℕ) : Multiset ℕ :=
  f (s.sections .question) + f (s.sections .answer) + f (s.sections .authority) +
    f (s.sections .additional)

def Parser.names : Multiset ℕ :=
  overSections s nameCells + (s.tsig.toList.map fun k => k.1.cell : List ℕ) +
    (s.sig0.toList.map fun k => k.1.cell : List ℕ)

def Parser.rdatasets : Multiset ℕ :=
  overSections s rdatasetCells + (s.opt.toList.map Rdataset.cell : List ℕ) +
    (s.tsig.toList.map fun k => k.2.cell : List ℕ) + (s.sig0.toList.map fun k => k.2.cell : List ℕ)

structure Owned (n₀ r₀ names rdatasets : Multiset ℕ) (s : Parser) : Prop where
  names : (s.namepool.live : Multiset ℕ) = names + s.names + n₀
  rdatasets : (s.rdspool.live : Multiset ℕ) = rdatasets + s.rdatasets + r₀
  nodup : s.namepool.live.Nodup ∧ s.rdspool.live.Nodup

namespace Owned

variable {s s' : Parser} {names rdatasets : Multiset ℕ}

lemma reads (h : Owned n0 r0 names rdatasets s) (hr : Reads s s') :
    Owned n0 r0 names rdatasets s' := by
  obtain ⟨hn, hd, hnodup⟩ := h
  refine ⟨?_, ?_, ?_⟩
  · simpa [Parser.names, overSections, hr.sections, hr.tsig, hr.sig0, hr.namepool] using hn
  · simpa [Parser.rdatasets, overSections, hr.sections, hr.opt, hr.tsig, hr.sig0, hr.rdspool] using hd
  · rwa [hr.namepool, hr.rdspool]

end Owned

section
variable {s : Parser} {N R : Multiset ℕ} {cell : ℕ} {E : Result → Parser → Prop}

lemma get_live {m m' : Allocator} (hm : m.get = (some cell, m'))
    (h : (m.live : Multiset ℕ) = N + R + n0) (hnodup : m.live.Nodup) :
    (m'.live : Multiset ℕ) = cell ::ₘ N + R + n0 ∧ m'.live.Nodup := by
  obtain ⟨hfresh, hlive⟩ := Allocator.get_some hm
  rw [hlive, ← cons_coe, h, cons_add, cons_add]
  exact ⟨rfl, nodup_cons.mpr ⟨hfresh, hnodup⟩⟩

lemma getName_meets (h : Owned n0 r0 N R s) : Meets (· = s) getName
      (fun cell s' => Owned n0 r0 (cell ::ₘ N) R s' ∧ ∃ m, s' = { s with namepool := m })
      (fun _ => Owned n0 r0 N R) := by
  apply Meets.start
  rcases hm : s.namepool.get with ⟨_ | cell, m⟩
  · refine .inr ⟨.noMemory, { s with namepool := m }, by simp only [getName, hm], ?_⟩
    have hlive := Allocator.get_none hm
    exact ⟨by simpa [hlive, names, overSections] using h.names, h.rdatasets,
      by simpa [hlive] using h.nodup⟩
  · obtain ⟨hlive, hnodup⟩ := get_live hm h.names h.nodup.1
    exact .inl ⟨cell, { s with namepool := m }, by simp only [getName, hm],
      ⟨hlive, h.rdatasets, hnodup, h.nodup.2⟩, m, rfl⟩

lemma putName_meets (h : Owned n0 r0 (cell ::ₘ N) R s) : Meets (· = s) (putName cell)
      (fun _ s' => Owned n0 r0 N R s' ∧ ∃ m, s' = { s with namepool := m }) E := by
  have hlive : cell ∈ s.namepool.live := by
    rw [← mem_coe, h.names]
    simp
  refine .read (.check hlive (.modify ?_))
  rintro s rfl
  refine ⟨⟨?_, h.rdatasets, (h.nodup.1).erase _, h.nodup.2⟩, _, rfl⟩
  change ((s.namepool.live.erase cell : List ℕ) : Multiset ℕ) = _
  rw [← Multiset.coe_erase, h.names, cons_add, cons_add, Multiset.erase_cons_head]
  rfl

lemma getRdataset_meets (h : Owned n0 r0 N R s) : Meets (· = s) getRdataset
      (fun cell s' => Owned n0 r0 N (cell ::ₘ R) s' ∧ ∃ m, s' = { s with rdspool := m })
      (fun _ => Owned n0 r0 N R) := by
  apply Meets.start
  rcases hm : s.rdspool.get with ⟨_ | cell, m⟩
  · refine .inr ⟨.noMemory, { s with rdspool := m }, by simp only [getRdataset, hm], ?_⟩
    have hlive := Allocator.get_none hm
    exact ⟨h.names, by simpa [hlive, rdatasets, overSections] using h.rdatasets,
      by simpa [hlive] using h.nodup⟩
  · obtain ⟨hlive, hnodup⟩ := get_live hm h.rdatasets h.nodup.2
    exact .inl ⟨cell, { s with rdspool := m }, by simp only [getRdataset, hm],
      ⟨h.names, hlive, h.nodup.1, hnodup⟩, m, rfl⟩

lemma putRdataset_meets (h : Owned n0 r0 N (cell ::ₘ R) s) : Meets (· = s) (putRdataset cell)
      (fun _ s' => Owned n0 r0 N R s' ∧ ∃ m, s' = { s with rdspool := m }) E := by
  have hlive : cell ∈ s.rdspool.live := by
    rw [← mem_coe, h.rdatasets]
    simp
  refine .read (.check hlive (.modify ?_))
  rintro s rfl
  refine ⟨⟨h.names, ?_, h.nodup.1, (h.nodup.2).erase _⟩, _, rfl⟩
  change ((s.rdspool.live.erase cell : List ℕ) : Multiset ℕ) = _
  rw [← Multiset.coe_erase, h.rdatasets, cons_add, cons_add, Multiset.erase_cons_head]
  rfl

end

def Parser.setSection (s : Parser) (sect : Sect) (owners : List Owner) : Parser :=
  { s with sections := Function.update s.sections sect owners }

lemma overSections_setSection (s : Parser) (sect : Sect) (owners : List Owner)
    (f : List Owner → Multiset ℕ) :
    overSections (s.setSection sect owners) f + f (s.sections sect) =
      overSections s f + f owners := by
  cases sect <;> simp [overSections, setSection] <;> abel

variable {N N' R : Multiset ℕ} {s : Parser} {owners : List Owner} {f : Owner → Owner}

lemma moved {A B O O' T n : Multiset ℕ} (hn : N' + B = N + A) (ho : O' + A = O + B) :
    N + (O + T) + n = N' + (O' + T) + n := by
  refine add_right_cancel (b := A + B) ?_
  calc N + (O + T) + n + (A + B) = (N + A) + (O + B) + (T + n) := by abel
    _ = (N' + B) + (O' + A) + (T + n) := by rw [hn, ho]
    _ = N' + (O' + T) + n + (A + B) := by abel

lemma Owned.setSection {sect : Sect} {R' : Multiset ℕ}
    (h : Owned n0 r0 N R s) (hn : N' + nameCells owners = N + nameCells (s.sections sect))
    (hr : R' + rdatasetCells owners = R + rdatasetCells (s.sections sect)) :
    Owned n0 r0 N' R' (s.setSection sect owners) := by
  have hnames := overSections_setSection s sect owners nameCells
  have hrds := overSections_setSection s sect owners rdatasetCells
  refine ⟨h.names.trans ?_, h.rdatasets.trans ?_, h.nodup⟩
  · simp only [Parser.names, add_assoc (overSections _ _)]
    exact moved hn hnames
  · simp only [Parser.rdatasets, add_assoc (overSections _ _)]
    exact moved hr hrds

lemma link_meets {sect : Sect} {cell : ℕ} {name : Wire} {E : Result → Parser → Prop}
    (h : Owned n0 r0 (cell ::ₘ N) R s) : Meets (· = s) (link sect ⟨cell, name, []⟩)
      (fun _ s' => Owned n0 r0 N R s' ∧ s' = s.setSection sect (s.sections sect ++ [⟨cell, name, []⟩]))
      E := by
  refine .modify ?_
  rintro s rfl
  refine ⟨h.setSection ?_ ?_, rfl⟩
  · simp only [nameCells, map_append, map_cons, map_nil, ← coe_add, coe_singleton, ← singleton_add]
    abel
  · simp [rdatasetCells]

lemma Owned.nodup_section (h : Owned n0 r0 N R s) (sect : Sect) :
    ((s.sections sect).map Owner.cell).Nodup := by
  have hle : nameCells (s.sections sect) ≤ (s.namepool.live : Multiset ℕ) := by
    rw [h.names]
    refine le_trans ?_ (le_add_right _ _)
    refine le_trans ?_ (le_add_left _ _)
    refine le_trans ?_ (le_add_right _ _)
    refine le_trans ?_ (le_add_right _ _)
    cases sect <;> simp only [overSections] <;> first
      | exact le_add_left _ _
      | exact (le_add_left _ _).trans (le_add_right _ _)
      | exact ((le_add_left _ _).trans (le_add_right _ _)).trans
          (le_add_right _ _)
      | exact ((le_add_right _ _).trans (le_add_right _ _)).trans
          (le_add_right _ _)
  exact coe_nodup.mp (nodup_of_le hle (coe_nodup.mpr h.nodup.1))

def changed (owners : List Owner) (cell : ℕ) (f : Owner → Owner) : List Owner :=
  owners.map fun o => if o.cell = cell then f o else o

lemma nameCells_changed (owners : List Owner) (cell : ℕ)
    (hf : ∀ o, (f o).cell = o.cell) : nameCells (changed owners cell f) = nameCells owners := by
  simp only [nameCells, changed, map_map]
  congr 1
  refine map_congr_left fun o _ => ?_
  by_cases ho : o.cell = cell <;> simp [ho, hf]

lemma rdatasetCells_changed (owners : List Owner) (cell : ℕ)
    (hf : ∀ o, (f o).list.map Rdataset.cell = o.list.map Rdataset.cell) :
    rdatasetCells (changed owners cell f) = rdatasetCells owners := by
  simp only [rdatasetCells, changed, flatMap_map]
  congr 2
  funext o
  by_cases ho : o.cell = cell <;> simp [ho, hf]

lemma rdatasetCells_changed_add {cell : ℕ} (rds : Rdataset)
    (hn : (owners.map Owner.cell).Nodup) (hmem : cell ∈ owners.map Owner.cell) :
    rdatasetCells (changed owners cell fun o => { o with list := o.list ++ [rds] }) =
      rds.cell ::ₘ rdatasetCells owners := by
  induction owners with
  | nil => simp at hmem
  | cons o owners ih =>
    simp only [map_cons, nodup_cons] at hn
    by_cases ho : o.cell = cell
    · have hrest : changed owners cell (fun o => { o with list := o.list ++ [rds] }) = owners := by
        refine (map_congr_left fun o' ho' => if_neg fun heq => hn.1 ?_).trans (map_id _)
        rw [ho, ← heq]
        exact mem_map_of_mem ho'
      simp only [changed, map_cons, ho, if_true, rdatasetCells, flatMap_cons, ← coe_add] at hrest ⊢
      rw [hrest, map_append, ← coe_add, map_singleton, coe_singleton, ← singleton_add]
      abel
    · have hin : cell ∈ owners.map Owner.cell :=
        (mem_cons.mp hmem).resolve_left fun heq => ho heq.symm
      have := ih hn.2 hin
      simp only [changed, map_cons, ho, if_false, rdatasetCells, flatMap_cons, ← coe_add] at this ⊢
      rw [this, ← singleton_add, ← singleton_add]
      abel

section
variable {s : Parser} {sect : Sect} {cell : ℕ} {r : Rec} {seen : Bool} {N R : Multiset ℕ}

structure Files (s s' : Parser) : Prop where
  current : s'.current = s.current
  counts : s'.counts = s.counts
  flags : s'.flags = s.flags
  opcode : s'.opcode = s.opcode
  sigstart : s'.sigstart = s.sigstart

namespace Files

lemma refl (s : Parser) : Files s s := ⟨rfl, rfl, rfl, rfl, rfl⟩

lemma trans {t u : Parser} (h : Files s t) (h' : Files t u) : Files s u :=
  ⟨h'.current.trans h.current, h'.counts.trans h.counts, h'.flags.trans h.flags,
    h'.opcode.trans h.opcode, h'.sigstart.trans h.sigstart⟩

end Files

structure SameKept (s s' : Parser) : Prop where
  opt : s'.opt = s.opt
  tsig : s'.tsig = s.tsig
  sig0 : s'.sig0 = s.sig0

lemma place_meets (h : Owned n0 r0 (cell ::ₘ N) R s) : Meets (· = s) (place options sect cell r)
      (fun owner s' => Files s s' ∧ SameKept s s' ∧ ((r.isMeta ∧ owner = none ∧ s' = s) ∨
          (r.isMeta = false ∧ ∃ c, owner = some c ∧ Owned n0 r0 N R s' ∧
            c ∈ (s'.sections sect).map Owner.cell)))
      (fun _ => Owned n0 r0 N R) := by
  have hlink : Meets (· = s) (do link sect ⟨cell, r.name, []⟩; pure (some cell))
      (fun owner s' => Files s s' ∧ SameKept s s' ∧ ∃ c, owner = some c ∧ Owned n0 r0 N R s' ∧
        c ∈ (s'.sections sect).map Owner.cell) (fun _ => Owned n0 r0 N R) := by
    refine (link_meets h).next ?_
    rintro _ _ ⟨hown, rfl⟩
    refine .pure ?_
    rintro _ rfl
    exact ⟨⟨rfl, rfl, rfl, rfl, rfl⟩, ⟨rfl, rfl, rfl⟩, cell, rfl, hown, by simp [setSection]⟩
  refine .read (.ite (fun happ => .ite (fun hm => ?_) fun hm => ?_) fun happ => ?_)
  · refine .pure ?_
    rintro _ rfl
    exact ⟨.refl _, ⟨rfl, rfl, rfl⟩, .inl ⟨hm, rfl, rfl⟩⟩
  · exact hlink.mono (fun _ h => h)
      (fun _ _ ⟨hf, hk, h⟩ => ⟨hf, hk, .inr ⟨by simpa using hm, h⟩⟩) fun _ _ h => h
  · have hm : r.isMeta = false := by
      simp only [appends, Bool.or_eq_true, not_or] at happ
      simpa using happ.2
    cases hfind : findname r.name (s.sections sect) with
    | none =>
      exact hlink.mono (fun _ h => h) (fun _ _ ⟨hf, hk, h⟩ => ⟨hf, hk, .inr ⟨hm, h⟩⟩) fun _ _ h => h
    | some o =>
      refine (putName_meets h).next ?_
      rintro _ _ ⟨hown, m, rfl⟩
      refine .pure ?_
      rintro _ rfl
      have ho : o ∈ s.sections sect := mem_reverse.mp (mem_of_find?_eq_some hfind)
      exact ⟨⟨rfl, rfl, rfl, rfl, rfl⟩, ⟨rfl, rfl, rfl⟩,
        .inr ⟨hm, o.cell, rfl, hown, mem_map_of_mem ho⟩⟩

variable {E : Result → Parser → Prop} {rds : Rdataset}

lemma findRdataset_meta (owner : Option ℕ) (hm : r.isMeta) :
    Meets (· = s) (findRdataset options sect owner r seen)
      (fun p s' => p = (none, seen) ∧ s' = s) E := by
  refine .start (.inl ⟨(none, seen), s, ?_, rfl, rfl⟩)
  simp [findRdataset, appends, hm]

lemma findRdataset_meets (owner : Option ℕ) :
    Meets (· = s) (findRdataset options sect owner r seen)
      (fun p s' => s' = s ∧ (seen → p.2) ∧ (options.bestEffort = false → p.2 = seen))
      (fun _ s' => s' = s) := by
  refine .read (.ite (fun happ => ?_) fun happ => ?_)
  · refine .pure ?_
    rintro _ rfl
    exact ⟨rfl, fun h => h, fun _ => rfl⟩
  · refine (formErr_meets _ _ s).next ?_
    rintro seen1 _ ⟨rfl, rfl, hstrict1⟩
    refine (formErr_meets _ _ _).next ?_
    rintro seen2 s ⟨rfl, rfl, hstrict2⟩
    refine .pure ?_
    rintro s rfl
    refine ⟨rfl, fun h => by simp [h], fun hb => ?_⟩
    simp only [hstrict1 hb, hstrict2 hb, Bool.or_false]

lemma newRdataset_meets (h : Owned n0 r0 N R s) : Meets (· = s) (newRdataset r)
      (fun rds s' => Owned n0 r0 N (rds.cell ::ₘ R) s' ∧ Files s s' ∧ SameKept s s' ∧
        s'.sections = s.sections) (fun _ => Owned n0 r0 N R) := by
  refine (getRdataset_meets h).next ?_
  rintro c _ ⟨hown, m, rfl⟩
  have hblock : Meets (· = { s with rdspool := m }) (newBlock.onError (putRdataset c))
      (fun _ s' => Owned n0 r0 N (c ::ₘ R) s' ∧ Reads { s with rdspool := m } s' ∧
        s'.current = s.current ∧ s'.sigstart = s.sigstart) (fun _ => Owned n0 r0 N R) := by
    refine Meets.onError (E := fun _ s' => Owned n0 r0 N (c ::ₘ R) s')
      ((newBlock_meets _).mono (fun _ h => h) ?_ ?_) fun e => ?_
    · rintro _ _ ⟨k, rfl⟩
      exact ⟨hown.reads (.at ..), .at .., rfl, rfl⟩
    · rintro _ _ ⟨k, rfl⟩
      exact hown.reads (.at ..)
    · intro t ht
      exact ((putRdataset_meets ht).mono (fun _ h => h) (fun _ _ h => h.1) fun _ _ h => h) t rfl
  refine hblock.next ?_
  rintro _ t ⟨hown, hreads, hcur, hsig⟩
  refine .pure ?_
  rintro t rfl
  exact ⟨hown, ⟨hcur, hreads.counts, hreads.flags, hreads.opcode, hsig⟩,
    ⟨hreads.opt, hreads.tsig, hreads.sig0⟩, hreads.sections⟩

def Keeps (s : Parser) (r : Rec) : Prop :=
  (r.rdtype = Rdatatype.opt ∧ s.opt = none) ∨ (r.issigzero ∧ s.sig0 = none) ∨
    (r.rdtype = Rdatatype.tsig ∧ s.tsig = none)

structure KeepsRecord (s : Parser) (r : Rec) (s' : Parser) : Prop where
  opt : s'.opt.isSome ↔ s.opt.isSome ∨ r.rdtype = Rdatatype.opt
  tsig : s'.tsig.isSome ↔ s.tsig.isSome ∨ r.rdtype = Rdatatype.tsig
  sig0 : s'.sig0.isSome ↔ s.sig0.isSome ∨ r.issigzero

lemma KeepsRecord.of_same {s' : Parser} (h : SameKept s s') (hm : r.isMeta = false) :
    KeepsRecord s r s' := by
  simp only [Rec.isMeta, Bool.or_eq_false_iff, decide_eq_false_iff_not] at hm
  obtain ⟨⟨hts, hopt⟩, hz⟩ := hm
  refine ⟨?_, ?_, ?_⟩
  · simp [h.opt, hopt]
  · simp [h.tsig, hts]
  · simp [h.sig0, hz]

lemma Owned.keep_opt {rcode : ℕ} (h : Owned n0 r0 N (rds.cell ::ₘ R) s)
    (hopt : s.opt = none) : Owned n0 r0 N R { s with opt := some rds, rcode := rcode } := by
  refine ⟨h.names, h.rdatasets.trans ?_, h.nodup⟩
  simp only [Parser.rdatasets, overSections, hopt, toList_none, toList_some, map_nil, map_cons,
    coe_nil, coe_singleton, ← singleton_add]
  abel

section
variable (h : Owned n0 r0 (cell ::ₘ N) (rds.cell ::ₘ R) s)
include h

lemma Owned.keep_signature {name : Wire} :
    (s.sig0 = none → Owned n0 r0 N R { s with sig0 := some (⟨cell, name, []⟩, rds) }) ∧
      (s.tsig = none → Owned n0 r0 N R { s with tsig := some (⟨cell, name, []⟩, rds) }) := by
  constructor <;> intro hsig <;> refine ⟨h.names.trans ?_, h.rdatasets.trans ?_, h.nodup⟩
  all_goals
    simp only [Parser.names, Parser.rdatasets, overSections, hsig, toList_none, toList_some,
      map_nil, map_cons, coe_nil, coe_singleton, ← singleton_add]
    abel

lemma keep_meets (hz : r.issigzero → r.rdtype = Rdatatype.sig)
    (hok : seen ∨ Keeps s r) : Meets (· = s) (keep cell r rds seen)
      (fun _ s' => Owned n0 r0 N R s' ∧ Files s s' ∧ KeepsRecord s r s') E := by
  have hopt_tsig : Rdatatype.opt ≠ Rdatatype.tsig := by decide
  have hsig_tsig : Rdatatype.sig ≠ Rdatatype.tsig := by decide
  have hsig_opt : Rdatatype.sig ≠ Rdatatype.opt := by decide
  refine .read (.ite (fun hopt => ?_) fun hopt => .ite (fun hsig => ?_) fun hsig =>
    .ite (fun hts => ?_) fun hts => .ite (fun hseen => ?_) fun hseen => ?_)
  · simp only [Bool.and_eq_true, decide_eq_true_eq, isNone_iff_eq_none] at hopt
    refine .change ((putName_meets (h.keep_opt hopt.2)).mono (fun _ h => h) ?_ fun _ _ h => h)
    rintro _ _ ⟨hown, m, rfl⟩
    refine ⟨hown, ⟨rfl, rfl, rfl, rfl, rfl⟩, by simp [hopt], by simp [hopt, hopt_tsig], ?_⟩
    simp only [iff_self_or]
    exact fun h => absurd (hz h) (by rw [hopt.1]; exact hsig_opt.symm)
  · simp only [Bool.and_eq_true, isNone_iff_eq_none] at hsig
    refine .modify ?_
    rintro s rfl
    have htype := hz hsig.1
    exact ⟨h.keep_signature.1 hsig.2, ⟨rfl, rfl, rfl, rfl, rfl⟩, by simp [htype, hsig_opt],
      by simp [htype, hsig_tsig], by simp [hsig]⟩
  · simp only [Bool.and_eq_true, decide_eq_true_eq, isNone_iff_eq_none] at hts
    refine .modify ?_
    rintro s rfl
    refine ⟨h.keep_signature.2 hts.2, ⟨rfl, rfl, rfl, rfl, rfl⟩, by simp [hts, hopt_tsig.symm],
      by simp [hts], ?_⟩
    simp only [iff_self_or]
    exact fun h => absurd (hz h) (by rw [hts.1]; exact hsig_tsig.symm)
  · -- nothing is kept: the message has such a record already
    refine (putName_meets h).next ?_
    rintro _ _ ⟨hown, m, rfl⟩
    refine (putRdataset_meets hown).mono (fun _ h => h) ?_ fun _ _ h => h
    rintro _ _ ⟨hown, m, rfl⟩
    simp only [Bool.and_eq_true, decide_eq_true_eq, isNone_iff_eq_none, not_and,
      ← isSome_iff_ne_none] at hopt hsig hts
    exact ⟨hown, ⟨rfl, rfl, rfl, rfl, rfl⟩, by simpa using hopt, by simpa using hts,
      by simpa using hsig⟩
  · simp only [Bool.and_eq_true, decide_eq_true_eq, isNone_iff_eq_none, not_and] at hopt hsig hts
    rcases hok with hok | ⟨ht, hn⟩ | ⟨ht, hn⟩ | ⟨ht, hn⟩
    · exact absurd hok hseen
    · exact absurd hn (hopt ht)
    · exact absurd hn (hsig ht)
    · exact absurd hn (hts ht)

end

lemma file_meets (h : Owned n0 r0 (cell ::ₘ N) R s) (hz : r.issigzero → r.rdtype = Rdatatype.sig)
    (hok : r.isMeta → ∀ rds s', (newRdataset r).run s = some (.ok rds, s') → seen ∨ Keeps s r) :
    Meets (· = s) (file options sect cell r seen)
      (fun seen' s' => Owned n0 r0 N R s' ∧ Files s s' ∧ KeepsRecord s r s' ∧
        (seen → seen') ∧ (options.bestEffort = false → seen' = seen))
      (fun _ => Owned n0 r0 N R) := by
  refine (place_meets h).next ?_
  rintro owner t ⟨hfiles, hkept, ⟨hm, rfl, rfl⟩ | ⟨hm, c, rfl, hown, hc⟩⟩
  · refine (findRdataset_meta none hm (E := fun _ _ => False)).seq (fun _ _ h => h.elim) ?_
    rintro _ t ⟨rfl, rfl⟩
    have hnew : Meets (· = t) ((newRdataset r).onError (putName cell))
        (fun rds s' => (Owned n0 r0 (cell ::ₘ N) (rds.cell ::ₘ R) s' ∧ Files t s' ∧ SameKept t s' ∧
          s'.sections = t.sections) ∧ (newRdataset r).run t = some (.ok rds, s'))
        (fun _ => Owned n0 r0 N R) := by
      refine (newRdataset_meets h).with_run.onError fun e => ?_
      intro u hu
      exact ((putName_meets hu).mono (fun _ h => h) (fun _ _ h => h.1) fun _ _ h => h) u rfl
    refine hnew.next ?_
    rintro rds u ⟨⟨hown, hf, hk, -⟩, hrun⟩
    have hplace : seen ∨ Keeps u r := by
      have := hok hm rds u hrun
      simpa only [Keeps, hk.opt, hk.tsig, hk.sig0] using this
    have hadd : Owned n0 r0 (cell ::ₘ N) ((rds.add r.ttl r.rdata).cell ::ₘ R) u := hown
    refine (keep_meets hadd hz hplace (E := fun _ _ => False)).seq (fun _ _ h => h.elim) ?_
    rintro _ v ⟨hown, hf', hkeep⟩
    refine .pure ?_
    rintro v rfl
    refine ⟨hown, hf.trans hf', ?_, fun h => h, fun _ => rfl⟩
    exact ⟨by rw [hkeep.opt, hk.opt], by rw [hkeep.tsig, hk.tsig], by rw [hkeep.sig0, hk.sig0]⟩
  · refine (findRdataset_meets (some c)).seq (by rintro _ _ rfl; exact hown) ?_
    rintro ⟨found, seen'⟩ t ⟨rfl, hnoted, hstrict⟩
    cases found with
    | none =>
      refine (newRdataset_meets hown).next ?_
      rintro rds u ⟨hown', hf, hk, hsections⟩
      refine .change (.pure ?_)
      rintro _ rfl
      have hadd := rdatasetCells_changed_add (rds.add r.ttl r.rdata) (hown.nodup_section sect) hc
      refine ⟨?_, hfiles.trans (hf.trans ⟨rfl, rfl, rfl, rfl, rfl⟩), .of_same ?_ hm, hnoted, hstrict⟩
      · refine hown'.setSection ?_ ?_
        · exact congrArg (N + ·) (nameCells_changed _ c fun _ => rfl)
        · have hcell : (rds.add r.ttl r.rdata).cell = rds.cell := rfl
          rw [hsections]
          refine (congrArg (R + ·) hadd).trans ?_
          rw [hcell, add_cons, cons_add]
      · exact ⟨hk.opt.trans hkept.opt, hk.tsig.trans hkept.tsig, hk.sig0.trans hkept.sig0⟩
    | some found =>
      refine .change (.pure ?_)
      rintro _ rfl
      refine ⟨?_, hfiles.trans ⟨rfl, rfl, rfl, rfl, rfl⟩, .of_same ?_ hm, hnoted, hstrict⟩
      swap
      · exact ⟨hkept.opt, hkept.tsig, hkept.sig0⟩
      refine hown.setSection ?_ ?_
      · exact congrArg (N + ·) (nameCells_changed _ c fun _ => rfl)
      · refine congrArg (R + ·) (rdatasetCells_changed _ c fun o => ?_)
        rw [map_map]
        refine map_congr_left fun rds _ => ?_
        by_cases hfound : rds.cell = found <;> simp [hfound, Rdataset.add]

end

section
variable {s : Parser} {sect : Sect} {count : ℕ} {seen : Bool}

variable (base used decode) in
structure ReadsSection (options : Options) (s : Parser) (sect : Sect) (count : ℕ) (seen : Bool) (seen' : Bool)
    (s' : Parser) : Prop where
  counts : s'.counts = s.counts
  flags : s'.flags = s.flags
  opcode : s'.opcode = s.opcode
  record : ∃ r header, r.recstart = s.current ∧
    Stands base used decode sect s.opcode r header s'.current ∧
    (seen' ∨ InPlace s sect count r) ∧ KeepsRecord s r s' ∧ s'.sigstart =
      if r.rdtype = Rdatatype.tsig ∨ r.issigzero then some r.recstart else s.sigstart
  noted : seen → seen'
  strict : options.bestEffort = false → seen' = seen

variable (base used decode) in
/-- The last record of the additional section does not find its place taken. -/
def Room (options : Options) (s : Parser) (sect : Sect) (count : ℕ) (seen : Bool) : Prop :=
  ∀ cell s₁ r s₂ rds s₃, getName.run s = some (.ok cell, s₁) →
    (readRecord base used decode options sect count seen).run s₁ = some (.ok (r, false), s₂) →
    (newRdataset r).run s₂ = some (.ok rds, s₃) → r.isMeta → Keeps s₂ r

lemma getrecord_meets (h : Owned n0 r0 0 0 s)
    (hroom : Room base used decode options s sect count seen) :
    Meets (· = s) (getrecord base used decode options sect count seen)
      (fun seen' s' => Owned n0 r0 0 0 s' ∧
        ReadsSection base used decode options s sect count seen seen' s')
      (fun _ => Owned n0 r0 0 0) := by
  refine (getName_meets h).with_run.next ?_
  rintro cell _ ⟨⟨hown, m, rfl⟩, hget⟩
  have hread : Meets (· = { s with namepool := m })
      ((readRecord base used decode options sect count seen).onError (putName cell))
      (fun p s' => ReadsRecord base used decode options { s with namepool := m } sect count seen p s' ∧
        (readRecord base used decode options sect count seen).run { s with namepool := m } =
          some (.ok p, s'))
      (fun _ => Owned n0 r0 0 0) := by
    refine (readRecord_meets _ sect count seen).with_run.onError fun e => ?_
    intro u hu
    exact ((putName_meets (hown.reads hu)).mono (fun _ h => h) (fun _ _ h => h.1) fun _ _ h => h) u rfl
  refine hread.next ?_
  rintro ⟨r, seen1⟩ t ⟨hrec, hrun⟩
  obtain ⟨header, hstands⟩ := hrec.stands
  refine (file_meets (hown.reads hrec.reads) hstands.sigzero_type ?_).mono (fun _ h => h) ?_ fun _ _ h => h
  · intro hm rds s' hnew
    cases seen1 with
    | true => exact .inl rfl
    | false => exact .inr (hroom cell _ r t rds s' hget hrun hnew hm)
  · rintro seen2 u ⟨hown, hf, hk, hnoted, hstrict⟩
    have hreads := hrec.reads
    refine ⟨hown, hf.counts.trans hreads.counts, hf.flags.trans hreads.flags,
      hf.opcode.trans hreads.opcode,
      ⟨r, header, hrec.recstart, hf.current.symm ▸ hstands, ?_, ?_, ?_⟩,
      fun h => hnoted (hrec.noted h), fun h => (hstrict h).trans (hrec.strict h)⟩
    · rcases hrec.inPlace with h | h
      · exact .inl (hnoted h)
      · exact .inr ⟨h.tsig, h.opt, h.sigzero⟩
    · exact ⟨by rw [hk.opt, hreads.opt], by rw [hk.tsig, hreads.tsig], by rw [hk.sig0, hreads.sig0]⟩
    · rw [hf.sigstart, hrec.sigstart]

def Taken (s : Parser) (r : Rec) : Prop := (r.rdtype = Rdatatype.tsig ∧ s.tsig.isSome) ∨
    (r.issigzero ∧ s.sig0.isSome)

lemma keeps_of_inPlace {r : Rec} {s' : Parser} (hp : InPlace s sect count r) (hr : Reads s s')
    (hm : r.isMeta) : Keeps s' r ∨ (sect = .additional ∧ count + 1 = s.counts sect ∧
      Taken s' r) := by
  simp only [Rec.isMeta, Bool.or_eq_true, decide_eq_true_eq] at hm
  rcases hm with (hm | hm) | hm
  · obtain ⟨hsect, -, hcount⟩ := hp.tsig hm
    cases ht : s'.tsig with
    | none => exact .inl (.inr (.inr ⟨hm, ht⟩))
    | some k => exact .inr ⟨hsect, hcount, .inl ⟨hm, by simp [ht]⟩⟩
  · exact .inl (.inl ⟨hm, hr.opt.trans (hp.opt hm).2⟩)
  · obtain ⟨hsect, hcount⟩ := hp.sigzero hm
    cases ht : s'.sig0 with
    | none => exact .inl (.inr (.inl ⟨hm, ht⟩))
    | some k => exact .inr ⟨hsect, hcount, .inr ⟨hm, by simp [ht]⟩⟩

lemma getName_run {cell : ℕ} {s1 : Parser} (h : getName.run s = some (.ok cell, s1)) :
    ∃ m, s1 = { s with namepool := m } := by
  simp only [getName] at h
  rcases hm : s.namepool.get with ⟨_ | c, m⟩
  · simp only [hm] at h
    cases h
  · simp only [hm] at h
    cases h
    exact ⟨m, rfl⟩

end

variable {s : Parser} {cell : ℕ} {name : Wire} {seen : Bool} {N R : Multiset ℕ}

structure Asks (s s' : Parser) : Prop where
  counts : s'.counts = s.counts
  flags : s'.flags = s.flags
  opcode : s'.opcode = s.opcode
  sigstart : s'.sigstart = s.sigstart
  kept : SameKept s s'

namespace Asks

lemma refl (s : Parser) : Asks s s := ⟨rfl, rfl, rfl, rfl, ⟨rfl, rfl, rfl⟩⟩

lemma trans {t u : Parser} (h : Asks s t) (h' : Asks t u) : Asks s u :=
  ⟨h'.counts.trans h.counts, h'.flags.trans h.flags, h'.opcode.trans h.opcode,
    h'.sigstart.trans h.sigstart, h'.kept.opt.trans h.kept.opt, h'.kept.tsig.trans h.kept.tsig,
    h'.kept.sig0.trans h.kept.sig0⟩

end Asks

lemma readName_meets (h : Owned n0 r0 (cell ::ₘ N) R s) : Meets (· = s) (readName base used cell)
      (fun _ s' => ∃ d k m, fromwire base used true false s.current 255 = .ok d ∧
        s' = s.at (s.current + d.cused) k m) (fun _ => Owned n0 r0 N R) := by
  have hname : Meets (· = s) (do newBlock; getname base used 2)
      (fun _ s' => ∃ d k m, fromwire base used true false s.current 255 = .ok d ∧
        s' = s.at (s.current + d.cused) k m) (fun _ s' => ∃ p k m, s' = s.at p k m) := by
    refine (newBlock_meets s).seq (by rintro _ _ ⟨m, rfl⟩; exact ⟨_, _, m, rfl⟩) ?_
    rintro _ _ ⟨m, rfl⟩
    refine (getname_meets _).mono (fun _ h => h) ?_ ?_
    · rintro _ _ ⟨d, k, m, hd, -, rfl⟩
      exact ⟨d, k, m, hd, rfl⟩
    · rintro _ _ ⟨k, m, rfl⟩
      exact ⟨_, k, m, rfl⟩
  refine hname.onError fun e => ?_
  rintro u ⟨p, k, m, rfl⟩
  exact ((putName_meets (h.reads (.at ..))).mono (fun _ h => h) (fun _ _ h => h.1) fun _ _ h => h) _ rfl

lemma questionName_meets (h : Owned n0 r0 (cell ::ₘ N) R s) :
    Meets (· = s) (questionName options cell name seen)
      (fun p s' => Owned n0 r0 N R s' ∧ Asks s s' ∧ s'.current = s.current ∧
        p.1 ∈ (s'.sections .question).map Owner.cell ∧ (options.bestEffort = false → p.2 = seen))
      (fun _ => Owned n0 r0 N R) := by
  refine .read ?_
  cases hfind : findname name (s.sections .question) with
  | some o =>
    refine (putName_meets h).next ?_
    rintro _ _ ⟨hown, m, rfl⟩
    refine .pure ?_
    rintro _ rfl
    have ho : o ∈ s.sections .question := mem_reverse.mp (mem_of_find?_eq_some hfind)
    exact ⟨hown, ⟨rfl, rfl, rfl, rfl, ⟨rfl, rfl, rfl⟩⟩, rfl, mem_map_of_mem ho, fun _ => rfl⟩
  | none =>
    have herr : Meets (· = s) ((formErr options (decide (s.sections .question ≠ [])) seen).onError
        (putName cell)) (fun seen' s' => s' = s ∧ (options.bestEffort = false → seen' = seen))
        (fun _ => Owned n0 r0 N R) := by
      refine Meets.onError (E := fun _ s' => s' = s) ((formErr_meets _ _ s).mono (fun _ h => h) ?_
        fun _ _ h => h) fun e => ?_
      · rintro _ _ ⟨rfl, rfl, hstrict⟩
        refine ⟨rfl, fun hb => ?_⟩
        rw [hstrict hb, Bool.or_false]
      · exact (putName_meets h).mono (fun _ h => h) (fun _ _ h => h.1) fun _ _ h => h
    refine herr.next ?_
    rintro seen' s ⟨rfl, hstrict⟩
    refine (link_meets h).next ?_
    rintro _ _ ⟨hown, rfl⟩
    refine .pure ?_
    rintro _ rfl
    exact ⟨hown, ⟨rfl, rfl, rfl, rfl, ⟨rfl, rfl, rfl⟩⟩, rfl, by simp [setSection], hstrict⟩

def Question (base : Mem) (used start stop : ℕ) : Prop :=
  ∃ d, fromwire base used true false start 255 = .ok d ∧ stop = start + d.cused + 4 ∧ stop ≤ used

lemma getquestion_meets (h : Owned n0 r0 0 0 s) :
    Meets (· = s) (getquestion base used options seen)
      (fun seen' s' => Owned n0 r0 0 0 s' ∧ Asks s s' ∧ Question base used s.current s'.current ∧
        (options.bestEffort = false → seen' = seen))
      (fun _ => Owned n0 r0 0 0) := by
  refine (getName_meets h).next ?_
  rintro cell _ ⟨hown, m, rfl⟩
  refine (readName_meets hown).next ?_
  rintro name _ ⟨d, k, m', hd, rfl⟩
  refine (questionName_meets (hown.reads (.at ..))).next ?_
  rintro ⟨owner, seen1⟩ t ⟨hown, hasks, hcur, hmem, hstrict1⟩
  dsimp only at hmem hstrict1
  have hstart : Asks s (({ s with namepool := m } : Parser).at (s.current + d.cused) k m') :=
    ⟨rfl, rfl, rfl, rfl, ⟨rfl, rfl, rfl⟩⟩
  replace hcur : t.current = s.current + d.cused := hcur
  replace hasks := hstart.trans hasks
  refine .read (.ite (fun _ => .fail (by rintro _ rfl; exact hown)) fun hlen => ?_)
  refine (getuint16_meets (by omega)).next ?_
  rintro _ _ ⟨rfl, rfl⟩
  refine (getuint16_meets (by simp only [Parser.at]; omega)).next ?_
  rintro _ _ ⟨rfl, rfl⟩
  simp only [Parser.at]
  set t' : Parser := { t with current := t.current + 2 + 2 }
  have ht : Reads t t' := ⟨rfl, rfl, rfl, rfl, rfl, rfl, rfl, rfl, rfl, rfl⟩
  refine .read (Meets.seq (E := fun _ s' => s' = t')
    (Q := fun seen' s' => Reads t s' ∧ s'.sigstart = t.sigstart ∧ s'.current = t.current + 4 ∧
      (options.bestEffort = false → seen' = seen)) ?_ (by rintro _ _ rfl; exact hown.reads ht) ?_)
  · refine .ite (fun _ => (formErr_meets _ _ t').mono (fun _ h => h) ?_ fun _ _ h => h) fun _ =>
      .change (.pure ?_)
    · rintro _ _ ⟨rfl, rfl, hstrict⟩
      exact ⟨ht, rfl, rfl, fun hb => by rw [hstrict hb, Bool.or_false, hstrict1 hb]⟩
    · rintro _ rfl
      exact ⟨⟨rfl, rfl, rfl, rfl, rfl, rfl, rfl, rfl, rfl, rfl⟩, rfl, rfl, hstrict1⟩
  rintro seen2 u ⟨hreads, hsig, hucur, hstrict2⟩
  refine .read ((formErr_meets _ _ u).seq (by rintro _ _ rfl; exact hown.reads hreads) ?_)
  rintro seen3 u ⟨rfl, rfl, hstrict3⟩
  refine (newBlock_meets u).seq
    (by rintro _ _ ⟨m, rfl⟩; exact hown.reads (hreads.trans (.at ..))) ?_
  rintro _ _ ⟨m, rfl⟩
  refine (getRdataset_meets (hown.reads (hreads.trans (.at ..)))).next ?_
  rintro rds _ ⟨hown', m, rfl⟩
  refine .change (.pure ?_)
  rintro _ rfl
  refine ⟨?_, hasks.trans ⟨hreads.counts, hreads.flags, hreads.opcode, hsig,
    ⟨hreads.opt, hreads.tsig, hreads.sig0⟩⟩, ⟨d, hd, ?_, ?_⟩,
    fun hb => by rw [hstrict3 hb, Bool.or_false, hstrict2 hb]⟩
  rotate_left
  · exact hucur.trans (congrArg (· + 4) hcur)
  · exact hucur.trans_le (by omega)
  refine Owned.setSection hown' ?_ ?_
  · exact congrArg (0 + ·) (nameCells_changed _ owner fun _ => rfl)
  · have hnodup := (hown.reads hreads).nodup_section .question
    rw [← hreads.sections] at hmem
    refine (congrArg (0 + ·) (rdatasetCells_changed_add _ hnodup hmem)).trans ?_
    rw [add_cons, cons_add]
    rfl

def Questions (base : Mem) (used start : ℕ) : ℕ → ℕ → Prop
  | 0, stop => stop = start
  | n + 1, stop => ∃ middle, Questions base used start n middle ∧ Question base used middle stop

lemma getquestions_meets (h : Owned n0 r0 0 0 s) (n : ℕ) :
    Meets (· = s) (getquestions base used options n)
      (fun seen s' => Owned n0 r0 0 0 s' ∧ Asks s s' ∧ Questions base used s.current n s'.current ∧
        (options.bestEffort = false → seen = false))
      (fun _ => Owned n0 r0 0 0) := by
  induction n with
  | zero =>
    refine .pure ?_
    rintro s rfl
    exact ⟨h, .refl s, rfl, fun _ => rfl⟩
  | succ n ih =>
    refine ih.next ?_
    rintro seen t ⟨hown, hasks, hqs, hstrict⟩
    refine (getquestion_meets hown).mono (fun _ h => h) ?_ fun _ _ h => h
    rintro _ u ⟨hown, hasks', hq, hstrict'⟩
    exact ⟨hown, hasks.trans hasks', ⟨_, hqs, hq⟩, fun hb => (hstrict' hb).trans (hstrict hb)⟩

end LbBind.Message

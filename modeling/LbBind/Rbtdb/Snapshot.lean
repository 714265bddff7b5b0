import LbBind.Rbtdb.Writer

/-! Every open version shows what the ledger says, at any point of any history: a lookup
is answered from the writes of the committed versions up to its own, and later calls do
not change the answers of a reader. -/

namespace LbBind.Rbtdb

open List Option Ledger Db Node

variable {ν δ : Type*} [DecidableEq ν] {ops : SlabOps δ} {db db' : Db ν δ} {l : Ledger ν δ}

lemma Sound.load (h : db.Loaded) :
    Sound ops db ⟨fun n => (db.nodes n).view db.current.serial, [], none⟩ := by
  obtain ⟨hserial, hrecords⟩ := h.current
  obtain ⟨holder, hfuture, hcleanups⟩ := h.alone
  obtain ⟨hleast, hnext⟩ := h.serials
  have hopen : db.openVersions = [db.current] := by rw [openVersions, holder]
  have hchain : ∀ n t, (db.nodes n).chain t = [] ∨
      ∃ k : Header δ, (db.nodes n).chain t = [k] ∧ k.serial = 1 := by
    intro n t
    unfold chain
    cases hf : (db.nodes n).data.find? fun c => c.top.type = t with
    | none => exact .inl rfl
    | some c =>
      obtain ⟨hdown, hs, -⟩ := h.headers n c (mem_of_find?_eq_some hf)
      exact .inr ⟨c.top, by simp [Chain.headers, hdown], hs⟩
  have hmem : ∀ n t, ∀ k ∈ (db.nodes n).chain t, k.serial = 1 := by
    intro n t k hk
    rcases hchain n t with hnil | ⟨k', hk', hs⟩
    · simp [hnil] at hk
    · rw [hk', mem_singleton] at hk
      rw [hk, hs]
  have hnosup : ∀ n s, ¬(db.nodes n).Supersedes s := by
    rintro n s ⟨t, k, g, hsub, -⟩
    rcases hchain n t with hnil | ⟨k', hk', -⟩
    · simp [hnil] at hsub
    · have := hsub.length_le
      simp [hk'] at this
  refine ⟨⟨⟨?_, ?_, ?_, ?_⟩, ?_, ?_, ?_, ?_, ?_⟩, fun n => ⟨h.nodes n, ?_, ?_, ?_, ?_, ?_⟩, ?_, ?_, ?_⟩
  · simp [hopen]
  · simp [hopen, hleast, hserial]
  · simp [hopen, hleast, hserial]
  · simp [hopen, hrecords]
  · rw [hnext]
    decide
  · simp [Db.Issued, hnext, hserial]
  · simp [hfuture]
  · simp [hcleanups]
  · simp [Db.RollsBack, hcleanups]
  · intro t k hk
    simp [Db.Issued, hnext, hmem n t k hk]
  · simp [hfuture]
  · intro t k hk _
    exact .inl (by rw [hmem n t k hk, hserial])
  · simp [records, hopen, hfuture, hcleanups, changedNodes, hrecords]
  · exact fun s hs => absurd hs (hnosup n s)
  · simp
  · simp [hfuture]
  · rintro s (⟨v, hv, rfl⟩ | ⟨f, hf, -⟩) n t
    · rw [hopen, mem_singleton] at hv
      simp [hv, contents]
    · simp [hfuture] at hf

omit [DecidableEq ν] in
lemma newversion_require {memory : Bool} {r : Result} (h : db.newversion memory = some (r, db')) :
    db.future = none ∧ db.nextSerial ≠ 0 := by
  rw [Db.newversion] at h
  split at h
  · cases h
  · rename_i hrequire
    simpa using hrequire

lemma Sound.call (h : Sound ops db l) {op : Op ν δ} {r : Result} (hallowed : op.Allowed db)
    (hrun : op.run ops db = some (r, db')) : Sound ops db' (l.next op db db') := by
  cases op with
  | currentversion =>
    cases hrun
    exact h.currentversion
  | attachversion serial =>
    cases hrun
    exact h.attachversion serial
  | newversion memory =>
    obtain ⟨hfuture, hnext⟩ := newversion_require hrun
    simp only [Op.run, Db.newversion, hfuture, isSome_none, hnext, decide_false, Bool.or_false,
      Bool.false_eq_true, if_false] at hrun
    split at hrun
    · cases hrun
      exact h.newversion hallowed hfuture hnext
    · cases hrun
      simpa [Ledger.next, hfuture] using h
  | closeversion serial commit =>
    obtain ⟨db1, hclose, heq⟩ := map_eq_some_iff.mp hrun
    cases heq
    exact h.closeversion hclose
  | cleanup c =>
    cases hrun
    exact h.cleanup hallowed
  | attachnode n =>
    cases hrun
    exact h.attachnode
  | detachnode n =>
    cases hrun
    exact h.detachnode hallowed
  | addrdataset n type rdataset options early memory =>
    simp only [Op.run, Db.addrdataset] at hrun
    cases early with
    | some e =>
      cases hrun
      exact h
    | none =>
      cases memory with
      | false => exact h.noMemory hrun
      | true =>
        refine h.change (fun serial node hw hnew hsame => ?_) hrun
        exact (add_changes hw hallowed hnew hsame (some rdataset) options).flagged _
  | subtractrdataset n type rdataset exact early memory headerMemory =>
    simp only [Op.run, Db.subtractrdataset] at hrun
    cases early with
    | some e =>
      cases hrun
      exact h
    | none =>
      cases memory with
      | false => exact h.noMemory hrun
      | true =>
        refine h.change (fun serial node hw hnew hsame => ?_) hrun
        exact subtract_changes hw hallowed hnew hsame rdataset exact headerMemory
  | deleterdataset n type headerMemory memory =>
    simp only [Op.run, Db.deleterdataset] at hrun
    split at hrun
    · rename_i hmeta
      cases hrun
      cases headerMemory <;> cases memory <;> simpa [Ledger.next, Op.write, hmeta] using h
    · rename_i hmeta
      cases headerMemory with
      | false =>
        cases hrun
        exact h
      | true =>
        simp only [Bool.not_true, Bool.false_eq_true, if_false] at hrun
        cases memory with
        | false => exact h.noMemory hrun
        | true =>
          simp only [Ledger.next, Op.write, hmeta, Bool.false_eq_true, if_false]
          refine h.change (fun serial node hw hnew hsame => ?_) hrun
          exact add_changes hw hallowed hnew hsame none _

lemma History.sound (h : History ops db l) : Sound ops db l := by
  induction h with
  | load hloaded => exact Sound.load hloaded
  | call op _ hallowed hrun ih => exact ih.call hallowed hrun

lemma Sound.contents_next (h : Sound ops db l) {op : Op ν δ} {r : Result}
    (hrun : op.run ops db = some (r, db')) {v : Version ν} (hv : v ∈ db.openVersions) :
    (l.next op db db').contents ops v.serial = l.contents ops v.serial := by
  have hle := h.numbered.le_current hv
  have hwriter : ∀ t, l.writer = some t → v.serial < t.serial := by
    intro t ht
    have hw := h.writer
    rw [ht] at hw
    obtain ⟨f, hf, hfs⟩ := map_eq_some_iff.mp hw.symm
    exact hle.trans_lt ((h.numbered.future f hf).1.trans_le hfs.le)
  have hwrite : ∀ w : Write ν δ, (l.write w).contents ops v.serial = l.contents ops v.serial := by
    intro w
    cases ht : l.writer with
    | none => simp [contents, write, ht]
    | some t => exact contents_write_of_lt ht (hwriter t ht) w
  cases op with
  | newversion memory =>
    have hnone : l.writer = none := by simpa [(newversion_require hrun).1] using h.writer
    simp only [Ledger.next]
    split
    · exact contents_start hnone _ _
    · rfl
  | closeversion serial commit =>
    simp only [Ledger.next]
    split
    · cases commit with
      | true => exact contents_commit _
      | false =>
        cases ht : l.writer with
        | none => simp [contents, close, ht]
        | some t => exact contents_rollback ht (hwriter t ht)
    · rfl
  | addrdataset | subtractrdataset | deleterdataset =>
    simp only [Ledger.next]
    split
    · exact hwrite _
    · rfl
  | currentversion | attachversion | cleanup | attachnode | detachnode => rfl

/-- A lookup in an open version answers what the writes of the committed versions up to
it, and its own, come to; and no call changes what a reader's version answers. -/
theorem history_lookup (h : History ops db l) : (∀ s, db.Open s → ∀ n type covers,
      zoneFindrdataset (db.nodes n) s type covers = answer (l.contents ops s n) type covers) ∧
    ∀ v ∈ db.openVersions, ∀ (op : Op ν δ) r db', op.Allowed db →
      op.run ops db = some (r, db') → db'.Open v.serial → ∀ n type covers,
        zoneFindrdataset (db'.nodes n) v.serial type covers =
          zoneFindrdataset (db.nodes n) v.serial type covers := by
  have hanswers : ∀ {db : Db ν δ} {l : Ledger ν δ}, Sound ops db l → ∀ s, db.Open s →
      ∀ n type covers,
        zoneFindrdataset (db.nodes n) s type covers = answer (l.contents ops s n) type covers := by
    intro db l hsound s hs n type covers
    rw [zoneFindrdataset_eq_answer (hsound.nodes n).wf, funext (hsound.shows s hs n)]
  refine ⟨hanswers h.sound, ?_⟩
  intro v hv op r db' hallowed hrun hopen n type covers
  rw [hanswers (h.sound.call hallowed hrun) _ hopen, hanswers h.sound _ (.inl ⟨v, hv, rfl⟩),
    h.sound.contents_next hrun hv]

/-- The results that report a change of what is visible. -/
def Op.Done : Op ν δ → Result → Prop
  | .addrdataset .., r | .deleterdataset .., r => r = .success ∨ r = .cnameAndOther
  | .subtractrdataset .., r => r = .success ∨ r = .nxrrset
  | _, _ => True

lemma Db.data_change {f : ℕ → Node δ → Change δ} {m : ν} {memory : Bool} {r : Result}
    {P : Result → Prop} (hf : ∀ serial node, (f serial node).node = node ∨ P (f serial node).result)
    (hrun : db.change m memory f = some (r, db')) (hr : ¬P r) (n : ν) :
    (db'.nodes n).data = (db.nodes n).data := by
  unfold change at hrun
  cases hv : db.future with
  | none => simp [hv] at hrun
  | some v =>
    cases memory with
    | false =>
      simp only [hv, Bool.false_eq_true, if_false] at hrun
      cases hrun
      rfl
    | true =>
      simp only [hv, if_true] at hrun
      cases hrun
      by_cases hn : n = m
      · subst hn
        simp only [Function.update_self, (hf _ _).resolve_right hr]
      · simp only [Function.update_of_ne hn]

/-- A write with another result leaves what is visible as it was, in every version. -/
theorem lookup_of_failed {op : Op ν δ} {r : Result} (hrun : op.run ops db = some (r, db'))
    (hfailed : ¬op.Done r) (n : ν) (serial type covers : ℕ) :
    zoneFindrdataset (db'.nodes n) serial type covers =
      zoneFindrdataset (db.nodes n) serial type covers := by
  have hdata : (db'.nodes n).data = (db.nodes n).data := by
    cases op with
    | currentversion | attachversion | newversion | closeversion | cleanup | attachnode
    | detachnode => exact absurd trivial hfailed
    | addrdataset m type rdataset options early memory =>
      simp only [Op.run, addrdataset] at hrun
      cases early with
      | some e => cases hrun; rfl
      | none =>
        refine data_change (fun serial node => ?_) hrun hfailed n
        rw [flagged]
        split_ifs with hdone
        · exact .inr (.inl (by simp_all))
        · exact add_result node _ _
    | subtractrdataset m type rdataset exact early memory headerMemory =>
      simp only [Op.run, subtractrdataset] at hrun
      cases early with
      | some e => cases hrun; rfl
      | none =>
        exact data_change (fun _ node => node.subtract_result ..) hrun hfailed n
    | deleterdataset m type headerMemory memory =>
      simp only [Op.run, deleterdataset] at hrun
      split_ifs at hrun
      · cases hrun; rfl
      · cases hrun; rfl
      · exact data_change (fun _ node => node.add_result ..) hrun hfailed n
  simp only [zoneFindrdataset, hdata]

section

def addingOps : SlabOps ℕ := ⟨fun _ _ _ old new => .ok (old + new), fun _ _ _ _ => .error .nxrrset⟩

def addressDb : Db Unit ℕ where
  current := ⟨1, 1, false, []⟩
  older := []
  future := none
  leastSerial := 1
  nextSerial := 2
  nodes _ := ⟨[⟨⟨⟨1, 0⟩, 1, false, some ⟨60, 0, none, 7⟩⟩, []⟩], false, 0, false⟩
  cleanups := []
  origin := ()
  stub := false

def openedDb : Db Unit ℕ := ((addressDb.newversion true).map Prod.snd).getD addressDb

def subtracting (type : ℕ) (exact : Bool) : Op Unit ℕ :=
  .subtractrdataset () ⟨type, 0⟩ ⟨60, 0, none, 7⟩ exact none true true

theorem lookup_of_failed_exact : ∃ db',
    (subtracting 2 true).run addingOps openedDb = some (.notExact, db') ∧
      zoneFindrdataset (db'.nodes ()) 2 1 0 = zoneFindrdataset (openedDb.nodes ()) 2 1 0 := by
  obtain ⟨db', hrun⟩ : ∃ db', (subtracting 2 true).run addingOps openedDb = some (.notExact, db') :=
    ⟨_, rfl⟩
  refine ⟨db', hrun, lookup_of_failed hrun ?_ () 2 1 0⟩
  rintro (h | h) <;> cases h

/-- All records are subtracted. -/
theorem lookup_of_nxrrset : zoneFindrdataset (openedDb.nodes ()) 2 1 0 ≠ (.notFound, none, none) ∧
    ((subtracting 1 false).run addingOps openedDb).map
      (fun p => (p.1, zoneFindrdataset (p.2.nodes ()) 2 1 0)) =
        some (.nxrrset, .notFound, none, none) := by
  decide +kernel

/-- A reader holds the version that was loaded, the rdataset is replaced in the next one,
and a deletion is rolled back. -/
def replacing : List (Op Unit ℕ) := [.currentversion, .newversion true,
    .addrdataset () ⟨1, 0⟩ ⟨30, 0, none, 8⟩ ⟨false, false, false⟩ none true, .closeversion 2 true,
    .newversion true, .deleterdataset () ⟨1, 0⟩ true true, .closeversion 3 false,
    .cleanup ⟨(), some 3, 1⟩]

def replaced : Option (Db Unit ℕ × Ledger Unit ℕ) := Op.runs addingOps replacing addressDb
    ⟨fun n => (addressDb.nodes n).view addressDb.current.serial, [], none⟩

lemma addressDb_loaded : addressDb.Loaded := by
  refine ⟨⟨rfl, rfl⟩, ⟨rfl, rfl, rfl⟩, ⟨rfl, rfl⟩, fun n => ?_, by simp [addressDb]⟩
  refine ⟨by simp [addressDb], by simp [addressDb, Typepair.zero, Rdatatype.none],
    by simp [addressDb], fun t => ?_, fun t => ?_⟩
  all_goals by_cases ht : (⟨1, 0⟩ : Typepair) = t <;> simp [chain, addressDb, ht, Chain.headers]

theorem history_lookup_replaced : ∃ state, replaced = some state ∧
    zoneFindrdataset (state.1.nodes ()) 1 1 0 = (.success, some ⟨60, 0, none, 7⟩, none) ∧
    zoneFindrdataset (state.1.nodes ()) 2 1 0 = (.success, some ⟨30, 0, none, 8⟩, none) := by
  obtain ⟨state, hstate⟩ := isSome_iff_exists.mp (by decide +kernel : replaced.isSome)
  have hlookup := (history_lookup ((History.load addressDb_loaded).runs hstate)).1
  have hopen : replaced.map (fun st => st.1.openVersions.map (·.serial)) = some [2, 1] := by
    decide +kernel
  have hanswer : replaced.map (fun st => [1, 2].map fun s => answer (st.2.contents addingOps s ()) 1 0) =
      some [(.success, some ⟨60, 0, none, 7⟩, none), (.success, some ⟨30, 0, none, 8⟩, none)] := by
    decide +kernel
  simp only [hstate, map_some, some.injEq, map_cons, map_nil, cons.injEq, and_true] at hopen hanswer
  have hmem : ∀ s ∈ [2, 1], state.1.Open s := by
    rw [← hopen]
    exact fun s hs => .inl (mem_map.mp hs)
  refine ⟨state, hstate, ?_, ?_⟩
  · rw [hlookup 1 (hmem 1 (by simp)), hanswer.1]
  · rw [hlookup 2 (hmem 2 (by simp)), hanswer.2]

end

omit [DecidableEq ν] in
lemma closeOlder_isSome {least : ℕ} {v w : Version ν} {vs : List (Version ν)}
    (h : Ordered least (v :: vs)) (hw : w ∈ vs) : (closeOlder least w.serial v vs).isSome := by
  induction vs generalizing v with
  | nil => cases hw
  | cons u vs ih =>
    have hlt : u.serial < v.serial := (pairwise_cons.mp h.sorted).1 u (by simp)
    have hdone := h.done u (by simp)
    rw [closeOlder]
    split_ifs with hserial href
    · rfl
    · rw [unlink, if_neg (not_not.mpr hlt)]
      split_ifs with hleast hchanged
      · exact absurd (hdone hleast) hchanged
      · rfl
      · rfl
    · rw [isSome_map]
      exact ih h.tail ((mem_cons.mp hw).resolve_left fun heq => hserial (heq ▸ rfl))

/-- In every history a version that is held can be closed: no assertion about the versions and
their changed records fails. -/
theorem history_closeversion (h : History ops db l) (commit : Bool) :
    (∀ v ∈ db.older, (db.closeversion v.serial commit).isSome) ∧
      (1 < db.current.references → (db.closeversion db.current.serial commit).isSome) ∧
      ∀ f ∈ db.future, f.references = 1 → (commit → f.commitOk) →
        (db.closeversion f.serial commit).isSome := by
  have hn := h.sound.numbered
  -- the version that is written is newer than the others
  have hreader (v) (hv : v ∈ db.openVersions) :
      db.closeversion v.serial commit = db.closeReader v.serial := by
    rw [closeversion]
    cases hfuture : db.future with
    | none => rfl
    | some f => exact if_neg ((hn.le_current hv).trans_lt (hn.future f hfuture).1).ne'
  refine ⟨fun v hv => ?_, fun href => ?_, fun f hf href hok => ?_⟩
  · have hlt := (pairwise_cons.mp hn.ordered.sorted).1 v hv
    rw [hreader v (.tail _ hv), closeReader, if_neg hlt.ne', isSome_map]
    exact closeOlder_isSome hn.ordered hv
  · rw [hreader _ (.head _), closeReader, if_pos rfl, if_pos href]
    rfl
  · have hdone := hn.ordered.done db.current (.head _)
    simp only [closeversion, mem_def.mp hf, if_true, closeWriter, href, lt_irrefl, if_false]
    split_ifs with hcommit
    · rw [Db.commit]
      split_ifs <;> simp_all
    · rfl

theorem history_closeversion_replaced : ∃ state, replaced = some state ∧
    ∀ v ∈ state.1.older, (state.1.closeversion v.serial false).isSome := by
  obtain ⟨state, hstate⟩ := isSome_iff_exists.mp (by decide +kernel : replaced.isSome)
  exact ⟨state, hstate,
    (history_closeversion ((History.load addressDb_loaded).runs hstate) false).1⟩

/-- In every history each changed record, also one that is still to be cleaned up, has a reference
to its node, so that a cleanup step drops a reference that is there. -/
theorem history_references (h : History ops db l) :
    (∀ n, db.records n ≤ (db.nodes n).references) ∧
      ∀ c ∈ db.cleanups, 0 < (db.nodes c.node).references := by
  have hle (n) := (h.sound.nodes n).references
  refine ⟨hle, fun c hc => lt_of_lt_of_le ?_ (hle c.node)⟩
  have hcount : 0 < (db.cleanups.map (·.node)).count c.node :=
    count_pos_iff.mpr (mem_map_of_mem hc)
  rw [records]
  omega

/-- The rollback is still to be cleaned up. -/
def rolledBack : Option (Db Unit ℕ × Ledger Unit ℕ) := Op.runs addingOps replacing.dropLast addressDb
    ⟨fun n => (addressDb.nodes n).view addressDb.current.serial, [], none⟩

theorem history_references_rolledBack : ∃ state, rolledBack = some state ∧
    state.1.records () = 2 ∧ state.1.records () ≤ (state.1.nodes ()).references ∧
    state.1.cleanups = [⟨(), some 3, 1⟩] ∧ 0 < (state.1.nodes ()).references := by
  obtain ⟨state, hstate⟩ := isSome_iff_exists.mp (by decide +kernel : rolledBack.isSome)
  have hcount : rolledBack.map (fun st => (st.1.records (), st.1.cleanups)) =
      some (2, [⟨(), some 3, 1⟩]) := by decide +kernel
  obtain ⟨hrecords, hcleanups⟩ : state.1.records () = 2 ∧ state.1.cleanups = [⟨(), some 3, 1⟩] := by
    simpa [hstate] using hcount
  have hle := history_references ((History.load addressDb_loaded).runs hstate)
  exact ⟨state, hstate, hrecords, hle.1 (), hcleanups,
    hle.2 ⟨(), some 3, 1⟩ (by rw [hcleanups]; simp)⟩

end LbBind.Rbtdb

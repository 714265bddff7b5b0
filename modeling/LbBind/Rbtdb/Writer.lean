import LbBind.Rbtdb.Invariant

/-! The calls of the writer keep the invariant: a new version shows what the current one
shows, a write changes the view of its own version only, a commit passes the changed
records on, and a rollback leaves them for the cleanup. -/

namespace LbBind.Rbtdb

open List Function Ledger Db Node Header Nat Version

variable {ν δ : Type*}

section
variable [DecidableEq ν] {ops : SlabOps δ} {l : Ledger ν δ}

attribute [local simp] contents

lemma Ledger.contents_start (hwriter : l.writer = none) (serial s : ℕ) :
    (l.start serial).contents ops s = l.contents ops s := by
  by_cases hs : serial ≤ s <;> simp [start, hwriter, hs]

variable {s : ℕ} {t : Transaction ν δ}

lemma Ledger.contents_eq_of_le (hwriter : l.writer = none) {s' : ℕ}
    (hcommitted : ∀ t ∈ l.committed, t.serial ≤ s) (hs : s ≤ s') :
    l.contents ops s' = l.contents ops s := by
  have hall : ∀ u, s ≤ u → l.committed.filter (·.serial ≤ u) = l.committed := by
    intro u hu
    rw [filter_eq_self]
    intro t ht
    exact decide_eq_true ((hcommitted t ht).trans hu)
  simp only [contents, hwriter, Option.toList_none, append_nil]
  rw [hall s le_rfl, hall s' hs]

variable (hwriter : l.writer = some t)
include hwriter

lemma Ledger.contents_of_lt (hs : s < t.serial) : l.contents ops s =
      ((l.committed.filter (·.serial ≤ s)).flatMap (·.writes)).foldl (Write.apply ops) l.loaded := by
  have : ¬t.serial ≤ s := by omega
  simp [hwriter, this]

lemma Ledger.contents_write_of_lt
    (hs : s < t.serial) (w : Write ν δ) : (l.write w).contents ops s = l.contents ops s := by
  have hwriter' : (l.write w).writer = some { t with writes := t.writes ++ [w] } := by
    simp [write, hwriter]
  rw [contents_of_lt hwriter hs, contents_of_lt hwriter' hs]
  rfl

lemma Ledger.contents_write (w : Write ν δ) :
    (l.write w).contents ops t.serial = w.apply ops (l.contents ops t.serial) := by
  simp [write, hwriter]

omit hwriter in
lemma Ledger.contents_commit (s : ℕ) : (l.close true).contents ops s = l.contents ops s := by
  simp [close]

lemma Ledger.contents_rollback
    (hs : s < t.serial) : (l.close false).contents ops s = l.contents ops s := by
  rw [contents_of_lt hwriter hs]
  simp [close]

end

lemma seen_eq_of_le {s s' : ℕ} (hs : s ≤ s') (headers : List (Header δ))
    (hlive : ∀ h ∈ headers, h.ignore = false → h.serial ≤ s) :
    seen s' headers = seen s headers := by
  unfold seen
  rw [find?_congr]
  intro h hh
  cases hi : h.ignore with
  | true => simp [activeIn, hi]
  | false =>
    have := hlive h hh hi
    have : h.serial ≤ s' := by omega
    simp [activeIn, *]

variable [DecidableEq ν] {ops : SlabOps δ} {db db' : Db ν δ} {l : Ledger ν δ} {v : Version ν}

lemma Sound.newversion (h : Sound ops db l) (hallowed : ∀ c ∈ db.cleanups, c.rollback = none)
    (hfuture : db.future = none) (hnext : db.nextSerial ≠ 0) : Sound ops { db with
      future := some ⟨db.nextSerial, 1, true, []⟩
      nextSerial := (db.nextSerial + 1) % serialSize } (l.start db.nextSerial) := by
  have hnum := h.numbered
  have hnorolls : ∀ n s, ¬db.RollsBack n s := by
    rintro n s ⟨c, hc, -, hs⟩
    simp [hallowed c hc] at hs
  have hwriter : l.writer = none := by simpa [hfuture] using h.writer
  have hmod : (db.nextSerial + 1) % serialSize ≠ 0 →
      (db.nextSerial + 1) % serialSize = db.nextSerial + 1 := by
    intro hne
    have := hnum.next
    rcases lt_or_ge (db.nextSerial + 1) serialSize with hlt | hge
    · exact mod_eq_of_lt hlt
    · rw [show db.nextSerial + 1 = serialSize by omega, mod_self] at hne
      exact absurd rfl hne
  have hissued : ∀ s, db.Issued s → (db.nextSerial + 1) % serialSize ≠ 0 →
      s < (db.nextSerial + 1) % serialSize := by
    intro s hs hne
    have := hs hnext
    rw [hmod hne]
    omega
  have hcurrent := hnum.current hnext
  refine ⟨⟨hnum.ordered, ?_, hissued _ hnum.current, ?_, hnum.stale, ?_⟩, fun n => ?_,
    h.committed, rfl, ?_⟩
  · exact mod_lt _ (by decide)
  · rintro f ⟨⟩
    refine ⟨hcurrent, fun hne => ?_⟩
    rw [hmod hne]
    exact lt_succ_self _
  · exact fun n s hr => absurd hr (hnorolls n s)
  · refine (h.nodes n).frame rfl hissued ?_ ?_ ?_ ?_
    · rintro f ⟨⟩
      exact .inr fun s hs => hs hnext
    · rintro s (hle | ⟨f, hf, -⟩ | hr)
      · exact .inl hle
      · simp [hfuture] at hf
      · exact absurd hr (hnorolls n s)
    · rintro s (hk | ⟨f, hf, -⟩ | hr)
      · exact .inl hk
      · simp [hfuture] at hf
      · exact absurd hr (hnorolls n s)
    · simp [records, changedNodes, hfuture, openVersions]
  · intro s hs n t
    rw [contents_start hwriter]
    rcases hs with hs | ⟨f, ⟨⟩, rfl⟩
    · exact h.shows s (.inl hs) n t
    · -- the new version sees what the current one sees
      have hcur : db.Open db.current.serial := .inl ⟨db.current, by simp [openVersions], rfl⟩
      rw [contents_eq_of_le hwriter h.committed hcurrent.le, ← h.shows db.current.serial hcur n t]
      refine seen_eq_of_le hcurrent.le _ fun k hk hi => ?_
      rcases (h.nodes n).live t k hk hi with hle | ⟨f, hf, -⟩ | hr
      · exact hle
      · simp [hfuture] at hf
      · exact absurd hr (hnorolls n _)

section
variable (h : Sound ops db l) (hv : db.future = some v)
include h hv

lemma Sound.not_rollsBack (n : ν) (s : ℕ) : ¬db.RollsBack n s := by
  intro hr
  have := (h.numbered.rolled n s hr).1
  simp [hv] at this

lemma Sound.exists_writer : ∃ t, l.writer = some t ∧ t.serial = v.serial := by
  have := h.writer
  rw [hv] at this
  exact Option.map_eq_some_iff.mp this

lemma Sound.ordered_cons : Ordered db.leastSerial (v :: db.openVersions) :=
  h.numbered.ordered.cons fun _ hw =>
    (h.numbered.le_current hw).trans_lt (h.numbered.future v hv).1

end

variable {changed : List (Changed ν)} {n : ν}

section
variable (h : Sound ops db l) (hv : db.future = some v)
include h hv

lemma Sound.promote {k : ℕ}
    (hnodes : db'.nodes = db.nodes)
    (hnext : db'.nextSerial = db.nextSerial) (hfuture : db'.future = none)
    (hcurrent : db'.current.serial = v.serial)
    (hpassed : Passed db.leastSerial (v :: db.openVersions) db'.leastSerial db'.openVersions changed)
    (hcleanups : db'.cleanups = db.cleanups ++ cleanupList none k changed)
    (hk : k ≤ db'.leastSerial) : Sound ops db' (l.close true) := by
  have hnum := h.numbered
  obtain ⟨hlt, hvissued⟩ := hnum.future v hv
  have hissued : ∀ s, db.Issued s → db'.Issued s := by
    unfold Issued
    rw [hnext]
    exact fun s => id
  have hnorolls := h.not_rollsBack hv
  obtain ⟨t, ht, hts⟩ := h.exists_writer hv
  refine ⟨⟨hpassed.ordered, hnext ▸ hnum.next, ?_, ?_, ?_, ?_⟩, fun n => ?_, ?_, ?_, ?_⟩
  · rw [hcurrent]
    exact hissued _ hvissued
  · simp [hfuture]
  · intro c hc
    rw [hcleanups] at hc
    rcases mem_append.mp hc with hc | hc
    · exact (hnum.stale c hc).trans hpassed.grows
    · obtain ⟨d, -, rfl⟩ := mem_map.mp hc
      exact hk
  · exact fun n s hr => absurd ((RollsBack.append_none hcleanups).mp hr) (hnorolls n s)
  · refine (h.nodes n).frame (by rw [hnodes]) hissued (by simp [hfuture]) ?_ ?_ ?_
    · rintro s (hle | ⟨f, hf, hs, -⟩ | hr)
      · exact .inl (by omega)
      · rw [hv] at hf
        cases hf
        exact .inl (by omega)
      · exact absurd hr (hnorolls n s)
    · intro s hs
      refine .inl (hpassed.keeps n s ?_)
      rw [Keeps.cons_iff]
      rcases hs with hk | ⟨f, hf, hs, hmem⟩ | hr
      · exact .inr hk
      · rw [hv] at hf
        cases hf
        exact .inl ⟨hmem, hs.le⟩
      · exact absurd hr (hnorolls n s)
    · have := hpassed.records n
      simp only [records, hfuture, hv, hcleanups, cleanupList, map_append, count_append, map_map,
        comp_def, Option.toList_none, Option.toList_some,
        changedNodes, flatMap_nil, flatMap_cons, append_nil, count_nil] at this ⊢
      omega
  · intro u hu
    simp only [close, if_true, ht, Option.toList_some, mem_append, mem_singleton] at hu
    rcases hu with hu | rfl
    · have := h.committed u hu
      omega
    · omega
  · simp [close, hfuture]
  · intro s hs n t
    rw [hnodes, contents_commit]
    refine h.shows s ?_ n t
    rcases hs with ⟨u, hu, rfl⟩ | ⟨f, hf, -⟩
    · obtain ⟨w, hw, hs⟩ := hpassed.serials u hu
      rcases mem_cons.mp hw with rfl | hw
      · exact .inr ⟨w, hv, hs⟩
      · exact .inl ⟨w, hw, hs⟩
    · simp [hfuture] at hf

lemma Sound.commit (hcommit : db.commit v = some db') : Sound ops db' (l.close true) := by
  have hordered := h.ordered_cons hv
  unfold Db.commit at hcommit
  simp only at hcommit
  split at hcommit
  · simp at hcommit
  split at hcommit
  · -- somebody still holds the former current version
    cases hcommit
    simp only [become, reduceCtorEq, if_false]
    refine h.promote hv rfl rfl rfl rfl ((Passed.cleanupNondirty hordered).congr ?_) rfl le_rfl
    simp [holdings, openVersions]
  split at hcommit
  · simp at hcommit
  · rename_i hdone
    cases hcommit
    unfold become
    by_cases holder : db.older = []
    · -- the new version is the only one
      have hopen : db.openVersions = [db.current] := by rw [openVersions, holder]
      have hleast : db.leastSerial = db.current.serial := by
        obtain ⟨u, hu, hul⟩ := h.numbered.ordered.oldest
        rw [hopen, mem_singleton] at hu
        rw [← hul, hu]
      rw [hopen, hleast] at hordered
      have hpassed := Passed.makeLeast hordered
      rw [← hleast, ← hopen] at hpassed
      simp only [holder, if_true]
      refine h.promote hv rfl rfl rfl rfl (hpassed.congr ?_) rfl le_rfl
      simpa [holdings, openVersions, hleast] using hdone
    · have hleast : db.current.serial ≠ db.leastSerial := by
        obtain ⟨u, rest, hu⟩ := exists_cons_of_ne_nil holder
        have hmem : u ∈ db.older := by simp [hu]
        have := (pairwise_cons.mp h.numbered.ordered.sorted).1 u hmem
        have := h.numbered.ordered.least u (.tail _ hmem)
        omega
      have hnondirty := Passed.cleanupNondirty hordered
      have hpassed := hnondirty.trans (Passed.inherit hnondirty.ordered hleast)
      rw [append_nil] at hpassed
      simp only [holder, if_false]
      refine h.promote hv rfl rfl rfl rfl (hpassed.congr ?_) rfl le_rfl
      simp [holdings, openVersions]

lemma Sound.rollback : Sound ops (db.rollback v) (l.close false) := by
  have hnum := h.numbered
  have hlt := (hnum.future v hv).1
  have hnorolls := h.not_rollsBack hv
  have hrolls : ∀ n, n ∈ v.changedList.map (·.node) → (db.rollback v).RollsBack n v.serial := by
    intro n hn
    obtain ⟨c, hc, rfl⟩ := mem_map.mp hn
    refine ⟨⟨c.node, some v.serial, db.leastSerial⟩, ?_, rfl, rfl⟩
    exact mem_append_right _ (mem_map.mpr ⟨c, hc, rfl⟩)
  have hmem : ∀ c ∈ (db.rollback v).cleanups, c ∈ db.cleanups ∨
      (c.rollback = some v.serial ∧ c.leastSerial = db.leastSerial) := by
    intro c hc
    rcases mem_append.mp hc with hc | hc
    · exact .inl hc
    · obtain ⟨d, -, rfl⟩ := mem_map.mp hc
      exact .inr ⟨rfl, rfl⟩
  obtain ⟨t, ht, hts⟩ := h.exists_writer hv
  refine ⟨⟨hnum.ordered, hnum.next, hnum.current, by simp [Db.rollback], ?_, ?_⟩, fun n => ?_, ?_,
    rfl, ?_⟩
  · intro c hc
    rcases hmem c hc with hc | ⟨-, hc⟩
    · exact hnum.stale c hc
    · exact hc.le
  · rintro n s ⟨c, hc, hn, hs⟩
    rcases hmem c hc with hc | ⟨hcv, -⟩
    · exact absurd ⟨c, hc, hn, hs⟩ (hnorolls n s)
    · rw [hcv] at hs
      cases hs
      exact ⟨rfl, hlt⟩
  · refine (h.nodes n).frame rfl (fun _ => id) (by simp [Db.rollback]) ?_ ?_ ?_
    · rintro s (hle | ⟨f, hf, rfl, hn⟩ | hr)
      · exact .inl hle
      · rw [hv] at hf
        cases hf
        exact .inr (.inr (hrolls n hn))
      · exact absurd hr (hnorolls n s)
    · rintro s (hk | ⟨f, hf, rfl, hn⟩ | hr)
      · exact .inl hk
      · rw [hv] at hf
        cases hf
        exact .inr (.inr (hrolls n (mem_map.mpr ⟨_, hn, rfl⟩)))
      · exact absurd hr (hnorolls n s)
    · simp only [records, Db.rollback, hv, openVersions, cleanupList, map_append, count_append,
        map_map, comp_def, Option.toList_none, Option.toList_some,
        changedNodes, flatMap_nil, flatMap_cons, append_nil, count_nil]
      omega
  · exact h.committed
  · intro s hs n u
    rcases hs with ⟨w, hw, rfl⟩ | ⟨f, hf, -⟩
    · have := hnum.le_current hw
      rw [contents_rollback ht (by omega)]
      exact h.shows _ (.inl ⟨w, hw, rfl⟩) n u
    · simp [Db.rollback] at hf

end

omit [DecidableEq ν] in
lemma Db.future_of_commit (hcommit : db.commit v = some db') : db'.future = none := by
  have hbecome : ∀ vs changed, (db.become v vs changed).future = none := by
    intro vs changed
    unfold become
    split <;> rfl
  unfold commit at hcommit
  simp only at hcommit
  split at hcommit
  · simp at hcommit
  split at hcommit
  · rw [← Option.some.inj hcommit, hbecome]
  split at hcommit
  · simp at hcommit
  · rw [← Option.some.inj hcommit, hbecome]

omit [DecidableEq ν] in
lemma Db.future_of_closeReader {serial : ℕ} (hclose : db.closeReader serial = some db') :
    db'.future = db.future := by
  unfold closeReader at hclose
  split at hclose
  · split at hclose
    · rw [← Option.some.inj hclose]
    · simp at hclose
  · obtain ⟨c, -, rfl⟩ := Option.map_eq_some_iff.mp hclose
    rfl

lemma Sound.closeversion (h : Sound ops db l) {serial : ℕ} {commit : Bool}
    (hclose : db.closeversion serial commit = some db') :
    Sound ops db' (l.next (.closeversion serial commit) db db') := by
  unfold Db.closeversion at hclose
  cases hv : db.future with
  | none =>
    simp only [hv] at hclose
    simpa [Ledger.next, hv] using h.closeReader hclose
  | some v =>
    simp only [hv] at hclose
    split at hclose
    · unfold closeWriter at hclose
      split at hclose
      · split at hclose
        · simp at hclose
        · -- another reference to the writer's version remains
          cases hclose
          simp only [Ledger.next, hv, Option.isSome_some, Option.isNone_some, Bool.and_false,
            Bool.false_eq_true, if_false]
          exact h.passed rfl rfl (Passed.of_holdings h.numbered.ordered rfl) rfl (by rw [hv]; rfl)
            (append_nil _).symm le_rfl
      · split at hclose
        · rename_i hcommit
          subst hcommit
          have hnone := future_of_commit hclose
          simpa [Ledger.next, hv, hnone] using h.commit hv hclose
        · rename_i hcommit
          cases hclose
          rw [Bool.not_eq_true] at hcommit
          subst hcommit
          simpa [Ledger.next, hv, Db.rollback] using h.rollback hv
    · have hsame := (future_of_closeReader hclose).trans hv
      simpa [Ledger.next, hv, hsame] using h.closeReader hclose

structure Changes (node : Node δ) (serial : ℕ) (view : Typepair → Option (Rdataset δ))
    (c : Change δ) : Prop where
  wf : c.node.WellFormed
  chain : ∀ t, ∀ h ∈ c.node.chain t, h ∈ node.chain t ∨ (h.serial = serial ∧ h.ignore = false)
  supersedes : ∀ s, c.node.Supersedes s → node.Supersedes s ∨ (s = serial ∧ c.dirty)
  references : c.node.references = node.references
  older : ∀ s, s < serial → c.node.view s = node.view s
  own : c.node.view serial = view

def Edit.view (ops : SlabOps δ) (type : Typepair) (edit : Edit δ)
    (old : Typepair → Option (Rdataset δ)) : Typepair → Option (Rdataset δ) :=
  match edit.outcome ops type (old type) with
  | .error _ => old
  | .ok rdataset => update old type rdataset

section
variable {type : Typepair} {node : Node δ} {serial : ℕ} {edit : Edit δ} {c : Change δ}

lemma Node.link_references (node : Node δ) (h : Header δ) :
    (node.link h).1.references = node.references := by
  unfold link
  split <;> rfl

lemma Change.Does.changes (hdoes : c.Does type node serial
    (edit.outcome ops type (node.view serial type))) (hw : node.WellFormed)
    (hzero : type ≠ Typepair.zero) (hnew : ∀ g ∈ node.chain type, g.serial ≤ serial)
    (hsame : ∀ g ∈ node.chain type, g.serial = serial → g.ignore = false) :
    Changes node serial (edit.view ops type (node.view serial)) c := by
  unfold Edit.view
  unfold Change.Does at hdoes
  cases hout : edit.outcome ops type (node.view serial type) with
  | error r =>
    rw [hout] at hdoes
    simp only at hdoes
    subst hdoes
    exact ⟨hw, fun t h hh => .inl hh, fun s hs => .inl hs, rfl, fun s _ => rfl, rfl⟩
  | ok rdataset =>
    rw [hout] at hdoes
    have hnode : c.node = (node.link ⟨type, serial, false, rdataset⟩).1 := congrArg Prod.fst hdoes
    have hdirty : c.dirty = (node.link ⟨type, serial, false, rdataset⟩).2 := congrArg Prod.snd hdoes
    constructor
    · rw [hnode]
      exact hw.link hzero hnew hsame
    · intro t h hh
      rw [hnode, chain_link] at hh
      split at hh
      · rcases mem_cons.mp hh with rfl | hh
        · exact .inr ⟨rfl, rfl⟩
        · exact .inl hh
      · exact .inl hh
    · intro s hs
      rw [hnode] at hs
      rw [hdirty]
      exact supersedes_link hs
    · rw [hnode, link_references]
    · intro s hs
      funext t
      have : ¬serial ≤ s := by omega
      rw [hnode, view_link]
      simp [activeIn, this]
    · funext t
      rw [hnode, view_link]
      by_cases ht : t = type
      · subst ht
        simp [activeIn]
      · simp [ht]

section
variable (hw : node.WellFormed) (hzero : type ≠ Typepair.zero)
  (hnew : ∀ g ∈ node.chain type, g.serial ≤ serial)
  (hsame : ∀ g ∈ node.chain type, g.serial = serial → g.ignore = false)
include hw hzero hnew hsame

lemma Node.add_changes (new : Option (Rdataset δ)) (options : AddOptions) :
    Changes node serial ((Edit.add new options).view ops type (node.view serial))
      (node.add ops ⟨type, serial, false, new⟩ options) := by
  refine Change.Does.changes ?_ hw hzero hnew hsame
  exact add_does hw options new hnew

lemma Node.subtract_changes (rdataset : Rdataset δ) (exact memory : Bool) :
    Changes node serial ((Edit.subtract rdataset exact memory).view ops type (node.view serial))
      (node.subtract ops serial type rdataset exact memory) := by
  refine Change.Does.changes ?_ hw hzero hnew hsame
  exact subtract_does hw rdataset exact memory hnew

end

lemma Changes.flagged {view : Typepair → Option (Rdataset δ)} (h : Changes node serial view c)
    (delegating : Bool) : Changes node serial view (Db.flagged delegating c) := by
  unfold Db.flagged
  split
  · have hw := h.wf
    exact ⟨⟨hw.types, hw.nonzero, hw.down, hw.sorted, hw.uniform⟩, h.chain, h.supersedes,
      h.references, h.older, h.own⟩
  · exact h

end

omit [DecidableEq ν] in
lemma mem_append_changed {m : ν} {dirty : Bool} :
    m ∈ (changed ++ [(⟨n, dirty⟩ : Changed ν)]).map (·.node) ↔
      m ∈ changed.map (·.node) ∨ m = n := by
  simp

lemma Write.apply_eq (w : Write ν δ) (c : Contents ν δ) :
    w.apply ops c = update c w.node (w.edit.view ops w.type (c w.node)) := by
  unfold Write.apply Edit.view
  cases w.edit.outcome ops w.type (c w.node w.type) with
  | error r => exact (update_eq_self ..).symm
  | ok rdataset => rfl

lemma Sound.change (h : Sound ops db l) {type : Typepair} {edit : Edit δ} {r : Result}
    {f : (serial : ℕ) → Node δ → Change δ} (hf : ∀ serial (node : Node δ), node.WellFormed →
      (∀ g ∈ node.chain type, g.serial ≤ serial) →
      (∀ g ∈ node.chain type, g.serial = serial → g.ignore = false) →
      Changes node serial (edit.view ops type (node.view serial)) (f serial node))
    (hchange : db.change n true f = some (r, db')) : Sound ops db' (l.write ⟨n, type, edit⟩) := by
  unfold Db.change at hchange
  cases hv : db.future with
  | none => simp [hv] at hchange
  | some v =>
    simp only [hv, if_true] at hchange
    cases hchange
    have hnum := h.numbered
    have hlt := (hnum.future v hv).1
    have hn := h.nodes n
    have hnorolls := h.not_rollsBack hv
    obtain ⟨t, ht, hts⟩ := h.exists_writer hv
    have hc := hf v.serial _ (hn.wf.referenced ((db.nodes n).references + 1))
      (fun g hg => (hn.writer _ g hg v hv).1) fun g hg => (hn.writer _ g hg v hv).2
    generalize f v.serial { db.nodes n with references := (db.nodes n).references + 1 } = c at hc ⊢
    set v' : Version ν := { v with changedList := v.changedList ++ [⟨n, c.dirty⟩] } with hv'
    set db' : Db ν δ := { db with
      future := some v', nodes := update db.nodes n c.node } with hdb'
    have hlive : ∀ m s, db.Live m s → db'.Live m s := by
      rintro m s (hle | ⟨f, hf, hs, hm⟩ | hr)
      · exact .inl hle
      · rw [hv] at hf
        cases hf
        exact .inr (.inl ⟨v', rfl, hs, mem_append_changed.mpr (.inl hm)⟩)
      · exact absurd hr (hnorolls m s)
    have hkept : ∀ m s, db.Kept m s → db'.Kept m s := by
      rintro m s (hk | ⟨f, hf, hs, hm⟩ | hr)
      · exact .inl hk
      · rw [hv] at hf
        cases hf
        exact .inr (.inl ⟨v', rfl, hs, mem_append_left _ hm⟩)
      · exact absurd hr (hnorolls m s)
    have hrecords : ∀ m, db'.records m = db.records m + if m = n then 1 else 0 := by
      intro m
      have hfuture : (changedNodes db'.future.toList).count m =
          (changedNodes db.future.toList).count m + if m = n then 1 else 0 := by
        by_cases hm : m = n
        · subst hm
          simp [hdb', hv', hv, changedNodes]
        · have : ¬n = m := fun h => hm h.symm
          simp [hdb', hv', hv, changedNodes, hm, this]
      have hrest : db'.openVersions = db.openVersions ∧ db'.cleanups = db.cleanups := ⟨rfl, rfl⟩
      simp only [records, hfuture, hrest]
      omega
    refine ⟨⟨hnum.ordered, hnum.next, hnum.current, ?_, hnum.stale, ?_⟩, fun m => ?_, h.committed,
      ?_, ?_⟩
    · rintro f ⟨⟩
      exact hnum.future v hv
    · exact fun m s hr => absurd hr (hnorolls m s)
    · by_cases hm : m = n
      · subst hm
        have hnode : db'.nodes m = c.node := update_self ..
        constructor
        · rw [hnode]
          exact hc.wf
        · rw [hnode]
          intro t k hk
          rcases hc.chain t k hk with hk | ⟨hs, -⟩
          · exact hn.issued t k hk
          · rw [hs]
            exact (hnum.future v hv).2
        · rw [hnode]
          rintro t k hk f ⟨⟩
          rcases hc.chain t k hk with hk | ⟨hs, hi⟩
          · exact hn.writer t k hk v hv
          · exact ⟨hs.le, fun _ => hi⟩
        · rw [hnode]
          intro t k hk hi
          rcases hc.chain t k hk with hk | ⟨hs, -⟩
          · exact hlive m _ (hn.live t k hk hi)
          · exact .inr (.inl ⟨v', rfl, hs, mem_append_changed.mpr (.inr rfl)⟩)
        · rw [hnode, hc.references, hrecords, if_pos rfl]
          exact Nat.add_le_add_right hn.references 1
        · rw [hnode]
          intro s hs
          rcases hc.supersedes s hs with hs | ⟨rfl, hd⟩
          · exact hkept m s (hn.kept s hs)
          · exact .inr (.inl ⟨v', rfl, rfl, by simp [hv', hd]⟩)
      · refine (h.nodes m).frame (update_of_ne hm ..) (fun _ => id) ?_ (hlive m) (hkept m) ?_
        · rintro f ⟨⟩
          exact .inl ⟨v, hv, rfl⟩
        · rw [hrecords, if_neg hm]
          exact le_rfl
    · simp [write, ht, hdb', hv', hts]
    · intro s hs m u
      rcases hs with ⟨w, hw, rfl⟩ | ⟨f, ⟨⟩, rfl⟩
      · have hws : w.serial < v.serial := (hnum.le_current hw).trans_lt hlt
        rw [contents_write_of_lt ht (by omega), ← h.shows _ (.inl ⟨w, hw, rfl⟩) m u]
        by_cases hm : m = n
        · subst hm
          rw [hdb']
          simp only [update_self]
          rw [hc.older _ hws]
          rfl
        · simp [hdb', hm]
      · have hshows : ∀ m, (db.nodes m).view v.serial = l.contents ops v.serial m :=
          fun m => funext (h.shows _ (.inr ⟨v, hv, rfl⟩) m)
        rw [show v'.serial = t.serial from hts.symm, contents_write ht, Write.apply_eq, hts]
        by_cases hm : m = n
        · subst hm
          simp only [hdb', update_self]
          rw [hc.own, ← hshows]
          rfl
        · simp [hdb', hm, hshows]

lemma Sound.noMemory (h : Sound ops db l) {r : Result} {f : (serial : ℕ) → Node δ → Change δ}
    (hchange : db.change n false f = some (r, db')) : Sound ops db' l := by
  unfold Db.change at hchange
  cases hv : db.future with
  | none => simp [hv] at hchange
  | some v =>
    simp only [hv, Bool.false_eq_true, if_false] at hchange
    cases hchange
    exact h.passed rfl rfl (Passed.of_holdings h.numbered.ordered rfl) rfl (by rw [hv]; rfl)
      (append_nil _).symm le_rfl

end LbBind.Rbtdb

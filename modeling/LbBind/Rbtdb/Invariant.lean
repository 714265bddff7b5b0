import LbBind.Rbtdb.History

/-! The invariant of a zone database: the serial numbers of the versions, the state of each node,
and the views, which show what the ledger says. A header above an older one is harmless as long as a
changed record keeps a reference to the node, since only nodes without references are cleaned. -/

namespace LbBind.Rbtdb

open List Function Option Version Db Prod

variable {ν δ : Type*}

structure Ordered (leastSerial : ℕ) (vs : List (Version ν)) : Prop where
  sorted : vs.Pairwise fun v w => w.serial < v.serial
  least : ∀ v ∈ vs, leastSerial ≤ v.serial
  oldest : ∃ v ∈ vs, v.serial = leastSerial
  done : ∀ v ∈ vs, v.serial = leastSerial → v.changedList = []

/-- A changed record of some version keeps the headers of version `s` at node `n`, or
every version in use is as new as that. -/
def Keeps (leastSerial : ℕ) (vs : List (Version ν)) (n : ν) (s : ℕ) : Prop :=
  s ≤ leastSerial ∨ ∃ v ∈ vs, ⟨n, true⟩ ∈ v.changedList ∧ s ≤ v.serial

section
variable {least : ℕ} {v w : Version ν} {vs : List (Version ν)}

lemma changedNodes_cons (v : Version ν) (vs : List (Version ν)) :
    changedNodes (v :: vs) = v.changedList.map (·.node) ++ changedNodes vs := rfl

lemma Ordered.tail (h : Ordered least (v :: w :: vs)) : Ordered least (w :: vs) := by
  obtain ⟨hv, hsorted⟩ := pairwise_cons.mp h.sorted
  refine ⟨hsorted, fun u hu => h.least u (by simp [hu]), ?_, fun u hu => h.done u (by simp [hu])⟩
  obtain ⟨u, hu, hul⟩ := h.oldest
  rcases mem_cons.mp hu with rfl | hu
  · have := h.least w (by simp)
    have := hv w (by simp)
    omega
  · exact ⟨u, hu, hul⟩

lemma Ordered.cons (h : Ordered least vs) (hv : ∀ w ∈ vs, w.serial < v.serial) :
    Ordered least (v :: vs) := by
  obtain ⟨u, hu, hul⟩ := h.oldest
  have hlt := hv u hu
  refine ⟨pairwise_cons.mpr ⟨hv, h.sorted⟩, ?_, ⟨u, by simp [hu], hul⟩, ?_⟩
  · intro w hw
    rcases mem_cons.mp hw with rfl | hw
    · omega
    · exact h.least w hw
  · intro w hw hwl
    rcases mem_cons.mp hw with rfl | hw
    · omega
    · exact h.done w hw hwl

lemma Keeps.cons_iff {n : ν} {s : ℕ} : Keeps least (v :: vs) n s ↔
    (⟨n, true⟩ ∈ v.changedList ∧ s ≤ v.serial) ∨ Keeps least vs n s := by
  simp only [Keeps, mem_cons, exists_eq_or_imp]
  tauto

variable [DecidableEq ν]

structure Passed (least : ℕ) (vs : List (Version ν)) (least' : ℕ)
    (vs' : List (Version ν)) (cleanup : List (Changed ν)) : Prop where
  ordered : Ordered least' vs'
  grows : least ≤ least'
  serials : ∀ v' ∈ vs', ∃ v ∈ vs, v.serial = v'.serial
  keeps : ∀ n s, Keeps least vs n s → Keeps least' vs' n s
  records : ∀ n, (changedNodes vs').count n + (cleanup.map (·.node)).count n =
    (changedNodes vs).count n

variable {least' : ℕ} {vs' vs'' : List (Version ν)} {changed : List (Changed ν)} {c : Closed ν}

/-- A version more above does not matter. -/
lemma Passed.cons {cleanup : List (Changed ν)} (h : Passed least vs least' vs' cleanup)
    (hv : ∀ w ∈ vs, w.serial < v.serial) : Passed least (v :: vs) least' (v :: vs') cleanup := by
  refine ⟨h.ordered.cons ?_, h.grows, ?_, ?_, ?_⟩
  · intro w' hw'
    obtain ⟨w, hw, hww⟩ := h.serials w' hw'
    have := hv w hw
    omega
  · intro w' hw'
    rcases mem_cons.mp hw' with rfl | hw'
    · exact ⟨w', by simp⟩
    · obtain ⟨w, hw, hww⟩ := h.serials w' hw'
      exact ⟨w, by simp [hw], hww⟩
  · intro n s
    rw [Keeps.cons_iff, Keeps.cons_iff]
    exact Or.imp_right (h.keeps n s)
  · intro n
    rw [changedNodes_cons, changedNodes_cons, count_append, count_append, ← h.records n]
    omega

def Version.holdings (v : Version ν) : ℕ × List (Changed ν) := (v.serial, v.changedList)

lemma Passed.of_holdings (h : Ordered least vs)
    (heq : vs'.map holdings = vs.map holdings) : Passed least vs least vs' [] := by
  have hmem : ∀ {us us' : List (Version ν)}, us'.map holdings = us.map holdings →
      ∀ u' ∈ us', ∃ u ∈ us, u.serial = u'.serial ∧ u.changedList = u'.changedList := by
    intro us us' heq u' hu'
    have : u'.holdings ∈ us.map holdings := heq ▸ mem_map_of_mem hu'
    obtain ⟨u, hu, huu⟩ := mem_map.mp this
    exact ⟨u, hu, congrArg fst huu, congrArg snd huu⟩
  refine ⟨⟨?_, ?_, ?_, ?_⟩, le_rfl, ?_, ?_, ?_⟩
  · have hpair : (vs.map holdings).Pairwise fun a b => b.1 < a.1 := pairwise_map.mpr h.sorted
    rw [← heq] at hpair
    exact pairwise_map.mp hpair
  · intro v' hv'
    obtain ⟨v, hv, hs, -⟩ := hmem heq v' hv'
    exact hs ▸ h.least v hv
  · obtain ⟨v, hv, hl⟩ := h.oldest
    obtain ⟨v', hv', hs, -⟩ := hmem heq.symm v hv
    exact ⟨v', hv', hs.trans hl⟩
  · intro v' hv' hl
    obtain ⟨v, hv, hs, hc⟩ := hmem heq v' hv'
    exact hc ▸ h.done v hv (hs.trans hl)
  · intro v' hv'
    obtain ⟨v, hv, hs, -⟩ := hmem heq v' hv'
    exact ⟨v, hv, hs⟩
  · rintro n s (hs | ⟨v, hv, hn, hs⟩)
    · exact .inl hs
    · obtain ⟨v', hv', hvs, hvc⟩ := hmem heq.symm v hv
      exact .inr ⟨v', hv', hvc ▸ hn, hvs ▸ hs⟩
  · have hnodes : ∀ us : List (Version ν), changedNodes us =
        (us.map holdings).flatMap fun p => p.2.map (·.node) := by
      intro us
      simp [changedNodes, holdings, flatMap_map]
    intro n
    rw [hnodes, hnodes, heq]
    simp

lemma Passed.trans {least'' : ℕ} {changed' : List (Changed ν)}
    (h : Passed least vs least' vs' changed) (h' : Passed least' vs' least'' vs'' changed') :
    Passed least vs least'' vs'' (changed ++ changed') := by
  refine ⟨h'.ordered, h.grows.trans h'.grows, fun u hu => ?_,
    fun n s hk => h'.keeps n s (h.keeps n s hk), fun n => ?_⟩
  · obtain ⟨w, hw, hs⟩ := h'.serials u hu
    obtain ⟨w', hw', hs'⟩ := h.serials w hw
    exact ⟨w', hw', hs'.trans hs⟩
  · have := h.records n
    have := h'.records n
    rw [map_append, count_append]
    omega

lemma Passed.congr (h : Passed least vs least' vs' changed)
    (heq : vs''.map holdings = vs'.map holdings) : Passed least vs least' vs'' changed := by
  have := h.trans (Passed.of_holdings h.ordered heq)
  rwa [append_nil] at this

section
variable (h : Ordered least (v :: w :: vs))
include h

lemma Passed.cleanupNondirty :
    Passed least (v :: w :: vs) least
      ({ v with changedList := v.changedList.filter (·.dirty) } :: w :: vs)
      (v.changedList.filter fun c => !c.dirty) := by
  have hv := (pairwise_cons.mp h.sorted).1
  refine ⟨h.tail.cons hv, le_rfl, ?_, ?_, ?_⟩
  · intro u hu
    rcases mem_cons.mp hu with rfl | hu
    · exact ⟨v, by simp⟩
    · exact ⟨u, by simp [hu]⟩
  · intro n s hk
    rw [Keeps.cons_iff] at hk ⊢
    exact hk.imp_left fun ⟨hn, hs⟩ => ⟨mem_filter.mpr ⟨hn, rfl⟩, hs⟩
  · intro n
    have hperm := (filter_append_perm (fun c : Changed ν => c.dirty) v.changedList).map
      (·.node)
    have hcount := hperm.count_eq n
    rw [map_append, count_append] at hcount
    simp only [changedNodes_cons, count_append] at hcount ⊢
    omega

omit h in
lemma Passed.makeLeast (h : Ordered w.serial (v :: w :: vs)) :
    Passed w.serial (v :: w :: vs) v.serial ({ v with changedList := [] } :: vs)
      v.changedList := by
  obtain ⟨hv, hsorted⟩ := pairwise_cons.mp h.sorted
  have hwv := hv w (by simp)
  have hempty := h.done w (by simp) rfl
  have hvs : vs = [] := by
    rw [eq_nil_iff_forall_not_mem]
    intro u hu
    have := (pairwise_cons.mp hsorted).1 u hu
    have := h.least u (by simp [hu])
    omega
  subst hvs
  refine ⟨⟨by simp, by simp, by simp, by simp⟩, hwv.le, by simp, ?_, ?_⟩
  · intro n s hk
    rw [Keeps.cons_iff, Keeps.cons_iff, hempty] at hk
    rcases hk with ⟨-, hs⟩ | ⟨hs, -⟩ | hs | ⟨u, hu, -⟩
    · exact .inl hs
    · simp at hs
    · exact .inl (hs.trans hwv.le)
    · simp at hu
  · intro n
    simp [changedNodes, hempty]

/-- A version between others goes, and the one above takes its records. -/
lemma Passed.inherit (hleast : w.serial ≠ least) :
    Passed least (v :: w :: vs) least
      ({ v with changedList := v.changedList ++ w.changedList } :: vs) [] := by
  obtain ⟨hv, hsorted⟩ := pairwise_cons.mp h.sorted
  have hwv := hv w (by simp)
  have hvs : Ordered least vs := by
    refine ⟨(pairwise_cons.mp hsorted).2, fun u hu => h.least u (by simp [hu]), ?_,
      fun u hu => h.done u (by simp [hu])⟩
    obtain ⟨u, hu, hul⟩ := h.tail.oldest
    rcases mem_cons.mp hu with rfl | hu
    · exact absurd hul hleast
    · exact ⟨u, hu, hul⟩
  refine ⟨hvs.cons fun u hu => hv u (by simp [hu]), le_rfl, ?_, ?_, ?_⟩
  · intro u hu
    rcases mem_cons.mp hu with rfl | hu
    · exact ⟨v, by simp⟩
    · exact ⟨u, by simp [hu]⟩
  · intro n s hk
    rw [Keeps.cons_iff, Keeps.cons_iff] at hk
    rw [Keeps.cons_iff]
    simp only [mem_append]
    rcases hk with ⟨hn, hs⟩ | ⟨hn, hs⟩ | hk
    · exact .inl ⟨.inl hn, hs⟩
    · exact .inl ⟨.inr hn, by omega⟩
    · exact .inr hk
  · intro n
    simp only [changedNodes_cons, map_append, count_append, map_nil, count_nil]
    omega

lemma Passed.unlink (hc : Db.unlink least v w vs = some c) :
    Passed least (v :: w :: vs) c.leastSerial (c.above :: c.older) c.cleanup ∧
      c.above.serial = v.serial := by
  have hwv := (pairwise_cons.mp h.sorted).1 w (by simp)
  simp only [Db.unlink, hwv, not_true_eq_false, if_false] at hc
  split at hc
  · rename_i hleast
    subst hleast
    split at hc
    · simp at hc
    · cases hc
      exact ⟨Passed.makeLeast h, rfl⟩
  · rename_i hleast
    cases hc
    exact ⟨Passed.inherit h hleast, rfl⟩

end

lemma Passed.closeOlder {serial : ℕ} (h : Ordered least (v :: vs))
    (hc : closeOlder least serial v vs = some c) :
    Passed least (v :: vs) c.leastSerial (c.above :: c.older) c.cleanup ∧
      c.above.serial = v.serial := by
  induction vs generalizing v c with
  | nil => simp [closeOlder] at hc
  | cons w rest ih =>
    have hv := (pairwise_cons.mp h.sorted).1
    simp only [closeOlder] at hc
    split at hc
    · split at hc
      · cases hc
        refine ⟨Passed.cons (Passed.of_holdings h.tail ?_) hv, rfl⟩
        rfl
      · exact Passed.unlink h hc
    · obtain ⟨d, hd, rfl⟩ := map_eq_some_iff.mp hc
      exact ⟨(ih h.tail hd).1.cons hv, rfl⟩

end

variable (db : Db ν δ)

def Db.Issued (s : ℕ) : Prop := db.nextSerial ≠ 0 → s < db.nextSerial

/-- Headers of version `s` at a node are still to be rolled back. -/
def Db.RollsBack (n : ν) (s : ℕ) : Prop :=
  ∃ c ∈ db.cleanups, c.node = n ∧ c.rollback = some s

def Db.Live (n : ν) (s : ℕ) : Prop :=
  s ≤ db.current.serial ∨ (∃ f ∈ db.future, s = f.serial ∧ n ∈ f.changedList.map (·.node)) ∨
    db.RollsBack n s

def Db.Kept (n : ν) (s : ℕ) : Prop := Keeps db.leastSerial db.openVersions n s ∨
    (∃ f ∈ db.future, s = f.serial ∧ ⟨n, true⟩ ∈ f.changedList) ∨ db.RollsBack n s

def Db.Open (s : ℕ) : Prop :=
  (∃ v ∈ db.openVersions, v.serial = s) ∨ ∃ f ∈ db.future, f.serial = s

structure Db.Numbered (db : Db ν δ) : Prop where
  ordered : Ordered db.leastSerial db.openVersions
  next : db.nextSerial < serialSize
  current : db.Issued db.current.serial
  future : ∀ f ∈ db.future, db.current.serial < f.serial ∧ db.Issued f.serial
  stale : ∀ c ∈ db.cleanups, c.leastSerial ≤ db.leastSerial
  rolled : ∀ n s, db.RollsBack n s → db.future = none ∧ db.current.serial < s

variable {ops : SlabOps δ} {db db' : Db ν δ} {l : Ledger ν δ} {n : ν} {s k : ℕ}
  {changed : List (Changed ν)}

lemma Db.Numbered.least_le (h : db.Numbered) (hs : db.Open s) : db.leastSerial ≤ s := by
  rcases hs with ⟨v, hv, rfl⟩ | ⟨f, hf, rfl⟩
  · exact h.ordered.least v hv
  · have := h.ordered.least db.current (by simp [openVersions])
    have := (h.future f hf).1
    omega

lemma Db.Numbered.withNodes (h : db.Numbered) (nodes : ν → Node δ) :
    ({ db with nodes := nodes } : Db ν δ).Numbered :=
  ⟨h.ordered, h.next, h.current, h.future, h.stale, h.rolled⟩

lemma Db.Numbered.le_current (h : db.Numbered) {v : Version ν} (hv : v ∈ db.openVersions) :
    v.serial ≤ db.current.serial := by
  rcases mem_cons.mp hv with rfl | hv
  · exact le_rfl
  · exact ((pairwise_cons.mp h.ordered.sorted).1 v hv).le

variable [DecidableEq ν]

structure Db.NodeSound (db : Db ν δ) (n : ν) : Prop where
  wf : (db.nodes n).WellFormed
  issued : ∀ t, ∀ h ∈ (db.nodes n).chain t, db.Issued h.serial
  writer : ∀ t, ∀ h ∈ (db.nodes n).chain t, ∀ f ∈ db.future,
    h.serial ≤ f.serial ∧ (h.serial = f.serial → h.ignore = false)
  live : ∀ t, ∀ h ∈ (db.nodes n).chain t, h.ignore = false → db.Live n h.serial
  references : db.records n ≤ (db.nodes n).references
  kept : ∀ s, (db.nodes n).Supersedes s → db.Kept n s

structure Sound (ops : SlabOps δ) (db : Db ν δ) (l : Ledger ν δ) : Prop where
  numbered : db.Numbered
  nodes : ∀ n, db.NodeSound n
  committed : ∀ t ∈ l.committed, t.serial ≤ db.current.serial
  writer : l.writer.map (·.serial) = db.future.map (·.serial)
  shows : ∀ s, db.Open s → ∀ n t, (db.nodes n).view s t = l.contents ops s n t

lemma Db.NodeSound.frame (h : db.NodeSound n) (hnode : db'.nodes n = db.nodes n)
    (hissued : ∀ s, db.Issued s → db'.Issued s)
    (hfuture : ∀ f ∈ db'.future, (∃ g ∈ db.future, g.serial = f.serial) ∨
      ∀ s, db.Issued s → s < f.serial)
    (hlive : ∀ s, db.Live n s → db'.Live n s) (hkept : ∀ s, db.Kept n s → db'.Kept n s)
    (hrecords : db'.records n ≤ db.records n) : db'.NodeSound n := by
  constructor
  · rw [hnode]
    exact h.wf
  · rw [hnode]
    exact fun t k hk => hissued _ (h.issued t k hk)
  · rw [hnode]
    intro t k hk f hf
    rcases hfuture f hf with ⟨g, hg, hgf⟩ | hnew
    · rw [← hgf]
      exact h.writer t k hk g hg
    · have := hnew _ (h.issued t k hk)
      exact ⟨by omega, by omega⟩
  · rw [hnode]
    exact fun t k hk hi => hlive _ (h.live t k hk hi)
  · rw [hnode]
    exact hrecords.trans h.references
  · rw [hnode]
    exact fun s hs => hkept s (h.kept s hs)

/-- Without changed records, only versions that everybody sees cover older headers. -/
lemma Db.Kept.le_least (h : db.Kept n s) (hrecords : db.records n = 0) : s ≤ db.leastSerial := by
  simp only [records, Nat.add_eq_zero_iff, count_eq_zero, changedNodes, mem_flatMap, List.mem_map,
    not_exists, not_and] at hrecords
  obtain ⟨⟨hfuture, hopen⟩, hcleanups⟩ := hrecords
  rcases h with (h | ⟨v, hv, hn, -⟩) | ⟨f, hf, -, hn⟩ | ⟨c, hc, hn, -⟩
  · exact h
  · exact absurd rfl (hopen v hv _ hn)
  · exact absurd rfl (hfuture f (by simpa using hf) _ hn)
  · exact absurd hn (hcleanups c hc)

def Db.release (db : Db ν δ) (n : ν) (leastSerial : ℕ) (cleanups : List (Cleanup ν)) : Db ν δ :=
  { db with
    nodes := update db.nodes n (decrementReference (db.nodes n) leastSerial)
    cleanups := cleanups }

section
variable (h : Sound ops db l)
include h

lemma Sound.release {cs : List (Cleanup ν)} (hk : k ≤ db.leastSerial)
    (hcs : cs.Sublist db.cleanups)
    (hspare : (db.release n k cs).records n < (db.nodes n).references)
    (hgone : ∀ m s, db.RollsBack m s → (db.release n k cs).RollsBack m s ∨
      ((∀ t, ∀ h ∈ (db.nodes m).chain t, h.ignore = false → h.serial ≠ s) ∧
        ¬(db.nodes m).Supersedes s)) : Sound ops (db.release n k cs) l := by
  have hwf := (h.nodes n).wf
  have hsub := chain_decrementReference_sublist hwf k
  have hrolls : ∀ m s, (db.release n k cs).RollsBack m s → db.RollsBack m s := by
    rintro m s ⟨c, hc, hcm⟩
    exact ⟨c, hcs.subset hc, hcm⟩
  have hlive : ∀ m t, ∀ k1 ∈ (db.nodes m).chain t, k1.ignore = false →
      (db.release n k cs).Live m k1.serial := by
    intro m t k1 hk1 hi
    rcases (h.nodes m).live t k1 hk1 hi with hle | hf | hr
    · exact .inl hle
    · exact .inr (.inl hf)
    · rcases hgone m _ hr with hr | ⟨hno, -⟩
      · exact .inr (.inr hr)
      · exact absurd rfl (hno t k1 hk1 hi)
  have hkept : ∀ m s, (db.nodes m).Supersedes s → (db.release n k cs).Kept m s := by
    intro m s hs
    rcases (h.nodes m).kept s hs with hle | hf | hr
    · exact .inl hle
    · exact .inr (.inl hf)
    · rcases hgone m _ hr with hr | ⟨-, hno⟩
      · exact .inr (.inr hr)
      · exact absurd hs hno
  have hnum := h.numbered
  refine ⟨⟨hnum.ordered, hnum.next, hnum.current, hnum.future, ?_, ?_⟩, ?_, h.committed, h.writer, ?_⟩
  · exact fun c hc => hnum.stale c (hcs.subset hc)
  · exact fun m s hr => hnum.rolled m s (hrolls m s hr)
  · intro m
    by_cases hm : m = n
    · subst hm
      have hnode : (db.release m k cs).nodes m = decrementReference (db.nodes m) k := update_self ..
      constructor
      · rw [hnode]
        exact hwf.decrementReference k
      · rw [hnode]
        exact fun t k1 hk1 => (h.nodes m).issued t k1 ((hsub t).subset hk1)
      · rw [hnode]
        exact fun t k1 hk1 => (h.nodes m).writer t k1 ((hsub t).subset hk1)
      · rw [hnode]
        exact fun t k1 hk1 => hlive m t k1 ((hsub t).subset hk1)
      · rw [hnode, references_decrementReference]
        omega
      · rw [hnode]
        exact fun s hs => hkept m s (hs.of_sublist hsub)
    · have hnode : (db.release n k cs).nodes m = db.nodes m := update_of_ne hm ..
      constructor
      · rw [hnode]
        exact (h.nodes m).wf
      · rw [hnode]
        exact (h.nodes m).issued
      · rw [hnode]
        exact (h.nodes m).writer
      · rw [hnode]
        exact hlive m
      · rw [hnode]
        refine le_trans ?_ (h.nodes m).references
        exact Nat.add_le_add_left ((hcs.map _).count_le m) _
      · rw [hnode]
        exact hkept m
  · intro s hs m t
    rw [← h.shows s hs m t]
    by_cases hm : m = n
    · subst hm
      have hleast := hnum.least_le hs
      have hnode : (db.release m k cs).nodes m = decrementReference (db.nodes m) k := update_self ..
      rw [hnode]
      refine view_decrementReference hwf (hk.trans hleast) (fun hone s' hs' => ?_) t
      have := (hkept m s' hs').le_least (by omega)
      exact this.trans hleast
    · have hnode : (db.release n k cs).nodes m = db.nodes m := update_of_ne hm ..
      rw [hnode]

lemma Sound.detachnode (hn : db.records n < (db.nodes n).references) :
    Sound ops (db.detachnode n) l :=
  h.release le_rfl (.refl _) hn fun _ _ => .inl

attribute [local simp] attachnode

lemma Sound.attachnode : Sound ops (db.attachnode n) l := by
  have hchain : ∀ m t, ((db.attachnode n).nodes m).chain t = (db.nodes m).chain t := by
    intro m t
    by_cases hm : m = n
    · subst hm
      simp [Node.chain]
    · simp [hm]
  have hsup : ∀ m s, ((db.attachnode n).nodes m).Supersedes s → (db.nodes m).Supersedes s :=
    fun m s hs => hs.of_sublist fun t => (hchain m t) ▸ .refl _
  refine ⟨h.numbered.withNodes _, fun m => ⟨?_, ?_, ?_, ?_, ?_, ?_⟩, h.committed, h.writer, ?_⟩
  · by_cases hm : m = n
    · subst hm
      simpa using (h.nodes m).wf.referenced _
    · simpa [hm] using (h.nodes m).wf
  · simp only [hchain]
    exact (h.nodes m).issued
  · simp only [hchain]
    exact (h.nodes m).writer
  · simp only [hchain]
    exact (h.nodes m).live
  · refine (h.nodes m).references.trans ?_
    by_cases hm : m = n
    · subst hm
      simp
    · simp [hm]
  · exact fun s hs => (h.nodes m).kept s (hsup m s hs)
  · intro s hs m t
    rw [← h.shows s hs m t, Node.view, hchain, Node.view]

/-- The first part of a cleanup step: headers of a rolled back version are marked. -/
def Db.marked (db : Db ν δ) (c : Cleanup ν) : Db ν δ := match c.rollback with
  | some serial =>
    { db with nodes := update db.nodes c.node (rollbackNode (db.nodes c.node) serial) }
  | none => db

omit h in
lemma Db.cleanup_eq (db : Db ν δ) (c : Cleanup ν) :
    db.cleanup c = (db.marked c).release c.node c.leastSerial (db.cleanups.erase c) := by
  unfold cleanup marked release
  cases c.rollback <;> simp

lemma Sound.marked {c : Cleanup ν} (hc : c ∈ db.cleanups) :
    Sound ops (db.marked c) l ∧ ∀ s, c.rollback = some s →
      (∀ t, ∀ k ∈ ((db.marked c).nodes c.node).chain t, k.ignore = false → k.serial ≠ s) ∧
        ¬((db.marked c).nodes c.node).Supersedes s := by
  unfold Db.marked
  cases hr : c.rollback with
  | none => exact ⟨h, by simp⟩
  | some r =>
    obtain ⟨hnone, hlt⟩ := h.numbered.rolled c.node r ⟨c, hc, rfl, hr⟩
    have hn := h.nodes c.node
    dsimp only
    refine ⟨⟨h.numbered.withNodes _, fun m => ?_, h.committed, h.writer, ?_⟩, ?_⟩
    · by_cases hm : m = c.node
      · subst hm
        constructor
        · simpa using hn.wf.rollbackNode r
        · simp only [update_self, chain_rollbackNode]
          intro t k hk
          obtain ⟨k1, hk1, rfl⟩ := mem_map.mp hk
          rw [marked_serial]
          exact hn.issued t k1 hk1
        · simp [hnone]
        · simp only [update_self, chain_rollbackNode]
          intro t k hk hi
          obtain ⟨k1, hk1, rfl⟩ := mem_map.mp hk
          have hsame := (marked_ignore hi).2
          rw [hsame] at hi ⊢
          exact hn.live t k1 hk1 hi
        · simp only [update_self]
          exact hn.references
        · simp only [update_self]
          exact fun s hs => hn.kept s (supersedes_rollbackNode hs).1
      · exact (h.nodes m).frame (update_of_ne hm ..) (fun _ => id)
          (fun f hf => .inl ⟨f, hf, rfl⟩) (fun _ => id) (fun _ => id) le_rfl
    · intro s hs m t
      rw [← h.shows s hs m t]
      by_cases hm : m = c.node
      · subst hm
        simp only [update_self]
        refine view_rollbackNode ?_ t
        rcases hs with ⟨v, hv, rfl⟩ | ⟨f, hf, -⟩
        · exact (h.numbered.le_current hv).trans_lt hlt
        · simp [hnone] at hf
      · simp [hm]
    · rintro s ⟨⟩
      simp only [update_self]
      refine ⟨fun t k hk hi => ?_, fun hs => (supersedes_rollbackNode hs).2 rfl⟩
      rw [chain_rollbackNode] at hk
      obtain ⟨k1, -, rfl⟩ := mem_map.mp hk
      rw [marked_serial]
      exact (marked_ignore hi).1

lemma Sound.cleanup {c : Cleanup ν} (hc : c ∈ db.cleanups) :
    Sound ops (db.cleanup c) l := by
  obtain ⟨hm, hgone⟩ := h.marked hc
  have hcleanups : (db.marked c).cleanups = db.cleanups := by
    unfold Db.marked
    cases c.rollback <;> rfl
  have hleast : (db.marked c).leastSerial = db.leastSerial := by
    unfold Db.marked
    cases c.rollback <;> rfl
  rw [cleanup_eq, ← hcleanups]
  rw [← hcleanups] at hc
  refine hm.release (hleast ▸ hm.numbered.stale c hc) erase_sublist ?_ ?_
  · -- the record of the cleanup itself is spare
    refine lt_of_lt_of_le ?_ (hm.nodes c.node).references
    have hcount : ((db.marked c).cleanups.map (·.node)).count c.node =
        (((db.marked c).cleanups.erase c).map (·.node)).count c.node + 1 := by
      rw [((perm_cons_erase hc).map _).count_eq]
      simp
    simp only [records, hcount]
    exact Nat.lt_succ_self _
  · rintro m s ⟨d, hd, rfl, hs⟩
    by_cases hdc : d = c
    · subst hdc
      exact .inr (hgone s hs)
    · exact .inl ⟨d, (mem_erase_of_ne hdc).mpr hd, rfl, hs⟩

end

omit [DecidableEq ν] in
lemma Db.RollsBack.append_none
    (hcleanups : db'.cleanups = db.cleanups ++ cleanupList none k changed) :
    db'.RollsBack n s ↔ db.RollsBack n s := by
  unfold RollsBack
  rw [hcleanups]
  constructor
  · rintro ⟨c, hc, hcn, hcs⟩
    rcases mem_append.mp hc with hc | hc
    · exact ⟨c, hc, hcn, hcs⟩
    · obtain ⟨d, -, rfl⟩ := mem_map.mp hc
      simp at hcs
  · rintro ⟨c, hc, hcn⟩
    exact ⟨c, mem_append_left _ hc, hcn⟩

variable (h : Sound ops db l)
include h

lemma Sound.passed
    (hnodes : db'.nodes = db.nodes) (hnext : db'.nextSerial = db.nextSerial)
    (hpassed : Passed db.leastSerial db.openVersions db'.leastSerial db'.openVersions changed)
    (hcurrent : db'.current.serial = db.current.serial)
    (hfuture : db'.future.map holdings = db.future.map holdings)
    (hcleanups : db'.cleanups = db.cleanups ++ cleanupList none k changed)
    (hk : k ≤ db'.leastSerial) : Sound ops db' l := by
  have hrolls := fun n s => RollsBack.append_none (n := n) (s := s) hcleanups
  have hfut : ∀ f' ∈ db'.future, ∃ f ∈ db.future, f.serial = f'.serial ∧
      f.changedList = f'.changedList := by
    intro f' hf'
    rw [mem_def] at hf'
    rw [hf'] at hfuture
    obtain ⟨f, hf, hff⟩ := map_eq_some_iff.mp hfuture.symm
    exact ⟨f, hf, congrArg fst hff, congrArg snd hff⟩
  have hfut' : ∀ f ∈ db.future, ∃ f' ∈ db'.future, f'.serial = f.serial ∧
      f'.changedList = f.changedList := by
    intro f hf
    rw [mem_def] at hf
    rw [hf] at hfuture
    obtain ⟨f', hf', hff⟩ := map_eq_some_iff.mp hfuture
    exact ⟨f', hf', congrArg fst hff, congrArg snd hff⟩
  have hissued : ∀ s, db.Issued s → db'.Issued s := by
    unfold Issued
    rw [hnext]
    exact fun s => id
  have hrecords : ∀ n, db'.records n = db.records n := by
    intro n
    have hf : changedNodes db'.future.toList = changedNodes db.future.toList := by
      cases hd : db.future with
      | none =>
        rw [hd] at hfuture
        rw [map_eq_none_iff.mp hfuture]
      | some f =>
        obtain ⟨f', hf', -, hcl⟩ := hfut' f hd
        rw [mem_def] at hf'
        simp [hf', changedNodes, hcl]
    have hc : (db'.cleanups.map (·.node)).count n =
        (db.cleanups.map (·.node)).count n + (changed.map (·.node)).count n := by
      simp [hcleanups, cleanupList, comp_def]
    have := hpassed.records n
    unfold records
    rw [hf, hc]
    omega
  have hopen : ∀ s, db'.Open s → db.Open s := by
    rintro s (⟨v', hv', rfl⟩ | ⟨f', hf', rfl⟩)
    · obtain ⟨v, hv, hs⟩ := hpassed.serials v' hv'
      exact .inl ⟨v, hv, hs⟩
    · obtain ⟨f, hf, hs, -⟩ := hfut f' hf'
      exact .inr ⟨f, hf, hs⟩
  have hnum := h.numbered
  refine ⟨⟨hpassed.ordered, hnext ▸ hnum.next, ?_, ?_, ?_, ?_⟩, fun n => ?_, ?_, ?_, ?_⟩
  · rw [hcurrent]
    exact hissued _ hnum.current
  · intro f' hf'
    obtain ⟨f, hf, hs, -⟩ := hfut f' hf'
    rw [hcurrent, ← hs]
    exact ⟨(hnum.future f hf).1, hissued _ (hnum.future f hf).2⟩
  · intro c hc
    rw [hcleanups] at hc
    rcases mem_append.mp hc with hc | hc
    · exact (hnum.stale c hc).trans hpassed.grows
    · obtain ⟨d, -, rfl⟩ := mem_map.mp hc
      exact hk
  · intro n s hr
    obtain ⟨hnone, hlt⟩ := hnum.rolled n s ((hrolls n s).mp hr)
    rw [hnone] at hfuture
    exact ⟨map_eq_none_iff.mp hfuture, hcurrent ▸ hlt⟩
  · refine (h.nodes n).frame (by rw [hnodes]) hissued ?_ ?_ ?_ (hrecords n).le
    · intro f' hf'
      obtain ⟨f, hf, hs, -⟩ := hfut f' hf'
      exact .inl ⟨f, hf, hs⟩
    · rintro s (hle | ⟨f, hf, hs, hmem⟩ | hr)
      · exact .inl (hcurrent ▸ hle)
      · obtain ⟨f', hf', hs', hcl⟩ := hfut' f hf
        exact .inr (.inl ⟨f', hf', hs.trans hs'.symm, hcl ▸ hmem⟩)
      · exact .inr (.inr ((hrolls n s).mpr hr))
    · rintro s (hk | ⟨f, hf, hs, hmem⟩ | hr)
      · exact .inl (hpassed.keeps n s hk)
      · obtain ⟨f', hf', hs', hcl⟩ := hfut' f hf
        exact .inr (.inl ⟨f', hf', hs.trans hs'.symm, hcl ▸ hmem⟩)
      · exact .inr (.inr ((hrolls n s).mpr hr))
  · rw [hcurrent]
    exact h.committed
  · have := congrArg (Option.map fst) hfuture
    simp only [Option.map_map] at this
    exact h.writer.trans this.symm
  · intro s hs n t
    rw [hnodes]
    exact h.shows s (hopen s hs) n t

lemma Sound.currentversion : Sound ops db.currentversion l :=
  h.passed rfl rfl (Passed.of_holdings h.numbered.ordered rfl) rfl rfl
    (append_nil _).symm le_rfl

lemma Sound.attachversion (serial : ℕ) :
    Sound ops (db.attachversion serial) l := by
  have hholdings : ∀ v : Version ν, (attached serial v).holdings = v.holdings := by
    intro v
    unfold attached
    split <;> rfl
  refine h.passed rfl rfl (Passed.of_holdings h.numbered.ordered ?_)
    (congrArg fst (hholdings db.current)) ?_ (append_nil _).symm le_rfl
  · simp [openVersions, Db.attachversion, comp_def, hholdings]
  · simp [Db.attachversion, comp_def, hholdings]

lemma Sound.closeReader {serial : ℕ}
    (hclose : db.closeReader serial = some db') : Sound ops db' l := by
  unfold Db.closeReader at hclose
  split at hclose
  · split at hclose
    · cases hclose
      exact h.passed rfl rfl (Passed.of_holdings h.numbered.ordered rfl) rfl rfl
        (append_nil _).symm le_rfl
    · simp at hclose
  · obtain ⟨c, hc, rfl⟩ := map_eq_some_iff.mp hclose
    obtain ⟨hpassed, hserial⟩ := Passed.closeOlder h.numbered.ordered hc
    exact h.passed rfl rfl hpassed hserial rfl rfl le_rfl

end LbBind.Rbtdb

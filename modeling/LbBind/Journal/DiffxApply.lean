import LbBind.Journal.Diffx

/-! The diff between two versions, applied to the second one, gives the first one. For the types
that a tuple can name it contains exactly the records that are in one version only. A record that is
stored under another type (a SIG record from a master file is stored under the type that it covers)
is not found when it is to be deleted. -/

namespace LbBind.Journal

open Lib Diff List Tuple
open Rdatatype
open Rbtdb (Typepair)
open Zone

variable {ρ : Type*} [LinearOrder ρ] {covers : ρ → ℕ} {sorter : Sorter (Tuple ρ)} {a b : Db ρ}
  {p : Place} {t u : Tuple ρ} {ts us : List (Tuple ρ)} {z z' : Contents ρ}

def Lacks (us : List (Tuple ρ)) (t : Tuple ρ) : Prop :=
  ∀ u ∈ us, rdataKey u = rdataKey t → u.ttl ≠ t.ttl

lemma mem_diffSubtract (hts : (ts.map rdataKey).Nodup) (hus : (us.map rdataKey).Nodup) :
    t ∈ diffSubtract sorter ts us ↔ t ∈ ts ∧ Lacks us t ∨ t ∈ us ∧ Lacks ts t := by
  have hperm : ∀ {l : List (Tuple ρ)} {x}, x ∈ sorter.sort rdataOrder l ↔ x ∈ l :=
    (sorter.perm rdataOrder _).mem_iff
  have hinj := inj_on_of_nodup_map hts
  have hinj' := inj_on_of_nodup_map hus
  rw [diffSubtract, mem_merge compares_rdataOrder (sorter.pairwise_lt compares_rdataOrder hts)
    (sorter.pairwise_lt compares_rdataOrder hus), InMerge]
  simp only [hperm, mem_singleton]
  constructor
  · rintro (⟨x, hx, hnot, rfl⟩ | ⟨y, hy, hnot, rfl⟩ | ⟨x, hx, y, hy, heq, ht⟩)
    · exact .inl ⟨hx, fun u hu heq => absurd heq (hnot u hu)⟩
    · exact .inr ⟨hy, fun u hu heq => absurd heq (hnot u hu)⟩
    · split_ifs at ht with httl
      · simp only [mem_cons, not_mem_nil, or_false] at ht
        rcases ht with rfl | rfl
        · refine .inl ⟨hx, fun u hu heq' => ?_⟩
          rw [hinj' hu hy (heq'.trans heq)]
          exact Ne.symm httl
        · refine .inr ⟨hy, fun u hu heq' => ?_⟩
          rw [hinj hu hx (heq'.trans heq.symm)]
          exact httl
      · cases ht
  · rintro (⟨ht, hlacks⟩ | ⟨ht, hlacks⟩)
    · by_cases hy : ∃ y ∈ us, rdataKey y = rdataKey t
      · obtain ⟨y, hy, heq⟩ := hy
        refine .inr (.inr ⟨t, ht, y, hy, heq.symm, ?_⟩)
        simp [(hlacks y hy heq).symm]
      · push Not at hy
        exact .inl ⟨t, ht, hy, rfl⟩
    · by_cases hx : ∃ x ∈ ts, rdataKey x = rdataKey t
      · obtain ⟨x, hx, heq⟩ := hx
        refine .inr (.inr ⟨x, hx, t, ht, heq, ?_⟩)
        simp [hlacks x hx heq]
      · push Not at hx
        exact .inr (.inl ⟨t, ht, hx, rfl⟩)

lemma nodup_diffSubtract (hts : (ts.map rdataKey).Nodup) (hus : (us.map rdataKey).Nodup)
    (hdisj : ∀ t ∈ ts, ∀ u ∈ us, t ≠ u) : (diffSubtract sorter ts us).Nodup := by
  refine nodup_merge (f := rdataKey) compares_rdataOrder
    (sorter.pairwise_lt compares_rdataOrder hts) (sorter.pairwise_lt compares_rdataOrder hus)
    (fun x => by simp) (fun y => by simp) fun x hx y hy heq => ?_
  have hne := hdisj x ((sorter.perm rdataOrder ts).mem_iff.mp hx) y
    ((sorter.perm rdataOrder us).mem_iff.mp hy)
  split_ifs
  · simp [hne, heq]
  · simp

def Differs (a b : Contents ρ) (t : Tuple ρ) : Prop :=
  t.op = .add ∧ t.record ∈ Zone.records a ∧ t.record ∉ Zone.records b ∨
    t.op = .del ∧ t.record ∈ Zone.records b ∧ t.record ∉ Zone.records a

/-- The versions have the same rdatasets of the types that a tuple cannot name. -/
def AgreeUnnamed (a b : Contents ρ) : Prop :=
  ∀ p type, tupleType type ≠ type → (a p).find type = (b p).find type

omit [LinearOrder ρ] in
lemma AgreeUnnamed.symm {a b : Contents ρ} (h : AgreeUnnamed a b) : AgreeUnnamed b a :=
  fun p type hne => (h p type hne).symm

omit [LinearOrder ρ] in
lemma AgreeUnnamed.mem_records {a b : Contents ρ} {r : Record ρ} (h : AgreeUnnamed a b)
    (hne : tupleType r.type ≠ r.type) (hr : r ∈ Zone.records a) : r ∈ Zone.records b := by
  rw [Zone.mem_records, ← h r.place r.type hne]
  exact hr

lemma mem_getNameDiff_lacks {a b : Contents ρ} {op op' : Op} (ha : Kept covers a)
    (hb : Kept covers b) (hagree : AgreeUnnamed a b) :
    t ∈ getNameDiff a op p ∧ Lacks (getNameDiff b op' p) t ↔
      t.op = op ∧ t.record ∈ Zone.records a ∧ t.record ∉ Zone.records b ∧ t.record.place = p := by
  constructor
  · rintro ⟨ht, hlacks⟩
    obtain ⟨hop, hname, type, htype, hmem⟩ := mem_getNameDiff.mp ht
    -- a record of the other version would be in its list
    have hnot : (⟨p, type, t.ttl, t.rdata⟩ : Record ρ) ∉ Zone.records b := fun hb => by
      refine hlacks ⟨op', p.name, t.ttl, tupleType type, t.rdata⟩
        (mem_getNameDiff.mpr ⟨rfl, rfl, type, rfl, hb⟩) ?_ rfl
      rw [htype]
      rfl
    have hnamed : tupleType type = type := by
      by_contra hne
      exact hnot (hagree.mem_records hne hmem)
    have hrecord : t.record = ⟨p, type, t.ttl, t.rdata⟩ := by
      have hplace : p = place p.name type := ha.placed _ hmem
      rw [record, ← htype, hnamed, hname, ← hplace]
    rw [hrecord]
    exact ⟨hop, hmem, hnot, rfl⟩
  · rintro ⟨hop, hmem, hnot, rfl⟩
    have hnamed : tupleType t.type = t.type := by
      by_contra hne
      exact hnot (hagree.mem_records hne hmem)
    refine ⟨mem_getNameDiff.mpr ⟨hop, rfl, t.type, hnamed, hmem⟩, fun u hu hkey httl => ?_⟩
    obtain ⟨-, -, type, htype, hu⟩ := mem_getNameDiff.mp hu
    obtain ⟨hbase, hrdata⟩ := rdataKey_eq_iff.mp hkey
    have hbase' : type.base = t.type.base := by
      rw [← hbase, ← htype]
      rfl
    -- the record of the other version has the same type
    have heq : type = t.type := by
      by_cases hne : tupleType type = type
      · have hcovers : type.covers = t.type.covers := by
          by_cases hrrsig : t.type.base = rrsig
          · have hu' := hb.covered _ hu (hbase'.trans hrrsig)
            rw [show type.covers = covers u.rdata from hu', hrdata]
            exact (ha.covered _ hmem hrrsig).symm
          · have h1 : type.covers = 0 := by
              rw [← hne]
              exact if_neg (hbase'.symm ▸ hrrsig)
            have h2 : t.type.covers = 0 := by
              rw [← hnamed]
              exact if_neg hrrsig
            rw [h1, h2]
        cases type
        cases ht : t.type
        simp_all
      · exact ha.once _ (hagree.symm.mem_records hne hu) _ hmem rfl hbase' hrdata
    apply hnot
    rw [heq, httl, hrdata] at hu
    exact hu

lemma getNameDiff_eq_nil {nsec3 : Bool} {n : List (List ℕ)} (op : Op) (h : n ∉ a.names nsec3) :
    getNameDiff a.version op ⟨nsec3, n⟩ = [] := by
  have hnil : (a.version ⟨nsec3, n⟩).rdatasets = [] := by
    by_contra hne
    exact h (a.complete _ hne)
  rw [getNameDiff, hnil]
  rfl

def DiffersAt (a b : Contents ρ) (p : Place) (t : Tuple ρ) : Prop :=
  t ∈ getNameDiff a .add p ∧ Lacks (getNameDiff b .del p) t ∨
    t ∈ getNameDiff b .del p ∧ Lacks (getNameDiff a .add p) t

lemma differsAt_iff {a b : Contents ρ} (ha : Kept covers a) (hb : Kept covers b)
    (hagree : AgreeUnnamed a b) : DiffersAt a b p t ↔ Differs a b t ∧ t.record.place = p := by
  rw [DiffersAt, mem_getNameDiff_lacks ha hb hagree, mem_getNameDiff_lacks hb ha hagree.symm, Differs,
    or_and_right]
  simp only [and_assoc]

section
variable (ha : Kept covers a.version) (hb : Kept covers b.version)
include ha hb

lemma mem_diffNamespace {nsec3 : Bool} : t ∈ diffNamespace sorter a b nsec3 ↔
      ∃ n, DiffersAt a.version b.version ⟨nsec3, n⟩ t := by
  rw [diffNamespace, mem_merge compares_compareValues (a.sorted nsec3) (b.sorted nsec3), InMerge]
  simp only [id_eq, mem_diffSubtract (nodup_getNameDiff ha) (nodup_getNameDiff hb)]
  constructor
  · rintro (⟨n, -, hnot, ht⟩ | ⟨n, -, hnot, ht⟩ | ⟨n, -, m, -, rfl, ht⟩)
    · have hnil := getNameDiff_eq_nil (a := b) .del fun h => hnot n h rfl
      exact ⟨n, .inl ⟨ht, by simp [Lacks, hnil]⟩⟩
    · have hnil := getNameDiff_eq_nil (a := a) .add fun h => hnot n h rfl
      exact ⟨n, .inr ⟨ht, by simp [Lacks, hnil]⟩⟩
    · exact ⟨n, ht⟩
  · rintro ⟨n, ht⟩
    by_cases hna : n ∈ a.names nsec3 <;> by_cases hnb : n ∈ b.names nsec3
    · exact .inr (.inr ⟨n, hna, n, hnb, rfl, ht⟩)
    · rw [DiffersAt, getNameDiff_eq_nil .del hnb] at ht
      rcases ht with ⟨ht, -⟩ | ⟨ht, -⟩
      · exact .inl ⟨n, hna, fun m hm heq => hnb (heq ▸ hm), ht⟩
      · cases ht
    · rw [DiffersAt, getNameDiff_eq_nil .add hna] at ht
      rcases ht with ⟨ht, -⟩ | ⟨ht, -⟩
      · cases ht
      · exact .inr (.inl ⟨n, hnb, fun m hm heq => hna (heq ▸ hm), ht⟩)
    · rw [DiffersAt, getNameDiff_eq_nil .add hna, getNameDiff_eq_nil .del hnb] at ht
      rcases ht with ⟨ht, -⟩ | ⟨ht, -⟩ <;> cases ht

lemma nodup_diffNamespace (nsec3 : Bool) : (diffNamespace sorter a b nsec3).Nodup := by
  have hname : ∀ {z : Contents ρ} {op n t}, t ∈ getNameDiff z op ⟨nsec3, n⟩ → t.name = n :=
    fun ht => (mem_getNameDiff.mp ht).2.1
  refine nodup_merge (f := name) compares_compareValues (a.sorted nsec3) (b.sorted nsec3)
    (fun n => ⟨(nodup_getNameDiff ha).of_map, fun t ht => hname ht⟩)
    (fun n => ⟨(nodup_getNameDiff hb).of_map, fun t ht => hname ht⟩) fun n _ m _ heq => ⟨?_, ?_⟩
  · refine nodup_diffSubtract (nodup_getNameDiff ha) (nodup_getNameDiff hb) fun t ht u hu heq => ?_
    have hop := (mem_getNameDiff.mp ht).1
    rw [heq, (mem_getNameDiff.mp hu).1] at hop
    cases hop
  · intro t ht
    rw [mem_diffSubtract (nodup_getNameDiff ha) (nodup_getNameDiff hb)] at ht
    rcases ht with ⟨ht, -⟩ | ⟨ht, -⟩
    · exact hname ht
    · exact (hname ht).trans heq.symm

lemma mem_dbDiffx (hagree : AgreeUnnamed a.version b.version) :
    t ∈ dbDiffx sorter a b ↔ Differs a.version b.version t := by
  rw [dbDiffx, mem_append, mem_diffNamespace ha hb, mem_diffNamespace ha hb]
  simp only [differsAt_iff ha hb hagree]
  constructor
  · rintro (⟨n, h, -⟩ | ⟨n, h, -⟩) <;> exact h
  · intro h
    cases hnsec3 : t.record.place.nsec3 with
    | false => exact .inl ⟨_, h, congrArg (Place.mk · t.record.place.name) hnsec3⟩
    | true => exact .inr ⟨_, h, congrArg (Place.mk · t.record.place.name) hnsec3⟩

lemma nodup_dbDiffx (hagree : AgreeUnnamed a.version b.version) : (dbDiffx sorter a b).Nodup := by
  refine nodup_append.mpr ⟨nodup_diffNamespace ha hb _, nodup_diffNamespace ha hb _, ?_⟩
  rintro t ht _ ht' rfl
  simp only [mem_diffNamespace ha hb, differsAt_iff ha hb hagree] at ht ht'
  obtain ⟨_, -, hfalse⟩ := ht
  obtain ⟨_, -, htrue⟩ := ht'
  rw [hfalse] at htrue
  cases htrue

end

section
omit [LinearOrder ρ]

lemma ixfrOrder_total (t u : Tuple ρ) : ixfrOrder t u ≤ 0 ∨ ixfrOrder u t ≤ 0 := by
  simp only [ixfrOrder]
  split_ifs <;> omega

lemma ixfrOrder_trans (t u v : Tuple ρ) (h1 : ixfrOrder t u ≤ 0) (h2 : ixfrOrder u v ≤ 0) :
    ixfrOrder t v ≤ 0 := by
  simp only [ixfrOrder] at *
  split_ifs at * <;> omega

lemma ixfrOrder_deletes (h : ixfrOrder t u ≤ 0) (hu : u.op.adds = false) : t.op.adds = false := by
  by_contra ht
  have hdeletes : deletes u - deletes t = 1 := by
    rw [deletes, deletes, if_neg (by simp [hu]), if_pos (by simpa using ht)]
    rfl
  rw [ixfrOrder, hdeletes] at h
  simp at h

end

lemma eq_filter_append {α : Type*} {q : α → Bool} {l : List α}
    (h : l.Pairwise fun x y => q y → q x) : l = l.filter q ++ l.filter (fun x => !q x) := by
  induction l with
  | nil => rfl
  | cons x l ih =>
    rw [pairwise_cons] at h
    cases hx : q x with
    | true =>
      have hnot : ¬(!q x) := by simp [hx]
      rw [filter_cons_of_pos hx, filter_cons_of_neg (p := fun x => !q x) hnot, cons_append,
        ← ih h.2]
    | false =>
      have hnone : ∀ y ∈ x :: l, ¬q y := by
        intro y hy hq
        rcases mem_cons.mp hy with rfl | hy
        · simp [hx] at hq
        · simp [h.1 y hy hq] at hx
      rw [filter_eq_nil_iff.mpr hnone, nil_append, filter_eq_self.mpr]
      simpa using hnone

lemma transactionDiff_eq (sorter : Sorter (Tuple ρ)) (a b : Db ρ) : transactionDiff sorter a b =
    (transactionDiff sorter a b).filter (fun t => !t.op.adds) ++
      (transactionDiff sorter a b).filter (fun t => t.op.adds) := by
  have hsorted := sorter.sorted ixfrOrder ixfrOrder_total ixfrOrder_trans (dbDiffx sorter a b)
  have heq := eq_filter_append (q := fun t : Tuple ρ => !t.op.adds)
    (hsorted.imp fun h hu => by simpa using ixfrOrder_deletes h (by simpa using hu))
  simpa only [transactionDiff, Bool.not_not] using heq

omit [LinearOrder ρ] in
lemma apply_append [DecidableEq ρ] (h : ∀ t ∈ ts, ∀ u ∈ us, t.op ≠ u.op) :
    apply (ts ++ us) z = apply ts z >>= apply us := by
  have hsplit : (ts ++ us).splitBy sameGroup = ts.splitBy sameGroup ++ us.splitBy sameGroup := by
    refine splitBy_append fun t ht u hu => ?_
    by_contra hsame
    exact h t (mem_of_getLast? ht) u (mem_of_head? hu)
      (sameGroup_iff.mp (by simpa using hsame)).2.1
  rw [apply, eachGroup, hsplit, foldlM_append]
  rfl

lemma find_apply_of_ne {type : Typepair} (h : ∀ t ∈ ts, t.type ≠ type)
    (happly : apply ts z = .ok z') (p : Place) : (z' p).find type = (z p).find type := by
  rw [apply, eachGroup] at happly
  have hgroups : ∀ g ∈ ts.splitBy sameGroup, ∀ t ∈ g, t.type ≠ type := fun g hg t ht => by
    refine h t ?_
    rw [← flatten_splitBy sameGroup ts]
    exact mem_flatten.mpr ⟨g, hg, ht⟩
  generalize ts.splitBy sameGroup = gs at happly hgroups
  induction gs generalizing z with
  | nil =>
    cases happly
    rfl
  | cons g gs ih =>
    rw [foldlM_cons] at happly
    cases hg : applyGroup z g with
    | error e =>
      rw [hg] at happly
      cases happly
    | ok y =>
      rw [hg] at happly
      rw [ih happly fun g hg => hgroups g (.tail _ hg)]
      cases g with
      | nil =>
        cases hg
        rfl
      | cons t g =>
        obtain ⟨rds, hrds, -, rfl⟩ := applyGroup_cons hg
        have hne : type ≠ rds.type := by
          rw [(type_tordataset hrds).1]
          exact (hgroups _ (.head _) t (.head _)).symm
        by_cases hp : p = place t.name t.type
        · rw [hp, Function.update_self, find_groupChange_of_ne hne]
        · rw [Function.update_of_ne hp]

lemma mem_transactionDiff : t ∈ transactionDiff sorter a b ↔ t ∈ dbDiffx sorter a b :=
  (sorter.perm ixfrOrder _).mem_iff

lemma type_ne_of_mem (ha : Kept covers a.version) (hb : Kept covers b.version) {type : Typepair}
    (hne : tupleType type ≠ type) (ht : t ∈ transactionDiff sorter a b) : t.type ≠ type := by
  have hnamed : tupleType t.type = t.type := by
    rw [mem_transactionDiff, dbDiffx, mem_append, mem_diffNamespace ha hb,
      mem_diffNamespace ha hb] at ht
    obtain ⟨type, htype⟩ : ∃ type, tupleType type = t.type := by
      rcases ht with ⟨n, ⟨ht, -⟩ | ⟨ht, -⟩⟩ | ⟨n, ⟨ht, -⟩ | ⟨ht, -⟩⟩ <;>
        exact (mem_getNameDiff.mp ht).2.2.imp fun _ h => h.1
    rw [← htype]
    simp only [tupleType]
    split_ifs <;> rfl
  rintro rfl
  exact hne hnamed

omit [LinearOrder ρ] in
lemma eq_of_record_eq (hop : t.op = u.op) (h : t.record = u.record) : t = u := by
  obtain ⟨op, n, l, ty, d⟩ := t
  simp_all [record, place]

lemma records_filter (sorter : Sorter (Tuple ρ)) (ha : Kept covers a.version)
    (hb : Kept covers b.version) (hagree : AgreeUnnamed a.version b.version) (r : Record ρ) :
    (r ∈ ((transactionDiff sorter a b).filter fun t => !t.op.adds).map record ↔
      r ∈ Zone.records b.version ∧ r ∉ Zone.records a.version) ∧
    (r ∈ ((transactionDiff sorter a b).filter fun t => t.op.adds).map record ↔
      r ∈ Zone.records a.version ∧ r ∉ Zone.records b.version) := by
  have hrecord : ∀ {z : Contents ρ}, Kept covers z → r ∈ Zone.records z → ∀ op,
      (⟨op, r.place.name, r.ttl, r.type, r.rdata⟩ : Tuple ρ).record = r := fun hz hr op =>
    Record.ext (hz.placed r hr).symm rfl rfl rfl
  simp only [mem_map, mem_filter, mem_transactionDiff, mem_dbDiffx ha hb hagree]
  refine ⟨⟨?_, fun hr => ?_⟩, ⟨?_, fun hr => ?_⟩⟩
  · rintro ⟨t, ⟨⟨hop, -⟩ | ⟨-, ht⟩, hadds⟩, rfl⟩
    · simp [hop, Op.adds] at hadds
    · exact ht
  · refine ⟨_, ⟨.inr ⟨rfl, ?_⟩, rfl⟩, hrecord hb hr.1 .del⟩
    rw [hrecord hb hr.1]
    exact hr
  · rintro ⟨t, ⟨⟨-, ht⟩ | ⟨hop, -⟩, hadds⟩, rfl⟩
    · exact ht
    · simp [hop, Op.adds] at hadds
  · refine ⟨_, ⟨.inl ⟨rfl, ?_⟩, rfl⟩, hrecord ha hr.1 .add⟩
    rw [hrecord ha hr.1]
    exact hr

section
variable (ha : Kept covers a.version) (hb : Kept covers b.version)
  (hagree : AgreeUnnamed a.version b.version)
include ha hb hagree

lemma op_of_mem (ht : t ∈ transactionDiff sorter a b) :
    t.op = if t.op.adds then .add else .del := by
  rw [mem_transactionDiff, mem_dbDiffx ha hb hagree] at ht
  obtain ⟨hop, -⟩ | ⟨hop, -⟩ := ht <;> simp [hop, Op.adds]

lemma nodup_records_filter {q : Tuple ρ → Bool} {adds : Bool} (hq : ∀ t, q t → t.op.adds = adds) :
    (((transactionDiff sorter a b).filter q).map record).Nodup := by
  have hnodup : (transactionDiff sorter a b).Nodup :=
    (sorter.perm ixfrOrder _).nodup_iff.mpr (nodup_dbDiffx ha hb hagree)
  refine List.Nodup.map_on (fun t ht u hu heq => eq_of_record_eq ?_ heq) (hnodup.filter _)
  obtain ⟨ht, hqt⟩ := mem_filter.mp ht
  obtain ⟨hu, hqu⟩ := mem_filter.mp hu
  rw [op_of_mem ha hb hagree ht, op_of_mem ha hb hagree hu, hq t hqt, hq u hqu]

lemma apply_transactionDiff : ∃ z, apply (transactionDiff sorter a b) b.version = .ok z ∧
      Zone.records z = Zone.records a.version := by
  have hmem := fun r => records_filter sorter ha hb hagree r
  have heq := transactionDiff_eq sorter a b
  set dels := (transactionDiff sorter a b).filter fun t => !t.op.adds with hdels
  set adds := (transactionDiff sorter a b).filter fun t => t.op.adds with hadds
  have hdelsOp : ∀ t ∈ dels, t.op.adds = false := fun t ht => by
    simpa using (mem_filter.mp ht).2
  have haddsOp : ∀ t ∈ adds, t.op.adds := fun t ht => (mem_filter.mp ht).2
  have hrunDels := Changes.run_dels (C := changes) hdelsOp
    (nodup_records_filter ha hb hagree fun t ht => by simpa using ht)
    fun t ht => ((hmem t.record).1.mp (mem_map_of_mem ht)).1
  obtain ⟨y, hy, hrecords⟩ := apply_of_run hb.free hb.bounded subset_rfl
    (fun t ht hop => by simp [hdelsOp t ht] at hop) hrunDels
  have hboth : ∀ r, r ∈ Zone.records y ↔ r ∈ Zone.records b.version ∧ r ∈ Zone.records a.version := by
    intro r
    rw [hrecords, Set.mem_sdiff]
    refine and_congr_right fun hr => ?_
    rw [Set.mem_ofPred_eq, show changes.item = record from rfl, (hmem r).1]
    tauto
  have hend : Zone.records y ∪ {r | r ∈ adds.map record} = Zone.records a.version := by
    ext r
    rw [Set.mem_union, hboth, Set.mem_ofPred_eq, (hmem r).2]
    tauto
  have hrunAdds : changes.Run adds (Zone.records y) (Zone.records a.version) := by
    rw [← hend]
    refine Changes.run_adds haddsOp (nodup_records_filter ha hb hagree fun t ht => ht)
      (fun t ht hold => ?_) ?_
    · exact ((hmem t.record).2.mp (mem_map_of_mem ht)).2 ((hboth _).mp hold).1
    · exact hend.symm ▸ ha.free
  obtain ⟨z, hz, hrecords'⟩ := apply_of_run
    (fun r hr r' hr' => ha.free r ((hboth r).mp hr).2 r' ((hboth r').mp hr').2) ha.bounded
    (fun r hr => ((hboth r).mp hr).2)
    (fun t ht _ => ((hmem t.record).2.mp (mem_map_of_mem ht)).1) hrunAdds
  refine ⟨z, ?_, hrecords'⟩
  rw [heq, apply_append fun t ht u hu hop => ?_, hy]
  · exact hz
  · have := hdelsOp t ht
    rw [hop, haddsOp u hu] at this
    cases this

end

omit [LinearOrder ρ] in
lemma record_mem_of_isRecord {a b : Contents ρ} {r : Record ρ} (ha : Kept covers a)
    (hb : Kept covers b) (hagree : AgreeUnnamed a b) (ht : t.record ∈ Zone.records a)
    (hr : r ∈ Zone.records b) (htr : IsRecord t r) : t.record ∈ Zone.records b := by
  obtain ⟨hname, htype, httl, hrdata⟩ := htr
  have hnamed : tupleType r.type = r.type := by
    by_contra hne
    have hbase : r.type.base = t.record.type.base := (congrArg Typepair.base htype :)
    have heq := ha.once r (hagree.symm.mem_records hne hr) _ ht hname hbase hrdata
    exact hne (htype.trans heq.symm)
  have heq : t.record = r := by
    refine Record.ext ?_ (htype.symm.trans hnamed) httl.symm hrdata.symm
    rw [hb.placed r hr, hname, ← hnamed, htype]
    rfl
  exact heq ▸ hr

/-- The diff between two versions leads from the second one to the first, and has no record of
both, exactly if they agree in the rdatasets of types that a tuple cannot name. -/
theorem transactionDiff_iff (sorter : Sorter (Tuple ρ)) (ha : Kept covers a.version)
    (hb : Kept covers b.version) :
    ((∃ z, Diff.apply (transactionDiff sorter a b) b.version = .ok z ∧
        ∀ p type, (z p).find type = (a.version p).find type) ∧
      ∀ t ∈ transactionDiff sorter a b, ∀ r ∈ Zone.records a.version, ∀ r' ∈ Zone.records b.version,
        ¬(IsRecord t r ∧ IsRecord t r')) ↔
    ∀ p type, tupleType type ≠ type → (a.version p).find type = (b.version p).find type := by
  constructor
  · rintro ⟨⟨z, hz, hsame⟩, -⟩ p type hne
    rw [← hsame, find_apply_of_ne (fun t ht => type_ne_of_mem ha hb hne ht) hz]
  · intro hagree
    obtain ⟨z, hz, hrecords⟩ := apply_transactionDiff ha hb hagree
    refine ⟨⟨z, hz, records_eq_iff.mp hrecords⟩, ?_⟩
    rintro t ht r hr r' hr' ⟨htr, htr'⟩
    rw [mem_transactionDiff, mem_dbDiffx ha hb hagree] at ht
    rcases ht with ⟨-, hmem, hnot⟩ | ⟨-, hmem, hnot⟩
    · exact hnot (record_mem_of_isRecord ha hb hagree hmem hr' htr')
    · exact hnot (record_mem_of_isRecord hb ha (AgreeUnnamed.symm hagree) hmem hr htr)

def exampleDb (n : Node ℕ) : Db ℕ where
  version p := if p = ⟨false, [[101]]⟩ then n else Node.empty
  names nsec3 := if nsec3 then [] else [[[101]]]
  sorted nsec3 := by cases nsec3 <;> simp
  complete p h := by
    split_ifs at h with hp
    · simp [hp]
    · exact absurd rfl h

/-- The zone with a SIG record that covers its SOA record, as it is loaded from a master file. -/
def exampleSigned : Db ℕ := exampleDb ⟨[.single ⟨soa, 0⟩ 60 7, .single ⟨sig, soa⟩ 60 1],
    by decide⟩

def exampleUnsigned (ttl : ℕ) : Db ℕ := exampleDb ⟨[.single ⟨soa, 0⟩ ttl 8], by simp⟩

lemma kept_of_list {z : Contents ℕ} (l : List (Record ℕ)) (hl : l.length ≤ 0xffff)
    (hmem : ∀ r ∈ Zone.records z, r ∈ l) (hpairs : ∀ r ∈ l, ∀ r' ∈ l, (r ≠ r' → ¬r.Conflict r') ∧
      (r.place.name = r'.place.name → r.type.base = r'.type.base → r.rdata = r'.rdata →
        r.type = r'.type))
    (hall : ∀ r ∈ l, r.place = place r.place.name r.type ∧ r.type.base ≠ rrsig) :
    Kept (fun _ => 0) z where
  free r hr r' hr' := (hpairs r (hmem r hr) r' (hmem r' hr')).1
  placed r hr := (hall r (hmem r hr)).1
  covered r hr h := absurd h (hall r (hmem r hr)).2
  once r hr r' hr' := (hpairs r (hmem r hr) r' (hmem r' hr')).2
  bounded := bounded_of_list l hl hmem

lemma mem_exampleDb {n : Node ℕ} {r : Record ℕ} (h : r ∈ Zone.records (exampleDb n).version) :
    ∃ s ∈ n.rdatasets, r.rdata ∈ s.rdatas ∧ r = ⟨⟨false, [[101]]⟩, s.type, s.ttl, r.rdata⟩ := by
  obtain ⟨s, hs, httl, hd⟩ := h
  rw [Node.find_eq_some_iff, exampleDb] at hs
  obtain ⟨hs, htype⟩ := hs
  simp only at hs
  split_ifs at hs with hp
  · exact ⟨s, hs, hd, Record.ext hp htype.symm httl rfl⟩
  · cases hs

lemma exampleSigned_kept : Kept (fun _ => 0) exampleSigned.version := by
  refine kept_of_list [⟨⟨false, [[101]]⟩, ⟨soa, 0⟩, 60, 7⟩,
    ⟨⟨false, [[101]]⟩, ⟨sig, soa⟩, 60, 1⟩] (by decide) (fun r hr => ?_)
    (by decide) (by decide)
  obtain ⟨s, hs, hd, heq⟩ := mem_exampleDb hr
  simp only [mem_cons, not_mem_nil, or_false] at hs
  rcases hs with rfl | rfl <;> rw [heq, Finset.mem_singleton.mp hd] <;> simp [Rdataset.single]

lemma exampleUnsigned_kept (ttl : ℕ) : Kept (fun _ => 0) (exampleUnsigned ttl).version := by
  refine kept_of_list [⟨⟨false, [[101]]⟩, ⟨soa, 0⟩, ttl, 8⟩] (by simp) (fun r hr => ?_)
    (by simp) fun r hr => ?_
  · obtain ⟨s, hs, hd, heq⟩ := mem_exampleDb hr
    obtain rfl := mem_singleton.mp hs
    rw [heq, Finset.mem_singleton.mp hd]
    simp [Rdataset.single]
  · rw [mem_singleton.mp hr]
    exact ⟨rfl, by simp [soa, rrsig]⟩

/-- A change of the TTL only. -/
theorem transactionDiff_iff_ttl :
    transactionDiff (insertionSorter _) (exampleUnsigned 90) (exampleUnsigned 60) =
      [⟨.del, [[101]], 60, ⟨soa, 0⟩, 8⟩, ⟨.add, [[101]], 90, ⟨soa, 0⟩, 8⟩] ∧
    ∃ z, Diff.apply (transactionDiff (insertionSorter _) (exampleUnsigned 90) (exampleUnsigned 60))
        (exampleUnsigned 60).version = .ok z ∧
      ∀ p type, (z p).find type = ((exampleUnsigned 90).version p).find type := by
  refine ⟨by decide +kernel, ((transactionDiff_iff (insertionSorter _) (exampleUnsigned_kept 90)
    (exampleUnsigned_kept 60)).mpr fun p type hne => ?_).1⟩
  have hnone : ∀ ttl, ((exampleUnsigned ttl).version p).find type = none := fun ttl => by
    rw [Node.find_eq_none_iff, exampleUnsigned, exampleDb]
    intro s hs
    simp only at hs
    split_ifs at hs
    · rw [mem_singleton.mp hs]
      rintro rfl
      exact hne rfl
    · cases hs
  rw [hnone, hnone]

/-- The SIG record is to be deleted, but not found. -/
theorem transactionDiff_sig : Kept (fun _ => 0) (exampleUnsigned 60).version ∧
    Kept (fun _ => 0) exampleSigned.version ∧
    (match Diff.apply (transactionDiff (insertionSorter _) (exampleUnsigned 60) exampleSigned)
        exampleSigned.version with
      | .ok _ => false
      | .error e => e = .notExact) = true :=
  ⟨exampleUnsigned_kept 60, exampleSigned_kept, by decide +kernel⟩

end LbBind.Journal

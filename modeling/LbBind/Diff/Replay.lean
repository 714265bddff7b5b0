import LbBind.Lib.Changes
import LbBind.Zone.Records
import LbBind.Diff.Apply

/-! Diffs as logs of changes to the records of a version. A diff of which each tuple can be applied
by itself can be applied in groups, with the same records at the end. -/

namespace LbBind.Diff

open Lib List Function Changes Tuple Set Rdatatype
open Rbtdb (Typepair)
open Zone

variable {ρ : Type*}

def Tuple.record (t : Tuple ρ) : Record ρ := ⟨place t.name t.type, t.type, t.ttl, t.rdata⟩

def changes : Changes (Tuple ρ) (Record ρ) where
  adds t := t.op.adds
  item := Tuple.record
  conflict := Record.Conflict
  symm _ _ := Record.Conflict.symm

variable {z z' : Contents ρ} {p : Place} {t u : Tuple ρ} {ts : List (Tuple ρ)} {s : Rdataset ρ}
  {r : Record ρ} {S' U : Set (Record ρ)}

lemma passes_iff {r : Result} : passes r ↔ r = .success ∨ r = .unchanged ∨ r = .nxrrset := by
  simp [passes, or_assoc]

lemma cnameAndOther_of_free (h : changes.Free (records z)) (p : Place) :
    (z p).cnameAndOther = false := by
  rw [← Bool.not_eq_true, Node.cnameAndOther_iff]
  rintro ⟨t, s, u, s', hs, hs', hclash⟩
  obtain ⟨r, hr, hp, rfl⟩ := exists_mem_records hs
  obtain ⟨r', hr', hp', rfl⟩ := exists_mem_records hs'
  refine h r hr r' hr' (fun heq => ?_) ⟨hp.trans hp'.symm, .inr (.inl hclash)⟩
  exact hclash.2.1 (heq ▸ hclash.1)

lemma not_conflict_of_put (h : ((z p).put s).cnameAndOther = false) (hr : r ∈ records z)
    (hne : r.type ≠ s.type) {r' : Record ρ} (hr' : r'.type = s.type) (hplace : r'.place = p) :
    ¬r.Conflict r' := by
  rintro ⟨hp, ⟨ht, -⟩ | hclash⟩
  · exact hne (ht.trans hr')
  · obtain ⟨s', hs', -⟩ := hr
    rw [hp, hplace] at hs'
    rw [← Node.find_put_of_ne hne] at hs'
    have hs : ((z p).put s).find s.type = some s := by rw [Node.find_put, if_pos rfl]
    rw [hr'] at hclash
    rw [← Bool.not_eq_true, Node.cnameAndOther_iff] at h
    rcases hclash with hclash | hclash
    · exact h ⟨_, _, _, _, hs', hs, hclash⟩
    · exact h ⟨_, _, _, _, hs, hs', hclash⟩

variable [DecidableEq ρ]

lemma applyGroup_add (h : applyGroup z [t] = .ok z') (hadd : t.op.adds) :
    (changes.Ok t (records z) ∧ records z' = changes.after t (records z)) ∨
      (t.record ∈ records z ∧ records z' = records z) := by
  obtain ⟨rds, hrds, hpass, rfl⟩ := applyGroup_cons h
  rw [tordataset_singleton] at hrds
  cases hrds
  have hchange : ∀ n : Node ρ, groupChange t.op (.single t.type t.ttl t.rdata) n =
      n.add exactly (.single t.type t.ttl t.rdata) := fun n => if_pos hadd
  rw [hchange] at hpass ⊢
  rw [ok_add hadd, after_add hadd]
  have hI : ∀ r ∈ ({t.record} : Set (Record ρ)), r.place = place t.name t.type ∧ r.type = t.type := by
    rintro r rfl
    exact ⟨rfl, rfl⟩
  have hsame : ∀ r : Record ρ, r.place = place t.name t.type → r.type = t.type →
      (r = t.record ↔ r.ttl = t.ttl ∧ r.rdata = t.rdata) := by
    intro r hp ht
    simp [Record.ext_iff, record, hp, ht]
  rcases Node.add_exactly_ok (passes_iff.mp hpass) with
    ⟨old, hfind, httl, hsub, hn⟩ | ⟨hfind, hcname, hn⟩ | ⟨old, hfind, httl, hsub, hsingle, hcname, hn⟩
  · right
    rw [hn, update_eq_self]
    exact ⟨(mem_records_of_find hfind).mpr ⟨httl, Finset.singleton_subset_iff.mp hsub⟩, rfl⟩
  · left
    rw [hn]
    refine ⟨⟨not_mem_records_of_find hfind, fun r hr => ?_⟩, ?_⟩
    · by_cases htype : r.type = t.type
      · rintro ⟨hp, -⟩
        rw [mem_records, hp, htype] at hr
        obtain ⟨s, hs, -⟩ := hr
        exact absurd (hs.symm.trans hfind) (by simp)
      · exact not_conflict_of_put hcname hr htype rfl rfl
    · ext r
      rw [mem_records_put hI fun r hp ht => ?_, mem_insert_iff, or_comm]
      · rfl
      · have hnone : r ∉ records z := not_mem_records_of_find (by rw [hp, ht]; exact hfind)
        rw [Rdataset.has_single, or_iff_right hnone]
        exact (hsame r hp ht).symm
  · left
    rw [hn]
    have hnew : t.rdata ∉ old.rdatas := fun hmem => hsub (Finset.singleton_subset_iff.mpr hmem)
    refine ⟨⟨fun hmem => hnew ((mem_records_of_find hfind).mp hmem).2, fun r hr => ?_⟩, ?_⟩
    · by_cases htype : r.type = t.type
      · rintro ⟨hp, ⟨-, hor⟩ | hclash⟩
        · rw [mem_records_of_find (by rw [hp, htype]; exact hfind)] at hr
          rcases hor with hne | hsingleton
          · exact hne (hr.1.trans httl.symm)
          · refine hsingle ⟨?_, htype ▸ hsingleton⟩
            rw [Finset.one_lt_card]
            exact ⟨r.rdata, by simp [hr.2], t.rdata, by simp [Rdataset.single], fun heq => hnew (heq ▸ hr.2)⟩
        · rcases hclash with hclash | hclash
          · exact hclash.2.1 (htype.symm.trans hclash.1)
          · exact hclash.2.1 (htype.trans hclash.1)
      · exact not_conflict_of_put hcname hr htype rfl rfl
    · ext r
      rw [mem_records_put hI fun r hp ht => ?_, mem_insert_iff, or_comm]
      · rfl
      · rw [Rdataset.has_plus httl, mem_records_of_find (by rw [hp, ht]; exact hfind),
          Rdataset.has_single, mem_singleton_iff, hsame r hp ht]

lemma applyGroup_del (h : applyGroup z [t] = .ok z') (hdel : t.op.adds = false) :
    changes.Ok t (records z) ∧ records z' = changes.after t (records z) := by
  obtain ⟨rds, hrds, hpass, rfl⟩ := applyGroup_cons h
  rw [tordataset_singleton] at hrds
  cases hrds
  have hchange : ∀ n : Node ρ, groupChange t.op (.single t.type t.ttl t.rdata) n =
      n.subtract true (.single t.type t.ttl t.rdata) := fun n => if_neg (by simp [hdel])
  rw [hchange] at hpass ⊢
  rw [ok_del hdel, after_del hdel]
  by_cases hexact : ∃ old, (z (place t.name t.type)).find t.type = some old ∧ t.ttl = old.ttl ∧
      t.rdata ∈ old.rdatas
  · obtain ⟨old, hfind, httl, hmem⟩ := hexact
    rw [Node.subtract_exact hfind httl (Finset.singleton_subset_iff.mpr hmem)]
    refine ⟨(mem_records_of_find hfind).mpr ⟨httl, hmem⟩, ?_⟩
    ext r
    simp only [Rdataset.single]
    rw [mem_records_minus hfind, mem_sdiff, mem_singleton_iff]
    refine and_congr_right fun hr => not_congr ⟨?_, ?_⟩
    · rintro ⟨hp, ht, hd⟩
      rw [mem_records_of_find (by rw [hp, ht]; exact hfind)] at hr
      exact Record.ext hp ht (hr.1.trans httl.symm) (Finset.mem_singleton.mp hd)
    · rintro rfl
      exact ⟨rfl, rfl, Finset.mem_singleton_self _⟩
  · rw [Node.subtract_notExact fun old hfind hboth =>
      hexact ⟨old, hfind, hboth.1, Finset.singleton_subset_iff.mp hboth.2⟩] at hpass
    simp [passes] at hpass

def Bounded (U : Set (Record ρ)) : Prop := ∀ p type, ∃ F : Finset ρ, F.card ≤ 0xffff ∧
    ∀ r ∈ U, r.place = p → r.type = type → r.rdata ∈ F

lemma bounded_of_list (l : List (Record ρ)) (hl : l.length ≤ 0xffff)
    (h : ∀ r ∈ U, r ∈ l) : Bounded U := by
  intro p type
  refine ⟨(l.map Record.rdata).toFinset, (toFinset_card_le _).trans (by simpa using hl), ?_⟩
  intro r hr _ _
  exact mem_toFinset.mpr (mem_map_of_mem (h r hr))

structure Uniform (t : Tuple ρ) (ts : List (Tuple ρ)) : Prop where
  record : ∀ u ∈ t :: ts, u.record = ⟨t.record.place, t.type, t.ttl, u.rdata⟩
  nodup : ((t :: ts).map (·.rdata)).Nodup
  single : issingleton t.type.base → ts = []

variable {S T : Set (Record ρ)}

omit [DecidableEq ρ] in
lemma uniform_of_free (hgroup : ∀ u ∈ ts, sameGroup t u)
    (hnodup : ((t :: ts).map record).Nodup) (hfree : changes.Free S)
    (hS : ∀ u ∈ t :: ts, u.record ∈ S) : Uniform t ts := by
  have hconflict : ∀ u ∈ ts, ¬t.record.Conflict u.record := fun u hu => by
    refine hfree _ (hS t (.head _)) _ (hS u (.tail _ hu)) fun heq => ?_
    rw [map_cons, nodup_cons] at hnodup
    exact hnodup.1 (heq ▸ mem_map_of_mem hu)
  have hsame : ∀ u ∈ ts, t.record.place = u.record.place ∧ t.type = u.type := fun u hu => by
    obtain ⟨hname, -, htype⟩ := sameGroup_iff.mp (hgroup u hu)
    exact ⟨by simp only [record, hname, htype], htype⟩
  have hrecord : ∀ u ∈ t :: ts, u.record = ⟨t.record.place, t.type, t.ttl, u.rdata⟩ := fun u hu => by
    rcases mem_cons.mp hu with rfl | hu
    · rfl
    · obtain ⟨hp, htype⟩ := hsame u hu
      have httl : t.ttl = u.ttl := by
        by_contra hne
        exact hconflict u hu ⟨hp, .inl ⟨htype, .inl hne⟩⟩
      exact Record.ext hp.symm htype.symm httl.symm rfl
  refine ⟨hrecord, ?_, fun hsingle => ?_⟩
  · refine List.Nodup.of_map (fun d => (⟨t.record.place, t.type, t.ttl, d⟩ : Record ρ)) ?_
    rw [map_map]
    exact (map_congr_left hrecord) ▸ hnodup
  · by_contra hne
    obtain ⟨u, hu⟩ := exists_mem_of_ne_nil ts hne
    obtain ⟨hp, htype⟩ := hsame u hu
    exact hconflict u hu ⟨hp, .inl ⟨htype, .inr hsingle⟩⟩

lemma tordataset_uniform (h : Uniform t ts) (hU : Bounded U)
    (hsub : ∀ u ∈ t :: ts, u.record ∈ U) :
    ∃ rds, tordataset t ts = .ok rds ∧ rds.type = t.type ∧ rds.ttl = t.ttl ∧
      ∀ d, d ∈ rds.rdatas ↔ d ∈ (t :: ts).map (·.rdata) := by
  obtain ⟨F, hcard, hF⟩ := hU t.record.place t.type
  have hlength : (t :: ts).length ≤ 0xffff := by
    rw [← length_map (fun u : Tuple ρ => u.rdata), ← toFinset_card_of_nodup h.nodup]
    refine (Finset.card_le_card fun d hd => ?_).trans hcard
    obtain ⟨u, hu, rfl⟩ := mem_map.mp (mem_toFinset.mp hd)
    have hrecord := h.record u hu
    exact hF u.record (hsub u hu) (by rw [hrecord]) (by rw [hrecord])
  have hsingle : ¬(1 < ((t :: ts).map (·.rdata)).toFinset.card && issingleton t.type.base) := by
    simp only [Bool.and_eq_true, decide_eq_true_eq, not_and]
    intro hlt hsingle
    rw [h.single hsingle] at hlt
    simp at hlt
  simp only [tordataset, if_neg (Nat.not_lt.mpr hlength), if_neg hsingle]
  exact ⟨_, rfl, rfl, rfl, fun d => mem_toFinset⟩

omit [DecidableEq ρ] in
lemma has_iff_of_uniform (h : Uniform t ts) (htype : s.type = t.type) (httl : s.ttl = t.ttl)
    (hrdatas : ∀ d, d ∈ s.rdatas ↔ d ∈ (t :: ts).map (·.rdata)) (hp : r.place = t.record.place)
    (hr : r.type = s.type) : s.Has r ↔ r ∈ (t :: ts).map record := by
  rw [Rdataset.Has, hrdatas, mem_map, mem_map]
  constructor
  · rintro ⟨hrttl, u, hu, hd⟩
    refine ⟨u, hu, ?_⟩
    rw [h.record u hu]
    exact Record.ext hp.symm (hr.trans htype).symm (hrttl.trans httl).symm hd
  · rintro ⟨u, hu, rfl⟩
    rw [h.record u hu, httl]
    exact ⟨rfl, u, hu, rfl⟩

section
variable (hfree : changes.Free (records z)) (hU : Bounded U) (hsub : records z ⊆ U)
include hfree hU hsub

lemma applyGroup_adds (hadds : ∀ u ∈ t :: ts, u.op.adds ∧ u.record ∈ U)
    (hgroup : ∀ u ∈ ts, sameGroup t u) (hrun : changes.Run (t :: ts) (records z) S') :
    ∃ z', applyGroup z (t :: ts) = .ok z' ∧ records z' = S' := by
  obtain ⟨hnodup, hnew, hmem⟩ : ((t :: ts).map record).Nodup ∧
      (∀ u ∈ t :: ts, u.record ∉ records z) ∧
      ∀ r, r ∈ S' ↔ r ∈ records z ∨ r ∈ (t :: ts).map record :=
    hrun.adds fun u hu => (hadds u hu).1
  have hfree' := hfree.run hrun
  have huniform : Uniform t ts := uniform_of_free hgroup hnodup hfree' fun u hu =>
    (hmem _).mpr (.inr (mem_map_of_mem hu))
  obtain ⟨rds, hrds, htype, httl, hrdatas⟩ := tordataset_uniform huniform hU fun u hu => (hadds u hu).2
  have happly : applyGroup z (t :: ts) =
      change z t.record.place ((z t.record.place).add exactly rds) := by
    rw [applyGroup, hrds]
    exact congrArg (change z t.record.place) (if_pos (hadds t (.head _)).1)
  have hI : ∀ r ∈ {r | r ∈ (t :: ts).map record}, r.place = t.record.place ∧ r.type = rds.type := by
    intro r hr
    obtain ⟨u, hu, rfl⟩ := mem_map.mp hr
    rw [huniform.record u hu, htype]
    exact ⟨rfl, rfl⟩
  rw [happly]
  cases hfind : (z t.record.place).find rds.type with
  | none =>
    have hrecords : records (update z t.record.place ((z t.record.place).put rds)) = S' := by
      ext r
      rw [mem_records_put hI fun r hp hr => ?_, hmem]
      · rfl
      · have hnone : r ∉ records z := not_mem_records_of_find (by rw [hp, hr]; exact hfind)
        rw [or_iff_right hnone]
        exact has_iff_of_uniform huniform htype httl hrdatas hp hr
    have hcname := cnameAndOther_of_free (hrecords.symm ▸ hfree') t.record.place
    rw [update_self] at hcname
    rw [Node.add_exactly_of_none hfind hcname]
    exact ⟨_, rfl, hrecords⟩
  | some old =>
    -- the records that are there have the same TTL, and there may be more than one of them
    obtain ⟨d, hd⟩ := old.nonempty
    have hold : (⟨t.record.place, rds.type, old.ttl, d⟩ : Record ρ) ∈ records z :=
      (mem_records_of_find hfind).mpr ⟨rfl, hd⟩
    have hconflict : ¬(⟨t.record.place, rds.type, old.ttl, d⟩ : Record ρ).Conflict t.record := by
      have hmem0 := (hmem t.record).mpr (.inr (mem_map_of_mem (.head _)))
      refine hfree' _ ((hmem _).mpr (.inl hold)) _ hmem0 fun heq => ?_
      exact hnew t (.head _) (heq ▸ hold)
    have httl' : rds.ttl = old.ttl := by
      by_contra hne
      exact hconflict ⟨rfl, .inl ⟨htype, .inl fun heq => hne (httl.trans heq.symm)⟩⟩
    have hsingle : issingleton rds.type.base = false := by
      by_contra hne
      exact hconflict ⟨rfl, .inl ⟨htype, .inr (by simpa using hne)⟩⟩
    have hrdata : t.rdata ∈ rds.rdatas := (hrdatas _).mpr (by simp)
    have hfind' : (z t.record.place).find t.type = some old := htype ▸ hfind
    have hnotSub : ¬rds.rdatas ⊆ old.rdatas := fun hsub =>
      hnew t (.head _) ((mem_records_of_find (r := t.record) hfind').mpr
        ⟨httl.symm.trans httl', hsub hrdata⟩)
    have hspace : (old.rdatas ∪ rds.rdatas).card ≤ 0xffff := by
      obtain ⟨F, hcard, hF⟩ := hU t.record.place t.type
      refine (Finset.card_le_card (Finset.union_subset (fun e he => ?_) fun e he => ?_)).trans hcard
      · have hr : (⟨t.record.place, t.type, old.ttl, e⟩ : Record ρ) ∈ records z :=
          ⟨old, hfind', rfl, he⟩
        exact hF _ (hsub hr) rfl rfl
      · obtain ⟨u, hu, rfl⟩ := mem_map.mp ((hrdatas e).mp he)
        have hrecord := huniform.record u hu
        exact hF u.record (hadds u hu).2 (by rw [hrecord]) (by rw [hrecord])
    have hrecords : records (update z t.record.place
        ((z t.record.place).put (old.plus rds))) = S' := by
      ext r
      have hI' : ∀ r ∈ {r | r ∈ (t :: ts).map record},
          r.place = t.record.place ∧ r.type = (old.plus rds).type := hI
      rw [mem_records_put hI' fun r hp hr => ?_, hmem]
      · rfl
      · rw [Rdataset.has_plus httl', mem_records_of_find (by rw [hp, hr]; exact hfind)]
        exact or_congr_right (has_iff_of_uniform huniform htype httl hrdatas hp hr)
    have hcname := cnameAndOther_of_free (hrecords.symm ▸ hfree') t.record.place
    rw [update_self] at hcname
    rw [Node.add_exactly_of_some hfind httl' hnotSub hsingle hspace hcname]
    exact ⟨_, rfl, hrecords⟩

lemma applyGroup_dels (hdels : ∀ u ∈ t :: ts, u.op.adds = false)
    (hgroup : ∀ u ∈ ts, sameGroup t u) (hrun : changes.Run (t :: ts) (records z) S') :
    ∃ z', applyGroup z (t :: ts) = .ok z' ∧ records z' = S' := by
  obtain ⟨hnodup, hold, hmem⟩ : ((t :: ts).map record).Nodup ∧
      (∀ u ∈ t :: ts, u.record ∈ records z) ∧
      ∀ r, r ∈ S' ↔ r ∈ records z ∧ r ∉ (t :: ts).map record := hrun.dels hdels
  have huniform : Uniform t ts := uniform_of_free hgroup hnodup hfree hold
  obtain ⟨rds, hrds, htype, httl, hrdatas⟩ := tordataset_uniform huniform hU fun u hu => hsub (hold u hu)
  have happly : applyGroup z (t :: ts) =
      change z t.record.place ((z t.record.place).subtract true rds) := by
    have hop : ¬t.op.adds := by simp [hdels t (.head _)]
    rw [applyGroup, hrds]
    exact congrArg (change z t.record.place) (if_neg hop)
  obtain ⟨old, hfind, hhas⟩ := hold t (.head _)
  have hfind' : (z t.record.place).find rds.type = some old := htype ▸ hfind
  have hsubset : rds.rdatas ⊆ old.rdatas := fun e he => by
    obtain ⟨u, hu, rfl⟩ := mem_map.mp ((hrdatas e).mp he)
    have hmem := hold u hu
    rw [huniform.record u hu, mem_records_of_find (by exact hfind)] at hmem
    exact hmem.2
  rw [happly, Node.subtract_exact hfind' (httl.trans hhas.1) hsubset]
  refine ⟨_, rfl, ?_⟩
  ext r
  rw [mem_records_minus hfind', hmem]
  refine and_congr_right fun hr => not_congr ⟨?_, fun hr' => ?_⟩
  · rintro ⟨hp, hrtype, hd⟩
    rw [mem_records_of_find (by rw [hp, hrtype]; exact hfind')] at hr
    exact (has_iff_of_uniform huniform htype httl hrdatas hp hrtype).mp
      ⟨hr.1.trans (hhas.1.symm.trans httl.symm), hd⟩
  · obtain ⟨u, hu, rfl⟩ := mem_map.mp hr'
    refine ⟨by rw [huniform.record u hu], by rw [huniform.record u hu, htype], ?_⟩
    exact (hrdatas _).mpr (mem_map_of_mem hu)

lemma apply_of_run (hadds : ∀ u ∈ ts, u.op.adds → u.record ∈ U)
    (hrun : changes.Run ts (records z) S') : ∃ z', apply ts z = .ok z' ∧ records z' = S' := by
  have hgroups : ∀ g ∈ ts.splitBy sameGroup, ∃ t us, g = t :: us ∧ ∀ u ∈ us, sameGroup t u := by
    intro g hg
    obtain ⟨t, us, rfl⟩ := exists_cons_of_ne_nil (ne_nil_of_mem_splitBy hg)
    exact ⟨t, us, rfl, fun u hu => sameGroup_of_mem_splitBy hg hu⟩
  rw [apply, eachGroup]
  rw [← flatten_splitBy sameGroup ts] at hadds hrun
  generalize ts.splitBy sameGroup = gs at hgroups hadds hrun ⊢
  induction gs generalizing z with
  | nil => exact ⟨z, rfl, hrun.symm⟩
  | cons g gs ih =>
    obtain ⟨t, us, rfl, hsame⟩ := hgroups g (.head _)
    rw [flatten_cons] at hadds hrun
    obtain ⟨T, hg, hgs⟩ := run_append.mp hrun
    have hop : ∀ u ∈ t :: us, u.op = t.op := fun u hu => by
      rcases mem_cons.mp hu with rfl | hu
      · rfl
      · exact (sameGroup_iff.mp (hsame u hu)).2.1.symm
    have hfirst : ∃ y, applyGroup z (t :: us) = .ok y ∧ records y = T := by
      cases hadd : t.op.adds with
      | true =>
        refine applyGroup_adds hfree hU hsub (fun u hu => ?_) hsame hg
        have hu' : u.op.adds := by rw [hop u hu, hadd]
        exact ⟨hu', hadds u (mem_append_left _ hu) hu'⟩
      | false =>
        exact applyGroup_dels hfree hU hsub (fun u hu => by rw [hop u hu, hadd]) hsame hg
    obtain ⟨y, hy, rfl⟩ := hfirst
    have hsub' : records y ⊆ U := hg.subset hsub fun u hu => hadds u (mem_append_left _ hu)
    obtain ⟨z', hz', hrecords⟩ := ih (hfree.run hg) hsub'
      (fun g hg => hgroups g (.tail _ hg))
      (fun u hu => hadds u (mem_append_right _ hu)) hgs
    refine ⟨z', ?_, hrecords⟩
    rw [foldlM_cons, hy]
    exact hz'

end

def sameRecord (t u : Tuple ρ) : Bool :=
  t.name = u.name && t.type = u.type && t.rdata = u.rdata && t.ttl = u.ttl

/-- `dns_diff_appendminimal`: a tuple that cancels an earlier one takes it out of the diff. -/
def appendminimal (ts : List (Tuple ρ)) (t : Tuple ρ) : List (Tuple ρ) :=
  match ts.find? (sameRecord · t) with
  | none => ts ++ [t]
  | some o => if t.op = o.op then ts.eraseP (sameRecord · t) ++ [t] else ts.eraseP (sameRecord · t)

lemma sameRecord_iff : sameRecord t u ↔ t.record = u.record := by
  simp only [sameRecord, Bool.and_eq_true, decide_eq_true_eq, Record.ext_iff, record, place,
    Place.mk.injEq]
  grind

lemma run_appendminimal {C : Changes (Tuple ρ) (Record ρ)} (hadds : ∀ t, C.adds t = t.op.adds)
    (hitem : C.item = record) (hrun : C.Run ts S T) (hnodup : (ts.map record).Nodup)
    (hok : C.Ok t T) : C.Run (appendminimal ts t) S (C.after t T) ∧
      ((appendminimal ts t).map record).Nodup := by
  rw [appendminimal]
  cases hfind : ts.find? (sameRecord · t) with
  | none =>
    refine ⟨run_snoc.mpr ⟨T, hrun, hok, rfl⟩, ?_⟩
    have hnew : ∀ u ∈ ts, u.record ≠ t.record := fun u hu heq =>
      find?_eq_none.mp hfind u hu (sameRecord_iff.mpr heq)
    simpa [nodup_append, hnodup] using hnew
  | some o =>
    obtain ⟨hsame, us, vs, rfl, hfirst⟩ := find?_eq_some_iff_append.mp hfind
    have herase : (us ++ o :: vs).eraseP (sameRecord · t) = us ++ vs := by
      rw [eraseP_append_right _ fun u hu => by simpa using hfirst u hu,
        eraseP_cons_of_pos (p := (sameRecord · t)) hsame]
    obtain ⟨hne, hcancel⟩ := run_cancel hrun (hitem ▸ hnodup) hok
      (hitem ▸ sameRecord_iff.mp hsame)
    have hop : t.op ≠ o.op := fun heq => hne (by rw [hadds, hadds, heq])
    simp only [if_neg hop, herase]
    refine ⟨hcancel, hnodup.sublist ?_⟩
    exact List.Sublist.map _ (List.Sublist.append_left (sublist_cons_self ..) us)

def presence : Changes (Tuple ρ) (Record ρ) := { changes with
    conflict := fun _ _ => False
    symm := fun _ _ h => h }

lemma run_foldl_appendminimal {E : Set (Record ρ)} {us : List (Tuple ρ)}
    (hrun : presence.Run us T E) (hdiff : presence.Run ts S T)
    (hnodup : (ts.map record).Nodup) : presence.Run (us.foldl appendminimal ts) S E ∧
      ((us.foldl appendminimal ts).map record).Nodup := by
  induction us generalizing ts T with
  | nil => exact ⟨hrun ▸ hdiff, hnodup⟩
  | cons u us ih =>
    obtain ⟨hdiff, hnodup⟩ := run_appendminimal (fun _ => rfl) rfl hdiff hnodup hrun.1
    exact ih hrun.2 hdiff hnodup

/-- A diff kept with `dns_diff_appendminimal` from changes that add what is not there and delete
what is there has neither a tuple and its inverse nor a tuple twice, and its deletions and then its
additions make the same change. -/
theorem foldl_appendminimal_minimal {S E : Set (Record ρ)} {us : List (Tuple ρ)}
    (hrun : presence.Run us S E) :
    (∀ t ∈ us.foldl appendminimal [], ∀ u ∈ us.foldl appendminimal [],
        t.name = u.name → t.type = u.type → t.rdata = u.rdata → t.ttl = u.ttl →
          t.op.adds = u.op.adds) ∧
      ((us.foldl appendminimal []).map fun t => (t.op, t.name, t.type, t.rdata, t.ttl)).Nodup ∧
      presence.Run ((us.foldl appendminimal []).filter (fun t => !t.op.adds) ++
        (us.foldl appendminimal []).filter fun t => t.op.adds) S E := by
  have hnil : presence.Run ([] : List (Tuple ρ)) S S := rfl
  obtain ⟨hdiff, hnodup⟩ := run_foldl_appendminimal hrun hnil nodup_nil
  refine ⟨fun t ht u hu hname htype hrdata httl => ?_, ?_, hdiff.dels_first hnodup⟩
  · have hsame : t.record = u.record := by simp only [record, hname, htype, hrdata, httl]
    rw [inj_on_of_nodup_map hnodup ht hu hsame]
  · refine List.Nodup.of_map (fun x => (⟨place x.2.1 x.2.2.1, x.2.2.1, x.2.2.2.2, x.2.2.2.1⟩ : Record ρ)) ?_
    rwa [map_map]

/-- A record is added and deleted again, and another one is added. -/
theorem foldl_appendminimal_minimal_three :
    let a : Tuple ℕ := ⟨.add, [], 300, ⟨1, 0⟩, 1⟩
    presence.Run [a, { a with op := .del }, { a with rdata := 2 }] ∅
        {({ a with rdata := 2 } : Tuple ℕ).record} ∧
      presence.Run ([({ a with rdata := 2 } : Tuple ℕ)]) ∅ {({ a with rdata := 2 } : Tuple ℕ).record} := by
  intro a
  have hrun : presence.Run [a, { a with op := .del }, { a with rdata := 2 }] ∅
      {({ a with rdata := 2 } : Tuple ℕ).record} := by
    simp [Changes.Run, Changes.Ok, Changes.after, presence, changes, Op.adds, record, a]
  exact ⟨hrun, (foldl_appendminimal_minimal hrun).2.2⟩

end LbBind.Diff

import LbBind.Update.Section

/-! What one record of an update section does to the version and to the diff: it applies some
tuples one after another, and these are of the types and at the name that the record is about. -/

namespace LbBind.Update

open Lib Call Diff List Changes
open Rbtdb (Typepair)
open Zone
open Rdatatype

variable {ρ : Type} [LinearOrder ρ] {env : Env ρ} {rr : Rr ρ} {x y x' : State ρ} {t : Tuple ρ}
  {ts us : List (Tuple ρ)} {r : Record ρ} {name : List (List ℕ)}

section
variable {z : Contents ρ} {rest : List (Rr ρ)}
omit [LinearOrder ρ]

lemma prescan_mem (h : prescan env z rest = .ok ()) (hrr : rr ∈ rest) :
    prescanRr env z rr = .ok () := by
  induction rest with
  | nil => cases hrr
  | cons rr' rest ih =>
    rw [prescan] at h
    cases hfirst : prescanRr env z rr' with
    | error e =>
      rw [hfirst] at h
      cases h
    | ok u =>
      rw [hfirst] at h
      rcases mem_cons.mp hrr with rfl | hmem
      · exact hfirst
      · exact ih h hmem

lemma prescanRr_ok (h : prescanRr env z rr = .ok ()) :
    prescanClass env rr = .ok () ∧ prescanPolicy env z rr = .ok () := by
  simp only [prescanRr] at h
  split_ifs at h
  · cases h
  cases hclass : prescanClass env rr with
  | error e => simp [hclass, bind, Except.bind] at h
  | ok u =>
    cases htype : prescanType env rr with
    | error e => simp [hclass, htype, bind, Except.bind] at h
    | ok u => exact ⟨rfl, by simpa [hclass, htype, bind, Except.bind, pure, Except.pure] using h⟩

lemma type_ne_any_of_prescan (h : prescanClass env rr = .ok ())
    (hcls : rr.updateClass = env.rdclass ∨ rr.updateClass = classNone) : rr.type ≠ Rdatatype.any := by
  rintro htype
  rw [prescanClass, htype] at h
  rcases hcls with hcls | hcls
  · rw [if_pos hcls, if_pos (by decide)] at h
    cases h
  · rw [hcls, if_neg (by decide : ¬classNone = classAny), if_pos (rfl : classNone = classNone)] at h
    split_ifs at h with h1 h2 h3 h4
    all_goals simp_all [ismeta, Rdatatype.any]

end

def One (env : Env ρ) (t : Tuple ρ) (x x' : State ρ) : Prop := x'.diff = appendminimal x.diff t ∧
    x'.nodes = env.addnode x.nodes t.record.place ∧
    (changes.Ok t (records x.ver) ∧ records x'.ver = changes.after t (records x.ver) ∨
      t.op.adds ∧ t.record ∈ records x.ver ∧ records x'.ver = records x.ver)

def Applied (env : Env ρ) : List (Tuple ρ) → State ρ → State ρ → Prop
  | [], x, x' => records x'.ver = records x.ver ∧ x'.diff = x.diff ∧ x'.nodes = x.nodes
  | t :: ts, x, x' => ∃ y, One env t x y ∧ Applied env ts y x'

/-- Records have nodes. -/
def Noded (x : State ρ) : Prop := ∀ r ∈ records x.ver, x.nodes r.place

lemma apply_single (z : Contents ρ) (t : Tuple ρ) : apply [t] z = applyGroup z [t] := by
  simp [apply, eachGroup, splitBy, splitBy.loop]

lemma doOneTuple_ends : Ensures (doOneTuple env t) x fun _ x' => One env t x x' := by
  refine .read (.result (fun z hz => .modify ⟨rfl, rfl, ?_⟩) fun _ _ => trivial)
  rw [apply_single] at hz
  cases hadd : t.op.adds with
  | true => exact (applyGroup_add hz hadd).imp_right fun h => ⟨rfl, h⟩
  | false => exact .inl (applyGroup_del hz hadd)

lemma doDiff_ends : Ensures (doDiff env ts) x fun _ x' => Applied env ts x x' := by
  induction ts generalizing x with
  | nil => exact .pure ⟨rfl, rfl, rfl⟩
  | cons t ts ih =>
    exact doOneTuple_ends.bind fun _ y hy =>
      ih.imp fun _ x' hx' => ⟨y, hy, hx'⟩

lemma Applied.congr (h : Applied env ts y x') (hver : records y.ver = records x.ver)
    (hdiff : y.diff = x.diff) (hnodes : y.nodes = x.nodes) : Applied env ts x x' := by
  cases ts with
  | nil => exact ⟨h.1.trans hver, h.2.1.trans hdiff, h.2.2.trans hnodes⟩
  | cons t ts =>
    obtain ⟨w, ⟨hwdiff, hwnodes, hw⟩, hrest⟩ := h
    rw [hver] at hw
    exact ⟨w, ⟨hdiff ▸ hwdiff, hnodes ▸ hwnodes, hw⟩, hrest⟩

lemma Applied.append (h1 : Applied env ts x y) (h2 : Applied env us y x') : Applied env (ts ++ us) x x' := by
  induction ts generalizing x with
  | nil => exact h2.congr h1.1 h1.2.1 h1.2.2
  | cons t ts ih =>
    obtain ⟨w, hw, hrest⟩ := h1
    exact ⟨w, hw, ih hrest⟩

lemma Applied.split (h : Applied env (ts ++ us) x x') : ∃ y, Applied env ts x y ∧ Applied env us y x' := by
  induction ts generalizing x with
  | nil => exact ⟨x, ⟨rfl, rfl, rfl⟩, h⟩
  | cons t ts ih =>
    obtain ⟨w, hw, hrest⟩ := h
    obtain ⟨y, hts, hus⟩ := ih hrest
    exact ⟨y, ⟨w, hw, hts⟩, hus⟩

section

lemma One.mem_iff (h : One env t x x') (hr : r ≠ t.record) :
    r ∈ records x'.ver ↔ r ∈ records x.ver := by
  obtain ⟨-, -, ⟨-, heq⟩ | ⟨-, -, heq⟩⟩ := h
  · rw [heq]
    exact mem_after_of_ne hr
  · rw [heq]

lemma One.mem_of_add (h : One env t x x') (hadd : t.op.adds) : t.record ∈ records x'.ver := by
  obtain ⟨-, -, ⟨-, heq⟩ | ⟨-, hmem, heq⟩⟩ := h
  · rw [heq, after_add hadd]
    exact Set.mem_insert _ _
  · rw [heq]
    exact hmem

lemma One.mem_of_del (h : One env t x x') (hdel : t.op.adds = false) : t.record ∈ records x.ver := by
  obtain ⟨-, -, ⟨hok, -⟩ | ⟨hadd, -⟩⟩ := h
  · exact (ok_del hdel).mp hok
  · rw [hdel] at hadd
    cases hadd

lemma One.not_mem_of_del (h : One env t x x') (hdel : t.op.adds = false) : t.record ∉ records x'.ver := by
  obtain ⟨-, -, ⟨-, heq⟩ | ⟨hadd, -⟩⟩ := h
  · rw [heq, after_del hdel]
    exact fun hmem => hmem.2 rfl
  · rw [hdel] at hadd
    cases hadd

section
variable (h : Applied env ts x x')
include h

lemma Applied.mem_iff (hr : r ∉ ts.map Tuple.record) :
    r ∈ records x'.ver ↔ r ∈ records x.ver := by
  induction ts generalizing x with
  | nil => rw [h.1]
  | cons t ts ih =>
    obtain ⟨y, hy, hrest⟩ := h
    simp only [map_cons, mem_cons, not_or] at hr
    exact (ih hrest hr.2).trans (hy.mem_iff hr.1)

lemma Applied.mem (hr : r ∈ records x'.ver) :
    r ∈ records x.ver ∨ ∃ t ∈ ts, t.op.adds ∧ r = t.record := by
  induction ts generalizing x with
  | nil => exact .inl (h.1 ▸ hr)
  | cons t ts ih =>
    obtain ⟨y, hy, hrest⟩ := h
    rcases ih hrest with hmem | ⟨u, hu, hadd, heq⟩
    · by_cases hrt : r = t.record
      · cases hadd : t.op.adds with
        | true => exact .inr ⟨t, .head _, hadd, hrt⟩
        | false => exact absurd (hrt ▸ hmem) (hy.not_mem_of_del hadd)
      · exact .inl ((hy.mem_iff hrt).mp hmem)
    · exact .inr ⟨u, .tail _ hu, hadd, heq⟩

lemma Applied.free (hfree : changes.Free (records x.ver)) : changes.Free (records x'.ver) := by
  induction ts generalizing x with
  | nil => exact h.1 ▸ hfree
  | cons t ts ih =>
    obtain ⟨y, hy, hrest⟩ := h
    refine ih hrest ?_
    obtain ⟨-, -, ⟨hok, heq⟩ | ⟨-, -, heq⟩⟩ := hy
    · rw [heq]
      exact hfree.after hok
    · rw [heq]
      exact hfree

lemma Applied.noded (hnoded : Noded x) : Noded x' := by
  induction ts generalizing x with
  | nil =>
    rw [Noded, h.1, h.2.2]
    exact hnoded
  | cons t ts ih =>
    obtain ⟨y, hy, hrest⟩ := h
    refine ih hrest fun r hr => ?_
    rw [hy.2.1]
    by_cases heq : r = t.record
    · exact heq ▸ env.addnode_self ..
    · exact env.addnode_mono _ _ _ (hnoded r ((hy.mem_iff heq).mp hr))

lemma Applied.mem_of_del (hdel : ∀ t ∈ ts, t.op.adds = false) (ht : t ∈ ts) :
    t.record ∈ records x.ver := by
  induction ts generalizing x with
  | nil => cases ht
  | cons u ts ih =>
    obtain ⟨y, hy, hrest⟩ := h
    rcases mem_cons.mp ht with rfl | hmem
    · exact hy.mem_of_del (hdel t (.head _))
    · have hthere := ih hrest (fun v hv => hdel v (.tail _ hv)) hmem
      by_cases heq : t.record = u.record
      · exact heq ▸ hy.mem_of_del (hdel u (.head _))
      · exact (hy.mem_iff heq).mp hthere

lemma Applied.run (hnew : ∀ t ∈ ts, t.op.adds → t.record ∉ records x.ver)
    (hnodup : ((ts.filter fun t => t.op.adds).map Tuple.record).Nodup) :
    changes.Run ts (records x.ver) (records x'.ver) := by
  induction ts generalizing x with
  | nil => exact h.1
  | cons t ts ih =>
    obtain ⟨y, hy, hrest⟩ := h
    have hone : changes.Ok t (records x.ver) ∧ records y.ver = changes.after t (records x.ver) := by
      obtain ⟨-, -, hone | ⟨hadd, hmem, -⟩⟩ := hy
      · exact hone
      · exact absurd hmem (hnew t (.head _) hadd)
    refine ⟨hone.1, hone.2 ▸ ih hrest (fun u hu hadd hmem => ?_) ?_⟩
    · have hu' := hnew u (.tail _ hu) hadd
      by_cases heq : u.record = t.record
      · cases hadd' : t.op.adds with
        | true =>
          rw [filter_cons_of_pos (p := fun t : Tuple ρ => t.op.adds) hadd', map_cons,
            nodup_cons] at hnodup
          exact hnodup.1 (heq ▸ mem_map_of_mem (mem_filter.mpr ⟨hu, hadd⟩))
        | false => exact hy.not_mem_of_del hadd' (heq ▸ hmem)
      · exact hu' ((hy.mem_iff heq).mp hmem)
    · refine hnodup.sublist (List.Sublist.map _ ?_)
      exact List.Sublist.filter _ (sublist_cons_self ..)

end
end

section
variable {z : Contents ρ} {found : Found ρ} {s : Rdataset ρ} {type covers : ℕ} {p : Found ρ → Bool}

lemma mem_rrsOf {o : Option (Rdataset ρ)} : found ∈ rrsOf o ↔
    ∃ s, o = some s ∧ found.type = s.type ∧ found.ttl = s.ttl ∧ found.rdata ∈ s.rdatas := by
  cases o with
  | none => simp [rrsOf]
  | some s =>
    simp only [rrsOf, rrs, mem_map, Finset.mem_sort, Option.some.injEq, exists_eq_left']
    constructor
    · rintro ⟨d, hd, rfl⟩
      exact ⟨rfl, rfl, hd⟩
    · rintro ⟨htype, httl, hd⟩
      refine ⟨found.rdata, hd, ?_⟩
      cases found
      simp_all

lemma mem_foreachRr (h : type ≠ Rdatatype.any) : found ∈ foreachRr z name type covers ↔ found.type = ⟨type, covers⟩ ∧
    (⟨findnode name type covers, ⟨type, covers⟩, found.ttl, found.rdata⟩ : Record ρ) ∈ records z := by
  rw [foreachRr, if_neg h, mem_rrsOf, mem_records]
  constructor
  · rintro ⟨s, hs, htype, hhas⟩
    exact ⟨htype.trans (((z _).find_eq_some_iff s _).mp hs).2, s, hs, hhas⟩
  · rintro ⟨htype, s, hs, hhas⟩
    exact ⟨s, hs, htype.trans (((z _).find_eq_some_iff s _).mp hs).2.symm, hhas⟩

lemma rrsetExists_iff (h : type ≠ Rdatatype.any) : rrsetExists z name type covers ↔
    ∃ ttl d, (⟨findnode name type covers, ⟨type, covers⟩, ttl, d⟩ : Record ρ) ∈ records z := by
  rw [rrsetExists, Bool.not_eq_true', isEmpty_eq_false_iff_exists_mem]
  constructor
  · rintro ⟨found, hfound⟩
    exact ⟨_, _, ((mem_foreachRr h).mp hfound).2⟩
  · rintro ⟨ttl, d, hmem⟩
    exact ⟨⟨⟨type, covers⟩, ttl, d⟩, (mem_foreachRr h).mpr ⟨rfl, hmem⟩⟩

omit [LinearOrder ρ] in
lemma mem_deletions {founds : List (Found ρ)} : t ∈ deletions p name founds ↔
    ∃ found ∈ founds, p found ∧ t = found.tuple .del name := by
  simp only [deletions, mem_map, mem_filter, and_assoc]
  exact exists_congr fun found => and_congr_right fun _ => and_congr_right fun _ => eq_comm

end

def Deletes (p : Found ρ → Bool) (name : List (List ℕ)) (types : List Typepair)
    (ts : List (Tuple ρ)) : Prop :=
  ∀ t ∈ ts, ∃ found : Found ρ, found.type ∈ types ∧ p found ∧ t = found.tuple .del name

variable {p : Found ρ → Bool}

omit [LinearOrder ρ] in
lemma Deletes.place {type covers : ℕ} (h : Deletes p name [⟨type, covers⟩] ts) (ht : t ∈ ts) :
    t.name = name ∧ t.type.base = type := by
  obtain ⟨found, hfound, -, rfl⟩ := h t ht
  exact ⟨rfl, congrArg Typepair.base (mem_singleton.mp hfound)⟩

lemma deleteType_ends {type covers : ℕ} (h : type ≠ Rdatatype.any) :
    Ensures (deleteType env p name type covers) x
      fun _ x' => ∃ ts, Applied env ts x x' ∧ Deletes p name [⟨type, covers⟩] ts := by
  refine .read (.check fun _ => doDiff_ends.imp fun _ x' hx' => ⟨_, hx', fun t ht => ?_⟩)
  obtain ⟨found, hfound, hp, rfl⟩ := mem_deletions.mp ht
  exact ⟨found, mem_singleton.mpr ((mem_foreachRr h).mp hfound).1, hp, rfl⟩

lemma deleteEach_ends {types : List Typepair} : Ensures (deleteEach env p name types) x
      fun _ x' => ∃ ts, Applied env ts x x' ∧ Deletes p name types ts := by
  induction types generalizing x with
  | nil => exact .pure ⟨[], ⟨rfl, rfl, rfl⟩, by simp [Deletes]⟩
  | cons type types ih =>
    refine .read (doDiff_ends.bind fun _ y hy => ?_)
    refine ih.imp fun _ x' h => ?_
    obtain ⟨ts, hts, hdel⟩ := h
    refine ⟨_, hy.append hts, fun t ht => ?_⟩
    rcases mem_append.mp ht with ht | ht
    · obtain ⟨found, hfound, hp, rfl⟩ := mem_deletions.mp ht
      obtain ⟨s, hs, htype, -⟩ := mem_rrsOf.mp hfound
      refine ⟨found, ?_, hp, rfl⟩
      rw [htype, (((x.ver _).find_eq_some_iff s type).mp hs).2]
      exact .head _
    · obtain ⟨found, hmem, hfound⟩ := hdel t ht
      exact ⟨found, .tail _ hmem, hfound⟩

structure PreparedFor (rr : Rr ρ) (founds : List (Found ρ)) (ctx : Prepared ρ) : Prop where
  dels : ∀ t ∈ ctx.dels, ∃ found ∈ founds, t = found.tuple .del rr.name
  adds : ∀ t ∈ ctx.adds, ∃ found ∈ founds, found.ttl ≠ rr.ttl ∧ found.rdata ≠ rr.rdata ∧
    found.tuple .del rr.name ∈ ctx.dels ∧ t = { found.tuple .add rr.name with ttl := rr.ttl }
  nodup : (ctx.adds.map Tuple.rdata).Nodup
  ignore : ∀ found ∈ founds, found.ttl = rr.ttl → found.rdata = rr.rdata → ctx.ignoreAdd

namespace PreparedFor

variable {founds : List (Found ρ)} {found : Found ρ} {ctx : Prepared ρ}
omit [LinearOrder ρ]

variable (h : PreparedFor rr founds ctx)
include h

section
variable (hignore : found.ttl = rr.ttl → found.rdata = rr.rdata → ctx.ignoreAdd)
include hignore

lemma skip :
    PreparedFor rr (founds ++ [found]) ctx where
  dels t ht := by
    obtain ⟨f, hf, heq⟩ := h.dels t ht
    exact ⟨f, mem_append_left _ hf, heq⟩
  adds t ht := by
    obtain ⟨f, hf, heq⟩ := h.adds t ht
    exact ⟨f, mem_append_left _ hf, heq⟩
  nodup := h.nodup
  ignore f hf := by
    rcases mem_append.mp hf with hf | hf
    · exact h.ignore f hf
    · rw [mem_singleton.mp hf]
      exact hignore

omit hignore in
lemma ignored : PreparedFor rr (founds ++ [found]) { ctx with ignoreAdd := true } :=
  have hctx : PreparedFor rr founds { ctx with ignoreAdd := true } :=
    ⟨h.dels, h.adds, h.nodup, fun _ _ _ _ => rfl⟩
  hctx.skip fun _ _ => rfl

lemma del :
    PreparedFor rr (founds ++ [found])
      { ctx with dels := ctx.dels ++ [found.tuple .del rr.name] } where
  dels t ht := by
    rcases mem_append.mp ht with ht | ht
    · exact (h.skip hignore).dels t ht
    · exact ⟨found, by simp, mem_singleton.mp ht⟩
  adds t ht := by
    obtain ⟨f, hf, httl, hrdata, hdel, heq⟩ := (h.skip hignore).adds t ht
    exact ⟨f, hf, httl, hrdata, mem_append_left _ hdel, heq⟩
  nodup := h.nodup
  ignore := (h.skip hignore).ignore

end

lemma change (hnew : ∀ f ∈ founds, f.rdata ≠ found.rdata) (httl : found.ttl ≠ rr.ttl)
    (hrdata : found.rdata ≠ rr.rdata) : PreparedFor rr (founds ++ [found])
      { ctx with
        dels := ctx.dels ++ [found.tuple .del rr.name]
        adds := ctx.adds ++ [{ found.tuple .add rr.name with ttl := rr.ttl }] } := by
  have hdel : PreparedFor rr (founds ++ [found])
      { ctx with dels := ctx.dels ++ [found.tuple .del rr.name] } :=
    h.del fun heq => absurd heq httl
  refine ⟨hdel.dels, fun t ht => ?_, ?_, hdel.ignore⟩
  · rcases mem_append.mp ht with ht | ht
    · exact hdel.adds t ht
    · exact ⟨found, by simp, httl, hrdata, by simp, mem_singleton.mp ht⟩
  · rw [map_append]
    refine List.Nodup.append h.nodup (by simp) ?_
    simp only [map_cons, map_nil, disjoint_singleton]
    intro hmem
    obtain ⟨t, ht, heq⟩ := mem_map.mp hmem
    obtain ⟨f, hf, -, -, -, rfl⟩ := h.adds t ht
    exact hnew f hf heq

end PreparedFor

variable {found : Found ρ} {ctx : Prepared ρ} {founds : List (Found ρ)}

section
omit [LinearOrder ρ]

lemma replaces_ends : Ensures (replaces env rr found) x fun _ x' => x' = x := by
  rw [replaces]
  refine .ite (fun _ => .pure rfl) fun _ => .ite (fun _ => .pure rfl) fun _ => ?_
  refine .ite (fun _ => .pure rfl) fun _ => .ite (fun _ => .check fun _ => .pure rfl) fun _ => ?_
  exact .ite (fun _ => .check fun _ => .pure rfl) fun _ => .pure rfl

lemma addRrPrepareAction_ends (h : PreparedFor rr founds ctx)
    (hnew : ∀ f ∈ founds, f.rdata ≠ found.rdata) (hbase : found.type.base = rr.type) :
    Ensures (addRrPrepareAction env rr ctx found) x
      fun ctx' x' => x' = x ∧ PreparedFor rr (founds ++ [found]) ctx' := by
  have hequal : found.rdata = rr.rdata →
      (found.type.base = rr.type && env.rdatas.casecompare rr.type found.rdata rr.rdata) := by
    intro heq
    simp [hbase, heq, env.rdatas.casecompare_self]
  rw [addRrPrepareAction]
  refine .ite (fun _ => .pure ⟨rfl, h.ignored⟩) fun hne => ?_
  have hdiffer : found.ttl = rr.ttl → found.rdata = rr.rdata → ctx.ignoreAdd :=
    fun httl hrdata => absurd (by simpa [hequal hrdata] using httl) hne
  refine replaces_ends.bind ?_
  rintro _ _ rfl
  refine .ite (fun _ => .pure ⟨rfl, h.del hdiffer⟩) fun _ => ?_
  refine .ite (fun httl => .pure ⟨rfl, ?_⟩) fun _ => .pure ⟨rfl, h.skip hdiffer⟩
  split_ifs with heq
  · exact h.del hdiffer
  · exact h.change hnew httl fun hrdata => heq (hequal hrdata)

lemma addRrPrepare_ends {rest : List (Found ρ)}
    (h : PreparedFor rr founds ctx) (hnodup : ((founds ++ rest).map Found.rdata).Nodup)
    (hbase : ∀ f ∈ rest, f.type.base = rr.type) :
    Ensures (addRrPrepare env rr ctx rest) x
      fun ctx' x' => x' = x ∧ PreparedFor rr (founds ++ rest) ctx' := by
  induction rest generalizing founds ctx with
  | nil =>
    rw [append_nil]
    exact .pure ⟨rfl, h⟩
  | cons found rest ih =>
    have hnew : ∀ f ∈ founds, f.rdata ≠ found.rdata := fun f hf heq => by
      rw [map_append, nodup_append] at hnodup
      exact hnodup.2.2 _ (mem_map_of_mem hf) _ (mem_map_of_mem (.head _)) heq
    refine (addRrPrepareAction_ends h hnew (hbase found (.head _))).bind
      ?_
    rintro ctx' _ ⟨rfl, h'⟩
    rw [append_cons] at hnodup ⊢
    exact ih h' hnodup fun f hf => hbase f (.tail _ hf)

end

structure AddsRr (rr : Rr ρ) (x : State ρ) (ts : List (Tuple ρ)) : Prop where
  tuples : ∃ dels adds, ts = dels ++ adds ++ [rr.tuple .add] ∧ (∀ t ∈ dels, t.op = .del) ∧
    (∀ t ∈ adds, t.op = .add ∧ t.type = tupleType ⟨rr.type, rr.covers⟩ ∧ t.rdata ≠ rr.rdata ∧
      t.ttl = rr.ttl ∧ ∃ ttl, ttl ≠ t.ttl ∧ { t with op := .del, ttl := ttl } ∈ dels) ∧
    (adds.map Tuple.rdata).Nodup
  name : ∀ t ∈ ts, t.name = rr.name ∧ t.type.base = rr.type
  new : Noded x → (rr.tuple .add).record ∉ records x.ver

omit [LinearOrder ρ] in
lemma place_tupleType (name : List (List ℕ)) (type covers : ℕ) :
    place name (tupleType ⟨type, covers⟩) = findnode name type covers := by
  rw [place, findnode, Place.mk.injEq, tupleType, Bool.eq_iff_iff]
  simp only [Bool.or_eq_true, Bool.and_eq_true, beq_iff_eq, decide_eq_true_eq]
  by_cases h : type = rrsig <;> simp [h, nsec3]

lemma nodup_foreachRr {z : Contents ρ} {type covers : ℕ} (h : type ≠ Rdatatype.any) :
    ((foreachRr z name type covers).map Found.rdata).Nodup := by
  rw [foreachRr, if_neg h]
  cases (z (findnode name type covers)).find ⟨type, covers⟩ with
  | none => simp [rrsOf]
  | some s => simp [rrsOf, rrs, Function.comp_def]

section
variable (hany : rr.type ≠ Rdatatype.any)
include hany

lemma addPrepared_ends : Ensures (addPrepared env rr) x
      fun _ x' => ∃ ts, Applied env ts x x' ∧ (ts = [] ∨ AddsRr rr x ts) := by
  have hstart : PreparedFor rr [] ⟨false, [], []⟩ := ⟨by simp, by simp, by simp, by simp⟩
  have htype : ∀ f ∈ foreachRr x.ver rr.name rr.type rr.covers, f.type = ⟨rr.type, rr.covers⟩ :=
    fun f hf => ((mem_foreachRr hany).mp hf).1
  have hnodup : (([] ++ foreachRr x.ver rr.name rr.type rr.covers).map Found.rdata).Nodup :=
    nodup_foreachRr hany
  refine .read (.check fun hfindable => ?_)
  refine (addRrPrepare_ends hstart hnodup fun f hf => by rw [htype f hf]).bind ?_
  rintro ctx _ ⟨rfl, hctx⟩
  rw [nil_append] at hctx
  refine .ite (fun _ => .pure ⟨[], ⟨rfl, rfl, rfl⟩, .inl rfl⟩) fun hadd => ?_
  refine doDiff_ends.bind fun _ y hy => ?_
  refine doDiff_ends.bind fun _ w hw => ?_
  refine doOneTuple_ends.imp fun _ x' hx' => ?_
  have hlast : Applied env [rr.tuple .add] w x' := ⟨x', hx', rfl, rfl, rfl⟩
  refine ⟨_, (hy.append hw).append hlast, .inr ?_⟩
  refine ⟨⟨ctx.dels, ctx.adds, rfl, fun t ht => ?_, fun t ht => ?_, hctx.nodup⟩, fun t ht => ?_, ?_⟩
  · obtain ⟨f, -, rfl⟩ := hctx.dels t ht
    rfl
  · obtain ⟨f, hf, httl, hrdata, hdel, rfl⟩ := hctx.adds t ht
    exact ⟨rfl, congrArg tupleType (htype f hf), hrdata, rfl, f.ttl, httl, hdel⟩
  · simp only [mem_append, mem_singleton, or_assoc] at ht
    rcases ht with ht | ht | rfl
    · obtain ⟨f, hf, rfl⟩ := hctx.dels t ht
      exact ⟨rfl, congrArg Typepair.base (htype f hf)⟩
    · obtain ⟨f, hf, -, -, -, rfl⟩ := hctx.adds t ht
      exact ⟨rfl, congrArg Typepair.base (htype f hf)⟩
    · exact ⟨rfl, rfl⟩
  · intro hnoded hmem
    rw [Rr.tuple, Tuple.record, place_tupleType] at hmem
    -- where there is no node, there is no record
    have hzero : rr.type = rrsig ∨ rr.covers = 0 := by
      rcases hfindable with h | h | h | h
      · exact absurd h hany
      · rw [hnoded _ hmem] at h
        cases h
      · exact .inr h
      · exact .inl h
    have htuple : tupleType ⟨rr.type, rr.covers⟩ = ⟨rr.type, rr.covers⟩ := by
      rcases hzero with h | h <;> simp [tupleType, h]
    rw [htuple] at hmem
    exact hadd (hctx.ignore ⟨⟨rr.type, rr.covers⟩, rr.ttl, rr.rdata⟩
      ((mem_foreachRr hany).mpr ⟨rfl, hmem⟩) rfl rfl)

inductive Effect (env : Env ρ) (rr : Rr ρ) (x : State ρ) : List (Tuple ρ) → Prop
  | none : Effect env rr x []
  | add {ts : List (Tuple ρ)} (cls : rr.updateClass = env.rdclass) (adds : AddsRr rr x ts)
      (cname : rr.type = Rdatatype.cname → cnameIncompatibleRrsetExists x.ver rr.name = false)
      (other : rr.type ≠ Rdatatype.cname → rrsetExists x.ver rr.name Rdatatype.cname 0 →
        isdnssec rr.type)
      (soa : rr.type = Rdatatype.soa → rrsetExists x.ver rr.name Rdatatype.soa 0) :
      Effect env rr x ts
  | delAny {ts : List (Tuple ρ)} {p : Found ρ → Bool} (type : rr.type = Rdatatype.any)
      (dels : Deletes p rr.name ((x.ver ⟨false, rr.name⟩).rdatasets.map (·.type)) ts)
      (apex : rr.name = env.origin → p = typeNotSoaNorNs)
      (below : rr.name ≠ env.origin → p = typeNotDnssec) : Effect env rr x ts
  | delType {ts : List (Tuple ρ)} (type : rr.type ≠ Rdatatype.any)
      (dels : Deletes (fun _ => true) rr.name [⟨rr.type, rr.covers⟩] ts)
      (apex : rr.name = env.origin → rr.type ≠ soa ∧ rr.type ≠ ns) :
      Effect env rr x ts
  | delRr {ts : List (Tuple ρ)} (cls : rr.updateClass = classNone)
      (dels : Deletes (rrEqual env rr) rr.name [⟨rr.type, rr.covers⟩] ts)
      (apex : rr.name = env.origin → rr.type ≠ soa ∧
        (rr.type = ns → (foreachRr x.ver rr.name ns 0).length ≠ 1)) :
      Effect env rr x ts

lemma addUnlessInternal_ends : Ensures (addUnlessInternal env rr) x
      fun _ x' => ∃ ts, Applied env ts x x' ∧ (ts = [] ∨ AddsRr rr x ts) :=
  .ite (fun _ => .pure ⟨[], ⟨rfl, rfl, rfl⟩, .inl rfl⟩) fun _ =>
    .ite (fun _ => .pure ⟨[], ⟨rfl, rfl, rfl⟩, .inl rfl⟩) fun _ => addPrepared_ends hany

omit hany in
lemma checkSoaIncrement_ends :
    Ensures (checkSoaIncrement env rr) x fun _ x' => x' = x := by
  refine .read ?_
  cases foreachRr x.ver env.origin soa 0 with
  | nil => exact .fail trivial
  | cons soa rest => exact .check fun _ => .pure rfl

lemma addRr_ends (hcls : rr.updateClass = env.rdclass) :
    Ensures (addRr env rr) x fun _ x' => ∃ ts, Applied env ts x x' ∧ Effect env rr x ts := by
  have hnone : ∃ ts, Applied env ts x x ∧ Effect env rr x ts := ⟨[], ⟨rfl, rfl, rfl⟩, .none⟩
  refine .read (.ite (fun _ => .pure hnone) fun _ => .ite (fun _ => .pure hnone) fun _ => ?_)
  refine .ite (fun _ => .pure hnone) fun hcname => .ite (fun _ => .pure hnone) fun hother => ?_
  have hcname' : rr.type = cname → cnameIncompatibleRrsetExists x.ver rr.name = false := by
    intro htype
    simpa [htype] using hcname
  have hother' : rr.type ≠ cname → rrsetExists x.ver rr.name cname 0 → isdnssec rr.type := by
    intro htype hexists
    simpa [htype, hexists] using hother
  refine .ite (fun hsoa => .ite (fun _ => .pure hnone) fun hexists => ?_) fun hsoa => ?_
  · refine checkSoaIncrement_ends.bind ?_
    rintro _ _ rfl
    refine .ite (fun _ => .pure hnone) fun _ => .change ?_
    refine (addUnlessInternal_ends hany).imp fun _ x' h => ?_
    obtain ⟨ts, hts, rfl | hadds⟩ := h
    · exact ⟨[], hts, .none⟩
    · exact ⟨ts, hts.congr rfl rfl rfl,
        .add hcls ⟨hadds.1, hadds.2, hadds.3⟩ hcname' hother' fun _ => by simpa using hexists⟩
  · refine (addUnlessInternal_ends hany).imp fun _ x' h => ?_
    obtain ⟨ts, hts, rfl | hadds⟩ := h
    · exact ⟨[], hts, .none⟩
    · exact ⟨ts, hts, .add hcls hadds hcname' hother' fun h => absurd h hsoa⟩

omit hany in
lemma deleteRrset_ends : Ensures (deleteRrset env rr) x
      fun _ x' => ∃ ts, Applied env ts x x' ∧ Effect env rr x ts := by
  refine .ite (fun htype => .ite (fun hname => ?_) fun hname => ?_) fun htype => ?_
  · refine .read (deleteEach_ends.imp fun _ x' h => ?_)
    obtain ⟨ts, hts, hdel⟩ := h
    exact ⟨ts, hts, .delAny htype hdel (fun _ => rfl) fun h => absurd hname h⟩
  · refine .read (deleteEach_ends.imp fun _ x' h => ?_)
    obtain ⟨ts, hts, hdel⟩ := h
    exact ⟨ts, hts, .delAny htype hdel (fun h => absurd h hname) fun _ => rfl⟩
  · refine .ite (fun _ => .pure ⟨[], ⟨rfl, rfl, rfl⟩, .none⟩) fun happex => ?_
    refine (deleteType_ends htype).imp fun _ x' h => ?_
    obtain ⟨ts, hts, hdel⟩ := h
    refine ⟨ts, hts, .delType htype hdel fun hname => ?_⟩
    simpa [hname] using happex

lemma deleteRr_ends (hcls : rr.updateClass = classNone) :
    Ensures (deleteRr env rr) x fun _ x' => ∃ ts, Applied env ts x x' ∧ Effect env rr x ts := by
  refine .read (.ite (fun _ => .pure ⟨[], ⟨rfl, rfl, rfl⟩, .none⟩) fun hsoa => ?_)
  refine .ite (fun _ => .pure ⟨[], ⟨rfl, rfl, rfl⟩, .none⟩) fun hns => ?_
  refine (deleteType_ends hany).imp fun _ x' h => ?_
  obtain ⟨ts, hts, hdel⟩ := h
  refine ⟨ts, hts, .delRr hcls hdel fun hname => ⟨?_, fun htype => ?_⟩⟩
  · simpa [hname] using hsoa
  · simpa [hname, htype] using hns

end

lemma updateRr_ends (h : prescanClass env rr = .ok ()) : Ensures (updateRr env rr) x
      fun _ x' => ∃ ts, Applied env ts x x' ∧ Effect env rr x ts :=
  .ite (fun hcls => addRr_ends (type_ne_any_of_prescan h (.inl hcls)) hcls) fun _ =>
    .ite (fun _ => deleteRrset_ends) fun _ =>
    .ite (fun hcls => deleteRr_ends (type_ne_any_of_prescan h (.inr hcls)) hcls) fun _ =>
    .pure ⟨[], ⟨rfl, rfl, rfl⟩, .none⟩

end LbBind.Update

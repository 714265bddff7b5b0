import LbBind.Xfrin.Receive

/-! The SOA record that a transfer leaves. A whole zone ends with the SOA record that is stored, and
each sequence of differences takes one away and adds another one. Nothing compares the serial number
of the one that stays with that of the first record, and for a sequence of differences nothing looks
at its owner. -/

namespace LbBind.Xfrin

open Lib Call Diff List Function Rr Option
open Rbtdb (Typepair)
open Zone (Contents Node Place Rdataset)

variable {ρ : Type}

def soaPair : Typepair := ⟨Rdatatype.soa, 0⟩

def soaView (z : Contents ρ) (p : Place) : Option (Rdataset ρ) := (z p).find soaPair

def sole : Option (List (List ℕ) × ℕ × ρ) → Place → Option (Rdataset ρ)
  | none, _ => none
  | some (name, ttl, rdata), p => if p = ⟨false, name⟩ then some (.single soaPair ttl rdata) else none

def isSoaGroup (g : List (Tuple ρ)) : Bool := g.head?.any fun t => t.type = soaPair

def soaGroups (ts : List (Tuple ρ)) : List (List (Tuple ρ)) :=
  (ts.splitBy sameGroup).filter isSoaGroup

variable {ts : List (Tuple ρ)} {t : Tuple ρ} {soa : Option (List (List ℕ) × ℕ × ρ)}
  {rrs : List (Rr ρ)}

lemma soaGroups_snoc (h : t.type ≠ soaPair) : soaGroups (ts ++ [t]) = soaGroups ts := by
  have hgroup : ∀ g, isSoaGroup (t :: g) = false := by simp [isSoaGroup, h]
  rcases splitBy_snoc ts t with hsplit | ⟨gs, u, g, hts, hsame, hsplit⟩
  · simp [soaGroups, hsplit, hgroup]
  · have hu : u.type ≠ soaPair := (sameGroup_iff.mp hsame).2.2 ▸ h
    simp [soaGroups, hsplit, hts, isSoaGroup, hu]

lemma soaGroups_snoc_soa (h : t.type = soaPair)
    (hnew : ∀ u ∈ ts, sameGroup u t = false) : soaGroups (ts ++ [t]) = soaGroups ts ++ [[t]] := by
  have hsplit : (ts ++ [t]).splitBy sameGroup = ts.splitBy sameGroup ++ [t].splitBy sameGroup := by
    refine splitBy_append fun u hu v hv => ?_
    obtain rfl : t = v := by simpa using hv
    exact hnew u (mem_of_getLast? hu)
  rw [soaGroups, hsplit, filter_append]
  simp [soaGroups, splitBy, splitBy.loop, isSoaGroup, h]

/-- Other types leave the SOA rdatasets alone. -/
def KeepsSoa (f : Contents ρ → List (Tuple ρ) → Except Result (Contents ρ)) : Prop :=
  ∀ z z' g, isSoaGroup g = false → f z g = .ok z' → soaView z' = soaView z

def Steps (f : Contents ρ → List (Tuple ρ) → Except Result (Contents ρ)) :
    List (List (Tuple ρ)) → (Place → Option (Rdataset ρ)) → (Place → Option (Rdataset ρ)) → Prop
  | [], v, v' => v' = v
  | g :: gs, v, v' => ∃ z z', soaView z = v ∧ f z g = .ok z' ∧ Steps f gs (soaView z') v'

section
variable {f : Contents ρ → List (Tuple ρ) → Except Result (Contents ρ)}
  {v v' : Place → Option (Rdataset ρ)} {z z' : Contents ρ}

lemma steps_snoc {gs : List (List (Tuple ρ))} {g : List (Tuple ρ)} :
    Steps f (gs ++ [g]) v v' ↔ ∃ z z', Steps f gs v (soaView z) ∧ f z g = .ok z' ∧ soaView z' = v' := by
  induction gs generalizing v with
  | nil =>
    simp only [nil_append, Steps]
    exact ⟨fun ⟨z, z', h1, h2, h3⟩ => ⟨z, z', h1, h2, h3.symm⟩,
      fun ⟨z, z', h1, h2, h3⟩ => ⟨z, z', h1, h2, h3.symm⟩⟩
  | cons g' gs ih =>
    simp only [cons_append, Steps, ih]
    constructor
    · rintro ⟨y, y', hy, hf, z, z', hsteps, hz⟩
      exact ⟨z, z', ⟨y, y', hy, hf, hsteps⟩, hz⟩
    · rintro ⟨z, z', ⟨y, y', hy, hf, hsteps⟩, hz⟩
      exact ⟨y, y', hy, hf, z, z', hsteps, hz⟩

lemma steps_of_eachGroup (hf : KeepsSoa f) {ts : List (Tuple ρ)} (h : eachGroup f ts z = .ok z') :
    Steps f (soaGroups ts) (soaView z) (soaView z') := by
  rw [eachGroup] at h
  rw [soaGroups]
  generalize ts.splitBy sameGroup = gs at h ⊢
  induction gs generalizing z with
  | nil =>
    cases h
    rfl
  | cons g gs ih =>
    rw [foldlM_cons] at h
    cases hg : f z g with
    | error e =>
      rw [hg] at h
      cases h
    | ok y =>
      rw [hg] at h
      cases hsoa : isSoaGroup g with
      | true =>
        rw [filter_cons_of_pos hsoa]
        exact ⟨z, y, rfl, hg, ih h⟩
      | false =>
        rw [filter_cons_of_neg (by simp [hsoa]), ← hf z y g hsoa hg]
        exact ih h

end

def Leads (f : Contents ρ → List (Tuple ρ) → Except Result (Contents ρ)) (ts : List (Tuple ρ))
    (z : Contents ρ) (soa : Option (List (List ℕ) × ℕ × ρ)) : Prop :=
  ∀ v, Steps f (soaGroups ts) (soaView z) v → v = sole soa

namespace Leads

variable {f : Contents ρ → List (Tuple ρ) → Except Result (Contents ρ)} {ts : List (Tuple ρ)}
  {t : Tuple ρ} {z z' : Contents ρ} {soa : Option (List (List ℕ) × ℕ × ρ)}

lemma nil_iff : Leads f [] z soa ↔ soaView z = sole soa :=
  ⟨fun h => h _ rfl, fun h _ hv => hv.trans h⟩

lemma applied (hf : KeepsSoa f) (h : Leads f ts z soa) (hz : eachGroup f ts z = .ok z') :
    Leads f [] z' soa :=
  nil_iff.mpr (h _ (steps_of_eachGroup hf hz))

lemma snoc (h : Leads f ts z soa) (ht : t.type ≠ soaPair) : Leads f (ts ++ [t]) z soa := by
  rw [Leads, soaGroups_snoc ht]
  exact h

lemma snoc_soa {soa' : Option (List (List ℕ) × ℕ × ρ)} (h : Leads f ts z soa)
    (ht : t.type = soaPair) (hnew : ∀ u ∈ ts, sameGroup u t = false)
    (hstep : ∀ y y', soaView y = sole soa → f y [t] = .ok y' → soaView y' = sole soa') :
    Leads f (ts ++ [t]) z soa' := by
  intro v hv
  rw [soaGroups_snoc_soa ht hnew, steps_snoc] at hv
  obtain ⟨y, y', hsteps, hy, rfl⟩ := hv
  exact hstep y y' (h _ hsteps) hy

end Leads

lemma soaView_update {z : Contents ρ} {p : Place} {n : Node ρ}
    (h : n.find soaPair = (z p).find soaPair) : soaView (update z p n) = soaView z := by
  funext q
  rw [soaView, soaView]
  by_cases hq : q = p
  · subst hq
    rw [update_self, h]
  · rw [update_of_ne hq]

lemma soaPair_ne_of_isSoaGroup (h : isSoaGroup (t :: ts) = false) : soaPair ≠ t.type := by
  simp only [isSoaGroup, head?_cons, any_some, decide_eq_false_iff_not] at h
  exact Ne.symm h

variable [DecidableEq ρ]

lemma applyGroup_keepsSoa : KeepsSoa (applyGroup (ρ := ρ)) := by
  intro z z' g hg h
  cases g with
  | nil =>
    cases h
    rfl
  | cons t ts =>
    obtain ⟨rds, hrds, -, rfl⟩ := applyGroup_cons h
    refine soaView_update (find_groupChange_of_ne ?_)
    rw [(type_tordataset hrds).1]
    exact soaPair_ne_of_isSoaGroup hg

lemma loadGroup_keepsSoa (origin : List (List ℕ)) : KeepsSoa (loadGroup (ρ := ρ) origin) := by
  intro z z' g hg h
  cases g with
  | nil =>
    cases h
    rfl
  | cons t ts =>
    obtain ⟨-, rds, hrds, rfl⟩ := loadGroup_cons h
    refine soaView_update (Node.find_add_of_ne ?_)
    rw [(type_tordataset hrds).1]
    exact soaPair_ne_of_isSoaGroup hg

section
variable {z z' : Contents ρ} {t : Tuple ρ} {name : List (List ℕ)} {ttl : ℕ} {rdata : ρ}

omit [DecidableEq ρ] in
lemma place_soa (h : t.type = soaPair) : place t.name t.type = ⟨false, t.name⟩ := by
  rw [h]
  rfl

lemma add_of_find_eq_none {n : Node ρ} {options : Rbtdb.AddOptions} {new : Rdataset ρ}
    (h : n.find new.type = none) : (n.add options new).2.find new.type = some new := by
  simp [Node.add, h, Node.warned, Node.find_put]

section
variable (hview : soaView z = sole none) (ht : t.type = soaPair)
include hview ht

lemma soaView_add (options : Rbtdb.AddOptions) : soaView (update z ⟨false, t.name⟩
      ((z ⟨false, t.name⟩).add options (.single t.type t.ttl t.rdata)).2) =
      sole (some (t.name, t.ttl, t.rdata)) := by
  have hnone : ∀ p, (z p).find soaPair = none := fun p => congrFun hview p
  funext q
  rw [soaView, sole]
  by_cases hq : q = ⟨false, t.name⟩
  · have hfind : (z ⟨false, t.name⟩).find (Rdataset.single t.type t.ttl t.rdata).type = none :=
      ht ▸ hnone _
    rw [if_pos hq, hq, update_self, ← ht]
    exact add_of_find_eq_none hfind
  · rw [if_neg hq, update_of_ne hq, hnone q]

lemma applyGroup_addSoa (hop : t.op = .add) (h : applyGroup z [t] = .ok z') :
    soaView z' = sole (some (t.name, t.ttl, t.rdata)) := by
  obtain ⟨rds, hrds, -, rfl⟩ := applyGroup_cons h
  rw [tordataset_singleton] at hrds
  cases hrds
  rw [place_soa ht]
  rw [groupChange, hop]
  exact soaView_add hview ht ⟨true, true, true⟩

lemma loadGroup_soa {origin : List (List ℕ)} (h : loadGroup origin z [t] = .ok z') :
    soaView z' = sole (some (origin, t.ttl, t.rdata)) := by
  obtain ⟨htop, rds, hrds, rfl⟩ := loadGroup_cons h
  rw [tordataset_singleton] at hrds
  cases hrds
  obtain rfl : t.name = origin := htop (by rw [ht]; rfl)
  rw [place_soa ht]
  exact soaView_add hview ht ⟨true, false, false⟩

end

lemma applyGroup_delSoa (hview : soaView z = sole (some (name, ttl, rdata)))
    (ht : t.type = soaPair) (hop : t.op = .del) (h : applyGroup z [t] = .ok z') :
    soaView z' = sole none := by
  obtain ⟨rds, hrds, hpass, rfl⟩ := applyGroup_cons h
  rw [tordataset_singleton] at hrds
  cases hrds
  rw [place_soa ht, groupChange, hop] at hpass ⊢
  simp only [Op.adds, Bool.false_eq_true, if_false] at hpass ⊢
  have hfind : ∀ p, (z p).find soaPair = sole (some (name, ttl, rdata)) p := fun p => congrFun hview p
  have htype : (Rdataset.single t.type t.ttl t.rdata).type = soaPair := ht
  by_cases hexact : ∃ old, (z ⟨false, t.name⟩).find soaPair = some old ∧ t.ttl = old.ttl ∧
      {t.rdata} ⊆ old.rdatas
  · obtain ⟨old, hold, httl, hsub⟩ := hexact
    -- the record is the one that is there
    have hsole := hfind ⟨false, t.name⟩
    rw [hold, sole] at hsole
    split_ifs at hsole with hname
    cases hsole
    have hrest : (Rdataset.single soaPair ttl rdata).minus {t.rdata} = none := by
      rw [Rdataset.minus_eq_none]
      simpa [Rdataset.single, eq_comm] using hsub
    rw [Node.subtract_exact (htype ▸ hold) httl hsub, htype]
    funext q
    rw [soaView]
    by_cases hq : q = ⟨false, t.name⟩
    · subst hq
      rw [update_self]
      refine (congrArg (fun r => Node.find (Node.update _ soaPair r) soaPair) hrest).trans ?_
      rw [Node.find_update (by simp), if_pos rfl]
      rfl
    · rw [update_of_ne hq, hfind q]
      exact if_neg (hname ▸ hq)
  · rw [Node.subtract_notExact fun old hold hboth => hexact ⟨old, htype ▸ hold, hboth⟩] at hpass
    simp [passes] at hpass

end

variable {env : Env ρ} {x x' : Xfr ρ} {rr : Rr ρ}

def Xfr.working (x : Xfr ρ) : Contents ρ := x.ver.getD x.db

def Rr.tuple (op : Op) (rr : Rr ρ) : Tuple ρ := ⟨op, rr.name, rr.ttl, rr.typepair, rr.rdata⟩

omit [DecidableEq ρ] in
lemma Rr.typepair_eq_soaPair : rr.typepair = soaPair ↔ rr.isSoa := by
  simp only [typepair, soaPair, isSoa, decide_eq_true_eq, Rbtdb.Typepair.mk.injEq]
  refine ⟨fun h => h.1, fun h => ⟨h, ?_⟩⟩
  rw [h]
  rfl

structure Goes (x x' : Xfr ρ) : Prop where
  state : x'.state = x.state
  diff : x'.diff ⊆ x.diff
  ixfr : ∀ soa, Leads applyGroup x.diff x.working soa → Leads applyGroup x'.diff x'.working soa

omit [DecidableEq ρ] in
lemma ixfrInit_ends : Ensures (ixfrInit env) x
      fun _ x' => x' = { x with isIxfr := true, difflen := 0 } :=
  .ite (fun _ => .fail trivial) fun _ =>
    .change (.read (.lift (fun _ _ => rfl) fun _ _ => trivial))

omit [DecidableEq ρ] in
lemma openVersion_ends : Ensures (openVersion env) x
      fun _ x' => x' = { x with ver := some x.working } := by
  refine .read (.ite (fun h => .pure ?_) fun h => .change (.lift (fun _ _ => ?_) fun _ _ => trivial))
  · obtain ⟨z, hz⟩ := isSome_iff_exists.mp h
    cases x
    simp_all [Xfr.working]
  · have hnone : x.ver = none := by simpa using h
    simp [Xfr.working, hnone]

lemma ixfrApply_ends : Ensures (ixfrApply env) x fun _ x' => Goes x x' ∧ x'.diff = [] := by
  refine openVersion_ends.bind ?_
  rintro _ _ rfl
  refine .read (.result (fun z hz => ?_) fun _ _ => trivial)
  refine .change (.result (fun _ _ => .modify ?_) fun _ _ => trivial)
  refine ⟨⟨rfl, nil_subset _, fun soa hleads => ?_⟩, rfl⟩
  exact hleads.applied applyGroup_keepsSoa hz

lemma ixfrPutdata_ends {op : Op} : Ensures (ixfrPutdata env op rr) x
      fun _ x' => Goes { x with diff := x.diff ++ [rr.tuple op] } x' := by
  refine .result (fun _ _ => .change (.read (.ite (fun _ => ?_) fun _ => .pure ?_)))
    fun _ _ => trivial
  · exact ixfrApply_ends.imp fun _ _ h => ⟨h.1.state, h.1.diff, h.1.ixfr⟩
  · exact ⟨rfl, fun _ h => h, fun _ h => h⟩

lemma ixfrCommit_ends (h : Leads applyGroup x.diff x.working soa) : Ensures (ixfrCommit env) x
      fun _ x' => soaView x'.db = sole soa ∧ x'.diff = [] ∧ x'.ver = none := by
  refine ixfrApply_ends.bind ?_
  rintro _ y ⟨hgoes, hdiff⟩
  refine .read (.result (fun _ _ => .modify ⟨?_, hdiff, rfl⟩) fun _ _ => trivial)
  have hleads := hgoes.ixfr soa h
  rw [hdiff, Leads.nil_iff] at hleads
  exact hleads

lemma axfrApply_ends (h : Leads (loadGroup env.origin) x.diff x.db soa) : Ensures (axfrApply env) x
      fun _ x' => x'.state = x.state ∧ x'.diff = [] ∧ soaView x'.db = sole soa := by
  refine .read (.result (fun z hz => .modify ⟨rfl, rfl, ?_⟩) fun _ _ => trivial)
  exact Leads.nil_iff.mp (h.applied (loadGroup_keepsSoa env.origin) hz)

lemma axfrCommit_ends (h : Leads (loadGroup env.origin) x.diff x.db soa) :
    Ensures (axfrCommit env) x fun _ x' => soaView x'.db = sole soa :=
  (axfrApply_ends h).bind fun _ _ hy =>
    .read (.lift (fun _ _ => hy.2.2) fun _ _ => trivial)

lemma axfrPutdata_ends (h : Leads (loadGroup env.origin) (x.diff ++ [rr.tuple .add]) x.db soa) :
    Ensures (axfrPutdata env rr) x fun _ x' => x'.state = x.state ∧
      x'.diff ⊆ x.diff ++ [rr.tuple .add] ∧ Leads (loadGroup env.origin) x'.diff x'.db soa := by
  refine .result (fun _ _ => .change (.read (.ite (fun _ => ?_) fun _ => .pure ?_)))
    fun _ _ => trivial
  · refine (axfrApply_ends h).imp fun _ y hy => ⟨hy.1, ?_, ?_⟩
    · rw [hy.2.1]
      exact nil_subset _
    · rw [hy.2.1, Leads.nil_iff]
      exact hy.2.2
  · exact ⟨rfl, fun _ h => h, h⟩

def soas (rrs : List (Rr ρ)) : List (Rr ρ) := rrs.filter Rr.isSoa

omit [DecidableEq ρ] in
lemma soas_snoc (h : rr.isSoa = false) : soas (rrs ++ [rr]) = soas rrs := by
  simp [soas, h]

omit [DecidableEq ρ] in
lemma soas_snoc_soa (h : rr.isSoa) : soas (rrs ++ [rr]) = soas rrs ++ [rr] := by
  simp [soas, h]

def ApexSoa (env : Env ρ) (z : Contents ρ) : Prop :=
  ∃ ttl rdata, soaView z = sole (some (env.origin, ttl, rdata))

inductive Inv (env : Env ρ) : List (Rr ρ) → Xfr ρ → Prop
  | initial {x : Xfr ρ} (state : x.state = .initialsoa) (diff : x.diff = []) (ver : x.ver = none)
      (db : env.reqtype = .ixfr → ApexSoa env x.db) : Inv env [] x
  | first {x : Xfr ρ} {first : Rr ρ} (state : x.state = .firstdata)
      (diff : x.diff = []) (ver : x.ver = none)
      (db : env.reqtype = .ixfr → ApexSoa env x.db) : Inv env [first] x
  | axfr {x : Xfr ρ} {first : Rr ρ} {rest : List (Rr ρ)} (state : x.state = .axfr)
      (diff : ∀ t ∈ x.diff, t.type ≠ soaPair)
      (leads : Leads (loadGroup env.origin) x.diff x.db none) : Inv env (first :: rest) x
  | axfrEnd {x : Xfr ρ} {first last : Rr ρ} {rest : List (Rr ρ)} (state : x.state = .axfrEnd)
      (soas : (soas rest).getLast? = some last)
      (db : soaView x.db = sole (some (env.origin, last.ttl, last.rdata))) :
      Inv env (first :: rest) x
  | del {x : Xfr ρ} {first : Rr ρ} {rest : List (Rr ρ)} (state : x.state = .ixfrDel)
      (diff : ∀ t ∈ x.diff, t.op = .del) (leads : Leads applyGroup x.diff x.working none) :
      Inv env (first :: rest) x
  | add {x : Xfr ρ} {first last : Rr ρ} {rest : List (Rr ρ)} (state : x.state = .ixfrAdd)
      (soas : (soas rest).getLast? = some last)
      (leads : Leads applyGroup x.diff x.working (some (last.name, last.ttl, last.rdata))) :
      Inv env (first :: rest) x
  | ixfrEnd {x : Xfr ρ} {first last : Rr ρ} {rest : List (Rr ρ)} (state : x.state = .ixfrEnd)
      (soas : (soas rest).dropLast.getLast? = some last)
      (db : soaView x.db = sole (some (last.name, last.ttl, last.rdata))) :
      Inv env (first :: rest) x

section
variable {first last : Rr ρ} {rest : List (Rr ρ)} {name : List (List ℕ)} {ttl : ℕ} {rdata : ρ}

lemma recvDelsoa_inv (rest : List (Rr ρ)) (hdiff : x.diff = []) (hdb : soaView x.working = sole (some (name, ttl, rdata))) :
    Ensures (recvDelsoa env rr) x fun _ x' => Inv env (first :: (rest ++ [rr])) x' := by
  refine .check fun hsoa => ixfrPutdata_ends.bind fun _ y hy => .modify ?_
  have hnew : ∀ t ∈ y.diff, t.op = .del := fun t ht => by
    have hmem := hy.diff ht
    simp only [hdiff, nil_append, mem_singleton] at hmem
    exact hmem ▸ rfl
  refine .del rfl hnew (hy.ixfr none ?_)
  rw [hdiff]
  refine Leads.snoc_soa (Leads.nil_iff.mpr hdb) (typepair_eq_soaPair.mpr hsoa) (by simp) ?_
  exact fun _ _ hview h => applyGroup_delSoa hview (typepair_eq_soaPair.mpr hsoa) rfl h

lemma recvAddsoa_inv (hdiff : ∀ t ∈ x.diff, t.op = .del)
    (hleads : Leads applyGroup x.diff x.working none) :
    Ensures (recvAddsoa env rr) x fun _ x' => Inv env (first :: (rest ++ [rr])) x' := by
  refine .check fun hsoa => ixfrPutdata_ends.bind fun _ y hy => .modify ?_
  have hpair : (rr.tuple .add).type = soaPair := typepair_eq_soaPair.mpr hsoa
  have hnew : ∀ t ∈ x.diff, sameGroup t (rr.tuple .add) = false := fun t ht => by
    rw [← Bool.not_eq_true, sameGroup_iff, hdiff t ht]
    exact fun h => absurd h.2.1 (by simp [tuple])
  have hlast : (soas (rest ++ [rr])).getLast? = some rr := by
    rw [soas_snoc_soa hsoa, getLast?_concat]
  refine .add rfl hlast (hy.ixfr _ ?_)
  exact hleads.snoc_soa hpair hnew fun _ _ hview h => applyGroup_addSoa hview hpair rfl h

lemma recvDel_inv (hstate : x.state = .ixfrDel) (hdiff : ∀ t ∈ x.diff, t.op = .del)
    (hleads : Leads applyGroup x.diff x.working none) :
    Ensures (recvDel env rr) x fun _ x' => Inv env (first :: (rest ++ [rr])) x' := by
  refine .ite (fun _ => .change (recvAddsoa_inv hdiff hleads)) fun hsoa => ?_
  refine ixfrPutdata_ends.imp fun _ y hy => ?_
  have hops : ∀ t ∈ y.diff, t.op = .del := fun t ht => by
    rcases mem_append.mp (hy.diff ht) with hold | hnew
    · exact hdiff t hold
    · exact mem_singleton.mp hnew ▸ rfl
  exact .del (hy.state.trans hstate) hops
    (hy.ixfr none (hleads.snoc fun h => hsoa (typepair_eq_soaPair.mp h)))

lemma recvAdd_inv (hstate : x.state = .ixfrAdd) (hsoas : (soas rest).getLast? = some last)
    (hleads : Leads applyGroup x.diff x.working (some (last.name, last.ttl, last.rdata))) :
    Ensures (recvAdd env rr) x fun _ x' => Inv env (first :: (rest ++ [rr])) x' := by
  refine .read (.ite (fun hsoa => .ite (fun _ => ?_) fun _ => ?_) fun hsoa => ?_)
  · -- the end of the transfer
    refine (ixfrCommit_ends hleads).bind fun _ y hy => .modify ?_
    refine .ixfrEnd rfl ?_ hy.1
    rw [soas_snoc_soa hsoa, dropLast_concat, hsoas]
  · -- another sequence of differences
    refine .ite (fun _ => .fail trivial) fun _ => ?_
    refine (ixfrCommit_ends hleads).bind fun _ y hy => .change ?_
    have hworking : soaView y.working = sole (some (last.name, last.ttl, last.rdata)) := by
      rw [← hy.1, Xfr.working, hy.2.2]
      rfl
    exact recvDelsoa_inv rest hy.2.1 hworking
  · refine .ite (fun _ => .fail trivial) fun _ => ?_
    refine ixfrPutdata_ends.imp fun _ y hy => ?_
    have hlast : (soas (rest ++ [rr])).getLast? = some last := by
      rw [soas_snoc (by simpa using hsoa), hsoas]
    exact .add (hy.state.trans hstate) hlast
      (hy.ixfr _ (hleads.snoc fun h => hsoa (typepair_eq_soaPair.mp h)))

lemma recvAxfr_inv (rest : List (Rr ρ)) (hstate : x.state = .axfr) (hdiff : ∀ t ∈ x.diff, t.type ≠ soaPair)
    (hleads : Leads (loadGroup env.origin) x.diff x.db none) :
    Ensures (recvAxfr env rr) x fun _ x' => Inv env (first :: (rest ++ [rr])) x' := by
  refine .ite (fun _ => .pure (.axfr hstate hdiff hleads)) fun _ => ?_
  by_cases hsoa : rr.isSoa
  · -- the end of the transfer
    have hpair : (rr.tuple .add).type = soaPair := typepair_eq_soaPair.mpr hsoa
    have hnew : ∀ t ∈ x.diff, sameGroup t (rr.tuple .add) = false := fun t ht => by
      rw [← Bool.not_eq_true, sameGroup_iff, hpair]
      exact fun h => hdiff t ht h.2.2
    have hlast : (soas (rest ++ [rr])).getLast? = some rr := by
      rw [soas_snoc_soa hsoa, getLast?_concat]
    have hput : Leads (loadGroup env.origin) (x.diff ++ [rr.tuple .add]) x.db
        (some (env.origin, rr.ttl, rr.rdata)) :=
      hleads.snoc_soa hpair hnew fun _ _ hview h => loadGroup_soa hview hpair h
    refine (axfrPutdata_ends hput).bind fun _ y hy => ?_
    refine .ite (fun _ => ?_) fun h => absurd hsoa h
    exact (axfrCommit_ends hy.2.2).bind fun _ _ hdb =>
      .modify (.axfrEnd rfl hlast hdb)
  · have hpair : (rr.tuple .add).type ≠ soaPair := fun h => hsoa (typepair_eq_soaPair.mp h)
    refine (axfrPutdata_ends (hleads.snoc hpair)).bind fun _ y hy => ?_
    refine .ite (fun h => absurd h hsoa) fun _ => .pure (.axfr (hy.1.trans hstate) ?_ hy.2.2)
    intro t ht
    rcases mem_append.mp (hy.2.1 ht) with hold | hnew
    · exact hdiff t hold
    · exact mem_singleton.mp hnew ▸ hpair

section
variable (hdiff : x.diff = []) (hver : x.ver = none) (hdb : env.reqtype = .ixfr → ApexSoa env x.db)
include hdiff hver hdb

lemma recvFirst_inv :
    Ensures (recvFirst env rr) x fun _ x' => Inv env [first, rr] x' := by
  refine .ite (fun hixfr => ?_) fun _ => ?_
  · simp only [Bool.and_eq_true, decide_eq_true_eq] at hixfr
    obtain ⟨ttl, rdata, hview⟩ := hdb hixfr.1.1
    refine ixfrInit_ends.bind ?_
    rintro _ _ rfl
    have hworking : soaView x.working = sole (some (env.origin, ttl, rdata)) := by
      rw [← hview, Xfr.working, hver]
      rfl
    exact .change (recvDelsoa_inv [] hdiff hworking)
  · refine .change (.change (recvAxfr_inv [] rfl ?_ ?_))
    · simp [hdiff]
    · rw [hdiff]
      exact Leads.nil_iff.mpr rfl

lemma recvInitial_inv :
    Ensures (recvInitial env rr) x fun _ x' => Inv env [rr] x' :=
  .ite (fun _ => .fail trivial) fun _ => .change (.ite (fun _ => .fail trivial) fun _ =>
    .modify (.first rfl hdiff hver hdb))

end

variable {rrs : List (Rr ρ)}

lemma xfrRr_inv (h : Inv env rrs x) :
    Ensures (xfrRr env rr) x fun _ x' => Inv env (rrs ++ [rr]) x' := by
  refine .change (.ite (fun _ => .fail trivial) fun _ => .read ?_)
  cases h with
  | initial state diff ver db =>
    simp only [state]
    exact recvInitial_inv diff ver db
  | first state diff ver db =>
    simp only [state]
    exact recvFirst_inv diff ver db
  | axfr state diff leads =>
    simp only [state]
    exact recvAxfr_inv _ rfl diff leads
  | axfrEnd state soas db =>
    simp only [state]
    exact .fail trivial
  | del state diff leads =>
    simp only [state]
    exact recvDel_inv rfl diff leads
  | add state soas leads =>
    simp only [state]
    exact recvAdd_inv rfl soas leads
  | ixfrEnd state soas db =>
    simp only [state]
    exact .fail trivial

lemma xfrAll_inv {done : List (Rr ρ)} (h : Inv env done x) :
    Ensures (xfrAll env rrs) x fun _ x' => Inv env (done ++ rrs) x' := by
  induction rrs generalizing done x with
  | nil =>
    rw [append_nil]
    exact .pure h
  | cons rr rrs ih =>
    refine (xfrRr_inv h).bind fun _ y hy => ?_
    rw [append_cons]
    exact ih hy

/-- The SOA record that stays: the one that ends a whole zone, or the one that the last sequence of
differences adds. -/
def stored (state : State) (rest : List (Rr ρ)) : Option (Rr ρ) :=
  if state = .axfrEnd then (soas rest).getLast? else (soas rest).dropLast.getLast?

omit [DecidableEq ρ] in
lemma sole_eq_sole {name' : List (List ℕ)} {ttl' : ℕ} {rdata' : ρ} :
    sole (some (name, ttl, rdata)) = sole (some (name', ttl', rdata')) ↔
      name = name' ∧ ttl = ttl' ∧ rdata = rdata' := by
  constructor
  · intro h
    have hname := congrFun h ⟨false, name⟩
    simp only [sole, if_true] at hname
    split_ifs at hname with hplace
    simp only [Rdataset.single, some.injEq, Rdataset.mk.injEq, Finset.singleton_inj] at hname
    exact ⟨by simpa using hplace, hname.2.1, hname.2.2⟩
  · rintro ⟨rfl, rfl, rfl⟩
    rfl

/-- At the end of a transfer the zone has one SOA record, at the apex and with the serial number of
the first one, exactly if the one that stays has that serial number and, after an incremental
transfer, that owner. -/
theorem xfrAll_soa_iff {db : Contents ρ} (hdb : env.reqtype = .ixfr → ApexSoa env db)
    (hrun : (xfrAll env (first :: rest)).run (.start db) = some (.ok (), x))
    (hend : x.state = .axfrEnd ∨ x.state = .ixfrEnd) :
    (∃ ttl rdata, soaView x.db = sole (some (env.origin, ttl, rdata)) ∧
      env.serial rdata = env.serial first.rdata) ↔
    ∃ rr, stored x.state rest = some rr ∧ env.serial rr.rdata = env.serial first.rdata ∧
      (x.state = .ixfrEnd → rr.name = env.origin) := by
  have hinv : Inv env (first :: rest) x := (xfrAll_inv (.initial rfl rfl rfl hdb)).1 () x hrun
  cases hinv with
  | first state | axfr state | del state | add state =>
    simp [state] at hend
  | axfrEnd state hsoas hview =>
    simp [state, stored, hsoas, hview, sole_eq_sole]
  | ixfrEnd state hsoas hview =>
    simp [state, stored, hsoas, hview, sole_eq_sole, and_comm, eq_comm]

end

def exampleEnv : Env ℕ where
  origin := [[101]]
  rdclass := 1
  reqtype := .axfr
  requestSerial := 0
  forced := false
  serial := id
  checknames _ := .ok ()
  journalOpen _ := .ok ()
  journalBegin _ := .ok ()
  journalWrite _ := .ok ()
  journalCommit _ := .ok ()
  endload _ := .ok ()

def exampleSoa (serial : ℕ) : Rr ℕ := ⟨[[101]], 60, 1, Rdatatype.soa, 0, serial⟩

def exampleNs : Rr ℕ := ⟨[[101]], 60, 1, Rdatatype.ns, 0, 7⟩

theorem xfrAll_soa_iff_axfr : ∃ x, (xfrAll exampleEnv [exampleSoa 1, exampleNs, exampleSoa 1]).run
    (.start fun _ => Node.empty) = some (.ok (), x) ∧ x.state = .axfrEnd ∧
      ∃ ttl rdata, soaView x.db = sole (some ([[101]], ttl, rdata)) ∧ rdata = 1 := by
  obtain ⟨x, hrun, hstate⟩ : ∃ x, (xfrAll exampleEnv [exampleSoa 1, exampleNs, exampleSoa 1]).run
      (.start fun _ => Node.empty) = some (.ok (), x) ∧ x.state = .axfrEnd := ⟨_, rfl, rfl⟩
  refine ⟨x, hrun, hstate, (xfrAll_soa_iff (by simp [exampleEnv]) hrun (.inl hstate)).mpr ?_⟩
  exact ⟨exampleSoa 1, by rw [hstate]; rfl, rfl, by simp [hstate]⟩

/-- The zone ends with another serial number than it started with. -/
theorem xfrAll_two_serials : ∃ x,
    (xfrAll exampleEnv [exampleSoa 1, exampleNs, exampleSoa 2]).run (.start fun _ => Node.empty) =
      some (.ok (), x) ∧ x.state = .axfrEnd ∧
      ¬∃ ttl rdata, soaView x.db = sole (some ([[101]], ttl, rdata)) ∧ rdata = 1 := by
  refine ⟨_, rfl, rfl, ?_⟩
  rintro ⟨ttl, rdata, hview, rfl⟩
  have hrdatas := congrArg (Option.map Rdataset.rdatas) (congrFun hview ⟨false, [[101]]⟩)
  have htwo : some {2} = some ({1} : Finset ℕ) := hrdatas
  exact absurd htwo (by decide)

end LbBind.Xfrin

import LbBind.Rdataslab.Reader
import Mathlib.Data.Rat.Floor

/-! The profiler of `bin/named/profiler.c`: poll the workers behind the addresses of a node, sort
the addresses by load and sort the rdataset accordingly. The loads are exact rationals. The
comparison function truncates the difference of two loads to an `int`, so it orders the addresses if
and only if no two different loads differ by less than one. -/

namespace LbBind.Profiler

open Lib Rdataslab Int Qsort

def calcLoad (x : AddrStats) : ℚ := x.cpuLoad * (1 / 2) + x.ioLoad * (1 / 4) + x.netLoad * (1 / 4)

def truncate (q : ℚ) : ℤ := if q < 0 then ⌈q⌉ else ⌊q⌋

variable (undefined : ℚ → ℤ)

/-- Conversion to a 32-bit `int`; outside its range the result is not defined and
given by `undefined`. -/
def toInt (q : ℚ) : ℤ :=
  if -2 ^ 31 ≤ truncate q ∧ truncate q < 2 ^ 31 then truncate q else undefined q

def cmp (a b : AddrStats) : ℤ := toInt undefined (calcLoad a - calcLoad b)

structure Report where
  ioLoad : ℚ
  cpuLoad : ℚ
  netLoad : ℚ
  deriving DecidableEq

/-- Poll one worker: `none` is a failed connection, a closed socket or a checksum
error, and puts the worker last in the list. -/
def pollWorker : Option Report → AddrStats → AddrStats
  | some r, a => { a with ioLoad := r.ioLoad, cpuLoad := r.cpuLoad, netLoad := r.netLoad }
  | none, a => { a with cpuLoad := 255, ioLoad := 255, netLoad := 255 }

variable (replies : ℕ → Option Report)

/-- `ns_profiler_poll_workers`: `replies i` is what the worker of entry `i` answers. -/
def pollWorkers (addrStats : List AddrStats) : List AddrStats :=
  addrStats.mapIdx fun i a => pollWorker (replies i) a

variable (qsort : Qsort AddrStats) (undefined : ℚ → ℤ)

/-- The body of the inner loop of `ns_profiler_update_addrs`, for one node. -/
def updateNode (replies : ℕ → Option Report)
    (current : ProfilerNode) : ProfilerNode :=
  if current.addrStats.length > 0 then
    let addrStats := qsort.sort (cmp undefined) (pollWorkers replies current.addrStats)
    let (slab, rdataset) := sortFromrdataset current.slab current.rdataset addrStats
    ⟨slab, rdataset, addrStats⟩
  else current

lemma truncate_neg (q : ℚ) : truncate (-q) = -truncate q := by
  simp only [truncate, neg_lt_zero, floor_neg, ceil_neg]
  rcases lt_trichotomy q 0 with h | rfl | h
  · rw [if_neg h.not_gt, if_pos h]
  · simp
  · rw [if_pos h, if_neg h.not_gt]

lemma truncate_of_lt_one {q : ℚ} (h0 : 0 ≤ q) (h1 : q < 1) : truncate q = 0 := by
  rw [truncate, if_neg h0.not_gt, floor_eq_zero_iff]
  exact ⟨h0, h1⟩

lemma le_truncate {q : ℚ} {z : ℤ} (h0 : 0 ≤ q) (h : z ≤ q) : z ≤ truncate q := by
  rw [truncate, if_neg h0.not_gt]
  exact le_floor.mpr h

lemma truncate_lt {q : ℚ} {z : ℤ} (h0 : 0 ≤ q) (h : q < z) : truncate q < z := by
  rw [truncate, if_neg h0.not_gt]
  exact floor_lt.mpr h

/-- Two loads that `cmp` tells apart, or that are equal. -/
def Comparable (x y : ℚ) : Prop := x = y ∨ 1 ≤ |x - y| ∧ |x - y| < 2 ^ 31

lemma Comparable.symm {x y : ℚ} (h : Comparable x y) : Comparable y x := by
  rcases h with rfl | h
  · exact .inl rfl
  · rw [abs_sub_comm] at h
    exact .inr h

lemma toInt_of_comparable {x y : ℚ} (h : Comparable x y) :
    toInt undefined (x - y) = truncate (x - y) := by
  have hlt : |x - y| < 2 ^ 31 := by
    rcases h with rfl | h
    · simp
    · exact h.2
  rw [toInt, if_pos]
  rcases le_total 0 (x - y) with h0 | h0
  · rw [abs_of_nonneg h0] at hlt
    have h1 := truncate_lt (z := 2 ^ 31) h0 (by push_cast; exact hlt)
    have h2 := le_truncate (z := 0) h0 (by simpa using h0)
    omega
  · rw [abs_of_nonpos h0] at hlt
    have h1 := truncate_lt (z := 2 ^ 31) (neg_nonneg.mpr h0) (by push_cast; exact hlt)
    have h2 := le_truncate (z := 0) (neg_nonneg.mpr h0) (by simpa using h0)
    rw [truncate_neg] at h1 h2
    omega

lemma cmp_nonpos_iff {a b : AddrStats}
    (h : Comparable (calcLoad a) (calcLoad b)) : cmp undefined a b ≤ 0 ↔ calcLoad a ≤ calcLoad b := by
  rw [cmp, toInt_of_comparable undefined h]
  constructor
  · intro hle
    by_contra hlt
    push Not at hlt
    rcases h with heq | h
    · exact hlt.ne heq.symm
    · rw [abs_of_pos (sub_pos.mpr hlt)] at h
      have := le_truncate (z := 1) (sub_pos.mpr hlt).le (by simpa using h.1)
      omega
  · intro hle
    have := le_truncate (z := 0) (neg_nonneg.mpr (sub_nonpos.mpr hle)) (by simpa using hle)
    rw [truncate_neg] at this
    omega

lemma cmp_ordersOn {l : List AddrStats}
    (h : ∀ a ∈ l, ∀ b ∈ l, Comparable (calcLoad a) (calcLoad b)) : OrdersOn (cmp undefined) l := by
  constructor
  · intro a ha b hb
    rw [cmp, cmp, toInt_of_comparable undefined (h a ha b hb),
      toInt_of_comparable undefined (h b hb a ha), ← neg_sub, truncate_neg, sign_neg]
  · intro a ha b hb c hc hab hbc
    rw [cmp_nonpos_iff undefined (h a ha b hb)] at hab
    rw [cmp_nonpos_iff undefined (h b hb c hc)] at hbc
    rw [cmp_nonpos_iff undefined (h a ha c hc)]
    exact hab.trans hbc

lemma cmp_eq_zero_of_not_comparable {a b : AddrStats} (hlt : calcLoad a < calcLoad b)
    (h : ¬Comparable (calcLoad a) (calcLoad b)) : cmp (fun _ => 0) b a = 0 := by
  have hpos := sub_pos.mpr hlt
  simp only [Comparable, hlt.ne, false_or, abs_sub_comm (calcLoad a), abs_of_pos hpos] at h
  rw [cmp, toInt]
  split_ifs with hrange
  · refine truncate_of_lt_one hpos.le ?_
    by_contra hge
    push Not at hge
    have hbig : (2 : ℚ) ^ 31 ≤ calcLoad b - calcLoad a := not_lt.mp fun hlt => h ⟨hge, hlt⟩
    have := le_truncate (z := 2 ^ 31) hpos.le (by push_cast; exact hbig)
    omega
  · rfl

def byDecreasingLoad (a b : AddrStats) : ℤ :=
  if calcLoad b < calcLoad a then -1 else if calcLoad a < calcLoad b then 1 else 0

lemma byDecreasingLoad_nonpos_iff (a b : AddrStats) :
    byDecreasingLoad a b ≤ 0 ↔ calcLoad b ≤ calcLoad a := by
  unfold byDecreasingLoad
  split_ifs with h1 h2
  · simp [h1.le]
  · simp [h2]
  · simpa using h2

lemma byDecreasingLoad_totalPreorder : TotalPreorder byDecreasingLoad := by
  constructor
  · intro a b
    unfold byDecreasingLoad
    rcases lt_trichotomy (calcLoad a) (calcLoad b) with h | h | h
    · simp [h, h.not_gt]
    · simp [h]
    · simp [h, h.not_gt]
  · intro a b c hab hbc
    rw [byDecreasingLoad_nonpos_iff] at hab hbc ⊢
    exact hbc.trans hab

lemma updateNode_addrStats
    (replies : ℕ → Option Report) (node : ProfilerNode) (h : node.addrStats ≠ []) :
    (updateNode qsort undefined replies node).addrStats =
      qsort.sort (cmp undefined) (pollWorkers replies node.addrStats) := by
  rw [updateNode, if_pos (List.length_pos_iff.mpr h)]

/-- A polling pass leaves the addresses in non-decreasing order of their loads,
whatever routine sorts them, and `cmp` orders them, if and only if any two loads
are equal or differ by at least one and by less than `2 ^ 31`. -/
theorem updateNode_sorted_iff (node : ProfilerNode) :
    (∀ (qsort : Qsort AddrStats) (undefined : ℚ → ℤ),
      OrdersOn (cmp undefined) (pollWorkers replies node.addrStats) ∧
      (updateNode qsort undefined replies node).addrStats.Pairwise
        fun a b => calcLoad a ≤ calcLoad b) ↔
    ∀ a ∈ pollWorkers replies node.addrStats, ∀ b ∈ pollWorkers replies node.addrStats,
      Comparable (calcLoad a) (calcLoad b) := by
  by_cases hnil : node.addrStats = []
  · have hord : ∀ undefined, OrdersOn (cmp undefined) [] := fun _ => ⟨by simp, by simp⟩
    simp [hnil, pollWorkers, updateNode, hord]
  constructor
  · intro h
    have hlt : ∀ a ∈ pollWorkers replies node.addrStats,
        ∀ b ∈ pollWorkers replies node.addrStats, calcLoad a < calcLoad b →
        Comparable (calcLoad a) (calcLoad b) := by
      intro a ha b hb hlt
      by_contra hcomp
      obtain ⟨hord, hsorted⟩ := h (breakTies byDecreasingLoad_totalPreorder) fun _ => 0
      rw [updateNode_addrStats _ _ _ _ hnil] at hsorted
      have hba := cmp_eq_zero_of_not_comparable hlt hcomp
      have hab : cmp (fun _ => 0) a b = 0 := by
        have := hord.antisymm a ha b hb
        rwa [hba, sign_zero, neg_zero, sign_eq_zero_iff_zero] at this
      have htie : 0 < byDecreasingLoad a b := by
        rw [← not_le, byDecreasingLoad_nonpos_iff]
        exact hlt.not_ge
      refine breakTies_not_pairwise _ hord ha hb ?_ hlt.not_ge hsorted
      rwa [lex, if_pos hab]
    intro a ha b hb
    rcases lt_trichotomy (calcLoad a) (calcLoad b) with hab | hab | hab
    · exact hlt a ha b hb hab
    · exact .inl hab
    · exact (hlt b hb a ha hab).symm
  · intro h qsort undefined
    have hord := cmp_ordersOn undefined h
    obtain ⟨hperm, hsorted⟩ := qsort.spec _ _ hord
    rw [updateNode_addrStats _ _ _ _ hnil]
    refine ⟨hord, hsorted.imp_of_mem fun ha hb hab => ?_⟩
    exact (cmp_nonpos_iff undefined (h _ (hperm.mem_iff.mp ha) _ (hperm.mem_iff.mp hb))).mp hab

/-- Three workers with loads 6/5, 3/5 and 0: neighbours compare equal, the outer
two do not; and two workers with loads 3/5 and 0 stay in that order. -/
theorem cmp_not_transitive_and_unsorted :
    (∃ a b c : AddrStats, cmp (fun _ => 0) a b ≤ 0 ∧ cmp (fun _ => 0) b c ≤ 0 ∧
      ¬cmp (fun _ => 0) a c ≤ 0) ∧
    ∃ (qsort : Qsort AddrStats) (replies : ℕ → Option Report) (node : ProfilerNode),
      ¬(updateNode qsort (fun _ => 0) replies node).addrStats.Pairwise
        fun a b => calcLoad a ≤ calcLoad b := by
  constructor
  · exact ⟨⟨1, 0, 6 / 5, 6 / 5, 6 / 5⟩, ⟨2, 0, 3 / 5, 3 / 5, 3 / 5⟩, ⟨3, 0, 0, 0, 0⟩,
      by decide +kernel⟩
  · exact ⟨insertion _, fun i => [some ⟨3 / 5, 3 / 5, 3 / 5⟩, some ⟨0, 0, 0⟩].getD i none,
      ⟨fun _ => 0, tordataset 1, [⟨1, 10, 0, 0, 0⟩, ⟨2, 18, 0, 0, 0⟩]⟩, by decide +kernel⟩

section
variable (replies : ℕ → Option Report) (node : ProfilerNode)

def Answered (a : AddrStats) : Prop :=
  ∃ i r b, replies i = some r ∧ node.addrStats[i]? = some b ∧ a = pollWorker (some r) b

def Down (a : AddrStats) : Prop := a ∈ pollWorkers replies node.addrStats ∧ ¬Answered replies node a

open Classical in
/-- The workers that are down come first. -/
noncomputable def downFirst (a b : AddrStats) : ℤ :=
  (if Down replies node a then 0 else 1) - if Down replies node b then 0 else 1

lemma downFirst_totalPreorder : TotalPreorder (downFirst replies node) := by
  constructor
  · intro a b
    rw [← sign_neg, downFirst, downFirst, neg_sub]
  · intro a b c hab hbc
    rw [downFirst] at hab hbc ⊢
    omega

variable {replies node} {a d : AddrStats}

lemma mem_pollWorkers : a ∈ pollWorkers replies node.addrStats ↔
    ∃ i b, node.addrStats[i]? = some b ∧ a = pollWorker (replies i) b := by
  simp only [pollWorkers, List.mem_iff_getElem?, List.getElem?_mapIdx, Option.map_eq_some_iff,
    eq_comm (b := a)]

lemma Answered.mem (h : Answered replies node a) : a ∈ pollWorkers replies node.addrStats := by
  obtain ⟨i, r, b, hreply, hb, rfl⟩ := h
  exact mem_pollWorkers.mpr ⟨i, b, hb, by rw [hreply]⟩

lemma Down.calcLoad_eq (h : Down replies node d) : calcLoad d = 255 := by
  obtain ⟨hmem, hnot⟩ := h
  obtain ⟨i, b, hb, rfl⟩ := mem_pollWorkers.mp hmem
  cases hreply : replies i with
  | none => norm_num [pollWorker, calcLoad]
  | some r => exact absurd ⟨i, r, b, hreply, hb, by rw [hreply]⟩ hnot

open Classical in
/-- A routine that meets the contract, but gives `l` where it may give anything. -/
noncomputable def careless (l : List AddrStats) : Qsort AddrStats where
  sort cmp m := if OrdersOn cmp m then (Qsort.insertion _).sort cmp m else l
  spec cmp m h := by
    rw [if_pos h]
    exact (Qsort.insertion _).spec cmp m h

lemma cmp_nonpos_of_lt (hlt : 254 < calcLoad a) (hd : calcLoad d = 255) :
    cmp (fun _ => 0) d a ≤ 0 := by
  rw [cmp, hd, toInt]
  split_ifs with hrange
  · rcases le_or_gt (calcLoad a) 255 with hle | hgt
    · rw [truncate_of_lt_one (by linarith) (by linarith)]
    · have := le_truncate (z := 0) (q := calcLoad a - 255) (by linarith) (by simpa using hgt.le)
      rw [← neg_sub, truncate_neg]
      omega
  · rfl

variable (hloads : ∀ i r, replies i = some r → 0 ≤ r.ioLoad ∧ 0 ≤ r.cpuLoad ∧ 0 ≤ r.netLoad)
include hloads

lemma Answered.calcLoad_nonneg (h : Answered replies node a) : 0 ≤ calcLoad a := by
  obtain ⟨i, r, b, hreply, -, rfl⟩ := h
  obtain ⟨hio, hcpu, hnet⟩ := hloads i r hreply
  simp only [pollWorker, calcLoad]
  linarith

/-- The addresses whose workers are down stand behind those whose workers answered if and only if
`cmp` orders the list and no load of a worker that answered is above 254, or no worker is down, or
none has answered. -/
theorem updateNode_down_iff : (∀ (qsort : Qsort AddrStats) (undefined : ℚ → ℤ),
      (updateNode qsort undefined replies node).addrStats.Pairwise
        fun d a => ¬(Down replies node d ∧ Answered replies node a)) ↔
    ∀ a d, Answered replies node a → Down replies node d → calcLoad a ≤ 254 ∧
      ∀ undefined, OrdersOn (cmp undefined) (pollWorkers replies node.addrStats) := by
  constructor
  · intro h a d ha hd
    have hnil : node.addrStats ≠ [] := by
      rintro hnil
      simpa [pollWorkers, hnil] using hd.1
    have hord : ∀ undefined, OrdersOn (cmp undefined) (pollWorkers replies node.addrStats) := by
      intro undefined
      by_contra hnot
      have hpair := h (careless [d, a]) undefined
      rw [updateNode_addrStats _ _ _ _ hnil] at hpair
      simp [careless, hnot, ha, hd] at hpair
    refine ⟨not_lt.mp fun hlt => ?_, hord⟩
    have hpair := h (.breakTies (downFirst_totalPreorder replies node)) fun _ => 0
    rw [updateNode_addrStats _ _ _ _ hnil] at hpair
    have hcmp := cmp_nonpos_of_lt hlt hd.calcLoad_eq
    have hsign := (hord fun _ => 0).antisymm a ha.mem d hd.1
    refine breakTies_not_pairwise _ (hord _) ha.mem hd.1 ?_ (fun hR => hR ⟨hd, ha⟩) hpair
    have hnot : ¬Down replies node a := fun hdown => hdown.2 ha
    rw [lex, downFirst, if_neg hnot, if_pos hd]
    split_ifs with heq
    · norm_num
    · exact (nonneg_of_sign_eq_neg hsign hcmp).lt_of_ne (Ne.symm heq)
  · intro h qsort undefined
    by_cases hnil : node.addrStats = []
    · simp [updateNode, hnil]
    rw [updateNode_addrStats _ _ _ _ hnil, List.pairwise_iff_forall_sublist]
    rintro d a hsub ⟨hd, ha⟩
    obtain ⟨hle, hord⟩ := h a d ha hd
    have hcmp := List.pairwise_iff_forall_sublist.mp (qsort.spec _ _ (hord undefined)).2 hsub
    have hload := Answered.calcLoad_nonneg hloads ha
    have habs : |calcLoad d - calcLoad a| = 255 - calcLoad a := by
      rw [hd.calcLoad_eq, abs_of_nonneg (by linarith)]
    rw [cmp_nonpos_iff undefined (.inr ⟨by linarith, by rw [habs]; linarith⟩), hd.calcLoad_eq] at hcmp
    linarith

end

def exampleNode : ProfilerNode := ⟨fun _ => 0, tordataset 1, [⟨1, 10, 0, 0, 0⟩, ⟨2, 18, 0, 0, 0⟩]⟩

/-- The first worker is down, and the second one answers with the loads 256. -/
theorem updateNode_down_first : (updateNode (.insertion _) (fun _ => 0)
      (fun i => if i = 1 then some ⟨256, 256, 256⟩ else none) exampleNode).addrStats =
    [pollWorker none ⟨1, 10, 0, 0, 0⟩, pollWorker (some ⟨256, 256, 256⟩) ⟨2, 18, 0, 0, 0⟩] := by
  decide +kernel

/-- The first worker is down, and the second one answers with the loads 1. -/
def exampleReplies (i : ℕ) : Option Report := if i = 1 then some ⟨1, 1, 1⟩ else none

theorem updateNode_down_iff_second :
    let down := pollWorker none ⟨1, 10, 0, 0, 0⟩
    let up := pollWorker (some ⟨1, 1, 1⟩) ⟨2, 18, 0, 0, 0⟩
    Down exampleReplies exampleNode down ∧ Answered exampleReplies exampleNode up ∧
      ∀ qsort undefined, (updateNode qsort undefined exampleReplies exampleNode).addrStats.Pairwise
        fun d a => ¬(Down exampleReplies exampleNode d ∧ Answered exampleReplies exampleNode a) := by
  have honly {i r} (h : exampleReplies i = some r) : i = 1 ∧ r = ⟨1, 1, 1⟩ := by
    simpa [exampleReplies, eq_comm] using h
  refine ⟨⟨by decide +kernel, ?_⟩, ⟨1, _, _, rfl, rfl, rfl⟩, ?_⟩
  · rintro ⟨i, r, b, hr, hb, heq⟩
    obtain ⟨rfl, rfl⟩ := honly hr
    cases hb
    simp [pollWorker] at heq
  · refine (updateNode_down_iff fun i r h => ?_).mpr fun a d ha _ => ⟨?_, fun _ => cmp_ordersOn _ ?_⟩
    · obtain ⟨rfl, rfl⟩ := honly h
      norm_num
    · obtain ⟨i, r, b, hr, hb, rfl⟩ := ha
      obtain ⟨rfl, rfl⟩ := honly hr
      norm_num [pollWorker, calcLoad]
    · norm_num [exampleNode, exampleReplies, pollWorkers, pollWorker, Comparable, calcLoad]

lemma map_key_pollWorkers (replies : ℕ → Option Report) (addrStats : List AddrStats) :
    (pollWorkers replies addrStats).map (fun a => (a.inAddr, a.offset)) =
      addrStats.map fun a => (a.inAddr, a.offset) := by
  apply List.ext_getElem
  · simp [pollWorkers]
  · intro i h1 h2
    simp only [pollWorkers, List.getElem_map, List.getElem_mapIdx]
    cases replies i <;> rfl

variable {qsort : Qsort AddrStats} {undefined : ℚ → ℤ} {s t u : ProfilerNode} {type : ℕ}
  {rdatas : List Rdata}

/-- A polling pass after which `cmp` can compare the loads. -/
def Polls (qsort : Qsort AddrStats) (undefined : ℚ → ℤ) (s t : ProfilerNode) : Prop :=
  s.addrStats ≠ [] ∧ ∃ replies, (∀ a ∈ pollWorkers replies s.addrStats,
    ∀ b ∈ pollWorkers replies s.addrStats, Comparable (calcLoad a) (calcLoad b)) ∧
      t = updateNode qsort undefined replies s

lemma Polls.pass (h : Polls qsort undefined s t) : Pass s t := by
  obtain ⟨hne, replies, hcomp, rfl⟩ := h
  rw [updateNode, if_pos (List.length_pos_iff.mpr hne)]
  exact .mk s _ _ (map_key_pollWorkers ..) (qsort.spec _ _ (cmp_ordersOn undefined hcomp)).1

lemma passes_perm (h : Relation.ReflTransGen Pass s t) :
    (t.addrStats.map fun a => (a.inAddr, a.offset)).Perm
      (s.addrStats.map fun a => (a.inAddr, a.offset)) := by
  induction h with
  | refl => exact .refl _
  | tail _ hpass ih =>
    obtain ⟨polled, sorted, hpoll, hsort⟩ := hpass
    exact (hsort.map _).trans (.trans (.of_eq hpoll) ih)

/-- After any number of passes a slab serves every rdata once, in the order of the loads that were
polled last, and each address still stands for its rdata. -/
theorem polls_serve (hs : WellFormed s.slab type rdatas (s.addrStats.map (·.offset)))
    (hrun : Relation.ReflTransGen (Polls qsort undefined) s t) (hlast : Polls qsort undefined t u) :
    Serves u.slab type (rdatas.map (·.data))
        (u.addrStats.map fun a => (rdataAt u.slab type a.offset).data) ∧
      (u.addrStats.map fun a => (a.inAddr, a.offset)).Perm
        (s.addrStats.map fun a => (a.inAddr, a.offset)) ∧
      u.addrStats.Pairwise fun a b => calcLoad a ≤ calcLoad b := by
  have hpasses : Relation.ReflTransGen Pass s u :=
    Relation.ReflTransGen.mono (fun _ _ => Polls.pass) _ _ (hrun.tail hlast)
  have hserves := (run_wellFormed hs hpasses).serves
  rw [List.map_map] at hserves
  refine ⟨hserves, passes_perm hpasses, ?_⟩
  obtain ⟨hne, replies, hcomp, rfl⟩ := hlast
  obtain ⟨hperm, hsorted⟩ := qsort.spec _ _ (cmp_ordersOn undefined hcomp)
  rw [updateNode_addrStats _ _ _ _ hne]
  refine hsorted.imp_of_mem fun ha hb hab => ?_
  exact (cmp_nonpos_iff undefined (hcomp _ (hperm.mem_iff.mp ha) _ (hperm.mem_iff.mp hb))).mp hab

/-- The worker of the second address is busy in a first pass and that of the first one in the next. -/
theorem polls_serve_exchanged :
    let first := updateNode (.insertion _) (fun _ => 0)
      (fun i => some (if i = 1 then ⟨9, 9, 9⟩ else ⟨3, 3, 3⟩))
      ⟨twoRecords, tordataset 1, exchangedStats.reverse⟩
    let second := updateNode (.insertion _) (fun _ => 0)
      (fun i => some (if i = 1 then ⟨2, 2, 2⟩ else ⟨7, 7, 7⟩)) first
    second.addrStats.map (·.inAddr) = [2, 1] ∧
      Serves second.slab 1 [[10, 0, 0, 1], [10, 0, 0, 2]]
        (second.addrStats.map fun a => (rdataAt second.slab 1 a.offset).data) ∧
      second.addrStats.Pairwise fun a b => calcLoad a ≤ calcLoad b := by
  intro first second
  have hfirst : first.addrStats = [⟨1, 10, 3, 3, 3⟩, ⟨2, 18, 9, 9, 9⟩] := by decide +kernel
  have hserve := polls_serve (t := first) (u := second) twoRecords_wellFormed
    (.single ⟨by decide, _, by
      norm_num [exchangedStats, pollWorkers, pollWorker, Comparable, calcLoad], rfl⟩)
    ⟨by rw [hfirst]; decide, _, by
      rw [hfirst]
      norm_num [pollWorkers, pollWorker, Comparable, calcLoad], rfl⟩
  exact ⟨by decide +kernel, hserve.1, hserve.2.2⟩

end LbBind.Profiler

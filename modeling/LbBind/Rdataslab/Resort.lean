import LbBind.Rdataslab.Build

/-! Repeated re-sorts of a slab by the profiler. Once `dns_rdataslab_transformrdataset` has tied the
entries of `addr_stats` to the records, a polling pass gives the entries new loads, permutes them
and writes their offsets into the offset table. The records never move again, so iterating serves
all rdata, in the order of `addr_stats`. -/

namespace LbBind.Rdataslab

open Lib List

def slabData (m : Mem) (type : ℕ) : List (List UInt8) :=
  (recordStarts m).map fun s => (rdataAt m type s).data

structure ProfilerNode where
  slab : Mem
  rdataset : Rdataset
  addrStats : List AddrStats

/-- One polling pass of `ns_profiler_update_addrs` on a node: polling changes the
loads only, the entries are permuted in any way, and the rdataset is sorted. -/
inductive Pass : ProfilerNode → ProfilerNode → Prop
  | mk (s : ProfilerNode) (polled sorted : List AddrStats)
      (hpoll : polled.map (fun a => (a.inAddr, a.offset)) =
        s.addrStats.map fun a => (a.inAddr, a.offset))
      (hsort : sorted.Perm polled) :
      Pass s ⟨(sortFromrdataset s.slab s.rdataset sorted).1,
        (sortFromrdataset s.slab s.rdataset sorted).2, sorted⟩

structure Serves (m : Mem) (type : ℕ) (originals served : List (List UInt8)) : Prop where
  count : count m = originals.length
  table : (offsetTable m).Perm (recordStarts m)
  order : ∀ i < originals.length, m.rd16 ((offsetTable m).getD i 0 + 2) = i
  each : served.Perm originals
  iterate : ∀ rs : Rdataset, rs.methods ≠ .rbtdb false → rs.type = type →
    ∀ k ≥ originals.length, ∃ l rs', collect m k (first m rs) = some (l, .noMore, rs') ∧
      l.map (·.data) = served

section
variable {m : Mem} {type : ℕ} {rdatas : List Rdata} {offs : List ℕ}

variable (h : WellFormed m type rdatas offs)
include h

lemma WellFormed.slabData_eq :
    slabData m type = rdatas.map (·.data) := by
  rw [slabData, h.layout.recordStarts_eq, map_rdataAt_starts h.layout.records]

lemma WellFormed.data_eq {m' : Mem} {offs' : List ℕ}
    (h' : WellFormed m' type rdatas offs') {s : ℕ} (hs : s ∈ offs) :
    (rdataAt m type s).data = (rdataAt m' type s).data := by
  have heq := (map_rdataAt_starts h.layout.records).trans
    (map_rdataAt_starts h'.layout.records).symm
  exact map_inj_left.mp heq s (h.perm.mem_iff.mp hs)

lemma WellFormed.serves :
    Serves m type (rdatas.map (·.data)) (offs.map fun s => (rdataAt m type s).data) where
  count := by rw [h.layout.count, length_map]
  table := by
    rw [h.offsetTable_eq, h.layout.recordStarts_eq]
    exact h.perm
  order i hi := by
    rw [length_map, ← h.length_offs] at hi
    rw [h.offsetTable_eq, getD_eq_getElem _ _ hi, h.table.order i hi]
  each := by
    rw [← map_rdataAt_starts h.layout.records]
    exact h.perm.map _
  iterate rs hm ht k hk := by
    rw [length_map, ← h.length_offs] at hk
    obtain ⟨u, p, hcollect⟩ := (visits_offsetTable hm h.count_eq h.table).collect hk
    exact ⟨_, _, hcollect, by rw [ht, map_map]; rfl⟩

end

variable {rdatas : List Rdata} {s t : ProfilerNode} {addrStats : List AddrStats} {offsets : List ℕ}

lemma Pass.wellFormed {type : ℕ} (hpass : Pass s t)
    (h : WellFormed s.slab type rdatas (s.addrStats.map (·.offset))) :
    WellFormed t.slab type rdatas (t.addrStats.map (·.offset)) := by
  obtain ⟨polled, sorted, hpoll, hsort⟩ := hpass
  have hoffset : polled.map (·.offset) = s.addrStats.map (·.offset) := by
    have := congrArg (List.map Prod.snd) hpoll
    rwa [map_map, map_map] at this
  exact sortFromrdataset_wellFormed h s.rdataset ((hsort.map _).trans (.of_eq hoffset))

lemma run_wellFormed {type : ℕ} (hs : WellFormed s.slab type rdatas (s.addrStats.map (·.offset)))
    (hrun : Relation.ReflTransGen Pass s t) :
    WellFormed t.slab type rdatas (t.addrStats.map (·.offset)) := by
  induction hrun with
  | refl => exact hs
  | tail _ hpass ih => exact hpass.wellFormed ih

lemma map_offset_setOffsets (h : addrStats.length = offsets.length) :
    (setOffsets addrStats offsets).map (·.offset) = offsets := by
  rw [setOffsets, drop_eq_nil_of_le h.le, append_nil, map_zipWith]
  apply ext_getElem <;> simp [h]

lemma map_inAddr_setOffsets (h : addrStats.length = offsets.length) :
    (setOffsets addrStats offsets).map (·.inAddr) = addrStats.map (·.inAddr) := by
  rw [setOffsets, drop_eq_nil_of_le h.le, append_nil, map_zipWith]
  apply ext_getElem <;> simp [h]

/-- After the transformation and any number of polling passes the slab serves
every rdata of the original slab once, in the order of `addr_stats`: each entry
stands for the rdata that the transformation assigned to it. -/
theorem transform_passes_serve (compare : List UInt8 → List UInt8 → ℤ) (hc : TotalPreorder compare)
    (qsort : Qsort (Rdata × ℕ)) (source : Source) (reservelen : ℕ) (garbage : Mem) (region : Region)
    (hslab : fromrdataset compare qsort source reservelen garbage = some (.success, some region))
    (hn : 1 ≤ count region.base) (rs : Rdataset) (htype : rs.type = source.type)
    (addrStats : List AddrStats) (hstats : addrStats.length = count region.base) :
    ∃ m₀ rs₀ addrStats₀,
      transformrdataset region.base rs addrStats = some (.success, m₀, rs₀, addrStats₀) ∧
      addrStats₀.map (·.inAddr) = addrStats.map (·.inAddr) ∧
      (addrStats₀.map fun a => (rdataAt m₀ source.type a.offset).data) =
        (visited region.base rs).map (·.data) ∧
      ∀ s, Relation.ReflTransGen Pass ⟨m₀, rs₀, addrStats₀⟩ s →
        Serves s.slab source.type (slabData region.base source.type)
          (s.addrStats.map fun a => (rdataAt m₀ source.type a.offset).data) := by
  obtain ⟨rdatas, offs, hwf⟩ := fromrdataset_wellFormed hc hslab
  rw [hwf.layout.count] at hn hstats
  rw [← htype] at hwf ⊢
  obtain ⟨m₀, htransform, hwf0⟩ := transformrdataset_wellFormed hwf hn addrStats
  have hlen : addrStats.length =
      (starts rs.type (2 + (visited region.base rs).length * 4) (visited region.base rs)).length := by
    rw [length_starts, hwf.length_visited, hstats]
  have hoffset := map_offset_setOffsets hlen
  have hserve : ∀ l : List AddrStats, (l.map fun a => (rdataAt m₀ rs.type a.offset).data) =
      (l.map (·.offset)).map fun s => (rdataAt m₀ rs.type s).data := fun l => by
    rw [map_map]; rfl
  refine ⟨_, _, _, htransform, map_inAddr_setOffsets hlen, ?_, fun s hrun => ?_⟩
  · rw [hserve, hoffset, map_rdataAt_starts hwf0.layout.records]
  · have hwf' := run_wellFormed (s := ⟨m₀, _, _⟩) (by rw [hoffset]; exact hwf0) hrun
    have hdata := map_congr_left fun a ha => hwf'.data_eq hwf0 ha
    have hperm := hwf.visited_perm
    have h := hwf'.serves
    rw [hdata, ← hserve] at h
    rw [hwf.slabData_eq]
    refine ⟨?_, h.table, ?_, h.each.trans hperm, ?_⟩
    · rw [h.count, hperm.length_eq]
    · rw [← hperm.length_eq]
      exact h.order
    · rw [← hperm.length_eq]
      exact h.iterate

def twoAddresses : Source where
  type := 1
  rdatas := [⟨[10, 0, 0, 2], false⟩, ⟨[10, 0, 0, 1], false⟩]
  fits := by decide

def twoAddrStats : List AddrStats := [⟨1, 0, 3, 0, 0⟩, ⟨2, 0, 1, 0, 0⟩]

theorem transform_passes_serve_twoAddresses :
    ∃ region, fromrdataset regionCompare (Qsort.insertion _) twoAddresses 0 (fun _ => 0) =
        some (.success, some region) ∧ count region.base = 2 ∧
      ∃ m₀ rs₀ addrStats₀, transformrdataset region.base (tordataset 1) twoAddrStats =
          some (.success, m₀, rs₀, addrStats₀) ∧
        ∀ s, Relation.ReflTransGen Pass ⟨m₀, rs₀, addrStats₀⟩ s →
          Serves s.slab 1 (slabData region.base 1)
            (s.addrStats.map fun a => (rdataAt m₀ 1 a.offset).data) := by
  refine ⟨_, rfl, by decide, ?_⟩
  obtain ⟨m₀, rs₀, addrStats₀, h, -, -, hserves⟩ :=
    transform_passes_serve regionCompare regionCompare_totalPreorder (Qsort.insertion _)
      twoAddresses 0 (fun _ => 0) _ rfl (by decide) (tordataset 1) rfl twoAddrStats (by decide)
  exact ⟨m₀, rs₀, addrStats₀, h, hserves⟩

end LbBind.Rdataslab

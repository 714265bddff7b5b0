import LbBind.Rdataslab.Setops

/-! The `OFFLINE` flag of RRSIG rdata. The meta byte that holds it is or-ed into what the buffer
held before, and the two readers do not look at the same byte: `rdataset_current` reads the meta
byte, `rdata_from_slab` the first byte of the order field, which is filled in afterwards. -/

namespace LbBind.Rdataslab

open Lib List Mem Rdatatype

def bit0 (b : UInt8) : Bool := b &&& 0x01 != 0

lemma bit0_eq (b : UInt8) : bit0 b = decide (b.toNat % 2 = 1) := by
  have hand : (b &&& 0x01).toNat = b.toNat % 2 := by
    rw [UInt8.toNat_and]
    exact Nat.and_one_is_mod _
  rw [bit0, bne, Bool.eq_iff_iff, Bool.not_eq_true', beq_eq_false_iff_ne, Ne, ← UInt8.toNat_inj,
    hand, decide_eq_true_iff]
  change ¬b.toNat % 2 = 0 ↔ _
  omega

lemma bit0_or_offlineBit (b : UInt8) (r : Rdata) :
    bit0 (b ||| offlineBit r) = (bit0 b || r.offline) := by
  rw [bit0_eq, bit0_eq, UInt8.toNat_or]
  have hbit : (offlineBit r).toNat % 2 = 1 ↔ r.offline := by
    cases hr : r.offline <;> simp [offlineBit, hr]
  rw [Bool.eq_iff_iff, Bool.or_eq_true, decide_eq_true_iff, decide_eq_true_iff,
    Nat.or_mod_two_eq_one, hbit]

lemma putRecord_meta (r : Rdata) (m : Mem) (p : ℕ) :
    (putRecord rrsig r m p).1 (p + 4) = m (p + 4) ||| offlineBit r := by
  have hmeta : metaLength rrsig = 1 := rfl
  simp only [putRecord, if_true, hmeta]
  rw [put_outside _ (by omega)]
  have hput := put_inside (m.put p (be16 (r.data.length + 1))) (p + 4)
    [m.put p (be16 (r.data.length + 1)) (p + 4) ||| offlineBit r] (i := 0) (by simp)
  rw [Nat.add_zero] at hput
  rw [hput, getElem_cons_zero, put_outside _ (by simp)]

lemma putRecords_below (type : ℕ) (xs : List XRdata) {m : Mem} {p q : ℕ} (tbl : List ℕ)
    (h : q < p) : (putRecords type xs m p tbl).1 q = m q := by
  induction xs generalizing m p tbl with
  | nil => rfl
  | cons x t ih =>
    obtain ⟨_ | r, o⟩ := x
    · exact ih tbl h
    · have hp := putRecord_snd type r m p
      simp only [putRecords]
      rw [ih _ (by rw [hp]; omega), putRecord_outside m (.inl h)]

variable (xs : List XRdata)

lemma putRecords_meta (m : Mem) {p : ℕ} (tbl : List ℕ) {e : Rdata × ℕ}
    (he : e ∈ (kept xs).zip (starts rrsig p (kept xs))) :
    (putRecords rrsig xs m p tbl).1 (e.2 + 4) = m (e.2 + 4) ||| offlineBit e.1 := by
  induction xs generalizing m p tbl with
  | nil => simp [kept] at he
  | cons x t ih =>
    obtain ⟨_ | r, o⟩ := x
    · exact ih _ tbl he
    · have hp := putRecord_snd rrsig r m p
      have hsize : p + 5 ≤ p + recordSize rrsig r := by
        rw [recordSize, show metaLength rrsig = 1 from rfl]
        omega
      simp only [kept_some, starts, zip_cons_cons, mem_cons] at he
      simp only [putRecords]
      rcases he with rfl | he
      · rw [putRecords_below _ _ _ (by rw [hp]; exact hsize), putRecord_meta]
      · have hstart := le_of_mem_starts rrsig (of_mem_zip he).2
        rw [ih _ _ (by rwa [hp]), putRecord_outside m (.inr (by omega))]

lemma fillinOffsets_meta {m : Mem} {type k : ℕ} {rs : List Rdata} {tbl : List ℕ}
    (hperm : (tbl.filter (· ≠ 0)).Perm (starts type (2 + k * 4) rs)) (hk : k = rs.length) {s : ℕ}
    (hs : s ∈ starts type (2 + k * 4) rs) : fillinOffsets tbl 0 m (s + 4) = m (s + 4) := by
  have hlen := hperm.length_eq
  rw [length_starts] at hlen
  have hle := le_of_mem_starts type hs
  rw [fillinOffsets_eq]
  refine sortLoop_outside (by omega) fun off hoff => ?_
  have hoff := hperm.mem_iff.mp hoff
  by_cases heq : off = s
  · omega
  · have : Std.Symm Apart := ⟨fun _ _ => Or.symm⟩
    have hapart := (pairwise_apart_of_perm type (List.Perm.refl _)).forall hoff hs heq
    simp only [Apart] at hapart
    omega

lemma offline_rdataAt (m : Mem) (s : ℕ) : (rdataAt m rrsig s).offline = bit0 (m (s + 4)) := rfl

lemma offline_rdataFromSlab (m : Mem) (s : ℕ) :
    (rdataFromSlab m rrsig s).1.offline = decide (m.rd16 (s + 2) / 256 % 2 = 1) := by
  have hhigh : m.rd16 (s + 2) / 256 = (m (s + 2)).toNat := by
    have := (m (s + 2 + 1)).toNat_lt
    rw [rd16]
    omega
  rw [hhigh, ← bit0_eq]
  rfl

def placed : List (Rdata × ℕ × ℕ) :=
  (kept xs).zip ((keptOrders xs).zip (starts rrsig (2 + (kept xs).length * 4) (kept xs)))

lemma mem_of_mem_placed {xs : List XRdata} {e : Rdata × ℕ × ℕ} (h : e ∈ placed xs) :
    (e.1, e.2.2) ∈ (kept xs).zip (starts rrsig (2 + (kept xs).length * 4) (kept xs)) ∧
      e.2 ∈ (keptOrders xs).zip (starts rrsig (2 + (kept xs).length * 4) (kept xs)) := by
  obtain ⟨j, hj⟩ := mem_iff_getElem?.mp h
  obtain ⟨hr, hpair⟩ := getElem?_zip_eq_some.mp hj
  obtain ⟨-, hs⟩ := getElem?_zip_eq_some.mp hpair
  exact ⟨mem_iff_getElem?.mpr ⟨j, getElem?_zip_eq_some.mpr ⟨hr, hs⟩⟩, mem_of_getElem? hpair⟩

def position (order : ℕ) : ℕ := (keptOrders xs).countP (· < order)

/-- The slab of the array gives back the `OFFLINE` flag of every rdata, to either reader, and the
transformation leaves the flags that the rdataset `rs` shows. -/
structure KeepsOffline (xs : List XRdata) (m : Mem) (rs : Rdataset) : Prop where
  current : ∀ e ∈ placed xs, (rdataAt m rrsig e.2.2).offline = e.1.offline
  fromSlab : ∀ e ∈ placed xs, (rdataFromSlab m rrsig e.2.2).1.offline = e.1.offline
  transform : ∀ addrStats m' rs' addrStats',
    transformrdataset m rs addrStats = some (.success, m', rs', addrStats') →
      (visited m' rs').map (·.offline) = (visited m rs).map (·.offline)

/-- The bytes that the meta bytes of unflagged rdata are or-ed into are even, when the slab is made
and when it is laid out again, and an rdata is flagged exactly if its place in load order has an
odd high byte. -/
structure MetaBytesFit (xs : List XRdata) (garbage m : Mem) (rs : Rdataset) : Prop where
  clear : ∀ e ∈ placed xs, e.1.offline = false → bit0 (garbage (e.2.2 + 4)) = false
  orders : ∀ e ∈ placed xs, e.1.offline = decide (position xs e.2.1 / 256 % 2 = 1)
  again : ∀ e ∈ (visited m rs).zip (starts rrsig (2 + (visited m rs).length * 4) (visited m rs)),
    e.1.offline = false → bit0 (m (e.2 + 4)) = false

lemma or_eq_self_iff (a b : Bool) : (a || b) = b ↔ (b = false → a = false) := by
  cases a <;> cases b <;> simp

section
variable {m : Mem} {rs : Rdataset} {rdatas : List Rdata} {offs : List ℕ}

lemma transform_offline_iff (h : WellFormed m rs.type rdatas offs) (hn : 1 ≤ rdatas.length)
    (htype : rs.type = rrsig) : (∀ addrStats m' rs' addrStats',
      transformrdataset m rs addrStats = some (.success, m', rs', addrStats') →
        (visited m' rs').map (·.offline) = (visited m rs).map (·.offline)) ↔
      ∀ e ∈ (visited m rs).zip (starts rrsig (2 + (visited m rs).length * 4) (visited m rs)),
        e.1.offline = false → bit0 (m (e.2 + 4)) = false := by
  obtain ⟨m1, p, hput, hwf⟩ := putRecords_visited h
  have hrun := fun addrStats => transformrdataset_eq h hn addrStats hput
  have htype' : ({ rs with methods := .rdataslab, privateuint4 := 0, private5 := none }
      : Rdataset).type = rrsig := htype
  have hmethods : ({ rs with methods := .rdataslab, privateuint4 := 0, private5 := none }
      : Rdataset).methods = .rdataslab := rfl
  generalize ({ rs with methods := .rdataslab, privateuint4 := 0, private5 := none }
    : Rdataset) = rs1 at hrun htype' hmethods
  rw [htype] at hput hwf
  simp only [htype] at hrun
  generalize visited m rs = v at *
  have hlen : (starts rrsig (2 + v.length * 4) v).length = v.length := length_starts ..
  -- the meta bytes of the new slab
  have hmeta : ∀ e ∈ v.zip (starts rrsig (2 + v.length * 4) v),
      fillinOffsets (starts rrsig (2 + v.length * 4) v) 0 m1 (e.2 + 4) =
        m (e.2 + 4) ||| offlineBit e.1 := by
    intro e he
    have hs := (of_mem_zip he).2
    have hbytes := putRecords_meta (v.zipIdx.map fun y => ⟨some y.1, y.2⟩)
      (m.put 0 (be16 v.length)) (p := 2 + v.length * 4) (List.replicate v.length 0) (e := e)
      (by rwa [kept_zipIdx])
    rw [hput, put_outside _ (.inr (by simp))] at hbytes
    have hperm : ((starts rrsig (2 + v.length * 4) v).filter (· ≠ 0)).Perm
        (starts rrsig (2 + v.length * 4) v) := by
      rw [filter_eq_self.mpr fun s hs => ?_]
      have := le_of_mem_starts rrsig hs
      simp only [ne_eq, decide_eq_true_eq]
      omega
    exact (fillinOffsets_meta hperm rfl hs).trans hbytes
  generalize fillinOffsets (starts rrsig (2 + v.length * 4) v) 0 m1 = m2 at *
  have hvisited : (visited m2 rs1).map (·.offline) =
      (v.zip (starts rrsig (2 + v.length * 4) v)).map fun e => bit0 (m (e.2 + 4)) || e.1.offline := by
    have hphysical : physical rs1 = false := by simp [physical, hmethods]
    rw [visited, visitOrder, hphysical, if_neg Bool.false_ne_true, hwf.offsetTable_eq, htype',
      map_map]
    conv_lhs => rw [← map_snd_zip hlen.le, map_map]
    refine map_congr_left fun e he => ?_
    simp only [Function.comp_apply, offline_rdataAt, hmeta e he, bit0_or_offlineBit]
  have hold : v.map (·.offline) =
      (v.zip (starts rrsig (2 + v.length * 4) v)).map fun e => e.1.offline := by
    conv_lhs => rw [← map_fst_zip hlen.ge, map_map]
    rfl
  have hiff : (v.zip (starts rrsig (2 + v.length * 4) v)).map
        (fun e => bit0 (m (e.2 + 4)) || e.1.offline) = v.map (·.offline) ↔
      ∀ e ∈ v.zip (starts rrsig (2 + v.length * 4) v),
        e.1.offline = false → bit0 (m (e.2 + 4)) = false := by
    rw [hold, map_inj_left]
    simp only [or_eq_self_iff]
  rw [← hiff, ← hvisited]
  constructor
  · intro hall
    exact hall [] _ _ _ (hrun [])
  · intro heq addrStats m' rs' addrStats' h
    rw [hrun] at h
    simp only [Option.some.injEq, Prod.mk.injEq, true_and] at h
    obtain ⟨rfl, rfl, -⟩ := h
    exact heq

end

section
variable {compare : List UInt8 → List UInt8 → ℤ} {qsort : Qsort (Rdata × ℕ)} {source : Source}
  {reservelen : ℕ} {garbage : Mem} {region : Region}

lemma current_offline_iff (garbage : Mem) {m : Mem} {xs : List XRdata}
    (hmeta : ∀ e ∈ placed xs, m (e.2.2 + 4) = garbage (e.2.2 + 4) ||| offlineBit e.1) :
    (∀ e ∈ placed xs, (rdataAt m rrsig e.2.2).offline = e.1.offline) ↔
      ∀ e ∈ placed xs, e.1.offline = false → bit0 (garbage (e.2.2 + 4)) = false := by
  refine forall₂_congr fun e he => ?_
  rw [offline_rdataAt, hmeta e he, bit0_or_offlineBit, or_eq_self_iff]

lemma fromrdataset_meta (hc : TotalPreorder compare) (htype : source.type = rrsig)
    (h : fromrdataset compare qsort source reservelen garbage = some (.success, some region)) :
    (∃ offs, WellFormed region.base rrsig (kept (sortedArray compare qsort source)) offs) ∧
      1 ≤ (kept (sortedArray compare qsort source)).length ∧
      ∀ e ∈ placed (sortedArray compare qsort source),
        region.base (e.2.2 + 4) = garbage (e.2.2 + 4) ||| offlineBit e.1 ∧
        region.base.rd16 (e.2.2 + 2) = position (sortedArray compare qsort source) e.2.1 := by
  have hspec := sortedArray_spec hc qsort source
  simp only [fromrdataset, length_filter_isSome] at h
  split_ifs at h with hempty hmany hone hlong <;> try cases h
  obtain ⟨m, tbl, hput, hlaid⟩ := putRecords_sorted hspec (not_lt.mp hmany) garbage
  have hbuflen : bufferLength source.type reservelen (sortedArray compare qsort source) < 2 ^ 32 :=
    Nat.mod_lt _ (by decide)
  have hlt : ∀ o ∈ keptOrders (sortedArray compare qsort source), o < source.rdatas.length :=
    fun o ho => mem_range.mp (hspec.orders.subset ho)
  simp only [hput] at hlong ⊢
  have hwf := hlaid.wellFormed (fun r hr => source.fits r (hspec.mem r hr)) (by omega) hspec.nodup hlt
  rw [htype] at hput hwf hlaid
  have hpos : source.rdatas ≠ [] := by
    intro hnil
    exact hempty ⟨by simp [hnil], by simp [htype, rrsig]⟩
  refine ⟨⟨_, hwf⟩, ?_, fun e he => ?_⟩
  · obtain ⟨r, hr⟩ := exists_mem_of_ne_nil _ hpos
    obtain ⟨r', hr', -⟩ := hspec.covers r hr
    exact length_pos_of_mem hr'
  · obtain ⟨hdata, horder⟩ := mem_of_mem_placed he
    have hs := (of_mem_zip hdata).2
    have hbytes := putRecords_meta _
      (garbage.put 0 (be16 (kept (sortedArray compare qsort source)).length))
      (List.replicate source.rdatas.length 0) hdata
    rw [hput, put_outside _ (.inr (by simp))] at hbytes
    exact ⟨(fillinOffsets_meta hwf.perm rfl hs).trans hbytes,
      hlaid.order_eq hspec.nodup hlt hwf horder⟩

/-- The `OFFLINE` flags of an RRSIG rdataset survive if and only if the meta bytes fit. -/
theorem fromrdataset_offline_iff (hc : TotalPreorder compare) (htype : source.type = rrsig)
    (h : fromrdataset compare qsort source reservelen garbage = some (.success, some region))
    {rs : Rdataset} (hrs : rs.type = rrsig) :
    KeepsOffline (sortedArray compare qsort source) region.base rs ↔
      MetaBytesFit (sortedArray compare qsort source) garbage region.base rs := by
  obtain ⟨⟨offs, hwf⟩, hpos, hmeta⟩ := fromrdataset_meta hc htype h
  have hcurrent := current_offline_iff garbage fun e he => (hmeta e he).1
  rw [← hrs] at hwf
  have htransform := transform_offline_iff hwf hpos hrs
  have hslab : (∀ e ∈ placed (sortedArray compare qsort source),
      (rdataFromSlab region.base rrsig e.2.2).1.offline = e.1.offline) ↔
      ∀ e ∈ placed (sortedArray compare qsort source), e.1.offline =
        decide (position (sortedArray compare qsort source) e.2.1 / 256 % 2 = 1) := by
    refine forall₂_congr fun e he => ?_
    rw [offline_rdataFromSlab, (hmeta e he).2, eq_comm]
  constructor
  · rintro ⟨h1, h2, h3⟩
    exact ⟨hcurrent.mp h1, hslab.mp h2, htransform.mp h3⟩
  · rintro ⟨h1, h2, h3⟩
    exact ⟨hcurrent.mpr h1, hslab.mpr h2, htransform.mpr h3⟩

end

def oneSignature (offline : Bool) : Source where
  type := rrsig
  rdatas := [⟨[7], offline⟩]
  fits := by simp [metaLength, rrsig]

def threeSignatures : Source where
  type := rrsig
  rdatas := [⟨[9], false⟩, ⟨[7], false⟩, ⟨[8], false⟩]
  fits := by simp [metaLength, rrsig]

/-- Three signatures out of order, in a buffer that only has the lowest bit clear. None is flagged:
`rdata_from_slab` takes only those from place 256 of the load order on to be. -/
theorem fromrdataset_offline_iff_clear : ∃ region,
    fromrdataset regionCompare (Qsort.insertion _) threeSignatures 0 (fun _ => 254) =
        some (.success, some region) ∧
      KeepsOffline (sortedArray regionCompare (Qsort.insertion _) threeSignatures) region.base
        (tordataset rrsig) := by
  obtain ⟨region, h, hagain⟩ : ∃ region,
      fromrdataset regionCompare (Qsort.insertion _) threeSignatures 0 (fun _ => 254) =
        some (.success, some region) ∧
      ∀ e ∈ (visited region.base (tordataset rrsig)).zip (starts rrsig
        (2 + (visited region.base (tordataset rrsig)).length * 4)
        (visited region.base (tordataset rrsig))),
        e.1.offline = false → bit0 (region.base (e.2 + 4)) = false :=
    ⟨⟨_, _⟩, rfl, by decide +kernel⟩
  exact ⟨region, h, (fromrdataset_offline_iff regionCompare_totalPreorder rfl h rfl).mpr
    ⟨by decide +kernel, by decide +kernel, hagain⟩⟩

/-- A signature that is not flagged is read as flagged when the buffer was not clear; one that is
flagged is not found to be by `rdata_from_slab`. -/
theorem fromrdataset_offline_lost :
    (fromrdataset regionCompare (Qsort.insertion _) (oneSignature false) 0 (fun _ => 0xff)).map
        (fun x => x.2.map fun region => (rdataAt region.base rrsig 6).offline) =
      some (some true) ∧
    (fromrdataset regionCompare (Qsort.insertion _) (oneSignature true) 0 (fun _ => 0)).map
        (fun x => x.2.map fun region => (rdataFromSlab region.base rrsig 6).1.offline) =
      some (some false) :=
  ⟨by decide +kernel, by decide +kernel⟩

end LbBind.Rdataslab

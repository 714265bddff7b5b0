import LbBind.Lib.Qsort
import LbBind.Name.Compare
import LbBind.Name.Fromwire

/-! `dns_name_fullcompare` as it reads names: the labels are found through the offset tables, the
last ones first, and compared byte by byte. What it computes is the comparison of the labels, which
orders names totally; names that compare equal have the same hashes. -/

namespace LbBind

open Lib List Label Wire

/-- The loop of `set_offsets` over the bytes from `offset` on; `none` is a failed `INSIST`. -/
def setOffsetsFrom (nlabels offset : ℕ) (ndata : List UInt8) : Option (List ℕ) := match ndata with
  | [] => some []
  | count :: rest =>
    if nlabels < 128 ∧ count.toNat ≤ 63 ∧ count.toNat ≤ rest.length then
      if count = 0 then (if rest = [] then some [offset] else none)
      else (setOffsetsFrom (nlabels + 1) (offset + 1 + count.toNat) (rest.drop count.toNat)).map
        (offset :: ·)
    else none
termination_by ndata.length
decreasing_by simp only [length_drop, length_cons]; omega

def setOffsets (name : Wire) : Option (List ℕ) := match setOffsetsFrom 0 0 name.ndata with
  | some offsets => if offsets.length = name.labels then some offsets else none
  | none => none

structure Stored where
  name : Name
  offsets : Option (List ℕ)
  valid : ∀ o, offsets = some o → o = labelOffsets 0 name.labels

def Stored.setup (s : Stored) : Option (List ℕ) := match s.offsets with
  | some offsets => some offsets
  | none => setOffsets s.name.wire

def compareBytes (ndata1 ndata2 : List UInt8) : ℕ → ℕ → ℕ → ℤ
  | 0, _, _ => 0
  | count + 1, label1, label2 =>
    let chdiff : ℤ := (maptolower (ndata1.getD label1 0)).toNat -
      (maptolower (ndata2.getD label2 0)).toNat
    if chdiff ≠ 0 then chdiff else compareBytes ndata1 ndata2 count (label1 + 1) (label2 + 1)

/-- The loop of `dns_name_fullcompare` for `l` more labels; `none` is a failed `INSIST`. -/
def fullcompareLoop (ndata1 ndata2 : List UInt8) (offsets1 offsets2 : List ℕ) (ldiff : ℤ) :
    ℕ → ℕ → ℕ → ℕ → Option Comparison
  | 0, _, _, nlabels =>
    some ⟨if ldiff < 0 then .contains else if ldiff > 0 then .subdomain else .equal, ldiff, nlabels⟩
  | l + 1, l1, l2, nlabels =>
    let label1 := offsets1.getD (l1 - 1) 0
    let label2 := offsets2.getD (l2 - 1) 0
    let count1 := (ndata1.getD label1 0).toNat
    let count2 := (ndata2.getD label2 0).toNat
    if count1 ≤ 63 ∧ count2 ≤ 63 then
      let cdiff : ℤ := count1 - count2
      let count := if cdiff < 0 then count1 else count2
      let chdiff := compareBytes ndata1 ndata2 count (label1 + 1) (label2 + 1)
      if chdiff ≠ 0 then some ⟨if nlabels > 0 then .commonancestor else .none, chdiff, nlabels⟩
      else if cdiff ≠ 0 then some ⟨if nlabels > 0 then .commonancestor else .none, cdiff, nlabels⟩
      else fullcompareLoop ndata1 ndata2 offsets1 offsets2 ldiff l (l1 - 1) (l2 - 1) (nlabels + 1)
    else none

/-- `dns_name_fullcompare`; `none` is a failed `REQUIRE` or `INSIST`. -/
def Stored.fullcompare (s1 s2 : Stored) : Option Comparison :=
  if s1.name.absolute = s2.name.absolute then do
    let offsets1 ← s1.setup
    let offsets2 ← s2.setup
    let l1 := s1.name.wire.labels
    let l2 := s2.name.wire.labels
    let ldiff : ℤ := l1 - l2
    let l := if ldiff < 0 then l1 else l2
    fullcompareLoop s1.name.wire.ndata s2.name.wire.ndata offsets1 offsets2 ldiff l l1 l2 0
  else none

variable (rndvector : ℕ → UInt16)

/-- `hash_calc` of `lib/isc/hash.c` with the random vector of the process. -/
def hashCalc (key : List UInt8) (caseSensitive : Bool) : UInt32 :=
  let partialSum := key.zipIdx.foldl (fun partialSum x =>
    partialSum + (if caseSensitive then x.1 else maptolower x.1).toUInt32 *
      (rndvector x.2).toUInt32) 0
  (partialSum + (rndvector key.length).toUInt32) % 0xFFFFFFFB

def Wire.fullhash (name : Wire) (caseSensitive : Bool) : UInt32 :=
  if name.labels = 0 then 0 else hashCalc rndvector name.ndata caseSensitive

lemma labelOffsets_append (k : ℕ) (ls ms : List Label) :
    labelOffsets k (ls ++ ms) = labelOffsets k ls ++ labelOffsets (k + (wireOf ls).length) ms := by
  induction ls generalizing k with
  | nil => simp [labelOffsets]
  | cons l ls ih => simp [labelOffsets, ih, add_assoc]

variable {ls ms : List Label} {caseSensitive : Bool}

lemma getD_labelOffsets (l : Label) :
    (labelOffsets 0 (ls ++ l :: ms)).getD ls.length 0 = (wireOf ls).length := by
  rw [labelOffsets_append, getD_append_right _ _ _ _ (by simp)]
  simp [labelOffsets]

lemma setOffsetsFrom_wireOf (nlabels offset : ℕ) (ls : List Label)
    (hroot : ∀ l ∈ ls.dropLast, l ≠ root) (hlen : nlabels + ls.length ≤ 128) :
    setOffsetsFrom nlabels offset (wireOf ls) = some (labelOffsets offset ls) := by
  induction ls generalizing nlabels offset with
  | nil => simp [setOffsetsFrom, labelOffsets]
  | cons l ls ih =>
    have hl := l.2
    simp only [length_cons] at hlen
    rw [wireOf_cons, bytes, cons_append, setOffsetsFrom, toNat_length, if_pos ⟨by omega, hl,
      by simp⟩]
    by_cases hnil : l = root
    · cases ls with
      | nil =>
        subst hnil
        rfl
      | cons m ms => exact absurd hnil (hroot l (by simp))
    · have hne : UInt8.ofNat l.1.length ≠ 0 := by
        intro h
        have := congrArg UInt8.toNat h
        rw [toNat_length] at this
        exact hnil (Subtype.ext (length_eq_zero_iff.mp this))
      have hrest : ∀ m ∈ ls.dropLast, m ≠ root := by
        intro m hm
        cases ls with
        | nil => simp at hm
        | cons a t => exact hroot m (by simp [dropLast_cons_of_ne_nil, hm])
      rw [if_neg hne, drop_left, ih _ _ hrest (by omega)]
      simp [labelOffsets, add_assoc, add_comm 1]

lemma two_mul_length_le_wireOf (hroot : ∀ l ∈ ls, l ≠ root) :
    2 * ls.length ≤ (wireOf ls).length := by
  induction ls with
  | nil => simp
  | cons l ls ih =>
    have hl : l.1.length ≠ 0 := fun h =>
      hroot l (by simp) (Subtype.ext (length_eq_zero_iff.mp h))
    have := ih fun a ha => hroot a (by simp [ha])
    simp only [wireOf_cons, length_append, length_bytes, length_cons]
    omega

lemma Name.length_labels_le (name : Name) : name.labels.length ≤ 128 := by
  rcases eq_nil_or_concat name.labels with hnil | ⟨ls, l, hls⟩
  · simp [hnil]
  · have hroot := name.rootLast
    have hshort := name.short
    rw [concat_eq_append] at hls
    rw [hls] at hroot hshort ⊢
    rw [dropLast_concat] at hroot
    have := two_mul_length_le_wireOf hroot
    simp only [wireOf_append, wireOf_cons, wireOf_nil, append_nil, length_append, length_bytes,
      length_singleton] at hshort ⊢
    omega

lemma Stored.setup_eq (s : Stored) : s.setup = some (labelOffsets 0 s.name.labels) := by
  rw [setup]
  cases h : s.offsets with
  | some o => rw [s.valid o h]
  | none =>
    have hset := setOffsetsFrom_wireOf 0 0 s.name.labels s.name.rootLast
      (by simpa using s.name.length_labels_le)
    change setOffsets ⟨wireOf s.name.labels, s.name.labels.length⟩ = _
    simp [setOffsets, hset]

lemma compareLabel_eq (as bs r1 r2 pre1 pre2 : List UInt8) : compareLabel as bs =
      let chdiff := compareBytes (pre1 ++ (as ++ r1)) (pre2 ++ (bs ++ r2))
        (min as.length bs.length) pre1.length pre2.length
      if chdiff ≠ 0 then chdiff else (as.length : ℤ) - bs.length := by
  induction as generalizing bs pre1 pre2 with
  | nil => simp [compareLabel, compareBytes]
  | cons a as ih =>
    cases bs with
    | nil => simp [compareLabel, compareBytes]
    | cons b bs =>
      have ih := ih bs (pre1 ++ [a]) (pre2 ++ [b])
      simp only [append_assoc, singleton_append, length_append, length_singleton] at ih
      simp only [compareLabel, length_cons, Nat.add_min_add_right, compareBytes, cons_append,
        getD_append_right _ _ _ _ (le_refl _), Nat.sub_self,
        getD_cons_zero]
      by_cases hch : ((maptolower a).toNat : ℤ) - (maptolower b).toNat ≠ 0
      · simp only [if_pos hch]
      · simp only [if_neg hch, ih]
        push_cast
        split_ifs <;> omega

lemma fullcompareFrom_nil_left (nlabels : ℕ) (h : ms ≠ []) :
    fullcompareFrom nlabels [] ms = ⟨.contains, -ms.length, nlabels⟩ := by
  cases ms with
  | nil => exact absurd rfl h
  | cons m ms => rfl

lemma fullcompareFrom_nil_right (nlabels : ℕ) (h : ls ≠ []) :
    fullcompareFrom nlabels ls [] = ⟨.subdomain, ls.length, nlabels⟩ := by
  cases ls with
  | nil => exact absurd rfl h
  | cons l ls => rfl

lemma wireOf_around (ls ls' : List Label) (l : Label) : wireOf ((ls ++ [l]) ++ ls') =
      (wireOf ls ++ [UInt8.ofNat l.1.length]) ++ (l.1 ++ wireOf ls') := by
  simp [bytes]

lemma getD_wireOf (ls ls' : List Label) (l : Label) :
    ((wireOf ((ls ++ [l]) ++ ls')).getD (wireOf ls).length 0).toNat = l.1.length := by
  rw [wireOf_around, append_assoc, getD_append_right _ _ _ _ (le_refl _), Nat.sub_self]
  exact l.toNat_length

lemma fullcompareLoop_eq (ls ms ls' ms' : List Label) {l : ℕ} (nlabels : ℕ)
    (hl : l = min ls.length ms.length) {ldiff : ℤ} (hldiff : ldiff = (ls.length : ℤ) - ms.length) :
    fullcompareLoop (wireOf (ls ++ ls')) (wireOf (ms ++ ms')) (labelOffsets 0 (ls ++ ls'))
        (labelOffsets 0 (ms ++ ms')) ldiff l ls.length ms.length nlabels =
      some (fullcompareFrom nlabels ls.reverse ms.reverse) := by
  induction l generalizing ls ms ls' ms' nlabels with
  | zero =>
    -- one name has no more labels, and the difference is that of the counts
    rw [fullcompareLoop]
    rcases eq_or_ne ls [] with rfl | hls
    · rcases eq_or_ne ms [] with rfl | hms
      · simp [fullcompareFrom, hldiff]
      · have := length_pos_iff.mpr hms
        rw [reverse_nil, fullcompareFrom_nil_left _ (by simpa using hms),
          if_pos (by rw [hldiff, length_nil]; omega)]
        simp [hldiff]
    · have := length_pos_iff.mpr hls
      obtain rfl : ms = [] := length_eq_zero_iff.mp (by omega)
      rw [reverse_nil, fullcompareFrom_nil_right _ (by simpa using hls),
        if_neg (by rw [hldiff, length_nil]; omega),
        if_pos (by rw [hldiff, length_nil]; omega)]
      simp [hldiff]
  | succ l ih =>
    obtain ⟨ls, a, rfl⟩ : ∃ t a, ls = t ++ [a] := by
      rcases eq_nil_or_concat ls with rfl | ⟨t, a, rfl⟩
      · simp at hl
      · exact ⟨t, a, by simp⟩
    obtain ⟨ms, b, rfl⟩ : ∃ t b, ms = t ++ [b] := by
      rcases eq_nil_or_concat ms with rfl | ⟨t, b, rfl⟩
      · simp at hl
      · exact ⟨t, b, by simp⟩
    have ho1 : (labelOffsets 0 ((ls ++ [a]) ++ ls')).getD ((ls ++ [a]).length - 1) 0 =
        (wireOf ls).length := by
      rw [append_assoc]
      simpa using getD_labelOffsets a
    have ho2 : (labelOffsets 0 ((ms ++ [b]) ++ ms')).getD ((ms ++ [b]).length - 1) 0 =
        (wireOf ms).length := by
      rw [append_assoc]
      simpa using getD_labelOffsets b
    have hmin : (if (a.1.length : ℤ) - b.1.length < 0 then a.1.length else b.1.length) =
        min a.1.length b.1.length := by
      split_ifs <;> omega
    have hcompare := compareLabel_eq a.1 b.1 (wireOf ls') (wireOf ms')
      (wireOf ls ++ [UInt8.ofNat a.1.length]) (wireOf ms ++ [UInt8.ofNat b.1.length])
    simp only [length_append, length_singleton] at hcompare
    rw [← wireOf_around, ← wireOf_around] at hcompare
    have ih := ih ls ms (a :: ls') (b :: ms') (nlabels + 1)
      (by simp only [length_append, length_singleton] at hl; omega)
      (by rw [hldiff]; push_cast [length_append, length_singleton]; omega)
    rw [fullcompareLoop, ho1, ho2, getD_wireOf, getD_wireOf, if_pos ⟨a.2, b.2⟩]
    simp only [hmin, reverse_append, reverse_singleton, singleton_append, fullcompareFrom, hcompare,
      gt_iff_lt]
    simp only [append_assoc, singleton_append, length_append, length_singleton] at ih ⊢
    split_ifs <;> first | rfl | exact ih

lemma Stored.fullcompare_eq (s1 s2 : Stored) (h : s1.name.absolute = s2.name.absolute) :
    s1.fullcompare s2 = some (s1.name.fullcompare s2.name) := by
  have hloop := fullcompareLoop_eq s1.name.labels s2.name.labels [] []
    (l := if (s1.name.labels.length : ℤ) - s2.name.labels.length < 0 then s1.name.labels.length
      else s2.name.labels.length) 0 (by split_ifs <;> omega) rfl
  simp only [append_nil] at hloop
  rw [fullcompare, if_pos h, s1.setup_eq, s2.setup_eq]
  exact hloop

lemma SameLabels.map_wireOf (h : SameLabels ls ms) :
    (wireOf ls).map maptolower = (wireOf ms).map maptolower := by
  have hmap : ∀ ks : List Label, (wireOf ks).map maptolower =
      (ks.map lower).flatMap fun l => maptolower (UInt8.ofNat l.length) :: l := by
    intro ks
    induction ks with
    | nil => rfl
    | cons k ks ih =>
      rw [wireOf_cons, map_append, ih]
      simp [bytes, lower]
  rw [hmap, hmap, h]

lemma Wire.nameHash_congr {name1 name2 : Wire}
    (h : name1.ndata.map (fun c => if caseSensitive then c else maptolower c) =
      name2.ndata.map fun c => if caseSensitive then c else maptolower c) :
    name1.nameHash caseSensitive = name2.nameHash caseSensitive := by
  have hfold : ∀ name : Wire, name.nameHash caseSensitive =
      ((name.ndata.map fun c => if caseSensitive then c else maptolower c).take 16).foldl
        (fun h c => (h + (h * 8 + c.toNat)) % 2 ^ 32) 0 := by
    intro name
    rw [nameHash, ← map_take, foldl_map]
  rw [hfold, hfold, h]

lemma hashCalc_congr {key1 key2 : List UInt8}
    (h : key1.map (fun c => if caseSensitive then c else maptolower c) =
      key2.map fun c => if caseSensitive then c else maptolower c) :
    hashCalc rndvector key1 caseSensitive = hashCalc rndvector key2 caseSensitive := by
  have hfold : ∀ key : List UInt8, hashCalc rndvector key caseSensitive =
      ((key.map fun c => if caseSensitive then c else maptolower c).zipIdx.foldl
        (fun partialSum x => partialSum + x.1.toUInt32 * (rndvector x.2).toUInt32) 0 +
          (rndvector (key.map fun c => if caseSensitive then c else maptolower c).length).toUInt32) %
        0xFFFFFFFB := by
    intro key
    rw [hashCalc, zipIdx_map, foldl_map, length_map]
    rfl
  rw [hfold, hfold, h]

lemma Name.map_ndata_of_equal {a b : Name} (h : a.wire.equal b.wire)
    (hcase : caseSensitive → a.wire.caseequal b.wire) :
    a.wire.ndata.map (fun c => if caseSensitive then c else maptolower c) =
      b.wire.ndata.map fun c => if caseSensitive then c else maptolower c := by
  cases caseSensitive with
  | false => exact ((equal_iff a.labels b.labels).mp h).map_wireOf
  | true =>
    have := (caseequal_iff a.labels b.labels).mp (hcase rfl)
    rw [Name.wire, Name.wire, this]

def relation (labels1 labels2 nlabels : ℕ) : NameReln := if nlabels = min labels1 labels2 then
    if labels1 < labels2 then .contains else if labels2 < labels1 then .subdomain else .equal
  else if 0 < nlabels then .commonancestor else .none

lemma fullcompareFrom_reln (n : ℕ) (ls ms : List Label) : (fullcompareFrom n ls ms).reln =
        relation (n + ls.length) (n + ms.length) (fullcompareFrom n ls ms).nlabels := by
  induction ls generalizing n ms with
  | nil => cases ms <;> simp [fullcompareFrom, relation]
  | cons l ls ih =>
    cases ms with
    | nil => simp [fullcompareFrom, relation]
    | cons m ms =>
      rw [fullcompareFrom]
      by_cases horder : compareLabel l.1 m.1 = 0
      · simp only [horder, ne_eq, not_true_eq_false, if_false, ih (n + 1) ms, length_cons]
        congr 1 <;> omega
      · have hmin : n ≠ min (n + (ls.length + 1)) (n + (ms.length + 1)) := by omega
        simp only [ne_eq, horder, not_false_eq_true, if_true, relation, length_cons, if_neg hmin]

structure Ranks (a b : Name) (r : Comparison) : Prop where
  lt : r.order < 0 ↔ a.key < b.key
  eq : r.order = 0 ↔ a.key = b.key
  equal : r.order = 0 ↔ a.wire.equal b.wire = true
  hash : r.order = 0 → ∀ caseSensitive, (caseSensitive = true → a.wire.caseequal b.wire = true) →
    a.wire.hash caseSensitive = b.wire.hash caseSensitive
  fullhash : r.order = 0 → ∀ rndvector caseSensitive,
    (caseSensitive = true → a.wire.caseequal b.wire = true) →
      a.wire.fullhash rndvector caseSensitive = b.wire.fullhash rndvector caseSensitive
  nlabels : r.nlabels = (commonPrefix a.key b.key).length
  reln : r.reln = relation a.labels.length b.labels.length r.nlabels

lemma Name.ranks (a b : Name) : Ranks a b (a.fullcompare b) := by
  have hspec := a.fullcompare_spec b
  have hlabels : a.wire.equal b.wire → a.wire.labels = b.wire.labels := fun h =>
    ((equal_iff a.labels b.labels).mp h).length_eq
  have hequal : (a.fullcompare b).order = 0 ↔ a.wire.equal b.wire = true := by
    rw [hspec.eq, Name.equal_iff_key]
  refine ⟨hspec.lt, hspec.eq, hequal, ?_, ?_, ?_, ?_⟩
  · intro horder caseSensitive hcase
    have heq := hequal.mp horder
    rw [Wire.hash, Wire.hash, hlabels heq, nameHash_congr (map_ndata_of_equal heq hcase)]
  · intro horder rndvector caseSensitive hcase
    have heq := hequal.mp horder
    rw [fullhash, fullhash, hlabels heq,
      hashCalc_congr rndvector (map_ndata_of_equal heq hcase)]
  · simpa using hspec.nlabels
  · simpa [Name.fullcompare] using fullcompareFrom_reln 0 a.labels.reverse b.labels.reverse

lemma Name.fullcompare_totalPreorder : TotalPreorder fun a b : Name => (a.fullcompare b).order :=
  .of_key Name.key (fun a b => (a.fullcompare_spec b).lt) fun a b => (a.fullcompare_spec b).eq

/-- `dns_name_fullcompare` on names that are all absolute or all relative. -/
theorem Stored.fullcompare_orders (a b c : Stored) (hab : a.name.absolute = b.name.absolute)
    (hbc : b.name.absolute = c.name.absolute) :
    ∃ aa ab ba bc ac, a.fullcompare a = some aa ∧ a.fullcompare b = some ab ∧
      b.fullcompare a = some ba ∧ b.fullcompare c = some bc ∧ a.fullcompare c = some ac ∧
      aa.order = 0 ∧ ab.order.sign = -ba.order.sign ∧
      (ab.order ≤ 0 → bc.order ≤ 0 → ac.order ≤ 0) ∧ Ranks a.name b.name ab :=
  ⟨_, _, _, _, _, a.fullcompare_eq a rfl, a.fullcompare_eq b hab, b.fullcompare_eq a hab.symm,
    b.fullcompare_eq c hbc, a.fullcompare_eq c (hab.trans hbc),
    Name.fullcompare_totalPreorder.refl _, Name.fullcompare_totalPreorder.antisymm _ _,
    Name.fullcompare_totalPreorder.trans _ _ _, a.name.ranks b.name⟩

/-- Two names that differ in case, one of them with its offset table. -/
theorem Stored.fullcompare_orders_letters : ∃ aa ab ba bc ac,
      Stored.fullcompare ⟨letter 65, none, by simp⟩ ⟨letter 65, none, by simp⟩ = some aa ∧
      Stored.fullcompare ⟨letter 65, none, by simp⟩ ⟨letter 97, some [0, 2], by decide⟩ = some ab ∧
      Stored.fullcompare ⟨letter 97, some [0, 2], by decide⟩ ⟨letter 65, none, by simp⟩ = some ba ∧
      Stored.fullcompare ⟨letter 97, some [0, 2], by decide⟩ ⟨Name.root, none, by simp⟩ = some bc ∧
      Stored.fullcompare ⟨letter 65, none, by simp⟩ ⟨Name.root, none, by simp⟩ = some ac ∧
      aa.order = 0 ∧ ab.order.sign = -ba.order.sign ∧
      (ab.order ≤ 0 → bc.order ≤ 0 → ac.order ≤ 0) ∧ Ranks (letter 65) (letter 97) ab :=
  Stored.fullcompare_orders ⟨letter 65, none, by simp⟩ ⟨letter 97, some [0, 2], by decide⟩
    ⟨Name.root, none, by simp⟩ (by decide) (by decide)

def rdatacompareLabel : List UInt8 → List UInt8 → ℤ
  | c1 :: label1, c2 :: label2 =>
    if maptolower c1 < maptolower c2 then -1
    else if maptolower c2 < maptolower c1 then 1
    else rdatacompareLabel label1 label2
  | _, _ => 0

/-- The loop of `dns_name_rdatacompare` over the labels left; `none` is a failed `INSIST`. -/
def rdatacompareLoop : ℕ → List UInt8 → List UInt8 → Option ℤ
  | 0, _, _ => some 0
  | l + 1, count1 :: label1, count2 :: label2 =>
    if count1.toNat ≤ 63 ∧ count2.toNat ≤ 63 then
      if count1.toNat ≠ count2.toNat then some (if count1.toNat < count2.toNat then -1 else 1)
      else
        let order := rdatacompareLabel (label1.take count1.toNat) (label2.take count1.toNat)
        if order ≠ 0 then some order
        else rdatacompareLoop l (label1.drop count1.toNat) (label2.drop count1.toNat)
    else none
  | _, _, _ => none

def Wire.rdatacompare (name1 name2 : Wire) : Option ℤ :=
  let l := if name1.labels < name2.labels then name1.labels else name2.labels
  match rdatacompareLoop l name1.ndata name2.ndata with
  | some 0 => if name1.labels = name2.labels then some 0 else none
  | result => result

def lowered (bytes : List UInt8) : List ℕ := bytes.map fun c => (maptolower c).toNat

lemma lowered_append (as bs : List UInt8) : lowered (as ++ bs) = lowered as ++ lowered bs :=
  map_append

lemma rdatacompareLabel_cases (as bs r s : List UInt8) (hlen : as.length = bs.length) :
    (rdatacompareLabel as bs < 0 ∧ lowered (as ++ r) < lowered (bs ++ s)) ∨
      (0 < rdatacompareLabel as bs ∧ lowered (bs ++ s) < lowered (as ++ r)) ∨
      rdatacompareLabel as bs = 0 ∧ as.map maptolower = bs.map maptolower := by
  induction as generalizing bs with
  | nil =>
    obtain rfl := length_eq_zero_iff.mp hlen.symm
    exact .inr (.inr ⟨rfl, rfl⟩)
  | cons a as ih =>
    obtain ⟨b, bs, rfl⟩ := exists_cons_of_length_eq_add_one hlen.symm
    rw [rdatacompareLabel]
    simp only [lowered, cons_append, map_cons, cons_lt_cons_iff, ← UInt8.lt_iff_toNat_lt]
    split_ifs with hab hba
    · exact .inl ⟨by decide, .inl hab⟩
    · exact .inr (.inl ⟨by decide, .inl hba⟩)
    · have heq : maptolower a = maptolower b :=
        UInt8.le_antisymm (UInt8.not_lt.mp hba) (UInt8.not_lt.mp hab)
      simp only [heq, UInt8.lt_irrefl, true_and, false_or, cons.injEq]
      exact ih bs (by simpa using hlen)

def Complete (ls : List Label) : Prop := ls.getLast? = some root ∧ ∀ l ∈ ls.dropLast, l ≠ root

lemma Complete.tail {l : Label} (h : Complete (l :: ls)) :
    if l = root then ls = [] else Complete ls := by
  cases ls with
  | nil =>
    obtain rfl : l = root := by simpa using h.1
    simp
  | cons m ls =>
    have hl : l ≠ root := h.2 l (by simp)
    rw [if_neg hl]
    exact ⟨by simpa using h.1, fun k hk => h.2 k (by simp [hk])⟩

def Decides (order : ℤ) (ls ms : List Label) : Prop :=
  (order < 0 ∧ lowered (wireOf ls) < lowered (wireOf ms)) ∨
    (0 < order ∧ lowered (wireOf ms) < lowered (wireOf ls)) ∨ order = 0 ∧ SameLabels ls ms

lemma lowered_wireOf_cons (l : Label) (ls : List Label) :
    lowered (wireOf (l :: ls)) = l.1.length :: lowered (l.1 ++ wireOf ls) := by
  have hlower : maptolower (UInt8.ofNat l.1.length) = UInt8.ofNat l.1.length := by
    have h65 : ¬65 ≤ UInt8.ofNat l.1.length := by
      rw [UInt8.le_iff_toNat_le, l.toNat_length]
      exact fun h => absurd (h.trans l.2) (by decide)
    rw [maptolower, if_neg fun h => h65 h.1]
  simp only [lowered, wireOf_cons, bytes, cons_append, map_cons, hlower, l.toNat_length]

lemma rdatacompareLoop_decides (hls : Complete ls) (hms : Complete ms) :
    ∃ order, rdatacompareLoop (min ls.length ms.length) (wireOf ls) (wireOf ms) = some order ∧
      Decides order ls ms := by
  induction ls generalizing ms with
  | nil => simp [Complete] at hls
  | cons l ls ih =>
    have hne : ms ≠ [] := by
      rintro rfl
      simp [Complete] at hms
    obtain ⟨m, ms, rfl⟩ := exists_cons_of_ne_nil hne
    rw [length_cons, length_cons, Nat.add_min_add_right, wireOf_cons, wireOf_cons, bytes, bytes,
      cons_append, cons_append, rdatacompareLoop,
      l.toNat_length, m.toNat_length, if_pos ⟨l.2, m.2⟩]
    simp only [Decides, lowered_wireOf_cons, cons_lt_cons_iff]
    by_cases hlen : l.1.length ≠ m.1.length
    · rw [if_pos hlen]
      rcases lt_or_gt_of_ne hlen with hlt | hlt
      · exact ⟨-1, by rw [if_pos hlt], .inl ⟨by decide, .inl hlt⟩⟩
      · exact ⟨1, by rw [if_neg hlt.not_gt], .inr (.inl ⟨by decide, .inl hlt⟩)⟩
    rw [not_not] at hlen
    simp only [hlen, ne_eq, not_true_eq_false, if_false, lt_irrefl, true_and, false_or, drop_left',
      take_left', SameLabels.cons_iff]
    rcases rdatacompareLabel_cases l.1 m.1 (wireOf ls) (wireOf ms) hlen with
      ⟨ho, hlt⟩ | ⟨ho, hlt⟩ | ⟨ho, heq⟩
    · rw [if_pos ho.ne]
      exact ⟨_, rfl, .inl ⟨ho, hlt⟩⟩
    · rw [if_pos ho.ne']
      exact ⟨_, rfl, .inr (.inl ⟨ho, hlt⟩)⟩
    · rw [if_neg (not_not.mpr ho)]
      have hroot : l = root ↔ m = root := by
        simp only [root, Subtype.ext_iff, ← length_eq_zero_iff, hlen]
      have hls := hls.tail
      have hms := hms.tail
      by_cases hl : l = root
      · rw [if_pos hl] at hls
        rw [if_pos (hroot.mp hl)] at hms
        subst hls hms
        exact ⟨0, rfl, .inr (.inr ⟨rfl, heq, .refl _⟩)⟩
      · rw [if_neg hl] at hls
        rw [if_neg (hroot.not.mp hl)] at hms
        obtain ⟨order, horder, hdecides⟩ := ih hls hms
        refine ⟨order, horder, ?_⟩
        have hpre : lowered l.1 = lowered m.1 := by
          simpa [lowered, Function.comp_def] using congrArg (map UInt8.toNat) heq
        rw [lowered_append, lowered_append, hpre]
        rcases hdecides with ⟨ho, hlt⟩ | ⟨ho, hlt⟩ | ⟨ho, hsame⟩
        · exact .inl ⟨ho, append_left_lt hlt⟩
        · exact .inr (.inl ⟨ho, append_left_lt hlt⟩)
        · exact .inr (.inr ⟨ho, heq, hsame⟩)

lemma Name.complete_labels {name : Name} (h : name.absolute) : Complete name.labels :=
  ⟨by simpa [absolute] using h, name.rootLast⟩

lemma Name.rdatacompare_decides {a b : Name} (ha : a.absolute) (hb : b.absolute) :
    ∃ order, a.wire.rdatacompare b.wire = some order ∧ Decides order a.labels b.labels := by
  obtain ⟨order, horder, hdecides⟩ := rdatacompareLoop_decides (complete_labels ha)
    (complete_labels hb)
  refine ⟨order, ?_, hdecides⟩
  have hloop : rdatacompareLoop (if a.wire.labels < b.wire.labels then a.wire.labels
      else b.wire.labels) a.wire.ndata b.wire.ndata = some order := by
    rw [← horder]
    congr 1
    rw [min_def]
    change (if a.labels.length < b.labels.length then a.labels.length else b.labels.length) = _
    split_ifs <;> omega
  rw [rdatacompare]
  simp only [hloop]
  split
  · next hzero =>
    cases hzero
    obtain ⟨hlt, -⟩ | ⟨hlt, -⟩ | ⟨-, hsame⟩ := hdecides
    · exact absurd hlt (lt_irrefl 0)
    · exact absurd hlt (lt_irrefl 0)
    · exact if_pos hsame.length_eq
  · rfl

/-- `dns_name_rdatacompare` on absolute names never fails its `INSIST`. It is a total preorder, the
one of the wire forms in lower case, and names compare equal if `dns_name_equal` says so. -/
theorem Name.rdatacompare_orders : ∃ order : { n : Name // n.absolute = true } →
    { n : Name // n.absolute = true } → ℤ, TotalPreorder order ∧ ∀ a b,
      a.1.wire.rdatacompare b.1.wire = some (order a b) ∧
      (order a b < 0 ↔ lowered a.1.wire.ndata < lowered b.1.wire.ndata) ∧
      (order a b = 0 ↔ lowered a.1.wire.ndata = lowered b.1.wire.ndata) ∧
      (order a b = 0 ↔ a.1.wire.equal b.1.wire) := by
  choose order hrun hdecides using fun a b : { n : Name // n.absolute = true } =>
    rdatacompare_decides a.2 b.2
  have hsame : ∀ a b : { n : Name // n.absolute = true }, SameLabels a.1.labels b.1.labels →
      lowered a.1.wire.ndata = lowered b.1.wire.ndata := fun a b h => by
    simpa [lowered, Function.comp_def, Name.wire, LbBind.wire] using
      congrArg (map UInt8.toNat) h.map_wireOf
  have hlt : ∀ a b, order a b < 0 ↔ lowered a.1.wire.ndata < lowered b.1.wire.ndata := by
    intro a b
    rcases hdecides a b with ⟨ho, h⟩ | ⟨ho, h⟩ | ⟨ho, h⟩
    · exact iff_of_true ho h
    · exact iff_of_false ho.le.not_gt h.le.not_gt
    · exact iff_of_false ho.not_lt (hsame a b h).not_lt
  have heq : ∀ a b, order a b = 0 ↔ lowered a.1.wire.ndata = lowered b.1.wire.ndata := by
    intro a b
    rcases hdecides a b with ⟨ho, h⟩ | ⟨ho, h⟩ | ⟨ho, h⟩
    · exact iff_of_false ho.ne h.ne
    · exact iff_of_false ho.ne' h.ne'
    · exact iff_of_true ho (hsame a b h)
  refine ⟨order, .of_key (fun a => lowered a.1.wire.ndata) hlt heq, fun a b =>
    ⟨hrun a b, hlt a b, heq a b, fun h => ?_, fun h => (heq a b).mpr (hsame a b ?_)⟩⟩
  · obtain ⟨ho, -⟩ | ⟨ho, -⟩ | ⟨-, h⟩ := hdecides a b
    · exact absurd h ho.ne
    · exact absurd h ho.ne'
    · exact (equal_iff _ _).mpr h
  · exact (equal_iff _ _).mp h

end LbBind

import LbBind.Dnssec.Sign
import LbBind.Rdataslab.Loadorder

/-! What is digested for verification is what was digested for the signature, for every name that
the owner stands for and every arrangement of the records. Verification then succeeds if the signer
fits the name and the times are at most 2³¹ seconds apart, since the verifier compares them as
serial numbers. -/

namespace LbBind.Dnssec

open Lib Tsig List Function Label Rdataslab Bool

def Stands (owner name : Name) : Prop := if iswildcard owner then
    ∃ pre rest, pre ≠ [] ∧ name.labels = pre ++ rest ∧ SameLabels rest owner.labels.tail
  else SameLabels name.labels owner.labels

def star : Label := ⟨[42], one_short⟩

lemma iswildcard_iff (name : Name) : iswildcard name ↔ ∃ rest, name.labels = star :: rest := by
  constructor
  · intro h
    simp only [iswildcard, and_eq_true, decide_eq_true_eq] at h
    rcases hl : name.labels with _ | ⟨l, rest⟩
    · simp [Name.wire, wire, hl] at h
    · have htake := h.2
      simp only [Name.wire, wire, hl, wireOf_cons, bytes, cons_append, take_succ_cons,
        cons.injEq] at htake
      have hlength : l.1.length = 1 := by
        rw [← toNat_length l, htake.1]
        rfl
      obtain ⟨c, hc⟩ := length_eq_one_iff.mp hlength
      have hstar : l = star := by
        refine Subtype.ext ?_
        simpa [hc, star] using htake.2
      exact ⟨rest, by rw [hstar]⟩
  · rintro ⟨rest, hl⟩
    simp [iswildcard, Name.length, Name.wire, wire, hl, bytes, star]

lemma map_downcase {ls ms : List Label} (h : SameLabels ls ms) :
    ls.map downcase = ms.map downcase := by
  refine map_injective_iff.mpr Subtype.val_injective ?_
  simpa [comp_def, downcase, SameLabels] using h

variable {name : Name} {compare : Rdata → Rdata → ℤ} {qsort : Qsort Rdata}
  {digest : Rdata → Except Result (List UInt8)} {inception : ℕ} {sig : Rrsig}

lemma envelope_owner {owner : Name} (howner : owner.absolute) (hname : Stands owner name)
    (sig : Rrsig) (hlabels : sig.labels =
      if iswildcard owner then owner.labels.length - 1 - 1 else owner.labels.length - 1) :
    expanded name sig = iswildcard owner ∧
      (if expanded name sig then [1, 42] else []) ++ (newname name sig).wire.ndata =
        owner.downcase.wire.ndata := by
  rw [Stands] at hname
  split at hname
  · rename_i hwild
    obtain ⟨rest, hrest⟩ := (iswildcard_iff owner).mp hwild
    obtain ⟨pre, rest', hpre, hlabels', hsame⟩ := hname
    rw [hrest, tail_cons] at hsame
    have hlen := hsame.length_eq
    -- the wildcard is not the last label
    have hrestpos : 0 < rest.length := by
      rcases rest with _ | _
      · simp [Name.absolute, hrest, star, root] at howner
      · simp
    have hprepos := length_pos_iff.mpr hpre
    rw [if_pos hwild, hrest, length_cons] at hlabels
    have hexpanded : expanded name sig := by
      simp only [expanded, hlabels', length_append, decide_eq_true_eq]
      omega
    refine ⟨hexpanded.trans hwild.symm, ?_⟩
    rw [if_pos hexpanded, newname, if_pos hexpanded]
    have hsuffix : (name.downcase.suffix (sig.labels + 1)).labels = rest'.map downcase := by
      simp only [Name.suffix, Name.getlabelsequence, Name.labels_downcase, hlabels', map_append,
        length_append, length_map]
      rw [show pre.length + rest'.length - (sig.labels + 1) = (pre.map downcase).length by
        simp only [length_map]; omega, drop_left,
        take_of_length_le (by simp only [length_map]; omega)]
    simp only [Name.wire, wire, hsuffix, Name.labels_downcase, hrest, map_downcase hsame, map_cons,
      wireOf_cons]
    rfl
  · rename_i hwild
    rw [if_neg hwild] at hlabels
    have hexpanded : expanded name sig = false := by
      simp only [expanded, hlabels, hname.length_eq, decide_eq_false_iff_not]
      omega
    refine ⟨hexpanded.trans (not_eq_true _ ▸ hwild).symm, ?_⟩
    simp [hexpanded, newname, Name.wire, wire, map_downcase hname]

section
variable {compare : Rdata → Rdata → ℤ} {digest : Rdata → Except Result (List UInt8)}

lemma digestSig_congr (sig : Rrsig) {signer : Name} (signature : List UInt8)
    (hsigner : SameLabels signer.labels sig.signer.labels) :
    digestSig { sig with signer := signer, signature := signature } = digestSig sig := by
  have hfixed : ∀ s : Rrsig, s.toregion.take 18 = be16 s.covered ++
      [UInt8.ofNat s.algorithm, UInt8.ofNat s.labels] ++ be32 s.originalttl ++ be32 s.timeexpire ++
        be32 s.timesigned ++ be16 s.keyid := by
    intro s
    rw [Rrsig.toregion, append_assoc _ s.signer.wire.ndata, take_left' (by simp)]
  simp only [digestSig, hfixed, Name.labels_downcase, Name.wire, wire, map_downcase hsigner]

variable (hc : TotalPreorder compare)
  (hdigest : ∀ a b, compare a b = 0 → digest a = digest b ∧ a.1.length = b.1.length)
include hdigest

lemma digestRecords_congr {envelope : List UInt8} {l m : List Rdata}
    (h : List.Forall₂ (fun a b => compare a b = 0) l m) :
    digestRecords digest envelope l = digestRecords digest envelope m := by
  induction h with
  | nil => rfl
  | cons hab _ ih =>
    obtain ⟨hd, hlen⟩ := hdigest _ _ hab
    rw [digestRecords, digestRecords, hd, hlen, ih]

variable {set set' : Rdataset} (qsort qsort' : Qsort Rdata) (htype : set'.type = set.type)
  (hclass : set'.rdclass = set.rdclass) (hsame : SameSet compare set'.rdatas set.rdatas)
include hc htype hclass hsame

lemma digestSet_congr (owner : List UInt8) (ttl : ℕ) :
    digestSet compare qsort' digest owner ttl set' = digestSet compare qsort digest owner ttl set := by
  have hempty : set'.rdatas = [] ↔ set.rdatas = [] := by
    simp only [eq_nil_iff_forall_not_mem]
    exact ⟨fun h b hb => (hsame.2 b hb).elim fun a ha => h a ha.1,
      fun h a ha => (hsame.1 a ha).elim fun b hb => h b hb.1⟩
  simp only [digestSet, sortedarray, hempty, htype, hclass]
  split
  · rfl
  · exact digestRecords_congr hdigest (hc.forall₂_skipRepeats qsort' qsort hsame)

lemma verifyData_eq {owner name : Name} (howner : owner.absolute)
    (hname : Stands owner name) (key : DstKey) (inception expire : ℕ) {signer : Name}
    (hsigner : SameLabels signer.labels key.name.labels) (signature : List UInt8) :
    verifyData compare qsort' digest name set'
        { unsigned owner set key inception expire with signer := signer, signature := signature } =
      signData compare qsort digest owner set (unsigned owner set key inception expire) := by
  have henv := (envelope_owner howner hname { unsigned owner set key inception expire with
    signer := signer, signature := signature } rfl).2
  simp only [verifyData, signData]
  rw [henv, digestSig_congr (unsigned owner set key inception expire) signature hsigner,
    digestSet_congr hc hdigest qsort qsort' htype hclass hsame]
  rfl

end

lemma sign_ok {set : Rdataset} {key : DstKey} {expire room : ℕ}
    (h : sign compare qsort digest name set key inception expire room = .ok sig) :
    inception < expire ∧ authorized key.flags ∧
      ∃ data, signData compare qsort digest name set (unsigned name set key inception expire) =
          .ok data ∧ key.sign data = .ok sig.signature ∧
        sig = { unsigned name set key inception expire with signature := sig.signature } := by
  simp only [sign] at h
  split_ifs at h with htime hauth
  split at h
  · cases h
  split at h
  · cases h
  rename_i data hdata
  split at h
  · cases h
  rename_i signature hsign
  split_ifs at h
  cases h
  exact ⟨by omega, by simpa using hauth, data, hdata, hsign, rfl⟩

lemma sameName_congr {a b c : Name} (h : SameLabels b.labels c.labels) :
    sameName a b = sameName a c := by
  rw [Bool.eq_iff_iff]
  simp only [sameName, Name.wire, Wire.equal_iff]
  exact ⟨fun hab => hab.trans h, fun hac => hac.trans h.symm⟩

lemma signerFits_congr (type : ℕ) {signer signer' : Name}
    (h : SameLabels signer.labels signer'.labels) :
    signerFits type name signer = signerFits type name signer' := by
  have hkey : signer.key = signer'.key := by
    have hlabel : ∀ ls : List Label,
        ls.map key = (ls.map lower).map (map UInt8.toNat) := by
      intro ls
      simp [key, lower, comp_def]
    simp only [Name.key, labelsKey, map_reverse, hlabel]
    rw [show signer.labels.map lower = signer'.labels.map lower from h]
  have hsub : name.issubdomain signer = name.issubdomain signer' := by
    rw [Bool.eq_iff_iff, Name.issubdomain_iff, Name.issubdomain_iff, hkey]
  simp only [signerFits, sameName_congr h, hsub]

lemma sameLabels_lower (ls : List Label) : SameLabels (ls.map downcase) ls := by
  simp [SameLabels, lower, downcase, maptolower_maptolower, comp_def]

lemma wildcard_owner {owner : Name} (howner : owner.absolute) (hname : Stands owner name)
    (hlabels : sig.labels =
      if iswildcard owner then owner.labels.length - 1 - 1 else owner.labels.length - 1)
    (hexpanded : expanded name sig) :
    ∃ wild, Name.wildcardname.concatenate (newname name sig) (by decide) = .ok wild ∧
      sameName wild owner := by
  have henv := (envelope_owner howner hname sig hlabels).2
  rw [if_pos hexpanded] at henv
  have hwire : wireOf (Name.wildcardname.labels ++ (newname name sig).labels) =
      wireOf owner.downcase.labels := henv
  have hlabels := wireOf_injective hwire
  have hshort : (wireOf (Name.wildcardname.labels ++ (newname name sig).labels)).length ≤ 255 := by
    rw [hwire]
    exact owner.downcase.short
  rw [Name.concatenate, dif_pos hshort]
  refine ⟨_, rfl, ?_⟩
  simp only [sameName, Name.wire, Wire.equal_iff, hlabels]
  exact sameLabels_lower _

lemma serialLt_period {now expire : ℕ} (hlt : inception < expire)
    (hnow : inception ≤ now) (hnow' : now ≤ expire) (hexpire : expire < 2 ^ 32) :
    (serialLt expire inception ↔ 2 ^ 31 < expire - inception) ∧ (expire - inception ≤ 2 ^ 31 →
        serialLt now inception = false ∧ serialLt expire now = false) := by
  simp only [serialLt, and_eq_true, and_eq_false_iff, decide_eq_true_eq, decide_eq_false_iff_not]
  omega

lemma verify2_eq {set : Rdataset} {key : DstKey} {data : List UInt8}
    (htype : set.type = sig.covered) (hauth : authorized key.flags)
    (hdata : verifyData compare qsort digest name set sig = .ok data)
    (hverify : key.verify data sig.signature = .ok ()) (ignoretime : Bool) {now : ℕ}
    (hnow : serialLt sig.timeexpire sig.timesigned = false →
      serialLt now sig.timesigned = false ∧ serialLt sig.timeexpire now = false) :
    verify2 compare qsort digest name set key ignoretime now sig =
      if serialLt sig.timeexpire sig.timesigned = false ∧ signerFits set.type name sig.signer then
        if expanded name sig then
          (.error .fromWildcard,
            some (Name.wildcardname.concatenate (newname name sig) (by decide)))
        else (.ok (), none)
      else (.error .sigInvalid, none) := by
  rw [verify2, if_neg (not_not.mpr htype)]
  by_cases hlate : serialLt sig.timeexpire sig.timesigned
  · simp [hlate]
  · have hlate : serialLt sig.timeexpire sig.timesigned = false := by simpa using hlate
    obtain ⟨hpast, hfuture⟩ := hnow hlate
    by_cases hfits : signerFits set.type name sig.signer
    · simp [hlate, hpast, hfuture, hfits, hauth, hdata, hverify, bind, Except.bind]
    · simp [hlate, hpast, hfuture, hfits]

/-- A set that was signed verifies within the period of the signature, for every name that the
owner stands for, every arrangement of the records, every TTL and every case of the names: if and
only if the signer fits the name and the period has at most 2³¹ seconds. -/
theorem verify2_sign {compare : Rdata → Rdata → ℤ} {digest : Rdata → Except Result (List UInt8)}
    (hc : TotalPreorder compare)
    (hdigest : ∀ a b, compare a b = 0 → digest a = digest b ∧ a.1.length = b.1.length)
    (qsort qsort' : Qsort Rdata) {owner name : Name} (howner : owner.absolute)
    (hname : Stands owner name) {set set' : Rdataset} (htype : set'.type = set.type)
    (hclass : set'.rdclass = set.rdclass) (hsame : SameSet compare set'.rdatas set.rdatas)
    {key : DstKey} {inception expire room : ℕ} (hexpire : expire < 2 ^ 32) {sig : Rrsig}
    (hsign : sign compare qsort digest owner set key inception expire room = .ok sig)
    {signer : Name} (hsigner : SameLabels signer.labels sig.signer.labels) (ignoretime : Bool)
    {now : ℕ} (hnow : inception ≤ now) (hnow' : now ≤ expire) :
    verifyData compare qsort' digest name set' { sig with signer := signer } =
        signData compare qsort digest owner set sig ∧
      if expire - inception ≤ 2 ^ 31 ∧ signerFits set.type name key.name then
        if iswildcard owner then
          ∃ wild, verify2 compare qsort' digest name set' key ignoretime now
              { sig with signer := signer } = (.error .fromWildcard, some (.ok wild)) ∧
            sameName wild owner
        else
          verify2 compare qsort' digest name set' key ignoretime now
            { sig with signer := signer } = (.ok (), none)
      else
        verify2 compare qsort' digest name set' key ignoretime now { sig with signer := signer } =
          (.error .sigInvalid, none) := by
  obtain ⟨hlt, hauth, data, hdata, hsignature, hsig⟩ := sign_ok hsign
  obtain ⟨hperiod, hinside⟩ := serialLt_period hlt hnow hnow' hexpire
  obtain ⟨signature, rfl⟩ : ∃ signature,
      sig = { unsigned owner set key inception expire with signature := signature } := ⟨_, hsig⟩
  have hfixed := digestSig_congr (unsigned owner set key inception expire) signature
    (SameLabels.refl key.name.labels)
  have hsigned : signData compare qsort digest owner set
      { unsigned owner set key inception expire with signature := signature } = .ok data := by
    rw [← hdata]
    exact congrArg (fun d => digestSet compare qsort digest _ _ set >>= fun r => pure (d ++ r)) hfixed
  have hverified := (verifyData_eq hc hdigest qsort qsort' htype hclass hsame howner hname key
    inception expire hsigner signature).trans hdata
  refine ⟨hverified.trans hsigned.symm, ?_⟩
  -- from here on only the fields of the signature that is verified matter
  generalize hsig' : ({ unsigned owner set key inception expire with
    signature := signature, signer := signer } : Rrsig) = sig' at hverified ⊢
  have hlabels : sig'.labels =
      if iswildcard owner then owner.labels.length - 1 - 1 else owner.labels.length - 1 := by
    rw [← hsig']
    rfl
  have hfields : sig'.covered = set.type ∧ sig'.timeexpire = expire ∧
      sig'.timesigned = inception ∧ sig'.signer = signer ∧ sig'.signature = signature := by
    rw [← hsig']
    exact ⟨rfl, rfl, rfl, rfl, rfl⟩
  obtain ⟨hcovered, hexp, hinc, hsgn, hbytes⟩ := hfields
  have hlate : serialLt expire inception = false ↔ expire - inception ≤ 2 ^ 31 := by
    rw [← not_eq_true, hperiod, not_lt]
  have hverify : key.verify data sig'.signature = .ok () := by
    rw [hbytes]
    exact key.verify_sign _ _ hsignature
  have hexpanded := (envelope_owner howner hname sig' hlabels).1
  rw [verify2_eq (htype.trans hcovered.symm) hauth hverified hverify ignoretime (by
    rw [hexp, hinc]
    exact fun h => hinside (hlate.mp h))]
  have hfits : signerFits set.type name signer = signerFits set.type name key.name :=
    signerFits_congr set.type hsigner
  rw [hexp, hinc, hsgn, htype, hfits]
  simp only [hlate]
  by_cases hgood : expire - inception ≤ 2 ^ 31 ∧ signerFits set.type name key.name
  · rw [if_pos hgood, if_pos hgood]
    by_cases hwild : iswildcard owner
    · have hmore := hexpanded.trans hwild
      obtain ⟨wild, hconcat, hsameowner⟩ := wildcard_owner howner hname hlabels hmore
      rw [if_pos hwild]
      exact ⟨wild, by rw [if_pos hmore, hconcat], hsameowner⟩
    · rw [if_neg hwild, if_neg (hexpanded ▸ hwild)]
  · rw [if_neg hgood, if_neg hgood]

/-- The zone `z.` and, with two labels before it, the names below it. -/
def zoneName : Name := letter 122

def wildName : Name := ⟨[star, ⟨[122], by decide⟩, root], by decide, by decide⟩

def deepName : Name :=
  ⟨[⟨[97], one_short⟩, ⟨[98], one_short⟩, ⟨[90], one_short⟩, root], by decide, by decide⟩

def trustingKey : DstKey where
  name := zoneName
  alg := 5
  id := 1
  flags := 0x0100
  sigsize := .ok 1
  sign _ := .ok [0]
  verify _ _ := .ok ()
  verify_sign _ _ _ := rfl

def addresses (ttl n : ℕ) : Rdataset := ⟨1, 1, ttl, List.replicate n ⟨[10, 0, 0, 1], by decide⟩⟩

def compareAddress (a b : Rdata) : ℤ := regionCompare a.1 b.1

def digestAddress (a : Rdata) : Except Result (List UInt8) := .ok a.1

lemma compareAddress_totalPreorder : TotalPreorder compareAddress :=
  ⟨fun a b => regionCompare_totalPreorder.antisymm a.1 b.1,
    fun a b c => regionCompare_totalPreorder.trans a.1 b.1 c.1⟩

theorem verify2_sign_wildcard :
    ∃ sig, sign compareAddress (.insertion _) digestAddress wildName (addresses 300 1) trustingKey
        1000 2000 100 = .ok sig ∧
      ∃ wild, verify2 compareAddress (.insertion _) digestAddress deepName (addresses 60 2)
          trustingKey false 1500 { sig with signer := zoneName } =
            (.error .fromWildcard, some (.ok wild)) ∧
        sameName wild wildName := by
  obtain ⟨sig, hsig, hsigner⟩ : ∃ sig, sign compareAddress (.insertion _) digestAddress wildName
      (addresses 300 1) trustingKey 1000 2000 100 = .ok sig ∧ sig.signer = zoneName :=
    ⟨_, rfl, rfl⟩
  refine ⟨sig, hsig, ?_⟩
  have hstands : Stands wildName deepName :=
    ⟨[⟨[97], by decide⟩, ⟨[98], by decide⟩], [⟨[90], by decide⟩, root], by decide, rfl,
      by rw [SameLabels]; decide⟩
  have hdigest : ∀ a b, compareAddress a b = 0 →
      digestAddress a = digestAddress b ∧ a.1.length = b.1.length := by
    intro a b hab
    rw [Subtype.ext (regionCompare_eq_zero hab)]
    exact ⟨rfl, rfl⟩
  have hsame : SameSet compareAddress (addresses 60 2).rdatas (addresses 300 1).rdatas := by
    simp [SameSet, addresses, compareAddress, regionCompare_totalPreorder.refl]
  have htype : (addresses 60 2).type = (addresses 300 1).type := rfl
  have hlabels : SameLabels zoneName.labels sig.signer.labels := by rw [hsigner]; rfl
  have h := (verify2_sign compareAddress_totalPreorder hdigest (.insertion _) (.insertion _)
    (by decide) hstands htype rfl hsame (by decide : 2000 < 2 ^ 32) hsig hlabels false
    (by decide : 1000 ≤ 1500) (by decide)).2
  rwa [if_pos ⟨by decide, by decide⟩, if_pos (by decide)] at h

/-- Within its period of more than 2³¹ seconds the signature is invalid. -/
theorem verify2_longPeriod :
    ∃ sig, sign compareAddress (.insertion _) digestAddress zoneName (addresses 300 1) trustingKey
        0 (2 ^ 31 + 1) 100 = .ok sig ∧
      verify2 compareAddress (.insertion _) digestAddress zoneName (addresses 300 1) trustingKey
        false 1 sig = (.error .sigInvalid, none) :=
  ⟨_, rfl, by rfl⟩

end LbBind.Dnssec

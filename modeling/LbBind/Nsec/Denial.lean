import Mathlib.Data.Set.Insert
import LbBind.Name.Compare
import LbBind.Rdatatype

/-! Denial of existence by NSEC records (`nsecnoexistnodata` of `lib/dns/validator.c`). From one
genuine record of the chain of a zone the validator concludes that a name exists, with or without
a type, or that it does not exist. -/

namespace LbBind.Nsec

open Lib List Rdatatype

structure NsecRdata where
  next : Name
  typebits : List UInt8
  deriving DecidableEq

def bitIsset (array : List UInt8) (index : ℕ) : Bool :=
  (array.getD (index / 8) 0).toNat.testBit (7 - index % 8)

/-- The loop of `dns_nsec_typepresent` over the windows that are left, at most `n` of them.
Nothing is returned if an assertion fails. -/
def typepresentFrom (type : ℕ) : ℕ → List UInt8 → Option Bool
  | _, [] => some false
  | n + 1, window :: len :: bits =>
    if len.toNat = 0 || 32 < len.toNat || bits.length < len.toNat then none
    else if type < window.toNat * 256 then some false
    else if (window.toNat + 1) * 256 ≤ type then typepresentFrom type n (bits.drop len.toNat)
    else some (type < window.toNat * 256 + len.toNat * 8 && bitIsset bits (type % 256))
  | _, _ => none

def NsecRdata.typepresent (nsec : NsecRdata) (type : ℕ) : Option Bool :=
  typepresentFrom type nsec.typebits.length nsec.typebits

structure Window where
  window : UInt8
  bits : List UInt8
  pos : 0 < bits.length
  le : bits.length ≤ 32

namespace Window

def encode (w : Window) : List UInt8 := w.window :: UInt8.ofNat w.bits.length :: w.bits

def has (type : ℕ) (w : Window) : Bool :=
  type / 256 = w.window.toNat && bitIsset w.bits (type % 256)

lemma toNat_length (w : Window) : (UInt8.ofNat w.bits.length).toNat = w.bits.length := by
  have := w.le
  rw [UInt8.toNat_ofNat']
  omega

end Window

def Encodes (typebits : List UInt8) (ws : List Window) : Prop :=
  typebits = ws.flatMap Window.encode ∧ ws.Pairwise fun v w => v.window.toNat < w.window.toNat

variable {ws : List Window} {k : List (List ℕ)}

lemma any_has_eq_false {type : ℕ}
    (h : ∀ w ∈ ws, type / 256 ≠ w.window.toNat) : ws.any (Window.has type) = false := by
  rw [any_eq_false]
  intro w hw
  simp [Window.has, h w hw]

lemma bitIsset_append {bits rest : List UInt8} {index : ℕ} :
    (decide (index / 8 < bits.length) && bitIsset (bits ++ rest) index) = bitIsset bits index := by
  by_cases h : index / 8 < bits.length
  · simp [bitIsset, h, getElem?_append_left h]
  · simp [bitIsset, h]

lemma typepresentFrom_encode {type n : ℕ} (hn : ws.length ≤ n)
    (hws : ws.Pairwise fun v w => v.window.toNat < w.window.toNat) :
    typepresentFrom type n (ws.flatMap Window.encode) = some (ws.any (Window.has type)) := by
  induction ws generalizing n with
  | nil => simp [typepresentFrom]
  | cons w ws ih =>
    obtain ⟨hw, htail⟩ := pairwise_cons.mp hws
    cases n with
    | zero => simp at hn
    | succ n =>
      have hpos := w.pos
      have hle := w.le
      have hok : ¬((decide (w.bits.length = 0) || decide (32 < w.bits.length) ||
          decide ((w.bits ++ ws.flatMap Window.encode).length < w.bits.length))) := by
        simp only [Bool.or_eq_true, decide_eq_true_eq, length_append]
        omega
      rw [flatMap_cons, Window.encode, cons_append, cons_append, typepresentFrom, w.toNat_length,
        if_neg hok, any_cons]
      split_ifs with hlow hhigh
      · have hother : ∀ v ∈ w :: ws, type / 256 ≠ v.window.toNat := by
          intro v hv
          rcases mem_cons.mp hv with rfl | hv
          · omega
          · have := hw v hv
            omega
        rw [← any_cons, any_has_eq_false hother]
      · have hself : Window.has type w = false := by
          simp only [Window.has, Bool.and_eq_false_iff, decide_eq_false_iff_not]
          omega
        rw [drop_left, ih (by simpa using hn) htail, hself, Bool.false_or]
      · have hwindow : type / 256 = w.window.toNat := by omega
        have hother : ∀ v ∈ ws, type / 256 ≠ v.window.toNat := by
          intro v hv
          have := hw v hv
          omega
        have hbound : type < w.window.toNat * 256 + w.bits.length * 8 ↔
            type % 256 / 8 < w.bits.length := by omega
        simp only [any_has_eq_false hother, Bool.or_false, Window.has, hwindow, decide_true,
          Bool.true_and, hbound, bitIsset_append]

lemma length_le_encode (ws : List Window) : ws.length ≤ (ws.flatMap Window.encode).length := by
  induction ws with
  | nil => simp
  | cons w ws ih =>
    simp only [length_cons, flatMap_cons, Window.encode, length_append]
    omega

variable (type : ℕ)

lemma NsecRdata.typepresent_encode {nsec : NsecRdata}
    (h : Encodes nsec.typebits ws) : nsec.typepresent type = some (ws.any (Window.has type)) := by
  obtain ⟨hbits, hws⟩ := h
  rw [typepresent, hbits]
  exact typepresentFrom_encode (length_le_encode ws) hws

inductive Verdict
  | exists (data : Bool)
  | noexist (wild : Name)
  deriving DecidableEq

def besideCname : Bool :=
  type == cname || type == nxt || type == nsec || type == key

def ownerVerdict (type nlabels : ℕ) (nsec : NsecRdata) : Option (Except Result Verdict) := do
  let atparent := nlabels ≠ 1 && atparent type
  let ns ← nsec.typepresent ns
  let soa ← nsec.typepresent soa
  if ns && !soa && !atparent then some (.error .ignore)
  else if atparent && ns && soa then some (.error .ignore)
  else do
    let cname ← if besideCname type then some false else nsec.typepresent cname
    if cname then some (.error .ignore)
    else do
      let data ← nsec.typepresent type
      some (.ok (.exists data))

def fromParent (nsec : NsecRdata) : Option Bool := do
  let ns ← nsec.typepresent ns
  if ns then do
    let soa ← nsec.typepresent soa
    some !soa
  else some false

def commonPart (olabels nlabels : ℕ) (nsecname next : Name) : Name :=
  if nlabels < olabels then nsecname.getlabelsequence (nsecname.labels.length - olabels) olabels
  else next.getlabelsequence (next.labels.length - nlabels) nlabels

def rangeVerdict (olabels : ℕ) (name nsecname : Name) (nsec : NsecRdata) : Except Result Verdict :=
  let c := nsec.next.fullcompare name
  if c.order = 0 then .error .ignore
  else if c.order < 0 && !nsecname.issubdomain nsec.next then .error .ignore
  else if 0 < c.order && c.reln = .subdomain then .ok (.exists false)
  else
    let common := commonPart olabels c.nlabels nsecname nsec.next
    (Name.wildcardname.concatenate common Name.wildcardname_relative).map .noexist

/-- `nsecnoexistnodata`. Nothing is returned if an assertion fails. -/
def nsecnoexistnodata (name nsecname : Name) (nsec : NsecRdata) :
    Option (Except Result Verdict) :=
  let c := name.fullcompare nsecname
  if c.order < 0 then some (.error .ignore)
  else if c.order = 0 then ownerVerdict type c.nlabels nsec
  else do
    let parent ← if c.reln = .subdomain then fromParent nsec else some false
    if parent then some (.error .ignore)
    else some (rangeVerdict c.nlabels name nsecname nsec)

structure Zone where
  apex : Name
  types : List (List ℕ) → Set ℕ
  soa : ∀ k, soa ∈ types k ↔ k = apex.key
  below : ∀ k type, type ∈ types k → apex.key <+: k

namespace Zone

variable (z : Zone)

def Delegation (k : List (List ℕ)) : Prop := k ≠ z.apex.key ∧ ns ∈ z.types k

/-- The names of the zone. Delegations and DNAMEs cut off what is below them. -/
def tree : NameTree (List ℕ) where
  apex := z.apex.key
  owners := { k | (z.types k).Nonempty }
  cuts := { k | z.Delegation k ∨ dname ∈ z.types k }
  apex_mem := ⟨_, (z.soa _).mpr rfl⟩
  apex_isPrefix k := fun ⟨type, htype⟩ => z.below k type htype
  cut_mem _ := fun h => h.elim (fun h => ⟨_, h.2⟩) fun h => ⟨_, h⟩

/-- A record of a complete and correct chain. Its type map has the types of the owner; at a
delegation it need not have those that do not belong to the parent. -/
structure IsNsec (nsecname : Name) (nsec : NsecRdata) : Prop where
  isNext : z.tree.IsNext nsecname.key nsec.next.key
  bits : ∃ ws, Encodes nsec.typebits ws ∧
    (∀ type, ws.any (Window.has type) → type ∈ z.types nsecname.key) ∧
    ∀ type ∈ z.types nsecname.key,
      (z.Delegation nsecname.key → type = ns ∨ atparent type) →
      ws.any (Window.has type)

def Holds (name : Name) (type : ℕ) : Verdict → Prop
  | .exists data => z.tree.Exists name.key ∧ (data ↔ type ∈ z.types name.key)
  | .noexist wild => ¬z.tree.Exists name.key ∧ ¬z.tree.Hidden name.key ∧
      ∃ e, z.tree.ClosestEncloser name.key e ∧ wild.key = e ++ Name.wildcardname.key

end Zone

variable {z : Zone} {type olabels : ℕ} {name nsecname : Name} {nsec : NsecRdata} {v : Verdict}

lemma ownerVerdict_ok (hws : Encodes nsec.typebits ws)
    (h : ownerVerdict type olabels nsec = some (.ok v)) : v = .exists (ws.any (Window.has type)) ∧
      (ws.any (Window.has ns) → ws.any (Window.has soa) = false →
        atparent type) := by
  simp only [ownerVerdict, NsecRdata.typepresent_encode _ hws, Option.bind_eq_bind,
    Option.bind_some] at h
  split_ifs at h with hparent <;> cases h
  all_goals
    refine ⟨rfl, fun hns hsoa => ?_⟩
    simp only [hns, hsoa, Bool.not_false, Bool.true_and, Bool.not_eq_true', Bool.not_eq_false,
      Bool.and_eq_true] at hparent
    exact hparent.2

section
variable (hz : z.IsNsec nsecname nsec)
include hz

lemma ownerVerdict_holds (hname : name.key = nsecname.key)
    (h : ownerVerdict type olabels nsec = some (.ok v)) : z.Holds name type v := by
  obtain ⟨ws, hws, hsub, hsup⟩ := hz.bits
  obtain ⟨rfl, hatparent⟩ := ownerVerdict_ok hws h
  have hmember := hz.isNext.left
  have hapex : z.tree.apex <+: nsecname.key := z.tree.apex_isPrefix _ hmember.1
  rw [Zone.Holds, hname]
  refine ⟨hmember.exists_of_isPrefix (prefix_refl _) hapex, hsub type, fun htype => ?_⟩
  refine hsup type htype fun hdelegation => .inr (hatparent ?_ ?_)
  · exact hsup _ hdelegation.2 fun _ => .inl rfl
  · rw [← Bool.not_eq_true]
    exact fun hsoa => hdelegation.1 ((z.soa _).mp (hsub _ hsoa))

lemma not_delegation (h : fromParent nsec = some false) :
    ¬z.Delegation nsecname.key := by
  obtain ⟨ws, hws, hsub, hsup⟩ := hz.bits
  rintro ⟨hapex, hns⟩
  have hbit := hsup _ hns fun _ => .inl rfl
  simp only [fromParent, NsecRdata.typepresent_encode _ hws, Option.bind_eq_bind, Option.bind_some,
    hbit, if_true, Option.some.injEq, Bool.not_eq_false'] at h
  exact hapex ((z.soa _).mp (hsub _ h))

lemma inGap (hname : z.apex.key <+: name.key)
    (hgt : nsecname.key < name.key)
    (hlt : name.key < nsec.next.key ∨ nsec.next.key <+: nsecname.key) :
    z.tree.InGap nsecname.key name.key nsec.next.key := by
  refine ⟨hz.isNext, hname, hgt, hlt.imp_right fun hpfx => ?_⟩
  rcases hz.isNext.next with ⟨hnext, -⟩ | hlast
  · exact absurd hnext (not_lt.mpr (le_of_isPrefix hpfx))
  · exact hlast

end

lemma key_commonPart {next : Name} {e : List (List ℕ)}
    (he : e = (commonPart (commonPrefix name.key nsecname.key).length
      (commonPrefix name.key next.key).length nsecname next).key) :
    e = commonPrefix name.key nsecname.key ∧ commonPrefix name.key next.key <+: e ∨
      e = commonPrefix name.key next.key ∧ commonPrefix name.key nsecname.key <+: e := by
  have hkey : ∀ other : Name, (other.getlabelsequence
      (other.labels.length - (commonPrefix name.key other.key).length)
      (commonPrefix name.key other.key).length).key = commonPrefix name.key other.key := by
    intro other
    have hpfx := commonPrefix_right name.key other.key
    rw [Name.key_getlabelsequence (other.length_key ▸ hpfx.length_le)]
    exact (prefix_iff_eq_take.mp hpfx).symm
  subst he
  rw [commonPart]
  split_ifs with hlt
  · rw [hkey]
    exact .inl ⟨rfl, prefix_of_prefix_length_le (commonPrefix_left _ _)
      (commonPrefix_left _ _) hlt.le⟩
  · rw [hkey]
    exact .inr ⟨rfl, prefix_of_prefix_length_le (commonPrefix_left _ _)
      (commonPrefix_left _ _) (not_lt.mp hlt)⟩

lemma rangeVerdict_ok
    (h : rangeVerdict (commonPrefix name.key nsecname.key).length name nsecname nsec = .ok v) :
    (name.key < nsec.next.key ∨ nsec.next.key <+: nsecname.key) ∧
      (v = .exists false ∧ name.key < nsec.next.key ∧ name.key <+: nsec.next.key ∨
        ¬(name.key < nsec.next.key ∧ name.key <+: nsec.next.key) ∧
          ∃ wild e, v = .noexist wild ∧ wild.key = e ++ Name.wildcardname.key ∧
            (e = commonPrefix name.key nsecname.key ∧ commonPrefix name.key nsec.next.key <+: e ∨
              e = commonPrefix name.key nsec.next.key ∧
                commonPrefix name.key nsecname.key <+: e)) := by
  have hc := nsec.next.fullcompare_spec name
  rw [rangeVerdict] at h
  set c := nsec.next.fullcompare name
  have hnlabels : c.nlabels = (commonPrefix name.key nsec.next.key).length := by
    rw [hc.nlabels, Nat.zero_add, commonPrefix_comm]
  have hpos : c.order ≠ 0 → (0 < c.order ↔ name.key < nsec.next.key) := by
    intro hne
    have hkey : nsec.next.key ≠ name.key := fun heq => hne (hc.eq.mpr heq)
    rw [← not_le, ← not_le, not_iff_not, le_iff_lt_or_eq, le_iff_lt_or_eq, hc.lt]
    simp [hne, hkey]
  dsimp only at h
  split_ifs at h with hequal hpast hempty
  · cases h
    simp only [Bool.and_eq_true, decide_eq_true_eq, hpos hequal, hc.subdomain] at hempty
    exact ⟨.inl hempty.1, .inl ⟨rfl, hempty.1, hempty.2.1⟩⟩
  · refine ⟨?_, .inr ⟨?_, ?_⟩⟩
    · simp only [Bool.and_eq_true, decide_eq_true_eq, Bool.not_eq_true', not_and, Bool.not_eq_false,
        Name.issubdomain_iff] at hpast
      rcases lt_trichotomy c.order 0 with hlt | heq | hgt
      · exact .inr (hpast hlt)
      · exact absurd heq hequal
      · exact .inl ((hpos hequal).mp hgt)
    · rintro ⟨hlt, hpfx⟩
      refine hempty ?_
      simp only [Bool.and_eq_true, decide_eq_true_eq, hpos hequal, hc.subdomain]
      exact ⟨hlt, hpfx, hlt.ne⟩
    · rw [hnlabels] at h
      cases hwild : Name.wildcardname.concatenate (commonPart (commonPrefix name.key nsecname.key).length
          (commonPrefix name.key nsec.next.key).length nsecname nsec.next) (by decide) with
      | error e =>
        rw [hwild] at h
        cases h
      | ok wild =>
        rw [hwild] at h
        cases h
        exact ⟨wild, _, rfl, Name.key_concatenate hwild, key_commonPart rfl⟩

/-- The verdict of the validator is true of the zone: if and only if the name is not below the
owner of the record when that one has a DNAME. -/
theorem nsecnoexistnodata_iff (hz : z.IsNsec nsecname nsec) (hname : z.apex.key <+: name.key)
    (h : nsecnoexistnodata type name nsecname nsec = some (.ok v)) :
    z.Holds name type v ↔ ¬(nsecname.key <+: name.key ∧ nsecname.key ≠ name.key ∧
      dname ∈ z.types nsecname.key) := by
  have hc := name.fullcompare_spec nsecname
  rw [nsecnoexistnodata] at h
  set c := name.fullcompare nsecname
  by_cases hequal : c.order = 0
  · rw [if_neg (by omega), if_pos hequal] at h
    exact iff_of_true (ownerVerdict_holds hz (hc.eq.mp hequal) h)
      fun hbelow => hbelow.2.1 (hc.eq.mp hequal).symm
  by_cases hbefore : c.order < 0
  · rw [if_pos hbefore] at h
    cases h
  rw [if_neg hbefore, if_neg hequal] at h
  have hgt : nsecname.key < name.key := by
    rcases lt_trichotomy name.key nsecname.key with hlt | heq | hgt
    · exact absurd (hc.lt.mpr hlt) hbefore
    · exact absurd (hc.eq.mpr heq) hequal
    · exact hgt
  have hparent : (c.reln = .subdomain → fromParent nsec = some false) ∧
      rangeVerdict c.nlabels name nsecname nsec = .ok v := by
    by_cases hreln : c.reln = .subdomain
    · rw [if_pos hreln] at h
      cases hfrom : fromParent nsec with
      | none => simp [hfrom] at h
      | some parent => cases parent <;> simp_all
    · rw [if_neg hreln] at h
      exact ⟨fun h => absurd h hreln, by simpa using h⟩
  obtain ⟨hparent, hrange⟩ := hparent
  rw [hc.nlabels, Nat.zero_add] at hrange
  obtain ⟨hlt, hverdict⟩ := rangeVerdict_ok hrange
  have hgap := inGap hz hname hgt hlt
  -- below the owner of the record only a DNAME can hide the name
  have hhidden : z.tree.Hidden name.key ↔ nsecname.key <+: name.key ∧ nsecname.key ≠ name.key ∧
      dname ∈ z.types nsecname.key := by
    rw [hgap.hidden_iff]
    constructor
    · rintro ⟨hcut, hpfx⟩
      refine ⟨hpfx, hgt.ne, hcut.resolve_left ?_⟩
      exact not_delegation hz (hparent (hc.subdomain.mpr ⟨hpfx, hgt.ne⟩))
    · rintro ⟨hpfx, -, hdname⟩
      exact ⟨.inr hdname, hpfx⟩
  rw [← hhidden]
  rcases hverdict with ⟨rfl, hbetween⟩ | ⟨hempty, wild, e, rfl, hwild, he⟩
  · -- the next name is below this one, and not hidden
    have hvisible : ¬z.tree.Hidden name.key := by
      rintro ⟨d, hd, hpfx, hne⟩
      refine hz.isNext.right.2 ⟨d, hd, hpfx.trans hbetween.2, ?_⟩
      rintro rfl
      exact hne (hpfx.eq_of_length_le hbetween.2.length_le)
    refine iff_of_true ⟨(hgap.exists_iff hvisible).mpr hbetween, ?_⟩ hvisible
    simp only [Bool.false_eq_true, false_iff]
    exact fun htype => hgap.not_mem_owners hvisible ⟨type, htype⟩
  · constructor
    · exact fun h => h.2.1
    · intro hvisible
      exact ⟨fun h => hempty ((hgap.exists_iff hvisible).mp h), hvisible, e,
        hgap.closestEncloser hvisible he, hwild⟩

def topName (c : UInt8) : Name := letter c

def belowName : Name := ⟨[⟨[120], by simp⟩, ⟨[100], by simp⟩, Label.root], by decide, by decide⟩

def dnameZone : Zone where
  apex := Name.root
  types k :=
    if k = Name.root.key then {2, 6, 46, 47} else if k = (topName 100).key then {39, 46, 47} else ∅
  soa k := by
    split_ifs with hroot hd
    · simp [hroot, soa]
    · simp [hroot, soa]
    · simp [hroot]
  below k type htype := by
    split_ifs at htype with hroot hd
    · rw [hroot]
    · rw [hd]
      decide
    · cases htype

def dnameNsec : NsecRdata := ⟨Name.root, [0, 6, 0, 0, 0, 0, 1, 3]⟩

lemma dnameZone_cuts (h : k ∈ dnameZone.tree.cuts) : k = (topName 100).key := by
  rcases h with ⟨hapex, hns⟩ | hdname
  · simp only [dnameZone, if_neg (show k ≠ Name.root.key from hapex)] at hns
    split_ifs at hns with hd
    · exact hd
    · cases hns
  · simp only [dnameZone] at hdname
    split_ifs at hdname with hroot hd
    · simp [dname] at hdname
    · exact hd
    · cases hdname

lemma dnameZone_owners (h : k ∈ dnameZone.tree.owners) :
    k = Name.root.key ∨ k = (topName 100).key := by
  obtain ⟨type, htype⟩ := h
  simp only [dnameZone] at htype
  split_ifs at htype with hroot hd
  · exact .inl hroot
  · exact .inr hd
  · cases htype

lemma dnameZone_isNsec : dnameZone.IsNsec (topName 100) dnameNsec := by
  have hd : dnameZone.types (topName 100).key = {39, 46, 47} := by
    have : (topName 100).key ≠ Name.root.key := by decide
    simp [dnameZone, this]
  have hvisible : ∀ k, k <+: (topName 100).key → ¬dnameZone.tree.Hidden k := by
    rintro k hk ⟨d, hcut, hpfx, hne⟩
    obtain rfl := dnameZone_cuts hcut
    exact hne (hpfx.eq_of_length_le hk.length_le)
  refine ⟨⟨⟨⟨39, by simp [hd]⟩, hvisible _ (prefix_refl _)⟩,
    ⟨dnameZone.tree.apex_mem, hvisible _ (by decide)⟩, .inr ⟨rfl, fun x hx => ?_⟩⟩,
    [⟨0, [0, 0, 0, 0, 1, 3], by decide, by decide⟩], ⟨rfl, by simp⟩, fun type htype => ?_,
    fun type htype _ => ?_⟩
  · rcases dnameZone_owners hx.1 with rfl | rfl
    · exact le_of_isPrefix (by decide)
    · exact le_rfl
  · rw [hd]
    have hbits : ∀ t < 256, bitIsset [0, 0, 0, 0, 1, 3] t → t = 39 ∨ t = 46 ∨ t = 47 := by
      decide +kernel
    simp only [any_cons, any_nil, Bool.or_false, Window.has, Bool.and_eq_true,
      decide_eq_true_eq] at htype
    have hlt : type < 256 := by simpa [Nat.div_eq_zero_iff] using htype.1
    exact hbits type hlt (Nat.mod_eq_of_lt hlt ▸ htype.2)
  · rw [hd] at htype
    rcases htype with rfl | rfl | rfl <;> decide

theorem nsecnoexistnodata_iff_dname : ∃ v,
    nsecnoexistnodata a (topName 101) (topName 100) dnameNsec = some (.ok v) ∧
    (dnameZone.Holds (topName 101) a v ↔
      ¬((topName 100).key <+: (topName 101).key ∧ (topName 100).key ≠ (topName 101).key ∧
        dname ∈ dnameZone.types (topName 100).key)) := by
  refine ⟨_, rfl, nsecnoexistnodata_iff dnameZone_isNsec (by decide) rfl⟩

/-- A name below a DNAME is said not to exist. -/
theorem nsecnoexistnodata_below_dname : ∃ wild,
    nsecnoexistnodata a belowName (topName 100) dnameNsec = some (.ok (.noexist wild)) ∧
      ¬dnameZone.Holds belowName a (.noexist wild) := by
  refine ⟨_, rfl, fun h => h.2.1 ⟨(topName 100).key, .inr ?_, by decide, by decide⟩⟩
  have : (topName 100).key ≠ Name.root.key := by decide
  simp [dnameZone, this, dname]

end LbBind.Nsec

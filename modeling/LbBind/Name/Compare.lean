import LbBind.Lib.NameTree
import LbBind.Name.Basic

/-! The order of names (`dns_name_fullcompare`). Two names are compared from the root label on,
label by label and byte by byte in lower case. The result is the lexicographic order of the
labels, the root first, with the number of labels that the names have in common. -/

namespace LbBind

open Lib List Label

inductive NameReln
  | none
  | contains
  | subdomain
  | equal
  | commonancestor
  deriving DecidableEq

def compareLabel : List UInt8 → List UInt8 → ℤ
  | [], bs => -bs.length
  | as, [] => as.length
  | a :: as, b :: bs =>
    let chdiff : ℤ := (maptolower a).toNat - (maptolower b).toNat
    if chdiff ≠ 0 then chdiff else compareLabel as bs

structure Comparison where
  reln : NameReln
  order : ℤ
  nlabels : ℕ
  deriving DecidableEq

/-- The loop of `dns_name_fullcompare` over labels, the last ones first; `nlabels` of them were
equal before. -/
def fullcompareFrom (nlabels : ℕ) : List Label → List Label → Comparison
  | [], [] => ⟨.equal, 0, nlabels⟩
  | [], ms => ⟨.contains, -ms.length, nlabels⟩
  | ls, [] => ⟨.subdomain, ls.length, nlabels⟩
  | l :: ls, m :: ms =>
    let order := compareLabel l.1 m.1
    if order ≠ 0 then ⟨if 0 < nlabels then .commonancestor else .none, order, nlabels⟩
    else fullcompareFrom (nlabels + 1) ls ms

def letter (c : UInt8) : Name where
  labels := [⟨[c], by simp⟩, Label.root]
  rootLast := by simp [Label.root]
  short := by simp [Label.bytes, Label.root]

namespace Name

def fullcompare (name1 name2 : Name) : Comparison :=
  fullcompareFrom 0 name1.labels.reverse name2.labels.reverse

def issubdomain (name1 name2 : Name) : Bool :=
  let reln := (name1.fullcompare name2).reln
  reln = .subdomain || reln = .equal

def wildcardname : Name := ⟨[⟨[42], by simp⟩], by simp, by decide⟩

lemma wildcardname_relative : ∀ l ∈ wildcardname.labels, l ≠ Label.root := by decide

def concatenate (pre suffix : Name) (hpre : ∀ l ∈ pre.labels, l ≠ Label.root) :
    Except Result Name :=
  if h : (wireOf (pre.labels ++ suffix.labels)).length ≤ 255 then
    .ok
      { labels := pre.labels ++ suffix.labels
        rootLast := by
          intro l hl
          by_cases hnil : suffix.labels = []
          · exact hpre l (dropLast_subset _ (by simpa [hnil] using hl))
          · rw [dropLast_append_of_ne_nil hnil, mem_append] at hl
            exact hl.elim (hpre l) (suffix.rootLast l)
        short := h }
  else .error .nameTooLong

end Name

def Label.key (l : Label) : List ℕ := l.1.map fun c => (maptolower c).toNat

def labelsKey (ls : List Label) : List (List ℕ) := ls.reverse.map Label.key

variable (name : Name)

def Name.key : List (List ℕ) := labelsKey name.labels

lemma compareLabel_spec (as bs : List UInt8) : (compareLabel as bs < 0 ↔
      as.map (fun c => (maptolower c).toNat) < bs.map fun c => (maptolower c).toNat) ∧
    (compareLabel as bs = 0 ↔
      as.map (fun c => (maptolower c).toNat) = bs.map fun c => (maptolower c).toNat) := by
  induction as generalizing bs with
  | nil =>
    cases bs with
    | nil => simp [compareLabel]
    | cons b bs =>
      simp [compareLabel]
      omega
  | cons a as ih =>
    cases bs with
    | nil => simp [compareLabel]; omega
    | cons b bs =>
      simp only [compareLabel, map_cons, cons_lt_cons_iff, cons.injEq]
      by_cases h : ((maptolower a).toNat : ℤ) - (maptolower b).toNat ≠ 0
      · rw [if_pos h]
        constructor <;> omega
      · have hbyte : (maptolower a).toNat = (maptolower b).toNat := by omega
        simp [hbyte, (ih bs).1, (ih bs).2]

structure Compares (a b : List (List ℕ)) (n : ℕ) (r : Comparison) : Prop where
  lt : r.order < 0 ↔ a < b
  eq : r.order = 0 ↔ a = b
  nlabels : r.nlabels = n + (commonPrefix a b).length
  subdomain : r.reln = .subdomain ↔ b <+: a ∧ b ≠ a
  equal : r.reln = .equal ↔ a = b

attribute [local simp] commonPrefix labelsKey

lemma fullcompareFrom_spec (n : ℕ) (ls ms : List Label) :
    Compares (ls.map key) (ms.map key) n (fullcompareFrom n ls ms) := by
  induction ls generalizing n ms with
  | nil =>
    cases ms with
    | nil => constructor <;> simp [fullcompareFrom]
    | cons m ms =>
      constructor <;> simp [fullcompareFrom]
      all_goals omega
  | cons l ls ih =>
    cases ms with
    | nil => constructor <;> simp [fullcompareFrom] <;> omega
    | cons m ms =>
      obtain ⟨hlt, heq⟩ := compareLabel_spec l.1 m.1
      change _ ↔ l.key < m.key at hlt
      change _ ↔ l.key = m.key at heq
      rw [fullcompareFrom]
      by_cases horder : compareLabel l.1 m.1 = 0
      · have hkey : l.key = m.key := heq.mp horder
        have h := ih (n + 1) ms
        simp only [horder, ne_eq, not_true_eq_false, if_false]
        constructor
        · simp [h.lt, hkey]
        · simp [h.eq, hkey]
        · simp [h.nlabels, hkey]
          omega
        · simp [h.subdomain, hkey, cons_prefix_cons]
        · simp [h.equal, hkey]
      · have hkey : l.key ≠ m.key := fun h => horder (heq.mpr h)
        simp only [ne_eq, horder, not_false_eq_true, if_true]
        constructor
        · simp [hlt, hkey, cons_lt_cons_iff]
        · simp [horder, hkey]
        · simp [hkey]
        · split_ifs <;> simp [cons_prefix_cons, hkey.symm]
        · split_ifs <;> simp [hkey]

lemma Name.fullcompare_spec (name1 name2 : Name) :
    Compares name1.key name2.key 0 (name1.fullcompare name2) := by
  exact fullcompareFrom_spec 0 name1.labels.reverse name2.labels.reverse

lemma Name.key_getlabelsequence {name : Name} {n : ℕ} (h : n ≤ name.labels.length) :
    (name.getlabelsequence (name.labels.length - n) n).key = name.key.take n := by
  simp only [key, labelsKey, getlabelsequence]
  rw [take_of_length_le (by simp; omega), ← map_take, take_reverse]

lemma Name.length_key : name.key.length = name.labels.length := by
  simp [key]

lemma Name.key_concatenate {pre suffix name : Name} {hpre : ∀ l ∈ pre.labels, l ≠ Label.root}
    (h : pre.concatenate suffix hpre = .ok name) : name.key = suffix.key ++ pre.key := by
  rw [concatenate] at h
  split_ifs at h
  cases h
  simp [key]

lemma Name.issubdomain_iff (name1 name2 : Name) :
    name1.issubdomain name2 ↔ name2.key <+: name1.key := by
  have h := name1.fullcompare_spec name2
  simp only [issubdomain, Bool.or_eq_true, decide_eq_true_eq, h.subdomain, h.equal]
  constructor
  · rintro (h | h)
    · exact h.1
    · rw [h]
  · intro hpfx
    by_cases heq : name1.key = name2.key
    · exact .inr heq
    · exact .inl ⟨hpfx, Ne.symm heq⟩

lemma Label.key_eq_nil {l : Label} : l.key = [] ↔ l = root := by
  simp [key, root, Subtype.ext_iff]

lemma Name.absolute_iff_key : name.absolute ↔ name.key.head? = some [] := by
  simp [absolute, key, key_eq_nil]

lemma Name.equal_iff_key (a b : Name) : a.wire.equal b.wire ↔ a.key = b.key := by
  have hlower : ∀ l : Label, l.key = l.lower.map UInt8.toNat := by
    intro l
    simp [Label.key, lower, Function.comp_def]
  have hkey : ∀ c : Name, c.key = ((c.labels.map lower).map (map UInt8.toNat)).reverse := by
    intro c
    simp [key, Function.comp_def, hlower]
  have hinj : Function.Injective (map UInt8.toNat) :=
    map_injective_iff.mpr fun _ _ h => UInt8.toNat_inj.mp h
  rw [hkey, hkey, reverse_inj, (map_injective_iff.mpr hinj).eq_iff]
  exact Wire.equal_iff a.labels b.labels

/-- The names below a name stand together in the order, behind the name itself. -/
theorem Name.issubdomain_interval (name a b c : Name) :
    (a.issubdomain name → (name.fullcompare a).order ≤ 0) ∧
      (a.issubdomain name → c.issubdomain name → (a.fullcompare b).order ≤ 0 →
        (b.fullcompare c).order ≤ 0 → b.issubdomain name) := by
  have hle (x y : Name) : (x.fullcompare y).order ≤ 0 ↔ x.key ≤ y.key := by
    rw [le_iff_lt_or_eq, le_iff_lt_or_eq, (x.fullcompare_spec y).lt, (x.fullcompare_spec y).eq]
  simp only [issubdomain_iff, hle]
  exact ⟨le_of_isPrefix, isPrefix_of_between⟩

end LbBind

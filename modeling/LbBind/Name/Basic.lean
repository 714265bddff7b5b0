import Mathlib.Algebra.GroupWithZero.Nat
import Mathlib.Data.List.Forall2
import Mathlib.Data.List.TakeDrop
import LbBind.Result

/-! Domain names (`lib/dns/name.c`). A name is a sequence of labels, the leftmost first; the root
label is the empty one and may only stand last, and the wire form has at most 255 bytes. The
comparisons that `name.c` makes on bytes are given on the wire form and related to the labels. -/

namespace LbBind

open List

/-- `maptolower`: ASCII upper case to lower case, every other byte to itself. -/
def maptolower (c : UInt8) : UInt8 := if 65 ≤ c ∧ c ≤ 90 then c + 32 else c

lemma maptolower_maptolower (c : UInt8) : maptolower (maptolower c) = maptolower c := by
  by_cases hc : 65 ≤ c ∧ c ≤ 90
  · have hc' : ¬(65 ≤ c + 32 ∧ c + 32 ≤ 90) := by
      have h1 : 65 ≤ c.toNat := UInt8.le_iff_toNat_le.mp hc.1
      have h2 : c.toNat ≤ 90 := UInt8.le_iff_toNat_le.mp hc.2
      rintro ⟨-, hle⟩
      have h3 : (c.toNat + 32) % 256 ≤ 90 := UInt8.le_iff_toNat_le.mp hle
      omega
    simp [maptolower, hc, hc']
  · simp [maptolower, hc]

abbrev Label := { l : List UInt8 // l.length ≤ 63 }

namespace Label

def root : Label := ⟨[], by simp⟩

lemma one_short : 1 ≤ 63 := by decide

variable (l : Label)

def lower : List UInt8 := l.1.map maptolower

def bytes : List UInt8 := UInt8.ofNat l.1.length :: l.1

@[simp] lemma length_bytes : l.bytes.length = l.1.length + 1 := rfl

@[simp] lemma length_lower : l.lower.length = l.1.length := by simp [lower]

lemma toNat_length : (UInt8.ofNat l.1.length).toNat = l.1.length := by
  rw [UInt8.toNat_ofNat']
  omega

end Label

variable (ls : List Label)

def wireOf : List UInt8 := ls.flatMap Label.bytes

@[simp] lemma wireOf_nil : wireOf [] = [] := rfl

@[simp] lemma wireOf_cons (l : Label) (ls : List Label) :
    wireOf (l :: ls) = l.bytes ++ wireOf ls := rfl

@[simp] lemma wireOf_append (ls ms : List Label) : wireOf (ls ++ ms) = wireOf ls ++ wireOf ms := by
  simp [wireOf]

lemma wireOf_take_append_drop (k : ℕ) :
    wireOf (ls.take k) ++ wireOf (ls.drop k) = wireOf ls := by
  rw [← wireOf_append, take_append_drop]

lemma length_wireOf_take_add_drop (k : ℕ) :
    (wireOf (ls.take k)).length + (wireOf (ls.drop k)).length = (wireOf ls).length := by
  rw [← wireOf_take_append_drop ls k, length_append]

/-- The fields of a `dns_name_t` that refer to its bytes: `ndata`, with `length`
the number of them, and `labels`. -/
structure Wire where
  ndata : List UInt8
  labels : ℕ
  deriving DecidableEq

def wire : Wire := ⟨wireOf ls, ls.length⟩

structure Name where
  labels : List Label
  rootLast : ∀ l ∈ labels.dropLast, l ≠ Label.root
  short : (wireOf labels).length ≤ 255
  deriving DecidableEq

namespace Name

/-- `DNS_NAMEATTR_ABSOLUTE`: the last label is the root label. -/
def absolute (name : Name) : Bool := name.labels.getLast? = some Label.root

def length (name : Name) : ℕ := (wireOf name.labels).length

def wire (name : Name) : Wire := LbBind.wire name.labels

def root : Name := ⟨[Label.root], by simp, by decide⟩

lemma mem_dropLast_of_drop {α : Type*} {l : List α} {k : ℕ} {a : α}
    (h : a ∈ (l.drop k).dropLast) : a ∈ l.dropLast := by
  rw [dropLast_drop_eq_drop_dropLast] at h
  exact mem_of_mem_drop h

lemma mem_dropLast_of_take {α : Type*} {l : List α} {k : ℕ} {a : α}
    (h : a ∈ (l.take k).dropLast) : a ∈ l.dropLast := by
  rw [dropLast_take_eq_take_dropLast] at h
  exact mem_of_mem_take h

def getlabelsequence (source : Name) (first n : ℕ) : Name where
  labels := (source.labels.drop first).take n
  rootLast l hl := source.rootLast l (mem_dropLast_of_drop (mem_dropLast_of_take hl))
  short := by
    have h₁ := length_wireOf_take_add_drop (source.labels.drop first) n
    have h₂ := length_wireOf_take_add_drop source.labels first
    have := source.short
    omega

end Name

namespace Name

variable {name : Name} {n : ℕ}

lemma drop_of_absolute (h : name.absolute) :
    0 < name.labels.length ∧ name.labels.drop (name.labels.length - 1) = [Label.root] := by
  simp only [absolute, decide_eq_true_eq] at h
  obtain ⟨first, hfirst⟩ := getLast?_eq_some_iff.mp h
  simp [hfirst]

lemma ne_root_of_mem_take (hn : n < name.labels.length) :
    ∀ l ∈ name.labels.take n, l ≠ Label.root := by
  intro l hl
  refine name.rootLast l ?_
  rw [dropLast_eq_take]
  exact take_subset_take_left _ (by omega) hl

lemma absolute_getlabelsequence_zero (hn : n < name.labels.length) :
    (name.getlabelsequence 0 n).absolute = false := by
  simp only [absolute, getlabelsequence, drop_zero, decide_eq_false_iff_not]
  exact fun h => ne_root_of_mem_take hn _ (mem_of_getLast? h) rfl

end Name

/-- The loop of `dns_name_equal` over the labels left: the length bytes agree, and
the bytes after them agree in lower case. -/
def equalLabels : ℕ → List UInt8 → List UInt8 → Bool
  | 0, _, _ => true
  | l + 1, c₁ :: label1, c₂ :: label2 =>
    c₁ == c₂ && (label1.take c₁.toNat).map maptolower == (label2.take c₁.toNat).map maptolower &&
      equalLabels l (label1.drop c₁.toNat) (label2.drop c₁.toNat)
  | _ + 1, _, _ => false

namespace Wire

def equal (name1 name2 : Wire) : Bool :=
  name1.ndata.length == name2.ndata.length && name1.labels == name2.labels &&
    equalLabels name1.labels name1.ndata name2.ndata

/-- `dns_name_caseequal`: the lengths and the bytes agree. -/
def caseequal (name1 name2 : Wire) : Bool :=
  name1.ndata.length == name2.ndata.length && name1.ndata == name2.ndata

def nameHash (name : Wire) (caseSensitive : Bool) : ℕ := (name.ndata.take 16).foldl
    (fun h c => (h + (h * 8 + (if caseSensitive then c else maptolower c).toNat)) % 2 ^ 32) 0

def hash (name : Wire) (caseSensitive : Bool) : ℕ :=
  if name.labels = 0 then 0 else name.nameHash caseSensitive

end Wire

def SameLabels (ls ms : List Label) : Prop := ls.map Label.lower = ms.map Label.lower

namespace SameLabels

variable {ls ms ns : List Label}

lemma refl (ls : List Label) : SameLabels ls ls := rfl

lemma trans (h1 : SameLabels ls ms) (h2 : SameLabels ms ns) : SameLabels ls ns := Eq.trans h1 h2

variable (h : SameLabels ls ms)
include h

lemma symm : SameLabels ms ls := Eq.symm h

lemma length_eq : ls.length = ms.length := by
  simpa using congrArg length h

lemma append {ls' ms' : List Label} (h' : SameLabels ls' ms') :
    SameLabels (ls ++ ls') (ms ++ ms') := by
  simp only [SameLabels, map_append] at h h' ⊢
  rw [h, h']

omit h in
lemma cons_iff {l m : Label} :
    SameLabels (l :: ls) (m :: ms) ↔ l.lower = m.lower ∧ SameLabels ls ms := by
  simp [SameLabels]

lemma length_wireOf : (wireOf ls).length = (wireOf ms).length := by
  have hlen : ∀ ks : List Label,
      (wireOf ks).length = ((ks.map Label.lower).map fun l => l.length + 1).sum := by
    intro ks
    simp [wireOf, length_flatMap, Function.comp_def]
  rw [hlen, hlen, h]

end SameLabels

lemma equalLabels_wireOf (ls ms : List Label) (r1 r2 : List UInt8)
    (hlen : ls.length = ms.length) :
    equalLabels ls.length (wireOf ls ++ r1) (wireOf ms ++ r2) ↔ SameLabels ls ms := by
  induction ls generalizing ms with
  | nil =>
    cases ms with
    | nil => simp [equalLabels, SameLabels]
    | cons m ms => simp at hlen
  | cons l ls ih =>
    cases ms with
    | nil => simp at hlen
    | cons m ms =>
      simp only [wireOf_cons, Label.bytes, cons_append, append_assoc, length_cons, equalLabels,
        Label.toNat_length, Bool.and_eq_true, beq_iff_eq, SameLabels.cons_iff,
        take_left, drop_left]
      constructor
      · rintro ⟨⟨hc, hb⟩, ht⟩
        have hl : l.1.length = m.1.length := by
          rw [← Label.toNat_length l, hc, Label.toNat_length]
        rw [hl, take_left] at hb
        rw [hl, drop_left, ih ms (by simpa using hlen)] at ht
        exact ⟨hb, ht⟩
      · rintro ⟨hl, ht⟩
        have hlen' : l.1.length = m.1.length := by
          rw [← Label.length_lower l, hl, Label.length_lower]
        rw [hlen', take_left, drop_left, ih ms (by simpa using hlen)]
        exact ⟨⟨rfl, hl⟩, ht⟩

lemma Wire.equal_iff (ls ms : List Label) : (wire ls).equal (wire ms) ↔ SameLabels ls ms := by
  simp only [equal, wire, Bool.and_eq_true, beq_iff_eq]
  constructor
  · rintro ⟨⟨-, hlen⟩, h⟩
    simpa using (equalLabels_wireOf ls ms [] [] hlen).mp (by simpa using h)
  · intro h
    refine ⟨⟨h.length_wireOf, h.length_eq⟩, ?_⟩
    simpa using (equalLabels_wireOf ls ms [] [] h.length_eq).mpr h

lemma wireOf_injective {ls ms : List Label} (h : wireOf ls = wireOf ms) : ls = ms := by
  induction ls generalizing ms with
  | nil =>
    cases ms with
    | nil => rfl
    | cons m ms => simp [Label.bytes] at h
  | cons l ls ih =>
    cases ms with
    | nil => simp [Label.bytes] at h
    | cons m ms =>
      simp only [wireOf_cons, Label.bytes, cons_append, cons.injEq] at h
      have hl : l.1.length = m.1.length := by
        rw [← Label.toNat_length l, h.1, Label.toNat_length]
      obtain ⟨hb, ht⟩ := append_inj h.2 hl
      rw [Subtype.ext hb, ih ht]

lemma Wire.caseequal_iff (ls ms : List Label) : (wire ls).caseequal (wire ms) ↔ ls = ms := by
  simp only [caseequal, wire, Bool.and_eq_true, beq_iff_eq]
  exact ⟨fun h => wireOf_injective h.2, fun h => by simp [h]⟩

def Label.downcase (l : Label) : Label := ⟨l.lower, by simpa using l.2⟩

lemma Label.downcase_eq_root {l : Label} : l.downcase = root ↔ l = root := by
  simp [downcase, root, lower, Subtype.ext_iff]

lemma length_wireOf_downcase (ls : List Label) :
    (wireOf (ls.map Label.downcase)).length = (wireOf ls).length := by
  induction ls with
  | nil => rfl
  | cons l ls ih => simp [ih, Label.downcase]

def Name.downcase (name : Name) : Name where
  labels := name.labels.map Label.downcase
  rootLast l hl := by
    rw [← map_dropLast] at hl
    obtain ⟨l', hl', rfl⟩ := mem_map.mp hl
    rw [Ne, Label.downcase_eq_root]
    exact name.rootLast l' hl'
  short := by
    rw [length_wireOf_downcase]
    exact name.short

@[simp] lemma Name.labels_downcase (name : Name) :
    name.downcase.labels = name.labels.map Label.downcase := rfl

/-- The last `n` labels of a name (`dns_name_split`). -/
def Name.suffix (name : Name) (n : ℕ) : Name := name.getlabelsequence (name.labels.length - n) n

end LbBind

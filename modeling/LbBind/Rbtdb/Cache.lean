import Mathlib.Data.List.Induction
import Mathlib.Data.List.Pairwise
import Mathlib.Data.List.TakeWhile
import LbBind.Rbtdb.Node

/-! The headers at a node of a cache (`add` and `cache_findrdataset` of `lib/dns/rbtdb.c`). The list
has the headers of all types, positive and negative ones; several of them can be for one type. A
new header takes the place of the first one for its type, or comes in front of the list. -/

namespace LbBind.Rbtdb.Cache

open List
open Rdatatype (rrsig ns)

variable {δ : Type*}

/-- `rdatasetheader_t` in a cache, where no header is ignored. The type of a negative header is 0,
and what it covers is the type that does not exist, or any type. -/
structure Entry (δ : Type*) where
  type : Typepair
  /-- The time when it expires. -/
  ttl : ℕ
  trust : ℕ
  nonexistent : Bool
  negative : Bool
  slab : δ
  deriving DecidableEq

namespace Entry

def active (now : ℕ) (h : Entry δ) : Bool := !h.nonexistent && now < h.ttl

def expire (h : Entry δ) : Entry δ := { h with ttl := 0 }

@[simp] lemma active_expire (now : ℕ) (h : Entry δ) : h.expire.active now = false := by
  simp [active, expire]

def honour (h : Entry δ) (ttl : ℕ) : Entry δ := if ttl < h.ttl then { h with ttl := ttl } else h

end Entry

def ncacheany : Typepair := ⟨0, Rdatatype.any⟩

def nsType : Typepair := ⟨ns, 0⟩

def addressTypes : List Typepair := [⟨1, 0⟩, ⟨28, 0⟩]

def ultimate : ℕ := 9

def expireLast (type : Typepair) : List (Entry δ) → List (Entry δ)
  | [] => []
  | h :: t =>
    if t.any (·.type = type) then h :: expireLast type t
    else if h.type = type then h.expire :: t else h :: t

section

-- `dns_rdataslab_equalx` and `dns_rdataslab_equal`
variable (equalx equal : δ → δ → Bool)

def addFound (now trust : ℕ) (new : Entry δ) (sigtype : Option Typepair) (pre : List (Entry δ))
    (header : Entry δ) (post : List (Entry δ)) : Result × List (Entry δ) :=
  if header.nonexistent && new.nonexistent then (.unchanged, pre ++ header :: post)
  else if trust < header.trust && (now < header.ttl || header.nonexistent) then
    (.unchanged, pre ++ header :: post)
  else
    let both := now < header.ttl && !header.nonexistent && !new.nonexistent
    if both && header.type = nsType && new.trust ≤ header.trust && equalx header.slab new.slab then
      (.success, pre ++ header.honour new.ttl :: post)
    else
      let clamp := both && header.type = nsType && header.trust ≤ new.trust
      let newheader := if clamp then new.honour header.ttl else new
      if both && header.type ∈ addressTypes && newheader.trust ≤ header.trust &&
          equal header.slab newheader.slab then
        (.success, pre ++ header.honour newheader.ttl :: post)
      else
        let data := pre ++ newheader :: post
        (.success, match sigtype with
          | none => data
          | some type => expireLast type data)

def addFront (new : Entry δ) (data : List (Entry δ)) : Result × List (Entry δ) :=
  if new.nonexistent then (.unchanged, data) else (.success, new :: data)

def addSearch (now trust : ℕ) (new : Entry δ) (negtype : Typepair) (sigtype : Option Typepair)
    (data : List (Entry δ)) : Result × List (Entry δ) :=
  let other (h : Entry δ) : Bool := !(h.type = new.type || h.type = negtype)
  match data.dropWhile other with
  | [] => addFront new data
  | header :: post => addFound equalx equal now trust new sigtype (data.takeWhile other) header post

structure Addition (δ : Type*) where
  now : ℕ
  /-- `DNS_DBADD_FORCE` -/
  force : Bool
  new : Entry δ

def add (c : Addition δ) (data : List (Entry δ)) : Result × List (Entry δ) :=
  let trust := if c.force then ultimate else c.new.trust
  if c.new.nonexistent then addSearch equalx equal c.now trust c.new .zero none data
  else if c.new.negative then
    let covers := c.new.type.covers
    if covers = Rdatatype.any then addFront c.new (data.map Entry.expire)
    else addSearch equalx equal c.now trust c.new ⟨covers, 0⟩ (some ⟨rrsig, covers⟩) data
  else
    let search := addSearch equalx equal c.now trust c.new ⟨0, c.new.type.base⟩ none data
    match data.dropWhile (·.type ≠ ncacheany) with
    | [] => search
    | top :: post =>
      if top.active c.now then
        if trust < top.trust then (.unchanged, data)
        else addFront c.new (data.takeWhile (·.type ≠ ncacheany) ++ top.expire :: post)
      else search

def run (calls : List (Addition δ)) : List (Entry δ) :=
  calls.foldl (fun data c => (add equalx equal c data).2) []

end

/-- `cache_findrdataset`: the rdataset found and its signatures. The loop keeps the last header of
each kind. -/
def cacheFindrdataset (now type covers : ℕ) (data : List (Entry δ)) :
    Option (Entry δ × Option (Entry δ)) :=
  let active := data.filter (·.active now)
  let found := (active.filter fun h =>
    h.type = ⟨type, covers⟩ || h.type = ncacheany || h.type = ⟨0, type⟩).getLast?
  let foundsig := (active.filter fun h => covers = 0 && h.type = ⟨rrsig, type⟩).getLast?
  found.map fun h => (h, if h.negative then none else foundsig)

/-- The headers that the search of `add` stops at. -/
def Meets (new h : Entry δ) : Prop :=
  h.type = new.type ∨ h.type = if new.negative then ⟨new.type.covers, 0⟩ else ⟨0, new.type.base⟩

instance (new h : Entry δ) : Decidable (Meets new h) := inferInstanceAs (Decidable (_ ∨ _))

def Lowered (h h' : Entry δ) : Prop :=
  h'.type = h.type ∧ h'.nonexistent = h.nonexistent ∧ h'.ttl ≤ h.ttl

/-- A negative header expires the signatures of its type as well. -/
def expireSig (new : Entry δ) (l : List (Entry δ)) : List (Entry δ) :=
  if new.negative then expireLast ⟨rrsig, new.type.covers⟩ l else l

inductive Step (c : Addition δ) (l : List (Entry δ)) : List (Entry δ) → Prop
  /-- The new header is not added. -/
  | lower {l' : List (Entry δ)}
      (why : c.new.negative = false ∧ (∃ a ∈ l, a.type = ncacheany ∧ a.active c.now) ∨
        ∃ h, l.find? (Meets c.new ·) = some h ∧ h.active c.now)
      (hlower : l.Forall₂ Lowered l') : Step c l l'
  /-- It covers all types. -/
  | any (hany : c.new.type = ncacheany) : Step c l (c.new :: l.map Entry.expire)
  /-- It is better than a header that covers all types. -/
  | better {pre post : List (Entry δ)} {a : Entry δ} (hpos : c.new.negative = false)
      (hl : l = pre ++ a :: post) (ha : a.type = ncacheany) (hactive : a.active c.now)
      (hpre : ∀ h ∈ pre, h.type ≠ ncacheany) : Step c l (c.new :: (pre ++ a.expire :: post))
  /-- It takes the place of another one. -/
  | replace {pre post : List (Entry δ)} {h new : Entry δ} (hany : c.new.type ≠ ncacheany)
      (hl : l = pre ++ h :: post) (hmeets : Meets c.new h) (hpre : ∀ x ∈ pre, ¬Meets c.new x)
      (hfirst : c.new.negative = false → ∀ x ∈ l, x.type = ncacheany → ¬x.active c.now)
      (hnew : Lowered c.new new) (hsame : h.active c.now = false → new = c.new)
      (hclamp : h.active c.now → h.type = nsType → c.force = false → new.ttl ≤ h.ttl) :
      Step c l (expireSig c.new (pre ++ new :: post))
  /-- There is none to take the place of. -/
  | front (hany : c.new.type ≠ ncacheany) (hnone : ∀ x ∈ l, ¬Meets c.new x)
      (hfirst : c.new.negative = false → ∀ x ∈ l, x.type = ncacheany → ¬x.active c.now) :
      Step c l (c.new :: l)

lemma Lowered.refl (h : Entry δ) : Lowered h h := ⟨rfl, rfl, le_rfl⟩

lemma Entry.honour_eq (h : Entry δ) (ttl : ℕ) : h.honour ttl = { h with ttl := min ttl h.ttl } := by
  rw [honour]
  split
  · next hlt => rw [min_eq_left hlt.le]
  · next hlt => rw [min_eq_right (not_lt.mp hlt)]

lemma Lowered.honour (h : Entry δ) (ttl : ℕ) : Lowered h (h.honour ttl) := by
  rw [h.honour_eq]
  exact ⟨rfl, rfl, min_le_right ..⟩

lemma forall₂_lowered_refl (l : List (Entry δ)) : l.Forall₂ Lowered l :=
  forall₂_same.mpr fun h _ => .refl h

lemma lowered_expire (pre post : List (Entry δ)) (a : Entry δ) :
    (pre ++ a :: post).Forall₂ Lowered (pre ++ a.expire :: post) :=
  rel_append (forall₂_lowered_refl pre)
    (.cons ⟨rfl, rfl, Nat.zero_le _⟩ (forall₂_lowered_refl post))

lemma forall₂_lowered_expireLast (type : Typepair) (l : List (Entry δ)) :
    l.Forall₂ Lowered (expireLast type l) := by
  induction l with
  | nil => exact .nil
  | cons h t ih =>
    rw [expireLast]
    split_ifs
    · exact .cons (.refl h) ih
    · exact .cons ⟨rfl, rfl, Nat.zero_le _⟩ (forall₂_lowered_refl t)
    · exact forall₂_lowered_refl _

lemma forall₂_lowered_expireSig (new : Entry δ) (l : List (Entry δ)) :
    l.Forall₂ Lowered (expireSig new l) := by
  rw [expireSig]
  split
  · exact forall₂_lowered_expireLast ..
  · exact forall₂_lowered_refl l

/-- What stands between the headers before and behind it makes no difference to them. -/
lemma expireLast_middle (type : Typepair) (pre post : List (Entry δ)) :
    ∃ pre' post', ∀ y : Entry δ, y.type ≠ type →
      expireLast type (pre ++ y :: post) = pre' ++ y :: post' := by
  induction pre with
  | nil =>
    refine ⟨[], if post.any (·.type = type) then expireLast type post else post, fun y hy => ?_⟩
    simp only [nil_append, expireLast, hy, if_false]
    split_ifs <;> rfl
  | cons h pre ih =>
    obtain ⟨pre', post', ih⟩ := ih
    by_cases hlater : (pre ++ post).any (·.type = type)
    · refine ⟨h :: pre', post', fun y hy => ?_⟩
      rw [cons_append, expireLast, if_pos, ih y hy, cons_append]
      simp_all
    · refine ⟨(if h.type = type then h.expire else h) :: pre, post, fun y hy => ?_⟩
      rw [cons_append, expireLast, if_neg (by simp_all)]
      split_ifs <;> rfl

variable {l : List (Entry δ)}

lemma mem_expireLast {type : Typepair} {x : Entry δ} (hx : x ∈ l)
    (hne : x.type ≠ type) : x ∈ expireLast type l := by
  induction l with
  | nil => exact hx
  | cons h t ih =>
    rw [expireLast]
    split_ifs with hlater htype
    · exact mem_cons.mpr ((mem_cons.mp hx).imp_right ih)
    · refine .tail _ ((mem_cons.mp hx).resolve_left ?_)
      rintro rfl
      exact hne htype
    · exact hx

lemma split_of_dropWhile {p : Entry δ → Bool} {post : List (Entry δ)} {h : Entry δ}
    (hdrop : l.dropWhile p = h :: post) :
    l = l.takeWhile p ++ h :: post ∧ p h = false ∧ ∀ x ∈ l.takeWhile p, p x := by
  refine ⟨?_, ?_, fun x hx => mem_takeWhile_imp hx⟩
  · rw [← hdrop, takeWhile_append_dropWhile]
  · have hnot := head_dropWhile_not p (l := l) (by simp [hdrop])
    simpa [hdrop] using hnot

section
variable {equalx equal : δ → δ → Bool} {c : Addition δ} {l : List (Entry δ)}
  {pre post : List (Entry δ)}

lemma addFound_step {h : Entry δ} {sigtype : Option Typepair} (hnew : c.new.nonexistent = false)
    (hextant : h.nonexistent = false) (hany : c.new.type ≠ ncacheany) (hl : l = pre ++ h :: post)
    (hmeets : Meets c.new h) (hpre : ∀ x ∈ pre, ¬Meets c.new x)
    (hfirst : c.new.negative = false → ∀ x ∈ l, x.type = ncacheany → ¬x.active c.now)
    (hsig : sigtype = if c.new.negative then some ⟨rrsig, c.new.type.covers⟩ else none) :
    Step c l (addFound equalx equal c.now (if c.force then ultimate else c.new.trust) c.new sigtype
      pre h post).2 := by
  have hh : l.find? (Meets c.new ·) = some h :=
    find?_eq_some_iff_append.mpr ⟨by simpa using hmeets, pre, post, hl, by simpa using hpre⟩
  have hactive : h.active c.now = decide (c.now < h.ttl) := by simp [Entry.active, hextant]
  have hlower : ∀ h' : Entry δ, Lowered h h' → l.Forall₂ Lowered (pre ++ h' :: post) := fun h' hlow =>
    hl ▸ rel_append (forall₂_lowered_refl pre) (.cons hlow (forall₂_lowered_refl post))
  unfold addFound
  simp only [hextant, hnew, Bool.and_self, Bool.false_eq_true, if_false, Bool.or_false, Bool.not_false,
    Bool.and_true]
  have htrust : c.force = false → (if c.force then ultimate else c.new.trust) = c.new.trust := by
    intro hforce
    simp [hforce]
  generalize (if c.force then ultimate else c.new.trust) = trust at htrust
  have hkeep : ∀ h', Lowered h h' → c.now < h.ttl → Step c l (pre ++ h' :: post) := fun h' hlow hlt =>
    .lower (.inr ⟨h, hh, by simpa [hactive] using hlt⟩) (hlower h' hlow)
  split
  · next hreject =>
    simp only [Bool.and_eq_true, decide_eq_true_eq] at hreject
    exact hkeep h (.refl h) hreject.2
  next hreject =>
  simp only [Bool.and_eq_true, decide_eq_true_eq, not_and] at hreject
  split
  · next hequal =>
    simp only [Bool.and_eq_true, decide_eq_true_eq] at hequal
    exact hkeep _ (.honour h _) hequal.1.1.1
  generalize hnew' : (if (decide (c.now < h.ttl) && decide (h.type = nsType) &&
    decide (h.trust ≤ c.new.trust)) then c.new.honour h.ttl else c.new) = new'
  have hclamp : h.active c.now → h.type = nsType → c.force = false → new'.ttl ≤ h.ttl := by
    intro hact hns hforce
    rw [hactive, decide_eq_true_eq] at hact
    have hle : h.trust ≤ c.new.trust := by
      by_contra hlt
      exact hreject (by rw [htrust hforce]; omega) hact
    rw [← hnew', if_pos (by simp [hact, hns, hle])]
    rw [c.new.honour_eq]
    exact min_le_left ..
  have hsame : h.active c.now = false → new' = c.new := by
    intro hact
    rw [hactive, decide_eq_false_iff_not] at hact
    rw [← hnew', if_neg (by simp [hact])]
  have hnew : Lowered c.new new' := by
    rw [← hnew']
    split
    · exact .honour c.new _
    · exact .refl _
  split
  · next haddress =>
    simp only [Bool.and_eq_true, decide_eq_true_eq] at haddress
    exact hkeep _ (.honour h _) haddress.1.1.1
  · have hstep := Step.replace hany hl hmeets hpre hfirst hnew hsame hclamp
    rw [expireSig] at hstep
    cases hneg : c.new.negative <;> simpa [hsig, hneg] using hstep

def FirstAny (now : ℕ) (l : List (Entry δ)) : Prop :=
  l.Pairwise fun x y => x.type = ncacheany → y.type = ncacheany → ¬y.active now

lemma FirstAny.inactive {now : ℕ} {a x : Entry δ} (h : FirstAny now (pre ++ a :: post))
    (hpre : ∀ y ∈ pre, y.type ≠ ncacheany) (ha : a.type = ncacheany) (hactive : ¬a.active now)
    (hx : x ∈ pre ++ a :: post) (hany : x.type = ncacheany) : ¬x.active now := by
  rcases mem_append.mp hx with hx | hx
  · exact absurd hany (hpre x hx)
  rcases mem_cons.mp hx with rfl | hx
  · exact hactive
  · exact (pairwise_cons.mp (pairwise_append.mp h).2.1).1 x hx ha hany

def Entry.New (h : Entry δ) : Prop := h.nonexistent = false ∧ (h.negative ↔ h.type.base = 0)

lemma addSearch_step (hnew : c.new.New) (hextant : ∀ x ∈ l, x.nonexistent = false)
    (hany : c.new.type ≠ ncacheany)
    (hfirst : c.new.negative = false → ∀ x ∈ l, x.type = ncacheany → ¬x.active c.now)
    {negtype : Typepair} {sigtype : Option Typepair}
    (hneg : negtype = if c.new.negative then ⟨c.new.type.covers, 0⟩ else ⟨0, c.new.type.base⟩)
    (hsig : sigtype = if c.new.negative then some ⟨rrsig, c.new.type.covers⟩ else none) :
    Step c l (addSearch equalx equal c.now (if c.force then ultimate else c.new.trust) c.new negtype
      sigtype l).2 := by
  have hmeets : ∀ x : Entry δ, (!(x.type = c.new.type || x.type = negtype)) ↔ ¬Meets c.new x := by
    intro x
    simp [Meets, hneg]
  unfold addSearch
  simp only
  split
  · next hdrop =>
    rw [addFront, if_neg (by simp [hnew.1])]
    exact .front hany (fun x hx => (hmeets x).mp (dropWhile_eq_nil_iff.mp hdrop x hx)) hfirst
  · next h post hdrop =>
    obtain ⟨hl, hh, hpre⟩ := split_of_dropWhile hdrop
    refine addFound_step hnew.1 (hextant h (by rw [hl]; simp)) hany hl ?_
      (fun x hx => (hmeets x).mp (hpre x hx)) hfirst hsig
    exact not_not.mp fun hnot => by simp [(hmeets h).mpr hnot] at hh

lemma add_step (hnew : c.new.New) (hextant : ∀ x ∈ l, x.nonexistent = false)
    (hfirst : FirstAny c.now l) : Step c l (add equalx equal c l).2 := by
  unfold add
  simp only [hnew.1, Bool.false_eq_true, if_false]
  cases hneg : c.new.negative with
  | true =>
    have hbase := hnew.2.mp hneg
    simp only [if_true]
    split
    · next hcovers =>
      rw [addFront, if_neg (by simp [hnew.1])]
      exact .any (by simp [ncacheany, ← hbase, ← hcovers])
    · next hcovers =>
      refine addSearch_step hnew hextant (fun h => hcovers (by rw [h]; rfl)) (by simp [hneg])
        (by simp [hneg]) (by simp [hneg])
  | false =>
    have hany : c.new.type ≠ ncacheany := fun h => by
      simp [hnew.2.mpr (by rw [h]; rfl)] at hneg
    simp only [Bool.false_eq_true, if_false]
    split
    · next hdrop =>
      refine addSearch_step hnew hextant hany (fun _ x hx h => ?_) (by simp [hneg]) (by simp [hneg])
      simpa [h] using dropWhile_eq_nil_iff.mp hdrop x hx
    · next top post hdrop =>
      obtain ⟨hl, htop, hpre⟩ := split_of_dropWhile hdrop
      replace htop : top.type = ncacheany := by simpa using htop
      replace hpre : ∀ x ∈ l.takeWhile (·.type ≠ ncacheany), x.type ≠ ncacheany := by simpa using hpre
      split
      · next hactive =>
        by_cases htrust : (if c.force then ultimate else c.new.trust) < top.trust
        · rw [if_pos htrust]
          exact .lower (.inl ⟨hneg, top, by rw [hl]; simp, htop, hactive⟩) (forall₂_lowered_refl l)
        · rw [if_neg htrust, addFront, if_neg (by simp [hnew.1])]
          exact .better hneg hl htop hactive hpre
      · next hactive =>
        refine addSearch_step hnew hextant hany (fun _ x hx h => ?_) (by simp [hneg]) (by simp [hneg])
        rw [hl] at hfirst hx
        exact hfirst.inactive hpre htop hactive hx h

end

def Of (type : ℕ) (h : Entry δ) : Prop := h.type = ⟨type, 0⟩ ∨ h.type = ⟨0, type⟩

/-- One header comes before another. If the types are the same, the other one is not active, and if
one of them covers all types they are not both active; for types in `G`. -/
def Clear (G : Typepair → Prop) (now : ℕ) (x y : Entry δ) : Prop :=
  (∀ type, Of type x → Of type y → G y.type → ¬y.active now) ∧
    (x.type = ncacheany ∧ G y.type ∨ y.type = ncacheany ∧ G x.type → ¬(x.active now ∧ y.active now))

section
variable {G : Typepair → Prop} {now now' : ℕ} {c : Addition δ} {l l' : List (Entry δ)}
  {x y x' y' new : Entry δ}

lemma Lowered.active (h : Lowered x x') (hnow : now ≤ now') (hx : x'.active now') :
    x.active now := by
  simp only [Entry.active, Bool.and_eq_true, Bool.not_eq_true', decide_eq_true_eq] at hx ⊢
  exact ⟨h.2.1 ▸ hx.1, hnow.trans_lt (hx.2.trans_le h.2.2)⟩

lemma Clear.lowered (h : Clear G now x y) (hx : Lowered x x') (hy : Lowered y y')
    (hnow : now ≤ now') : Clear G now' x' y' := by
  unfold Clear Of at h ⊢
  rw [hx.1, hy.1]
  exact ⟨fun type hx' hy' hG hactive => h.1 type hx' hy' hG (hy.active hnow hactive),
    fun hany hactive => h.2 hany ⟨hx.active hnow hactive.1, hy.active hnow hactive.2⟩⟩

lemma clear_of_inactive (h : ¬y.active now) : Clear G now x y :=
  ⟨fun _ _ _ _ => h, fun _ hactive => h hactive.2⟩

lemma exists_of_forall₂ (h : l.Forall₂ Lowered l') (hx : x' ∈ l') : ∃ x ∈ l, Lowered x x' := by
  induction h with
  | nil => cases hx
  | @cons a b l l' hab _ ih =>
    rcases mem_cons.mp hx with rfl | hx
    · exact ⟨a, mem_cons_self, hab⟩
    · obtain ⟨x, hmem, hlow⟩ := ih hx
      exact ⟨x, .tail _ hmem, hlow⟩

lemma pairwise_clear_lowered (h : l.Pairwise (Clear G now)) (hlower : l.Forall₂ Lowered l')
    (hnow : now ≤ now') : l'.Pairwise (Clear G now') := by
  induction hlower with
  | nil => exact .nil
  | cons hab hrest ih =>
    obtain ⟨ha, h⟩ := pairwise_cons.mp h
    refine pairwise_cons.mpr ⟨fun y' hy' => ?_, ih h⟩
    obtain ⟨y, hy, hlow⟩ := exists_of_forall₂ hrest hy'
    exact (ha y hy).lowered hab hlow hnow

lemma of_meets (hnew : new.New) {type : ℕ} (hof : Of type new) : Meets new x ↔ Of type x := by
  obtain ⟨⟨base, covers⟩, ttl, trust, nonexistent, negative, slab⟩ := new
  simp only [Entry.New, Of, Meets, Typepair.mk.injEq] at hnew hof ⊢
  cases negative <;> simp_all
  all_goals rcases hof with ⟨rfl, rfl⟩ | ⟨rfl, rfl⟩ <;> simp_all [or_comm]

lemma step_clear (hG : G ncacheany) (hGneg : ∀ type, G type → type.base = 0 → type = ncacheany)
    (hnew : c.new.New) (h : l.Pairwise (Clear G c.now)) (hstep : Step c l l') :
    l'.Pairwise (Clear G c.now) := by
  have hpos : c.new.negative = false → c.new.type ≠ ncacheany := fun hneg heq => by
    simp [hnew.2.mpr (by rw [heq]; rfl)] at hneg
  have halone (hfirst : c.new.negative = false → ∀ x ∈ l, x.type = ncacheany → ¬x.active c.now)
      (hany : c.new.type ≠ ncacheany) (hGn : G c.new.type) :
      ∀ x ∈ l, x.type = ncacheany → ¬x.active c.now :=
    hfirst (by simpa using fun hneg => hany (hGneg _ hGn (hnew.2.mp hneg)))
  cases hstep with
  | lower _ hlower => exact pairwise_clear_lowered h hlower le_rfl
  | any hany =>
    have hexpired : ∀ y ∈ l.map Entry.expire, ¬y.active c.now := by
      intro y hy
      obtain ⟨x, -, rfl⟩ := mem_map.mp hy
      simp
    refine pairwise_cons.mpr ⟨fun y hy => clear_of_inactive (hexpired y hy), ?_⟩
    exact pairwise_of_forall_mem_list fun x _ y hy => clear_of_inactive (hexpired y hy)
  | @better pre post a hneg hl ha hactive hpre =>
    subst hl
    have hlower := lowered_expire pre post a
    refine pairwise_cons.mpr ⟨fun y hy => ?_, pairwise_clear_lowered h hlower le_rfl⟩
    replace h := pairwise_append.mp h
    have hinactive : G y.type → ¬y.active c.now := by
      intro hGy hy'
      rcases mem_append.mp hy with hy | hy
      · exact (h.2.2 y hy a mem_cons_self).2 (.inr ⟨ha, hGy⟩) ⟨hy', hactive⟩
      rcases mem_cons.mp hy with rfl | hy
      · simp at hy'
      · exact ((pairwise_cons.mp h.2.1).1 y hy).2 (.inl ⟨ha, hGy⟩) ⟨hactive, hy'⟩
    refine ⟨fun _ _ _ => hinactive, ?_⟩
    rintro (⟨hany, -⟩ | ⟨hany, -⟩) hboth
    · exact hpos hneg hany
    · exact hinactive (hany ▸ hG) hboth.2
  | @replace pre post hd new' hany hl hmeets hpre hfirst hnew' =>
    refine pairwise_clear_lowered ?_ (forall₂_lowered_expireSig ..) le_rfl
    have halone := halone hfirst hany
    subst hl
    obtain ⟨hpre', htail, hcross⟩ := pairwise_append.mp h
    obtain ⟨hhd, hpost⟩ := pairwise_cons.mp htail
    have hof : ∀ {type}, Of type new' → Of type c.new := fun h => by rwa [Of, hnew'.1] at h
    refine pairwise_append.mpr ⟨hpre', pairwise_cons.mpr ⟨fun y hy => ?_, hpost⟩, ?_⟩
    · refine ⟨fun type hn hy' => (hhd y hy).1 type ((of_meets hnew (hof hn)).mp hmeets) hy', ?_⟩
      rintro (⟨hany', -⟩ | ⟨hany', hGn⟩) hboth
      · exact hany (hnew'.1 ▸ hany')
      · exact halone (hnew'.1 ▸ hGn) y (by simp [hy]) hany' hboth.2
    · intro a ha b hb
      rcases mem_cons.mp hb with rfl | hb
      · refine ⟨fun type ha' hn => absurd ((of_meets hnew (hof hn)).mpr ha') (hpre a ha), ?_⟩
        rintro (⟨hany', hGn⟩ | ⟨hany', -⟩) hboth
        · exact halone (hnew'.1 ▸ hGn) a (by simp [ha]) hany' hboth.1
        · exact hany (hnew'.1 ▸ hany')
      · exact hcross a ha b (.tail _ hb)
  | front hany hnone hfirst =>
    refine pairwise_cons.mpr ⟨fun y hy => ⟨fun type hn hy' => ?_, ?_⟩, h⟩
    · exact absurd ((of_meets hnew hn).mpr hy') (hnone y hy)
    · rintro (⟨hany', -⟩ | ⟨hany', hGn⟩) hboth
      · exact hany hany'
      · exact halone hfirst hany hGn y hy hany' hboth.2

lemma firstAny_of_clear (hG : G ncacheany) (h : l.Pairwise (Clear G now)) : FirstAny now l :=
  h.imp fun hxy hx hy => hxy.1 Rdatatype.any (.inr hx) (.inr hy) (hy ▸ hG)

/-- What holds of the new header and of those in the list, and is not changed where a time is
lowered. -/
lemma Step.forall_mem {P : Entry δ → Prop} (hP : ∀ {x x' : Entry δ}, Lowered x x' → P x → P x')
    (hstep : Step c l l') (hnew : P c.new) (h : ∀ x ∈ l, P x) : ∀ x ∈ l', P x := by
  have hlowered {l l' : List (Entry δ)} (hlower : l.Forall₂ Lowered l') (h : ∀ x ∈ l, P x) :
      ∀ x ∈ l', P x := by
    intro x' hx'
    obtain ⟨x, hx, hlow⟩ := exists_of_forall₂ hlower hx'
    exact hP hlow (h x hx)
  have hexpire (x : Entry δ) : Lowered x x.expire := ⟨rfl, rfl, Nat.zero_le _⟩
  cases hstep with
  | lower _ hlower => exact hlowered hlower h
  | any => simpa using ⟨hnew, fun x hx => hP (hexpire x) (h x hx)⟩
  | @better pre post a _ hl =>
    subst hl
    simp only [mem_append, mem_cons] at h ⊢
    rintro x (rfl | hx | rfl | hx)
    exacts [hnew, h x (.inl hx), hP (hexpire a) (h a (.inr (.inl rfl))), h x (.inr (.inr hx))]
  | replace _ hl _ _ _ hnew' =>
    subst hl
    refine hlowered (forall₂_lowered_expireSig ..) fun x hx => ?_
    rcases mem_append.mp hx with hx | hx
    · exact h x (by simp [hx])
    rcases mem_cons.mp hx with rfl | hx
    exacts [hP hnew' hnew, h x (by simp [hx])]
  | front => simpa using ⟨hnew, h⟩

lemma clear_or_clear (h : l.Pairwise (Clear G now)) (hx : x ∈ l) (hy : y ∈ l) (hne : x ≠ y) :
    Clear G now x y ∨ Clear G now y x := by
  have hor : l.Pairwise fun x y => Clear G now x y ∨ Clear G now y x := h.imp .inl
  have : Std.Symm fun x y : Entry δ => Clear G now x y ∨ Clear G now y x := ⟨fun _ _ => Or.symm⟩
  exact hor.forall hx hy hne

lemma inactive_of_any {a : Entry δ} (h : l.Pairwise (Clear G now)) (ha : a ∈ l)
    (hany : a.type = ncacheany) (hactive : a.active now) (hx : x ∈ l) (hGx : G x.type)
    (hne : x.type ≠ ncacheany) : ¬x.active now := by
  intro hx'
  rcases clear_or_clear h ha hx fun heq => hne (heq ▸ hany) with hclear | hclear
  · exact hclear.2 (.inl ⟨hany, hGx⟩) ⟨hactive, hx'⟩
  · exact hclear.2 (.inr ⟨hany, hGx⟩) ⟨hx', hactive⟩

lemma eq_of_ns (hG : G nsType) (h : l.Pairwise (Clear G now)) (hx : x ∈ l) (hy : y ∈ l)
    (hx' : x.type = nsType) (hy' : y.type = nsType) (hxa : x.active now) (hya : y.active now) :
    x = y := by
  by_contra hne
  rcases clear_or_clear h hx hy hne with hclear | hclear
  · exact hclear.1 ns (.inl hx') (.inl hy') (hy' ▸ hG) hya
  · exact hclear.1 ns (.inl hy') (.inl hx') (hx' ▸ hG) hxa

end

variable (equalx equal : δ → δ → Bool) {calls : List (Addition δ)}

def Timely (calls : List (Addition δ)) : Prop :=
  calls.Pairwise (·.now ≤ ·.now) ∧ ∀ c ∈ calls, c.new.New

variable {c : Addition δ} {p : Entry δ → Bool} {l l' : List (Entry δ)}

lemma Timely.of_append (h : Timely (calls ++ [c])) :
    Timely calls ∧ c.new.New ∧ ∀ c' ∈ calls, c'.now ≤ c.now := by
  obtain ⟨hpre, -, hlast⟩ := pairwise_append.mp h.1
  exact ⟨⟨hpre, fun c' hc' => h.2 c' (by simp [hc'])⟩, h.2 c (by simp),
    fun c' hc' => hlast c' hc' c (by simp)⟩

lemma run_append (calls : List (Addition δ)) (c : Addition δ) :
    run equalx equal (calls ++ [c]) = (add equalx equal c (run equalx equal calls)).2 := by
  simp [run]

section
variable {G : Typepair → Prop} (hG : G ncacheany)
  (hGneg : ∀ type, G type → type.base = 0 → type = ncacheany)
include hG hGneg

lemma run_clear (h : Timely calls) : (∀ x ∈ run equalx equal calls, x.nonexistent = false) ∧
    ∀ now, (∀ c ∈ calls, c.now ≤ now) → (run equalx equal calls).Pairwise (Clear G now) := by
  induction calls using reverseRecOn with
  | nil => simp [run]
  | append_singleton calls c ih =>
    obtain ⟨hcalls, hnew, htimes⟩ := h.of_append
    obtain ⟨hextant, hclear⟩ := ih hcalls
    have hnow := hclear c.now htimes
    have hstep : Step c _ (add equalx equal c _).2 :=
      add_step hnew hextant (firstAny_of_clear hG hnow)
    rw [run_append]
    refine ⟨hstep.forall_mem (fun hlow hx => hlow.2.1.trans hx) hnew.1 hextant, fun now hle => ?_⟩
    exact pairwise_clear_lowered (step_clear hG hGneg hnew hnow hstep)
      (forall₂_lowered_refl _) (hle c (by simp))

lemma run_step (h : Timely (calls ++ [c])) : (run equalx equal calls).Pairwise (Clear G c.now) ∧
    Step c (run equalx equal calls) (run equalx equal (calls ++ [c])) := by
  obtain ⟨hcalls, hnew, htimes⟩ := h.of_append
  obtain ⟨hextant, hclear⟩ := run_clear equalx equal hG hGneg hcalls
  have hnow := hclear c.now htimes
  rw [run_append]
  exact ⟨hnow, add_step hnew hextant (firstAny_of_clear hG hnow)⟩

end

/-- A delegation is in the cache. Another one that is added does not last longer, if the call is not
a forced one. -/
theorem run_ns_ttl_le {c : Addition δ} (h : Timely (calls ++ [c])) (hforce : c.force = false)
    (hns : c.new.type = nsType) {x x' : Entry δ} (hx : x ∈ run equalx equal calls)
    (hxns : x.type = nsType) (hactive : x.active c.now) (hx' : x' ∈ run equalx equal (calls ++ [c]))
    (hxns' : x'.type = nsType) (hactive' : x'.active c.now) : x'.ttl ≤ x.ttl := by
  let G (type : Typepair) : Prop := type = nsType ∨ type = ncacheany
  have hnsany : nsType ≠ ncacheany := by decide
  have hnew := h.of_append.2.1
  -- a negative header is not one of a delegation
  have hGneg : ∀ type, G type → type.base = 0 → type = ncacheany := by
    rintro type (rfl | rfl) hbase
    · simp [nsType, ns] at hbase
    · rfl
  obtain ⟨hclear, hstep⟩ := run_step equalx equal (G := G) (.inr rfl) hGneg h
  generalize run equalx equal calls = l at *
  generalize run equalx equal (calls ++ [c]) = l' at *
  have hmeets : ∀ y : Entry δ, y.type = nsType → Meets c.new y := fun y hy => .inl (hy.trans hns.symm)
  cases hstep with
  | lower _ hlower =>
    obtain ⟨y, hy, hlow⟩ := exists_of_forall₂ hlower hx'
    rw [eq_of_ns (.inl rfl) hclear hx hy hxns (hlow.1.symm.trans hxns') hactive
      (hlow.active le_rfl hactive')]
    exact hlow.2.2
  | any hany => exact absurd (hns.symm.trans hany) hnsany
  | @better pre post a _ hl ha hact =>
    refine absurd hactive (inactive_of_any hclear (a := a) (by simp [hl]) ha hact hx ?_ ?_)
    exacts [.inl hxns, hxns ▸ hnsany]
  | @replace pre post hd new _ hl hmeet hpre _ hlow _ hclamp =>
    obtain ⟨y, hy, hlow'⟩ := exists_of_forall₂ (forall₂_lowered_expireSig ..) hx'
    subst hl
    have hof : Of ns hd := (of_meets hnew (.inl hns)).mp hmeet
    have hpost : ∀ z ∈ post, z.type = nsType → ¬z.active c.now := fun z hz hzns =>
      ((pairwise_cons.mp (pairwise_append.mp hclear).2.1).1 z hz).1 _ hof (.inl hzns)
        (.inl hzns)
    have hxhd : x = hd := by
      rcases mem_append.mp hx with hx | hx
      · exact absurd (hmeets x hxns) (hpre x hx)
      · exact (mem_cons.mp hx).resolve_right fun hx => hpost x hx hxns hactive
    have hynew : y = new := by
      have hyns := hlow'.1.symm.trans hxns'
      rcases mem_append.mp hy with hy | hy
      · exact absurd (hmeets y hyns) (hpre y hy)
      · exact (mem_cons.mp hy).resolve_right fun hy =>
          hpost y hy hyns (hlow'.active le_rfl hactive')
    subst hxhd hynew
    exact hlow'.2.2.trans (hclamp hactive hxns hforce)
  | front _ hnone => exact absurd (hmeets x hxns) (hnone x hx)

theorem run_ns_ttl_le_hundred : (⟨nsType, 100, 5, false, false, 2⟩ : Entry ℕ).ttl ≤
    (⟨nsType, 100, 5, false, false, 1⟩ : Entry ℕ).ttl := by
  have h : Timely ([⟨0, false, ⟨nsType, 100, 5, false, false, 1⟩⟩] ++
      [(⟨10, false, ⟨nsType, 500, 5, false, false, 2⟩⟩ : Addition ℕ)]) := by
    simp [Timely, Entry.New, nsType, ns]
  exact run_ns_ttl_le (· == ·) (· == ·) h rfl rfl (by decide) rfl (by decide) (by decide) rfl
    (by decide)

/-- Headers of these types must not be active together. -/
def Excludes (t u : Typepair) : Prop := t = u ∨ t = ncacheany ∨ u = ncacheany ∨
  t.base ≠ 0 ∧ u = ⟨0, t.base⟩ ∨ u.base ≠ 0 ∧ t = ⟨0, u.base⟩

/-- Of the headers for a type, or for the signatures of one, at most one is active, a header that
covers all types is the only active one, and the order of the list does not matter to a lookup. -/
def Sole (now : ℕ) (l : List (Entry δ)) : Prop :=
  (∀ type covers : ℕ, type ≠ 0 ∨ covers = 0 → (l.filter fun h =>
    h.active now && (h.type = ⟨type, covers⟩ || h.type = ⟨0, type⟩ : Bool)).length ≤ 1) ∧
  (∀ a ∈ l, a.type = ncacheany → a.active now → (l.filter (·.active now)).length ≤ 1) ∧
  ∀ (type covers : ℕ) (l' : List (Entry δ)), type ≠ 0 ∨ covers = 0 → l.Perm l' →
    cacheFindrdataset now type covers l' = cacheFindrdataset now type covers l

/-- A negative header for one type comes in while one that covers all types is active, or one for
signatures while such signatures stay active, or the first header that a new one meets is not active
and another one is. -/
def Slips (c : Addition δ) (l : List (Entry δ)) : Prop :=
  c.new.active c.now ∧ c.new.type ≠ ncacheany ∧
    (c.new.negative ∧ (∃ a ∈ l, a.type = ncacheany ∧ a.active c.now) ∨
      c.new.negative ∧ (∃ x ∈ if l.any (·.type = c.new.type) then expireSig c.new l else l,
        x.type.base ≠ 0 ∧ x.type.base = c.new.type.covers ∧ x.type.covers ≠ 0 ∧ x.active c.now) ∨
      ∃ h, l.find? (Meets c.new ·) = some h ∧ ¬h.active c.now ∧
        ∃ x ∈ l, Meets c.new x ∧ x.type ≠ ncacheany ∧ x.active c.now)

/-- Signatures, and no others, cover a type. -/
def Signed (type : Typepair) : Prop :=
  type.base ≠ 0 → (type.covers ≠ 0 ↔ type.base = Rdatatype.sig ∨ type.base = rrsig)

def Apart (now : ℕ) (x y : Entry δ) : Prop :=
  Excludes x.type y.type → ¬(x.active now ∧ y.active now)

section
variable {now now' : ℕ} {x y : Entry δ} {t u : Typepair} {pre post : List (Entry δ)}

lemma Excludes.symm (h : Excludes t u) : Excludes u t := by
  unfold Excludes at *
  tauto

lemma Apart.symm (h : Apart now x y) : Apart now y x := fun hex hact => h hex.symm hact.symm

lemma apart_of_mem (h : l.Pairwise (Apart now)) (hx : x ∈ l) (hy : y ∈ l) (hne : x.type ≠ y.type) :
    Apart now x y := by
  have : Std.Symm (Apart (δ := δ) now) := ⟨fun _ _ => .symm⟩
  exact h.forall hx hy fun heq => hne (heq ▸ rfl)

lemma pairwise_apart_lowered (h : l.Pairwise (Apart now)) (hlower : l.Forall₂ Lowered l')
    (hnow : now ≤ now') : l'.Pairwise (Apart now') := by
  induction hlower with
  | nil => exact .nil
  | cons hab hrest ih =>
    obtain ⟨ha, h⟩ := pairwise_cons.mp h
    refine pairwise_cons.mpr ⟨fun y' hy' hex hact => ?_, ih h⟩
    obtain ⟨y, hy, hlow⟩ := exists_of_forall₂ hrest hy'
    rw [hab.1, hlow.1] at hex
    exact ha y hy hex ⟨hab.active hnow hact.1, hlow.active hnow hact.2⟩

lemma excludes_iff (hnew : c.new.New) (hany : c.new.type ≠ ncacheany) (hx : x.type ≠ ncacheany) :
    Excludes c.new.type x.type ↔ Meets c.new x ∨ c.new.negative ∧ x.type.base ≠ 0 ∧
      x.type.base = c.new.type.covers ∧ x.type.covers ≠ 0 := by
  obtain ⟨-, hneg⟩ := hnew
  simp only [Excludes, hany, hx, false_or, Meets]
  generalize c.new.type = t at *
  generalize x.type = u at *
  obtain ⟨base, covers⟩ := t
  obtain ⟨base', covers'⟩ := u
  cases hn : c.new.negative <;> simp only [hn, Typepair.mk.injEq] at hneg ⊢ <;> grind

/-- What excludes a header excludes the one that is met. -/
lemma Excludes.of_meets (hnew : c.new.New) (hany : c.new.type ≠ ncacheany) (hmeets : Meets c.new y)
    (hy : Signed y.type) (hx : Signed x.type) (h : Excludes c.new.type x.type) :
    Excludes y.type x.type := by
  by_cases hx' : x.type = ncacheany
  · exact .inr (.inr (.inl hx'))
  replace h := (excludes_iff hnew hany hx').mp h
  obtain ⟨-, hneg⟩ := hnew
  simp only [Meets, Excludes, Signed] at *
  generalize c.new.type = t at *
  generalize x.type = u at *
  generalize y.type = v at *
  obtain ⟨base, covers⟩ := t
  obtain ⟨base', covers'⟩ := u
  obtain ⟨base'', covers''⟩ := v
  cases hn : c.new.negative <;> simp only [hn, Typepair.mk.injEq] at * <;> grind

lemma Meets.ne_sig (hnew : c.new.New) (hneg : c.new.negative) (h : Meets c.new x) :
    x.type ≠ ⟨rrsig, c.new.type.covers⟩ := by
  have hbase := hnew.2.mp hneg
  rintro htype
  rcases h with h | h
  · rw [← h, htype] at hbase
    exact absurd (show rrsig = 0 from hbase) (by decide)
  · rw [if_pos hneg, htype, Typepair.mk.injEq] at h
    exact absurd (h.1.trans h.2) (by decide)

lemma expireSig_middle (hnew : c.new.New) (pre post : List (Entry δ)) : ∃ pre' post',
    ∀ y, Meets c.new y → expireSig c.new (pre ++ y :: post) = pre' ++ y :: post' := by
  unfold expireSig
  split
  · next hneg =>
    obtain ⟨pre', post', heq⟩ := expireLast_middle ⟨rrsig, c.new.type.covers⟩ pre post
    exact ⟨pre', post', fun y hy => heq y (hy.ne_sig hnew hneg)⟩
  · exact ⟨pre, post, fun _ _ => rfl⟩

lemma mem_expireSig (hx : x ∈ l) (hne : c.new.negative → x.type ≠ ⟨rrsig, c.new.type.covers⟩) :
    x ∈ expireSig c.new l := by
  rw [expireSig]
  split
  · next hneg => exact mem_expireLast hx (hne hneg)
  · exact hx

lemma find?_meets (hl : l = pre ++ x :: post) (hmeets : Meets c.new x)
    (hpre : ∀ y ∈ pre, ¬Meets c.new y) : l.find? (Meets c.new ·) = some x :=
  find?_eq_some_iff_append.mpr ⟨by simpa using hmeets, pre, post, hl, by simpa using hpre⟩

/-- A header of signatures that a negative one excludes is met by it only as one of its own type. -/
lemma Meets.type_eq (h : Meets c.new y) (hneg : c.new.negative) (hy : Signed y.type)
    (hx : Signed x.type) (hzero : x.type.base ≠ 0) (hbase : x.type.base = c.new.type.covers)
    (hcovers : x.type.covers ≠ 0) : y.type = c.new.type := by
  refine h.resolve_right fun heq => ?_
  rw [if_pos hneg, ← hbase] at heq
  simp only [heq, Signed] at hy
  exact absurd rfl ((hy hzero).mpr ((hx hzero).mp hcovers))

lemma exists_of_stays {p : Bool} (hx : x ∈ if p then expireSig c.new l else l) :
    ∃ y ∈ l, Lowered y x := by
  split at hx
  · exact exists_of_forall₂ (forall₂_lowered_expireSig c.new l) hx
  · exact ⟨x, hx, .refl x⟩

variable (hsigned : ∀ x ∈ l, Signed x.type) (hnew : c.new.New)
include hnew

/-- An active header that excludes the new one slips, or is met, or is one of signatures. -/
lemma excludes_cases (hany : c.new.type ≠ ncacheany)
    (hfirst : c.new.negative = false → ∀ x ∈ l, x.type = ncacheany → ¬x.active c.now)
    (hactive : c.new.active c.now) (hy : y ∈ l) (hlow : Lowered y x) (hx : x.active c.now)
    (hex : Excludes c.new.type x.type) : Slips c l ∨ x.type ≠ ncacheany ∧ Meets c.new x ∨
      c.new.negative ∧ x.type.base ≠ 0 ∧ x.type.base = c.new.type.covers ∧ x.type.covers ≠ 0 := by
  by_cases hx' : x.type = ncacheany
  · have hy' := hlow.active le_rfl hx
    cases hneg : c.new.negative with
    | false => exact absurd hy' (hfirst hneg y hy (hlow.1.symm.trans hx'))
    | true => exact .inl ⟨hactive, hany, .inl ⟨hneg, y, hy, hlow.1.symm.trans hx', hy'⟩⟩
  · exact .inr (((excludes_iff hnew hany hx').mp hex).imp_left fun h => ⟨hx', h⟩)

include hsigned

lemma step_apart (h : l.Pairwise (Apart c.now)) (hslip : ¬Slips c l) (hstep : Step c l l') :
    l'.Pairwise (Apart c.now) := by
  cases hstep with
  | lower _ hlower => exact pairwise_apart_lowered h hlower le_rfl
  | any hany =>
    refine pairwise_cons.mpr ⟨fun y hy _ hact => ?_, pairwise_apart_lowered h ?_ le_rfl⟩
    · obtain ⟨x, -, rfl⟩ := mem_map.mp hy
      simp at hact
    · exact forall₂_map_right_iff.mpr (forall₂_same.mpr fun x _ => ⟨rfl, rfl, Nat.zero_le _⟩)
  | @better pre post a hneg hl ha hactive hpre =>
    subst hl
    have hlower := lowered_expire pre post a
    refine pairwise_cons.mpr ⟨fun y hy _ hact => ?_, pairwise_apart_lowered h hlower le_rfl⟩
    have hmiddle := (pairwise_cons.mp ((pairwise_middle Apart.symm).mp h)).1
    rcases mem_append.mp hy with hy | hy
    · exact hmiddle y (by simp [hy]) (.inr (.inl ha)) ⟨hactive, hact.2⟩
    rcases mem_cons.mp hy with rfl | hy
    · simp at hact
    · exact hmiddle y (by simp [hy]) (.inr (.inl ha)) ⟨hactive, hact.2⟩
  | @replace pre post hd new' hany hl hmeets hpre hfirst hnew' hsame =>
    have hfind := find?_meets hl hmeets hpre
    obtain ⟨pre', post', heq⟩ := expireSig_middle hnew pre post
    have hold : expireSig c.new l = pre' ++ hd :: post' := hl ▸ heq hd hmeets
    have hlow := forall₂_lowered_expireSig c.new l
    obtain ⟨hhd, hrest⟩ :=
      pairwise_cons.mp ((pairwise_middle Apart.symm).mp (hold ▸ pairwise_apart_lowered h hlow le_rfl))
    rw [heq new' (.inl hnew'.1)]
    refine (pairwise_middle Apart.symm).mpr
      (pairwise_cons.mpr ⟨fun x hx hex hboth => hslip ?_, hrest⟩)
    obtain ⟨hact, hact'⟩ := hboth
    rw [hnew'.1] at hex
    have hmem : x ∈ expireSig c.new l := by
      rw [hold]
      simp only [mem_append, mem_cons] at hx ⊢
      tauto
    obtain ⟨y, hy, hyx⟩ := exists_of_forall₂ hlow hmem
    have hsx : Signed x.type := hyx.1 ▸ hsigned y hy
    have hshd : Signed hd.type := hsigned hd (by simp [hl])
    have hdead : ¬hd.active c.now := fun hact =>
      hhd x hx (hex.of_meets hnew hany hmeets hshd hsx) ⟨hact, hact'⟩
    rcases excludes_cases hnew hany hfirst (hnew'.active le_rfl hact) hy hyx hact' hex with
      hslip | ⟨hne, hx'⟩ | ⟨hneg, hzero, hbase, hcovers⟩
    · exact hslip
    · refine ⟨hnew'.active le_rfl hact, hany, .inr (.inr ⟨hd, hfind, hdead, y, hy, ?_⟩)⟩
      rw [Meets, hyx.1] at hx'
      exact ⟨hx', hyx.1 ▸ hne, hyx.active le_rfl hact'⟩
    · refine ⟨hnew'.active le_rfl hact, hany, .inr (.inl ⟨hneg, x, ?_, hzero, hbase, hcovers, hact'⟩)⟩
      rwa [if_pos]
      exact any_eq_true.mpr ⟨hd, by simp [hl],
        by simpa using hmeets.type_eq hneg hshd hsx hzero hbase hcovers⟩
  | front hany hnone hfirst =>
    refine pairwise_cons.mpr ⟨fun x hx hex hboth => hslip ?_, h⟩
    obtain ⟨hact, hact'⟩ := hboth
    rcases excludes_cases hnew hany hfirst hact hx (.refl x) hact' hex with
      hslip | ⟨-, hx'⟩ | ⟨hneg, hrest⟩
    · exact hslip
    · exact absurd hx' (hnone x hx)
    · refine ⟨hact, hany, .inr (.inl ⟨hneg, x, ?_, hrest.1, hrest.2.1, hrest.2.2, hact'⟩)⟩
      rwa [if_neg]
      simpa using fun y hy heq => hnone y hy (.inl heq)

/-- The header that a new one would replace is not active when it slips in, and none that covers all
types is, if the new one is positive. -/
lemma Slips.inactive (h : l.Pairwise (Apart c.now)) (hslip : Slips c l) :
    (c.new.negative = false → ∀ a ∈ l, a.type = ncacheany → ¬a.active c.now) ∧
      ∀ hd, l.find? (Meets c.new ·) = some hd → ¬hd.active c.now := by
  obtain ⟨-, hany, ⟨hneg, a, ha, ha', hact⟩ | ⟨hneg, x, hx, hzero, hbase, hcovers, hact⟩ |
    ⟨hd, hfind, hdead, x, hx, hmeets, hne, hact⟩⟩ := hslip
  · refine ⟨fun hpos => by simp [hpos] at hneg, fun hd hfind hd' => ?_⟩
    have hne : hd.type ≠ a.type := by
      rw [ha']
      rcases (by simpa using find?_some hfind : Meets c.new hd) with heq | heq
      · exact heq ▸ hany
      · simp [heq, hneg, ncacheany, Rdatatype.any]
    exact apart_of_mem h (mem_of_find?_eq_some hfind) ha hne (.inr (.inr (.inl ha'))) ⟨hd', hact⟩
  · refine ⟨fun hpos => by simp [hpos] at hneg, fun hd hfind hd' => ?_⟩
    obtain ⟨y, hy, hlow⟩ := exists_of_stays hx
    have hmem := mem_of_find?_eq_some hfind
    have htype : hd.type = c.new.type := Meets.type_eq (by simpa using find?_some hfind) hneg
      (hsigned hd hmem) (hlow.1 ▸ hsigned y hy) hzero hbase hcovers
    have hnbase : c.new.type.base = 0 := hnew.2.mp hneg
    rw [hlow.1] at hzero hbase
    refine apart_of_mem h hmem hy (fun heq => hzero ?_) ?_ ⟨hd', hlow.active le_rfl hact⟩
    · rw [← heq, htype, hnbase]
    · refine .inr (.inr (.inr (.inr ⟨hzero, ?_⟩)))
      rw [htype, hbase, ← hnbase]
  · refine ⟨fun _ a ha ha' hact' => ?_, fun hd' hfind' => ?_⟩
    · exact apart_of_mem h ha hx (ha' ▸ hne.symm) (.inr (.inl ha')) ⟨hact', hact⟩
    · rw [hfind] at hfind'
      cases hfind'
      exact hdead

lemma step_slips (h : l.Pairwise (Apart c.now)) (hslip : Slips c l) (hstep : Step c l l') :
    ∃ pre post x, l' = pre ++ c.new :: post ∧ x ∈ pre ++ post ∧ x.active c.now ∧
      Excludes c.new.type x.type := by
  obtain ⟨hpos, hdead⟩ := hslip.inactive hsigned hnew h
  have hexcl {x : Entry δ} (hx : c.new.negative ∧ x.type.base ≠ 0 ∧
      x.type.base = c.new.type.covers ∧ x.type.covers ≠ 0) : Excludes c.new.type x.type := by
    refine .inr (.inr (.inr (.inr ⟨hx.2.1, ?_⟩)))
    rw [hx.2.2.1, ← hnew.2.mp hx.1]
  obtain ⟨-, hany, hcases⟩ := hslip
  cases hstep with
  | lower why =>
    rcases why with ⟨hneg, a, ha, ha', hact⟩ | ⟨hd, hfind, hact⟩
    · exact absurd hact (hpos hneg a ha ha')
    · exact absurd hact (hdead hd hfind)
  | any hany' => exact absurd hany' hany
  | @better pre post a hneg hl ha hact => exact absurd hact (hpos hneg a (by simp [hl]) ha)
  | @replace pre post hd new' _ hl hmeets hpre hfirst hnew' hsame =>
    have hfind := find?_meets hl hmeets hpre
    obtain rfl := hsame (by simpa using hdead hd hfind)
    obtain ⟨pre', post', heq⟩ := expireSig_middle hnew pre post
    have hold : expireSig c.new l = pre' ++ hd :: post' := hl ▸ heq hd hmeets
    have hmem {x : Entry δ} (hx : x ∈ expireSig c.new l) (hne : x ≠ hd) : x ∈ pre' ++ post' := by
      rw [hold] at hx
      simpa [hne] using hx
    rw [heq c.new (.inl rfl)]
    rcases hcases with ⟨hneg, a, ha, ha', hact⟩ | ⟨hneg, x, hx, hzero, hbase, hcovers, hact⟩ |
      ⟨-, -, -, x, hx, hx', hne, hact⟩
    · refine ⟨pre', post', a, rfl, hmem (mem_expireSig ha fun _ => ?_) ?_, hact, .inr (.inr (.inl ha'))⟩
      · rw [ha']
        exact fun heq => absurd (show 0 = rrsig from congrArg Typepair.base heq) (by decide)
      · rintro rfl
        exact hdead _ hfind hact
    · obtain ⟨y, hy, hlow⟩ := exists_of_stays hx
      have hhd : hd ∈ l := by simp [hl]
      have htype := hmeets.type_eq hneg (hsigned hd hhd) (hlow.1 ▸ hsigned y hy) hzero hbase hcovers
      rw [if_pos (any_eq_true.mpr ⟨hd, hhd, by simpa using htype⟩)] at hx
      refine ⟨pre', post', x, rfl, hmem hx ?_, hact, hexcl ⟨hneg, hzero, hbase, hcovers⟩⟩
      rintro rfl
      exact hdead _ hfind hact
    · refine ⟨pre', post', x, rfl, hmem (mem_expireSig hx fun hneg => hx'.ne_sig hnew hneg) ?_, hact, ?_⟩
      · rintro rfl
        exact hdead _ hfind hact
      · exact (excludes_iff hnew hany hne).mpr (.inl hx')
  | front _ hnone hfirst =>
    rcases hcases with ⟨hneg, a, ha, ha', hact⟩ | ⟨hneg, x, hx, hzero, hbase, hcovers, hact⟩ |
      ⟨hd, hfind, -⟩
    · exact ⟨[], l, a, rfl, ha, hact, .inr (.inr (.inl ha'))⟩
    · rw [if_neg (by simpa using fun y hy heq => hnone y hy (.inl heq))] at hx
      exact ⟨[], l, x, rfl, hx, hact, hexcl ⟨hneg, hzero, hbase, hcovers⟩⟩
    · exact absurd (by simpa using find?_some hfind) (hnone hd (mem_of_find?_eq_some hfind))

end

lemma length_filter_le_one (h : l.Pairwise fun x y => p x → ¬p y) : (l.filter p).length ≤ 1 := by
  have hfilter := pairwise_filter.mpr (h.imp fun hxy hx hy => hxy hx hy)
  match l.filter p, hfilter with
  | [], _ => simp
  | [_], _ => simp
  | a :: b :: _, hfilter => simpa using (pairwise_cons.mp hfilter).1 b

lemma eq_of_perm (hperm : l.Perm l')
    (h : (l.filter p).length ≤ 1) : l'.filter p = l.filter p := by
  have hp := hperm.filter p
  match l.filter p, h, hp with
  | [], _, hp => exact nil_perm.mp hp
  | [a], _, hp => exact (singleton_perm.mp hp).symm

lemma not_sole {now : ℕ} {pre post : List (Entry δ)} {x y : Entry δ} (hx : x ∈ pre ++ post)
    (hact : x.active now) (hy : y.active now) (hex : Excludes y.type x.type) :
    ¬Sole now (pre ++ y :: post) := by
  rintro ⟨hone, hany, -⟩
  -- two headers with the same property
  have htwo {p : Entry δ → Bool} (hpy : p y) (hpx : p x) :
      ¬((pre ++ y :: post).filter p).length ≤ 1 := by
    have hpos := length_pos_of_mem (mem_filter.mpr ⟨hx, hpx⟩)
    simp only [filter_append, length_append, filter_cons_of_pos hpy, length_cons] at hpos ⊢
    omega
  have hmem : x ∈ pre ++ y :: post := by
    simp only [mem_append, mem_cons] at hx ⊢
    tauto
  have hclass {type covers : ℕ} (hzero : type ≠ 0 ∨ covers = 0)
      (hpy : y.type = ⟨type, covers⟩ ∨ y.type = ⟨0, type⟩)
      (hpx : x.type = ⟨type, covers⟩ ∨ x.type = ⟨0, type⟩) : False :=
    htwo (by simpa [hy] using hpy) (by simpa [hact] using hpx) (hone type covers hzero)
  rcases hex with heq | hy' | hx' | ⟨hzero, heq⟩ | ⟨hzero, heq⟩
  · by_cases hbase : y.type.base = 0
    · exact hclass (.inr rfl) (.inr (by rw [← hbase])) (.inr (by rw [← heq, ← hbase]))
    · exact hclass (.inl hbase) (.inl rfl) (.inl heq.symm)
  · exact htwo hy hact (hany y (by simp) hy' hy)
  · exact htwo hy hact (hany x hmem hx' hact)
  · exact hclass (.inl hzero) (.inl rfl) (.inr heq)
  · exact hclass (.inl hzero) (.inr heq) (.inl rfl)

lemma sole_of_apart {now : ℕ} (h : l.Pairwise (Apart now)) : Sole now l := by
  -- headers with a property that excludes others with it
  have hone {p : Entry δ → Bool} (hp : ∀ x y, p x → p y → Excludes x.type y.type) :
      (l.filter fun h => h.active now && p h).length ≤ 1 := by
    refine length_filter_le_one (h.imp fun {x y} hxy hx hy => ?_)
    rw [Bool.and_eq_true] at hx hy
    exact hxy (hp x y hx.2 hy.2) ⟨hx.1, hy.1⟩
  have hclass {type covers : ℕ} (hzero : type ≠ 0 ∨ covers = 0) {t u : Typepair}
      (ht : t = ⟨type, covers⟩ ∨ t = ⟨0, type⟩) (hu : u = ⟨type, covers⟩ ∨ u = ⟨0, type⟩) :
      Excludes t u := by
    unfold Excludes
    rcases ht with rfl | rfl <;> rcases hu with rfl | rfl <;> grind
  refine ⟨fun type covers hzero => hone fun x y hx hy => ?_, fun a ha ha' hact => ?_,
    fun type covers l' hzero hperm => ?_⟩
  · exact hclass hzero (by simpa using hx) (by simpa using hy)
  · have htype : ∀ x ∈ l, x.active now → x.type = ncacheany := fun x hx hx' => by_contra fun hne =>
      apart_of_mem h hx ha (ha' ▸ hne) (.inr (.inr (.inl ha'))) ⟨hx', hact⟩
    refine length_filter_le_one (h.imp_of_mem fun hx hy hxy hx' hy' => ?_)
    exact hxy (.inr (.inl (htype _ hx hx'))) ⟨hx', hy'⟩
  · have hfound := eq_of_perm hperm (hone (p := fun h => h.type = ⟨type, covers⟩ || h.type = ncacheany ||
      h.type = ⟨0, type⟩) fun x y hx hy => ?_)
    have hsig := eq_of_perm hperm (hone (p := fun h => covers = 0 && h.type = ⟨rrsig, type⟩)
      fun x y hx hy => ?_)
    · simp only [cacheFindrdataset, filter_filter, Bool.and_comm _ (Entry.active now _), hfound, hsig]
    · simp only [Bool.and_eq_true, decide_eq_true_eq] at hx hy
      exact .inl (hx.2.trans hy.2.symm)
    · simp only [Bool.or_eq_true, decide_eq_true_eq] at hx hy
      by_cases hx' : x.type = ncacheany
      · exact .inr (.inl hx')
      by_cases hy' : y.type = ncacheany
      · exact .inr (.inr (.inl hy'))
      · exact hclass hzero (by tauto) (by tauto)

lemma run_any_step (h : Timely (calls ++ [c])) :
    Step c (run equalx equal calls) (run equalx equal (calls ++ [c])) :=
  (run_step equalx equal (G := (· = ncacheany)) rfl (fun _ h _ => h) h).2

lemma run_signed (hsigned : ∀ c ∈ calls, Signed c.new.type) (h : Timely calls) :
    ∀ x ∈ run equalx equal calls, Signed x.type := by
  induction calls using reverseRecOn with
  | nil => simp [run]
  | append_singleton calls c ih =>
    exact (run_any_step equalx equal h).forall_mem (fun hlow hx => hlow.1 ▸ hx) (hsigned c (by simp))
      (ih (fun c' hc' => hsigned c' (by simp [hc'])) h.of_append.1)

lemma run_apart (h : Timely calls) (hsigned : ∀ c ∈ calls, Signed c.new.type)
    (hslip : ∀ pre c, pre ++ [c] <+: calls → ¬Slips c (run equalx equal pre)) {now : ℕ}
    (hnow : ∀ c ∈ calls, c.now ≤ now) : (run equalx equal calls).Pairwise (Apart now) := by
  induction calls using reverseRecOn generalizing now with
  | nil => simp [run]
  | append_singleton calls c ih =>
    obtain ⟨hcalls, hnew, htimes⟩ := h.of_append
    have hsigned' : ∀ c ∈ calls, Signed c.new.type := fun c' hc' => hsigned c' (by simp [hc'])
    have hapart := ih hcalls hsigned' (fun pre c' hpre => hslip pre c' (hpre.trans (prefix_append ..)))
      htimes
    exact pairwise_apart_lowered (step_apart (run_signed equalx equal hsigned' hcalls) hnew hapart
      (hslip calls c prefix_rfl) (run_any_step equalx equal h)) (forall₂_lowered_refl _)
      (hnow c (by simp))

/-- The headers exclude each other, at all times, if and only if no header slips in. -/
theorem run_sole_iff (h : Timely calls) (hsigned : ∀ c ∈ calls, Signed c.new.type) :
    (∀ pre c, pre ++ [c] <+: calls → ∀ now, c.now ≤ now → Sole now (run equalx equal (pre ++ [c]))) ↔
      ∀ pre c, pre ++ [c] <+: calls → ¬Slips c (run equalx equal pre) := by
  constructor
  · intro hsole
    induction calls using reverseRecOn with
    | nil => simp
    | append_singleton calls c ih =>
      obtain ⟨hcalls, hnew, htimes⟩ := h.of_append
      have hsigned' : ∀ c ∈ calls, Signed c.new.type := fun c' hc' => hsigned c' (by simp [hc'])
      have hslip := ih hcalls hsigned' fun pre c' hpre => hsole pre c' (hpre.trans (prefix_append ..))
      intro pre c' hpre hslips
      rcases prefix_concat_iff.mp hpre with heq | hpre
      · obtain ⟨rfl, hlast⟩ := append_inj' heq rfl
        obtain rfl := singleton_inj.mp hlast
        obtain ⟨pre', post', x, heq, hx, hact, hex⟩ := step_slips
          (run_signed equalx equal hsigned' hcalls) hnew
          (run_apart equalx equal hcalls hsigned' hslip htimes) hslips (run_any_step equalx equal h)
        have hlast := hsole pre c' prefix_rfl c'.now le_rfl
        rw [heq] at hlast
        exact not_sole hx hact hslips.1 hex hlast
      · exact hslip pre c' hpre hslips
  · intro hslip pre c hpre now hnow
    have hcalls : Timely (pre ++ [c]) :=
      ⟨h.1.sublist hpre.sublist, fun c' hc' => h.2 c' (hpre.subset hc')⟩
    refine sole_of_apart (run_apart equalx equal hcalls (fun c' hc' => hsigned c' (hpre.subset hc'))
      (fun pre' c' hpre' => hslip pre' c' (hpre'.trans hpre)) fun c' hc' => ?_)
    rcases mem_append.mp hc' with hc' | hc'
    · exact (hcalls.of_append.2.2 c' hc').trans hnow
    · exact mem_singleton.mp hc' ▸ hnow

/-- An address and its signatures, then that there is no address. -/
def address : Addition ℕ := ⟨0, false, ⟨⟨1, 0⟩, 100, 5, false, false, 1⟩⟩

@[inherit_doc address] def signatures : Addition ℕ := ⟨0, false, ⟨⟨46, 1⟩, 100, 5, false, false, 2⟩⟩

@[inherit_doc address] def noAddress : Addition ℕ := ⟨10, false, ⟨⟨0, 1⟩, 60, 5, false, true, 3⟩⟩

theorem run_sole_iff_address : Sole 20 (run (· == ·) (· == ·) [address, signatures, noAddress]) := by
  have htimely : Timely [address, signatures, noAddress] := by
    simp [Timely, Entry.New, address, signatures, noAddress]
  refine (run_sole_iff (· == ·) (· == ·) htimely ?_).mpr ?_ [address, signatures] noAddress
    prefix_rfl 20 (by decide)
  · simp [Signed, address, signatures, noAddress, rrsig, Rdatatype.sig]
  · intro pre c hpre
    have hcases : pre = [] ∧ c = address ∨ pre = [address] ∧ c = signatures ∨
        pre = [address, signatures] ∧ c = noAddress := by
      rcases pre with _ | ⟨_, _ | ⟨_, _ | ⟨_, _⟩⟩⟩ <;> simp_all [cons_prefix_cons]
    rcases hcases with ⟨rfl, rfl⟩ | ⟨rfl, rfl⟩ | ⟨rfl, rfl⟩
    · simp [Slips, run]
    · rw [show run (· == ·) (· == ·) [address] = [address.new] from rfl]
      simp [Slips, address, signatures, Meets]
    · rw [show run (· == ·) (· == ·) [address, signatures] = [signatures.new, address.new] from rfl]
      simp [Slips, address, signatures, noAddress, Meets, ncacheany]

/-- All types are said not to exist, and then that the type A does not. And there are signatures,
which the type RRSIG is then said not to have; they are added again. -/
theorem run_two_active :
    (∃ x y, run (· == ·) (· == ·) [(⟨0, false, ⟨ncacheany, 100, 5, false, true, 1⟩⟩ : Addition ℕ),
        ⟨10, false, ⟨⟨0, 1⟩, 60, 5, false, true, 2⟩⟩] = [x, y] ∧ x.active 20 ∧ y.active 20 ∧
      y.type = ncacheany ∧ cacheFindrdataset 20 1 0 [x, y] = some (y, none) ∧
      cacheFindrdataset 20 1 0 [y, x] = some (x, none)) ∧
    ∃ x y, run (· == ·) (· == ·) [(⟨0, false, ⟨⟨46, 1⟩, 100, 5, false, false, 1⟩⟩ : Addition ℕ),
        ⟨10, false, ⟨⟨0, 46⟩, 60, 5, false, true, 2⟩⟩,
        ⟨20, false, ⟨⟨46, 1⟩, 200, 5, false, false, 3⟩⟩] = [x, y] ∧ x.active 20 ∧ y.active 20 ∧
      x.type = y.type ∧ x ≠ y :=
  ⟨⟨_, _, rfl, by decide⟩, _, _, rfl, by decide⟩

end LbBind.Rbtdb.Cache

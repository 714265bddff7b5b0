import Mathlib.Data.List.Find
import LbBind.Rbtdb.Node

/-! What a version sees at a node. The view of a version gives for each type the rdataset that a
walk down the chain of the type ends at. A link in the writer's version changes the writer's view at
one type, and rollback and cleaning change no view that is still in use. -/

namespace LbBind.Rbtdb

open List Option Node Change Header Chain

variable {δ : Type*}

def seen (serial : ℕ) (headers : List (Header δ)) : Option (Rdataset δ) :=
  (headers.find? (·.activeIn serial)).bind (·.rdataset)

variable (node : Node δ) (serial : ℕ) {c : Chain δ}

def Node.chain (t : Typepair) : List (Header δ) :=
  ((node.data.find? fun c => c.top.type = t).map Chain.headers).getD []

def Node.view (t : Typepair) : Option (Rdataset δ) :=
  seen serial (node.chain t)

/-- The chains of a node are those of different types, and each goes from newer to
older headers of one type. A version that is to be ignored is so altogether. -/
structure Node.WellFormed (node : Node δ) : Prop where
  types : (node.data.map fun c => c.top.type).Nodup
  nonzero : ∀ c ∈ node.data, c.top.type ≠ Typepair.zero
  down : ∀ c ∈ node.data, ∀ h ∈ c.down, h.type = c.top.type
  sorted : ∀ t, (node.chain t).Pairwise fun h g => g.serial ≤ h.serial
  uniform : ∀ t, ∀ h ∈ node.chain t, ∀ g ∈ node.chain t, h.serial = g.serial → h.ignore = g.ignore

/-- In some chain of the node a header of version `s` stands above one of an older
version, and neither is to be ignored. -/
def Node.Supersedes (s : ℕ) : Prop :=
  ∃ t h g, [h, g].Sublist (node.chain t) ∧ h.ignore = false ∧ g.ignore = false ∧
    h.serial = s ∧ g.serial < s

def answer (view : Typepair → Option (Rdataset δ)) (type covers : ℕ) :
    Result × Option (Rdataset δ) × Option (Rdataset δ) :=
  match view ⟨type, covers⟩ with
  | none => (.notFound, none, none)
  | some rdataset =>
    (.success, some rdataset, if covers = 0 then view ⟨Rdatatype.rrsig, type⟩ else none)

attribute [local simp] nonexistent supersede mergeHeader replaceChain seen

lemma extant_eq_some_iff {serial : ℕ} {h : Header δ} : c.extant serial = some h ↔
      c.headers.find? (·.activeIn serial) = some h ∧ h.rdataset.isSome := by
  simp [extant, filter_eq_some_iff]

lemma seen_eq_extant (c : Chain δ) :
    seen serial c.headers = (c.extant serial).bind (·.rdataset) := by
  unfold seen extant
  cases c.headers.find? (·.activeIn serial) with
  | none => rfl
  | some h =>
    cases hr : h.rdataset <;> simp [filter_some, hr]

namespace Node.WellFormed

variable {node : Node δ}

lemma type_eq (hw : node.WellFormed) (hc : c ∈ node.data) {h : Header δ}
    (hh : h ∈ c.headers) : h.type = c.top.type := by
  rcases mem_cons.mp hh with rfl | hh
  · rfl
  · exact hw.down c hc h hh

lemma find_eq_some_iff (hw : node.WellFormed) {t : Typepair} :
    node.data.find? (fun c => c.top.type = t) = some c ↔ c ∈ node.data ∧ c.top.type = t := by
  constructor
  · intro h
    exact ⟨mem_of_find?_eq_some h, by simpa using find?_some h⟩
  · rintro ⟨hc, rfl⟩
    cases hf : node.data.find? fun d => d.top.type = c.top.type with
    | none => exact absurd (by simp) (find?_eq_none.mp hf c hc)
    | some d =>
      have hd : d.top.type = c.top.type := by simpa using find?_some hf
      rw [inj_on_of_nodup_map hw.types (mem_of_find?_eq_some hf) hc hd]

end Node.WellFormed

def extantOf (serial : ℕ) (t : Typepair) (data : List (Chain δ)) : Option (Header δ) :=
  (data.find? fun c => c.top.type = t).bind (·.extant serial)

lemma extantOf_eq_none {serial : ℕ} {t : Typepair} {data : List (Chain δ)}
    (h : t ∉ data.map fun c => c.top.type) : extantOf serial t data = none := by
  have : data.find? (fun c => c.top.type = t) = none := by
    rw [find?_eq_none]
    intro c hc hct
    exact h (mem_map.mpr ⟨c, hc, of_decide_eq_true hct⟩)
  rw [extantOf, this, bind_none]

lemma findLoop_eq {serial : ℕ} {m s : Typepair} (hms : m ≠ s) (data : List (Chain δ))
    (found foundsig : Option (Header δ)) (htypes : (data.map fun c => c.top.type).Nodup)
    (hdown : ∀ c ∈ data, ∀ h ∈ c.headers, h.type = c.top.type)
    (hfound : found.isSome → m ∉ data.map fun c => c.top.type)
    (hsig : foundsig.isSome → s ∉ data.map fun c => c.top.type) :
    findLoop serial m s data found foundsig =
      (found.or (extantOf serial m data), foundsig.or (extantOf serial s data)) := by
  induction data generalizing found foundsig with
  | nil => simp [findLoop, extantOf]
  | cons c rest ih =>
    rw [map_cons, nodup_cons] at htypes
    simp only [map_cons, mem_cons, not_or] at hfound hsig
    have hskip : ∀ t, c.top.type ≠ t → extantOf serial t (c :: rest) = extantOf serial t rest := by
      intro t ht
      simp [extantOf, ht]
    have hhere : ∀ t, c.top.type = t → extantOf serial t (c :: rest) = c.extant serial := by
      intro t ht
      simp [extantOf, ht]
    have hrest := fun f g => ih f g htypes.2 fun c hc => hdown c (by simp [hc])
    unfold findLoop
    cases hex : c.extant serial with
    | none =>
      have hempty : ∀ t, extantOf serial t (c :: rest) = extantOf serial t rest := by
        intro t
        by_cases ht : c.top.type = t
        · rw [hhere t ht, hex, extantOf_eq_none (ht ▸ htypes.1)]
        · exact hskip t ht
      simp only
      rw [hrest _ _ (fun h => (hfound h).2) fun h => (hsig h).2, hempty, hempty]
    | some header =>
      have htype : header.type = c.top.type :=
        hdown c (by simp) header (mem_of_find?_eq_some (extant_eq_some_iff.mp hex).1)
      simp only [htype]
      by_cases hm : c.top.type = m
      · have hs : c.top.type ≠ s := fun hs => hms (hm.symm.trans hs)
        have hnone : found = none := by
          rw [← not_isSome_iff_eq_none]
          exact fun h => (hfound h).1 hm.symm
        simp only [hm, if_true]
        rw [hhere m hm, hskip s hs, hex, hnone, none_or]
        cases foundsig with
        | some g => rfl
        | none =>
          simp only [isSome_none, Bool.false_eq_true, if_false]
          rw [hrest _ _ (fun _ => hm ▸ htypes.1) (by simp), some_or]
      · simp only [hm, if_false]
        by_cases hs : c.top.type = s
        · have hnone : foundsig = none := by
            rw [← not_isSome_iff_eq_none]
            exact fun h => (hsig h).1 hs.symm
          simp only [hs, if_true]
          rw [hhere s hs, hskip m hm, hex, hnone, none_or]
          cases found with
          | some f => rfl
          | none =>
            simp only [isSome_none, Bool.false_eq_true, if_false]
            rw [hrest _ _ (by simp) (fun _ => hs ▸ htypes.1), some_or]
        · simp only [hs, if_false]
          rw [hrest _ _ (fun h => (hfound h).2) fun h => (hsig h).2, hskip m hm, hskip s hs]

lemma zoneFindrdataset_eq_answer {node : Node δ} (hw : node.WellFormed) (serial type covers : ℕ) :
    zoneFindrdataset node serial type covers = answer (node.view serial) type covers := by
  have hview : ∀ t, node.view serial t = (extantOf serial t node.data).bind (·.rdataset) := by
    intro t
    simp only [view, chain, extantOf]
    cases node.data.find? fun c => c.top.type = t with
    | none => rfl
    | some c => exact seen_eq_extant serial c
  have hsome : ∀ t h, extantOf serial t node.data = some h → h.rdataset.isSome := by
    intro t h hh
    obtain ⟨c, -, hc⟩ := bind_eq_some_iff.mp hh
    exact (extant_eq_some_iff.mp hc).2
  have hzero : extantOf serial Typepair.zero node.data = none := extantOf_eq_none fun h => by
      obtain ⟨c, hc, hct⟩ := mem_map.mp h
      exact hw.nonzero c hc hct
  have hloop : ∀ s, (⟨type, covers⟩ : Typepair) ≠ s →
      findLoop serial ⟨type, covers⟩ s node.data none none =
        (extantOf serial ⟨type, covers⟩ node.data, extantOf serial s node.data) := by
    intro s hs
    rw [findLoop_eq hs _ _ _ hw.types (fun c hc h hh => hw.type_eq hc hh) (by simp) (by simp),
      none_or, none_or]
  have hsig : (if covers = 0 then (⟨Rdatatype.rrsig, type⟩ : Typepair) else .zero) ≠
      ⟨type, covers⟩ := by
    split
    · rintro ⟨⟩
      simp_all [Rdatatype.rrsig]
    · rintro ⟨⟩
      simp_all [Rdatatype.none]
  simp only [zoneFindrdataset, answer, hview, hloop _ hsig.symm]
  cases hm : extantOf serial ⟨type, covers⟩ node.data with
  | none => rfl
  | some h =>
    obtain ⟨r, hr⟩ := isSome_iff_exists.mp (hsome _ h hm)
    by_cases hc : covers = 0
    · simp [hr, hc]
    · simp [hr, hc, hzero]

section
variable {p q : Chain δ → Bool} {c' : Chain δ} {data : List (Chain δ)} {type : Typepair}

lemma replaceChain_congr (h : ∀ c ∈ data, p c = q c) :
    replaceChain p c' data = replaceChain q c' data := by
  induction data with
  | nil => rfl
  | cons c rest ih =>
    simp only [replaceChain, h c (by simp), ih fun d hd => h d (by simp [hd])]

lemma mem_replaceChain (h : c ∈ replaceChain p c' data) : c = c' ∨ c ∈ data := by
  induction data with
  | nil => simp at h
  | cons d rest ih =>
    simp only [replaceChain] at h
    split at h
    · rcases mem_cons.mp h with rfl | h
      · exact .inl rfl
      · exact .inr (by simp [h])
    · rcases mem_cons.mp h with rfl | h
      · exact .inr (by simp)
      · rcases ih h with rfl | h
        · exact .inl rfl
        · exact .inr (by simp [h])

lemma map_type_replaceChain (hc' : c'.top.type = type) :
    (replaceChain (fun c => c.top.type = type) c' data).map (fun c => c.top.type) =
      data.map fun c => c.top.type := by
  induction data with
  | nil => rfl
  | cons c rest ih =>
    simp only [replaceChain]
    split
    · rename_i hc
      simp only [map_cons, hc', of_decide_eq_true hc]
    · simp only [map_cons, ih]

lemma find_replaceChain (hc' : c'.top.type = type) (t : Typepair) :
    (replaceChain (fun c => c.top.type = type) c' data).find? (fun c => c.top.type = t) =
      if t = type then (data.find? fun c => c.top.type = t).map fun _ => c'
      else data.find? fun c => c.top.type = t := by
  induction data with
  | nil => simp
  | cons c rest ih =>
    by_cases hc : c.top.type = type
    · by_cases ht : t = type
      · simp [hc, hc', ht]
      · have : type ≠ t := Ne.symm ht
        simp [hc, hc', ht, this]
    · by_cases hct : c.top.type = t
      · have : t ≠ type := hct ▸ hc
        simp [hct, this]
      · simp [hc, hct, ih]

end

def Node.link (node : Node δ) (h : Header δ) : Node δ × Bool :=
  match node.data.find? fun c => c.top.type = h.type with
  | some c => (node.supersede (fun c => c.top.type = h.type) c h, true)
  | none => ({ node with data := ⟨h, []⟩ :: node.data }, false)

lemma Node.chain_link (node : Node δ) (h : Header δ) (t : Typepair) :
    (node.link h).1.chain t = if t = h.type then h :: node.chain t else node.chain t := by
  unfold link chain
  cases hf : node.data.find? fun c => c.top.type = h.type with
  | some c =>
    simp only [supersede]
    rw [find_replaceChain (show (c.push h).top.type = h.type from rfl)]
    by_cases ht : t = h.type
    · simp [ht, hf, push, headers]
    · simp [ht]
  | none =>
    by_cases ht : t = h.type
    · simp [ht, hf, headers]
    · have : h.type ≠ t := Ne.symm ht
      simp [ht, this]

namespace Node.WellFormed

variable {node : Node δ} {h : Header δ}

lemma link (hw : node.WellFormed) (hzero : h.type ≠ Typepair.zero)
    (hnew : ∀ g ∈ node.chain h.type, g.serial ≤ h.serial)
    (hsame : ∀ g ∈ node.chain h.type, g.serial = h.serial → g.ignore = h.ignore) :
    (node.link h).1.WellFormed := by
  have hsorted : ∀ t, ((node.link h).1.chain t).Pairwise fun h g => g.serial ≤ h.serial := by
    intro t
    rw [chain_link]
    by_cases ht : t = h.type
    · rw [if_pos ht, pairwise_cons]
      exact ⟨ht ▸ hnew, hw.sorted t⟩
    · rw [if_neg ht]
      exact hw.sorted t
  have huniform : ∀ t, ∀ k ∈ (node.link h).1.chain t, ∀ g ∈ (node.link h).1.chain t,
      k.serial = g.serial → k.ignore = g.ignore := by
    intro t k hk g hg hkg
    rw [chain_link] at hk hg
    by_cases ht : t = h.type
    · rw [if_pos ht, mem_cons] at hk hg
      subst ht
      rcases hk with rfl | hk <;> rcases hg with rfl | hg
      · rfl
      · exact (hsame g hg hkg.symm).symm
      · exact hsame k hk hkg
      · exact hw.uniform _ k hk g hg hkg
    · rw [if_neg ht] at hk hg
      exact hw.uniform t k hk g hg hkg
  unfold Node.link at hsorted huniform ⊢
  cases hf : node.data.find? fun c => c.top.type = h.type with
  | some c =>
    simp only [hf] at hsorted huniform
    obtain ⟨hc, hct⟩ := hw.find_eq_some_iff.mp hf
    refine ⟨?_, ?_, ?_, hsorted, huniform⟩
    · simp only [supersede]
      rw [map_type_replaceChain (show (c.push h).top.type = h.type from rfl)]
      exact hw.types
    · intro d hd
      rcases mem_replaceChain hd with rfl | hd
      · exact hzero
      · exact hw.nonzero d hd
    · intro d hd g hg
      rcases mem_replaceChain hd with rfl | hd
      · exact (hw.type_eq hc hg).trans hct
      · exact hw.down d hd g hg
  | none =>
    simp only [hf] at hsorted huniform
    refine ⟨?_, ?_, ?_, hsorted, huniform⟩
    · simp only [map_cons, nodup_cons]
      refine ⟨fun hmem => ?_, hw.types⟩
      obtain ⟨d, hd, hdt⟩ := mem_map.mp hmem
      exact absurd (decide_eq_true hdt) (find?_eq_none.mp hf d hd)
    · simpa using ⟨hzero, hw.nonzero⟩
    · simpa using hw.down

end Node.WellFormed

lemma Node.view_link (node : Node δ) (h : Header δ) (serial : ℕ) (t : Typepair) :
    (node.link h).1.view serial t =
      if t = h.type ∧ h.activeIn serial then h.rdataset else node.view serial t := by
  unfold view
  rw [chain_link]
  by_cases ht : t = h.type
  · by_cases ha : h.activeIn serial = true <;> simp [ht, ha]
  · simp [ht]

lemma Node.supersedes_link {node : Node δ} {h : Header δ} {s : ℕ}
    (hs : (node.link h).1.Supersedes s) : node.Supersedes s ∨ (s = h.serial ∧ (node.link h).2) := by
  obtain ⟨t, h1, g, hsub, hh, hg, hhs, hgs⟩ := hs
  rw [chain_link] at hsub
  by_cases ht : t = h.type
  · rw [if_pos ht] at hsub
    cases hsub with
    | cons _ hsub => exact .inl ⟨t, h1, g, hsub, hh, hg, hhs, hgs⟩
    | cons_cons _ hsub =>
      -- the new header stands above an old one of its type
      refine .inr ⟨hhs.symm, ?_⟩
      have hmem : g ∈ node.chain t := by simpa using hsub
      unfold chain at hmem
      unfold link
      rw [← ht]
      cases hf : node.data.find? fun c => c.top.type = t with
      | none => simp [hf] at hmem
      | some c => rfl
  · rw [if_neg ht] at hsub
    exact .inl ⟨t, h1, g, hsub, hh, hg, hhs, hgs⟩

variable (ops : SlabOps δ) (type : Typepair)

/-- What an addition or a deletion does to the rdataset at a type: it fails, or it
leaves another rdataset or none. -/
def applyAdd (options : AddOptions) (new old : Option (Rdataset δ)) :
    Except Result (Option (Rdataset δ)) :=
  match old, new with
  | none, none => .error .unchanged
  | some old, some new =>
    if options.merge then (mergeRdataset ops type options old new).map some else .ok (some new)
  | none, some new => .ok (some new)
  | some _, none => .ok none

def applySubtract (rdataset : Rdataset δ) (exact memory : Bool) (old : Option (Rdataset δ)) :
    Except Result (Option (Rdataset δ)) :=
  match old with
  | none => .error (if exact then .notExact else .unchanged)
  | some old =>
    if exact && rdataset.ttl ≠ old.ttl then .error .notExact
    else
      match ops.subtract type exact old.slab rdataset.slab with
      | .ok slab => .ok (some { old with slab := slab })
      | .error r =>
        if r = .nxrrset then if memory then .ok none else .error .noMemory else .error r

def Change.Does (node : Node δ) (serial : ℕ) (outcome : Except Result (Option (Rdataset δ)))
    (c : Change δ) : Prop :=
  match outcome with
  | .error r => c = ⟨r, node, false⟩
  | .ok rdataset => (c.node, c.dirty) = node.link ⟨type, serial, false, rdataset⟩

variable {ops type} {node : Node δ} {serial : ℕ}

lemma seen_newest (h : ∀ g ∈ c.headers, g.serial ≤ serial) :
    seen serial c.headers = c.unignored.bind (·.rdataset) := by
  have : ∀ l : List (Header δ), (∀ g ∈ l, g.serial ≤ serial) →
      l.find? (·.activeIn serial) = l.find? fun h => !h.ignore := by
    intro l hl
    induction l with
    | nil => rfl
    | cons g l ih =>
      simp only [find?_cons, activeIn, hl g (by simp), decide_true, Bool.true_and]
      rw [← ih fun k hk => hl k (by simp [hk])]
      rfl
  rw [seen, this _ h, unignored]

lemma Node.link_eq (serial : ℕ)
    (hf : (node.data.find? fun c => c.top.type = type) = some c) (x : Option (Rdataset δ)) :
    node.link ⟨type, serial, false, x⟩ =
      (node.supersede (fun c => c.top.type = type) c ⟨type, serial, false, x⟩, true) := by
  simp only [link, hf]

attribute [local simp] Does

lemma Node.add_does (hw : node.WellFormed) (options : AddOptions) (new : Option (Rdataset δ))
    (hnew : ∀ g ∈ node.chain type, g.serial ≤ serial) :
    (node.add ops ⟨type, serial, false, new⟩ options).Does type node serial
      (applyAdd ops type options new (node.view serial type)) := by
  have hp : ∀ c ∈ node.data, addsTo type c = decide (c.top.type = type) := by
    intro c hc
    simp [addsTo, hw.nonzero c hc]
  unfold add
  simp only [find?_congr hp, supersede, replaceChain_congr hp]
  unfold view chain
  cases hf : node.data.find? fun c => c.top.type = type with
  | none =>
    cases new with
    | none => simp [applyAdd]
    | some new =>
      simp [applyAdd, link, hf]
  | some c =>
    have hcs : ∀ g ∈ c.headers, g.serial ≤ serial := by
      simpa [chain, hf] using hnew
    have hlink := link_eq serial hf
    simp only [map_some, getD_some, seen_newest hcs]
    cases hu : c.unignored with
    | none =>
      cases new with
      | none => simp [applyAdd]
      | some new =>
        simp [applyAdd, hlink]
    | some header =>
      have htype : header.type = type := by
        obtain ⟨hc, hct⟩ := hw.find_eq_some_iff.mp hf
        exact (hw.type_eq hc (mem_of_find?_eq_some hu)).trans hct
      simp only [bind_some]
      cases hr : header.rdataset with
      | none =>
        cases new with
        | none => simp [applyAdd, hr]
        | some new =>
          simp [applyAdd, hr, hlink, replaceChain_congr hp]
      | some old =>
        cases new with
        | none =>
          simp [applyAdd, hr, hlink, replaceChain_congr hp]
        | some new =>
          cases hm : options.merge with
          | false =>
            simp [applyAdd, hr, hm, hlink, replaceChain_congr hp]
          | true =>
            cases hmerge : mergeRdataset ops type options old new with
            | error r =>
              simp [applyAdd, hr, hm, htype, hmerge, Except.map]
            | ok merged =>
              simp [applyAdd, hr, hm, htype, hmerge, Except.map, hlink, replaceChain_congr hp]

lemma Node.subtract_does (hw : node.WellFormed) (rdataset : Rdataset δ) (exact memory : Bool)
    (hnew : ∀ g ∈ node.chain type, g.serial ≤ serial) :
    (node.subtract ops serial type rdataset exact memory).Does type node serial
      (applySubtract ops type rdataset exact memory (node.view serial type)) := by
  unfold subtract view chain
  cases hf : node.data.find? fun c => c.top.type = type with
  | none => simp [applySubtract]
  | some c =>
    have hcs : ∀ g ∈ c.headers, g.serial ≤ serial := by
      simpa [chain, hf] using hnew
    have hlink := link_eq serial hf
    obtain ⟨hc, hct⟩ := hw.find_eq_some_iff.mp hf
    simp only [map_some, getD_some, seen_newest hcs]
    cases hu : c.unignored with
    | none => simp [applySubtract]
    | some header =>
      have htype : header.type = type := (hw.type_eq hc (mem_of_find?_eq_some hu)).trans hct
      simp only [bind_some]
      cases hr : header.rdataset with
      | none => simp [applySubtract]
      | some old =>
        simp only [applySubtract, htype, hct]
        by_cases ht : (exact && decide (rdataset.ttl ≠ old.ttl))
        · simp only [ht, if_true, Does]
        · simp only [ht, Bool.false_eq_true, if_false]
          cases hsub : ops.subtract type exact old.slab rdataset.slab with
          | ok slab => simp [hlink]
          | error r =>
            by_cases hr : r = .nxrrset
            · cases memory <;> simp [hr, hlink]
            · simp [hr]

lemma Node.add_result (node : Node δ) (h : Header δ) (options : AddOptions) :
    (node.add ops h options).node = node ∨ (node.add ops h options).result = .success ∨
      (node.add ops h options).result = .cnameAndOther := by
  have hwarned (node : Node δ) (serial : ℕ) :
      warned node serial = .success ∨ warned node serial = .cnameAndOther := by
    unfold warned
    split <;> simp
  unfold add
  repeat' split
  all_goals first | exact .inl rfl | exact .inr (hwarned _ _)

lemma Node.subtract_result (node : Node δ) (serial : ℕ) (type : Typepair) (rdataset : Rdataset δ)
    (exact memory : Bool) : (node.subtract ops serial type rdataset exact memory).node = node ∨
      (node.subtract ops serial type rdataset exact memory).result = .success ∨
      (node.subtract ops serial type rdataset exact memory).result = .nxrrset := by
  unfold subtract
  repeat' split
  all_goals first | exact .inl rfl | exact .inr (.inl rfl) | exact .inr (.inr rfl)

end LbBind.Rbtdb

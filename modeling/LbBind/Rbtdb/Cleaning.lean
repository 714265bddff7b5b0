import Mathlib.Data.List.TakeWhile
import LbBind.Rbtdb.View

/-! Rollback and cleaning of a node. A rolled back version disappears from the views
of the versions before it, which never saw it. Cleaning a node removes headers that
are covered by newer ones; it keeps the views of the versions that see all headers
which cover older ones. -/

namespace LbBind.Rbtdb

open List Function Option Chain Node Header

variable {δ : Type*} {node : Node δ}

variable (serial : ℕ)

@[simp] lemma marked_type (h : Header δ) : (marked serial h).type = h.type := by
  unfold marked
  split <;> rfl

@[simp] lemma marked_serial (h : Header δ) : (marked serial h).serial = h.serial := by
  unfold marked
  split <;> rfl

variable {serial s : ℕ}

lemma marked_ignore {h : Header δ} (hi : (marked serial h).ignore = false) :
    h.serial ≠ serial ∧ marked serial h = h := by
  by_cases hs : h.serial = serial
  · simp [marked, hs] at hi
  · exact ⟨hs, by simp [marked, hs]⟩

lemma chain_rollbackNode (t : Typepair) :
    (rollbackNode node serial).chain t = (node.chain t).map (marked serial) := by
  unfold chain rollbackNode
  simp only [find?_map, comp_def, marked_type]
  cases node.data.find? fun c => c.top.type = t <;> rfl

lemma seen_map_marked (hs : s < serial) (l : List (Header δ)) :
    seen s (l.map (marked serial)) = seen s l := by
  have hactive : ∀ h : Header δ, (marked serial h).activeIn s = h.activeIn s := by
    intro h
    by_cases hh : h.serial = serial
    · have : ¬serial ≤ s := by omega
      simp [marked, hh, activeIn, this]
    · simp [marked, hh]
  have hrdataset : ∀ h : Header δ, (marked serial h).rdataset = h.rdataset := by
    intro h
    unfold marked
    split <;> rfl
  simp only [seen, find?_map, comp_def, hactive]
  cases l.find? (·.activeIn s) with
  | none => rfl
  | some h => exact hrdataset h

lemma view_rollbackNode (hs : s < serial) (t : Typepair) :
    (rollbackNode node serial).view s t = node.view s t := by
  rw [view, chain_rollbackNode, seen_map_marked hs, view]

lemma supersedes_rollbackNode (h : (rollbackNode node serial).Supersedes s) :
    node.Supersedes s ∧ s ≠ serial := by
  obtain ⟨t, h1, g, hsub, hh, hg, hhs, hgs⟩ := h
  rw [chain_rollbackNode, sublist_map_iff] at hsub
  obtain ⟨l, hsub, hl⟩ := hsub
  obtain ⟨a, b, rfl, rfl, rfl⟩ : ∃ a b, l = [a, b] ∧ h1 = marked serial a ∧
      g = marked serial b := by
    match l, hl with
    | [a, b], hl => simpa using hl
  obtain ⟨ha, hae⟩ := marked_ignore hh
  obtain ⟨-, hbe⟩ := marked_ignore hg
  rw [hae] at hh hhs
  rw [hbe] at hg hgs
  exact ⟨⟨t, a, b, hsub, hh, hg, hhs, hgs⟩, by omega⟩

lemma Node.WellFormed.rollbackNode (hw : node.WellFormed) (serial : ℕ) :
    (rollbackNode node serial).WellFormed := by
  constructor
  · simpa [Rbtdb.rollbackNode, comp_def] using hw.types
  · simpa [Rbtdb.rollbackNode] using hw.nonzero
  · simpa [Rbtdb.rollbackNode] using hw.down
  · intro t
    rw [chain_rollbackNode, pairwise_map]
    simpa using hw.sorted t
  · intro t h hh g hg hs
    rw [chain_rollbackNode] at hh hg
    obtain ⟨a, ha, rfl⟩ := mem_map.mp hh
    obtain ⟨b, hb, rfl⟩ := mem_map.mp hg
    simp only [marked_serial] at hs
    have := hw.uniform t a ha b hb hs
    by_cases hsa : a.serial = serial <;> simp [marked, hsa, ← hs, this]

section
variable {s leastSerial : ℕ} {top : Header δ} {down : List (Header δ)}

lemma seen_cons (s : ℕ) (h : Header δ) (l : List (Header δ)) :
    seen s (h :: l) = if h.activeIn s then h.rdataset else seen s l := by
  by_cases ha : h.activeIn s = true <;> simp [seen, ha]

lemma cleanDuplicates_sublist (top : Header δ) (down : List (Header δ)) :
    (cleanDuplicates top down).Sublist down := by
  induction down generalizing top with
  | nil => exact .refl _
  | cons d rest ih =>
    simp only [cleanDuplicates]
    split
    · exact (ih top).cons d
    · exact (ih d).cons_cons d

lemma ignore_of_mem_cleanDuplicates {g : Header δ} (h : g ∈ cleanDuplicates top down) :
    g.ignore = false := by
  induction down generalizing top with
  | nil => simp [cleanDuplicates] at h
  | cons d rest ih =>
    simp only [cleanDuplicates] at h
    split at h
    · exact ih h
    · rename_i hd
      rcases mem_cons.mp h with rfl | h
      · simp only [Bool.or_eq_true, decide_eq_true_eq, not_or] at hd
        simpa using hd.2
      · exact ih h

lemma seen_cleanDuplicates
    (huniform : ∀ h ∈ top :: down, ∀ g ∈ top :: down, h.serial = g.serial → h.ignore = g.ignore) :
    seen s (top :: cleanDuplicates top down) = seen s (top :: down) := by
  induction down generalizing top with
  | nil => rfl
  | cons d rest ih =>
    simp only [cleanDuplicates]
    split
    · rename_i hd
      rw [ih fun h hh g hg => huniform h (by simp at hh ⊢; tauto) g (by simp at hg ⊢; tauto),
        seen_cons, seen_cons _ top, seen_cons _ d]
      by_cases ht : top.activeIn s
      · simp [ht]
      · have hda : d.activeIn s = false := by
          simp only [Bool.or_eq_true, decide_eq_true_eq] at hd
          rcases hd with hd | hd
          · have := huniform d (by simp) top (by simp) hd
            simpa [activeIn, hd, this] using ht
          · simp [activeIn, hd]
        simp [ht, hda]
    · rw [seen_cons, seen_cons _ top, ih fun h hh g hg =>
        huniform h (.tail _ hh) g (.tail _ hg)]

/-- What remains of a list of headers, as `clean_zone_node` leaves it. -/
def cleaned (leastSerial : ℕ) (c : Chain δ) : List (Header δ) :=
  ((cleanChain leastSerial c).map headers).getD []

lemma headers_pullUp (c : Chain δ) :
    ((pullUp c).map headers).getD [] = if c.top.ignore then c.down else c.headers := by
  unfold pullUp
  cases hi : c.top.ignore with
  | false => simp
  | true =>
    cases hd : c.down with
    | nil => simp
    | cons d rest => simp [headers]

variable {c : Chain δ}

lemma pullUp_eq_some {current : Chain δ}
    (h : pullUp ⟨c.top, cleanDuplicates c.top c.down⟩ = some current) :
    current.headers.Sublist c.headers ∧ ∀ g ∈ current.headers, g.ignore = false := by
  have hdup := (cleanDuplicates_sublist c.top c.down).cons_cons c.top
  have hpull := headers_pullUp ⟨c.top, cleanDuplicates c.top c.down⟩
  rw [h] at hpull
  simp only [map_some, getD_some, headers] at hpull
  by_cases hi : c.top.ignore
  · rw [if_pos hi] at hpull
    simp only [headers, hpull]
    exact ⟨(sublist_cons_self _ _).trans hdup, fun g => ignore_of_mem_cleanDuplicates⟩
  · rw [if_neg hi] at hpull
    simp only [headers, hpull]
    refine ⟨hdup, fun g hg => ?_⟩
    rcases mem_cons.mp hg with rfl | hg
    · simpa using hi
    · exact ignore_of_mem_cleanDuplicates hg

lemma seen_pullUp
    (huniform : ∀ h ∈ c.headers, ∀ g ∈ c.headers, h.serial = g.serial → h.ignore = g.ignore) :
    seen s (((pullUp ⟨c.top, cleanDuplicates c.top c.down⟩).map headers).getD []) =
      seen s c.headers := by
  have hdup : seen s (c.top :: cleanDuplicates c.top c.down) = seen s c.headers :=
    seen_cleanDuplicates huniform
  rw [headers_pullUp, ← hdup]
  by_cases hi : c.top.ignore
  · rw [if_pos hi, seen_cons, if_neg (by simp [activeIn, hi])]
  · rw [if_neg hi]
    rfl

lemma cleaned_sublist (leastSerial : ℕ) (c : Chain δ) :
    (cleaned leastSerial c).Sublist c.headers := by
  unfold cleaned cleanChain
  cases hp : pullUp ⟨c.top, cleanDuplicates c.top c.down⟩ with
  | none => simp
  | some current =>
    simp only [bind_some]
    split
    · simp
    · exact ((takeWhile_sublist _).cons_cons current.top).trans (pullUp_eq_some hp).1

lemma seen_cleaned (hs : leastSerial ≤ s)
    (huniform : ∀ h ∈ c.headers, ∀ g ∈ c.headers, h.serial = g.serial → h.ignore = g.ignore)
    (hcover : ∀ h g, [h, g].Sublist c.headers → h.ignore = false → g.ignore = false →
      g.serial < h.serial → h.serial ≤ s) : seen s (cleaned leastSerial c) = seen s c.headers := by
  rw [← seen_pullUp huniform]
  unfold cleaned cleanChain
  cases hp : pullUp ⟨c.top, cleanDuplicates c.top c.down⟩ with
  | none => rfl
  | some current =>
    obtain ⟨hsub, hi⟩ := pullUp_eq_some hp
    -- the top header is seen, or nothing below it is cut off
    have hcut : seen s (current.top :: current.down.takeWhile fun d => !(d.serial < leastSerial)) =
        seen s current.headers := by
      rw [headers, seen_cons, seen_cons _ current.top]
      by_cases htop : current.top.activeIn s
      · simp [htop]
      · have hall : ∀ d ∈ current.down, (!decide (d.serial < leastSerial)) := by
          intro d hd
          by_contra hlt
          simp only [Bool.not_eq_true', decide_eq_false_iff_not, not_not] at hlt
          have hpair : [current.top, d].Sublist c.headers :=
            ((singleton_sublist.mpr hd).cons_cons current.top).trans hsub
          have htopi : current.top.ignore = false := hi _ (by simp [headers])
          simp only [activeIn, htopi, Bool.not_false, Bool.and_true, decide_eq_true_eq] at htop
          have := hcover _ _ hpair htopi (hi d (by simp [headers, hd])) (by omega)
          omega
        rw [takeWhile_eq_self_iff.mpr hall]
    simp only [bind_some, map_some, getD_some]
    rw [← hcut]
    split
    · rename_i hnone
      simp only [Bool.and_eq_true, decide_eq_true_eq] at hnone
      rw [hnone.1, seen_cons]
      have : current.top.rdataset = none := by simpa [nonexistent] using hnone.2
      simp [this, seen]
    · rfl

end

variable {leastSerial : ℕ}

lemma cleanChain_type (hw : node.WellFormed) {c : Chain δ} (hc : c ∈ node.data) (c' : Chain δ)
    (h : cleanChain leastSerial c = some c') : c'.top.type = c.top.type := by
  have hsub := cleaned_sublist leastSerial c
  rw [cleaned, h] at hsub
  exact hw.type_eq hc (hsub.subset (by simp [headers]))

variable {f : Chain δ → Option (Chain δ)} {data : List (Chain δ)} {s : ℕ}

section
variable (hf : ∀ c ∈ data, ∀ c', f c = some c' → c'.top.type = c.top.type)
include hf

lemma find_filterMap {t : Typepair}
    (hnodup : (data.map fun c => c.top.type).Nodup) :
    (data.filterMap f).find? (fun c => c.top.type = t) =
      (data.find? fun c => c.top.type = t).bind f := by
  induction data with
  | nil => rfl
  | cons c rest ih =>
    rw [map_cons, nodup_cons] at hnodup
    have ih := ih (fun d hd => hf d (by simp [hd])) hnodup.2
    by_cases ht : c.top.type = t
    · cases hfc : f c with
      | none =>
        have hnone : rest.find? (fun c => c.top.type = t) = none := by
          rw [find?_eq_none]
          intro d hd hdt
          exact hnodup.1 (mem_map.mpr ⟨d, hd, (of_decide_eq_true hdt).trans ht.symm⟩)
        simp [hfc, ht, ih, hnone]
      | some c' =>
        have := (hf c (by simp) c' hfc).trans ht
        simp [hfc, ht, this]
    · cases hfc : f c with
      | none => simp [hfc, ht, ih]
      | some c' =>
        have : c'.top.type ≠ t := by rwa [hf c (by simp) c' hfc]
        simp [hfc, ht, this, ih]

lemma map_type_filterMap_sublist :
    ((data.filterMap f).map fun c => c.top.type).Sublist (data.map fun c => c.top.type) := by
  induction data with
  | nil => exact .refl _
  | cons c rest ih =>
    have ih := ih fun d hd => hf d (by simp [hd])
    cases hfc : f c with
    | none =>
      rw [filterMap_cons_none hfc]
      exact ih.cons _
    | some c' =>
      rw [filterMap_cons_some hfc, map_cons, map_cons, hf c (by simp) c' hfc]
      exact ih.cons_cons _

end

section
variable (hw : node.WellFormed)
include hw

lemma chain_cleanZoneNode (leastSerial : ℕ) (t : Typepair) :
    (cleanZoneNode node leastSerial).chain t =
      ((node.data.find? fun c => c.top.type = t).map (cleaned leastSerial)).getD [] := by
  simp only [chain, cleanZoneNode]
  rw [find_filterMap (fun c hc => cleanChain_type hw hc) hw.types]
  cases node.data.find? fun c => c.top.type = t <;> rfl

lemma chain_cleanZoneNode_sublist (leastSerial : ℕ) (t : Typepair) :
    ((cleanZoneNode node leastSerial).chain t).Sublist (node.chain t) := by
  rw [chain_cleanZoneNode hw, chain]
  cases node.data.find? fun c => c.top.type = t with
  | none => exact .refl _
  | some c => exact cleaned_sublist leastSerial c

lemma Node.WellFormed.cleanZoneNode (leastSerial : ℕ) :
    (cleanZoneNode node leastSerial).WellFormed := by
  have hmem : ∀ c' ∈ (Rbtdb.cleanZoneNode node leastSerial).data, ∃ c ∈ node.data,
      c'.top.type = c.top.type ∧ c'.headers.Sublist c.headers := by
    intro c' hc'
    obtain ⟨c, hc, hclean⟩ := mem_filterMap.mp hc'
    have hsub := cleaned_sublist leastSerial c
    rw [cleaned, hclean] at hsub
    exact ⟨c, hc, cleanChain_type hw hc c' hclean, hsub⟩
  have hsub := chain_cleanZoneNode_sublist hw leastSerial
  constructor
  · exact hw.types.sublist (map_type_filterMap_sublist fun c hc => cleanChain_type hw hc)
  · intro c' hc'
    obtain ⟨c, hc, htype, -⟩ := hmem c' hc'
    exact htype ▸ hw.nonzero c hc
  · intro c' hc' h hh
    obtain ⟨c, hc, htype, hsub⟩ := hmem c' hc'
    rw [htype]
    exact hw.type_eq hc (hsub.subset (.tail _ hh))
  · exact fun t => (hw.sorted t).sublist (hsub t)
  · exact fun t h hh g hg => hw.uniform t h ((hsub t).subset hh) g ((hsub t).subset hg)

lemma view_cleanZoneNode (hs : leastSerial ≤ s) (hcover : ∀ s', node.Supersedes s' → s' ≤ s)
    (t : Typepair) : (cleanZoneNode node leastSerial).view s t = node.view s t := by
  have huniform := hw.uniform t
  have hcover : ∀ h g, [h, g].Sublist (node.chain t) → h.ignore = false → g.ignore = false →
      g.serial < h.serial → h.serial ≤ s :=
    fun h g hsub hh hg hlt => hcover _ ⟨t, h, g, hsub, hh, hg, rfl, hlt⟩
  rw [view, view, chain_cleanZoneNode hw]
  unfold chain at huniform hcover ⊢
  cases hf : node.data.find? fun c => c.top.type = t with
  | none => rfl
  | some c =>
    rw [hf] at huniform hcover
    exact seen_cleaned hs huniform hcover

lemma Node.WellFormed.referenced (k : ℕ) : ({ node with references := k } : Node δ).WellFormed :=
  ⟨hw.types, hw.nonzero, hw.down, hw.sorted, hw.uniform⟩

lemma Node.WellFormed.decrementReference (leastSerial : ℕ) :
    (decrementReference node leastSerial).WellFormed := by
  have hw' := hw.referenced (node.references - 1)
  unfold Rbtdb.decrementReference
  dsimp only
  split
  · exact hw'.cleanZoneNode leastSerial
  · exact hw'

end

lemma references_decrementReference (node : Node δ) (leastSerial : ℕ) :
    (decrementReference node leastSerial).references = node.references - 1 := by
  unfold decrementReference
  dsimp only
  split <;> rfl

lemma chain_decrementReference_sublist (hw : node.WellFormed) (leastSerial : ℕ) (t : Typepair) :
    ((decrementReference node leastSerial).chain t).Sublist (node.chain t) := by
  have hw' := hw.referenced (node.references - 1)
  unfold decrementReference
  dsimp only
  split
  · exact chain_cleanZoneNode_sublist hw' leastSerial t
  · exact .refl _

/-- The end of a reference keeps the view of a version, if either somebody else holds a
reference or the version sees all headers that cover older ones. -/
lemma view_decrementReference (hw : node.WellFormed) (hs : leastSerial ≤ s)
    (hcover : node.references ≤ 1 → ∀ s', node.Supersedes s' → s' ≤ s) (t : Typepair) :
    (decrementReference node leastSerial).view s t = node.view s t := by
  have hw' := hw.referenced (node.references - 1)
  unfold decrementReference
  dsimp only
  split
  · rename_i hzero
    simp only [Bool.and_eq_true, decide_eq_true_eq] at hzero
    exact view_cleanZoneNode hw' hs (hcover (by omega)) t
  · rfl

lemma Node.Supersedes.of_sublist {node' : Node δ} (h : node'.Supersedes s)
    (hsub : ∀ t, (node'.chain t).Sublist (node.chain t)) : node.Supersedes s := by
  obtain ⟨t, h, g, hhg, hrest⟩ := h
  exact ⟨t, h, g, hhg.trans (hsub t), hrest⟩

end LbBind.Rbtdb

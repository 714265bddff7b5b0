import LbBind.Rbt.Walk

/-! The tree of trees as a map from names to data: `dns_rbt_addname`, `dns_rbt_findname` and
`dns_rbt_deletename` without recursion. Through these calls a node without data is not seen, so it
makes no difference how the names are spread over the levels. -/

namespace LbBind.Rbt

open List Levels

variable {δ : Type*} (bal : Balancer (List ℕ) δ) (t : Levels (List ℕ) δ) (name : Name)

/-- `dns_rbt_addname`: a node that has no data counts as new. -/
def Levels.addname (data : Option δ) : Result × Levels (List ℕ) δ :=
  let (result, t') := t.addnode bal name.key
  if result = .success ∨ result = .exists ∧ (t'.findnode name.key).1 ≠ .success then
    (.success, t'.setData bal name.key data)
  else (result, t')

def Levels.findname : Result × Option (List (List ℕ) × δ) := match t.findnode name.key with
  | (result, some found) => (result, some found)
  | (_, none) => (.notFound, none)

def Levels.deletename : Result × Levels (List ℕ) δ := match t.findnode name.key with
  | (.success, some _) => (.success, t.deletenode bal name.key)
  | (.success, none) | (.partialMatch, _) => (.notFound, t)
  | (result, _) => (result, t)

inductive Call (δ : Type*)
  | add (bal : Balancer (List ℕ) δ) (name : Name) (habs : name.absolute) (data : Option δ)
  | delete (bal : Balancer (List ℕ) δ) (name : Name) (habs : name.absolute)

def Call.run (t : Levels (List ℕ) δ) : Call δ → Result × Levels (List ℕ) δ
  | add bal name _ data => t.addname bal name data
  | delete bal name _ => t.deletename bal name

abbrev Map (δ : Type*) := List (List ℕ) → Option δ

/-- What a call does to a map. -/
def Call.apply (m : Map δ) : Call δ → Result × Map δ
  | add _ name _ data =>
    if m name.key = none then (.success, Function.update m name.key data) else (.exists, m)
  | delete _ name _ =>
    if m name.key = none then (.notFound, m) else (.success, Function.update m name.key none)

/-- The data of the longest name at or above `key` that has some. -/
inductive Closest (m : Map δ) (key : List (List ℕ)) : Result × Option (List (List ℕ) × δ) → Prop
  | exact (v : δ) (hold : m key = some v) : Closest m key (.success, some (key, v))
  | above (hkey : m key = none) (k : List (List ℕ)) (v : δ) (hold : m k = some v) (hk : k <+: key)
      (hlongest : ∀ k', m k' ≠ none → k' <+: key → k' <+: k) :
      Closest m key (.partialMatch, some (k, v))
  | none (hnone : ∀ k, k <+: key → m k = none) : Closest m key (.notFound, none)

structure Shows (t : Levels (List ℕ) δ) (m : Map δ) : Prop where
  good : t.Good
  data : ∀ k v, t.Holds k (some v) ↔ m k = some v

variable {t name} {m : Map δ}

lemma Shows.closest (h : Shows t m) (habs : name.absolute) :
    Closest m name.key (t.findnode name.key) := by
  have spec := findnode_spec h.good (key_ne_nil habs)
  generalize t.findnode name.key = answer at spec ⊢
  cases spec with
  | held k v hold hk hdeepest =>
    rw [h.data] at hold
    have hlongest (k') (hk' : m k' ≠ none) (hpre : k' <+: name.key) : k' <+: k := by
      obtain ⟨v', hv'⟩ := Option.ne_none_iff_exists'.mp hk'
      exact hdeepest k' v' ((h.data k' v').mpr hv') hpre
    split_ifs with heq
    · subst heq
      exact .exact v hold
    · refine .above (by_contra fun hkey => heq ?_) k v hold hk hlongest
      exact hk.eq_of_length_le (hlongest _ hkey (prefix_refl _)).length_le
  | none hnone =>
    refine .none fun k hk => Option.eq_none_iff_forall_ne_some.mpr fun v hv => ?_
    exact hnone k v ((h.data k v).mpr hv) hk

lemma Shows.update (h : Shows t m) {t' : Levels (List ℕ) δ} {data : Option δ}
    (spec : AlterSpec t name.key data t') : Shows t' (Function.update m name.key data) := by
  refine ⟨spec.good, fun k v => ?_⟩
  rw [spec.data, h.data, Function.update_apply]
  split_ifs with hk <;> simp [hk]

/-- A call does to a tree what it does to the map that the tree shows. -/
lemma Shows.run (h : Shows t m) (c : Call δ) :
    (c.run t).1 = (c.apply m).1 ∧ Shows (c.run t).2 (c.apply m).2 := by
  cases c with
  | add bal name habs data =>
    have spec := addnode_spec bal h.good (key_ne_nil habs)
    have hadded : Shows (t.addnode bal name.key).2 m :=
      ⟨spec.good, fun k v => (spec.data k v).trans (h.data k v)⟩
    obtain ⟨d, hold⟩ := spec.mem
    have hset : Shows _ (Function.update m name.key data) :=
      hadded.update (setData_spec bal spec.good hold)
    have hclosest := hadded.closest habs
    simp only [Call.run, addname, Call.apply]
    generalize (t.addnode bal name.key).2.findnode name.key = answer at hclosest ⊢
    rcases spec.result with ⟨hexists, -⟩ | ⟨hsuccess, hnot⟩
    · cases hclosest <;> simp_all
    · have hm : m name.key = none := Option.eq_none_iff_forall_ne_some.mpr fun v hv =>
        hnot _ ((h.data _ v).mpr hv)
      simpa [hsuccess, hm] using hset
  | delete bal name habs =>
    have hclosest := h.closest habs
    simp only [Call.run, deletename, Call.apply]
    generalize t.findnode name.key = answer at hclosest ⊢
    cases hclosest with
    | exact v hold =>
      simpa [hold] using h.update (deletenode_spec bal h.good ((h.data _ v).mpr hold))
    | above hkey => simpa [hkey] using h
    | none hnone => simpa [hnone] using h

/-- After any calls the next one returns what it returns for the map, and a lookup finds the
closest name of the map. -/
theorem run_shows (calls : List (Call δ)) :
    let t : Levels (List ℕ) δ := calls.foldl (fun t c => (c.run t).2) .nil
    let m : Map δ := calls.foldl (fun m c => (c.apply m).2) fun _ => none
    (∀ c : Call δ, (c.run t).1 = (c.apply m).1) ∧
      ∀ name : {name : Name // name.absolute}, Closest m name.1.key (t.findname name.1) := by
  intro t m
  have hshows : Shows t m :=
    foldl_rel ⟨good_nil, fun k v => by simp [Holds]⟩ fun c _ t m h => (h.run c).2
  refine ⟨fun c => (hshows.run c).1, fun name => ?_⟩
  have hclosest := hshows.closest name.2
  rw [findname]
  generalize t.findnode name.1.key = answer at hclosest ⊢
  cases hclosest with
  | exact v hold => exact .exact v hold
  | above hkey k v hold hk hlongest => exact .above hkey k v hold hk hlongest
  | none hnone => exact .none hnone

end LbBind.Rbt

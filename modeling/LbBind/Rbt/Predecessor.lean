import LbBind.Rbt.Walk

/-! `dns_rbt_findnode` with a chain. A search that finds no node leaves the chain at the last node
before the name in the order of the full names. On each level the search splits the list of the
nodes in those before and those after the name. -/

namespace LbBind.Rbt

open Lib List Option Entry

variable {α δ : Type*} [LinearOrder α]

/-- The `order` of two names, as `dns_name_fullcompare` finds it. -/
def nameOrder (a b : List α) : Ordering := if a < b then .lt else if a = b then .eq else .gt

lemma nameOrder_of_lt {a b : List α} (h : a < b) : nameOrder a b = .lt := if_pos h

lemma nameOrder_of_gt {a b : List α} (h : b < a) : nameOrder a b = .gt := by
  rw [nameOrder, if_neg h.not_gt, if_neg h.ne']

namespace Levels

def levelNodes : Levels α δ → Pos → List Pos
  | nil, _ => []
  | node l _ _ _ r, p => levelNodes l (.left :: p) ++ p :: levelNodes r (.right :: p)

/-- The search in the hash table for the nodes of the level with the root `p`: the last label of the
name, the last two labels, and so on. -/
def hashFind (t : Levels α δ) (p : Pos) (search : List α) : Option Pos :=
  (List.range search.length).findSome? fun i =>
    (levelNodes (t.sub p) p).find? fun q => t.nameAt q = search.take (i + 1)

def stopNode : Levels α δ → Pos → List α → Pos × Ordering
  | nil, p, _ => (p, .eq)
  | node l n _ _ r, p, search =>
    let order := nameOrder search n
    if order = .lt then
      if l.isNil then (p, order) else stopNode l (.left :: p) search
    else
      if r.isNil then (p, order) else stopNode r (.right :: p) search

end Levels

structure Search (α : Type*) where
  current : Option Pos
  lastCompared : Pos
  compared : NameReln
  order : Ordering
  searchName : List α
  levels : List Pos
  node : Option Pos

namespace Search

variable (t : Levels α δ) (emptydata : Bool) (s : Search α)

/-- `subdomain`: the search goes on below the node `p`. -/
def goDown (p : Pos) : Search α := { s with
    current := t.link .down p
    compared := .subdomain
    searchName := s.searchName.drop (t.nameAt p).length
    levels := p :: s.levels
    node := if (t.dataAt p).isSome || emptydata then some p else s.node }

def compare (p : Pos) : Search α := { s with
    lastCompared := p
    compared := reln s.searchName (t.nameAt p)
    order := nameOrder s.searchName (t.nameAt p) }

def loop : ℕ → Search α → Search α
  | 0, s => s
  | fuel + 1, s =>
    match s.current with
    | none => s
    | some p =>
      let s := s.compare t p
      match s.compared with
      | .equal => s
      | .none =>
        match t.hashFind p s.searchName with
        | none => { s with current := none }
        | some q =>
          if (t.nameAt q).length = s.searchName.length then
            { s with current := some q, compared := .equal }
          else loop fuel (s.goDown t emptydata q)
      | .subdomain => loop fuel (s.goDown t emptydata p)
      | .contains | .commonancestor => { s with current := none }

def levelMatches : ℕ := match s.node with
  | none => 0
  | some p => (s.levels.dropWhile (· ≠ p)).length - 1

def stop : Pos × Ordering :=
  if s.compared = .none then (t.sub s.lastCompared).stopNode s.lastCompared s.searchName
  else (s.lastCompared, s.order)

/-- The chain is pointed at the predecessor of the name; `none` is a failed `INSIST`. -/
def predecessor (root : α) (s : Search α) : Option Chain := if s.compared = .subdomain then
    match s.levels with
    | [] => none
    | p :: levels =>
      if s.levelMatches < s.levels.length then some ⟨some p, levels, s.levelMatches⟩ else none
  else
    match s.stop t with
    | (p, .gt) =>
      let (q, levels) := t.descend p s.levels
      some ⟨some q, levels, s.levelMatches⟩
    | (p, .lt) =>
      (t.prev root false ⟨some p, s.levels, s.levelMatches⟩).map fun m =>
        if m.result = .noMore then Chain.reset else m.chain
    | (_, .eq) => none

/-- The result and the node of a search that has ended. -/
def outcome (noexact : Bool) : Result × Option Pos :=
  match s.current with
  | some p =>
    if noexact = false ∧ ((t.dataAt p).isSome || emptydata) then (.success, some p)
    else (if s.node.isSome then .partialMatch else .notFound, s.node)
  | none => (if s.node.isSome then .partialMatch else .notFound, s.node)

end Search

/-- `dns_rbt_findnode` with a chain, without a callback and without `DNS_RBTFIND_NOPREDECESSOR`: the
result, the node and the chain. -/
def Levels.findnodeChain (root : α) (t : Levels α δ) (emptydata noexact : Bool) (name : List α) :
    Option (Result × Option Pos × Chain) :=
  if t.isNil then some (.notFound, none, Chain.reset)
  else
    let s := Search.loop t emptydata (name.length + 1) ⟨some [], [], .none, .eq, name, [], none⟩
    let found := s.outcome t emptydata noexact
    match s.current with
    | some p => some (found.1, found.2,
        ⟨some p, s.levels, if found.1 = .success then s.levels.length else s.levelMatches⟩)
    | none => (s.predecessor t root).map fun chain => (found.1, found.2, chain)

namespace Levels

variable {t u l r dn : Levels α δ} {n k search pre : List α} {d : Option δ} {p q : Pos}
  {levels : List Pos}

section
omit [LinearOrder α]

def nodeAt (t : Levels α δ) (p : Pos) : Node α δ := ⟨t.nameAt p, t.dataAt p, t.sub (.down :: p)⟩

lemma nodes_eq_levelNodes (hp : t.sub p = u) : u.nodes = (u.levelNodes p).map t.nodeAt := by
  induction u generalizing p with
  | nil => rfl
  | node l n d dn r ihl _ ihr =>
    obtain ⟨hl, hr, hdn⟩ := sub_cons hp
    rw [nodes, levelNodes, map_append, map_cons, ← ihl hl, ← ihr hr, nodeAt, nameAt, dataAt, hp, hdn]

lemma mem_nodes_of_mem_levelNodes (hp : t.sub p = u) (hq : q ∈ u.levelNodes p) :
    t.nodeAt q ∈ u.nodes :=
  nodes_eq_levelNodes hp ▸ mem_map_of_mem hq

lemma fullName_of_mem_levelNodes (hq : q ∈ u.levelNodes p) :
    t.fullName q = t.originAt p ++ t.nameAt q := by
  induction u generalizing p with
  | nil => simp [levelNodes] at hq
  | node l n d dn r ihl _ ihr =>
    rw [levelNodes, mem_append, mem_cons] at hq
    rcases hq with hq | rfl | hq
    · exact (ihl hq :)
    · rfl
    · exact (ihr hq :)

lemma mem_levelNodes_self (h : u.isNil = false) : p ∈ u.levelNodes p := by
  cases u with
  | nil => simp at h
  | node l n d dn r => simp [levelNodes]

lemma holds_of_mem_levelNodes (hp : t.sub p = u) (hq : q ∈ u.levelNodes p) :
    u.Holds (t.nameAt q) (t.dataAt q) :=
  holds_iff.mpr ⟨_, mem_nodes_of_mem_levelNodes hp hq, .inl ⟨rfl, rfl⟩⟩

end

lemma visit_split (h : u.Good) (hp : t.sub p = u) (hq : q ∈ u.levelNodes p) (levels : List Pos)
    (pre : List α) : ∃ v v', u.visit p levels pre = v ++ ⟨q, levels, pre ++ t.nameAt q⟩ ::
        ((t.sub (.down :: q)).visit (.down :: q) (q :: levels) (pre ++ t.nameAt q) ++ v') ∧
      ∀ e ∈ v', ∃ k, e.name = pre ++ k ∧ HeadLt (t.nameAt q) k := by
  induction u generalizing p with
  | nil => simp [levelNodes] at hq
  | node l n d dn r ihl _ ihr =>
    obtain ⟨hl, hr, hdn⟩ := sub_cons hp
    obtain ⟨hlgood, ⟨hn, -⟩, hrgood, -, -⟩ := good_node.mp h
    rw [levelNodes, mem_append, mem_cons] at hq
    rcases hq with hq | rfl | hq
    · obtain ⟨v, v', hv, hafter⟩ := ihl hlgood hl hq
      have hlt := h.headLt_left (holds_of_mem_levelNodes hl hq)
      refine ⟨v, v' ++ ⟨p, levels, pre ++ n⟩ :: (dn.visit (.down :: p) (p :: levels) (pre ++ n) ++
        r.visit (.right :: p) levels pre), by simp [visit, hv], fun e he => ?_⟩
      rw [mem_append, mem_cons, mem_append] at he
      rcases he with he | rfl | he | he
      · exact hafter e he
      · exact ⟨n, rfl, hlt⟩
      · obtain ⟨k, d, hname, -⟩ := holds_of_mem_visit he
        exact ⟨n ++ k, by rw [hname, append_assoc],
          (headLt_congr_right (head?_append_of_ne_nil _ hn)).mpr hlt⟩
      · obtain ⟨k, d, hname, hold'⟩ := holds_of_mem_visit he
        exact ⟨k, hname, hlt.trans (h.headLt_right hold')⟩
    · refine ⟨l.visit (.left :: q) levels pre, r.visit (.right :: q) levels pre, ?_, fun e he => ?_⟩
      · rw [visit, nameAt_eq hp, hdn]
      · obtain ⟨k, d, hname, hold⟩ := holds_of_mem_visit he
        exact ⟨k, hname, by rw [nameAt_eq hp]; exact h.headLt_right hold⟩
    · obtain ⟨v, v', hv, hafter⟩ := ihr hrgood hr hq
      exact ⟨l.visit (.left :: p) levels pre ++ ⟨p, levels, pre ++ n⟩ ::
        (dn.visit (.down :: p) (p :: levels) (pre ++ n) ++ v), v', by simp [visit, hv], hafter⟩

lemma hashFind_some (h : t.hashFind p search = some q) :
    q ∈ (t.sub p).levelNodes p ∧ t.nameAt q <+: search := by
  obtain ⟨i, -, hfind⟩ := exists_of_findSome?_eq_some h
  have hname := find?_some hfind
  simp only [decide_eq_true_eq] at hname
  exact ⟨mem_of_find?_eq_some hfind, by rw [hname]; exact take_prefix _ _⟩

lemma levelSearch_eq_hashFind (search : List α) (hpresent : (t.sub p).isNil = false) :
    levelSearch (t.sub p) search = match reln search (t.nameAt p) with
      | .equal | .subdomain => some (t.nodeAt p)
      | .none => (t.hashFind p search).map t.nodeAt
      | .contains | .commonancestor => none := by
  have hhash : hashSearch (t.sub p) search = (t.hashFind p search).map t.nodeAt := by
    simp only [hashSearch, hashFind, nodes_eq_levelNodes rfl, find?_map, map_findSome?]
    rfl
  rw [← hhash, nodeAt]
  cases hp : t.sub p with
  | nil => simp [hp] at hpresent
  | node l n d dn r =>
    rw [levelSearch, nameAt, hp]
    cases reln search n <;> simp [dataAt, sub_cons hp, hp]

lemma append_lt_of_lt {a b : List α} (hlt : a < b) (hpfx : ¬a <+: b) (c : List α) :
    a ++ c < b := by
  induction a generalizing b with
  | nil => exact absurd nil_prefix hpfx
  | cons x a ih =>
    cases b with
    | nil => exact absurd hlt (not_lt_nil _)
    | cons y b =>
      rw [cons_append]
      rcases cons_lt_cons_iff.mp hlt with hxy | ⟨rfl, hab⟩
      · exact cons_lt_cons_iff.mpr (.inl hxy)
      · refine cons_lt_cons_iff.mpr (.inr ⟨rfl, ih hab fun h => hpfx ?_⟩)
        exact cons_prefix_cons.mpr ⟨rfl, h⟩

structure Splits (key : List α) (v v' : List (Entry α)) : Prop where
  before : ∀ e ∈ v, e.name < key
  after : ∀ e ∈ v', key < e.name

/-- The node at which a search stops is the first one after the name, or the last one before the name
stands below the node or is the node. -/
def StopsAt (t : Levels α δ) (levels : List Pos) (v v' : List (Entry α)) (s : Pos × Ordering) :
    Prop :=
  (s.2 = .gt ∧ ∀ y, finish y v = (some (t.descend s.1 levels).1, (t.descend s.1 levels).2)) ∨
    s.2 = .lt ∧ ∃ name w, v' = ⟨s.1, levels, name⟩ :: w

omit [LinearOrder α] in
lemma finish_below (hp : t.sub p = node l n d dn r) (y : Option Pos × List Pos)
    (v : List (Entry α)) :
    finish y (v ++ ⟨p, levels, pre ++ n⟩ :: dn.visit (.down :: p) (p :: levels) (pre ++ n)) =
      (some (t.descend p levels).1, (t.descend p levels).2) := by
  obtain ⟨-, -, hdn⟩ := sub_cons hp
  rw [finish_append, finish, finish_visit, descend, link, hdn]
  cases hnil : dn.isNil with
  | true => simp
  | false => simp [hdn]

section
variable (h : (node l n d dn r).Good) (p : Pos) (levels : List Pos) (pre : List α)
include h

lemma lt_of_mem_right (hlt : search < n) (e : Entry α)
    (he : e ∈ ⟨p, levels, pre ++ n⟩ :: (dn.visit (.down :: p) (p :: levels) (pre ++ n) ++
      r.visit (.right :: p) levels pre)) : pre ++ search < e.name := by
  obtain ⟨-, ⟨-, hdn⟩, -⟩ := good_node.mp h
  rw [mem_cons, mem_append] at he
  rcases he with rfl | he | he
  · exact (append_lt_append_iff pre).mpr hlt
  · obtain ⟨k, d, hname, hold⟩ := holds_of_mem_visit he
    rw [hname, append_assoc, append_lt_append_iff]
    exact hlt.trans (lt_append_of_ne_nil n (hdn.ne_nil hold))
  · obtain ⟨k, d, hname, hold⟩ := holds_of_mem_visit he
    rw [hname, append_lt_append_iff]
    exact hlt.trans (h.headLt_right hold).lt

lemma lt_of_mem_left (hlt : n < search) (hpfx : ¬n <+: search) (e : Entry α)
    (he : e ∈ l.visit (.left :: p) levels pre ++
      ⟨p, levels, pre ++ n⟩ :: dn.visit (.down :: p) (p :: levels) (pre ++ n)) :
    e.name < pre ++ search := by
  rw [mem_append, mem_cons] at he
  rcases he with he | rfl | he
  · obtain ⟨k, d, hname, hold⟩ := holds_of_mem_visit he
    rw [hname, append_lt_append_iff]
    exact (h.headLt_left hold).lt.trans hlt
  · exact (append_lt_append_iff pre).mpr hlt
  · obtain ⟨k, d, hname, hold⟩ := holds_of_mem_visit he
    rw [hname, append_assoc, append_lt_append_iff]
    exact append_lt_of_lt hlt hpfx k

end

lemma stopNode_spec (h : u.Good) (hp : t.sub p = u) (hne : u.isNil = false)
    (hpfx : ∀ q ∈ u.levelNodes p, ¬t.nameAt q <+: search) (levels : List Pos) (pre : List α) :
    ∃ v v', u.visit p levels pre = v ++ v' ∧ Splits (pre ++ search) v v' ∧
      StopsAt t levels v v' (u.stopNode p search) := by
  induction u generalizing p with
  | nil => simp at hne
  | node l n d dn r ihl _ ihr =>
    obtain ⟨hl, hr, hdn⟩ := sub_cons hp
    obtain ⟨hlgood, -, hrgood, -, -⟩ := good_node.mp h
    have hnpfx : ¬n <+: search := by
      rw [← nameAt_eq hp]
      exact hpfx p (by simp [levelNodes])
    rw [stopNode]
    rcases lt_or_gt_of_ne (show search ≠ n by rintro rfl; exact hnpfx (prefix_refl _)) with
      hlt | hgt
    · have hafter := lt_of_mem_right h p levels pre hlt
      simp only [nameOrder_of_lt hlt, if_true]
      cases hnil : l.isNil with
      | true =>
        obtain rfl : l = nil := isNil_iff.mp hnil
        exact ⟨[], _, rfl, ⟨by simp, hafter⟩, .inr ⟨rfl, _, _, rfl⟩⟩
      | false =>
        simp only [Bool.false_eq_true, if_false]
        obtain ⟨v, v', hv, hsplit, hstop⟩ := ihl hlgood hl hnil
          fun q hq => hpfx q (by simp [levelNodes, hq])
        refine ⟨v, _, by rw [visit, hv, append_assoc], ⟨hsplit.before, ?_⟩, ?_⟩
        · intro e he
          rcases mem_append.mp he with he | he
          · exact hsplit.after e he
          · exact hafter e he
        · rcases hstop with hstop | ⟨horder, name, w, rfl⟩
          · exact .inl hstop
          · exact .inr ⟨horder, _, _, rfl⟩
    · have hbefore := lt_of_mem_left h p levels pre hgt hnpfx
      simp only [nameOrder_of_gt hgt, reduceCtorEq, if_false]
      cases hnil : r.isNil with
      | true =>
        refine ⟨_, [], (append_nil _).symm, ⟨?_, by simp⟩, .inl ⟨?_, fun y => ?_⟩⟩
        · rw [visit, isNil_iff.mp hnil, visit, append_nil]
          exact hbefore
        · rfl
        · rw [visit, isNil_iff.mp hnil, visit, append_nil]
          exact finish_below hp y _
      | false =>
        simp only [Bool.false_eq_true, if_false]
        obtain ⟨v, v', hv, hsplit, hstop⟩ := ihr hrgood hr hnil
          fun q hq => hpfx q (by simp [levelNodes, hq])
        refine ⟨l.visit (.left :: p) levels pre ++ ⟨p, levels, pre ++ n⟩ ::
          dn.visit (.down :: p) (p :: levels) (pre ++ n) ++ v, v', by simp [visit, hv],
          ⟨?_, hsplit.after⟩, ?_⟩
        · intro e he
          rcases mem_append.mp he with he | he
          · exact hbefore e he
          · exact hsplit.before e he
        · rcases hstop with ⟨horder, hfinish⟩ | hstop
          · exact .inl ⟨horder, fun y => by rw [finish_append, hfinish]⟩
          · exact .inr hstop

lemma stopsAt_root (h : (node l n d dn r).Good) (hp : t.sub p = node l n d dn r)
    (hhead : search.head? = n.head?) (hne : search ≠ n) (hpfx : ¬n <+: search) (levels : List Pos)
    (pre : List α) :
    ∃ v v', (node l n d dn r).visit p levels pre = v ++ v' ∧ Splits (pre ++ search) v v' ∧
      StopsAt t levels v v' (p, nameOrder search n) := by
  have hleft : ∀ e ∈ l.visit (.left :: p) levels pre, e.name < pre ++ search := by
    intro e he
    obtain ⟨k, d, hname, hold⟩ := holds_of_mem_visit he
    rw [hname, append_lt_append_iff]
    exact ((headLt_congr_right hhead).mpr (h.headLt_left hold)).lt
  have hright : ∀ e ∈ r.visit (.right :: p) levels pre, pre ++ search < e.name := by
    intro e he
    obtain ⟨k, d, hname, hold⟩ := holds_of_mem_visit he
    rw [hname, append_lt_append_iff]
    exact ((headLt_congr hhead).mpr (h.headLt_right hold)).lt
  rcases lt_or_gt_of_ne hne with hlt | hgt
  · exact ⟨_, _, rfl, ⟨hleft, lt_of_mem_right h p levels pre hlt⟩,
      .inr ⟨nameOrder_of_lt hlt, _, _, rfl⟩⟩
  · refine ⟨l.visit (.left :: p) levels pre ++ ⟨p, levels, pre ++ n⟩ ::
      dn.visit (.down :: p) (p :: levels) (pre ++ n), r.visit (.right :: p) levels pre,
      by simp [visit], ⟨lt_of_mem_left h p levels pre hgt hpfx, hright⟩, .inl ⟨?_, ?_⟩⟩
    · exact nameOrder_of_gt hgt
    · exact fun y => finish_below hp y _

end Levels

namespace Search

open Levels

variable {t : Levels α δ} {emptydata : Bool} {key pre : List α} {w a b : List (Entry α)} {p q : Pos}
  {s : Search α}

def Stopped (t : Levels α δ) (key : List α) (w : List (Entry α)) (s : Search α) : Prop :=
  s.current = none ∧ ∃ v v', w = v ++ v' ∧ Splits key v v' ∧ if s.compared = .subdomain then
      ∃ p levels, s.levels = p :: levels ∧ finish (none, []) v = (some p, levels)
    else StopsAt t s.levels v v' (s.stop t)

/-- A search at the root `p` of a level: the nodes that are not on the level or below it come before
the name or after it. -/
structure AtLevel (t : Levels α δ) (key : List α) (w : List (Entry α)) (s : Search α) (p : Pos)
    (pre : List α) (a b : List (Entry α)) : Prop where
  current_eq : s.current = some p
  good : (t.sub p).Good
  present : (t.sub p).isNil = false
  search_ne : s.searchName ≠ []
  key_eq : key = pre ++ s.searchName
  walk_eq : w = a ++ ((t.sub p).visit p s.levels pre ++ b)
  splits : Splits key a b

omit [LinearOrder α] in
lemma stopsAt_extend {levels : List Pos} {v v' : List (Entry α)} {x : Pos × Ordering}
    (h : StopsAt t levels v v' x) (a b : List (Entry α)) :
    StopsAt t levels (a ++ v) (v' ++ b) x := by
  rcases h with ⟨horder, hfinish⟩ | ⟨horder, name, w, rfl⟩
  · exact .inl ⟨horder, fun y => by rw [finish_append, hfinish]⟩
  · exact .inr ⟨horder, _, _, rfl⟩

section
variable (h : AtLevel t key w s p pre a b)
include h

lemma AtLevel.stopped {s' : Search α}
    (hcurrent : s'.current = none) (hlevels : s'.levels = s.levels) (hcompared : s'.compared ≠ .subdomain)
    (hstop : ∃ v v', (t.sub p).visit p s.levels pre = v ++ v' ∧ Splits (pre ++ s.searchName) v v' ∧
      StopsAt t s.levels v v' (s'.stop t)) : Stopped t key w s' := by
  obtain ⟨v, v', hv, hsplit, hstop⟩ := hstop
  rw [← h.key_eq] at hsplit
  refine ⟨hcurrent, a ++ v, v' ++ b, by rw [h.walk_eq, hv]; simp, ⟨?_, ?_⟩, ?_⟩
  · intro e he
    rcases mem_append.mp he with he | he
    · exact h.splits.before e he
    · exact hsplit.before e he
  · intro e he
    rcases mem_append.mp he with he | he
    · exact hsplit.after e he
    · exact h.splits.after e he
  · rw [if_neg hcompared, hlevels]
    exact stopsAt_extend hstop a b

attribute [local simp] goDown

lemma AtLevel.goDown (hq : q ∈ (t.sub p).levelNodes p)
    (hpfx : t.nameAt q <+: s.searchName) (hne : t.nameAt q ≠ s.searchName) (emptydata : Bool) :
    ∃ a' b', finish (none, []) a' = (some q, s.levels) ∧ Splits key a' b' ∧
      w = a' ++ ((t.sub (.down :: q)).visit (.down :: q) (q :: s.levels) (pre ++ t.nameAt q) ++ b') ∧
      ((t.sub (.down :: q)).isNil = false →
        AtLevel t key w (s.goDown t emptydata q) (.down :: q) (pre ++ t.nameAt q) a' b') := by
  obtain ⟨v, v', hv, hafter⟩ := visit_split h.good rfl hq s.levels pre
  have hnode := mem_nodes_of_mem_levelNodes rfl hq
  have hname : t.nameAt q ≠ [] := h.good.name_ne hnode
  obtain ⟨rest, hrest⟩ := hpfx
  have hrest_ne : rest ≠ [] := by
    rintro rfl
    exact hne (by rw [← hrest, append_nil])
  have hhead : s.searchName.head? = (t.nameAt q).head? := by
    rw [← hrest, head?_append_of_ne_nil _ hname]
  have hhere : pre ++ t.nameAt q < key := by
    rw [h.key_eq, ← hrest, append_lt_append_iff]
    exact lt_append_of_ne_nil _ hrest_ne
  have hwalk : w = (a ++ v ++ [⟨q, s.levels, pre ++ t.nameAt q⟩]) ++
      ((t.sub (.down :: q)).visit (.down :: q) (q :: s.levels) (pre ++ t.nameAt q) ++ (v' ++ b)) := by
    rw [h.walk_eq, hv]
    simp
  have hsplits : Splits key (a ++ v ++ [⟨q, s.levels, pre ++ t.nameAt q⟩]) (v' ++ b) := by
    constructor
    · have hsorted := visit_sorted h.good p s.levels pre
      rw [hv, pairwise_append] at hsorted
      intro e he
      rw [mem_append, mem_append, mem_singleton] at he
      rcases he with (he | he) | rfl
      · exact h.splits.before e he
      · exact (hsorted.2.2 e he _ mem_cons_self).trans hhere
      · exact hhere
    · intro e he
      rcases mem_append.mp he with he | he
      · obtain ⟨k, hk, hlt⟩ := hafter e he
        rw [hk, h.key_eq, append_lt_append_iff]
        exact ((headLt_congr hhead).mpr hlt).lt
      · exact h.splits.after e he
  refine ⟨_, _, by rw [finish_append]; rfl, hsplits, hwalk, fun hpresent => ?_⟩
  have hdrop : s.searchName.drop (t.nameAt q).length = rest := by rw [← hrest, drop_left]
  exact
    { current_eq := by simp [link, hpresent]
      good := ((good_iff.mp h.good).2 _ hnode).2
      present := hpresent
      search_ne := by simpa [hdrop] using hrest_ne
      key_eq := by simp [hdrop, h.key_eq, hrest]
      walk_eq := hwalk
      splits := hsplits }

omit h in
lemma loop_none (fuel : ℕ) (h : s.current = none) : loop t emptydata fuel s = s := by
  cases fuel <;> simp [loop, h]

lemma AtLevel.compare (q : Pos) :
    AtLevel t key w (s.compare t q) p pre a b :=
  ⟨h.current_eq, h.good, h.present, h.search_ne, h.key_eq, h.walk_eq, h.splits⟩

lemma AtLevel.mem_walk (hq : q ∈ (t.sub p).levelNodes p) :
    (⟨q, s.levels, pre ++ t.nameAt q⟩ : Entry α) ∈ w := by
  obtain ⟨v, v', hv, -⟩ := visit_split h.good rfl hq s.levels pre
  simp [h.walk_eq, hv]

lemma AtLevel.nameAt_ne (hno : ∀ e ∈ w, e.name ≠ key)
    (hq : q ∈ (t.sub p).levelNodes p) : t.nameAt q ≠ s.searchName := fun heq =>
  hno _ (h.mem_walk hq) (by rw [h.key_eq, heq])

lemma AtLevel.stopped_root
    (hhead : s.searchName.head? = (t.nameAt p).head?) (hne : s.searchName ≠ t.nameAt p)
    (hpfx : ¬t.nameAt p <+: s.searchName) (hnone : (s.compare t p).compared ≠ .none)
    (hsub : (s.compare t p).compared ≠ .subdomain) :
    Stopped t key w { s.compare t p with current := none } := by
  refine h.stopped rfl rfl hsub ?_
  have hgood := h.good
  cases hp : t.sub p with
  | nil => simpa [hp] using h.present
  | node l n d dn r =>
    rw [nameAt_eq hp] at hhead hne hpfx
    rw [hp] at hgood
    rw [stop, if_neg hnone]
    simpa [Search.compare, nameAt_eq hp] using stopsAt_root hgood hp hhead hne hpfx s.levels pre

omit h in
lemma loop_cases (emptydata : Bool) (fuel : ℕ) (hcurrent : s.current = some p)
    (hgood : (t.sub p).Good) (hpresent : (t.sub p).isNil = false) (hne : s.searchName ≠ []) :
    let s' := loop t emptydata (fuel + 1) s
    (levelSearch (t.sub p) s.searchName = none ∧ s' = { s.compare t p with current := none }) ∨
      ∃ q ∈ (t.sub p).levelNodes p, levelSearch (t.sub p) s.searchName = some (t.nodeAt q) ∧
        (t.nameAt q = s.searchName ∧ s'.current = some q ∧ s'.node = s.node ∨
          t.nameAt q ≠ s.searchName ∧
            s' = loop t emptydata fuel ((s.compare t p).goDown t emptydata q)) := by
  have hmem : p ∈ (t.sub p).levelNodes p := mem_levelNodes_self hpresent
  have hrel : Related s.searchName (t.nameAt p) (s.compare t p).compared :=
    related_reln hne (hgood.name_ne (mem_nodes_of_mem_levelNodes rfl hmem))
  have hsearch := levelSearch_eq_hashFind s.searchName hpresent
  rw [loop, hcurrent]
  dsimp only
  split
  all_goals
    rename_i hx
    rw [show reln s.searchName (t.nameAt p) = _ from hx] at hsearch
    rw [hx] at hrel
  · cases hrel with
    | equal heq => exact .inr ⟨p, hmem, hsearch, .inl ⟨heq.symm, hcurrent, rfl⟩⟩
  · split
    next hfind => exact .inl ⟨hsearch.trans (congrArg (Option.map _) hfind), rfl⟩
    next q hfind =>
      obtain ⟨hq, hpfx⟩ := hashFind_some hfind
      refine .inr ⟨q, hq, hsearch.trans (congrArg (Option.map _) hfind), ?_⟩
      split_ifs with hlength
      · exact .inl ⟨hpfx.eq_of_length hlength, rfl, rfl⟩
      · exact .inr ⟨fun heq => hlength (by rw [heq]; rfl), rfl⟩
  · cases hrel with
    | subdomain tail htail heq => exact .inr ⟨p, hmem, hsearch, .inr ⟨by simp [heq, htail], rfl⟩⟩
  · exact .inl ⟨hsearch, rfl⟩
  · exact .inl ⟨hsearch, rfl⟩

lemma AtLevel.loop (hno : ∀ e ∈ w, e.name ≠ key) (fuel : ℕ)
    (hfuel : s.searchName.length ≤ fuel) : Stopped t key w (loop t emptydata fuel s) := by
  induction fuel generalizing s p pre a b with
  | zero => exact absurd (length_eq_zero_iff.mp (by omega)) h.search_ne
  | succ fuel ih =>
    have hlevel {x : Node α δ} := levelSearch_eq_some_iff (x := x) h.good h.search_ne
    rcases loop_cases emptydata fuel h.current_eq h.good h.present h.search_ne with
      ⟨hsearch, hloop⟩ | ⟨q, hq, hsearch, ⟨hname, -⟩ | ⟨-, hloop⟩⟩
    · have hmem : p ∈ (t.sub p).levelNodes p := mem_levelNodes_self h.present
      have hn : t.nameAt p ≠ [] := h.good.name_ne (mem_nodes_of_mem_levelNodes rfl hmem)
      have hne := h.nameAt_ne hno hmem
      have hmiss (q : Pos) (hq : q ∈ (t.sub p).levelNodes p) : ¬t.nameAt q <+: s.searchName := by
        intro hpfx
        cases hsearch.symm.trans (hlevel.mpr ⟨mem_nodes_of_mem_levelNodes rfl hq, hpfx⟩)
      have hrel : Related s.searchName (t.nameAt p) (s.compare t p).compared :=
        related_reln h.search_ne hn
      rw [hloop]
      generalize hx : (s.compare t p).compared = x at hrel
      cases hrel with
      | equal heq => exact absurd heq.symm hne
      | subdomain tail _ heq => exact absurd ⟨tail, heq.symm⟩ (hmiss p hmem)
      | none =>
        refine h.stopped rfl rfl (by simp [hx]) ?_
        rw [stop, if_pos hx]
        exact stopNode_spec h.good rfl h.present hmiss s.levels pre
      | contains common rest _ hcommon _ ha hb =>
        refine h.stopped_root ?_ hne.symm (hmiss p hmem) (by simp [hx]) (by simp [hx])
        rw [hb, ha, head?_append_of_ne_nil _ hcommon]
      | commonancestor common tail rest _ hcommon _ _ _ ha hb =>
        refine h.stopped_root ?_ hne.symm (hmiss p hmem) (by simp [hx]) (by simp [hx])
        rw [hb, ha, head?_append_of_ne_nil _ hcommon, head?_append_of_ne_nil _ hcommon]
    · exact absurd hname (h.nameAt_ne hno hq)
    · -- The search goes on below a node whose name is above the one searched.
      obtain ⟨a', b', hfinish, hsplits, hwalk, hat⟩ := (h.compare p).goDown hq (hlevel.mp hsearch).2
        ((h.compare p).nameAt_ne hno hq) emptydata
      rw [hloop]
      cases hnil : (t.sub (.down :: q)).isNil with
      | true =>
        rw [loop_none fuel (by simp [link, hnil])]
        refine ⟨by simp [link, hnil], a', b', ?_, hsplits, ?_⟩
        · rw [hwalk, isNil_iff.mp hnil]
          rfl
        · exact ⟨q, s.levels, rfl, hfinish⟩
      | false =>
        refine ih (hat hnil) ?_
        have hpos : 0 < (t.nameAt q).length := length_pos_iff.mpr
          (h.good.name_ne (mem_nodes_of_mem_levelNodes rfl hq))
        simp only [Search.goDown, Search.compare, length_drop]
        omega

end

/-- The loop with positions finds what the loop on trees does. -/
lemma findOptions_loop (noexact : Bool) (fuel : ℕ) (hcurrent : s.current = some p)
    (hgood : (t.sub p).Good) (hpresent : (t.sub p).isNil = false) (hne : s.searchName ≠ [])
    (hfuel : s.searchName.length ≤ fuel) :
    findOptions (fun _ => levelSearch) emptydata noexact fuel (t.sub p) (t.originAt p) s.searchName
      (s.node.map fun p => (t.fullName p, t.dataAt p)) =
      ((loop t emptydata fuel s).outcome t emptydata noexact).map id
        (Option.map fun p => (t.fullName p, t.dataAt p)) := by
  induction fuel generalizing s p with
  | zero => exact absurd (length_eq_zero_iff.mp (Nat.le_zero.mp hfuel)) hne
  | succ fuel ih =>
    rw [findOptions]
    rcases loop_cases emptydata fuel hcurrent hgood hpresent hne with
      ⟨hsearch, hloop⟩ | ⟨q, hq, hsearch, ⟨hname, hcurrent, hnode⟩ | ⟨hname, hloop⟩⟩
    · simp [hsearch, outcome, hloop, Search.compare]
    · have hfull := fullName_of_mem_levelNodes (t := t) hq
      simp only [hsearch, nodeAt, hname, if_true, outcome, hcurrent, hnode]
      split_ifs <;> simp_all
    · have hfull := fullName_of_mem_levelNodes (t := t) hq
      have hpfx := ((levelSearch_eq_some_iff hgood hne).mp hsearch).2
      have hbest : (if (t.dataAt q).isSome || emptydata then
          some (t.originAt p ++ t.nameAt q, t.dataAt q)
          else s.node.map fun p => (t.fullName p, t.dataAt p)) =
          ((s.compare t p).goDown t emptydata q).node.map fun p => (t.fullName p, t.dataAt p) := by
        rw [← hfull, goDown]
        split_ifs <;> rfl
      simp only [hsearch, nodeAt, hname, if_false, hloop, hbest]
      rw [← hfull]
      cases hnil : (t.sub (.down :: q)).isNil with
      | true =>
        rw [loop_none fuel (by simp [goDown, link, hnil]), isNil_iff.mp hnil]
        cases fuel <;> simp [findOptions, levelSearch, outcome, goDown, link, hnil]
      | false =>
        obtain ⟨hn, hdown⟩ := (good_iff.mp hgood).2 _ (mem_nodes_of_mem_levelNodes rfl hq)
        have hpos : 0 < (t.nameAt q).length := length_pos_iff.mpr hn
        refine ih (s := (s.compare t p).goDown t emptydata q) (by simp [goDown, link, hnil]) hdown
          hnil (fun hnil => hname ?_) ?_
        · exact hpfx.eq_of_length_le (drop_eq_nil_iff.mp hnil)
        · simp only [goDown, Search.compare, length_drop]
          omega

omit [LinearOrder α] in
lemma levelMatches_lt (h : s.levels ≠ []) : s.levelMatches < s.levels.length := by
  have hpos := length_pos_iff.mpr h
  rw [levelMatches]
  cases s.node with
  | none => exact hpos
  | some p =>
    have hlen := (dropWhile_sublist (l := s.levels) fun x => decide (x ≠ p)).length_le
    dsimp only
    omega

end Search

open Levels in
/-- With a chain the same node is found as without one. -/
lemma Levels.findnodeChain_answer {t : Levels α δ} {root : α} {emptydata noexact : Bool}
    {name : List α} {r : Result × Option Pos × Chain} (h : t.Good) (hname : name ≠ [])
    (hr : t.findnodeChain root emptydata noexact name = some r) :
    Answer t name [] emptydata noexact none
      (r.1, r.2.1.map fun p => (t.fullName p, t.dataAt p)) := by
  have hanswer : Answer t name [] emptydata noexact none _ :=
    findOptions_answer (fun _ _ _ _ => levelSearch_eq_some_iff) (name.length + 1) h hname
      (Nat.le_succ _)
  rw [findnodeChain] at hr
  cases hnil : t.isNil with
  | true =>
    obtain rfl := isNil_iff.mp hnil
    cases hr
    exact hanswer
  | false =>
    have hloop : findOptions _ emptydata noexact _ t [] name none = _ :=
      Search.findOptions_loop (s := ⟨some [], [], .none, .eq, name, [], none⟩) (p := []) noexact
        (name.length + 1) rfl h hnil hname (Nat.le_succ _)
    rw [hloop] at hanswer
    simp only [hnil, Bool.false_eq_true, if_false] at hr
    split at hr
    · cases hr
      exact hanswer
    · obtain ⟨chain, -, rfl⟩ := map_eq_some_iff.mp hr
      exact hanswer

omit [LinearOrder α] in
lemma exists_last_of_finish {v : List (Entry α)} {p : Pos} {levels : List Pos}
    (h : finish (none, []) v = (some p, levels)) : ∃ v0 name, v = v0 ++ [⟨p, levels, name⟩] := by
  rcases eq_nil_or_concat v with rfl | ⟨v0, e, rfl⟩
  · simp [finish] at h
  · rw [concat_eq_append, finish_append] at *
    obtain ⟨rfl, rfl⟩ : e.pos = p ∧ e.levels = levels := by simpa [finish] using h
    exact ⟨v0, e.name, rfl⟩

/-- The chain stands at the last place of `v`, or it is reset if there is none. -/
def Chain.AtLast (v : List (Entry α)) (chain : Chain) : Prop :=
  (v = [] ∧ chain = Chain.reset) ∨ ∃ v₀ e k, v = v₀ ++ [e] ∧ chain = e.chain k

open Levels

lemma Search.Stopped.predecessor {t : Levels α δ} {key : List α} {s : Search α} {root : α}
    (hroot : ∀ e ∈ t.visit [] [] [], e.name.head? = some root)
    (hs : Stopped t key (t.visit [] [] []) s) :
    ∃ v v' chain, t.visit [] [] [] = v ++ v' ∧ Splits key v v' ∧
      s.predecessor t root = some chain ∧ chain.AtLast v := by
  obtain ⟨-, v, v', hw, hsplits, hstop⟩ := hs
  refine ⟨v, v', ?_⟩
  rw [Search.predecessor]
  by_cases hsub : s.compared = .subdomain
  · rw [if_pos hsub] at hstop ⊢
    obtain ⟨p, levels, hlevels, hfinish⟩ := hstop
    obtain ⟨v0, name, rfl⟩ := exists_last_of_finish hfinish
    have hlt := levelMatches_lt (s := s) (by simp [hlevels])
    refine ⟨_, hw, hsplits, ?_, .inr ⟨v0, _, s.levelMatches, rfl, rfl⟩⟩
    rw [hlevels] at hlt ⊢
    simp only [if_pos hlt, chain]
  · rw [if_neg hsub] at hstop ⊢
    generalize s.stop t = x at hstop
    obtain ⟨p, order⟩ := x
    rcases hstop with ⟨rfl, hfinish⟩ | ⟨rfl, name, w, rfl⟩
    · obtain ⟨v0, name, rfl⟩ := exists_last_of_finish (hfinish (none, []))
      exact ⟨_, hw, hsplits, rfl, .inr ⟨v0, _, _, rfl, rfl⟩⟩
    · -- The node comes after the name: the chain goes back from it.
      have htrails := visit_trails_top t
      rw [hw] at htrails
      have hback := htrails.of_append.2.1
      rcases eq_nil_or_concat v with rfl | ⟨v0, e, rfl⟩
      · obtain ⟨m, hprev, hresult⟩ := prev_noMore hback root false s.levelMatches
        simp only [chain] at hprev
        refine ⟨_, hw, hsplits, ?_, .inl ⟨rfl, rfl⟩⟩
        simp only [hprev, map_some, if_pos hresult]
      · rw [concat_eq_append] at *
        have he : e ∈ t.visit [] [] [] := by simp [hw]
        rw [finish_append] at hback
        obtain ⟨m, hprev, hresult, hchain⟩ :=
          prev_of_dest hback (fits_of_mem_visit_top he) (hroot e he) false s.levelMatches
        simp only [chain] at hprev
        refine ⟨_, hw, hsplits, ?_, .inr ⟨v0, e, _, rfl, hchain⟩⟩
        simp only [hprev, map_some, if_neg hresult]

section
variable {δ : Type*} {t : Levels (List ℕ) δ}

/-- A node whose full name comes before a name, as `dns_name_compare` orders them. -/
def Levels.Before (t : Levels (List ℕ) δ) (name : Name) (p : Pos) : Prop :=
  t.sub p ≠ .nil ∧ ∃ a : Name, a.absolute ∧ a.key = t.fullName p ∧ (a.fullcompare name).order < 0

structure Chain.AtPredecessor (t : Levels (List ℕ) δ) (name : Name) (chain : Chain) : Prop where
  reset_iff : chain.end_ = none ↔ ∀ p, ¬t.Before name p
  reset : chain.end_ = none → chain = Chain.reset
  before : ∀ p, chain.end_ = some p → t.Before name p
  levels : ∀ p, chain.end_ = some p → chain.levels = Pos.levels p
  greatest : ∀ p, chain.end_ = some p → ∀ q, t.Before name q → q ≠ p → ∀ a b : Name,
    a.key = t.fullName q → b.key = t.fullName p → (a.fullcompare b).order < 0

variable {v v' : List (Entry (List ℕ))}

lemma Levels.Splits.before_iff (h : Sound t) {name : Name} (hw : t.visit [] [] [] = v ++ v')
    (hsplits : Levels.Splits name.key v v') (p : Pos) : t.Before name p ↔ ∃ e ∈ v, e.pos = p := by
  constructor
  · rintro ⟨hp, a, -, ha, hlt⟩
    obtain ⟨e, he, rfl⟩ := exists_mem_visit_top hp
    rw [(a.fullcompare_spec name).lt, ha, ← (fits_of_mem_visit_top he).name_eq] at hlt
    rw [hw, mem_append] at he
    exact ⟨e, he.resolve_right fun he => (hsplits.after e he).not_gt hlt, rfl⟩
  · rintro ⟨e, he, rfl⟩
    have hmem : e ∈ t.visit [] [] [] := by rw [hw]; exact mem_append_left _ he
    obtain ⟨a, habs, ha⟩ := h.exists_name e hmem
    refine ⟨(fits_of_mem_visit_top hmem).present, a, habs, ha, ?_⟩
    rw [(a.fullcompare_spec name).lt, ha, ← (fits_of_mem_visit_top hmem).name_eq]
    exact hsplits.before e he

lemma Chain.AtLast.atPredecessor (h : Sound t) {name : Name}
    {chain : Chain} (hw : t.visit [] [] [] = v ++ v') (hsplits : Levels.Splits name.key v v')
    (hlast : chain.AtLast v) : chain.AtPredecessor t name := by
  have hbefore := hsplits.before_iff h hw
  rcases hlast with ⟨rfl, rfl⟩ | ⟨v0, e, k, rfl, rfl⟩
  · constructor
    case reset_iff => exact iff_of_true rfl fun p hp => by simpa using (hbefore p).mp hp
    case reset => exact fun _ => rfl
    all_goals exact fun p hp => nomatch hp
  · have hmem : e ∈ t.visit [] [] [] := by simp [hw]
    have hhere := (hbefore e.pos).mpr ⟨e, by simp, rfl⟩
    constructor
    case reset_iff => exact iff_of_false nofun fun hno => hno _ hhere
    case reset => exact nofun
    case before =>
      rintro p ⟨⟩
      exact hhere
    case levels =>
      rintro p ⟨⟩
      exact (fits_of_mem_visit_top hmem).levels_eq
    case greatest =>
      rintro p ⟨⟩ q hq hne a b ha hb
      obtain ⟨f, hf, rfl⟩ := (hbefore q).mp hq
      have hfv0 : f ∈ v0 := by
        rcases mem_append.mp hf with hf | hf
        · exact hf
        · exact absurd (congrArg pos (mem_singleton.mp hf)) hne
      have hfmem : f ∈ t.visit [] [] [] := by simp [hw, hfv0]
      have hsorted := visit_sorted h.good [] [] []
      rw [hw, pairwise_append, pairwise_append] at hsorted
      rw [(a.fullcompare_spec b).lt, ha, hb, ← (fits_of_mem_visit_top hfmem).name_eq,
        ← (fits_of_mem_visit_top hmem).name_eq]
      exact hsorted.1.2.2 f hfv0 e (by simp)

lemma fullName_ne {key : List (List ℕ)} (h : ∀ e ∈ t.visit [] [] [], e.name ≠ key) (p : Pos)
    (hp : t.sub p ≠ .nil) : t.fullName p ≠ key := by
  obtain ⟨e, he, rfl⟩ := exists_mem_visit_top hp
  rw [← (fits_of_mem_visit_top he).name_eq]
  exact h e he

/-- A search for an absolute name that no node has leaves the chain at the node before the name. -/
theorem Reachable.findnode_predecessor (ht : Reachable t) (name : Name)
    (habs : name.absolute) (hno : ∀ p, t.sub p ≠ .nil → t.fullName p ≠ name.key)
    (emptydata noexact : Bool) :
    ∃ result node chain, t.findnodeChain [] emptydata noexact name.key = some (result, node, chain) ∧
      chain.AtPredecessor t name := by
  have h := ht.sound
  rw [findnodeChain]
  cases hnil : t.isNil with
  | true =>
    obtain rfl := isNil_iff.mp hnil
    have hlast : Chain.reset.AtLast ([] : List (Entry (List ℕ))) := .inl ⟨rfl, rfl⟩
    exact ⟨_, _, _, rfl, hlast.atPredecessor h (append_nil []).symm ⟨by simp, by simp⟩⟩
  | false =>
    have hat : Search.AtLevel t name.key (t.visit [] [] [])
        ⟨some [], [], .none, .eq, name.key, [], none⟩ [] [] [] [] :=
      { current_eq := rfl
        good := h.good
        present := hnil
        search_ne := key_ne_nil habs
        key_eq := rfl
        walk_eq := (append_nil _).symm
        splits := ⟨by simp, by simp⟩ }
    have hnames : ∀ e ∈ t.visit [] [] [], e.name ≠ name.key := by
      intro e he
      rw [(fits_of_mem_visit_top he).name_eq]
      exact hno e.pos (fits_of_mem_visit_top he).present
    have hstopped : Search.Stopped t name.key _ (Search.loop t emptydata _ _) :=
      hat.loop hnames (name.key.length + 1) (Nat.le_succ _)
    obtain ⟨v, v', chain, hw, hsplits, hchain, hlast⟩ := hstopped.predecessor h.name_head
    simp only [Bool.false_eq_true, if_false, hstopped.1, hchain, map_some]
    exact ⟨_, _, chain, rfl, hlast.atPredecessor h hw hsplits⟩

end

/-- In the tree of `a.` and `b.`, the node before `x.a.` is that of `a.`. -/
theorem Reachable.findnode_predecessor_below :
    let name : Name := ⟨[⟨[120], by decide⟩, ⟨[97], by decide⟩, Label.root], by decide, by decide⟩
    let t : Levels (List ℕ) Unit :=
      ((nil.addnode .none (letter 97).key).2.addnode .none (letter 98).key).2
    ∃ result node chain, t.findnodeChain [] false false name.key = some (result, node, chain) ∧
      chain.AtPredecessor t name :=
  Reachable.findnode_predecessor (.addnode _ _ (by decide) (.addnode _ _ (by decide) .create)) _
    (by decide) (fullName_ne (by decide)) false false

end LbBind.Rbt

import LbBind.Rdataslab.Layout

/-! Iteration over a well-formed slab. The offset-table methods and the stock methods with
`LOADORDER` follow the offset table, the other stock methods the records. One lemma about a cursor
that moves along a list of record starts serves all three. -/

namespace LbBind.Rdataslab

open Lib List Option Rdataset Rdatatype

/-- A slab that holds the records of `rs` and whose offset table is `offs`. -/
structure WellFormed (m : Mem) (type : ℕ) (rs : List Rdata) (offs : List ℕ) : Prop where
  layout : Layout m type rs
  table : Table m offs
  perm : offs.Perm (starts type (2 + rs.length * 4) rs)
  fits : ∀ r ∈ rs, Fits type r
  small : endOf type (2 + rs.length * 4) rs ≤ 2 ^ 32

variable {m : Mem} {type p : ℕ} {rs : List Rdata} {visit : List ℕ} {pointer : ℕ → ℕ}

lemma RecordAt.data_rdataAt {r : Rdata} (h : RecordAt m type p r) :
    (rdataAt m type p).data = r.data := by
  have hlen := h.length
  have hdata := h.data
  have := m.rd16_lt p
  by_cases ht : type = rrsig
  · simp only [metaLength, ht, if_true] at hlen hdata
    have hmod : (m.rd16 p + (2 ^ 32 - 1)) % 2 ^ 32 = r.data.length := by omega
    simp only [rdataAt, ht, if_true, hmod]
    exact hdata
  · simp only [metaLength, ht, if_false, Nat.add_zero] at hlen hdata
    simp only [rdataAt, ht, if_false, hlen]
    exact hdata

lemma RecordAt.next {r : Rdata} (h : RecordAt m type p r) :
    p + recordSize type r = p + m.rd16 p + 4 := by
  rw [h.length, recordSize]
  omega

section
variable (h : RecordsAt m type p rs)
include h

lemma map_rdataAt_starts :
    (starts type p rs).map (fun s => (rdataAt m type s).data) = rs.map (·.data) := by
  induction rs generalizing p with
  | nil => rfl
  | cons r t ih => rw [starts, map_cons, map_cons, h.1.data_rdataAt, ih h.2]

lemma starts_succ
    (i : ℕ) (hi : i + 1 < rs.length) : (starts type p rs).getD (i + 1) 0 =
      (starts type p rs).getD i 0 + m.rd16 ((starts type p rs).getD i 0) + 4 := by
  induction rs generalizing p i with
  | nil => simp at hi
  | cons r t ih =>
    cases i with
    | zero =>
      obtain ⟨r', t, rfl⟩ := exists_cons_of_length_pos (show 0 < t.length by simpa using hi)
      simp [starts, h.1.next]
    | succ i => simpa [starts] using ih h.2 i (by simpa using hi)

/-- Walk `k` records from `p` on, as `dns_rdataslab_size` does. -/
def walk (m : Mem) : ℕ → ℕ → List ℕ
  | 0, _ => []
  | k + 1, p => p :: walk m k (p + m.rd16 p + 4)

def recordStarts (m : Mem) : List ℕ := walk m (count m) (2 + count m * 4)

def offsetTable (m : Mem) : List ℕ := (List.range (count m)).map fun i => m.rd32 (2 + i * 4)

lemma walk_eq_starts : walk m rs.length p = starts type p rs := by
  induction rs generalizing p with
  | nil => rfl
  | cons r t ih => rw [length_cons, walk, starts, ← h.1.next, ih h.2]

end

lemma Layout.recordStarts_eq (h : Layout m type rs) :
    recordStarts m = starts type (2 + rs.length * 4) rs := by
  rw [recordStarts, h.count, walk_eq_starts h.records]

attribute [local simp] offsetTable first rbtdbFirst

lemma offsetTable_eq {offs : List ℕ} (hcount : count m = offs.length)
    (h : Table m offs) : offsetTable m = offs := by
  apply ext_getElem
  · simp [hcount]
  · intro i h1 h2
    simp [h.offset i h2]

lemma offsetTable_drop {i : ℕ} (h : i < count m) :
    (offsetTable m).drop i = m.rd32 (2 + i * 4) :: (offsetTable m).drop (i + 1) := by
  rw [drop_eq_getElem_cons (by simpa using h)]
  simp

def cursor (rs : Rdataset) (n : ℕ) (pointer : ℕ → ℕ) (i : ℕ) : Rdataset :=
  { rs with privateuint4 := n - 1 - i, private5 := some (pointer i) }

/-- What the methods of `rs` do on a slab: `visit` lists the records in the order
of iteration, `pointer` is the iterator's pointer at each position. -/
structure Visits (m : Mem) (rs : Rdataset) (visit : List ℕ) (pointer : ℕ → ℕ) : Prop where
  empty : visit.length = 0 → first m rs = (.noMore, { rs with private5 := none })
  first : 0 < visit.length → first m rs = (.success, cursor rs visit.length pointer 0)
  next : ∀ i, i + 1 < visit.length → next m (cursor rs visit.length pointer i) =
    (.success, cursor rs visit.length pointer (i + 1))
  last : ∀ i, i + 1 = visit.length → Rdataslab.next m (cursor rs visit.length pointer i) =
    (.noMore, cursor rs visit.length pointer i)
  current : ∀ i (h : i < visit.length),
    current m (cursor rs visit.length pointer i) = some (rdataAt m rs.type visit[i])

lemma Visits.collect_cursor {rs : Rdataset} (h : Visits m rs visit pointer) {k i : ℕ}
    (hi : i < visit.length) (hk : visit.length ≤ i + k) :
    collect m k (.success, cursor rs visit.length pointer i) =
      some ((visit.drop i).map (rdataAt m rs.type), .noMore,
        cursor rs visit.length pointer (visit.length - 1)) := by
  induction k generalizing i with
  | zero => omega
  | succ k ih =>
    simp only [collect, if_true, h.current i hi, bind_eq_bind, bind_some]
    rw [drop_eq_getElem_cons hi, map_cons]
    by_cases hlast : i + 1 = visit.length
    · rw [h.last i hlast]
      have hdrop : visit.drop (i + 1) = [] := drop_eq_nil_of_le (by omega)
      cases k <;> simp [collect, hdrop, ← hlast]
    · rw [h.next i (by omega), ih (by omega) (by omega), bind_some]

lemma Visits.collect {rs : Rdataset}
    (h : Visits m rs visit pointer) {k : ℕ} (hk : visit.length ≤ k) :
    ∃ u p, collect m k (Rdataslab.first m rs) = some (visit.map (rdataAt m rs.type), .noMore,
      { rs with privateuint4 := u, private5 := p }) := by
  by_cases hn : visit.length = 0
  · have hnil := length_eq_zero_iff.mp hn
    rw [h.empty hn]
    refine ⟨rs.privateuint4, none, ?_⟩
    cases k <;> simp [Rdataslab.collect, hnil]
  · rw [h.first (by omega), h.collect_cursor (by omega) (by omega)]
    exact ⟨_, _, rfl⟩

/-- Whether the methods follow the records rather than the offset table. -/
def physical (rs : Rdataset) : Bool := rs.methods == .rbtdb false && !rs.loadorder

def visitOrder (m : Mem) (rs : Rdataset) : List ℕ :=
  if physical rs then recordStarts m else offsetTable m

variable {m : Mem} {rs : Rdataset} {rdatas : List Rdata} {offs : List ℕ} {type : ℕ}

section
variable (h : WellFormed m type rdatas offs)
include h

lemma WellFormed.length_offs :
    offs.length = rdatas.length := by
  rw [h.perm.length_eq, length_starts]

lemma WellFormed.count_eq : count m = offs.length := by
  rw [h.layout.count, h.length_offs]

lemma WellFormed.offsetTable_eq : offsetTable m = offs :=
  Rdataslab.offsetTable_eq h.count_eq h.table

end

section
variable (h : rs.methods ≠ .rbtdb false)
include h

lemma first_of_methods : first m rs = rdatasetFirst m rs := by
  unfold first
  split <;> simp_all

lemma next_of_methods : next m rs = rdatasetNext m rs := by
  unfold next
  split <;> simp_all

lemma current_of_methods :
    current m rs = rdatasetCurrent m rs := by
  unfold current
  split <;> simp_all

end

attribute [local simp] cursor

lemma visits_offsetTable (hm : rs.methods ≠ .rbtdb false) (hcount : count m = offs.length)
    (h : Table m offs) : Visits m rs offs fun i => offs.getD i 0 := by
  refine ⟨fun hn => ?_, fun hn => ?_, fun i hi => ?_, fun i hi => ?_, fun i hi => ?_⟩
  · rw [first_of_methods hm, rdatasetFirst, if_pos (by omega)]
  · have := h.offset 0 hn
    rw [first_of_methods hm, rdatasetFirst, if_neg (by omega), hcount]
    simp [hn, ← this]
  · have hoff := h.offset (i + 1) hi
    have hpos : offs.length - (offs.length - 1 - i) = i + 1 := by omega
    rw [next_of_methods (show (cursor rs _ _ i).methods ≠ _ from hm), rdatasetNext,
      if_neg (by simp only [cursor]; omega)]
    simp only [cursor, hcount, hpos, hoff, getD_eq_getElem _ _ hi]
    simp only [Prod.mk.injEq, mk.injEq, true_and, and_true]
    omega
  · rw [next_of_methods (show (cursor rs _ _ i).methods ≠ _ from hm), rdatasetNext,
      if_pos (by simp only [cursor]; omega)]
  · rw [current_of_methods (show (cursor rs _ _ i).methods ≠ _ from hm), rdatasetCurrent]
    simp [getElem?_eq_getElem hi]

lemma visits_loadorder (hm : rs.methods = .rbtdb false) (hl : rs.loadorder)
    (hcount : count m = offs.length) (h : Table m offs) : Visits m rs offs fun i => 2 + i * 4 := by
  refine ⟨fun hn => ?_, fun hn => ?_, fun i hi => ?_, fun i hi => ?_, fun i hi => ?_⟩
  · simp [hm, hcount, hn]
  · have : offs.length ≠ 0 := by omega
    simp [hm, hcount, this, hl]
  · have hne : offs.length - 1 - i ≠ 0 := by omega
    simp only [next, cursor, hm, rbtdbNext, hne, if_false, hl, if_true, map_some]
    simp only [Prod.mk.injEq, mk.injEq, true_and, some.injEq]
    omega
  · have he : offs.length - 1 - i = 0 := by omega
    simp [next, hm, rbtdbNext, he]
  · simp [current, hm, rbtdbCurrent, hl, h.offset i hi]

lemma visits_physical (hm : rs.methods = .rbtdb false) (hl : rs.loadorder = false)
    (h : Layout m rs.type rdatas) :
    Visits m rs (starts rs.type (2 + rdatas.length * 4) rdatas) fun i =>
      (starts rs.type (2 + rdatas.length * 4) rdatas).getD i 0 := by
  have hlen := length_starts rs.type (2 + rdatas.length * 4) rdatas
  refine ⟨fun hn => ?_, fun hn => ?_, fun i hi => ?_, fun i hi => ?_, fun i hi => ?_⟩
  · have : rdatas.length = 0 := by omega
    simp [hm, h.count, this]
  · have hne : rdatas ≠ [] := by rintro rfl; simp [starts] at hn
    obtain ⟨r, t, rfl⟩ := exists_cons_of_ne_nil hne
    simp [hm, h.count, hl, starts, Nat.mul_comm 4]
  · have hne : rdatas.length - 1 - i ≠ 0 := by omega
    have hstep := starts_succ h.records i (by omega)
    simp only [next, cursor, hm, rbtdbNext, hlen, hne, if_false, hl, map_some, hstep]
    simp only [Prod.mk.injEq, mk.injEq, true_and, Bool.false_eq_true, if_false, and_true]
    omega
  · have he : rdatas.length - 1 - i = 0 := by omega
    simp [next, hm, rbtdbNext, he]
  · simp [current, hm, rbtdbCurrent, hl, getElem?_eq_getElem hi]

lemma WellFormed.visits (h : WellFormed m rs.type rdatas offs) :
    ∃ pointer, Visits m rs (visitOrder m rs) pointer := by
  have hcount := h.count_eq
  by_cases hm : rs.methods = .rbtdb false
  · cases hl : rs.loadorder with
    | true =>
      rw [visitOrder, physical, hl, h.offsetTable_eq]
      simp only [Bool.not_true, Bool.and_false, Bool.false_eq_true, if_false]
      exact ⟨_, visits_loadorder hm hl hcount h.table⟩
    | false =>
      rw [visitOrder, physical, hl, hm, h.layout.recordStarts_eq]
      simp only [BEq.rfl, Bool.not_false, Bool.and_self, if_true]
      exact ⟨_, visits_physical hm hl h.layout⟩
  · have hp : physical rs = false := by simp [physical, hm]
    rw [visitOrder, hp, h.offsetTable_eq]
    exact ⟨_, visits_offsetTable hm hcount h.table⟩

end LbBind.Rdataslab

import LbBind.Rpz.Tree

/-! Longest matching over whole runs. As long as every node that gets a new parent becomes the child
it belongs to, a lookup finds the longest trigger that contains the address. The bit that `search`
looks at for this is the one after the bit that decides; where the two differ the node is lost. -/

namespace LbBind.Rpz

open List Tree Node

variable {behind : Behind} {ip : Key} {bits : ℕ}

section
variable {n : Node} {child : Bool → Tree} (h : Useful n child)
include h

lemma Useful.data_iff : n.flags ∩ ({.ip, .ipData} ∩ dataFlags) ≠ ∅ ↔ .ipData ∈ n.flags := by
  obtain hf | ⟨hf, -⟩ := h <;> rw [hf] <;> decide

lemma Useful.marked : .ip ∈ n.flags := by
  obtain hf | ⟨hf, -⟩ := h <;> rw [hf] <;> decide

lemma Useful.inter_ne : n.flags ∩ {.ip, .ipData} ≠ ∅ := by
  obtain hf | ⟨hf, -⟩ := h <;> rw [hf] <;> decide

lemma Useful.sdiff : n.flags \ dataFlags = {.ip} := by
  obtain hf | ⟨hf, -⟩ := h <;> rw [hf] <;> decide

lemma Useful.flags_eq (hdata : .ipData ∈ n.flags) : n.flags = {.ip, .ipData} := by
  obtain hf | ⟨hf, -⟩ := h
  · exact hf
  · simp [hf] at hdata

end

def nodeWords (behind : Behind) (ip : Key) (bits : ℕ) (n : Node) : List ℕ :=
  (diffKeys behind.target ip bits (behind.node n) n.ip n.bits).2

@[simp] lemma plug_frame (n : Node) (child : Bool → Tree) (b : Bool) (path : List Frame) :
    plug (frame n child b :: path) (child b) = plug path (.node n child) := by
  simp only [plug, Frame.plug, frame, children_eta]

variable {n : Node} {child : Bool → Tree} {p : ℕ → Bool} {m : ℕ} {t : Tree} {path : List Frame}

lemma search_node (h : Useful n child) (hbits : bits ≤ 128)
    (path : List Frame) (result : Result) (found : Option Place) (words : List ℕ) :
    search behind ip bits .ip false 0 (.node n child) path result found words =
      if dbit behind ip bits n = bits then
        if bits = n.bits ∧ .ipData ∈ n.flags then
          ⟨.success, some ⟨n, child, path⟩, plug path (.node n child),
            words ++ nodeWords behind ip bits n⟩
        else ⟨result, found, plug path (.node n child), words ++ nodeWords behind ip bits n⟩
      else if dbit behind ip bits n = n.bits then
        search behind ip bits .ip false 0 (child (ip.bit n.bits))
          (frame n child (ip.bit n.bits) :: path)
          (if .ipData ∈ n.flags then .partialmatch else result)
          (if .ipData ∈ n.flags then some ⟨n, child, path⟩ else found)
          (words ++ nodeWords behind ip bits n ++ [n.bits / 32])
      else ⟨result, found, plug path (.node n child), words ++ nodeWords behind ip bits n⟩ := by
  have hd := dbit_spec behind ip hbits n
  have hdata := h.data_iff
  have hflags := h.inter_ne
  rw [search]
  simp only [getFlags, hflags, false_and, if_false, hdata, ← nodeWords.eq_def, ← dbit.eq_def,
    Bool.false_eq_true, Bool.not_false, if_true]
  by_cases htarget : dbit behind ip bits n = bits
  · simp only [htarget, if_true]
    by_cases hsame : bits = n.bits
    · by_cases hf : Flag.ipData ∈ n.flags <;> simp [hsame, hf]
    · simp [hsame]
  · by_cases hnode : dbit behind ip bits n = n.bits
    · have hlt : n.bits < 128 := by
        have := hd.le_left
        omega
      have hne : n.bits ≠ bits := hnode ▸ htarget
      simp only [hnode, hne, if_false, if_true, ipBit_eq_bit behind.target ip hlt]
    · simp [htarget, hnode]

lemma Tree.Ordered.child_nil
    (h : (node n child).Ordered p m) (hbits : n.bits = 128) (b : Bool) : child b = .nil := by
  rcases hc : child b with _ | ⟨x, c⟩
  · rfl
  · have hx := h.2 b
    rw [hc] at hx
    have := hx.1.le_bits
    have := hx.1.bits_le
    omega

/-- What a lookup relies on; it says nothing about the order of the nodes. -/
structure Plain (n : Node) (child : Bool → Tree) : Prop where
  bits_le : n.bits ≤ 128
  useful : Useful n child
  full : n.bits = 128 → ∀ b, child b = .nil

def Tree.Tidy : Tree → Prop
  | .nil => True
  | .node n child => Plain n child ∧ ∀ b, (child b).Tidy

lemma Tree.Ordered.tidy (h : t.Ordered p m) : t.Tidy := by
  induction t generalizing p m with
  | nil => trivial
  | node n child ih =>
    exact ⟨⟨h.1.bits_le, h.1.useful, h.child_nil⟩, fun b => ih b (h.child b)⟩

lemma Tree.Tidy.added (h : t.Tidy) (hbits : bits ≤ 128) : (Rpz.added behind ip bits t).Tidy := by
  induction t with
  | nil => exact ⟨⟨hbits, .inl rfl, fun _ _ => rfl⟩, fun _ => trivial⟩
  | node n child ih =>
    have hd := dbit_spec behind ip hbits n
    have hle := h.1.bits_le
    rw [Rpz.added]
    split_ifs with htarget hsame hnode
    · refine ⟨⟨h.1.bits_le, .inl ?_, h.1.full⟩, h.2⟩
      obtain hf | ⟨hf, -⟩ := h.1.useful <;> simp [mark, hf]
    · have hlt : bits < n.bits := lt_of_le_of_ne (htarget ▸ hd.le_right) hsame
      exact ⟨⟨hbits, .inl rfl, fun hfull => absurd hfull (by simp only [dataNode]; omega)⟩,
        (forall_children (P := fun _ t => t.Tidy)).mpr ⟨h, trivial⟩⟩
    · have hlt : n.bits < bits := lt_of_le_of_ne (hnode ▸ hd.le_left) (by omega)
      refine ⟨⟨hle, h.1.useful.imp_right fun hc => ⟨hc.1, ?_⟩, fun hfull => by omega⟩, ?_⟩
      · exact (forall_children (P := fun _ t => t ≠ .nil)).mpr ⟨added_ne_nil _, hc.2 _⟩
      · exact (forall_children (P := fun _ t => t.Tidy)).mpr ⟨ih _ (h.2 _), h.2 _⟩
    · have hlt : dbit behind ip bits n < bits := lt_of_le_of_ne hd.le_left htarget
      refine ⟨⟨by simp only; omega, .inr ⟨rfl, ?_⟩, fun hfull => by simp only at hfull; omega⟩, ?_⟩
      · exact (forall_children (P := fun _ t => t ≠ .nil)).mpr ⟨by simp, by simp⟩
      · exact (forall_children (P := fun _ t => t.Tidy)).mpr
          ⟨⟨⟨hbits, .inl rfl, fun _ _ => rfl⟩, fun _ => trivial⟩, h⟩

attribute [local simp] longest

lemma search_longest (behind : Behind) (h : t.Tidy) (a : Key)
    (path : List Frame) (result : Result) (found : Option Place) (words : List ℕ)
    (hfound : found.isSome ↔ result = .success ∨ result = .partialmatch) :
    let s := search behind a 128 .ip false 0 t path result found words
    s.found.map Place.node = (longest a t).or (found.map Place.node) ∧
      (s.found.isSome ↔ s.result = .success ∨ s.result = .partialmatch) := by
  induction t generalizing path result found words with
  | nil => simpa [search] using hfound
  | node n child ih =>
    have hd := dbit_spec behind a le_rfl n
    have hle := h.1.bits_le
    rw [search_node h.1.useful le_rfl]
    by_cases htarget : dbit behind a 128 n = 128
    · have hbits : n.bits = 128 := le_antisymm hle (htarget ▸ hd.le_right)
      have hagree : Agree a n.ip n.bits := fun i hi => hd.agree i (by omega)
      rw [if_pos htarget]
      by_cases hdata : Flag.ipData ∈ n.flags
      · rw [if_pos ⟨hbits.symm, hdata⟩]
        simp [hagree, h.1.full hbits, hdata]
      · simpa [hagree, h.1.full hbits, hdata] using hfound
    rw [if_neg htarget]
    by_cases hnode : dbit behind a 128 n = n.bits
    · rw [if_pos hnode]
      have hagree : Agree a n.ip n.bits := hnode ▸ hd.agree
      have hrec := ih (a.bit n.bits) (h.2 _) (frame n child (a.bit n.bits) :: path)
        (if .ipData ∈ n.flags then .partialmatch else result)
        (if .ipData ∈ n.flags then some ⟨n, child, path⟩ else found)
        (words ++ nodeWords behind a 128 n ++ [n.bits / 32])
        (by split <;> simp [hfound])
      refine ⟨hrec.1.trans ?_, hrec.2⟩
      rw [longest, if_pos hagree, Option.or_assoc]
      split <;> simp
    · have hagree : ¬Agree a n.ip n.bits := fun hagree =>
        hnode (le_antisymm hd.le_right (hd.le_of_agree hagree hle le_rfl))
      simpa [hagree, hnode] using hfound

lemma find_eq (h : t.Tidy) {netaddr : Netaddr} {a : Key} (ha : netaddr.key = some a) :
    find behind t .ip netaddr = (longest a t).map fun n => (n.ip, n.bits) := by
  obtain ⟨hfound, hresult⟩ : (lookup behind t .ip a).found.map Place.node = longest a t ∧
      ((lookup behind t .ip a).found.isSome ↔ (lookup behind t .ip a).result = .success ∨
        (lookup behind t .ip a).result = .partialmatch) := by
    simpa [lookup] using search_longest behind h a [] .notfound none [] (by simp)
  simp only [find, ha, ← hresult, ← hfound, Option.map_map]
  rcases (lookup behind t .ip a).found with _ | place
  · simp
  · simp

lemma setNodeFlags_ip (n : Node) (hpath : ∀ f ∈ path, .ip ∈ f.node.flags) :
    setNodeFlags .ip n path = (n.mark {.ip, .ipData}, path) := by
  have hmark : ∀ f ∈ path, (fun f : Frame =>
      { f with node := f.node.mark ({.ip, .ipData} \ dataFlags) }) f = f := by
    intro f hf
    have hflags : f.node.flags ∪ ({.ip, .ipData} \ dataFlags) = f.node.flags := by
      rw [show ({.ip, .ipData} \ dataFlags : Finset Flag) = {.ip} by decide]
      exact Finset.union_eq_left.mpr (by simpa using hpath f hf)
    simp only [mark, hflags]
  simp only [setNodeFlags, getFlags, map_congr_left hmark, map_id']

lemma mark_newNode {flags : Finset Flag} (hflags : flags \ dataFlags ⊆ {.ip}) :
    (newNode ip bits flags).mark {.ip, .ipData} = dataNode ip bits := by
  have hunion : flags \ dataFlags ∪ {.ip, .ipData} = {.ip, .ipData} :=
    Finset.union_eq_right.mpr (hflags.trans (by simp))
  simp [newNode, mark, dataNode, hunion]

lemma Useful.mark_eq (h : Useful n child)
    (hdata : .ipData ∈ n.flags) : n.mark {.ip, .ipData} = n := by
  simp only [mark, h.flags_eq hdata, Finset.union_self]
  rw [← h.flags_eq hdata]

lemma search_added (h : t.Ordered p m) (hbits : bits ≤ 128) (room : ℕ)
    (hpath : ∀ f ∈ path, .ip ∈ f.node.flags) (result : Result) (found : Option Place)
    (words : List ℕ) :
    let s := search behind ip bits .ip true room t path result found words
    s.root = plug path (if s.result = .nomemory then t else added behind ip bits t) := by
  induction t generalizing p m path result found words with
  | nil =>
    simp only [search, Bool.not_true, Bool.false_eq_true, if_false, setNodeFlags_ip _ hpath]
    split
    · simp
    · simp [added, mark_newNode]
  | node n child ih =>
    have hd := dbit_spec behind ip hbits n
    have hdata := h.1.useful.data_iff
    have hsdiff := h.1.useful.sdiff
    simp only [search, added, getFlags, hdata, ← dbit.eq_def, Bool.not_true, Bool.false_eq_true,
      and_false, if_false, if_true, setNodeFlags_ip _ hpath]
    by_cases htarget : dbit behind ip bits n = bits
    · simp only [htarget, if_true]
      by_cases hsame : bits = n.bits
      · simp only [hsame, if_true]
        split
        · rename_i hdata
          simp [h.1.useful.mark_eq hdata]
        · simp
      · simp only [hsame, if_false]
        split
        · simp
        · simp [mark_newNode hsdiff.le]
    · simp only [htarget, if_false]
      by_cases hnode : dbit behind ip bits n = n.bits
      · have hlt : n.bits < 128 := by
          have := hd.le_left
          omega
        simp only [hnode, if_true, ipBit_eq_bit behind.target ip hlt]
        have hframes : ∀ f ∈ frame n child (ip.bit n.bits) :: path, .ip ∈ f.node.flags := by
          simpa [frame] using ⟨h.1.useful.marked, hpath⟩
        rw [ih (ip.bit n.bits) (h.child _) hframes, apply_ite (plug _), apply_ite (plug path),
          plug_frame]
        rfl
      · simp only [hnode, if_false]
        split
        · simp
        · have hlt : dbit behind ip bits n < 128 := by
            have := hd.le_left
            omega
          have hframes : ∀ f ∈ (⟨newNode ip (dbit behind ip bits n) n.flags,
              ip.bit (dbit behind ip bits n), .node n child⟩ : Frame) :: path,
              .ip ∈ f.node.flags := by
            simpa [newNode, hsdiff] using hpath
          rw [ipBit_eq_bit behind.target ip hlt, setNodeFlags_ip _ hframes, mark_newNode (by simp)]
          simp [plug, Frame.plug, newNode, hsdiff]

def replace : List Frame → Tree → Tree
  | [], t => t
  | f :: path, t => replace path (rejoin f.node f.num t f.sibling)

structure Good (f : Frame) : Prop where
  useful : f.node.flags = {.ip, .ipData} ∨ f.node.flags = {.ip} ∧ f.sibling ≠ .nil
  marked : f.sibling ≠ .nil → .ip ∈ f.sibling.flags

lemma Tree.Ordered.marked (h : t.Ordered p m) (ht : t ≠ .nil) : .ip ∈ t.flags := by
  cases t with
  | nil => exact absurd rfl ht
  | node n child => exact h.1.useful.marked

lemma Tree.Ordered.frame_good
    (h : (node n child).Ordered p m) (b : Bool) : Good (frame n child b) :=
  ⟨h.1.useful.imp_right fun hc => ⟨hc.1, hc.2 _⟩, (h.child _).marked⟩

lemma replace_eq_plug (ht : t ≠ .nil) (path : List Frame) : replace path t = plug path t := by
  induction path generalizing t with
  | nil => rfl
  | cons f path ih =>
    have hjoin : rejoin f.node f.num t f.sibling = f.plug t := by simp [rejoin, ht, Frame.plug]
    rw [replace, plug, hjoin]
    exact ih (by simp [Frame.plug])

lemma onlyChild_children_nil (b : Bool) (t : Tree) : onlyChild (children b .nil t) = t := by
  cases b <;> cases t <;> rfl

lemma Good.prune_iff {f : Frame} (hf : Good f) (t : Tree) :
    useless f.node (children f.num t f.sibling) ↔ t.isNil ∧ .ipData ∉ f.node.flags := by
  obtain hflags | ⟨hflags, hne⟩ := hf.useful
  · simp [useless, hflags, show ({.ip, .ipData} ∩ dataFlags : Finset Flag) ≠ ∅ by decide]
  · have hsibling : f.sibling.isNil = false := by simpa using hne
    cases hnum : f.num <;>
      simp [useless, hflags, children, hsibling,
        show ({.ip} ∩ dataFlags : Finset Flag) = ∅ by decide]

lemma prune_frame {f : Frame} (hf : Good f) (t : Tree) (hpath : ∀ f ∈ path, Good f) :
    prune f.node (children f.num t f.sibling) path =
      replace path (rejoin f.node f.num t f.sibling) := by
  induction path generalizing f t with
  | nil =>
    simp only [prune, hf.prune_iff t, replace, rejoin]
    split
    · rename_i hnil
      rw [isNil_iff.mp hnil.1, onlyChild_children_nil]
    · rfl
  | cons f' path ih =>
    simp only [prune, hf.prune_iff t, rejoin]
    split
    · rename_i hnil
      rw [isNil_iff.mp hnil.1, onlyChild_children_nil]
      exact ih (hpath f' (by simp)) f.sibling fun f hf => hpath f (by simp [hf])
    · rw [replace_eq_plug (by simp)]
      rfl

lemma prune_eq (n : Node) (child : Bool → Tree) (hpath : ∀ f ∈ path, Good f) :
    prune n child path =
      replace path (if useless n child then onlyChild child else .node n child) := by
  cases path with
  | nil => rfl
  | cons f path =>
    rw [prune]
    split
    · exact prune_frame (hpath f (by simp)) _ fun f hf => hpath f (by simp [hf])
    · rw [replace_eq_plug (by simp)]
      rfl

lemma clearPath_eq (hpath : ∀ f ∈ path, Good f) :
    clearPath {.ip, .ipData} ({.ip, .ipData} ∩ dataFlags) (.node n child) path = path := by
  cases path with
  | nil => rfl
  | cons f path =>
    have hf := hpath f (by simp)
    have hkeeps : keepsFlags {.ip, .ipData} ({.ip, .ipData} ∩ dataFlags) f.node
        (children f.num (.node n child) f.sibling) := by
      obtain hflags | ⟨-, hne⟩ := hf.useful
      · have hne : ({.ip, .ipData} ∩ ({.ip, .ipData} ∩ dataFlags) : Finset Flag) ≠ ∅ := by decide
        simp only [keepsFlags, hflags, hne, ne_eq, not_false_iff, true_or, decide_true]
      · have hmarked : f.sibling.flags ∩ {.ip, .ipData} ≠ ∅ := Finset.nonempty_iff_ne_empty.mp
          ⟨.ip, by simpa using hf.marked hne⟩
        cases hnum : f.num <;> simp [keepsFlags, children, hmarked]
    rw [clearPath, if_pos hkeeps]

lemma useless_iff (hn : n.flags ∩ dataFlags = ∅) (child : Bool → Tree) :
    useless n child ↔ (child false).isNil ∨ (child true).isNil := by
  simp [useless, hn]

/-- What `dns_rpz_cidr_deleteip` does with the node it found. -/
lemma unlink_eq (h : (node n child).Ordered p m) (hdata : .ipData ∈ n.flags)
    (hpath : ∀ f ∈ path, Good f) :
    let q := clearFlags {.ip, .ipData} ({.ip, .ipData} ∩ dataFlags)
      ⟨n.clear ({.ip, .ipData} ∩ dataFlags), child, path⟩
    prune q.node q.child q.path = replace path (collapse n child) := by
  have hflags := h.1.useful.flags_eq hdata
  have hclear : n.clear ({.ip, .ipData} ∩ dataFlags) = { n with flags := {.ip} } := by
    simp only [clear, hflags]
    congr 1
  simp only [hclear, clearFlags]
  split
  · have hn : ({ n with flags := {.ip} } : Node).flags ∩ dataFlags = ∅ :=
      show ({.ip} ∩ dataFlags : Finset Flag) = ∅ by decide
    simp only [prune_eq _ _ hpath, useless_iff hn, collapse]
  · -- no child is left
    rename_i hkeeps
    have hnil : ∀ b, child b = .nil := by
      intro b
      by_contra hne
      have hmarked : (child b).flags ∩ {.ip, .ipData} ≠ ∅ := Finset.nonempty_iff_ne_empty.mp
        ⟨.ip, by simpa using (h.child b).marked hne⟩
      cases b <;> simp [keepsFlags, hmarked] at hkeeps
    have hn : (({ n with flags := {.ip} } : Node).clear {.ip, .ipData}).flags ∩ dataFlags = ∅ :=
      show ({.ip} \ {.ip, .ipData} ∩ dataFlags : Finset Flag) = ∅ by decide
    simp only [clearPath_eq hpath, prune_eq _ _ hpath, useless_iff hn, collapse, hnil, isNil,
      true_or, if_true]

lemma rejoin_self (h : Useful n child) (b : Bool) :
    rejoin n b (child b) (child !b) = .node n child := by
  rw [rejoin, children_eta, if_neg]
  rintro ⟨hnil, hdata⟩
  obtain hf | ⟨-, hne⟩ := h
  · simp [hf] at hdata
  · exact hne b (isNil_iff.mp hnil)

lemma search_removed (behind : Behind) (ip : Key) (h : t.Ordered p m) (hbits : bits ≤ 128)
    (hpath : ∀ f ∈ path, Good f) {result : Result}
    (hresult : result ≠ .success) (found : Option Place) (words : List ℕ) :
    let s := search behind ip bits .ip false 0 t path result found words
    (∃ n child path', s.result = .success ∧ s.found = some ⟨n, child, path'⟩ ∧
      (∃ p m, (node n child).Ordered p m) ∧ .ipData ∈ n.flags ∧ (∀ f ∈ path', Good f) ∧
      replace path' (collapse n child) = replace path (removed behind ip bits t)) ∨
    (s.result ≠ .success ∧ s.root = plug path t ∧ removed behind ip bits t = t) := by
  induction t generalizing p m path result found words with
  | nil => exact .inr ⟨hresult, rfl, rfl⟩
  | node n child ih =>
    rw [search_node h.1.useful hbits, removed]
    by_cases htarget : dbit behind ip bits n = bits
    · simp only [htarget, if_true]
      by_cases hsame : bits = n.bits ∧ .ipData ∈ n.flags
      · rw [if_pos hsame, if_pos hsame]
        exact .inl ⟨n, child, path, rfl, rfl, ⟨p, m, h⟩, hsame.2, hpath, rfl⟩
      · rw [if_neg hsame, if_neg hsame]
        exact .inr ⟨hresult, rfl, rfl⟩
    · simp only [htarget, if_false]
      by_cases hnode : dbit behind ip bits n = n.bits
      · simp only [hnode, if_true]
        have hframes : ∀ f ∈ frame n child (ip.bit n.bits) :: path, Good f := by
          simpa using ⟨h.frame_good _, hpath⟩
        obtain hfound | ⟨hr, hroot, hself⟩ := ih (ip.bit n.bits) (h.child _) hframes
          (show (if Flag.ipData ∈ n.flags then Result.partialmatch else result) ≠ .success by
            split <;> simp [hresult]) _ _
        · exact .inl hfound
        · refine .inr ⟨hr, hroot.trans (plug_frame _ _ _ _), ?_⟩
          rw [hself, rejoin_self h.1.useful]
      · simp only [hnode, if_false]
        exact .inr ⟨hresult, trivial, trivial⟩

lemma deleteip_eq (h : t.Ordered p m) (hbits : bits ≤ 128) :
    (deleteip behind t ip bits .ip).1 = removed behind ip bits t := by
  obtain ⟨n, child, path, hr, hfound, ⟨q, k, hn⟩, hdata, hpath, heq⟩ | ⟨hr, hroot, hself⟩ :=
    search_removed behind ip h hbits (forall_mem_nil Good)
      (show Result.notfound ≠ .success by simp) none []
  · simp only [deleteip, hr, hfound, getFlags]
    rw [unlink_eq hn hdata hpath, heq]
    rfl
  · rw [deleteip]
    split
    · exact absurd ‹_› hr
    · exact hroot.trans hself.symm

def Tree.Short : Tree → Prop
  | .nil => True
  | .node n child => n.bits < 128 ∧ ∀ b, (child b).Short

lemma Tree.Ordered.short (h : t.Ordered p m) (ht : ∀ e, t.Has e → e.2 < 128) : t.Short := by
  induction t generalizing p m with
  | nil => trivial
  | node n child ih =>
    refine ⟨lt_of_le_of_ne h.1.bits_le fun hbits => ?_,
      fun b => ih b (h.child b) fun e he => ht e (.inr ⟨b, he⟩)⟩
    obtain hf | ⟨-, hne⟩ := h.1.useful
    · exact (ht _ (.inl ⟨by simp [hf], rfl⟩)).ne hbits
    · exact hne false (h.child_nil hbits false)

lemma Tree.Short.words (h : t.Short) (hbits : bits ≤ 128) (kind : Kind) (create : Bool)
    (room : ℕ) (path : List Frame) (result : Result) (found : Option Place) {words : List ℕ}
    (hwords : ∀ i ∈ words, i < 4) :
    ∀ i ∈ (search behind ip bits kind create room t path result found words).words, i < 4 := by
  induction t generalizing path result found words with
  | nil =>
    rw [search]
    split_ifs <;> exact hwords
  | node n child ih =>
    have hd := dbit_spec behind ip hbits n
    have hnode : ∀ i ∈ words ++ (diffKeys behind.target ip bits (behind.node n) n.ip n.bits).2,
        i < 4 := fun i hi => (mem_append.mp hi).elim (hwords i) (diffKeys_words (by
      have := h.1
      omega))
    have hmore : ∀ j < 128, ∀ i ∈ words ++
        (diffKeys behind.target ip bits (behind.node n) n.ip n.bits).2 ++ [j / 32], i < 4 := by
      intro j hj i hi
      rcases mem_append.mp hi with hi | hi
      · exact hnode i hi
      · obtain rfl := mem_singleton.mp hi
        omega
    have hlt := h.1
    have hle := hd.le_right
    rw [search]
    simp only [← dbit.eq_def]
    split_ifs
    all_goals first
      | exact hwords
      | exact hnode
      | exact hmore _ (by omega)
      | exact ih _ (h.2 _) _ _ _ (hmore _ (by omega))

lemma search_words_of_full (h : t.Ordered p m) {a : Key} {x : Node} (hx : longest a t = some x)
    (hfull : x.bits = 128) (path : List Frame) (result : Result) (found : Option Place)
    (words : List ℕ) : 4 ∈ (search behind a 128 .ip false 0 t path result found words).words := by
  induction t generalizing p m path result found words with
  | nil => simp at hx
  | node n child ih =>
    have hd := dbit_spec behind a le_rfl n
    have hle := h.1.bits_le
    rw [search_node h.1.useful le_rfl]
    by_cases htarget : dbit behind a 128 n = 128
    · have hbits : n.bits = 128 := le_antisymm hle (htarget ▸ hd.le_right)
      have hself : n.ip = a := (Key.ext_bit (htarget ▸ hd.agree)).symm
      have hmem : 4 ∈ nodeWords behind a 128 n := by
        rw [nodeWords, hbits, hself]
        exact diffKeys_words_self _ _ _
      rw [if_pos htarget]
      split <;> simp [hmem]
    · rw [if_neg htarget]
      rw [longest] at hx
      by_cases hagree : Agree a n.ip n.bits
      · have hnode : dbit behind a 128 n = n.bits :=
          le_antisymm hd.le_right (hd.le_of_agree hagree hle le_rfl)
        rw [if_pos hnode]
        rw [if_pos hagree] at hx
        refine ih _ (h.child _) ?_ _ _ _ _
        rcases hchild : longest a (child (a.bit n.bits)) with _ | y
        · rw [hchild, Option.none_or] at hx
          split at hx
          · obtain rfl := Option.some_inj.mp hx
            exact absurd (hnode.trans hfull) htarget
          · cases hx
        · rwa [hchild, Option.some_or] at hx
      · rw [if_neg hagree] at hx
        cases hx

structure Trigger where
  ip : Key
  bits : ℕ
  bits_le : bits ≤ 128

def Trigger.entry (g : Trigger) : Key × ℕ := canonical g.ip g.bits

inductive Op
  | add (g : Trigger) (room : ℕ)
  | delete (g : Trigger)

structure Zone where
  tree : Tree
  present : Set (Key × ℕ)

section
variable (behind) (z : Zone)

def Zone.step : Op → Zone
  | .add g room =>
    let s := addip behind z.tree g.ip g.bits .ip room
    ⟨s.root, if s.result = .nomemory then z.present else insert g.entry z.present⟩
  | .delete g => ⟨(deleteip behind z.tree g.ip g.bits .ip).1, z.present \ {g.entry}⟩

def Op.words : Op → List ℕ
  | .add g room => (addip behind z.tree g.ip g.bits .ip room).words
  | .delete g => (deleteip behind z.tree g.ip g.bits .ip).2

def Always (P : Zone → Prop) : Zone → List Op → Prop
  | z, [] => P z
  | z, op :: ops => P z ∧ Always P (z.step behind op) ops

def EachStep (P : Zone → Op → Prop) : Zone → List Op → Prop
  | _, [] => True
  | z, op :: ops => P z op ∧ EachStep P (z.step behind op) ops

/-- Every lookup gives the longest trigger that is present and contains the address. -/
def Zone.Answers : Prop :=
  ∀ netaddr a, netaddr.key = some a → IsLongest z.present a (find behind z.tree .ip netaddr)

def Zone.Inside : Prop := ∀ a, ∀ i ∈ (lookup behind z.tree .ip a).words, i < 4

def Op.Sided : Op → Prop
  | .add g room => (addip behind z.tree g.ip g.bits .ip room).result = .nomemory ∨
      OnRightSide behind g.ip g.bits z.tree
  | .delete _ => True

def Op.NotFull : Op → Prop
  | .add g room => (addip behind z.tree g.ip g.bits .ip room).result = .nomemory ∨ g.bits < 128
  | .delete _ => True

structure Zone.Sound (z : Zone) : Prop where
  ordered : ∃ p, z.tree.Ordered p 0
  present : ∀ e, z.tree.Has e ↔ e ∈ z.present

end

variable {z : Zone} {op : Op} {P : Zone → Prop} {ops : List Op}

lemma Zone.Sound.answers (h : z.Sound) : z.Answers behind := by
  obtain ⟨p, hp⟩ := h.ordered
  intro netaddr a ha
  have heq : z.present = {e | z.tree.Has e} := Set.ext fun e => (h.present e).symm
  rw [find_eq hp.tidy ha, heq]
  exact longest_spec hp a

lemma addip_root (h : t.Ordered p m) (hbits : bits ≤ 128)
    (room : ℕ) : (addip behind t ip bits .ip room).root =
      if (addip behind t ip bits .ip room).result = .nomemory then t
      else added behind ip bits t :=
  search_added h hbits room (forall_mem_nil _) _ _ _

lemma Zone.step_add (z : Zone) (g : Trigger) (room : ℕ)
    (h : z.tree.Ordered p 0) : z.step behind (.add g room) =
      if (addip behind z.tree g.ip g.bits .ip room).result = .nomemory then z
      else ⟨added behind g.ip g.bits z.tree, insert g.entry z.present⟩ := by
  simp only [Zone.step, addip_root h g.bits_le]
  split <;> rfl

/-- An operation that loses no node keeps the tree and the triggers together. -/
lemma Zone.Sound.step (h : z.Sound) (hop : op.Sided behind z) : (z.step behind op).Sound := by
  obtain ⟨p, hp⟩ := h.ordered
  cases op with
  | add g room =>
    rw [z.step_add g room hp]
    split
    · exact h
    · rename_i hmem
      have hside := hop.resolve_left hmem
      refine ⟨⟨p, hp.added g.bits_le (Nat.zero_le _) (by simp) hside⟩, fun e => ?_⟩
      rw [hp.has_added g.bits_le, h.present, Set.mem_insert_iff, or_comm]
      rfl
  | delete g =>
    simp only [Zone.step, deleteip_eq hp g.bits_le]
    refine ⟨⟨p, hp.removed⟩, fun e => ?_⟩
    rw [hp.has_removed g.bits_le, h.present]
    rfl

lemma Zone.Sound.not_answers (h : z.Sound) (hop : ¬op.Sided behind z) :
    ¬(z.step behind op).Answers behind := by
  obtain ⟨p, hp⟩ := h.ordered
  cases op with
  | delete g => exact absurd trivial hop
  | add g room =>
    rw [Op.Sided, not_or] at hop
    rw [z.step_add g room hp, if_neg hop.1]
    intro hanswers
    obtain ⟨e, he, hlong, hfound⟩ := hp.lost g.bits_le hop.2
    have hlongest := hanswers (.inet6 e.1) e.1 rfl
    rw [find_eq (hp.tidy.added g.bits_le) rfl, hfound] at hlongest
    exact absurd (hlongest.2.2 e (.inr ((h.present e).mp he)) fun _ _ => rfl) (not_le.mpr hlong)

lemma Always.head (h : Always behind P z ops) : P z := by
  cases ops with
  | nil => exact h
  | cons op ops => exact h.1

lemma Zone.Sound.always_answers_iff (h : z.Sound) (ops : List Op) :
    Always behind (Zone.Answers behind) z ops ↔
      EachStep behind (fun z op => op.Sided behind z) z ops := by
  induction ops generalizing z with
  | nil => exact ⟨fun _ => trivial, fun _ => h.answers⟩
  | cons op ops ih =>
    constructor
    · rintro ⟨-, hrest⟩
      have hop : op.Sided behind z := by
        by_contra hop
        exact h.not_answers hop hrest.head
      exact ⟨hop, (ih (h.step hop)).mp hrest⟩
    · rintro ⟨hop, hrest⟩
      exact ⟨h.answers, (ih (h.step hop)).mpr hrest⟩

lemma Zone.Sound.inside (h : z.Sound) (hshort : ∀ e ∈ z.present, e.2 < 128) : z.tree.Short := by
  obtain ⟨p, hp⟩ := h.ordered
  exact hp.short fun e he => hshort e ((h.present e).mp he)

lemma Op.words_lt (h : z.tree.Short) (op : Op) : ∀ i ∈ op.words behind z, i < 4 := by
  cases op with
  | add g room => exact h.words g.bits_le _ _ _ _ _ _ (by simp)
  | delete g =>
    have hwords : ∀ i ∈ (search behind g.ip g.bits .ip false 0 z.tree [] .notfound none []).words,
        i < 4 := h.words g.bits_le _ _ _ _ _ _ (by simp)
    simp only [Op.words, deleteip]
    split <;> exact hwords

lemma Zone.Sound.not_inside (h : z.Sound) {g : Trigger} (hg : g.entry ∈ z.present)
    (hfull : g.bits = 128) : ¬z.Inside behind := by
  obtain ⟨p, hp⟩ := h.ordered
  intro hinside
  have hlongest := longest_spec hp g.ip
  have hcontains : Contains g.entry g.ip := (maskKey_agree g.ip g.bits_le).symm
  have hmem := (h.present _).mpr hg
  rcases hx : longest g.ip z.tree with _ | x
  · rw [hx] at hlongest
    exact hlongest _ hmem hcontains
  · rw [hx] at hlongest
    have hbits : x.bits = 128 :=
      le_antisymm (hp.starts hlongest.1).bits_le (hfull ▸ hlongest.2.2 _ hmem hcontains)
    exact absurd (hinside g.ip 4 (search_words_of_full hp hx hbits _ _ _ _)) (by omega)

lemma Zone.present_step_short (hshort : ∀ e ∈ z.present, e.2 < 128)
    (hop : op.NotFull behind z) : ∀ e ∈ (z.step behind op).present, e.2 < 128 := by
  cases op with
  | delete g => exact fun e he => hshort e he.1
  | add g room =>
    simp only [Zone.step]
    split
    · exact hshort
    · rename_i hmem
      rintro e (rfl | he)
      · exact hop.resolve_left hmem
      · exact hshort e he

lemma Zone.Sound.always_inside_iff (h : z.Sound) (hshort : ∀ e ∈ z.present, e.2 < 128)
    (hsided : EachStep behind (fun z op => op.Sided behind z) z ops) :
    (Always behind (Zone.Inside behind) z ops ∧
      EachStep behind (fun z op => ∀ i ∈ op.words behind z, i < 4) z ops) ↔
      EachStep behind (fun z op => op.NotFull behind z) z ops := by
  induction ops generalizing z with
  | nil =>
    exact ⟨fun _ => trivial, fun _ =>
      ⟨fun a => (h.inside hshort).words le_rfl _ _ _ _ _ _ (by simp), trivial⟩⟩
  | cons op ops ih =>
    have hstep := h.step hsided.1
    constructor
    · rintro ⟨⟨-, hrest⟩, -, hrest'⟩
      have hop : op.NotFull behind z := by
        cases op with
        | delete g => trivial
        | add g room =>
          by_contra hop
          rw [Op.NotFull, not_or] at hop
          refine hstep.not_inside (g := g) ?_ (le_antisymm g.bits_le (not_lt.mp hop.2)) hrest.head
          simp [Zone.step, hop.1]
      exact ⟨hop, (ih hstep (z.present_step_short hshort hop) hsided.2).mp ⟨hrest, hrest'⟩⟩
    · rintro ⟨hop, hrest⟩
      have hih := (ih hstep (z.present_step_short hshort hop) hsided.2).mpr hrest
      exact ⟨⟨fun a => (h.inside hshort).words le_rfl _ _ _ _ _ _ (by simp), hih.1⟩,
        op.words_lt (h.inside hshort), hih.2⟩

lemma always_and {Q : Zone → Prop} :
    Always behind (fun z => P z ∧ Q z) z ops ↔ Always behind P z ops ∧ Always behind Q z ops := by
  induction ops generalizing z with
  | nil => rfl
  | cons op ops ih =>
    simp only [Always, ih]
    tauto

lemma eachStep_and {P Q : Zone → Op → Prop} :
    EachStep behind (fun z op => P z op ∧ Q z op) z ops ↔
      EachStep behind P z ops ∧ EachStep behind Q z ops := by
  induction ops generalizing z with
  | nil => exact ⟨fun _ => ⟨trivial, trivial⟩, fun _ => trivial⟩
  | cons op ops ih =>
    simp only [EachStep, ih]
    tauto

def Zone.empty : Zone := ⟨.nil, ∅⟩

lemma Zone.empty_sound : Zone.empty.Sound := ⟨⟨fun _ => false, trivial⟩, fun _ => Iff.rfl⟩

/-- In every run from an empty tree: lookups are right in all states if and only if no addition
puts a node on the wrong side of its new parent; and they are right, and all words are read inside
the keys, if and only if moreover no whole address is added. -/
theorem find_iff (behind : Behind) (ops : List Op) :
    (Always behind (Zone.Answers behind) Zone.empty ops ↔
      EachStep behind (fun z op => op.Sided behind z) Zone.empty ops) ∧
    (Always behind (fun z => z.Answers behind ∧ z.Inside behind) Zone.empty ops ∧
        EachStep behind (fun z op => ∀ i ∈ op.words behind z, i < 4) Zone.empty ops ↔
      EachStep behind (fun z op => op.Sided behind z ∧ op.NotFull behind z) Zone.empty ops) := by
  have hanswers : Always behind (Zone.Answers behind) Zone.empty ops ↔
      EachStep behind (fun z op => op.Sided behind z) Zone.empty ops :=
    Zone.empty_sound.always_answers_iff ops
  refine ⟨hanswers, ?_⟩
  rw [always_and, eachStep_and, hanswers, and_assoc]
  refine and_congr_right fun hsided => ?_
  exact Zone.empty_sound.always_inside_iff (by simp [Zone.empty]) hsided

def mapped (addr : Word) : Key
  | 3 => addr
  | 2 => 0xffff
  | _ => 0

def nested : List Op :=
  [.add ⟨mapped 0xc0004000, 120, by decide⟩ 2, .add ⟨mapped 0xc0000000, 112, by decide⟩ 2]

def zeros : Behind := ⟨0, fun _ => 0⟩

/-- After 192.0.64.0/24 and then 192.0.0.0/16 have been added, 192.0.64.1 is answered with the
second one. -/
theorem find_nested :
    let z := nested.foldl (Zone.step zeros) Zone.empty
    find zeros z.tree .ip (.inet 0xc0004001) = some (mapped 0xc0000000, 112) ∧
      (mapped 0xc0004000, 120) ∈ z.present ∧
      Contains (mapped 0xc0004000, 120) (mapped 0xc0004001) := by
  have hmask : canonical (mapped 0xc0004000) 120 = (mapped 0xc0004000, 120) := by decide
  have hfirst : (addip zeros .nil (mapped 0xc0004000) 120 .ip 2).result ≠ .nomemory := by decide
  have hsecond : (addip zeros (addip zeros .nil (mapped 0xc0004000) 120 .ip 2).root
      (mapped 0xc0000000) 112 .ip 2).result ≠ .nomemory := by decide
  refine ⟨by decide, ?_, show Agree _ _ _ by decide⟩
  simp only [nested, foldl_cons, foldl_nil, Zone.step, Zone.empty, hfirst, hsecond, if_false,
    Trigger.entry, hmask]
  exact .inr (.inl rfl)

/-- Looking up the only trigger, 192.0.2.1/32, reads a fifth word. -/
example : 4 ∈ (lookup zeros (Zone.empty.step zeros
    (.add ⟨mapped 0xc0000201, 128, by decide⟩ 2)).tree .ip (mapped 0xc0000201)).words := by
  decide

end LbBind.Rpz

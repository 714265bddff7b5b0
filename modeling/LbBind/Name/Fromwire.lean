import LbBind.Lib.Bytes
import LbBind.Name.Basic

/-! Reading a name off a message (`dns_name_fromwire` of `lib/dns/name.c`) by a byte automaton:
length bytes open a label, pointers jump to a smaller offset, and the root label ends the name. The
relation `Spells` says what stands at an offset of a message; the automaton reads every spelled
name. -/

namespace LbBind

open Lib List Label Mem Nat

inductive FwState where
  | start
  | ordinary
  | newcurrent
  deriving DecidableEq

/-- The local variables of `dns_name_fromwire`. The bytes written to the target so
far are `ndata`; the label count is the length of `offsets`. -/
structure Fw where
  state : FwState
  current : ℕ
  biggestPointer : ℕ
  newCurrent : ℕ
  n : ℕ
  nused : ℕ
  cused : ℕ
  offsets : List ℕ
  ndata : List UInt8
  seenPointer : Bool
  done : Bool
  deriving DecidableEq

/-- What a call leaves: the name, its offsets table and the number of bytes by
which the source moves forward. -/
structure Decoded where
  name : Wire
  offsets : List ℕ
  cused : ℕ
  deriving DecidableEq

section
variable (base : Mem) (active nmax : ℕ) (global14 downcase : Bool)

/-- A name that does not fit: `nmax` tells whether the target was too small. -/
def full : Result := if nmax = 255 then .nameTooLong else .noSpace

/-- One round of the loop: the byte at `current` is consumed. -/
def Fw.step (s : Fw) : Except Result Fw :=
  let c := base s.current
  let s := { s with
    current := s.current + 1
    cused := if s.seenPointer then s.cused else s.cused + 1 }
  match s.state with
  | .start =>
    if c.toNat < 64 then
      if s.nused + c.toNat + 1 > nmax then .error (full nmax)
      else .ok { s with
        offsets := s.offsets ++ [s.nused]
        nused := s.nused + c.toNat + 1
        ndata := s.ndata ++ [c]
        done := c == 0
        n := c.toNat
        state := .ordinary }
    else if 128 ≤ c.toNat ∧ c.toNat < 192 then .error .badLabelType
    else if 192 ≤ c.toNat then
      if global14 then .ok { s with newCurrent := c.toNat % 64, n := 1, state := .newcurrent }
      else .error .disallowed
    else .error .badLabelType
  | .ordinary =>
    .ok { s with
      ndata := s.ndata ++ [if downcase then maptolower c else c]
      n := s.n - 1
      state := if s.n - 1 = 0 then .start else .ordinary }
  | .newcurrent =>
    -- the counter is one here, so the second byte completes the offset
    if s.newCurrent * 256 + c.toNat ≥ s.biggestPointer then .error .badPointer
    else .ok { s with
      newCurrent := s.newCurrent * 256 + c.toNat
      n := s.n - 1
      biggestPointer := s.newCurrent * 256 + c.toNat
      current := s.newCurrent * 256 + c.toNat
      seenPointer := true
      state := .start }

variable {base active nmax global14 downcase} in
/-- A round moves forward, or jumps below the smallest offset jumped to so far. -/
lemma Fw.step_decreases {s s' : Fw} (h : s.step base nmax global14 downcase = .ok s')
    (hlt : s.current < active) : Prod.Lex (· < ·) (· < ·) (s'.biggestPointer, active - s'.current)
      (s.biggestPointer, active - s.current) := by
  have hforward : ∀ t : Fw, t.biggestPointer = s.biggestPointer → t.current = s.current + 1 →
      Prod.Lex (· < ·) (· < ·) (t.biggestPointer, active - t.current)
        (s.biggestPointer, active - s.current) := by
    intro t hb hc
    rw [hb, hc]
    exact Prod.Lex.right _ (by omega)
  unfold step at h
  cases hs : s.state with
  | start =>
    simp only [hs] at h
    split_ifs at h <;> cases h <;> exact hforward _ rfl rfl
  | ordinary =>
    simp only [hs] at h
    cases h
    exact hforward _ rfl rfl
  | newcurrent =>
    simp only [hs] at h
    by_cases hp : s.newCurrent * 256 + (base s.current).toNat ≥ s.biggestPointer
    · simp [hp] at h
    · simp only [hp, if_false, Except.ok.injEq] at h
      subst h
      exact Prod.Lex.left _ _ (by simpa using hp)

/-- The loop of `dns_name_fromwire`. -/
def Fw.run (s : Fw) : Except Result Fw := if _h : s.current < active ∧ s.done = false then
    match _hs : s.step base nmax global14 downcase with
    | .error r => .error r
    | .ok s' => Fw.run s'
  else .ok s
termination_by (s.biggestPointer, active - s.current)
decreasing_by exact Fw.step_decreases _hs _h.1

/-- `dns_name_fromwire` from offset `current`, with `available` bytes of target. On
failure nothing is left but the result code. -/
def fromwire (current available : ℕ) : Except Result Decoded :=
  match Fw.run base active (min available 255) global14 downcase
      ⟨.start, current, current, 0, 0, 0, 0, [], [], false, false⟩ with
  | .error r => .error r
  | .ok s =>
    if s.done then .ok ⟨⟨s.ndata, s.offsets.length⟩, s.offsets, s.cused⟩
    else .error .unexpectedEnd

end

/-- A label as it is copied, with `DNS_NAME_DOWNCASE` in lower case. -/
def Label.read (downcase : Bool) (l : Label) : Label := if downcase then l.downcase else l

@[simp] lemma Label.read_false (l : Label) : l.read false = l := rfl

lemma Label.map_read_false (ls : List Label) : ls.map (read false) = ls := by
  simp [funext read_false]

attribute [local simp] bytes

lemma Label.bytes_read (downcase : Bool) (l : Label) : (l.read downcase).bytes =
    UInt8.ofNat l.1.length :: l.1.map fun c => if downcase then maptolower c else c := by
  cases downcase <;> simp [read, downcase, lower]

/-- The bytes of a message from offset `p` on spell the labels `ls`: labels up to
the root label, or up to a pointer below `bound` at which the rest is spelled. The
part at `p` ends before `stop`, the rest before `bound`. -/
inductive Spells (base : Mem) : (p bound stop : ℕ) → List Label → Prop
  | root {p bound : ℕ} (h : base p = 0) : Spells base p bound (p + 1) [root]
  | label {p bound stop : ℕ} {ls : List Label} (l : Label) (hne : l ≠ root)
      (h : base.slice p l.bytes.length = l.bytes)
      (tail : Spells base (p + l.bytes.length) bound stop ls) : Spells base p bound stop (l :: ls)
  | pointer {p bound stop q : ℕ} {ls : List Label} (hq : q < 0x4000)
      (h : base.rd16 p = 0xc000 + q) (hlt : q < bound) (hstop : stop ≤ bound)
      (target : Spells base q q stop ls) : Spells base p bound (p + 2) ls

namespace Spells

variable {base base' : Mem} {p bound bound' stop : ℕ} {ls : List Label}

section
variable (h : Spells base p bound stop ls)
include h

lemma mono (hb : bound ≤ bound') :
    Spells base p bound' stop ls := by
  induction h with
  | root h => exact .root h
  | label l hne h _ ih => exact .label l hne h (ih hb)
  | pointer hq h hlt hstop target _ =>
    exact .pointer hq h (by omega) (by omega) target

lemma lt_stop : p < stop := by
  induction h with
  | root _ => omega
  | label l _ _ _ ih => omega
  | pointer => omega

lemma congr {limit : ℕ} (hb : bound ≤ limit) (hs : stop ≤ limit)
    (hbase : ∀ r < limit, base' r = base r) : Spells base' p bound stop ls := by
  induction h with
  | root h => exact .root (by rw [hbase _ (by omega), h])
  | label l hne h tail ih =>
    have hlt := tail.lt_stop
    exact .label l hne ((slice_congr fun r _ _ => hbase r (by omega)).trans h) (ih hb hs)
  | pointer hq h hlt hstop target ih =>
    exact .pointer hq ((rd16_congr fun r _ _ => hbase r (by omega)).trans h) hlt hstop
      (ih (by omega) (by omega))

end

variable {ms : List Label}

variable (hroot : ∀ l ∈ ls, l ≠ Label.root) (hs : base.slice p (wireOf ls).length = wireOf ls)
  (tail : Spells base (p + (wireOf ls).length) bound stop ms)
include hroot hs tail

lemma literal : Spells base p bound stop (ls ++ ms) := by
  induction ls generalizing p with
  | nil => simpa using tail
  | cons l ls ih =>
    rw [wireOf_cons, length_append, slice_add] at hs
    obtain ⟨hl, hls⟩ := append_inj hs (by simp)
    refine .label l (hroot l (by simp)) hl
      (ih (fun k hk => hroot k (by simp [hk])) hls ?_)
    rwa [wireOf_cons, length_append, ← add_assoc] at tail

lemma literal_drop (k : ℕ) :
    Spells base (p + (wireOf (ls.take k)).length) bound stop (ls.drop k ++ ms) := by
  have hlen := length_wireOf_take_add_drop ls k
  rw [← wireOf_take_append_drop ls k, length_append, slice_add] at hs
  obtain ⟨-, hdrop⟩ := append_inj hs (by simp)
  refine literal (fun l hl => hroot l (mem_of_mem_drop hl)) hdrop ?_
  rwa [add_assoc, hlen]

end Spells

/-- Labels `ls` can be read from offset `p` on; pointers lead below `bound`. The first part, up to
and with the first pointer or the root label, takes `k` bytes. -/
inductive Reads (base : Mem) (active : ℕ) (global14 : Bool) :
    (p bound : ℕ) → List Label → (k : ℕ) → Prop
  | root {p bound : ℕ} (hp : p < active) (h : base p = 0) :
      Reads base active global14 p bound [root] 1
  | label {p bound k : ℕ} {ls : List Label} (l : Label) (hne : l ≠ root)
      (hp : p + l.bytes.length ≤ active) (h : base.slice p l.bytes.length = l.bytes)
      (tail : Reads base active global14 (p + l.bytes.length) bound ls k) :
      Reads base active global14 p bound (l :: ls) (l.bytes.length + k)
  | pointer {p bound q k : ℕ} {ls : List Label} (hallowed : global14) (hp : p + 2 ≤ active)
      (hq : q < 0x4000) (h : base.rd16 p = 0xc000 + q) (hlt : q < bound)
      (target : Reads base active global14 q q ls k) : Reads base active global14 p bound ls 2

variable {base : Mem} {active p bound k available : ℕ} {ls : List Label} {global14 : Bool}

lemma Spells.reads {stop : ℕ} (h : Spells base p bound stop ls) (hstop : stop ≤ active)
    (hbound : bound ≤ active) : Reads base active true p bound ls (stop - p) := by
  induction h with
  | root h =>
    rw [Nat.add_sub_cancel_left]
    exact .root hstop h
  | @label p bound stop ls l hne h tail ih =>
    have hlt := tail.lt_stop
    rw [show stop - p = l.bytes.length + (stop - (p + l.bytes.length)) by omega]
    exact .label l hne (by omega) h (ih hstop hbound)
  | pointer hq h hlt hst _ ih =>
    rw [Nat.add_sub_cancel_left]
    exact .pointer rfl hstop hq h hlt (ih (hst.trans hbound) (by omega))

lemma Reads.literal {ms : List Label}
    (hroot : ∀ l ∈ ls, l ≠ Label.root) (hs : base.slice p (wireOf ls).length = wireOf ls)
    (tail : Reads base active global14 (p + (wireOf ls).length) bound ms k)
    (ha : p + (wireOf ls).length ≤ active) :
    Reads base active global14 p bound (ls ++ ms) ((wireOf ls).length + k) := by
  induction ls generalizing p with
  | nil => simpa using tail
  | cons l ls ih =>
    rw [wireOf_cons, length_append] at hs tail ha ⊢
    rw [slice_add] at hs
    obtain ⟨hl, hls⟩ := append_inj hs (by simp)
    rw [add_assoc]
    rw [← add_assoc] at tail
    exact .label l (hroot l (by simp)) (by omega) hl
      (ih (fun k hk => hroot k (by simp [hk])) hls tail (by omega))

namespace Fw

variable {base : Mem} {active nmax : ℕ} {global14 downcase : Bool}

lemma run_step {s s' : Fw} (hlt : s.current < active) (hd : s.done = false)
    (h : s.step base nmax global14 downcase = .ok s') :
    s.run base active nmax global14 downcase = s'.run base active nmax global14 downcase := by
  rw [run, dif_pos ⟨hlt, hd⟩]
  split
  · simp_all
  · simp_all

lemma run_done {s : Fw} (hd : s.done) : s.run base active nmax global14 downcase = .ok s := by
  rw [run, dif_neg (by simp [hd])]

/-- The counter of consumed source bytes after `k` more of them. -/
def consume (s : Fw) (k : ℕ) : ℕ := if s.seenPointer then s.cused else s.cused + k

attribute [local simp] consume

lemma run_ordinary (bs : List UInt8) (s : Fw) (hne : bs ≠ []) (hs : s.state = .ordinary)
    (hn : s.n = bs.length) (hd : s.done = false) (hb : base.slice s.current bs.length = bs)
    (ha : s.current + bs.length ≤ active) : s.run base active nmax global14 downcase =
      run base active nmax global14 downcase { s with
        state := .start, n := 0, current := s.current + bs.length
        ndata := s.ndata ++ bs.map fun c => if downcase then maptolower c else c
        cused := s.consume bs.length } := by
  induction bs generalizing s with
  | nil => exact absurd rfl hne
  | cons c bs ih =>
    simp only [length_cons] at hn ha
    obtain ⟨hc, hrest⟩ : base s.current = c ∧ base.slice (s.current + 1) bs.length = bs := by
      simpa [slice_succ] using hb
    rw [run_step (by omega) hd (by simp only [step, hs, hc]; rfl)]
    cases bs with
    | nil => simp [hn]
    | cons d bs =>
      simp only [length_cons] at hn hrest ha
      rw [ih _ (by simp) (by simp [hn]) (by simp [hn]) (by exact hd) (by exact hrest)
        (by simp; omega)]
      congr 1
      cases hseen : s.seenPointer <;> simp [hseen] <;> omega

lemma run_label (downcase : Bool) (l : Label) (s : Fw) (hne : l ≠ root) (hs : s.state = .start)
    (hd : s.done = false) (hb : base.slice s.current l.bytes.length = l.bytes)
    (ha : s.current + l.bytes.length ≤ active) (hn : s.nused + l.bytes.length ≤ nmax) :
    s.run base active nmax global14 downcase = run base active nmax global14 downcase { s with
        n := 0, current := s.current + l.bytes.length
        ndata := s.ndata ++ (l.read downcase).bytes
        offsets := s.offsets ++ [s.nused], nused := s.nused + l.bytes.length
        cused := s.consume l.bytes.length } := by
  have hl : l.1 ≠ [] := fun h => hne (Subtype.ext h)
  simp only [length_bytes] at ha hn
  obtain ⟨hc, hrest⟩ : base s.current = UInt8.ofNat l.1.length ∧
      base.slice (s.current + 1) l.1.length = l.1 := by
    simpa [slice_succ] using hb
  have hdone : (UInt8.ofNat l.1.length == 0) = false := by
    rw [beq_eq_false_iff_ne, ne_eq, ← UInt8.toNat_inj, toNat_length]
    simpa using hl
  rw [run_step (by omega) hd (by
    simp only [step, hs, hc, toNat_length]
    rw [if_pos (by omega), if_neg (by omega)])]
  rw [run_ordinary l.1 _ hl rfl rfl hdone hrest (by exact ha.trans' (by simp; omega))]
  rw [bytes_read]
  congr 1
  cases hseen : s.seenPointer <;> simp [hseen, hd, hdone, hs] <;> omega

/-- The high byte of a pointer is above the length bytes, and its low six bits are
those of the offset. -/
lemma pointer_offset {a b q : ℕ} (hb : b < 256) (hq : q < 0x4000)
    (h : a * 256 + b = 0xc000 + q) : 192 ≤ a ∧ a % 64 * 256 + b = q := by
  have hlow : a % 64 = a - 192 := by omega
  rw [hlow]
  omega

lemma run_pointer {q : ℕ} (s : Fw) (hs : s.state = .start) (hd : s.done = false) (hq : q < 0x4000)
    (h : base.rd16 s.current = 0xc000 + q) (ha : s.current + 2 ≤ active)
    (hlt : q < s.biggestPointer) : s.run base active nmax true downcase =
      run base active nmax true downcase { s with
        n := 0, current := q, biggestPointer := q, newCurrent := q
        cused := s.consume 2, seenPointer := true } := by
  obtain ⟨hhigh, hnew⟩ := pointer_offset (base (s.current + 1)).toNat_lt hq h
  let t : Fw := { s with
    state := .newcurrent, n := 1, current := s.current + 1
    newCurrent := (base s.current).toNat % 64, cused := s.consume 1 }
  have hfirst : s.step base nmax true downcase = .ok t := by
    simp only [step, hs]
    rw [if_neg (by omega), if_neg (by omega), if_pos (by omega), if_pos trivial]
    rfl
  have hsecond : t.step base nmax true downcase = .ok { s with
      n := 0, current := q, biggestPointer := q, newCurrent := q
      cused := s.consume 2, seenPointer := true } := by
    simp only [step, t, hnew]
    rw [if_neg (by omega)]
    cases hseen : s.seenPointer <;> simp [hseen, hs]
  exact (run_step (by omega) hd hfirst).trans (run_step (by simp only [t]; omega) hd hsecond)

end Fw

def labelOffsets : ℕ → List Label → List ℕ
  | _, [] => []
  | k, l :: ls => k :: labelOffsets (k + l.bytes.length) ls

@[simp] lemma length_labelOffsets (k : ℕ) (ls : List Label) :
    (labelOffsets k ls).length = ls.length := by
  induction ls generalizing k with
  | nil => rfl
  | cons l ls ih => simp [labelOffsets, ih]

lemma Fw.run_reads (nmax : ℕ) (downcase : Bool) (h : Reads base active global14 p bound ls k)
    (s : Fw) (hs : s.state = .start) (hp : s.current = p) (hb : s.biggestPointer = bound)
    (hd : s.done = false) (hn : s.nused + (wireOf ls).length ≤ nmax) :
    ∃ t, s.run base active nmax global14 downcase = .ok t ∧ t.done ∧
      t.ndata = s.ndata ++ wireOf (ls.map (Label.read downcase)) ∧
      t.offsets = s.offsets ++ labelOffsets s.nused ls ∧ t.cused = s.consume k := by
  induction h generalizing s with
  | root hlt h =>
    refine ⟨_, (run_step (by omega) hd (by
      simp only [step, hs, hp, h]
      rw [if_pos (by decide), if_neg (by simpa [root] using hn)])).trans
        (run_done rfl), rfl, ?_, rfl, rfl⟩
    cases downcase <;> simp [Label.read, root, downcase, lower]
  | label l hne hlt h tail ih =>
    simp only [wireOf_cons, length_append] at hn
    rw [run_label downcase l s hne hs hd (by rwa [hp]) (by omega) (by omega)]
    obtain ⟨t, hrun, hdone, hdata, hoff, hused⟩ := ih
      { s with
        n := 0, current := s.current + l.bytes.length
        ndata := s.ndata ++ (l.read downcase).bytes
        offsets := s.offsets ++ [s.nused], nused := s.nused + l.bytes.length
        cused := s.consume l.bytes.length }
      hs (by simp [hp]) hb hd (by simp only; omega)
    refine ⟨t, hrun, hdone, by simp [hdata], by simp [hoff, labelOffsets], ?_⟩
    rw [hused]
    cases hseen : s.seenPointer <;> simp [consume, hseen]
    omega
  | @pointer p bound q k ls hallowed hlt hq h hqb target ih =>
    subst hallowed
    rw [run_pointer s hs hd hq (by rw [hp, h]) (by omega) (by omega)]
    obtain ⟨t, hrun, hdone, hdata, hoff, hused⟩ := ih
      { s with
        n := 0, current := q, biggestPointer := q, newCurrent := q
        cused := s.consume 2, seenPointer := true }
      hs rfl rfl hd hn
    exact ⟨t, hrun, hdone, hdata, hoff, by simp [hused, consume]⟩

def Fw.initial (current : ℕ) : Fw := ⟨.start, current, current, 0, 0, 0, 0, [], [], false, false⟩

lemma fromwire_of_reads {downcase : Bool} (h : Reads base active global14 p p ls k)
    (hroom : (wireOf ls).length ≤ min available 255) :
    fromwire base active global14 downcase p available =
      .ok ⟨wire (ls.map (read downcase)), labelOffsets 0 ls, k⟩ := by
  obtain ⟨t, hrun, hdone, hdata, hoff, hused⟩ := Fw.run_reads _ downcase h
    (Fw.initial p) rfl rfl rfl rfl ((zero_add _).trans_le hroom)
  rw [fromwire, show Fw.run base active (min available 255) global14 downcase
    ⟨.start, p, p, 0, 0, 0, 0, [], [], false, false⟩ = .ok t from hrun]
  simp [hdone, hdata, hoff, hused, Fw.consume, Fw.initial, wire]

/-- A spelled name is read back, and the source moves to the end of its part at
the start offset. -/
lemma Spells.fromwire {stop : ℕ} (h : Spells base p p stop ls) (hstop : stop ≤ active)
    (hn : (wireOf ls).length ≤ min available 255) : fromwire base active true false p available =
      .ok ⟨wire ls, labelOffsets 0 ls, stop - p⟩ := by
  rw [fromwire_of_reads (h.reads hstop (by have := h.lt_stop; omega)) hn, map_read_false]

lemma fromwire_literal {name : Name} (habs : name.absolute)
    (hb : base.slice p name.length = name.wire.ndata) (ha : p + name.length ≤ active)
    (hn : name.length ≤ available) : fromwire base active global14 false p available =
      .ok ⟨name.wire, labelOffsets 0 name.labels, name.length⟩ := by
  obtain ⟨hpos, hlast⟩ := Name.drop_of_absolute habs
  have hlabels := take_append_drop (name.labels.length - 1) name.labels
  rw [hlast] at hlabels
  have hroot : ∀ l ∈ name.labels.take (name.labels.length - 1), l ≠ root :=
    Name.ne_root_of_mem_take (by omega)
  generalize name.labels.take (name.labels.length - 1) = ls at hlabels hroot
  have hwire : name.wire.ndata = wireOf ls ++ [0] := by
    rw [Name.wire, wire, ← hlabels, wireOf_append]
    rfl
  have hlength : (wireOf ls).length + 1 = name.length := by
    rw [Name.length, ← hlabels, wireOf_append, length_append]
    rfl
  rw [hwire, ← hlength, slice_add] at hb
  obtain ⟨hls, hend⟩ := append_inj hb (by simp)
  have hreads : Reads base active global14 p p (ls ++ [root]) ((wireOf ls).length + 1) :=
    .literal hroot hls (.root (by omega) (by simpa [slice_succ] using hend)) (by omega)
  rw [hlabels, hlength] at hreads
  rw [fromwire_of_reads hreads (le_min hn name.short), map_read_false]
  rfl

variable {base base' : Mem} {active nmax nmax' current available : ℕ} {global14 downcase : Bool}
  {s : Fw}

lemma Fw.run_error {r : Result} (hlt : s.current < active) (hd : s.done = false)
    (hs : s.step base nmax global14 downcase = .error r) :
    run base active nmax global14 downcase s = .error r := by
  rw [run, dif_pos ⟨hlt, hd⟩]
  split
  · next heq => rw [hs] at heq; rw [← Except.error.inj heq]
  · next heq => rw [hs] at heq; cases heq

lemma Fw.run_end (h : ¬(s.current < active ∧ s.done = false)) :
    run base active nmax global14 downcase s = .ok s := by
  rw [run, dif_neg h]

lemma Fw.step_room {s' : Fw} (hn : nmax ≤ nmax')
    (h : s.step base nmax global14 downcase = .ok s') :
    s.step base nmax' global14 downcase = .ok s' := by
  unfold step at h ⊢
  cases hst : s.state with
  | start =>
    simp only [hst] at h ⊢
    by_cases hc : (base s.current).toNat < 64
    · simp only [hc, if_true] at h ⊢
      by_cases hfull : s.nused + (base s.current).toNat + 1 > nmax
      · simp [hfull] at h
      · rw [if_neg hfull] at h
        rwa [if_neg (by omega)]
    · simpa [hc] using h
  | ordinary => simpa [hst] using h
  | newcurrent => simpa [hst] using h

lemma Fw.run_room {s' : Fw} (hn : nmax ≤ nmax')
    (h : s.run base active nmax global14 downcase = .ok s') :
    s.run base active nmax' global14 downcase = .ok s' := by
  induction s using run.induct base active nmax global14 downcase with
  | case1 s hlt r hr =>
    rw [run_error hlt.1 hlt.2 hr] at h
    cases h
  | case2 s hlt t ht ih =>
    rw [run_step hlt.1 hlt.2 ht] at h
    rw [run_step hlt.1 hlt.2 (step_room hn ht)]
    exact ih h
  | case3 s hlt =>
    rw [run_end hlt] at h ⊢
    exact h

lemma fromwire_room {d : Decoded}
    (h : fromwire base active global14 downcase current available = .ok d) :
    fromwire base active global14 downcase current 255 = .ok d := by
  unfold fromwire at h ⊢
  split at h
  · cases h
  · next s hs =>
    rw [Fw.run_room (by omega : min available 255 ≤ min 255 255) hs]
    exact h

lemma Fw.step_ne_noSpace (s : Fw) : s.step base 255 global14 downcase ≠ .error .noSpace := by
  intro h
  unfold step at h
  cases hst : s.state <;> simp only [hst] at h <;> split_ifs at h <;> simp [full] at h

lemma fromwire_ne_noSpace (hroom : 255 ≤ available) :
    fromwire base active global14 downcase current available ≠ .error .noSpace := by
  have hrun : ∀ s : Fw, s.run base active 255 global14 downcase ≠ .error .noSpace := by
    intro s
    induction s using Fw.run.induct base active 255 global14 downcase with
    | case1 s hlt r hr =>
      rw [Fw.run_error hlt.1 hlt.2 hr]
      exact fun h => Fw.step_ne_noSpace s (hr.trans h)
    | case2 s hlt t ht ih =>
      rw [Fw.run_step hlt.1 hlt.2 ht]
      exact ih
    | case3 s hlt => simp [Fw.run_end hlt]
  unfold fromwire
  rw [min_eq_right hroom]
  split
  · next heq => exact fun h => hrun _ (heq.trans (by rw [Except.error.inj h]))
  · split_ifs <;> simp

lemma Fw.run_congr (hbase : ∀ p, p < active → base p = base' p) (s : Fw) :
    s.run base active nmax global14 downcase = s.run base' active nmax global14 downcase := by
  have hstep : ∀ t : Fw, t.current < active →
      t.step base nmax global14 downcase = t.step base' nmax global14 downcase := by
    intro t ht
    unfold step
    rw [hbase t.current ht]
  induction s using run.induct base active nmax global14 downcase with
  | case1 s hlt r hr =>
    rw [run_error hlt.1 hlt.2 hr, run_error hlt.1 hlt.2 ((hstep s hlt.1).symm.trans hr)]
  | case2 s hlt t ht ih =>
    rw [run_step hlt.1 hlt.2 ht, run_step hlt.1 hlt.2 ((hstep s hlt.1).symm.trans ht), ih]
  | case3 s hlt => rw [run_end hlt, run_end hlt]

lemma fromwire_congr (hbase : ∀ p, p < active → base p = base' p) :
    fromwire base active global14 downcase current available =
      fromwire base' active global14 downcase current available := by
  unfold fromwire
  rw [Fw.run_congr hbase]

end LbBind

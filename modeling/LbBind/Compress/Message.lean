import LbBind.Compress.Stack
import LbBind.Name.Fromwire

/-! Messages with compressed names. Names are written one after the other into a
buffer, between other bytes, and the buffer may be cut back to an earlier end of a
name together with the compression table. Every name that still stands is read
back from its start offset. -/

namespace LbBind.Compress

open Lib List Option Context Buffer Mem Relation Name Nat Wire

structure Written where
  name : Name
  start : ℕ
  stop : ℕ

structure Message where
  cctx : Context
  target : Buffer
  written : List Written

inductive Op where
  | towire (name : Name) (nocompress global14 : Bool)
  | append (bs : List UInt8)
  | rollback (offset : ℕ)

/-- Names are absolute, other bytes fit, and the buffer is cut at no place inside a
name; the end of a name that stands is such a place. -/
def Op.Allowed (m : Message) : Op → Prop
  | .towire name _ _ => name.absolute
  | .append bs => m.target.used + bs.length ≤ m.target.length
  | .rollback offset => offset ≤ m.target.used ∧ ∀ w ∈ m.written, w.stop ≤ offset ∨ offset ≤ w.start

/-- One call, with no answer where it would not end. A name that did not fit is not
written, even if a part of it is in the buffer. -/
def Message.exec (m : Message) : Op → Option Message
  | .towire name nocompress global14 =>
    (towire name nocompress (m.cctx.setmethods global14) m.target).map fun (r, cctx, target) =>
      ⟨cctx, target, if r = .success then
        m.written ++ [⟨name, m.target.used, target.used⟩] else m.written⟩
  | .append bs => some { m with target := m.target.putmem bs }
  | .rollback offset => (m.cctx.rollback (offset % 2 ^ 16)).map fun cctx =>
      ⟨cctx, { m.target with used := offset }, m.written.filter (·.stop ≤ offset)⟩

/-- The messages that arise from a fresh compression context, with or without case
sensitivity, and a buffer of at most 65535 bytes. -/
inductive Reachable (sensitive : Bool) : Message → Prop
  | start (nodes : Slot → Node) (mctx : Allocator) (target : Buffer)
      (hlength : target.length ≤ 65535) (hused : target.used ≤ target.length) :
      Reachable sensitive ⟨init nodes mctx sensitive, target, []⟩
  | step {m m' : Message} (h : Reachable sensitive m) (op : Op) (hop : op.Allowed m)
      (hexec : m.exec op = some m') : Reachable sensitive m'

/-- A call that leaves what is in the buffer. -/
def Writes (m m' : Message) : Prop :=
  ∃ op : Op, op.Allowed m ∧ (∀ offset, op ≠ .rollback offset) ∧ m.exec op = some m'

def Agrees (sensitive : Bool) (ls ms : List Label) : Prop :=
  SameLabels ls ms ∧ (sensitive → ls = ms)

namespace Agrees

variable {sensitive : Bool} {ls ms : List Label}

lemma refl (sensitive : Bool) (ls : List Label) : Agrees sensitive ls ls :=
  ⟨SameLabels.refl ls, fun _ => rfl⟩

lemma append_left (ks : List Label) (h : Agrees sensitive ls ms) :
    Agrees sensitive (ks ++ ls) (ks ++ ms) :=
  ⟨(SameLabels.refl ks).append h.1, fun hs => by rw [h.2 hs]⟩

lemma trans {ns : List Label} (h1 : Agrees sensitive ls ms) (h2 : Agrees sensitive ms ns) :
    Agrees sensitive ls ns :=
  ⟨h1.1.trans h2.1, fun hs => (h1.2 hs).trans (h2.2 hs)⟩

lemma of_sameName (h : sameName sensitive (wire ls) (wire ms)) : Agrees sensitive ls ms := by
  cases sensitive with
  | true =>
    have := (caseequal_iff ls ms).mp h
    exact this ▸ refl _ _
  | false => exact ⟨(equal_iff ls ms).mp h, by simp⟩

end Agrees

/-- What holds of a message and the stack of its compression table: every name that
stands is spelled in the buffer, and so is every registered suffix, within a name. -/
structure Sound (sensitive : Bool) (m : Message) (stack : List Entry) : Prop where
  holds : Holds m.cctx stack
  numbered : Numbered stack
  near : Near stack
  caseSensitive : m.cctx.caseSensitive = sensitive
  length : m.target.length ≤ 65535
  used : m.target.used ≤ m.target.length
  written : ∀ w ∈ m.written, w.start ≤ w.stop ∧ w.stop ≤ m.target.used ∧
    ∃ ls, Spells m.target.base w.start w.start w.stop ls ∧ Agrees sensitive ls w.name.labels
  entries : ∀ e ∈ stack, ∃ w ∈ m.written, w.start ≤ e.offset ∧
    ∃ ls ms, Spells m.target.base e.offset e.offset w.stop ls ∧ e.name = wire ms ∧
      Agrees sensitive ls ms

/-- With the bytes in use, the stack has grown by entries that stand behind them. -/
def Grown (sensitive : Bool) (used : ℕ) (stack : List Entry) (m : Message) : Prop :=
  used ≤ m.target.used ∧
    ∃ new, Sound sensitive m (stack ++ new) ∧ ∀ e ∈ new, used ≤ e.offset

namespace Sound

variable {sensitive : Bool} {m : Message} {stack : List Entry}

lemma grown {used : ℕ} (h : Sound sensitive m stack) (hused : used ≤ m.target.used) :
    Grown sensitive used stack m := ⟨hused, [], by simpa using h, by simp⟩

lemma start (nodes : Slot → Node) (mctx : Allocator) (target : Buffer)
    (hlength : target.length ≤ 65535) (hused : target.used ≤ target.length) :
    Sound sensitive ⟨init nodes mctx sensitive, target, []⟩ [] :=
  ⟨.init nodes mctx sensitive, rfl, by simp [Near], rfl, hlength, hused, by simp, by simp⟩

lemma entry_lt_used (h : Sound sensitive m stack) {e : Entry} (he : e ∈ stack) :
    e.offset < m.target.used := by
  obtain ⟨w, hw, -, ls, ms, hspells, -⟩ := h.entries e he
  have := hspells.lt_stop
  have := (h.written w hw).2.1
  omega

variable {target : Buffer} {name : Name} {n : ℕ}

section
variable (h : Sound sensitive m stack)
include h

/-- Writing behind the bytes in use changes nothing before. -/
lemma grow (hlength : target.length = m.target.length) (hused : m.target.used ≤ target.used)
    (hroom : target.used ≤ target.length)
    (hbase : ∀ r < m.target.used, target.base r = m.target.base r) :
    Sound sensitive { m with target := target } stack := by
  refine ⟨h.holds, h.numbered, h.near, h.caseSensitive, by rw [hlength]; exact h.length, hroom, ?_, ?_⟩
  · intro w hw
    obtain ⟨hstart, hstop, ls, hspells, hag⟩ := h.written w hw
    exact ⟨hstart, hstop.trans hused, ls, hspells.congr (by omega) hstop hbase, hag⟩
  · intro e he
    obtain ⟨w, hw, hwe, ls, ms, hspells, hrest⟩ := h.entries e he
    exact ⟨w, hw, hwe, ls, ms,
      hspells.congr (h.entry_lt_used he).le (h.written w hw).2.1 hbase, hrest⟩

lemma append (bs : List UInt8) (hroom : m.target.used + bs.length ≤ m.target.length) :
    Sound sensitive { m with target := m.target.putmem bs } stack :=
  h.grow rfl (by simp [putmem]) hroom fun _ hr => put_outside _ (.inl hr)

lemma setmethods (global14 : Bool) :
    Sound sensitive { m with cctx := m.cctx.setmethods global14 } stack :=
  ⟨⟨h.holds.count, h.holds.name, h.holds.offset, h.holds.index, h.holds.chains, h.holds.nodup,
      h.holds.placed, h.holds.sorted⟩,
    h.numbered, h.near, h.caseSensitive, h.length, h.used, h.written, h.entries⟩

lemma rollback {offset : ℕ} (hop : (Op.rollback offset).Allowed m) :
    ∃ m', m.exec (.rollback offset) = some m' ∧
      Sound sensitive m' (stack.filter (·.offset < offset)) := by
  obtain ⟨hle, hnone⟩ := hop
  have hsmall : offset % 2 ^ 16 = offset := mod_eq_of_lt (by
    have := h.used
    have := h.length
    omega)
  have hlen := length_lt_of_near h.holds.sorted h.near
  obtain ⟨cctx', hrun, hspares, hholds⟩ := h.holds.rollback (by omega) offset
  refine ⟨⟨cctx', { m.target with used := offset }, m.written.filter (·.stop ≤ offset)⟩,
    by simp only [Message.exec, hsmall, hrun, map_some], hholds, h.numbered.filter h.holds.sorted offset,
    fun e he => h.near e (mem_filter.mp he).1, hspares.caseSensitive.trans h.caseSensitive, h.length,
    hle.trans h.used, ?_, ?_⟩
  · intro w hw
    obtain ⟨hw, hstop⟩ := mem_filter.mp hw
    obtain ⟨hstart, -, hspells⟩ := h.written w hw
    exact ⟨hstart, of_decide_eq_true hstop, hspells⟩
  · intro e he
    obtain ⟨he, hoff⟩ := mem_filter.mp he
    obtain ⟨w, hw, hwe, hspells⟩ := h.entries e he
    have hbefore : w.stop ≤ offset := by
      have := of_decide_eq_true hoff
      rcases hnone w hw with hstop | hstart <;> omega
    exact ⟨w, mem_filter.mpr ⟨hw, decide_eq_true hbefore⟩, hwe, hspells⟩

lemma write {rest : List Label} (hn : n < name.labels.length)
    (hlength : target.length = m.target.length) (hroom : target.used ≤ target.length)
    (hbase : ∀ r < m.target.used, target.base r = m.target.base r)
    (hslice : target.base.slice m.target.used (wireOf (name.labels.take n)).length =
      wireOf (name.labels.take n))
    (hrest : Spells target.base (m.target.used + (wireOf (name.labels.take n)).length)
      m.target.used target.used rest) (hag : Agrees sensitive rest (name.labels.drop n)) :
    Grown sensitive m.target.used stack ⟨addLoop name m.target.used n 0 m.cctx, target,
      m.written ++ [⟨name, m.target.used, target.used⟩]⟩ := by
  have hroot := ne_root_of_mem_take hn
  have hlt := hrest.lt_stop
  -- what stands in the buffer at each of the first labels
  have hsuffix : ∀ k ≤ n, ∃ ls, Spells target.base
      (m.target.used + (wireOf (name.labels.take k)).length) m.target.used target.used ls ∧
      Agrees sensitive ls (name.labels.drop k) := by
    intro k hk
    have hspells := Spells.literal_drop hroot hslice hrest k
    rw [take_take, min_eq_left hk] at hspells
    refine ⟨_, hspells, ?_⟩
    have hdrop : name.labels.drop k = (name.labels.take n).drop k ++ name.labels.drop n := by
      conv_lhs => rw [← take_append_drop n name.labels]
      rw [drop_append_of_le_length (by simp; omega)]
    rw [hdrop]
    exact hag.append_left _
  have hgrow := h.grow hlength (by omega) hroom hbase
  obtain ⟨new, hholds, hnum, hnear, hcase, hnew⟩ :=
    h.holds.addLoop name m.target.used n 0 h.numbered h.near (by omega)
      (fun e he => (h.entry_lt_used he).trans_le (le_add_right _ _))
  refine ⟨by simp only; omega, new, ⟨hholds, hnum, hnear, hcase.trans h.caseSensitive,
    hgrow.length, hroom, ?_, ?_⟩, fun e he => by
      obtain ⟨k, -, hoff, -⟩ := hnew e he
      omega⟩
  · simp only [forall_mem_append, forall_mem_singleton]
    obtain ⟨ls, hspells, hls⟩ := hsuffix 0 (by omega)
    exact ⟨hgrow.written, by omega, le_rfl, ls, by simpa using hspells, by simpa using hls⟩
  · simp only [forall_mem_append]
    refine ⟨fun e he => ?_, fun e he => ?_⟩
    · obtain ⟨w, hw, hrest⟩ := hgrow.entries e he
      exact ⟨w, mem_append_left _ hw, hrest⟩
    · obtain ⟨k, hk, hoff, hname⟩ := hnew e he
      obtain ⟨ls, hspells, hls⟩ := hsuffix k (by omega)
      refine ⟨_, mem_append_right _ (mem_singleton_self _), by simp only; omega, ls,
        name.labels.drop k, ?_, hname, hls⟩
      rw [hoff]
      exact hspells.mono (le_add_right _ _)

lemma pointerTarget (name : Name) (nocompress : Bool) :
    ∃ found, pointerTarget name nocompress m.cctx = some found ∧
      ∀ n go, found = some (n, go) → n < name.labels.length - 1 ∧ go < 0x4000 ∧
        ∃ e ∈ stack, e.offset = go ∧ sameName sensitive e.name (wire (name.labels.drop n)) := by
  unfold Compress.pointerTarget
  by_cases hc : (!nocompress && m.cctx.global14)
  · rw [if_pos hc]
    unfold findglobal
    by_cases hz : m.cctx.count = 0
    · exact ⟨none, by simp [hz], by simp⟩
    · have hlen := length_lt_of_near h.holds.sorted h.near
      obtain ⟨found, hrun, hsound⟩ := h.holds.findLoop (by omega) name (name.labels.length - 1) 0
      rw [if_neg hz, hrun]
      refine ⟨_, rfl, fun n go hfound => ?_⟩
      obtain ⟨hsome, hcond⟩ := filter_eq_some_iff.mp hfound
      obtain ⟨-, hn, e, he, hgo, hsame⟩ := hsound n go hsome
      simp only [Bool.and_eq_true, decide_eq_true_eq] at hcond
      exact ⟨by omega, hcond.1, e, he, hgo, h.caseSensitive ▸ hsame⟩
  · exact ⟨none, by rw [if_neg hc], by simp⟩

end

lemma or_pointer {go : ℕ} (h : go < 0x4000) : go ||| 0xc000 = 0xc000 + go := by
  rw [Nat.or_comm, show 0xc000 = 3 <<< 14 from rfl, shiftLeft_add_eq_or_of_lt (by omega)]

variable (h : Sound sensitive m stack)
include h

lemma write_full (habs : name.absolute)
    (hroom : m.target.used + name.length ≤ m.target.length) :
    Grown sensitive m.target.used stack
      ⟨m.cctx.add name name m.target.used, m.target.putmem name.wire.ndata,
        m.written ++ [⟨name, m.target.used, m.target.used + name.length⟩]⟩ := by
  obtain ⟨hpos, hroot⟩ := drop_of_absolute habs
  have hsplit := wireOf_take_append_drop name.labels (name.labels.length - 1)
  rw [hroot] at hsplit
  have hlen : name.length = (wireOf (name.labels.take (name.labels.length - 1))).length + 1 := by
    rw [Name.length, ← hsplit, length_append]
    rfl
  have hadd : m.cctx.add name name m.target.used =
      addLoop name m.target.used (name.labels.length - 1) 0 m.cctx := by
    rw [add, if_pos habs]
  rw [hadd]
  have hput := m.target.base.put_append m.target.used
    (wireOf (name.labels.take (name.labels.length - 1))) (wireOf [Label.root])
  rw [hsplit] at hput
  refine h.write (by omega) rfl hroom
    (fun r hr => put_outside _ (.inl hr)) ?_ ?_ (by rw [hroot]; exact Agrees.refl _ _)
  · simp only [putmem, Name.wire, wire, hput]
    rw [slice_put_of_disjoint _ (by omega), slice_put]
  · have hstop : (m.target.putmem name.wire.ndata).used = m.target.used +
        (wireOf (name.labels.take (name.labels.length - 1))).length + 1 := by
      simp only [putmem, Name.wire, wire]
      rw [add_assoc, ← hlen, Name.length]
    rw [hstop]
    refine .root ?_
    simp only [putmem, Name.wire, wire, hput]
    exact put_inside _ _ _ (i := 0) (by simp)

lemma write_pointer {go : ℕ} (hn : n < name.labels.length - 1)
    (hgo : go < 0x4000) {e : Entry} (he : e ∈ stack) (hoff : e.offset = go)
    (hsame : sameName sensitive e.name (wire (name.labels.drop n)))
    (hroom : m.target.used + (wireOf (name.labels.take n)).length + 2 ≤ m.target.length) :
    Grown sensitive m.target.used stack ⟨addLoop name m.target.used n 0 m.cctx,
      (m.target.putmem (wireOf (name.labels.take n))).putmem (be16 (go ||| 0xc000)),
      m.written ++ [⟨name, m.target.used,
        m.target.used + (wireOf (name.labels.take n)).length + 2⟩]⟩ := by
  subst hoff
  obtain ⟨w, hw, hwe, ls, ms, hspells, hname, hag⟩ := h.entries e he
  have hstop := (h.written w hw).2.1
  have hlt := h.entry_lt_used he
  have hbase : ∀ r < m.target.used, ((m.target.putmem (wireOf (name.labels.take n))).putmem
      (be16 (e.offset ||| 0xc000))).base r = m.target.base r := by
    intro r hr
    simp only [putmem]
    rw [put_outside _ (.inl (by omega)), put_outside _ (.inl hr)]
  have hag' : Agrees sensitive ls (name.labels.drop n) :=
    hag.trans (Agrees.of_sameName (hname ▸ hsame))
  refine h.write (by omega) rfl hroom hbase ?_ ?_ hag'
  · simp only [putmem]
    rw [slice_put_of_disjoint _ (by omega), slice_put]
  · refine .pointer hgo ?_ hlt hstop (hspells.congr hlt.le hstop hbase)
    simp only [putmem]
    rw [or_pointer hgo, rd16_put _ _ _ (by omega)]

omit h in
lemma add_initial {cctx : Context} {offset : ℕ} (hn : n < name.labels.length) :
    (if (wireOf (name.labels.take n)).length ≠ 0 then
      cctx.add name (name.getlabelsequence 0 n) offset else cctx) =
      addLoop name offset n 0 cctx := by
  have hlen : (name.getlabelsequence 0 n).labels.length = n := by
    simp [getlabelsequence, hn.le]
  cases n with
  | zero => simp [addLoop]
  | succ n =>
    have hne : (wireOf (name.labels.take (n + 1))).length ≠ 0 := by
      rw [take_succ_eq_append_getElem (by omega), wireOf_append, length_append]
      simp
    rw [if_pos hne, add, hlen, absolute_getlabelsequence_zero hn]
    rfl

lemma towire (habs : name.absolute)
    (nocompress global14 : Bool) : ∃ m', m.exec (.towire name nocompress global14) = some m' ∧
      Grown sensitive m.target.used stack m' := by
  replace h := h.setmethods global14
  obtain ⟨found, hfound, hsound⟩ := h.pointerTarget name nocompress
  have hused := h.used
  have hlength := h.length
  simp only at hused hlength hfound
  have hsmall : m.target.used % 2 ^ 16 = m.target.used := mod_eq_of_lt (by omega)
  have havailable := available_of_le hused (by omega)
  simp only [Message.exec, Compress.towire, hfound, hsmall, havailable]
  cases found with
  | none =>
    simp only
    by_cases hroom : m.target.length - m.target.used < name.length
    · exact ⟨_, by rw [if_pos hroom]; rfl, h.grown le_rfl⟩
    · exact ⟨_, by rw [if_neg hroom]; rfl, h.write_full habs (by simp only; omega)⟩
  | some p =>
    obtain ⟨n, go⟩ := p
    obtain ⟨hn, hgo, e, he, hoff, hsame⟩ := hsound n go rfl
    have hgp : (name.getlabelsequence 0 n).wire.ndata = wireOf (name.labels.take n) := rfl
    have hgplen : (name.getlabelsequence 0 n).length = (wireOf (name.labels.take n)).length := rfl
    simp only [hgp, hgplen]
    by_cases hroom : m.target.length - m.target.used < (wireOf (name.labels.take n)).length
    · exact ⟨_, by rw [if_pos hroom]; rfl, h.grown le_rfl⟩
    rw [if_neg hroom, available_of_le (by simp only [putmem]; omega) (by simp only [putmem]; omega)]
    by_cases hroom' : (m.target.putmem (wireOf (name.labels.take n))).length -
        (m.target.putmem (wireOf (name.labels.take n))).used < 2
    · exact ⟨_, by rw [if_pos hroom']; rfl,
        (h.append _ (by simp only; omega)).grown (le_add_right _ _)⟩
    simp only [putmem] at hroom'
    refine ⟨_, ?_, h.write_pointer hn hgo he hoff hsame (by simp only; omega)⟩
    rw [if_neg (by simpa only [putmem] using hroom'), add_initial (by omega)]
    rfl

lemma exec {op : Op} (hop : op.Allowed m) :
    ∃ m' stack', m.exec op = some m' ∧ Sound sensitive m' stack' := by
  cases op with
  | towire name nocompress global14 =>
    obtain ⟨m', hexec, -, new, hsound, -⟩ := h.towire hop nocompress global14
    exact ⟨m', _, hexec, hsound⟩
  | append bs => exact ⟨_, stack, rfl, h.append bs hop⟩
  | rollback offset =>
    obtain ⟨m', hexec, hsound⟩ := h.rollback hop
    exact ⟨m', _, hexec, hsound⟩

lemma step {m' : Message} (hstep : Writes m m') : Grown sensitive m.target.used stack m' := by
  obtain ⟨op, hop, hwrites, hexec⟩ := hstep
  cases op with
  | towire name nocompress global14 =>
    obtain ⟨m1, hexec', hgrown⟩ := h.towire hop nocompress global14
    rw [hexec, some.injEq] at hexec'
    exact hexec' ▸ hgrown
  | append bs =>
    cases hexec
    exact (h.append bs hop).grown (le_add_right _ _)
  | rollback offset => exact absurd rfl (hwrites offset)

lemma run {m' : Message} (hrun : ReflTransGen Writes m m') :
    Grown sensitive m.target.used stack m' := by
  induction hrun with
  | refl => exact h.grown le_rfl
  | tail _ hstep ih =>
    obtain ⟨hused, new, hsound, hnew⟩ := ih
    obtain ⟨hused', new', hsound', hnew'⟩ := hsound.step hstep
    refine ⟨hused.trans hused', new ++ new', append_assoc .. ▸ hsound', ?_⟩
    exact forall_mem_append.mpr ⟨hnew, fun e he => hused.trans (hnew' e he)⟩

end Sound

lemma Reachable.sound {sensitive : Bool} {m : Message} (h : Reachable sensitive m) :
    ∃ stack, Sound sensitive m stack := by
  induction h with
  | start nodes mctx target hlength hused =>
    exact ⟨[], .start nodes mctx target hlength hused⟩
  | step _ op hop hexec ih =>
    obtain ⟨stack, hsound⟩ := ih
    obtain ⟨m', stack', hexec', hsound'⟩ := hsound.exec hop
    rw [hexec, some.injEq] at hexec'
    exact ⟨stack', hexec' ▸ hsound'⟩

/-- The name is read back from its start offset, with pointers allowed and room for
it in the target: a name equal to it, after exactly the bytes written for it. -/
def Written.ReadBack (w : Written) (sensitive : Bool) (base : Mem) (active : ℕ) : Prop :=
  ∀ available, w.name.length ≤ available →
    ∃ d, fromwire base active true false w.start available = .ok d ∧
      w.start + d.cused = w.stop ∧ d.name.equal w.name.wire ∧
      (sensitive → d.name.caseequal w.name.wire)

/-- In every message that arises, each call ends, and every name that stands is read
back, whatever end of the active region lies behind it. -/
theorem reachable_readBack {sensitive : Bool} {m : Message} (h : Reachable sensitive m) :
    (∀ op : Op, op.Allowed m → ∃ m', m.exec op = some m') ∧
      ∀ w ∈ m.written, ∀ active, w.stop ≤ active → w.ReadBack sensitive m.target.base active := by
  obtain ⟨stack, hsound⟩ := h.sound
  refine ⟨fun op hop => ?_, fun w hw active hactive available hroom => ?_⟩
  · obtain ⟨m', -, hexec, -⟩ := hsound.exec hop
    exact ⟨m', hexec⟩
  · obtain ⟨hstart, -, ls, hspells, hag⟩ := hsound.written w hw
    have hlen := hag.1.length_wireOf
    have hshort := w.name.short
    simp only [Name.length] at hroom
    refine ⟨_, hspells.fromwire hactive (by omega), by simp only; omega,
      (equal_iff _ _).mpr hag.1, fun hs => (caseequal_iff _ _).mpr (hag.2 hs)⟩

/-- The names `a.b.` and `c.B.` and other bytes between them. -/
def nameAB : Name := ⟨[⟨[97], by decide⟩, ⟨[98], by decide⟩, .root], by decide, by decide⟩

@[inherit_doc nameAB] def nameCB : Name :=
  ⟨[⟨[99], by decide⟩, ⟨[66], by decide⟩, .root], by decide, by decide⟩

@[inherit_doc nameAB] def noNames : Message :=
  ⟨init (fun _ => {}) .unlimited false, ⟨fun _ => 0, 512, 0⟩, []⟩

/-- The second name is written as its first label and a pointer to `b.`. -/
lemma exists_twoNames : ∃ m, Reachable false m ∧
    m.target.base.slice 0 m.target.used = [1, 97, 1, 98, 0, 0, 0, 1, 99, 0xc0, 2] ∧
    (m.written.map fun w => (w.name, w.start, w.stop)) = [(nameAB, 0, 5), (nameCB, 7, 11)] ∧
    (∀ w ∈ m.written, w.stop ≤ m.target.used) ∧ m.cctx.table 15 ≠ none := by
  have h0 : Reachable false noNames := .start _ _ _ (by decide) (by decide)
  have h1 := h0.step (.towire nameAB false true) rfl
    (some_get (by decide +kernel)).symm
  have h2 := h1.step (.append [0, 0])
    (show _ + _ ≤ _ by decide +kernel) rfl
  have h3 := h2.step (.towire nameCB false true) rfl
    (some_get (by decide +kernel)).symm
  exact ⟨_, h3, by decide +kernel, by decide +kernel, by decide +kernel, by decide +kernel⟩

theorem reachable_readBack_twoNames : ∃ m, Reachable false m ∧
    m.target.base.slice 0 m.target.used = [1, 97, 1, 98, 0, 0, 0, 1, 99, 0xc0, 2] ∧
    (m.written.map fun w => (w.name, w.start, w.stop)) = [(nameAB, 0, 5), (nameCB, 7, 11)] ∧
    ∀ w ∈ m.written, w.ReadBack false m.target.base m.target.used := by
  obtain ⟨m, h, hbytes, hwritten, hstop, -⟩ := exists_twoNames
  exact ⟨m, h, hbytes, hwritten, fun w hw => (reachable_readBack h).2 w hw _ (hstop w hw)⟩

/-- After any calls that write, a rollback to the length that the buffer had before
them restores the count and the nodes of every bucket; only nodes with a number of
`initialnodes` or more are freed. -/
theorem rollback_restores {sensitive : Bool} {m m' : Message} (h : Reachable sensitive m)
    (hrun : ReflTransGen Writes m m') :
    ∃ cctx, m'.cctx.rollback m.target.used = some cctx ∧ cctx.count = m.cctx.count ∧
      (∀ b < tablesize, ∃ es, m'.cctx.Contents b es ∧
        m.cctx.Contents b (es.filter (·.offset < m.target.used)) ∧
        cctx.Contents b (es.filter (·.offset < m.target.used)) ∧
        ∀ e ∈ es.filter (·.offset < m.target.used), ∀ i, e.slot = .initial i → i < cctx.count) ∧
      m'.cctx.Spares cctx := by
  obtain ⟨stack, hsound⟩ := h.sound
  obtain ⟨-, new, hsound', hnew⟩ := hsound.run hrun
  have hold : (stack ++ new).filter (·.offset < m.target.used) = stack := by
    rw [filter_append, filter_eq_self.mpr fun e he => by simpa using hsound.entry_lt_used he,
      filter_eq_nil_iff.mpr fun e he => by simpa using hnew e he, append_nil]
  have hlen := length_lt_of_near hsound'.holds.sorted hsound'.near
  obtain ⟨cctx, hback, hspares, hholds⟩ := hsound'.holds.rollback (by omega) m.target.used
  rw [hold] at hholds
  refine ⟨cctx, hback, hholds.count.trans hsound.holds.count.symm,
    fun b hb => ⟨_, hsound'.holds.contents hb, ?_⟩, hspares⟩
  rw [filter_reverse, filter_comm, hold]
  refine ⟨hsound.holds.contents hb, hholds.contents hb, fun e he i hi => ?_⟩
  exact hholds.initial_lt hsound.numbered (mem_of_mem_filter (mem_reverse.mp he)) hi

theorem rollback_restores_oneName : ∃ m cctx, Reachable false noNames ∧
    ReflTransGen Writes noNames m ∧ m.cctx.count = 2 ∧ m.cctx.rollback 0 = some cctx ∧
    cctx.count = 0 := by
  have h : Reachable false noNames := .start _ _ _ (by decide) (by decide)
  have hrun : ReflTransGen Writes noNames _ := .single
    ⟨.towire nameAB false true, rfl, nofun, (some_get (by decide +kernel)).symm⟩
  obtain ⟨cctx, hback, hcount, -⟩ := rollback_restores h hrun
  exact ⟨_, cctx, h, hrun, by decide +kernel, hback, hcount⟩

@[inherit_doc nameAB] def longBuffer : Message :=
  { noNames with target := ⟨fun _ => 0, 70000, 65535⟩ }

/-- Behind 65536 bytes a name is registered at offset 0, and stays there. -/
theorem rollback_longBuffer : ∃ m, ReflTransGen Writes longBuffer m ∧
    longBuffer.cctx.count = 0 ∧
    (m.cctx.rollback longBuffer.target.used).map Context.count = some 2 := by
  have h1 : Writes longBuffer _ := ⟨.append [0], show _ + _ ≤ _ by decide +kernel, nofun, rfl⟩
  have h2 := ReflTransGen.tail (.single h1)
    ⟨.towire nameAB false true, rfl, nofun, (some_get (by decide +kernel)).symm⟩
  exact ⟨_, h2, rfl, by decide +kernel⟩

/-- In every reachable message a chain of the table ends, meets no node twice, and each of its nodes
leads to bytes in use that spell the name it is registered for. -/
theorem reachable_table {sensitive : Bool} {m : Message} (h : Reachable sensitive m) {b : ℕ}
    (hb : b < tablesize) :
    ∃ chain, Chain m.cctx.next (m.cctx.table b) chain ∧ chain.Nodup ∧ ∀ s ∈ chain,
      ∃ stop ≤ m.target.used, ∃ ls ms, Spells m.target.base (m.cctx.nodes s).offset
        (m.cctx.nodes s).offset stop ls ∧ (m.cctx.nodes s).name = wire ms ∧ Agrees sensitive ls ms := by
  obtain ⟨stack, hsound⟩ := h.sound
  refine ⟨chainOf stack b, hsound.holds.chains b hb, ?_, fun s hs => ?_⟩
  · exact nodup_reverse.mpr (hsound.holds.nodup.sublist (filter_sublist.map _))
  · obtain ⟨e, he, rfl⟩ := mem_map.mp (mem_reverse.mp hs)
    have he := mem_of_mem_filter he
    obtain ⟨w, hw, -, ls, ms, hentry⟩ := hsound.entries e he
    rw [hsound.holds.offset e he, hsound.holds.name e he]
    exact ⟨w.stop, (hsound.written w hw).2.1, ls, ms, hentry⟩

theorem reachable_table_twoNames : ∃ m chain, Reachable false m ∧ chain ≠ [] ∧
    m.target.base.slice 0 m.target.used = [1, 97, 1, 98, 0, 0, 0, 1, 99, 0xc0, 2] ∧
    Chain m.cctx.next (m.cctx.table 15) chain ∧ chain.Nodup ∧ ∀ s ∈ chain,
      ∃ stop ≤ m.target.used, ∃ ls ms, Spells m.target.base (m.cctx.nodes s).offset
        (m.cctx.nodes s).offset stop ls ∧ (m.cctx.nodes s).name = wire ms ∧ Agrees false ls ms := by
  obtain ⟨m, h, hbytes, -, -, hbucket⟩ := exists_twoNames
  obtain ⟨chain, hchain, htable⟩ := reachable_table h (show 15 < tablesize by decide)
  refine ⟨m, chain, h, ?_, hbytes, hchain, htable⟩
  rintro rfl
  exact hbucket hchain

end LbBind.Compress

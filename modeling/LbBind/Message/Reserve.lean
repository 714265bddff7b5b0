import Mathlib.Data.List.Rotate
import LbBind.Message.Render

/-! Reserving space while a message is rendered. No routine writes behind the end of the buffer as
long as the bytes in use and the space reserved fit into it together. At the start of a message this
is not checked: the header is forgotten. -/

namespace LbBind.Message

open Lib Call Compress List Ends Buffer Nat Renderer Mem

variable {env : Renderer} {s t : Target} {n m : ℕ} {b b' : Buffer} {α : Type}

def Fits (b : Buffer) : Prop := b.used ≤ b.length ∧ b.length < 2 ^ 32

lemma available_eq (h : Fits b) : available b = b.length - b.used := available_of_le h.1 h.2

structure Extends (b b' : Buffer) : Prop where
  length : b'.length = b.length
  used : b.used ≤ b'.used
  room : b'.used ≤ b'.length
  outside : ∀ p, b.length ≤ p → b'.base p = b.base p
  kept : ∀ p < b.used, b'.base p = b.base p

namespace Extends

lemma refl (h : Fits b) : Extends b b := ⟨rfl, le_rfl, h.1, fun _ _ => rfl, fun _ _ => rfl⟩

lemma trans {b'' : Buffer} (h : Extends b b') (h' : Extends b' b'') : Extends b b'' where
  length := h'.length.trans h.length
  used := h.used.trans h'.used
  room := h'.room
  outside p hp := (h'.outside p (h.length ▸ hp)).trans (h.outside p hp)
  kept p hp := (h'.kept p (hp.trans_le h.used)).trans (h.kept p hp)

lemma fits (h : Extends b b') (hb : Fits b) : Fits b' := ⟨h.room, h.length ▸ hb.2⟩

lemma putmem (bs : List UInt8) (h : b.used + bs.length ≤ b.length) : Extends b (b.putmem bs) where
  length := rfl
  used := le_add_right _ _
  room := h
  outside _ hp := put_outside _ (.inr (h.trans hp))
  kept _ hp := put_outside _ (.inl hp)

lemma add (h : b.used + n ≤ b.length) : Extends b { b with used := b.used + n } :=
  ⟨rfl, le_add_right _ _, h, fun _ _ => rfl, fun _ _ => rfl⟩

lemma patch (h : Extends b b') {p : ℕ} {bs : List UInt8} (hp : b.used ≤ p)
    (hend : p + bs.length ≤ b'.used) : Extends b { b' with base := b'.base.put p bs } where
  length := h.length
  used := h.used
  room := h.room
  outside q hq := by
    have := h.room
    have := h.length
    exact (put_outside _ (.inr (by omega))).trans (h.outside q hq)
  kept q hq := (put_outside _ (.inl (hq.trans_le hp))).trans (h.kept q hq)

lemma cutBack {saved : Buffer} (h : Extends b b') (hlength : saved.length = b.length)
    (hused : b.used ≤ saved.used) (hroom : saved.used ≤ saved.length) :
    Extends b { saved with base := b'.base } :=
  ⟨hlength, hused, hroom, h.outside, h.kept⟩

end Extends

/-- The routine writes at most `n` bytes, and complains only if there is no room for them. -/
def Writes (n : ℕ) (s : Target) (c : Call Target Result α) : Prop :=
  Ends c s (fun _ t => Extends s.buffer t.buffer ∧ t.buffer.used ≤ s.buffer.used + n)
    (fun e t => Extends s.buffer t.buffer ∧ (e = .noSpace → s.buffer.length < s.buffer.used + n))

namespace Writes

lemma seq {β : Type} {c : Call Target Result α} {f : α → Call Target Result β}
    (hs : Fits s.buffer) (hc : Writes n s c) (hf : ∀ a t, Fits t.buffer → Writes m t (f a)) :
    Writes (n + m) s (c >>= f) := by
  refine Ends.seq hc ?_ ?_
  · rintro e t ⟨hext, hspace⟩
    exact ⟨hext, fun he => (hspace he).trans_le (by omega)⟩
  · rintro a t ⟨hext, hused⟩
    refine (hf a t (hext.fits hs)).mono ?_ ?_
    · rintro b u ⟨hext', hused'⟩
      exact ⟨hext.trans hext', by omega⟩
    · rintro e u ⟨hext', hspace⟩
      refine ⟨hext.trans hext', fun he => ?_⟩
      have := hspace he
      have := hext.length
      omega

lemma pure {a : α} (hs : Fits s.buffer) : Writes 0 s (Pure.pure a) := Ends.pure ⟨.refl hs, le_rfl⟩

end Writes

variable {nocompress : Bool}

lemma pointerTarget_short {name : Name} {cctx : Context} {k go : ℕ}
    (h : pointerTarget name nocompress cctx = some (some (k, go))) :
    (name.getlabelsequence 0 k).length + 2 < name.length := by
  unfold pointerTarget at h
  split_ifs at h
  · obtain ⟨found, -, hfound⟩ := Option.map_eq_some_iff.mp h
    obtain ⟨-, hcond⟩ := Option.filter_eq_some_iff.mp hfound
    simp only [Bool.and_eq_true, decide_eq_true_eq] at hcond
    exact hcond.2
  · simp at h

lemma towire_writes {name : Name} {cctx cctx' : Context} {r : Result}
    (hb : Fits b) (h : towire name nocompress cctx b = some (r, cctx', b')) :
    Extends b b' ∧ ((r = .success ∧ b'.used ≤ b.used + name.length) ∨
      (r = .noSpace ∧ b.length < b.used + name.length)) := by
  obtain ⟨hused, hlength⟩ := hb
  unfold towire at h
  cases hfound : pointerTarget name nocompress cctx with
  | none => simp [hfound] at h
  | some found =>
    cases found with
    | none =>
      simp only [hfound, available_of_le hused hlength] at h
      split_ifs at h with hroom
      · cases h
        exact ⟨.refl ⟨hused, hlength⟩, .inr ⟨rfl, by omega⟩⟩
      · cases h
        have hlen : name.wire.ndata.length = name.length := rfl
        exact ⟨.putmem _ (by omega), .inl ⟨rfl, le_rfl⟩⟩
    | some p =>
      obtain ⟨k, go⟩ := p
      have hshort := pointerTarget_short hfound
      have hlen : (name.getlabelsequence 0 k).wire.ndata.length =
        (name.getlabelsequence 0 k).length := rfl
      have hfits (hroom : ¬b.length - b.used < (name.getlabelsequence 0 k).length) :
          (b.putmem (name.getlabelsequence 0 k).wire.ndata).used ≤ b.length := by
        simp only [putmem]
        omega
      simp only [hfound, available_of_le hused hlength] at h
      split_ifs at h with hroom hroom'
      · cases h
        exact ⟨.refl ⟨hused, hlength⟩, .inr ⟨rfl, by omega⟩⟩
      all_goals
        rw [available_of_le (hfits hroom) hlength] at hroom'
      · cases h
        simp only [putmem] at hroom'
        exact ⟨.putmem _ (by omega), .inr ⟨rfl, by omega⟩⟩
      all_goals
        cases h
        simp only [putmem] at hroom'
        have hfirst : Extends b (b.putmem (name.getlabelsequence 0 k).wire.ndata) :=
          .putmem _ (by omega)
        refine ⟨hfirst.trans (.putmem _ ?_), .inl ⟨rfl, ?_⟩⟩
        · simp only [putmem, length_be16]
          omega
        · simp only [putmem, length_be16]
          omega

lemma nameTowire_writes (hs : Fits s.buffer) (name : Name) (nocompress global14 : Bool) :
    Writes name.length s (nameTowire name nocompress global14) := by
  unfold Writes Ends nameTowire
  rcases hrun : towire name nocompress (s.cctx.setmethods global14) s.buffer with
    _ | ⟨r, cctx, target⟩
  · simp [hrun]
  · simp only [hrun]
    obtain ⟨hext, ⟨rfl, hused⟩ | ⟨rfl, hspace⟩⟩ := towire_writes hs hrun
    · exact ⟨fun a t h => by cases h; exact ⟨hext, hused⟩, fun e t h => by cases h⟩
    · exact ⟨fun a t h => (by cases h), fun e t h => by cases h; exact ⟨hext, fun _ => hspace⟩⟩

lemma compressRollback_ends (offset : ℕ) :
    Ends (compressRollback offset) s (fun _ t => t.buffer = s.buffer) (fun _ _ => False) := by
  unfold Ends compressRollback
  rcases hr : s.cctx.rollback (offset % 2 ^ 16) with _ | cctx
  · simp only [hr]
    exact ⟨fun a t h => (by cases h), fun e t h => (by cases h)⟩
  · simp only [hr]
    exact ⟨fun a t h => by cases h; rfl, fun e t h => (by cases h)⟩

lemma cutBack_ends {saved : Buffer} (h : Extends b s.buffer) (hlength : saved.length = b.length)
    (hused : b.used ≤ saved.used) (hroom : saved.used ≤ saved.length) :
    Ends (cutBack saved) s (fun _ t => Extends b t.buffer ∧ t.buffer.used = saved.used)
      (fun _ _ => False) := by
  refine .check fun _ => bind (compressRollback_ends saved.used) ?_
  rintro _ t ht
  exact .modify ⟨ht ▸ h.cutBack hlength hused hroom, rfl⟩

def Piece.size : Piece → ℕ
  | .name n _ _ => n.length
  | .bytes bs => bs.length

section
variable (hs : Fits s.buffer)
include hs

lemma room_writes {m n : ℕ} {c : Call Target Result Unit} (hm : m ≤ n)
    (hc : s.buffer.used + m ≤ s.buffer.length → Writes n s c) :
    Writes n s (read >>= fun t => if available t.buffer < m then fail .noSpace else c) := by
  have hused := hs.1
  refine .read (.ite (fun hroom => .fail ⟨.refl hs, fun _ => ?_⟩) fun hroom => hc ?_)
  all_goals
    rw [available_eq hs] at hroom
    omega

lemma putPiece_writes (p : Piece) : Writes p.size s (putPiece p) := by
  cases p with
  | name name nocompress global14 => exact nameTowire_writes hs name nocompress global14
  | bytes bs => exact room_writes hs le_rfl fun hroom => .modify ⟨.putmem _ hroom, le_rfl⟩

lemma putPieces_writes (ps : List Piece) : Writes (ps.map Piece.size).sum s (putPieces ps) := by
  induction ps generalizing s with
  | nil => exact .pure hs
  | cons p ps ih =>
    rw [map_cons, sum_cons]
    exact (putPiece_writes hs p).seq hs fun _ t ht => ih ht

def Renderer.rdataSize (env : Renderer) (rdata : Rdata) : ℕ := if rdata.update then 0
  else (env.pieces rdata).elim rdata.data.length fun ps => (ps.map Piece.size).sum

lemma rdataTowire_writes (rdata : Rdata) :
    Writes (env.rdataSize rdata) s (rdataTowire env rdata) := by
  unfold rdataTowire rdataSize
  by_cases hup : rdata.update
  · rw [if_pos hup, if_pos hup]
    exact .assert fun _ => ⟨.refl hs, le_rfl⟩
  · rw [if_neg hup, if_neg hup]
    cases hps : env.pieces rdata with
    | none => exact putPiece_writes hs (.bytes rdata.data)
    | some ps =>
      refine .read (onError (putPieces_writes hs ps) ?_)
      rintro e t ⟨hext, hspace⟩
      exact (cutBack_ends hext rfl le_rfl hs.1).mono (fun _ _ h => ⟨h.1, hspace⟩)
        fun _ _ h => h.elim

def Renderer.recordSize (env : Renderer) (owner : Name) (rdata : Rdata) : ℕ :=
  owner.length + 10 + env.rdataSize rdata

omit hs in
lemma extends_class (type rdclass : ℕ) (hroom : b.used + 4 ≤ b.length) :
    Extends b ((b.putmem (be16 type)).putmem (be16 rdclass)) :=
  .trans (.putmem _ (by simp only [length_be16]; omega))
    (.putmem _ (by simp only [putmem, length_be16]; omega))

variable (owner : Name) (nocompress : Bool)

lemma towireRecord_writes (type rdclass ttl : ℕ)
    (rdata : Rdata) : Writes (env.recordSize owner rdata) s
      (towireRecord env owner nocompress type rdclass ttl rdata) := by
  unfold recordSize
  rw [add_assoc]
  refine (nameTowire_writes hs owner nocompress true).seq hs fun _ t ht =>
    room_writes ht (by omega) fun hroom => ?_
  -- the header and the space for the length
  have hclass := extends_class type rdclass (show t.buffer.used + 4 ≤ t.buffer.length by omega)
  have httl := hclass.trans (.putmem (be32 ttl)
    (by simp only [putmem, length_be16, length_be32]; omega))
  have hhead := httl.trans (.add (n := 2)
    (by simp only [putmem, length_be16, length_be32]; omega))
  refine .change (.change (.change (.read (.change ?_))))
  refine seq (rdataTowire_writes (hhead.fits ht) rdata) ?_ ?_
  · rintro e w ⟨hw, hspace⟩
    refine ⟨hhead.trans hw, fun he => ?_⟩
    have := hspace he
    simp only [putmem, length_be16, length_be32] at this
    omega
  · rintro _ w ⟨hw, hwused⟩
    refine .read (.check fun hrdlen => .modify ⟨(hhead.trans hw).patch ?_ ?_, ?_⟩)
    · exact httl.used
    · simpa only [length_be16] using hrdlen.1
    · simp only [putmem, length_be16, length_be32] at hwused
      simp only
      omega

lemma towireQuestion_writes
    (type rdclass : ℕ) : Writes (owner.length + 4) s (towireQuestion owner nocompress type rdclass) := by
  refine (nameTowire_writes hs owner nocompress true).seq hs fun _ t ht =>
    room_writes ht le_rfl fun hroom => .change (.modify ⟨extends_class type rdclass hroom, ?_⟩)
  simp [putmem, add_assoc]

def Renderer.itemSize (env : Renderer) (owner : Name) : Option Rdata → ℕ
  | none => owner.length + 4
  | some rdata => env.recordSize owner rdata

variable (rds : RRset)

lemma towireLoop_ends (added : ℕ)
    (items : List (Option Rdata)) : Ends (towireLoop env owner nocompress rds added items) s
      (fun _ t => Extends s.buffer t.buffer ∧
        t.buffer.used ≤ s.buffer.used + (items.map (env.itemSize owner)).sum)
      (fun e t => Extends s.buffer t.buffer ∧ Extends s.buffer e.rrbuffer ∧ (e.result = .noSpace →
          s.buffer.length < s.buffer.used + (items.map (env.itemSize owner)).sum)) := by
  induction items generalizing s added with
  | nil => exact .pure ⟨.refl hs, le_rfl⟩
  | cons item items ih =>
    rw [map_cons, sum_cons]
    have hitem : Writes (env.itemSize owner item) s (match item with
        | none => towireQuestion owner nocompress rds.type rds.rdclass
        | some rdata => towireRecord env owner nocompress rds.type rds.rdclass rds.ttl rdata) := by
      cases item with
      | none => exact towireQuestion_writes hs ..
      | some rdata => exact towireRecord_writes hs ..
    refine .read (seq (E := fun e t => Extends s.buffer t.buffer ∧ e.rrbuffer = s.buffer ∧
      (e.result = .noSpace → s.buffer.length < s.buffer.used + env.itemSize owner item))
      (mapError hitem fun _ _ h => ⟨h.1, rfl, h.2⟩) ?_ ?_)
    · rintro e t ⟨hext, hrr, hspace⟩
      exact ⟨hext, by rw [hrr]; exact .refl hs, fun he => (hspace he).trans_le (by omega)⟩
    · rintro _ t ⟨hext, hused⟩
      refine (ih (hext.fits hs) (added + 1)).mono ?_ ?_
      · rintro _ u ⟨hext', hused'⟩
        exact ⟨hext.trans hext', by omega⟩
      · rintro e u ⟨hext', hrr, hspace⟩
        refine ⟨hext.trans hext', hext.trans hrr, fun he => ?_⟩
        have := hspace he
        have := hext.length
        omega

lemma ncacheLoop_ends (items : List (Negative × Rdata)) :
    Ends (ncacheLoop env rds items) s (fun _ t => Extends s.buffer t.buffer)
      (fun _ t => Extends s.buffer t.buffer) := by
  induction items generalizing s with
  | nil => exact .pure (.refl hs)
  | cons item items ih =>
    refine seq (towireRecord_writes hs ..) (fun _ _ h => h.1) ?_
    rintro _ t ⟨hext, -⟩
    exact (ih (hext.fits hs)).mono (fun _ _ h => hext.trans h) fun _ _ h => hext.trans h

lemma ncacheTowire_ends (entries : List Negative) (omitDnssec : Bool) :
    Ends (ncacheTowire env rds entries omitDnssec) s (fun _ t => Extends s.buffer t.buffer)
      (fun _ _ => False) := by
  refine .read (attempt (ncacheLoop_ends hs rds _) ?_ ?_)
  · intro _ t h
    exact .pure h
  · intro e t h
    refine bind (cutBack_ends h rfl le_rfl hs.1) ?_
    rintro _ u ⟨h, -⟩
    exact .pure h

/-- What is known after an rdataset was to be written that takes at most `n` bytes. -/
def WritesSet (n : ℕ) (s : Target) (c : Call Target Result (Result × ℕ)) : Prop :=
  Ends c s (fun r t => Extends s.buffer t.buffer ∧
      (r.1 = .noSpace → s.buffer.length < s.buffer.used + n) ∧
      (r.1 = .success → t.buffer.used ≤ s.buffer.used + n))
    (fun _ _ => False)

lemma towireAll_writes (partially : Bool)
    (items : List (Option Rdata)) : WritesSet (items.map (env.itemSize owner)).sum s
      (towireAll env owner nocompress rds partially items) := by
  refine .read (attempt (towireLoop_ends hs owner nocompress rds 0 items) ?_ ?_)
  · rintro _ t ⟨hext, hused⟩
    exact .pure ⟨hext, by simp, fun _ => hused⟩
  · rintro e t ⟨hext, hrr, hspace⟩
    refine .ite (fun hpart => ?_) fun _ => ?_
    · simp only [Bool.and_eq_true, decide_eq_true_eq] at hpart
      refine bind (cutBack_ends hext hrr.length hrr.used hrr.room) ?_
      rintro _ u ⟨h, -⟩
      exact .pure ⟨h, fun _ => hspace hpart.2, by simp⟩
    · refine bind (cutBack_ends hext rfl le_rfl hs.1) ?_
      rintro _ u ⟨h, hused⟩
      exact .pure ⟨h, hspace, fun _ => by omega⟩

end

lemma swapHead_perm (x : Rdata) (xs : List Rdata) (choice : ℕ) :
    ((swapHead x xs choice).1 :: (swapHead x xs choice).2).Perm (x :: xs) := by
  cases choice with
  | zero => exact .refl _
  | succ c =>
    simp only [swapHead]
    by_cases hc : c < xs.length
    · rw [getD_eq_getElem _ _ hc, set_eq_take_append_cons_drop, if_pos hc]
      have hxs := take_append_drop c xs
      rw [drop_eq_getElem_cons hc] at hxs
      conv_rhs => rw [← hxs]
      -- bring the two elements to the front on both sides
      refine (List.Perm.cons _ perm_middle).trans ?_
      exact (List.Perm.swap ..).trans (.cons _ perm_middle.symm)
    · rw [getD_eq_default _ _ (by omega), set_eq_of_length_le (by omega)]

lemma shuffleLoop_perm (k drawn : ℕ) (l : List Rdata) : (shuffleLoop env k drawn l).Perm l := by
  induction k generalizing drawn l with
  | zero => exact .refl l
  | succ k ih =>
    cases l with
    | nil => exact .refl _
    | cons x xs => exact (List.Perm.cons _ (ih (drawn + 1) _)).trans (swapHead_perm x xs _)

lemma towireCompare_totalPreorder : TotalPreorder towireCompare := by
  constructor
  · intro a b
    rw [← Int.sign_neg, towireCompare, towireCompare, neg_sub]
  · intro a b c hab hbc
    simp only [towireCompare] at *
    omega

lemma arrange_ends (order : Option (Rdata → ℤ)) (rds : RRset) : Ends (arrange env order rds) s
      (fun l t => t.buffer = s.buffer ∧ t.cctx = s.cctx ∧ l.Perm rds.rdatas) (fun _ _ => False) := by
  have hbase : Ends (baseOrder env rds) s
      (fun l t => t.buffer = s.buffer ∧ t.cctx = s.cctx ∧ l.Perm rds.rdatas) (fun _ _ => False) := by
    refine .read (.ite (fun _ => .pure ⟨rfl, rfl, .refl _⟩) fun _ => .ite (fun _ => ?_) fun _ =>
      .ite (fun _ => ?_) fun _ => .pure ⟨rfl, rfl, rotate_perm _ _⟩)
    · exact .change (.pure ⟨rfl, rfl, shuffleLoop_perm ..⟩)
    · exact .change (.pure ⟨rfl, rfl, rotate_perm _ _⟩)
  refine hbase.bind ?_
  rintro l t ⟨hbuffer, hcctx, hperm⟩
  cases order with
  | none => exact .pure ⟨hbuffer, hcctx, hperm⟩
  | some f =>
    refine .pure ⟨hbuffer, hcctx, ?_⟩
    have hsort := (env.qsort.spec towireCompare (l.map fun r => (f r, r))
      (towireCompare_totalPreorder.ordersOn _)).1
    refine (hsort.map Prod.snd).trans ?_
    rw [map_map]
    simpa [Function.comp_def] using hperm

def Renderer.size (env : Renderer) (owner : Name) (rds : RRset) : ℕ :=
  if rds.question then owner.length + 4 else (rds.rdatas.map (env.recordSize owner)).sum

lemma sum_itemSize_some (owner : Name) (rdatas : List Rdata) :
    ((rdatas.map some).map (env.itemSize owner)).sum = (rdatas.map (env.recordSize owner)).sum := by
  rw [map_map]
  rfl

lemma WritesSet.of_frame {c : Call Target Result (Result × ℕ)} (h : WritesSet n t c)
    (hbuffer : t.buffer = s.buffer) : Ends c t (fun r u => Extends s.buffer u.buffer ∧
        (r.1 = .noSpace → s.buffer.length < s.buffer.used + n) ∧
        (r.1 = .success → u.buffer.used ≤ s.buffer.used + n))
      (fun _ _ => False) := by
  rw [← hbuffer]
  exact h

lemma towireArranged_writes {items : List Rdata} (hs : Fits s.buffer) (owner : Name)
    (nocompress : Bool) (rds : RRset) (partially : Bool) (hperm : items.Perm rds.rdatas) :
    WritesSet (rds.rdatas.map (env.recordSize owner)).sum s
      (towireAll env owner nocompress rds partially (items.map some)) := by
  have h : WritesSet _ s (towireAll env owner nocompress rds partially (items.map some)) :=
    towireAll_writes hs owner nocompress rds partially (items.map some)
  rwa [sum_itemSize_some, (hperm.map _).sum_nat] at h

lemma towiresorted_writes (hs : Fits s.buffer) (rds : RRset) (owner : Name) (nocompress : Bool)
    (order : Option (Rdata → ℤ)) (partially omitDnssec : Bool) :
    Ends (towiresorted env rds owner nocompress order partially omitDnssec) s
      (fun r t => Extends s.buffer t.buffer ∧ (rds.negative = none →
        (r.1 = .noSpace → s.buffer.length < s.buffer.used + env.size owner rds) ∧
        (r.1 = .success → t.buffer.used ≤ s.buffer.used + env.size owner rds)))
      (fun _ _ => False) := by
  unfold towiresorted Renderer.size
  refine .ite (fun hq => ?_) fun hq => ?_
  · rw [if_pos hq]
    refine .check fun _ => (towireAll_writes hs owner nocompress rds partially [none]).mono ?_
      fun _ _ h => h
    rintro r t ⟨hext, hsize⟩
    exact ⟨hext, fun _ => by simpa [itemSize] using hsize⟩
  rw [if_neg hq]
  cases hneg : rds.negative with
  | some entries =>
    exact (ncacheTowire_ends hs rds entries omitDnssec).imp fun _ _ h => ⟨h, by simp⟩
  | none =>
    refine .ite (fun hz => .pure ⟨.refl hs, fun _ => ⟨by simp, fun _ => le_add_right _ _⟩⟩)
      fun _ => .ite (fun _ => .ite (fun _ => ?_) fun _ => ?_) fun _ => ?_
    · -- two blocks of memory for the time of the call
      refine seq (Q := fun _ t => t.buffer = s.buffer) (E := fun _ _ => False)
        ⟨fun _ _ h => by cases h; rfl, fun _ _ h => by cases h⟩ (fun _ _ h => h.elim) ?_
      rintro shuffled t ht
      refine seq (Q := fun _ t => t.buffer = s.buffer) (E := fun _ _ => False)
        ⟨fun _ _ h => by cases h; exact ht, fun _ _ h => by cases h⟩ (fun _ _ h => h.elim) ?_
      rintro sorted u hu
      refine seq (Q := fun l t => t.buffer = s.buffer ∧ l.Perm rds.rdatas)
        (E := fun _ _ => False) ?_ (fun _ _ h => h.elim) ?_
      · refine .ite (fun _ => ?_) fun _ => .pure ⟨hu, .refl _⟩
        exact (arrange_ends order rds).imp fun _ _ h => ⟨h.1.trans hu, h.2.2⟩
      rintro items v ⟨hv, hperm⟩
      have hvs : Fits v.buffer := hv ▸ hs
      refine bind ((towireArranged_writes hvs owner nocompress rds partially hperm).of_frame hv)
        ?_
      rintro r w ⟨hext, hsize⟩
      exact .change (.change (.pure ⟨hext, fun _ => hsize⟩))
    · refine seq (arrange_ends order rds) (fun _ _ h => h.elim) ?_
      rintro items t ⟨ht, -, hperm⟩
      have hts : Fits t.buffer := ht ▸ hs
      exact ((towireArranged_writes hts owner nocompress rds partially hperm).of_frame ht).mono
        (fun _ _ h => ⟨h.1, fun _ => h.2⟩) fun _ _ h => h
    · exact (towireArranged_writes hs owner nocompress rds partially (.refl _)).mono
        (fun _ _ h => ⟨h.1, fun _ => h.2⟩) fun _ _ h => h

section
variable {r r' : Render}

lemma onTarget_ends {ε : Type} {c : Call Target ε α} {Q : α → Target → Prop}
    {E : ε → Target → Prop} (h : Ends c r.target Q E) :
    Ends (onTarget c) r (fun a r' => ∃ t, r' = { r with target := t } ∧ Q a t)
      (fun e r' => ∃ t, r' = { r with target := t } ∧ E e t) := by
  unfold Ends onTarget
  rcases hrun : c.run r.target with _ | ⟨e | a, t⟩
  · simp only [hrun]
    exact ⟨fun _ _ h => (by cases h), fun _ _ h => (by cases h)⟩
  · simp only [hrun]
    exact ⟨fun _ _ h => (by cases h), fun _ _ h' => by cases h'; exact ⟨t, rfl, h.2 e t hrun⟩⟩
  · simp only [hrun]
    exact ⟨fun _ _ h' => by cases h'; exact ⟨t, rfl, h.1 a t hrun⟩, fun _ _ h => (by cases h)⟩

structure Advances (r r' : Render) : Prop where
  buffer : Extends r.target.buffer r'.target.buffer
  reserved : r'.reserved = r.reserved
  optReserved : r'.optReserved = r.optReserved
  sigReserved : r'.sigReserved = r.sigReserved
  opt : r'.opt = r.opt
  keys : r'.tsigkey = r.tsigkey ∧ r'.sig0key = r.sig0key
  started : r'.started = r.started

namespace Advances

lemma refl (h : Fits r.target.buffer) : Advances r r :=
  ⟨.refl h, rfl, rfl, rfl, rfl, ⟨rfl, rfl⟩, rfl⟩

lemma trans {r'' : Render} (h : Advances r r') (h' : Advances r' r'') : Advances r r'' :=
  ⟨h.buffer.trans h'.buffer, h'.reserved.trans h.reserved, h'.optReserved.trans h.optReserved,
    h'.sigReserved.trans h.sigReserved, h'.opt.trans h.opt,
    ⟨h'.keys.1.trans h.keys.1, h'.keys.2.trans h.keys.2⟩, h'.started.trans h.started⟩

lemma fits (h : Advances r r') (hr : Fits r.target.buffer) : Fits r'.target.buffer :=
  h.buffer.fits hr

end Advances

def Renders (r : Render) (c : Call Render Result α) : Prop :=
  Ends c r (fun _ r' => Advances r r') (fun _ r' => Advances r r')

section
variable (hr : Fits r.target.buffer)
include hr

lemma Renders.seq {β : Type} {c : Call Render Result α} {f : α → Call Render Result β} (hc : Renders r c)
    (hf : ∀ a r', Fits r'.target.buffer → Renders r' (f a)) : Renders r (c >>= f) := by
  refine bind hc fun a r' h => ?_
  exact (hf a r' (h.fits hr)).mono (fun _ _ h' => h.trans h') fun _ _ h' => h.trans h'

lemma renderRdataset_renders (sect : Sect) (n : RName) (rds : RRset)
    (partially omitDnssec : Bool) :
    Renders r (renderRdataset env sect n rds partially omitDnssec) := by
  refine .read (seq (onTarget_ends (towiresorted_writes hr ..)) (fun _ _ ⟨_, _, h⟩ => h.elim) ?_)
  rintro ⟨e, count⟩ _ ⟨t, rfl, hext, -⟩
  refine .change (.ite (fun _ => .fail ⟨hext, rfl, rfl, rfl, rfl, ⟨rfl, rfl⟩, rfl⟩) fun _ =>
    .ite (fun _ => ?_) fun _ => .pure ⟨hext, rfl, rfl, rfl, rfl, ⟨rfl, rfl⟩, rfl⟩)
  refine seq (onTarget_ends (cutBack_ends hext rfl le_rfl hr.1)) (fun _ _ ⟨_, _, h⟩ => h.elim) ?_
  rintro _ _ ⟨u, rfl, hext', -⟩
  exact .fail ⟨hext', rfl, rfl, rfl, rfl, ⟨rfl, rfl⟩, rfl⟩

lemma renderGlue_renders (sect : Sect) (partially omitDnssec : Bool) :
    Renders r (renderGlue env sect partially omitDnssec) := by
  refine .read ?_
  cases r.rdatasetAt sect (0, 0) with
  | none => exact .pure (.refl hr)
  | some p =>
    refine .ite (fun _ => attempt (renderRdataset_renders hr ..) ?_ ?_) fun _ => .pure (.refl hr)
    · rintro _ r' h
      exact .modify (h.trans ⟨.refl (h.fits hr), rfl, rfl, rfl, rfl, ⟨rfl, rfl⟩, rfl⟩)
    · rintro e r' h
      refine .ite (fun _ => .change (.fail ?_)) fun _ => .fail h
      exact h.trans ⟨.refl (h.fits hr), rfl, rfl, rfl, rfl, ⟨rfl, rfl⟩, rfl⟩

end

section
variable (hr : Fits r.target.buffer) (sect : Sect) (options : RenderOptions) (partially : Bool)
include hr

lemma renderPlace_renders (pass preferredGlue : ℕ) (place : ℕ × ℕ) :
    Renders r (renderPlace env sect options partially pass preferredGlue place) := by
  refine .read ?_
  cases r.rdatasetAt sect place with
  | none => exact .pure (.refl hr)
  | some p =>
    refine .ite (fun _ => .pure (.refl hr)) fun _ => .ite (fun _ => .pure (.refl hr)) fun _ => ?_
    refine (renderRdataset_renders hr ..).seq hr fun _ r' hr' => ?_
    refine .ite (fun _ => .change (.modify ?_)) fun _ => .modify ?_
    all_goals exact ⟨.refl hr', rfl, rfl, rfl, rfl, ⟨rfl, rfl⟩, rfl⟩

lemma renderPlaces_renders (pass preferredGlue : ℕ) (places : List (ℕ × ℕ)) :
    Renders r (renderPlaces env sect options partially pass preferredGlue places) := by
  induction places generalizing r with
  | nil => exact .pure (.refl hr)
  | cons place places ih =>
    exact (renderPlace_renders hr ..).seq hr fun _ r' hr' => ih hr'

lemma renderPasses_renders (preferredGlue pass : ℕ) :
    Renders r (renderPasses env sect options partially preferredGlue pass) := by
  induction pass generalizing r with
  | zero => exact .pure (.refl hr)
  | succ pass ih =>
    exact .read ((renderPlaces_renders hr ..).seq hr fun _ r' hr' => ih hr')

end

def Reserves (r : Render) : Prop :=
  r.target.buffer.used + r.reserved ≤ r.target.buffer.length ∧ r.target.buffer.length < 2 ^ 32

def sameLength (b : Buffer) (length : ℕ) : Buffer := { b with length := length }

lemma Reserves.shrunk (hr : Reserves r) :
    (changeLength (fun n => n + (2 ^ 32 - r.reserved)) r).target.buffer =
      sameLength r.target.buffer (r.target.buffer.length - r.reserved) := by
  obtain ⟨hused, hlength⟩ := hr
  have : (r.target.buffer.length + (2 ^ 32 - r.reserved)) % 2 ^ 32 =
      r.target.buffer.length - r.reserved := by
    rw [show r.target.buffer.length + (2 ^ 32 - r.reserved) =
      r.target.buffer.length - r.reserved + 2 ^ 32 by omega, add_mod_right,
      mod_eq_of_lt (by omega)]
  simp only [changeLength, sameLength, this]

lemma Reserves.restored {r1 : Render} (hr : Reserves r)
    (h : Advances (changeLength (fun n => n + (2 ^ 32 - r.reserved)) r) r1) :
    Advances r (changeLength (fun n => n + r.reserved) r1) ∧
      Reserves (changeLength (fun n => n + r.reserved) r1) := by
  have hb := h.buffer
  rw [hr.shrunk] at hb
  obtain ⟨hused, hlength⟩ := hr
  have hlen : r1.target.buffer.length = r.target.buffer.length - r.reserved := hb.length
  have hback : (r1.target.buffer.length + r.reserved) % 2 ^ 32 = r.target.buffer.length := by
    rw [hlen, Nat.sub_add_cancel (by omega), mod_eq_of_lt hlength]
  have hroom := hb.room
  have hext : Extends r.target.buffer
      (changeLength (fun n => n + r.reserved) r1).target.buffer := by
    refine ⟨hback, hb.used, ?_, fun p hp => hb.outside p ?_, hb.kept⟩
    · simp only [changeLength, hback]
      omega
    · simp only [sameLength]
      omega
  have hreserved : r1.reserved = r.reserved := h.reserved
  refine ⟨⟨hext, hreserved, h.optReserved, h.sigReserved, h.opt, h.keys, h.started⟩, ?_⟩
  simp only [Reserves, changeLength, hback, hreserved]
  omega

lemma rendersection_ends (hr : Reserves r) (sect : Sect) (options : RenderOptions) :
    Ends (rendersection env sect options) r (fun _ r' => Advances r r' ∧ Reserves r')
      (fun _ r' => Advances r r' ∧ Reserves r') := by
  have hfits : Fits (changeLength (fun n => n + (2 ^ 32 - r.reserved)) r).target.buffer := by
    rw [hr.shrunk]
    obtain ⟨hused, hlength⟩ := hr
    simp only [Fits, sameLength]
    omega
  refine .read (.check fun _ => .change ?_)
  refine attempt ((renderGlue_renders hfits ..).seq hfits fun _ _ h =>
    renderPasses_renders h ..) ?_ ?_
  · intro _ r1 h
    exact .change (.pure (hr.restored h))
  · intro _ r1 h
    exact .change (.fail (hr.restored h))

end

section
variable {r r' : Render}

structure Bounded (b : Buffer) (r : Render) : Prop where
  fits : Fits r.target.buffer
  header : headerlen ≤ r.target.buffer.used
  reserved : headerlen + r.reserved ≤ r.target.buffer.length
  length : r.target.buffer.length = b.length
  outside : ∀ p, b.length ≤ p → r.target.buffer.base p = b.base p

variable (h : Bounded b r)
include h

lemma Bounded.advances (ha : Advances r r') : Bounded b r' where
  fits := ha.fits h.fits
  header := h.header.trans ha.buffer.used
  reserved := by
    rw [ha.reserved, ha.buffer.length]
    exact h.reserved
  length := ha.buffer.length.trans h.length
  outside p hp := (ha.buffer.outside p (h.length ▸ hp)).trans (h.outside p hp)

omit h in
lemma renderExtra_ends (hr : Fits r.target.buffer) (owner : Name) (rds : RRset) :
    Ends (renderExtra env owner rds) r
      (fun _ r' => Advances r r' ∧ (rds.negative = none →
        r'.target.buffer.used ≤ r.target.buffer.used + env.size owner rds))
      (fun e r' => Advances r r' ∧ (rds.negative = none → e = .noSpace →
        r.target.buffer.length < r.target.buffer.used + env.size owner rds)) := by
  refine seq (onTarget_ends (towiresorted_writes hr ..)) (fun _ _ ⟨_, _, h⟩ => h.elim) ?_
  rintro ⟨e, count⟩ _ ⟨t, rfl, hext, hsize⟩
  have hadv : Advances r { r with
      target := t, counts := Function.update r.counts .additional (r.counts .additional + count) } :=
    ⟨hext, rfl, rfl, rfl, rfl, ⟨rfl, rfl⟩, rfl⟩
  refine .change (.ite (fun _ => .fail ⟨hadv, fun hn => (hsize hn).1⟩) fun he =>
    .pure ⟨hadv, fun hn => (hsize hn).2 ?_⟩)
  simpa using he

def OptReserved (env : Renderer) (r : Render) : Prop :=
  ∀ opt, r.opt = some opt → opt.negative = none ∧ env.size Name.root opt ≤ r.optReserved

def TsigReserved (env : Renderer) (r : Render) : Prop :=
  ∀ r', env.tsigSign r' ≠ .error .noSpace ∧ ∀ owner tsig, env.tsigSign r' = .ok (owner, tsig) →
    tsig.negative = none ∧ env.size owner tsig ≤ r.sigReserved

lemma Bounded.release {opt : Option RRset} {optReserved sigReserved : ℕ}
    {tsig : Option (Name × RRset)} {sig0 : Option RRset} : Bounded b { r with
      reserved := r.reserved - n
      opt := opt
      optReserved := optReserved
      sigReserved := sigReserved
      tsig := tsig
      sig0 := sig0 } :=
  ⟨h.fits, h.header, by have := h.reserved; simp only; omega, h.length, h.outside⟩

omit h in
lemma renderrelease_ends (n : ℕ) :
    Ends (renderrelease n) r (fun _ r' => n ≤ r.reserved ∧ r' = { r with reserved := r.reserved - n })
      (fun _ _ => False) :=
  .read (.check fun h => .modify ⟨h, rfl⟩)

omit h in
lemma renderExtra_reserved {r1 : Render} (h : Bounded b r1) (htarget : r1.target = r.target)
    (hreserved : r1.reserved + n = r.reserved) (owner : Name) (rds : RRset) :
    Ends (renderExtra env owner rds) r1
      (fun _ r' => Bounded b r' ∧ r'.sigReserved = r1.sigReserved ∧
        (rds.negative = none ∧ env.size owner rds ≤ n → Reserves r → Reserves r'))
      (fun e r' => Bounded b r' ∧
        (rds.negative = none ∧ env.size owner rds ≤ n → Reserves r → e ≠ .noSpace)) := by
  refine (renderExtra_ends h.fits owner rds).mono ?_ ?_
  · rintro _ r' ⟨hadv, hused⟩
    refine ⟨h.advances hadv, hadv.sigReserved, fun ⟨hneg, hsize⟩ hr => ?_⟩
    have := hused hneg
    obtain ⟨hfit, hlength⟩ := hr
    rw [htarget] at this
    have hlen := hadv.buffer.length
    rw [htarget] at hlen
    refine ⟨?_, by rw [hlen]; exact hlength⟩
    rw [hadv.reserved, hlen]
    omega
  · rintro e r' ⟨hadv, hspace⟩
    refine ⟨h.advances hadv, fun ⟨hneg, hsize⟩ hr he => ?_⟩
    have := hspace hneg he
    have := hr.1
    rw [htarget] at *
    omega

lemma renderOpt_ends : Ends (renderOpt env) r
      (fun _ r' => Bounded b r' ∧ r'.sigReserved = r.sigReserved ∧
        (OptReserved env r → Reserves r → Reserves r'))
      (fun e r' => Bounded b r' ∧ (OptReserved env r → Reserves r → e ≠ .noSpace)) := by
  refine .read ?_
  cases hopt : r.opt with
  | none => exact .pure ⟨h, rfl, fun _ hr => hr⟩
  | some opt =>
    refine seq (renderrelease_ends r.optReserved) (fun _ _ h => h.elim) ?_
    rintro _ _ ⟨hle, rfl⟩
    refine .change ((renderExtra_reserved (r := r) h.release rfl (Nat.sub_add_cancel hle) ..).mono ?_ ?_)
    · rintro _ r' ⟨hb, hsig, hres⟩
      exact ⟨hb, hsig, fun ho => hres (ho opt hopt)⟩
    · rintro e r' ⟨hb, hres⟩
      exact ⟨hb, fun ho => hres (ho opt hopt)⟩

lemma renderTruncated_ends : Ends (renderTruncated env) r
      (fun _ r' => Bounded b r' ∧ r'.sigReserved = r.sigReserved ∧ (Reserves r → Reserves r'))
      (fun _ r' => Bounded b r') := by
  refine .read (.ite (fun _ => ?_) fun _ => .pure ⟨h, rfl, fun hr => hr⟩)
  refine .change (.change ?_)
  set r1 : Render := { renderreset r with
    target := { (renderreset r).target with
      buffer := { (renderreset r).target.buffer with used := headerlen } } } with hr1
  have hres : headerlen + r.reserved ≤ r.target.buffer.length := h.reserved
  have hb1 : Bounded b r1 :=
    ⟨⟨by simp only [hr1, renderreset]; omega, h.fits.2⟩, le_rfl, h.reserved, h.length, h.outside⟩
  have hroll : Ends (compressRollback 0) r1.target (fun _ t => t.buffer = r1.target.buffer)
      (fun _ _ => False) := compressRollback_ends 0
  refine seq (onTarget_ends hroll) (fun _ _ ⟨_, _, h⟩ => h.elim) ?_
  rintro _ _ ⟨t, rfl, ht⟩
  have hb2 : Bounded b { r1 with target := t } := by
    obtain ⟨hfits, hheader, hreserved, hlength, houtside⟩ := hb1
    rw [← ht] at hfits hheader hreserved hlength houtside
    exact ⟨hfits, hheader, hreserved, hlength, houtside⟩
  have hr2 : Reserves { r1 with target := t } := by
    refine ⟨?_, hb2.fits.2⟩
    simp only [ht]
    exact h.reserved
  refine attempt (rendersection_ends hr2 ..) ?_ ?_
  · rintro _ r' ⟨hadv, hr'⟩
    exact .pure ⟨hb2.advances hadv, hadv.sigReserved, fun _ => hr'⟩
  · rintro e r' ⟨hadv, hr'⟩
    by_cases he : e = .noSpace
    · subst he
      exact .pure ⟨hb2.advances hadv, hadv.sigReserved, fun _ => hr'⟩
    · cases e <;> first | exact absurd rfl he | exact .fail (hb2.advances hadv)

lemma renderTsig_ends : Ends (renderTsig env) r (fun _ r' => Bounded b r')
      (fun e r' => Bounded b r' ∧ (TsigReserved env r → Reserves r → e ≠ .noSpace)) := by
  refine .read (.ite (fun _ => ?_) fun _ => .pure h)
  refine seq (renderrelease_ends r.sigReserved) (fun _ _ h => h.elim) ?_
  rintro _ _ ⟨hle, rfl⟩
  refine .change (.read ?_)
  cases hsign : env.tsigSign _ with
  | error e =>
    refine .fail ⟨h.release, fun ht _ he => ?_⟩
    subst he
    exact (ht _).1 hsign
  | ok p =>
    obtain ⟨owner, tsig⟩ := p
    refine .change ((renderExtra_reserved (r := r) h.release rfl (Nat.sub_add_cancel hle) ..).mono
      (fun _ _ h => h.1) ?_)
    rintro e r' ⟨hb, hres⟩
    exact ⟨hb, fun ht => hres ((ht _).2 owner tsig hsign)⟩

lemma renderSig0_ends :
    Ends (renderSig0 env) r (fun _ r' => Bounded b r') (fun _ r' => Bounded b r') := by
  refine .read (.ite (fun _ => ?_) fun _ => .pure h)
  refine seq (renderrelease_ends r.sigReserved) (fun _ _ h => h.elim) ?_
  rintro _ _ ⟨hle, rfl⟩
  refine .change (.read ?_)
  cases env.signmessage _ with
  | error e => exact .fail h.release
  | ok sig0 =>
    exact .change ((renderExtra_reserved (r := r) h.release rfl (Nat.sub_add_cancel hle) ..).mono
      (fun _ _ h => h.1) fun _ _ h => h.1)

omit h in
@[simp] lemma length_header (r : Render) : r.header.length = headerlen := by
  simp [Render.header, headerlen]

lemma renderend_ends :
    Ends (renderend env) r (fun _ r' => Bounded b r') (fun _ r' => Bounded b r') := by
  refine .read (.check fun _ => .ite (fun _ => .fail h) fun _ => ?_)
  refine seq (renderOpt_ends h) (fun _ _ h => h.1) ?_
  rintro _ r1 ⟨h1, -⟩
  refine bind (renderTruncated_ends h1) ?_
  rintro _ r2 ⟨h2, -⟩
  refine seq (renderTsig_ends h2) (fun _ _ h => h.1) fun _ r3 h3 => ?_
  refine bind (renderSig0_ends h3) fun _ r4 h4 => ?_
  refine seq (Q := fun _ r' => Bounded b r') (E := fun _ _ => False) ?_ (fun _ _ h => h.elim)
    fun _ r5 h5 => .modify ⟨h5.fits, h5.header, h5.reserved, h5.length, h5.outside⟩
  refine .read (.check fun hlen => .check fun _ => .modify ⟨h4.fits, hlen, h4.reserved, h4.length, ?_⟩)
  intro p hp
  refine (put_outside _ (.inr ?_)).trans (h4.outside p hp)
  have := h4.fits.1
  have := h4.length
  rw [length_header]
  omega

end

inductive RenderOp
  | reserve (space : ℕ)
  | release (space : ℕ)
  | rendersection (sect : Sect) (options : RenderOptions)

def RenderOp.call (env : Renderer) : RenderOp → Call Render Result Unit
  | .reserve space => renderreserve space
  | .release space => renderrelease space
  | .rendersection sect options => Message.rendersection env sect options

inductive Rendering (env : Renderer) (r : Render) : Render → Prop
  | start : Rendering env r r
  | step {r' r'' : Render} {result : Except Result Unit} (op : RenderOp) :
    Rendering env r r' → (op.call env).run r' = some (result, r'') → Rendering env r r''

/-- The bytes in use and the space reserved fit into the buffer, nothing is ever written outside
it, and a record whose size was reserved fits. -/
structure Safe (env : Renderer) (b : Buffer) (r : Render) : Prop where
  reserved : r.target.buffer.used + r.reserved ≤ r.target.buffer.length
  length : r.target.buffer.length = b.length
  outside : ∀ p, b.length ≤ p → r.target.buffer.base p = b.base p
  renderend : ∀ result r', (renderend env).run r = some (result, r') →
    r'.target.buffer.used ≤ b.length ∧ ∀ p, b.length ≤ p → r'.target.buffer.base p = b.base p
  opt : OptReserved env r → ∀ r', (renderOpt env).run r ≠ some (.error .noSpace, r')
  tsig : OptReserved env r → TsigReserved env r → ∀ r₁ r₂ r',
    (renderOpt env).run r = some (.ok (), r₁) → (renderTruncated env).run r₁ = some (.ok (), r₂) →
      (renderTsig env).run r₂ ≠ some (.error .noSpace, r')

variable {r r' : Render}

structure Underway (b : Buffer) (r : Render) : Prop where
  bounded : Bounded b r
  reserves : Reserves r
  started : r.started

lemma Underway.advances (h : Underway b r) (ha : Advances r r') (hr : Reserves r') :
    Underway b r' :=
  ⟨h.bounded.advances ha, hr, ha.started.trans h.started⟩

lemma RenderOp.ends (op : RenderOp) (h : Underway b r) :
    Ends (op.call env) r (fun _ r' => Underway b r') (fun _ r' => Underway b r') := by
  obtain ⟨hfit, hlen⟩ := h.reserves
  cases op with
  | reserve space =>
    refine .read (.ite (fun _ => .fail h) fun hroom => .modify ?_)
    have hnew : r.target.buffer.used + (r.reserved + space) % 2 ^ 32 ≤ r.target.buffer.length := by
      simp only [h.started, available_eq h.bounded.fits, Bool.true_and, decide_eq_true_eq] at hroom
      rw [add_comm r.reserved space]
      omega
    have hheader := h.bounded.header
    exact ⟨⟨h.bounded.fits, hheader, by simp only; omega, h.bounded.length, h.bounded.outside⟩,
      ⟨hnew, hlen⟩, h.started⟩
  | release space =>
    refine (renderrelease_ends space).mono ?_ fun _ _ h => h.elim
    rintro _ _ ⟨-, rfl⟩
    exact ⟨h.bounded.release, ⟨by simp only; omega, hlen⟩, h.started⟩
  | rendersection sect options =>
    exact (rendersection_ends h.reserves sect options).mono (fun _ _ ha => h.advances ha.1 ha.2)
      fun _ _ ha => h.advances ha.1 ha.2

lemma Rendering.underway (h : Rendering env r r') (hr : Underway b r) : Underway b r' := by
  induction h with
  | start => exact hr
  | @step r' r'' result op _ hrun ih =>
    have hends : Ends (op.call env) r' _ _ := op.ends ih
    cases result with
    | ok a => exact hends.1 a r'' hrun
    | error e => exact hends.2 e r'' hrun

lemma renderbegin_ok {cctx : Context} (hlength : b.length < 2 ^ 32)
    (h : (renderbegin cctx b).run r = some (.ok (), r')) :
    headerlen ≤ b.length ∧ r'.started ∧ r'.reserved = r.reserved ∧
      r'.target.buffer = { b with used := headerlen } := by
  have hbegin : Ensures (renderbegin cctx b) r fun _ r' => headerlen ≤ b.length ∧ r'.started ∧
      r'.reserved = r.reserved ∧ r'.target.buffer = { b with used := headerlen } := by
    refine .read (.check fun _ => .change (.read (.ite (fun _ => .fail trivial) fun hroom =>
      .ite (fun _ => .fail trivial) fun _ => ?_)))
    have hfits : Fits ({ b with used := 0 } : Buffer) := ⟨zero_le _, hlength⟩
    rw [available_eq hfits] at hroom
    replace hroom : ¬b.length - 0 < headerlen := hroom
    refine seq (onTarget_ends (Q := fun _ t => t.buffer = { b with used := 0 + headerlen })
      (E := fun _ _ => False) (.modify rfl)) (fun _ _ ⟨_, _, h⟩ => h.elim) ?_
    rintro _ _ ⟨t, rfl, ht⟩
    exact .modify ⟨by omega, rfl, rfl, by simpa using ht⟩
  exact hbegin.1 () r' h

/-- A message that has been begun is rendered safely, if and only if there is room for the
header besides what is reserved. -/
theorem rendering_safe_iff {cctx : Context} (hlength : b.length < 2 ^ 32)
    (h : (renderbegin cctx b).run r = some (.ok (), r')) :
    (∀ r'', Rendering env r' r'' → Safe env b r'') ↔ headerlen + r.reserved ≤ b.length := by
  obtain ⟨hheader, hstarted, hreserved, hbuffer⟩ := renderbegin_ok hlength h
  constructor
  · intro hsafe
    have := (hsafe r' .start).reserved
    rwa [hbuffer, hreserved] at this
  · intro hroom r'' hrun
    rw [← hreserved] at hroom
    have hstart : Underway b r' := by
      refine ⟨⟨?_, ?_, ?_, ?_, ?_⟩, ?_, hstarted⟩ <;> simp only [hbuffer, Fits, Reserves]
      exacts [⟨hheader, hlength⟩, le_rfl, hroom, fun _ _ => trivial, ⟨hroom, hlength⟩]
    obtain ⟨hb, hr, -⟩ := hrun.underway hstart
    refine ⟨hr.1, hb.length, hb.outside, ?_, ?_, ?_⟩
    · intro result r1 hend
      have hends : Ends (renderend env) r'' _ _ := renderend_ends hb
      have hb1 : Bounded b r1 := by
        cases result with
        | ok a => exact hends.1 a r1 hend
        | error e => exact hends.2 e r1 hend
      exact ⟨hb1.length ▸ hb1.fits.1, hb1.outside⟩
    · intro hopt r1 hrun
      exact ((renderOpt_ends hb).2 _ r1 hrun).2 hopt hr rfl
    · intro hopt htsig r1 r2 r3 hrun1 hrun2 hrun3
      obtain ⟨hb1, hsig1, hr1⟩ := (renderOpt_ends hb).1 _ r1 hrun1
      obtain ⟨hb2, hsig2, hr2⟩ := (renderTruncated_ends hb1).1 _ r2 hrun2
      have htsig2 : TsigReserved env r2 := by
        intro u
        rw [hsig2, hsig1]
        exact htsig u
      exact ((renderTsig_ends hb2).2 _ r3 hrun3).2 htsig2 (hr2 (hr1 hopt hr)) rfl

def oneAddress : RRset := ⟨Rdatatype.a, 1, 0, 60, [⟨1, Rdatatype.a, [10, 0, 0, 1], false⟩], false,
  none, false, false, false, false, false, false, 0⟩

def answerRender (reserved : ℕ) : Render where
  id := 0
  opcode := 0
  rcode := 0
  flags := 0
  counts _ := 0
  sections sect := if sect = .answer then [⟨Name.root, false, [oneAddress]⟩] else []
  reserved := reserved
  optReserved := 0
  sigReserved := 0
  opt := none
  tsigkey := false
  sig0key := false
  tsig := none
  sig0 := none
  started := false
  target := ⟨init (fun _ => {}) .unlimited false, ⟨fun _ => 0, 0, 0⟩, .unlimited, 0⟩

def plainRenderer : Renderer where
  pieces _ := none
  order := none
  random _ := 0
  qsort := .insertion _
  tsigSign _ := .error .failure
  signmessage _ := .error .failure

theorem rendering_safe_iff_hundred :
    let begun := (renderbegin (init (fun _ => {}) .unlimited false) ⟨fun _ => 0, 512, 0⟩).run
      (answerRender 100)
    let answered := begun.bind fun p =>
      (rendersection plainRenderer .answer ⟨false, false, false, false, false⟩).run p.2
    answered.map (fun p => p.2.target.buffer.used) = some 27 ∧ ∃ r', begun = some (.ok (), r') ∧
      ∀ r'', Rendering plainRenderer r' r'' → Safe plainRenderer ⟨fun _ => 0, 512, 0⟩ r'' := by
  refine ⟨by decide +kernel, ?_⟩
  have hbegin : ∃ r', (renderbegin (init (fun _ => {}) .unlimited false) ⟨fun _ => 0, 512, 0⟩).run
      (answerRender 100) = some (.ok (), r') := ⟨_, rfl⟩
  obtain ⟨r', h⟩ := hbegin
  exact ⟨r', h, (rendering_safe_iff (by decide) h).mpr (by decide)⟩

/-- With 505 bytes of a buffer of 512 reserved, a message is begun all the same. -/
theorem renderbegin_overfull :
    ∃ r', (renderbegin (init (fun _ => {}) .unlimited false) ⟨fun _ => 0, 512, 0⟩).run
        (answerRender 505) = some (.ok (), r') ∧
      r'.target.buffer.length < r'.target.buffer.used + r'.reserved :=
  ⟨_, rfl, by decide⟩

end LbBind.Message

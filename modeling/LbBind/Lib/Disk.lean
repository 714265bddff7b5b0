import LbBind.Lib.Bytes

/-! Files and what a crash leaves of them. Writes go to a file one by one; those since the
last synchronisation are pending, and after a crash any of them may be missing. -/

namespace LbBind.Lib

open List

structure File where
  bytes : Mem
  size : ℕ

structure Write where
  offset : ℕ
  bytes : List UInt8

namespace Write

def stop (w : Write) : ℕ := w.offset + w.bytes.length

def Misses (w : Write) (p n : ℕ) : Prop := p + n ≤ w.offset ∨ w.stop ≤ p

end Write

namespace File

variable {f : File} {w : Write} {ws : List Write} {p n : ℕ}

def write (f : File) (w : Write) : File :=
  ⟨f.bytes.put w.offset w.bytes, if w.bytes = [] then f.size else max f.size w.stop⟩

def writes (f : File) (ws : List Write) : File := ws.foldl write f

@[simp] lemma writes_nil (f : File) : f.writes [] = f := rfl

@[simp] lemma writes_cons (f : File) (w : Write) (ws : List Write) :
    f.writes (w :: ws) = (f.write w).writes ws := rfl

lemma writes_append (f : File) (ws ws' : List Write) :
    f.writes (ws ++ ws') = (f.writes ws).writes ws' := foldl_append

lemma size_le_write (f : File) (w : Write) : f.size ≤ (f.write w).size := by
  simp only [write]
  split_ifs <;> omega

lemma size_le_writes (f : File) (ws : List Write) : f.size ≤ (f.writes ws).size := by
  induction ws generalizing f with
  | nil => exact le_rfl
  | cons w ws ih => exact (f.size_le_write w).trans (ih _)

lemma stop_le_write (h : w.bytes ≠ []) : w.stop ≤ (f.write w).size := by
  simp only [write, if_neg h]
  exact le_max_right _ _

lemma slice_write (h : w.Misses p n) : (f.write w).bytes.slice p n = f.bytes.slice p n :=
  Mem.slice_put_of_disjoint _ h

lemma slice_writes (h : ∀ w ∈ ws, w.Misses p n) :
    (f.writes ws).bytes.slice p n = f.bytes.slice p n := by
  induction ws generalizing f with
  | nil => rfl
  | cons w ws ih =>
    rw [writes_cons, ih fun w' hw' => h w' (.tail _ hw'), slice_write (h w mem_cons_self)]

lemma slice_write_self (f : File) (w : Write) :
    (f.write w).bytes.slice w.offset w.bytes.length = w.bytes := Mem.slice_put _ _ _

def Has (f : File) (p : ℕ) (bs : List UInt8) : Prop :=
  f.bytes.slice p bs.length = bs ∧ p + bs.length ≤ f.size

variable {bs : List UInt8}

lemma has_append {as : List UInt8} :
    f.Has p (as ++ bs) ↔ f.Has p as ∧ f.Has (p + as.length) bs := by
  unfold Has
  rw [length_append, Mem.slice_add]
  constructor
  · rintro ⟨h, hsize⟩
    obtain ⟨ha, hb⟩ := append_inj h (by simp)
    exact ⟨⟨ha, by omega⟩, hb, by omega⟩
  · rintro ⟨⟨ha, -⟩, hb, hsize⟩
    exact ⟨by rw [ha, hb], by omega⟩

lemma Has.writes (h : f.Has p bs) (hws : ∀ w ∈ ws, w.Misses p bs.length) :
    (f.writes ws).Has p bs :=
  ⟨(slice_writes hws).trans h.1, h.2.trans (f.size_le_writes ws)⟩

lemma has_write_self (hne : w.bytes ≠ []) : (f.write w).Has w.offset w.bytes :=
  ⟨f.slice_write_self w, stop_le_write hne⟩

lemma has_writes_of_mem (hws : ws.Pairwise fun w w' => w'.Misses w.offset w.bytes.length)
    (hw : w ∈ ws) (hne : w.bytes ≠ []) : (f.writes ws).Has w.offset w.bytes := by
  induction ws generalizing f with
  | nil => simp at hw
  | cons v vs ih =>
    rw [pairwise_cons] at hws
    rcases mem_cons.mp hw with rfl | hw
    · exact (has_write_self hne).writes hws.1
    · exact ih hws.2 hw

lemma Has.write (h : f.Has p bs) (hw : w.Misses p bs.length) : (f.write w).Has p bs :=
  ⟨(slice_write hw).trans h.1, h.2.trans (f.size_le_write w)⟩

lemma Has.extend (h : f.Has p bs) (cs : List UInt8) :
    (f.write ⟨p + bs.length, cs⟩).Has p (bs ++ cs) := by
  rw [has_append]
  refine ⟨h.write (.inl le_rfl), ?_⟩
  by_cases hne : cs = []
  · subst hne
    exact ⟨rfl, h.2.trans (f.size_le_write _)⟩
  · exact has_write_self (w := ⟨p + bs.length, cs⟩) hne

end File

structure Disk where
  synced : File
  pending : List Write

namespace Disk

variable (d : Disk)

def view : File := d.synced.writes d.pending

def write (w : Write) : Disk := { d with pending := d.pending ++ [w] }

def sync : Disk := ⟨d.view, []⟩

@[simp] lemma view_write (w : Write) : (d.write w).view = d.view.write w :=
  d.synced.writes_append d.pending [w]

@[simp] lemma view_sync : d.sync.view = d.view := rfl

structure Crash (d : Disk) (ws : List Write) (f : File) : Prop where
  sub : ws.Sublist d.pending
  file : f = d.synced.writes ws

end Disk

end LbBind.Lib

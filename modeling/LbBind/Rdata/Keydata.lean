import Mathlib.Algebra.BigOperators.Group.List.Basic
import LbBind.Result

/-! The KEYDATA rdata of `keydata_65533.c`: what is accepted from the wire, and what is then read
of it to print it and to fill a structure. -/

namespace LbBind.Keydata

open List

/-- A routine with a result code; nothing is left of a failed assertion, or of a read outside of
the rdata. -/
abbrev Routine := ExceptT Result Option

def require (p : Prop) [Decidable p] : Routine Unit := .mk (if p then some (.ok ()) else none)

/-- `uint32_fromregion` and the like. -/
def number (bytes : List UInt8) : ℕ := bytes.foldl (fun n b => n * 256 + b.toNat) 0

def ascii (text : String) : List UInt8 := text.toList.map fun c => UInt8.ofNat c.toNat

def decimal (n : ℕ) : List UInt8 := ascii n.repr

/-- A text, and the end of the bytes of the rdata that are read for it. -/
structure Piece where
  text : List UInt8
  stop : ℕ

/-- The style, and the texts of other routines: of `dns_time32_totext`, of `dns_secalg_format`, of
`isc_base64_totext`, for a length and a break of words, and of `dst_region_computeid`. -/
structure Style where
  multiline : Bool
  rrcomment : Bool
  width : ℕ
  linebreak : List UInt8
  time : ℕ → List UInt8
  secalg : ℕ → List UInt8
  base64 : ℤ → List UInt8 → List UInt8 → List (List UInt8)
  computeid : List UInt8 → ℕ → ℕ

variable (style : Style) (rdata : List UInt8)

def field (off n : ℕ) : ℕ := number ((rdata.drop off).take n)

def flags : ℕ := field rdata 12 2

def algorithm : ℕ := field rdata 15 1

def header : List Piece := [⟨style.time (field rdata 0 4), 4⟩, ⟨[32], 0⟩,
  ⟨style.time (field rdata 4 4), 8⟩, ⟨[32], 0⟩, ⟨style.time (field rdata 8 4), 12⟩, ⟨[32], 0⟩,
  ⟨decimal (flags rdata), 14⟩, ⟨[32], 0⟩, ⟨decimal (field rdata 14 1), 15⟩, ⟨[32], 0⟩,
  ⟨decimal (algorithm rdata), 16⟩]

def keyinfo : String :=
  if (flags rdata).testBit 0 then
    if (flags rdata).testBit 7 then "revoked KSK" else "KSK"
  else "ZSK"

def keyTexts : List (List UInt8) :=
  (if style.multiline then [ascii " ("] else []) ++ style.linebreak ::
    (if style.width = 0 then style.base64 60 [] (rdata.drop 16)
      else style.base64 (style.width - 2) style.linebreak (rdata.drop 16)) ++
    (if style.rrcomment then [style.linebreak] else if style.multiline then [[32]] else []) ++
    if style.multiline then [[41]] else []

/-- The key id is that of the rdata behind the three times, of which four bytes are required. -/
def comment : List Piece := [⟨ascii " ; ", 0⟩, ⟨ascii (keyinfo rdata), 0⟩, ⟨ascii "; alg = ", 0⟩,
  ⟨style.secalg (algorithm rdata), 0⟩, ⟨ascii "; key id = ", 0⟩,
  ⟨decimal (style.computeid (rdata.drop 12) (algorithm rdata)), 16⟩]

def pieces : List Piece := header style rdata ++
  if (flags rdata).testBit 14 && (flags rdata).testBit 15 then []
  else (keyTexts style rdata).map (⟨·, 0⟩) ++
    if style.rrcomment then comment style rdata else []

def print (size : ℕ) : List Piece → List UInt8 → Routine (List UInt8)
  | [], target => pure target
  | p :: ps, target => do
    require (p.stop ≤ rdata.length)
    if size < target.length + p.text.length then throw .noSpace
    print size ps (target ++ p.text)

def totextKeydata (size : ℕ) (target : List UInt8) : Routine (List UInt8) := do
  require (rdata ≠ [])
  print rdata size (pieces style rdata) target

def fields (off : ℕ) : List ℕ → Routine (List ℕ)
  | [] => pure []
  | n :: ns => do
    if rdata.length < off + n then throw .unexpectedEnd
    require (off + n ≤ rdata.length)
    return field rdata off n :: (← fields (off + n) ns)

/-- The fields and the data of the structure. -/
def tostructKeydata (memory : Bool) : Routine (List ℕ × List UInt8) := do
  require (rdata ≠ [])
  let vs ← fields rdata 0 [4, 4, 4, 2, 1, 1]
  if !memory then throw .noMemory
  return (vs, rdata.drop 16)

def fromwireKeydata (source : List UInt8) (space : ℕ) : Except Result (List UInt8) :=
  if source.length < 4 then .error .unexpectedEnd
  else if space < source.length then .error .noSpace
  else .ok source

structure Accepted where
  rdata : List UInt8
  space : ℕ
  fromwire : fromwireKeydata rdata space = .ok rdata

lemma Accepted.ne_nil (k : Accepted) : k.rdata ≠ [] := by
  intro hnil
  have := k.fromwire
  simp [fromwireKeydata, hnil] at this

lemma require_bind {p : Prop} [Decidable p] {α : Type} {c : Routine α} :
    (require p >>= fun _ => c).run.isSome ↔ p ∧ c.run.isSome := by
  by_cases h : p
  · simp only [require, h, true_and]
    rfl
  · simp only [require, h, false_and, iff_false]
    exact Bool.false_ne_true

lemma print_isSome_iff (ps : List Piece) (target : List UInt8) (room : ℕ) :
    (∀ size ≥ room, (print rdata size ps target).run.isSome) ↔
      ∀ p ∈ ps, p.stop ≤ rdata.length := by
  induction ps generalizing target room with
  | nil => simp [print]
  | cons p ps ih =>
    rw [forall_mem_cons, ← ih (target ++ p.text) (max room (target.length + p.text.length))]
    simp only [print, require_bind]
    constructor
    · refine fun h => ⟨(h room (Nat.le_refl room)).1, fun size hsize => ?_⟩
      have := (h size (Nat.le_trans (Nat.le_max_left ..) hsize)).2
      rwa [if_neg (by omega)] at this
    · refine fun h size hsize => ⟨h.1, ?_⟩
      split_ifs with hfull
      · rfl
      · exact h.2 size (by omega)

lemma stop_pieces_le_iff : (∀ p ∈ pieces style rdata, p.stop ≤ rdata.length) ↔
    16 ≤ rdata.length := by
  constructor
  · exact fun h => h ⟨decimal (algorithm rdata), 16⟩ (by simp [pieces, header])
  · intro h
    simp only [pieces, header, comment, forall_mem_append, forall_mem_cons]
    refine ⟨by simp; omega, ?_⟩
    split_ifs <;> simp [or_imp, forall_and, h]

lemma fields_isSome (off : ℕ) (ns : List ℕ) : (fields rdata off ns).run.isSome := by
  induction ns generalizing off with
  | nil => rfl
  | cons n ns ih =>
    rw [fields]
    split_ifs with hn
    · rfl
    · refine require_bind.mpr ⟨by omega, ?_⟩
      obtain ⟨r, hr⟩ := Option.isSome_iff_exists.mp (ih (off + n))
      rw [ExceptT.run_bind, hr]
      cases r <;> rfl

/-- Sixteen bytes are read for the text, and only what is there for the structure. -/
theorem keydata_isSome_iff (k : Accepted) (style : Style) :
    ((∀ size target, (totextKeydata style k.rdata size target).run.isSome) ↔
      16 ≤ k.rdata.length) ∧ ∀ memory, (tostructKeydata k.rdata memory).run.isSome := by
  simp only [totextKeydata, tostructKeydata, require_bind, k.ne_nil, ne_eq, not_false_eq_true,
    true_and]
  refine ⟨?_, fun memory => ?_⟩
  · rw [← stop_pieces_le_iff style]
    constructor
    · exact fun h => (print_isSome_iff _ _ [] 0).mp fun size _ => h size []
    · exact fun h size target => (print_isSome_iff _ _ target 0).mpr h size (Nat.zero_le size)
  · obtain ⟨r, hr⟩ := Option.isSome_iff_exists.mp (fields_isSome k.rdata 0 [4, 4, 4, 2, 1, 1])
    rw [ExceptT.run_bind, hr]
    cases r <;> cases memory <;> rfl

/-- Four bytes are accepted. -/
theorem totextKeydata_refresh : (fromwireKeydata [0, 0, 0, 1] 4).isOk ∧
    ((totextKeydata ⟨false, false, 0, [], fun _ => ascii "19700101000001", fun _ => [],
      fun _ _ _ => [], fun _ _ => 0⟩ [0, 0, 0, 1] 100 []).run.isNone) := by
  decide +kernel

end LbBind.Keydata

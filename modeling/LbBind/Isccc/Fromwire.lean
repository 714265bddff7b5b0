import Mathlib.Algebra.GroupWithZero.Nat
import Mathlib.Tactic.Common

/-! Messages of the control channel (`lib/isccc`). A message is a table of values; a value is
binary data, a table or a list, and is read into cells without static types. Reading ends with a
status, or an assertion about the type of a cell fails. Memory is never short here. -/

namespace LbBind.Isccc

open List Option

/-- The results of `isccc_cc_fromwire` other than success. -/
inductive Status
  | failure
  | unexpectedEnd
  | malformed
  | unknownVersion
  | badAuth
  deriving DecidableEq

inductive Sexpr
  | null
  | string (text : List UInt8)
  | pair (car cdr : Sexpr)
  | binary (data : List UInt8)
  deriving DecidableEq

def cstring (buffer : List UInt8) : List UInt8 := buffer.takeWhile (· ≠ 0)

def tostring : Sexpr → Option (List UInt8)
  | .string text => some text
  | .binary data => some (cstring data)
  | _ => none

def addtolist : Sexpr → Sexpr → Option Sexpr
  | .null, x => some (.pair x .null)
  | .pair a d, x => (addtolist d x).map (.pair a)
  | _, _ => none

def alistTag : List UInt8 := [42, 97, 108, 105, 115, 116, 42]

def alistp : Sexpr → Bool
  | .pair (.string text) _ => text = alistTag
  | _ => false

def assqLoop (key : List UInt8) : Sexpr → Option (Option Sexpr)
  | .null => some none
  | .pair (.pair (.string text) value) rest =>
    if text = key then some (some value) else assqLoop key rest
  | .pair (.pair .null _) _ => none
  | .pair (.pair _ _) rest => assqLoop key rest
  | _ => none

variable (alist : Sexpr) (key : List UInt8)

def assq : Option (Option Sexpr) := match alist with
  | .pair _ rest => if alistp alist then assqLoop key rest else none
  | _ => none

/-- The assignment to the `CDR` of the pair that `isccc_alist_assq` has found. -/
def setValue (key : List UInt8) (value : Sexpr) : Sexpr → Sexpr
  | .pair (.pair (.string text) old) rest =>
    if text = key then .pair (.pair (.string text) value) rest
    else .pair (.pair (.string text) old) (setValue key value rest)
  | .pair a rest => .pair a (setValue key value rest)
  | s => s

def define (value : Sexpr) : Option Sexpr :=
  match assq alist key with
  | none => none
  | some none => addtolist alist (.pair (.string key) value)
  | some (some _) => some (setValue key value alist)

def lookup : Option Sexpr :=
  (assq alist key).map fun found => found.getD .null

/-- `GET8`. Nothing is returned if the byte is outside of the region. -/
def get8 : List UInt8 → Option (ℕ × List UInt8)
  | b :: source => some (b.toNat, source)
  | [] => none

def get32 : List UInt8 → Option (ℕ × List UInt8)
  | a :: b :: c :: d :: source =>
    some (a.toNat * 2 ^ 24 + b.toNat * 2 ^ 16 + c.toNat * 2 ^ 8 + d.toNat, source)
  | _ => none

def getMem (n : ℕ) (source : List UInt8) : Option (List UInt8 × List UInt8) :=
  if source.length < n then none else some (source.take n, source.drop n)

def binarydata : ℕ := 1

def table : ℕ := 2

def list : ℕ := 3

def authKey : List UInt8 := [95, 97, 117, 116, 104]

def hmd5Key : List UInt8 := [104, 109, 100, 53]

/-- What a table is read into: the table, and what follows its first entry if that one is
`_auth`. -/
structure Reading where
  alist : Sexpr
  checksum : Option (List UInt8)
  deriving DecidableEq

def createAlist : Sexpr := .pair (.string alistTag) .null

def valueHeader (source : List UInt8) : Option (Except Status (ℕ × List UInt8 × List UInt8)) :=
  if source.length < 1 + 4 then some (.error .unexpectedEnd)
  else do
    let (msgtype, source) ← get8 source
    let (len, source) ← get32 source
    if source.length < len then some (.error .unexpectedEnd)
    else some (.ok (msgtype, source.take len, source.drop len))

def entryKey (source : List UInt8) : Option (Except Status (List UInt8 × List UInt8)) := do
  let (len, source) ← get8 source
  if source.length < len then some (.error .unexpectedEnd)
  else do
    let (key, source) ← getMem len source
    some (.ok (cstring key, source))

-- Each of the three routines has a number of rounds left. Nothing is returned if an assertion
-- fails, if a byte outside of the region is read, or if there are no rounds left.
mutual

def valueFromwire : ℕ → List UInt8 → Option (Except Status (Sexpr × List UInt8))
  | 0, _ => none
  | n + 1, source =>
    match valueHeader source with
    | none => none
    | some (.error e) => some (.error e)
    | some (.ok (msgtype, active, rest)) =>
      if msgtype = binarydata then some (.ok (.binary active, rest))
      else if msgtype = table then
        (tableLoop n false createAlist true none active).map fun r => r.map (·.alist, rest)
      else if msgtype = list then
        (listLoop n .null active).map fun r => r.map (·, rest)
      else some (.error .malformed)

def tableLoop : ℕ → Bool → Sexpr → Bool → Option (List UInt8) → List UInt8 →
    Option (Except Status Reading)
  | 0, _, _, _, _, _ => none
  | _ + 1, _, alist, _, checksum, [] => some (.ok ⟨alist, checksum⟩)
  | n + 1, secret, alist, firstTag, checksum, b :: source =>
    match entryKey (b :: source) with
    | none => none
    | some (.error e) => some (.error e)
    | some (.ok (key, source)) =>
      match valueFromwire n source with
      | none => none
      | some (.error e) => some (.error e)
      | some (.ok (value, source)) =>
        match define alist key value with
        | none => none
        | some alist =>
          tableLoop n secret alist false
            (if firstTag && secret && key = authKey then some source else checksum) source

def listLoop : ℕ → Sexpr → List UInt8 → Option (Except Status Sexpr)
  | 0, _, _ => none
  | _ + 1, l, [] => some (.ok l)
  | n + 1, l, b :: source =>
    match valueFromwire n (b :: source) with
    | none => none
    | some (.error e) => some (.error e)
    | some (.ok (value, source)) =>
      match addtolist l value with
      | none => none
      | some l => listLoop n l source

end

variable (hmacmd5 : List UInt8 → List UInt8 → List UInt8)

def verify (alist : Sexpr) (data secret : List UInt8) : Option (Except Status Unit) := do
  let auth ← lookup alist authKey
  if auth = .null then some (.error .failure)
  else do
    let hmd5 ← lookup auth hmd5Key
    if hmd5 = .null then some (.error .failure)
    else do
      let text ← tostring hmd5
      some (if hmacmd5 secret data ≠ text then .error .badAuth else .ok ())

def tableFromwire (source : List UInt8) (secret : Option (List UInt8)) :
    Option (Except Status Sexpr) :=
  match tableLoop (source.length + 1) secret.isSome createAlist true none source with
  | none => none
  | some (.error e) => some (.error e)
  | some (.ok ⟨alist, checksum⟩) =>
    match secret, checksum with
    | none, _ => some (.ok alist)
    | some _, none => some (.error .badAuth)
    | some secret, some checksum =>
      (verify hmacmd5 alist checksum secret).map fun r => r.map fun _ => alist

def version (source : List UInt8) : Option (Except Status (List UInt8)) :=
  if source.length < 4 then some (.error .unexpectedEnd)
  else do
    let (version, source) ← get32 source
    if version ≠ 1 then some (.error .unknownVersion) else some (.ok source)

def ccFromwire (source : List UInt8) (secret : Option (List UInt8)) :
    Option (Except Status Sexpr) :=
  match version source with
  | none => none
  | some (.error e) => some (.error e)
  | some (.ok source) => tableFromwire hmacmd5 source secret

inductive Entries (P : Sexpr → Prop) : Sexpr → Prop
  | null : Entries P .null
  | cons {key : List UInt8} {value rest : Sexpr} : P value → Entries P rest →
    Entries P (.pair (.pair (.string key) value) rest)

def IsTable (P : Sexpr → Prop) (s : Sexpr) : Prop :=
  ∃ rest, s = .pair (.string alistTag) rest ∧ Entries P rest

structure Value (s : Sexpr) : Prop where
  isTable : alistp s → IsTable (fun _ => True) s
  ne_string : ∀ text, s ≠ .string text

variable {P Q : Sexpr → Prop} {s alist v : Sexpr} {n : ℕ} {source : List UInt8}

section
variable (h : Entries P s)
include h

lemma Entries.imp (hPQ : ∀ v, P v → Q v) : Entries Q s := by
  induction h with
  | null => exact .null
  | cons hv _ ih => exact .cons (hPQ _ hv) ih

lemma Entries.assqLoop (key : List UInt8) :
    assqLoop key s = some none ∨ ∃ v, assqLoop key s = some (some v) ∧ P v := by
  induction h with
  | null => exact .inl rfl
  | @cons text value rest hv _ ih =>
    rw [Isccc.assqLoop]
    split_ifs
    · exact .inr ⟨value, rfl, hv⟩
    · exact ih

lemma Entries.addtolist (hv : P v) (key : List UInt8) :
    ∃ s', addtolist s (.pair (.string key) v) = some s' ∧ Entries P s' := by
  induction h with
  | null => exact ⟨_, rfl, .cons hv .null⟩
  | cons hold _ ih =>
    obtain ⟨s', heq, hs'⟩ := ih
    exact ⟨_, by rw [Isccc.addtolist, heq, map_some], .cons hold hs'⟩

lemma Entries.setValue (hv : P v) (key : List UInt8) :
    Entries P (setValue key v s) := by
  induction h with
  | null => exact .null
  | cons hold hrest ih =>
    rw [Isccc.setValue]
    split_ifs
    · exact .cons hv hrest
    · exact .cons hold ih

end

lemma IsTable.lookup (h : IsTable P alist) (key : List UInt8) :
    ∃ v, lookup alist key = some v ∧ (v ≠ .null → P v) := by
  obtain ⟨rest, rfl, hrest⟩ := h
  have hassq : assq (.pair (.string alistTag) rest) key = assqLoop key rest := by
    simp [assq, alistp]
  rcases hrest.assqLoop key with hnone | ⟨v, hsome, hv⟩
  · exact ⟨.null, by simp [lookup, hassq, hnone], fun h => absurd rfl h⟩
  · exact ⟨v, by simp [lookup, hassq, hsome], fun _ => hv⟩

lemma IsTable.define (h : IsTable P alist) (hv : P v) (key : List UInt8) :
    ∃ alist', define alist key v = some alist' ∧ IsTable P alist' := by
  obtain ⟨rest, rfl, hrest⟩ := h
  have hassq : assq (.pair (.string alistTag) rest) key = assqLoop key rest := by
    simp [assq, alistp]
  rcases hrest.assqLoop key with hnone | ⟨v, hsome, -⟩
  · obtain ⟨rest', heq, hrest'⟩ := hrest.addtolist hv key
    exact ⟨_, by simp [define, hassq, hnone, addtolist, heq], rest', rfl, hrest'⟩
  · exact ⟨_, by simp [define, hassq, hsome, setValue], _, rfl, hrest.setValue hv key⟩

lemma IsTable.value (h : IsTable Value s) : Value s := by
  obtain ⟨rest, rfl, hrest⟩ := h
  exact ⟨fun _ => ⟨rest, rfl, hrest.imp fun _ _ => trivial⟩, fun text => by simp⟩

lemma isTable_createAlist : IsTable P createAlist := ⟨.null, rfl, .null⟩

lemma value_binary (data : List UInt8) : Value (.binary data) :=
  ⟨fun h => by simp [alistp] at h, fun text => by simp⟩

def IsList : Sexpr → Prop
  | .null => True
  | .pair a d => (∀ text, a ≠ .string text) ∧ IsList d
  | _ => False

lemma IsList.addtolist (h : IsList s) (hv : Value v) :
    ∃ s', addtolist s v = some s' ∧ IsList s' := by
  induction s with
  | null => exact ⟨.pair v .null, rfl, hv.ne_string, trivial⟩
  | pair a d _ ih =>
    obtain ⟨d', heq, hd'⟩ := ih h.2
    exact ⟨.pair a d', by rw [Isccc.addtolist, heq, map_some], h.1, hd'⟩
  | string text => exact absurd h not_false
  | binary data => exact absurd h not_false

lemma IsList.value (h : IsList s) : Value s := by
  cases s with
  | null => exact ⟨fun h => by simp [alistp] at h, fun text => by simp⟩
  | pair a d =>
    refine ⟨fun htag => ?_, fun text => by simp⟩
    cases a with
    | string text => exact absurd rfl (h.1 text)
    | _ => simp [alistp] at htag
  | string text => exact absurd h not_false
  | binary data => exact absurd h not_false

lemma get8_eq (b : UInt8) (source : List UInt8) : get8 (b :: source) = some (b.toNat, source) := rfl

variable (source : List UInt8)

lemma get32_isSome (h : 4 ≤ source.length) :
    ∃ v rest, get32 source = some (v, rest) ∧ rest.length + 4 = source.length := by
  rcases source with _ | ⟨a, _ | ⟨b, _ | ⟨c, _ | ⟨d, rest⟩⟩⟩⟩
  · simp at h
  · simp at h
  · simp at h
  · simp at h
  · exact ⟨_, rest, rfl, by simp⟩

lemma valueHeader_spec : (∃ e, valueHeader source = some (.error e)) ∨
      ∃ msgtype active rest, valueHeader source = some (.ok (msgtype, active, rest)) ∧
        active.length + rest.length + 5 = source.length := by
  rw [valueHeader]
  split_ifs with hshort
  · exact .inl ⟨_, rfl⟩
  · rcases source with _ | ⟨b, source⟩
    · simp at hshort
    · obtain ⟨len, rest, heq, hlen⟩ := get32_isSome source (by simp at hshort; omega)
      simp only [get8_eq, heq, bind_eq_bind, bind_some]
      split_ifs with hlong
      · exact .inl ⟨_, rfl⟩
      · refine .inr ⟨_, _, _, rfl, ?_⟩
        simp only [length_take, length_drop, length_cons]
        omega

lemma entryKey_spec (b : UInt8) (source : List UInt8) :
    (∃ e, entryKey (b :: source) = some (.error e)) ∨
      ∃ key rest, entryKey (b :: source) = some (.ok (key, rest)) ∧
        rest.length ≤ source.length := by
  simp only [entryKey, get8_eq, bind_eq_bind, bind_some]
  split_ifs with hlong
  · exact .inl ⟨_, rfl⟩
  · refine .inr ⟨cstring (source.take b.toNat), source.drop b.toNat, ?_, by simp⟩
    simp [getMem, hlong]

/-- What the three routines return with enough rounds for the bytes that are left. -/
structure Reads (n : ℕ) : Prop where
  value : ∀ source : List UInt8, 0 < n → source.length ≤ n →
    (∃ e, valueFromwire n source = some (.error e)) ∨
      ∃ v rest, valueFromwire n source = some (.ok (v, rest)) ∧ Value v ∧
        rest.length < source.length
  table : ∀ (secret : Bool) (alist : Sexpr) (firstTag : Bool) (checksum : Option (List UInt8))
      (source : List UInt8), source.length < n → IsTable Value alist →
    (∃ e, tableLoop n secret alist firstTag checksum source = some (.error e)) ∨
      ∃ r, tableLoop n secret alist firstTag checksum source = some (.ok r) ∧ IsTable Value r.alist
  list : ∀ (l : Sexpr) (source : List UInt8), source.length < n → IsList l →
    (∃ e, listLoop n l source = some (.error e)) ∨
      ∃ l', listLoop n l source = some (.ok l') ∧ IsList l'

lemma Reads.succ (h : Reads n) : Reads (n + 1) where
  value source _ hn := by
    rw [valueFromwire]
    rcases valueHeader_spec source with ⟨e, he⟩ | ⟨msgtype, active, rest, heq, hlen⟩
    · exact .inl ⟨e, by rw [he]⟩
    · rw [heq]
      dsimp only
      split_ifs
      · exact .inr ⟨_, _, rfl, value_binary active, by omega⟩
      · rcases h.table false createAlist true none active (by omega) isTable_createAlist with
          ⟨e, he⟩ | ⟨r, hr, htable⟩
        · exact .inl ⟨e, by rw [he]; rfl⟩
        · exact .inr ⟨_, _, by rw [hr]; rfl, htable.value, by omega⟩
      · rcases h.list .null active (by omega) trivial with ⟨e, he⟩ | ⟨l, hl, hlist⟩
        · exact .inl ⟨e, by rw [he]; rfl⟩
        · exact .inr ⟨_, _, by rw [hl]; rfl, hlist.value, by omega⟩
      · exact .inl ⟨_, rfl⟩
  table secret alist firstTag checksum source hn halist := by
    cases source with
    | nil => exact .inr ⟨_, by rw [tableLoop], halist⟩
    | cons b source =>
      rw [length_cons] at hn
      rw [tableLoop]
      rcases entryKey_spec b source with ⟨e, he⟩ | ⟨key, rest, heq, hrest⟩
      · exact .inl ⟨e, by rw [he]⟩
      rcases h.value rest (by omega) (by omega) with ⟨e, he⟩ | ⟨v, rest', hv, hvalue, hrest'⟩
      · exact .inl ⟨e, by rw [heq]; simp only [he]⟩
      obtain ⟨alist', hdefine, halist'⟩ := halist.define hvalue key
      rw [heq]
      simp only [hv, hdefine]
      exact h.table secret alist' false _ rest' (by omega) halist'
  list l source hn hl := by
    cases source with
    | nil => exact .inr ⟨_, by rw [listLoop], hl⟩
    | cons b source =>
      rw [length_cons] at hn
      rw [listLoop]
      rcases h.value (b :: source) (by omega) (by rw [length_cons]; omega) with
        ⟨e, he⟩ | ⟨v, rest, hv, hvalue, hrest⟩
      · exact .inl ⟨e, by rw [he]⟩
      obtain ⟨l', hadd, hl'⟩ := hl.addtolist hvalue
      rw [hv]
      simp only [hadd]
      rw [length_cons] at hrest
      exact h.list l' rest (by omega) hl'

lemma reads (n : ℕ) : Reads n := by
  induction n with
  | zero => exact ⟨fun _ h => by omega, fun _ _ _ _ _ h => by omega, fun _ _ h => by omega⟩
  | succ n ih => exact ih.succ

/-- The values that `verify` looks at are of the types that it takes for granted: `_auth` is a
table, and the `hmd5` in it is neither a table nor a list, unless they are missing or empty
lists. -/
def Readable (alist : Sexpr) : Prop :=
  ∀ auth, lookup alist authKey = some auth → auth ≠ .null → alistp auth ∧
    ∀ hmd5, lookup auth hmd5Key = some hmd5 → ∀ car cdr, hmd5 ≠ .pair car cdr

lemma lookup_eq_none (h : alistp s = false) (key : List UInt8) : lookup s key = none := by
  cases s <;> simp [lookup, assq, h]

lemma tostring_isSome_iff (hs : s ≠ .null) :
    (tostring s).isSome ↔ ∀ car cdr, s ≠ .pair car cdr := by
  cases s <;> simp_all [tostring]

lemma verify_isSome_iff (h : IsTable Value alist) (data secret : List UInt8) :
    (verify hmacmd5 alist data secret).isSome ↔ Readable alist := by
  obtain ⟨auth, hauth, hvalue⟩ := h.lookup authKey
  simp only [Readable, verify, hauth, some.injEq, forall_eq', bind_eq_bind, bind_some]
  by_cases hnull : auth = .null
  · simp [hnull]
  rw [if_neg hnull, imp_iff_right hnull]
  cases htag : alistp auth with
  | false => simp [lookup_eq_none htag]
  | true =>
    obtain ⟨hmd5, hhmd5, -⟩ := ((hvalue hnull).isTable htag).lookup hmd5Key
    simp only [hhmd5, bind_some, true_and, some.injEq, forall_eq']
    by_cases hnone : hmd5 = .null
    · simp [hnone]
    · rw [if_neg hnone, ← tostring_isSome_iff hnone]
      cases tostring hmd5 <;> simp

def messageTable : Option Reading := match version source with
  | some (.ok source) =>
    match tableLoop (source.length + 1) true createAlist true none source with
    | some (.ok r) => some r
    | _ => none
  | _ => none

lemma version_spec :
    (∃ e, version source = some (.error e)) ∨ ∃ rest, version source = some (.ok rest) := by
  rw [version]
  split_ifs with hshort
  · exact .inl ⟨_, rfl⟩
  · obtain ⟨v, rest, heq, -⟩ := get32_isSome source (by omega)
    simp only [heq, bind_eq_bind, bind_some]
    split_ifs
    · exact .inl ⟨_, rfl⟩
    · exact .inr ⟨_, rfl⟩

/-- `isccc_cc_fromwire` ends, within the message and without a failed assertion: if and only if,
when there is a secret and the message starts with the section `_auth`, the values that are
verified are of the right types. -/
theorem ccFromwire_isSome_iff (secret : Option (List UInt8)) :
    (ccFromwire hmacmd5 source secret).isSome ↔
      (secret.isSome → ∀ r, messageTable source = some r → r.checksum.isSome →
        Readable r.alist) := by
  rcases version_spec source with ⟨e, he⟩ | ⟨rest, hrest⟩
  · simp [ccFromwire, messageTable, he]
  simp only [ccFromwire, messageTable, hrest, tableFromwire]
  cases secret with
  | none =>
    rcases (reads _).table false createAlist true none rest (Nat.lt_succ_self _)
      isTable_createAlist with ⟨e, he⟩ | ⟨r, hr, -⟩
    · simp [he]
    · simp [hr]
  | some secret =>
    rcases (reads _).table true createAlist true none rest (Nat.lt_succ_self _)
      isTable_createAlist with ⟨e, he⟩ | ⟨r, hr, htable⟩
    · simp [he]
    · obtain ⟨alist, checksum⟩ := r
      cases checksum with
      | none => simp [hr]
      | some checksum => simp [hr, verify_isSome_iff hmacmd5 htable]

def binaryAuth : List UInt8 := [0, 0, 0, 1, 5, 95, 97, 117, 116, 104, 1, 0, 0, 0, 0]

theorem ccFromwire_binaryAuth : ccFromwire (fun _ _ => []) binaryAuth (some [1]) = none := by
  decide

end LbBind.Isccc

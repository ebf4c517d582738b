import Mathlib.Data.Int.Notation
import Mathlib.Data.List.Basic

/-!
# JSON

A value, the text it is written as with nothing between its marks, and how a string is read
back. A string may be written in more than one way, so reading is a function of the text and
writing is one of its inverses (`readString_quoted`).
-/

set_option autoImplicit false

namespace Velosearch

inductive Number where
  | whole (n : ℤ)
  | double (written : List Char)
deriving DecidableEq

inductive JsonValue where
  | null
  | bool (b : Bool)
  | number (n : Number)
  | str (s : List Char)
  | arr (items : List JsonValue)
  | obj (members : List (List Char × JsonValue))

namespace JsonValue

/-! ## Members -/

/-- `get`, of an object. -/
def member : List (List Char × JsonValue) → List Char → Option JsonValue
  | [], _ => none
  | (k, v) :: members, key => if k = key then some v else member members key

/-- `get`, by a name: nothing but an object has members. -/
def get : JsonValue → List Char → Option JsonValue
  | .obj members, key => member members key
  | _, _ => none

/-! ## Writing -/

def hexDigit (n : ℕ) : Char :=
  Char.ofNat (if n < 10 then 48 + n else 87 + n)

/-- A character in a string, as `to_string` writes it. -/
def escape (c : Char) : List Char :=
  if c = '"' then ['\\', '"']
  else if c = '\\' then ['\\', '\\']
  else if c = '\n' then ['\\', 'n']
  else if c = '\r' then ['\\', 'r']
  else if c = '\t' then ['\\', 't']
  else if c = Char.ofNat 8 then ['\\', 'b']
  else if c = Char.ofNat 12 then ['\\', 'f']
  else if c.toNat < 32 then ['\\', 'u', '0', '0', hexDigit (c.toNat / 16), hexDigit (c.toNat % 16)]
  else [c]

def quoted (s : List Char) : List Char :=
  '"' :: (s.flatMap escape ++ ['"'])

def Number.print : Number → List Char
  | .whole n => (toString n).toList
  | .double written => written

mutual

def print : JsonValue → List Char
  | .null => ['n', 'u', 'l', 'l']
  | .bool true => ['t', 'r', 'u', 'e']
  | .bool false => ['f', 'a', 'l', 's', 'e']
  | .number n => Number.print n
  | .str s => quoted s
  | .arr items => '[' :: (printItems items ++ [']'])
  | .obj members => '{' :: (printMembers members ++ ['}'])

def printItems : List JsonValue → List Char
  | [] => []
  | [v] => print v
  | v :: w :: items => print v ++ ',' :: printItems (w :: items)

def printMembers : List (List Char × JsonValue) → List Char
  | [] => []
  | [(k, v)] => quoted k ++ ':' :: print v
  | (k, v) :: m :: members => quoted k ++ ':' :: (print v ++ ',' :: printMembers (m :: members))

end

/-! ## Reading -/

def hexValue (c : Char) : Option ℕ :=
  let n := c.toNat
  if 48 ≤ n ∧ n ≤ 57 then some (n - 48)
  else if 97 ≤ n ∧ n ≤ 102 then some (n - 87)
  else if 65 ≤ n ∧ n ≤ 70 then some (n - 55)
  else none

def hexCode (a b c d : Char) : Option ℕ := do
  let a ← hexValue a
  let b ← hexValue b
  let c ← hexValue c
  let d ← hexValue d
  pure (4096 * a + 256 * b + 16 * c + d)

def unescape (c : Char) : Option Char :=
  if c = '"' ∨ c = '\\' ∨ c = '/' then some c
  else if c = 'b' then some (Char.ofNat 8)
  else if c = 'f' then some (Char.ofNat 12)
  else if c = 'n' then some '\n'
  else if c = 'r' then some '\r'
  else if c = 't' then some '\t'
  else none

def surrogates (high low : ℕ) : Option Char :=
  if 0xd800 ≤ high ∧ high < 0xdc00 ∧ 0xdc00 ≤ low ∧ low < 0xe000 then
    some (Char.ofNat (0x10000 + 0x400 * (high - 0xd800) + (low - 0xdc00)))
  else none

/-- A code behind `\\u`, and where it is the first of two, the other one. -/
def readCode (n : ℕ) : List Char → Option (Char × List Char)
  | '\\' :: 'u' :: a :: b :: c :: d :: rest =>
    if 0xd800 ≤ n ∧ n < 0xe000 then
      ((hexCode a b c d).bind (surrogates n)).map fun found => (found, rest)
    else some (Char.ofNat n, '\\' :: 'u' :: a :: b :: c :: d :: rest)
  | rest => if 0xd800 ≤ n ∧ n < 0xe000 then none else some (Char.ofNat n, rest)

def readChar : List Char → Option (Char × List Char)
  | '\\' :: 'u' :: a :: b :: c :: d :: rest =>
    (hexCode a b c d).bind fun n => readCode n rest
  | '\\' :: c :: rest => (unescape c).map fun found => (found, rest)
  | c :: rest => if c = '\\' ∨ c.toNat < 32 then none else some (c, rest)
  | [] => none

def readChars : ℕ → List Char → Option (List Char × List Char)
  | n + 1, c :: rest =>
    if c = '"' then some ([], rest)
    else (readChar (c :: rest)).bind fun p =>
      (readChars n p.2).map fun q => (p.1 :: q.1, q.2)
  | _, _ => none

def readString (text : List Char) : Option (List Char × List Char) :=
  readChars text.length text

theorem hexValue_hexDigit {n : ℕ} (digit : n < 16) : hexValue (hexDigit n) = some n := by
  revert digit
  revert n
  decide

theorem readCode_control {n : ℕ} (control : n < 32) (rest : List Char) :
    readCode n rest = some (Char.ofNat n, rest) := by
  have plain : ¬ (0xd800 ≤ n ∧ n < 0xe000) := by omega
  unfold readCode
  split
  · simp [plain]
  · simp [plain]

theorem readChar_plain {c : Char} (slash : c ≠ '\\') (printed : ¬ c.toNat < 32)
    (rest : List Char) : readChar (c :: rest) = some (c, rest) := by
  unfold readChar
  split
  case h_1 eq =>
    simp only [List.cons.injEq] at eq
    exact absurd eq.1 slash
  case h_2 eq =>
    simp only [List.cons.injEq] at eq
    exact absurd eq.1 slash
  case h_3 eq =>
    simp only [List.cons.injEq] at eq
    obtain ⟨rfl, rfl⟩ := eq
    simp [slash, printed]
  case h_4 eq => simp at eq

theorem readChar_escape (c : Char) (rest : List Char) :
    readChar (escape c ++ rest) = some (c, rest) := by
  unfold escape
  split
  case isTrue quote => simp [quote, readChar, unescape]
  split
  case isTrue slash => simp [slash, readChar, unescape]
  split
  case isTrue line => simp [line, readChar, unescape]
  split
  case isTrue back => simp [back, readChar, unescape]
  split
  case isTrue tab => simp [tab, readChar, unescape]
  split
  case isTrue backspace => simp [backspace, readChar, unescape]
  split
  case isTrue feed => simp [feed, readChar, unescape]
  split
  case isTrue control =>
    have zero : hexValue '0' = some 0 := by decide
    have high := hexValue_hexDigit (n := c.toNat / 16) (by omega)
    have low := hexValue_hexDigit (n := c.toNat % 16) (by omega)
    have code : hexCode '0' '0' (hexDigit (c.toNat / 16)) (hexDigit (c.toNat % 16)) =
        some c.toNat := by
      simp only [hexCode, zero, high, low, Option.bind_eq_bind, Option.bind_some, Option.pure_def]
      congr 1
      omega
    simp [readChar, code, readCode_control control, Char.ofNat_toNat]
  case isFalse quote slash line back tab backspace feed printed =>
    exact readChar_plain slash printed rest

theorem escape_ne_quote (c : Char) (rest : List Char) :
    ∃ d more, escape c ++ rest = d :: more ∧ d ≠ '"' := by
  unfold escape
  split
  case isTrue quote => exact ⟨'\\', _, rfl, by decide⟩
  repeat' split
  all_goals first
    | exact ⟨'\\', _, rfl, by decide⟩
    | exact ⟨c, rest, rfl, ‹_›⟩

/-- **A string is read back from the way it is written**, whatever stands behind it. -/
theorem readString_quoted (s rest : List Char) :
    readString (s.flatMap escape ++ '"' :: rest) = some (s, rest) := by
  have enough : ∀ (s : List Char) (n : ℕ), s.length < n →
      readChars n (s.flatMap escape ++ '"' :: rest) = some (s, rest) := by
    intro s
    induction s with
    | nil =>
      intro n more
      obtain ⟨n, rfl⟩ := Nat.exists_eq_add_one_of_ne_zero (Nat.ne_of_gt more)
      simp [readChars]
    | cons c s ih =>
      intro n more
      obtain ⟨n, rfl⟩ := Nat.exists_eq_add_one_of_ne_zero (Nat.ne_of_gt (Nat.zero_lt_of_lt more))
      have first := readChar_escape c (s.flatMap escape ++ '"' :: rest)
      obtain ⟨d, more_, eq, other⟩ := escape_ne_quote c (s.flatMap escape ++ '"' :: rest)
      have later := ih n (by simpa using more)
      rw [List.flatMap_cons, List.append_assoc, eq, readChars, if_neg other, ← eq, first]
      simp [later]
  apply enough
  have long : ∀ s : List Char, s.length ≤ (s.flatMap escape).length := by
    intro s
    induction s with
    | nil => exact Nat.le_refl _
    | cons c s ih =>
      obtain ⟨d, more, eq, -⟩ := escape_ne_quote c []
      rw [List.append_nil] at eq
      rw [List.flatMap_cons, List.length_append, eq, List.length_cons, List.length_cons]
      omega
  rw [List.length_append, List.length_cons]
  have := long s
  omega

/-! ## The grammar -/

def White (text : List Char) : Prop :=
  ∀ c ∈ text, c = ' ' ∨ c = '\n' ∨ c = '\r' ∨ c = '\t'

mutual

inductive Spells : List Char → JsonValue → Prop where
  | null : Spells ['n', 'u', 'l', 'l'] .null
  | true : Spells ['t', 'r', 'u', 'e'] (.bool true)
  | false : Spells ['f', 'a', 'l', 's', 'e'] (.bool false)
  | number (n : Number) : Spells (Number.print n) (.number n)
  | str {text s : List Char} (read : readString text = some (s, [])) :
      Spells ('"' :: text) (.str s)
  | arr {text : List Char} {items : List JsonValue} (each : SpellsItems text items) :
      Spells ('[' :: (text ++ [']'])) (.arr items)
  | obj {text : List Char} {members : List (List Char × JsonValue)}
      (each : SpellsMembers text members) : Spells ('{' :: (text ++ ['}'])) (.obj members)
  | spaced {before text after : List Char} {v : JsonValue} (h : Spells text v)
      (white : White before)
      (white' : White after) : Spells (before ++ text ++ after) v

inductive SpellsItems : List Char → List JsonValue → Prop where
  | none {white : List Char} (h : White white) : SpellsItems white []
  | one {text : List Char} {v : JsonValue} (h : Spells text v) : SpellsItems text [v]
  | more {text rest : List Char} {v : JsonValue} {items : List JsonValue} (h : Spells text v)
      (some_ : items ≠ []) (later : SpellsItems rest items) :
      SpellsItems (text ++ ',' :: rest) (v :: items)

inductive SpellsMembers : List Char → List (List Char × JsonValue) → Prop where
  | none {white : List Char} (h : White white) : SpellsMembers white []
  | one {key text k : List Char} {v : JsonValue} (name : Spells key (.str k)) (h : Spells text v) :
      SpellsMembers (key ++ ':' :: text) [(k, v)]
  | more {key text rest k : List Char} {v : JsonValue} {members : List (List Char × JsonValue)}
      (name : Spells key (.str k)) (h : Spells text v) (some_ : members ≠ [])
      (later : SpellsMembers rest members) :
      SpellsMembers (key ++ ':' :: text ++ ',' :: rest) ((k, v) :: members)

end

theorem spells_quoted (s : List Char) : Spells (quoted s) (.str s) :=
  .str (readString_quoted s [])

mutual

theorem spells_print : ∀ v : JsonValue, Spells v.print v
  | .null => .null
  | .bool true => .true
  | .bool false => .false
  | .number n => .number n
  | .str s => spells_quoted s
  | .arr items => .arr (spells_printItems items)
  | .obj members => .obj (spells_printMembers members)

theorem spells_printItems : ∀ items : List JsonValue, SpellsItems (printItems items) items
  | [] => .none (by simp [White, printItems])
  | [v] => .one (spells_print v)
  | v :: w :: items => .more (spells_print v) (by simp) (spells_printItems (w :: items))

theorem spells_printMembers : ∀ members, SpellsMembers (printMembers members) members
  | [] => .none (by simp [White, printMembers])
  | [(k, v)] => .one (spells_quoted k) (spells_print v)
  | (k, v) :: m :: members => by
    have first := spells_print v
    have later := spells_printMembers (m :: members)
    simpa [printMembers] using SpellsMembers.more (spells_quoted k) first (by simp) later

end

end JsonValue
end Velosearch

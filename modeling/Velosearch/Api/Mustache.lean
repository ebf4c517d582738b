import Mathlib
import Velosearch.Lib.Json
import Velosearch.Lib.Text

/-!
# Search templates

`render` puts what the parameters say in place of a template's holes. It goes over the text
once at each level; a section's body is found by its closing text and is rendered a level
further in. What is written is charged to one budget that all the levels share.
-/

set_option autoImplicit false

namespace Velosearch
namespace Mustache

/-! ## Text -/

/-- `len()` -/
def size (text : List Char) : ℕ :=
  (text.map Char.utf8Size).sum

/-- `find`: what stands before the first `needle`, and what stands after it. -/
def find (needle : List Char) : List Char → Option (List Char × List Char)
  | [] => if needle = [] then some ([], []) else none
  | c :: text =>
    if needle <+: c :: text then some ([], (c :: text).drop needle.length)
    else (find needle text).map fun p => (c :: p.1, p.2)

def opening : List Char := ['{', '{']

def closing : List Char := ['}', '}']

/-- `trim_end_matches('}')` -/
def trimEndBraces (text : List Char) : List Char :=
  (text.reverse.dropWhile (· = '}')).reverse

/-! ## Values -/

/-- A dotted name followed into a value. -/
def follow : JsonValue → List (List Char) → Option JsonValue
  | here, [] => some here
  | here, part :: parts => (here.get part).bind fun next => follow next parts

/-- A name looked up, from the innermost scope outwards. -/
def lookUp (name : List Char) (scope : List JsonValue) : JsonValue :=
  if name = ['.'] then scope.headD .null
  else (scope.findSome? fun level => follow level (name.splitOn '.')).getD .null

/-- Whether a section over the value is written. -/
def truthy : JsonValue → Bool
  | .null => false
  | .bool b => b
  | .arr items => !items.isEmpty
  | .str s => !s.isEmpty
  | _ => true

/-- A value as a variable writes it. -/
def asText : JsonValue → List Char
  | .str s => s
  | .null => []
  | other => other.print

/-- A character as a JSON string has it. -/
def escapedChar (c : Char) : List Char :=
  if c = '"' then ['\\', '"']
  else if c = '\\' then ['\\', '\\']
  else if c = '\n' then ['\\', 'n']
  else if c = '\r' then ['\\', 'r']
  else if c = '\t' then ['\\', 't']
  else [c]

def escaped (text : List Char) : List Char :=
  text.flatMap escapedChar

/-- A byte a URL holds as it is: a letter, a digit, `-`, `_`, `.` or `~`. -/
def unreserved (b : UInt8) : Bool :=
  (65 ≤ b && b ≤ 90) || (97 ≤ b && b ≤ 122) || (48 ≤ b && b ≤ 57) || b == 45 || b == 95 ||
    b == 46 || b == 126

def upperHex (n : ℕ) : Char :=
  Char.ofNat (if n < 10 then 48 + n else 55 + n)

/-- Percent-encoding, byte by byte. -/
def urlEscaped (text : List Char) : List Char :=
  (Text.encode text).flatMap fun b =>
    if unreserved b then [Char.ofNat b.toNat]
    else ['%', upperHex (b.toNat / 16), upperHex (b.toNat % 16)]

/-! ## The budget -/

/-- How deep sections may nest. -/
def maxSectionDepth : ℕ := 100

/-- How much a template may render: 8 MiB. -/
def maxRendered : ℕ := 8 <<< 20

/-- Why a template is not rendered. -/
inductive Refusal where
  | tooMuch (len : ℕ)
  | tooDeep
deriving DecidableEq

/-- What has been charged, and, which nothing reads, the bytes of all the text written so far at
every level. -/
structure Ledger where
  budget : ℕ
  produced : ℕ
deriving DecidableEq

def Ledger.fresh : Ledger := ⟨0, 0⟩

/-- Rendering, which counts what it writes whether it ends or is refused. -/
def Work (α : Type) : Type :=
  Ledger → Except Refusal α × Ledger

instance : Monad Work where
  pure a l := (.ok a, l)
  bind m f l :=
    match m l with
    | (.ok a, l) => f a l
    | (.error e, l) => (.error e, l)

/-- `*budget += n`, and the refusal past the ceiling. -/
def charge (n : ℕ) : Work Unit := fun l =>
  let l := { l with budget := l.budget + n }
  if maxRendered < l.budget then (.error (.tooMuch l.budget), l) else (.ok (), l)

/-- Text that is written and not charged. -/
def push (text : List Char) : Work Unit := fun l =>
  (.ok (), { l with produced := l.produced + size text })

def refuse {α : Type} (why : Refusal) : Work α := fun l => (.error why, l)

/-! ## Rendering -/

/-- `section`: what it holds, and what follows it. -/
def sectionOf (text name : List Char) : List Char × List Char :=
  (find (opening ++ '/' :: name ++ closing) text).getD (text, [])

/-- `render_within`, a level further in. -/
abbrev Within := List Char → List JsonValue → Work (List Char)

/-- A section over an array, item by item. -/
def eachItem (within : Within) (body : List Char) (scope : List JsonValue) :
    List JsonValue → Work (List Char)
  | [] => pure []
  | item :: items => do
    let first ← within body (item :: scope)
    let rest ← eachItem within body scope items
    pure (first ++ rest)

/-- A section with a value: nothing, its body once, or its body for each item. -/
def filledBy (within : Within) (value : JsonValue) (body : List Char) (scope : List JsonValue) :
    Work (List Char) :=
  match value with
  | .arr items => eachItem within body scope items
  | .obj members => within body (.obj members :: scope)
  | other => if truthy other then within body scope else pure []

def toJsonName : List Char := ['t', 'o', 'J', 's', 'o', 'n']

def joinName : List Char := ['j', 'o', 'i', 'n']

def urlName : List Char := ['u', 'r', 'l']

/-- What `join` makes of a value. -/
def joined : JsonValue → List Char
  | .arr items => [','].intercalate (items.map asText)
  | other => asText other

/-- A section of a name, the three functions among them. -/
def filled (within : Within) (name body : List Char) (scope : List JsonValue) : Work (List Char) :=
  if name = toJsonName then do
    let inner ← within body scope
    pure (lookUp (Text.trim inner) scope).print
  else if name = joinName then do
    let inner ← within body scope
    pure (joined (lookUp (Text.trim inner) scope))
  else if name = urlName then do
    let inner ← within body scope
    pure (urlEscaped inner)
  else filledBy within (lookUp name scope) body scope

/-- A tag, with what is left of the template behind it. -/
def tagged (within : Within) (scope : List JsonValue) (tag tail : List Char) :
    Work (List Char × List Char) :=
  match tag with
  | '#' :: rest => do
    let name := Text.trim rest
    let (body, afterSection) := sectionOf tail name
    let text ← filled within name body scope
    pure (text, afterSection)
  | '^' :: rest => do
    let name := Text.trim rest
    let (body, afterSection) := sectionOf tail name
    if truthy (lookUp name scope) then pure ([], afterSection)
    else
      let text ← within body scope
      pure (text, afterSection)
  | '/' :: _ => pure ([], tail)
  | '!' :: _ => pure ([], tail)
  | '{' :: rest =>
    pure (asText (lookUp (trimEndBraces (Text.trim rest)) scope),
      if tail.head? = some '}' then tail.tail else tail)
  | '&' :: rest => pure (asText (lookUp (Text.trim rest) scope), tail)
  | tag => pure (escaped (asText (lookUp tag scope)), tail)

/-- The same with what the tag wrote put into the result. -/
def placed (within : Within) (scope : List JsonValue) (tag tail : List Char) :
    Work (List Char × List Char) := do
  let (text, next) ← tagged within scope tag tail
  push text
  pure (text, next)

/-- The text before a hole. -/
def literal (before : List Char) : Work Unit := do
  charge (size before)
  push before

/-- What follows the last tag. -/
def ending (rest : List Char) : Work (List Char) := do
  push rest
  charge (size rest)
  pure rest

/-- The template from here to its end. -/
def turns (within : Within) (scope : List JsonValue) : ℕ → List Char → Work (List Char)
  | 0, rest => ending rest
  | n + 1, rest =>
    match find opening rest with
    | none => ending rest
    | some (before, after) => do
      literal before
      match find closing after with
      -- a hole that is never closed stands as it is written, and nothing is charged for it
      | none => do
        push (opening ++ after)
        pure (before ++ opening ++ after)
      | some (inside, tail) => do
        let (text, next) ← placed within scope (Text.trim inside) tail
        let more ← turns within scope n next
        pure (before ++ text ++ more)

/-- `render_within`, with how many levels there may still be. -/
def renderWithin : ℕ → Within
  | 0, _, _ => refuse .tooDeep
  | levels + 1, template, scope => do
    charge 64
    turns (renderWithin levels) scope template.length template

/-- A template over its parameters, with what it came to cost. -/
def rendering (template : List Char) (params : JsonValue) : Except Refusal (List Char) × Ledger :=
  renderWithin (maxSectionDepth + 1) template [params] .fresh

/-- The text of a template, or why there is none. -/
def render (template : List Char) (params : JsonValue) : Except Refusal (List Char) :=
  (rendering template params).1

/-! ## Text that is found -/

@[simp] theorem size_nil : size [] = 0 :=
  rfl

@[simp] theorem size_append (a b : List Char) : size (a ++ b) = size a + size b := by
  simp [size]

theorem find_spec {needle : List Char} :
    ∀ {text before after : List Char}, find needle text = some (before, after) →
      text = before ++ needle ++ after
  | [], before, after, h => by
    by_cases none : needle = []
    · obtain ⟨rfl, rfl⟩ : before = [] ∧ after = [] := by simpa [find, none, eq_comm] using h
      simp [none]
    · simp [find, none] at h
  | c :: text, before, after, h => by
    by_cases here : needle <+: c :: text
    · obtain ⟨rest, eq⟩ := here
      simp [find, ← eq] at h
      simp [← h.1, ← h.2, ← eq]
    · simp only [find, here, if_false, Option.map_eq_some_iff, Prod.exists, Prod.mk.injEq] at h
      obtain ⟨before, after, later, rfl, rfl⟩ := h
      simp [find_spec later]

end Mustache
end Velosearch

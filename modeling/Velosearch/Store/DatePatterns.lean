import Velosearch.Store.DateText
import Mathlib.Logic.Function.Basic

/-!
# Dates by a pattern

`format_with_pattern` and `parse_with_pattern` of `src/store/dates.rs`: a moment written the way a
pattern of letters spells it, and read again. Moments are in UTC, which is what the code has when
it comes to either function.
-/

set_option autoImplicit false

namespace Velosearch.DatePattern

open DateText (Run)
open DateText.Run
open Digits

/-! ## Patterns -/

/-- A piece of a pattern: text in quotes, whose end may be missing, or a character as often as it
stands there. -/
inductive Item where
  | quoted (literal : List Char) (closed : Bool)
  | run (c : Char) (n : ℕ) (pos : 0 < n)
deriving DecidableEq

/-- One more of the same letter. -/
def addChar (c : Char) : List Item → List Item
  | .run c' n pos :: rest =>
    if c' = c then .run c (n + 1) (Nat.succ_pos n) :: rest
    else .run c 1 Nat.one_pos :: .run c' n pos :: rest
  | rest => .run c 1 Nat.one_pos :: rest

/-- A pattern, piece by piece. -/
def pieces : Option (List Char) → List Char → List Item
  | none, [] => []
  | some literal, [] => [.quoted literal.reverse false]
  | some literal, c :: p =>
    if c = '\'' then .quoted literal.reverse true :: pieces none p
    else pieces (some (c :: literal)) p
  | none, c :: p => if c = '\'' then pieces (some []) p else addChar c (pieces none p)

/-- A pattern. -/
def items (p : List Char) : List Item := pieces none p

/-! ## Writing -/

/-- `{:0run$}` of a number that may be negative: the sign is one of the places. -/
def signed (width : ℕ) (x : ℤ) : List Char :=
  if x < 0 then '-' :: padded (width - 1) x.natAbs else padded width x.natAbs

/-- The zone, as a pattern writes it. -/
def zoneText (colon zForUtc : Bool) : List Char :=
  if zForUtc then "Z".toList else if colon then "+00:00".toList else "+0000".toList

/-- A day of the week. -/
def weekdayName (d : Date) : List Char :=
  (["Monday", "Tuesday", "Wednesday", "Thursday", "Friday", "Saturday", "Sunday"].getD
    d.numberDaysFromMonday.toNat "").toList

/-- The day of the year. -/
def ordinal (d : Date) : ℕ := (d.number - Civil.monthStart (12 * d.year) + 1).toNat

/-- What some letters write. -/
def writeRun (t : OffsetDateTime) (c : Char) (n : ℕ) : List Char :=
  match c with
  | 'S' => (padded 9 t.time.nanosecond).take (min n 9)
  | 'X' => zoneText (3 ≤ n) true
  | 'x' => zoneText (3 ≤ n) false
  | 'Z' => zoneText (4 ≤ n) false
  | 'z' | 'V' | 'O' => "UTC".toList
  | 'a' => if t.time.hour < 12 then "AM".toList else "PM".toList
  | 'h' => padded n (if t.time.hour % 12 = 0 then 12 else t.time.hour % 12)
  | 'E' => if 4 ≤ n then weekdayName t.date else (weekdayName t.date).take 3
  | 'D' => padded n (ordinal t.date)
  | 'u' | 'y' => signed n t.date.year
  | 'M' => padded n t.date.month.toNat
  | 'd' => padded n t.date.day.toNat
  | 'H' => padded n t.time.hour
  | 'm' => padded n t.time.minute
  | 's' => padded n t.time.second
  | other => List.replicate n other

/-- What an item writes. -/
def writeItem (t : OffsetDateTime) : Item → List Char
  | .quoted literal closed => if literal = [] ∧ closed then ['\''] else literal
  | .run c n _ => writeRun t c n

/-- What a pattern writes. -/
def written (t : OffsetDateTime) (is : List Item) : List Char := is.flatMap (writeItem t)

/-- An instant by a pattern. -/
def formatWithPattern (t : OffsetDateTime) (p : List Char) : List Char := written t (items p)

/-! ## Reading -/

/-- What a pattern reads. -/
structure Fields where
  number : Char → ℕ
  pm : Option Bool
  offsetSecs : ℤ

/-- A field is read. -/
def Fields.set (f : Fields) (c : Char) (v : ℕ) : Fields :=
  { f with number := Function.update f.number c v }

/-- What is there before. -/
def start : Fields where
  number c := if c = 'y' then 1970 else if c = 'M' ∨ c = 'd' then 1 else 0
  pm := none
  offsetSecs := 0

/-- A number. -/
def readNumber (f : Fields) (c : Char) (most : ℕ) (text : List Char) :
    Option (Fields × List Char) :=
  (digits most text).map fun x => (f.set c (number x.1), x.2)

/-- The months. -/
def monthNames : List (List Char) :=
  ["jan", "feb", "mar", "apr", "may", "jun", "jul", "aug", "sep", "oct", "nov", "dec"].map
    String.toList

/-- A month by its name. -/
def readMonthName (f : Fields) (text : List Char) : Option (Fields × List Char) :=
  let name := (text.takeWhile Char.isAlpha).map Char.toLower
  (monthNames.findIdx? fun m => m.isPrefixOf name).map fun i =>
    (f.set 'M' (i + 1), text.dropWhile Char.isAlpha)

/-- An offset. -/
def readOffset (f : Fields) (sign : ℤ) (text : List Char) : Option (Fields × List Char) :=
  (digits 2 text).map fun hh =>
    let rest := match hh.2 with
      | ':' :: rest => rest
      | rest => rest
    let mm := (digits 2 rest).getD ([], rest)
    ({ f with offsetSecs := sign * (number hh.1 * 3600 + number mm.1 * 60) }, mm.2)

/-- A zone. -/
def readZone (f : Fields) (text : List Char) : Option (Fields × List Char) :=
  match text with
  | 'Z' :: rest => some (f, rest)
  | '+' :: rest => readOffset f 1 rest
  | '-' :: rest => readOffset f (-1) rest
  | text => some (f, text.dropWhile Char.isAlpha)

/-- What some letters read. -/
def readRun (f : Fields) (c : Char) (n : ℕ) (text : List Char) : Option (Fields × List Char) :=
  match c with
  | 'y' | 'u' => readNumber f 'y' (if n = 2 then 2 else 9) text
  | 'M' => if 3 ≤ n then readMonthName f text else readNumber f 'M' 2 text
  | 'd' => readNumber f 'd' 2 text
  | 'H' | 'k' | 'h' | 'K' => readNumber f 'H' 2 text
  | 'm' => readNumber f 'm' 2 text
  | 's' => readNumber f 's' 2 text
  | 'S' =>
    (digits 9 text).map fun x => (f.set 'S' (number x.1 * 10 ^ (9 - x.1.length)), x.2)
  | 'a' =>
    let word := (text.takeWhile Char.isAlpha).map Char.toLower
    some ({ f with pm := some (word = "pm".toList) }, text.dropWhile Char.isAlpha)
  | 'X' | 'Z' | 'x' | 'z' | 'V' | 'O' => readZone f text
  | 'E' => some (f, text.dropWhile Char.isAlpha)
  | _ => none

/-- A text that is to be there. -/
def readLiteral (f : Fields) (literal text : List Char) : Option (Fields × List Char) :=
  if literal <+: text then some (f, text.drop literal.length) else none

/-- What an item reads. -/
def readItem (f : Fields) (text : List Char) : Item → Option (Fields × List Char)
  | .quoted literal _ => readLiteral f literal text
  | .run c n _ =>
    if c.isAlpha then readRun f c n text else readLiteral f (List.replicate n c) text

/-- What a pattern reads. -/
def readItems (f : Fields) (text : List Char) : List Item → Option (Fields × List Char)
  | [] => some (f, text)
  | item :: is => (readItem f text item).bind fun x => readItems x.1 x.2 is

/-- A pattern that is read as one. -/
def accepted (p : List Char) : Bool :=
  (p.any fun c => c.isUpper || c = 'y' || c = 'd') && !p.contains '_'

/-- A year of two digits. -/
def ShortYear (p : List Char) : Prop := ['y', 'y'] <:+: p ∧ ¬['y', 'y', 'y'] <:+: p

instance (p : List Char) : Decidable (ShortYear p) := inferInstanceAs (Decidable (_ ∧ _))

/-- The year. -/
def Fields.year (f : Fields) (p : List Char) : ℕ :=
  if f.number 'y' < 100 ∧ ShortYear p then f.number 'y' + 2000 else f.number 'y'

/-- The hour. -/
def Fields.hour (f : Fields) : ℕ :=
  match f.pm with
  | none => f.number 'H'
  | some afternoon => f.number 'H' % 12 + if afternoon then 12 else 0

/-- The instant of some fields. -/
def build (f : Fields) (p : List Char) : Run OffsetDateTime := do
  let date ← ofOption (Date.fromCalendarDate (f.year p) (f.number 'M') (f.number 'd'))
  let time ← ofOption (Time.fromHmsNano f.hour (f.number 'm') (f.number 's') (f.number 'S'))
  orPanic ((⟨date, time⟩ : OffsetDateTime).checkedAdd (-f.offsetSecs))

/-- A text by a pattern. -/
def parseWithPattern (s p : List Char) : Run OffsetDateTime :=
  if accepted p then do
    let (f, rest) ← ofOption (readItems start s (items p))
    if rest = [] then build f p else ofOption none
  else ofOption none

end Velosearch.DatePattern

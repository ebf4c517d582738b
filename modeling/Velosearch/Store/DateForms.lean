import Velosearch.Search.Values
import Velosearch.Store.DatePatterns

/-!
# Dates by a named format

`format_millis_at` and `canonical_date` of `src/store/dates.rs`, and `format_millis_utc` of
`src/store/mod.rs`: a count of milliseconds written as a format asks for it, and a text read as a
date and written in the one spelling the index has.
-/

set_option autoImplicit false

namespace Velosearch

namespace OffsetDateTime

/-- The nanoseconds of an instant. -/
def unixTimestampNanos (dt : OffsetDateTime) : ℤ := dt.seconds * 1000000000 + dt.time.nanosecond

/-- The instant of some. -/
def fromUnixTimestampNanos (n : ℤ) : Option OffsetDateTime :=
  (Date.ofNumber (n / 86400000000000)).map fun date =>
    ⟨date, Time.ofSeconds (n % 86400000000000 / 1000000000) (by omega)
      (n % 1000000000).toNat (by omega)⟩

end OffsetDateTime

namespace DateForm

open DateText (Run cut splitOnce parseDateLenient)
open DateText.Run
open DatePattern (formatWithPattern signed)
open Search (F64)
open Digits

/-! ## Writing -/

/-- The names of the format. -/
def isoNames : List (List Char) :=
  ["iso8601", "strict_date_optional_time", "date_optional_time", "date_time",
    "strict_date_time"].map String.toList

/-- A date and a time. -/
def dateAndTime (dt : OffsetDateTime) : List Char :=
  (formatWithPattern dt "yyyy-MM-dd'T'HH:mm:ss".toList).filter (· ≠ '\'')

/-- An instant, to the millisecond. -/
def isoText (dt : OffsetDateTime) : List Char :=
  dateAndTime dt ++ '.' :: padded 3 (dt.time.nanosecond / 1000000)

/-- A number. -/
def intText (n : ℤ) : List Char := signed 1 n

/-- Milliseconds in a format. -/
def formatMillisUtc (ms : ℤ) (format : List Char) : Option (List Char) :=
  (OffsetDateTime.fromUnixTimestampNanos (ms * 1000000)).map fun dt =>
    if format = "epoch_millis".toList then intText ms
    else if format = "epoch_second".toList then intText (ms.tdiv 1000)
    else if ["strict_date".toList, "date".toList, "yyyy-MM-dd".toList].contains format then
      formatWithPattern dt "yyyy-MM-dd".toList
    else if format = "basic_date".toList then formatWithPattern dt "yyyyMMdd".toList
    else if isoNames.contains format then isoText dt ++ ['Z']
    else if ["strict_date_hour_minute_second".toList,
        "date_hour_minute_second".toList].contains format then dateAndTime dt
    else formatWithPattern dt format

/-- `+02:00` -/
def zoneText (zoneMs : ℤ) : List Char :=
  let total := zoneMs.tdiv 60000
  (if total < 0 then '-' else '+') ::
    (padded 2 (total.natAbs / 60) ++ ':' :: padded 2 (total.natAbs % 60))

/-- The same in a zone. -/
def formatMillisAt (ms : ℤ) (format : List Char) (zoneMs : ℤ) : Option (List Char) :=
  if zoneMs ≠ 0 then
    (OffsetDateTime.fromUnixTimestampNanos ((ms + zoneMs) * 1000000)).bind fun local_ =>
      if isoNames.contains format then some (isoText local_ ++ zoneText zoneMs)
      else formatMillisUtc (ms + zoneMs) format
  else formatMillisUtc ms format

/-! ## A text as a double -/

/-- A sign. -/
def signOf : List Char → ℤ × List Char
  | '-' :: s => (-1, s)
  | '+' :: s => (1, s)
  | s => (1, s)

/-- An exponent. -/
def exponentOf : List Char → Option ℤ
  | [] => some 0
  | c :: s =>
    let (sign, ds) := signOf s
    if (c = 'e' ∨ c = 'E') ∧ ds ≠ [] ∧ ds.all Char.isDigit then some (sign * number ds) else none

/-- `parse::<f64>` -/
def parseF64 (s : List Char) : Option F64 :=
  let (sign, rest) := signOf s
  let word := rest.map Char.toLower
  if word = "inf".toList ∨ word = "infinity".toList then
    some (if sign < 0 then .negInf else .posInf)
  else if word = "nan".toList then some .nan
  else
    let whole := rest.takeWhile Char.isDigit
    let (frac, tail) := match rest.dropWhile Char.isDigit with
      | '.' :: r => (r.takeWhile Char.isDigit, r.dropWhile Char.isDigit)
      | r => ([], r)
    if whole = [] ∧ frac = [] then none
    else (exponentOf tail).map fun e : ℤ =>
      F64.nearest (sign * number (whole ++ frac) * (10 : ℚ) ^ (e - (frac.length : ℤ)))

/-- `as i128`: towards zero, and no further than the bounds. -/
def toI128 : F64 → ℤ
  | .nan => 0
  | .negInf => -2 ^ 127
  | .posInf => 2 ^ 127 - 1
  | .fin q => max (-2 ^ 127) (min (2 ^ 127 - 1) (if 0 ≤ q then ⌊q⌋ else ⌈q⌉))

/-! ## Reading -/

/-- One reading, or else another. -/
def orElse {α : Type} (r other : Run α) : Run α :=
  match r.answer with
  | .nothing => ⟨r.wraps || other.wraps, other.answer⟩
  | _ => r

/-- `{:04}-{:02}-{:02}T{:02}:{:02}:{:02}.{:03}Z` -/
def canonical (dt : OffsetDateTime) : List Char :=
  signed 4 dt.date.year ++ '-' :: padded 2 dt.date.month.toNat ++ '-' ::
    padded 2 dt.date.day.toNat ++ 'T' :: padded 2 dt.time.hour ++ ':' ::
    padded 2 dt.time.minute ++ ':' :: padded 2 dt.time.second ++ '.' ::
    padded 3 (dt.time.nanosecond / 1000000) ++ ['Z']

section

variable (parseDatetime : List Char → Option OffsetDateTime) (nowUtc : OffsetDateTime)

/-- The instant of a number. -/
def epoch (x : F64) : Run OffsetDateTime := do
  let n ← cut 128 (toI128 x * 1000000)
  ofOption (OffsetDateTime.fromUnixTimestampNanos n)

/-- `canonical_date` of a text: digits are a date first, and a count where they are none. -/
def canonicalDate (s : List Char) : Run (List Char) := do
  let lenient := parseDateLenient parseDatetime nowUtc s
  let dt ← match parseF64 s with
    | some x => orElse lenient (epoch x)
    | none => lenient
  pure (canonical dt)

end

example : parseF64 "-12.5e1".toList = some (.fin (-125)) := by decide +kernel

example : formatMillisAt 0 "date".toList 7200000 = some "1970-01-01".toList := by decide +kernel

end DateForm

end Velosearch

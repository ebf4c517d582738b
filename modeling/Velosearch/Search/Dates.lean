import Velosearch.Search.Calendar

/-!
# Dates put in buckets

Three pieces of code cut the line of instants into buckets of dates: the walk of a calendar or zoned
`date_histogram` aggregation (`src/search/aggs/histogram.rs`), the `date_histogram` source of a
composite aggregation (`src/search/aggs/composite.rs`), and the windows of a rollup job
(`src/ism/rollup.rs`). Instants are whole milliseconds here; the doubles the first two read their
first and last date from are not part of it.
-/

set_option autoImplicit false

namespace Velosearch

/-! ## Zones -/

/-- `tz::Zone`: the instants, in seconds, a zone changed at with the offset after each, and the
offset before the first. -/
structure Zone where
  initial : ℤ
  transitions : List (ℤ × ℤ)
  within : transitions ≠ [] → ∀ o ∈ initial :: transitions.map Prod.snd, -89999 ≤ o ∧ o ≤ 93599

/-- What a zone's clocks show, at an instant. -/
def Zone.offsetAt (z : Zone) (unixSecs : ℤ) : ℤ :=
  match (z.transitions.takeWhile fun x => decide (x.1 ≤ unixSecs)).getLast? with
  | none => z.initial
  | some x => x.2

/-! ## What is asked for -/

/-- The number some digits are. -/
def digitsValue (ds : List Char) : ℤ :=
  ds.foldl (fun n c => n * 10 + (c.toNat - '0'.toNat : ℕ)) 0

/-- `parse_offset`: a length of time, in milliseconds. -/
def parseOffset (s : List Char) : Option ℤ :=
  let (sign, rest) : ℤ × List Char :=
    match s with
    | '-' :: r => (-1, r)
    | '+' :: r => (1, r)
    | r => (1, r)
  let ds := rest.takeWhile Char.isDigit
  let n := sign * digitsValue ds
  if ds.isEmpty then none
  else
    match rest.dropWhile Char.isDigit with
    | ['m', 's'] => some n
    | ['s'] => some (n * 1000)
    | ['m'] => some (n * 60000)
    | ['h'] | ['H'] => some (n * 3600000)
    | ['d'] => some (n * 86400000)
    | _ => none

/-- A `fixed_interval` as the milliseconds it was read as, or a `calendar_interval` that names a
unit. -/
inductive Interval where
  | fixed (step : ℤ) (pos : 0 < step)
  | calendar (name : String) (unit : CalendarUnit) (named : CalendarUnit.parse name = some unit)

/-- A date histogram: its interval, the `offset` that was read, nought where there is none, and its
zone, none where it is missing or UTC. -/
structure DateSpec where
  interval : Interval
  offset : ℤ
  zone : Option Zone

namespace DateSpec

variable (q : DateSpec)

/-- How far the zone is from UTC. -/
def zoneAt (t : ℤ) : ℤ :=
  match q.zone with
  | none => 0
  | some z => z.offsetAt (t / 1000) * 1000

/-! ## The aggregation -/

/-- A fixed step divides the line evenly from the epoch; an instant floored to one that cannot be
held stays where it is. -/
def floorLocal (t : ℤ) : ℤ :=
  match q.interval with
  | .fixed step _ => if CalendarUnit.Held (t / step * step) then t / step * step else t
  | .calendar _ u _ => u.floor (t - q.offset) + q.offset

/-- The beginning of the bucket an instant is in. -/
def shift (t : ℤ) : ℤ :=
  let o := q.zoneAt t
  q.floorLocal (t + o) - o

/-- The next beginning by the clocks. -/
def localNext (u : CalendarUnit) (c : ℤ) : ℤ :=
  u.advanceHeld (c + q.zoneAt c - q.offset) + q.offset

/-- Where it is, if the clocks are not changed. -/
def guess (u : CalendarUnit) (c : ℤ) : ℤ := q.localNext u c - q.zoneAt c

/-- The next beginning. -/
def nextCursor (cursor : ℤ) : ℤ :=
  match q.interval with
  | .fixed step _ => cursor + step
  | .calendar _ u _ => q.localNext u cursor - q.zoneAt (q.guess u cursor)

/-- The buckets of a histogram, one behind the other. -/
def runCalendarHistogram (ceiling : ℕ) (lo hi : ℤ) : Option (List (ℤ × ℤ)) :=
  Grid.walk q.nextCursor (q.shift hi) true ceiling (q.shift lo)

/-! ## The source of a composite aggregation -/

/-- The length of an interval that has one. -/
def fixedLen : Option ℤ :=
  match q.interval with
  | .fixed step _ => some step
  | .calendar name _ _ => (parseOffset name.toList).filter (0 < ·)

/-- The first cell of a composite source. -/
def compositeFirst (lo : ℤ) : ℤ :=
  let zone := q.zoneAt 0
  match q.fixedLen, q.interval with
  | none, .calendar _ u _ => u.floor (lo + zone) - zone
  | some step, _ | none, .fixed step _ =>
    let shift := (q.offset - zone) % step
    (lo - shift) / step * step + shift

/-- The next. -/
def compositeNext (cursor : ℤ) : ℤ :=
  let zone := q.zoneAt 0
  match q.fixedLen, q.interval with
  | none, .calendar _ u _ => u.advance (cursor + zone) - zone
  | some step, _ | none, .fixed step _ => cursor + step

/-! ## The windows of a rollup -/

/-- A rollup's dimension has no offset. -/
def windowFloor (t : ℤ) : ℤ :=
  match q.interval with
  | .calendar _ u _ =>
    let localFloor := u.floor (t + q.zoneAt t)
    localFloor - q.zoneAt localFloor
  | .fixed step _ =>
    (t + q.zoneAt t) / step * step - q.zoneAt t

/-- The end of a window. -/
def windowEnd (start : ℤ) : ℤ :=
  match q.interval with
  | .calendar _ u _ =>
    let localNext := u.advance (start + q.zoneAt start)
    localNext - q.zoneAt localNext
  | .fixed step _ => start + step

end DateSpec

end Velosearch

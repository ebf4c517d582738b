import Velosearch.Lib.Civil

/-!
# Calendar units

`src/search/calendar.rs`: where the second, the hour, the week or the month of an instant begins,
and the step from there to the next. An instant is in milliseconds from the first of January 1970,
and there is one for every whole number: the years past those a date can be written in are there
too.
-/

set_option autoImplicit false

namespace Velosearch

/-- The units of a calendar interval. -/
inductive CalendarUnit where
  | second
  | minute
  | hour
  | day
  | week
  | weekSunday
  | month
  | quarter
  | year
deriving DecidableEq

namespace CalendarUnit

/-- A unit by its name. -/
def parse (s : String) : Option CalendarUnit :=
  match s with
  | "second" | "1s" => some second
  | "minute" | "1m" => some minute
  | "hour" | "1h" => some hour
  | "day" | "1d" => some day
  | "week" | "1w" => some week
  | "week_sunday" => some weekSunday
  | "month" | "1M" => some month
  | "quarter" | "1q" => some quarter
  | "year" | "1y" => some year
  | _ => none

/-- A day. -/
def dayMs : ℤ := 86400000

/-- Its beginning. -/
def midnight (d : ℤ) : ℤ := d * dayMs

/-- The beginning of the unit an instant is in. -/
def floor (u : CalendarUnit) (t : ℤ) : ℤ :=
  let d := t / dayMs
  let i := Civil.monthOf d
  match u with
  | second => t / 1000 * 1000
  | minute => t / 60000 * 60000
  | hour => t / 3600000 * 3600000
  | day => midnight d
  -- the first of January 1970 was a Thursday
  | week => midnight (d - (d + 3) % 7)
  | weekSunday => midnight (d - (d + 4) % 7)
  | month => midnight (Civil.monthStart i)
  | quarter => midnight (Civil.monthStart (i / 12 * 12 + i % 12 / 3 * 3))
  | year => midnight (Civil.monthStart (i / 12 * 12))

/-- So many months on. -/
def addMonths (t n : ℤ) : ℤ :=
  midnight (Civil.monthStart (Civil.monthOf (t / dayMs) + n))

/-- The step to the next, on a calendar without end. -/
def advance (u : CalendarUnit) (t : ℤ) : ℤ :=
  match u with
  | second => t + 1000
  | minute => t + 60000
  | hour => t + 3600000
  | day => t + dayMs
  | week | weekSunday => t + 7 * dayMs
  | month => addMonths t 1
  | quarter => addMonths t 3
  | year => addMonths t 12

/-- An instant an `OffsetDateTime` holds: one of the years from -9999 to 9999. -/
def Held (t : ℤ) : Prop :=
  -377705116800000 ≤ t ∧ t ≤ 253402300799999

instance instDecidableHeld (t : ℤ) : Decidable (Held t) := inferInstanceAs (Decidable (_ ∧ _))

/-- `advance` of an instant that is held. A first of a month past what a date can hold does not
exist, and the instant stands still. -/
def advanceHeld (u : CalendarUnit) (t : ℤ) : ℤ :=
  match u with
  | month | quarter | year => if Held (u.advance t) then u.advance t else t
  | _ => u.advance t

theorem advanceHeld_cases (u : CalendarUnit) (t : ℤ) :
    u.advanceHeld t = u.advance t ∨ u.advanceHeld t = t := by
  unfold advanceHeld
  split
  case h_4 => exact .inl rfl
  all_goals
    split
    · exact .inl rfl
    · exact .inr rfl

/-! ## The grid of a unit -/

/-- The unit's cells. -/
def grid (u : CalendarUnit) : Grid :=
  match u with
  | second => Grid.even 1000 (by decide)
  | minute => Grid.even 60000 (by decide)
  | hour => Grid.even 3600000 (by decide)
  | day => Grid.even dayMs (by decide)
  | week => ((Grid.even 7 (by decide)).shift (-3)).scale dayMs (by decide)
  | weekSunday => ((Grid.even 7 (by decide)).shift (-4)).scale dayMs (by decide)
  | month => (Civil.months 1 (by decide)).scale dayMs (by decide)
  | quarter => (Civil.months 3 (by decide)).scale dayMs (by decide)
  | year => (Civil.months 12 (by decide)).scale dayMs (by decide)

theorem floor_eq (u : CalendarUnit) (t : ℤ) : u.floor t = u.grid.floor t := by
  cases u with
  | second | minute | hour | day => rfl
  | week =>
    show midnight (t / dayMs - (t / dayMs + 3) % 7) = ((t / dayMs - -3) / 7 * 7 + -3) * dayMs
    rw [midnight, show t / dayMs - (t / dayMs + 3) % 7 = (t / dayMs - -3) / 7 * 7 + -3 by omega]
  | weekSunday =>
    show midnight (t / dayMs - (t / dayMs + 4) % 7) = ((t / dayMs - -4) / 7 * 7 + -4) * dayMs
    rw [midnight, show t / dayMs - (t / dayMs + 4) % 7 = (t / dayMs - -4) / 7 * 7 + -4 by omega]
  | month =>
    show midnight (Civil.monthStart (Civil.monthOf (t / dayMs))) =
      Civil.monthStart (1 * (Civil.monthOf (t / dayMs) / 1)) * dayMs
    rw [midnight, Int.one_mul, Int.ediv_one]
  | quarter =>
    show midnight (Civil.monthStart _) =
      Civil.monthStart (3 * (Civil.monthOf (t / dayMs) / 3)) * dayMs
    rw [midnight]
    congr 2
    omega
  | year =>
    show midnight (Civil.monthStart _) =
      Civil.monthStart (12 * (Civil.monthOf (t / dayMs) / 12)) * dayMs
    rw [midnight]
    congr 2
    omega

theorem addMonths_eq {n : ℕ} {hn : 0 < n} {b : ℤ}
    (hb : ((Civil.months n hn).scale dayMs (by decide)).Starts b) :
    addMonths b n = ((Civil.months n hn).scale dayMs (by decide)).next b := by
  have hd : Civil.monthStart (n * (Civil.monthOf (b / dayMs) / n)) * dayMs = b := hb
  generalize Civil.monthOf (b / dayMs) / n = q at hd
  have hday : b / dayMs = Civil.monthStart (n * q) := by
    rw [← hd, Int.mul_ediv_cancel _ (by decide)]
  have hmonth : Civil.monthOf (b / dayMs) = n * q := by
    rw [hday]
    exact Grid.index_start Civil.monthStart_lt (fun d => (Civil.monthOf_spec d).1)
      (fun d => (Civil.monthOf_spec d).2) (n * q)
  show midnight (Civil.monthStart (Civil.monthOf (b / dayMs) + n)) =
    Civil.monthStart (n * (Civil.monthOf (b / dayMs) / n + 1)) * dayMs
  rw [hmonth, midnight, Int.mul_ediv_cancel_left _ (by omega), Int.mul_add, Int.mul_one]

theorem advance_eq (u : CalendarUnit) {b : ℤ} (hb : u.grid.Starts b) :
    u.advance b = u.grid.next b := by
  have weeks : ∀ {k : ℤ}, (((Grid.even 7 (by decide)).shift k).scale dayMs (by decide)).Starts b →
      b + 7 * dayMs = (((Grid.even 7 (by decide)).shift k).scale dayMs (by decide)).next b := by
    intro k hk
    have hd : ((b / dayMs - k) / 7 * 7 + k) * dayMs = b := hk
    show b + 7 * dayMs = (b / dayMs - k + 7 + k) * dayMs
    unfold dayMs at *
    omega
  cases u with
  | second | minute | hour | day => rfl
  | week | weekSunday => exact weeks hb
  | month => exact addMonths_eq (n := 1) hb
  | quarter => exact addMonths_eq (n := 3) hb
  | year => exact addMonths_eq (n := 12) hb

end CalendarUnit

end Velosearch

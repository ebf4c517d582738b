import Velosearch.Lib.Civil

/-!
# Moments of the civil calendar

A date of the years from −9999 to 9999, a time of day to the nanosecond, and the two together as a
moment in UTC. What a program builds of fields it has read is refused where a field is out of
range, and what it reckons is refused where it leaves the years there are.
-/

set_option autoImplicit false

namespace Velosearch

/-! ## Dates -/

namespace Date

/-- The first day there is. -/
def minNumber : ℤ := Civil.monthStart (12 * -9999)

/-- The day behind the last. -/
def endNumber : ℤ := Civil.monthStart (12 * 10000)

end Date

/-- A day of the calendar. -/
structure Date where
  number : ℤ
  within : Date.minNumber ≤ number ∧ number < Date.endNumber
deriving DecidableEq

namespace Date

/-- Its month, counted from year 0. -/
def monthIndex (d : Date) : ℤ := Civil.monthOf d.number

/-- Its year. -/
def year (d : Date) : ℤ := d.monthIndex / 12

/-- Its month. -/
def month (d : Date) : ℤ := d.monthIndex % 12 + 1

/-- Its day. -/
def day (d : Date) : ℤ := d.number - Civil.monthStart d.monthIndex + 1

/-- Its day of the week. -/
def numberDaysFromMonday (d : Date) : ℤ := (d.number + 3) % 7

/-- The day of a number, where there is one. -/
def ofNumber (n : ℤ) : Option Date :=
  if h : minNumber ≤ n ∧ n < endNumber then some ⟨n, h⟩ else none

/-- The fields of a day there is. -/
def InCalendar (year month day : ℤ) : Prop :=
  (-9999 ≤ year ∧ year ≤ 9999) ∧ (1 ≤ month ∧ month ≤ 12) ∧
    1 ≤ day ∧ day ≤ Civil.monthDays year (month - 1)

instance (year month day : ℤ) : Decidable (InCalendar year month day) :=
  inferInstanceAs (Decidable (_ ∧ _))

theorem monthStart_le {i j : ℤ} (h : i ≤ j) : Civil.monthStart i ≤ Civil.monthStart j :=
  Grid.start_le Civil.monthStart_lt h

theorem monthOf_eq {i n : ℤ} (h1 : Civil.monthStart i ≤ n) (h2 : n < Civil.monthStart (i + 1)) :
    Civil.monthOf n = i :=
  Grid.index_eq Civil.monthStart_lt (fun d => (Civil.monthOf_spec d).1)
    (fun d => (Civil.monthOf_spec d).2) h1 h2

theorem number_in_month {y m d : ℤ} (h : InCalendar y m d) :
    Civil.monthStart (12 * y + (m - 1)) ≤ Civil.monthStart (12 * y + (m - 1)) + (d - 1) ∧
      Civil.monthStart (12 * y + (m - 1)) + (d - 1) <
        Civil.monthStart (12 * y + (m - 1) + 1) := by
  obtain ⟨_, hm, hd⟩ := h
  have hsucc := Civil.monthStart_succ (12 * y + (m - 1))
  have hyear : (12 * y + (m - 1)) / 12 = y := by omega
  have hmonth : (12 * y + (m - 1)) % 12 = m - 1 := by omega
  rw [hyear, hmonth] at hsucc
  omega

theorem number_within {y m d : ℤ} (h : InCalendar y m d) :
    minNumber ≤ Civil.monthStart (12 * y + (m - 1)) + (d - 1) ∧
      Civil.monthStart (12 * y + (m - 1)) + (d - 1) < endNumber := by
  obtain ⟨h1, h2⟩ := number_in_month h
  obtain ⟨hy, hm, _⟩ := h
  have hfirst : minNumber ≤ Civil.monthStart (12 * y + (m - 1)) :=
    monthStart_le (by omega)
  have hlast : Civil.monthStart (12 * y + (m - 1) + 1) ≤ endNumber :=
    monthStart_le (by omega)
  omega

/-- The day of those fields. -/
def fromCalendarDate (year month day : ℤ) : Option Date :=
  if h : InCalendar year month day then some ⟨_, number_within h⟩ else none

theorem fromCalendarDate_isSome {y m d : ℤ} :
    (fromCalendarDate y m d).isSome ↔ InCalendar y m d := by
  unfold fromCalendarDate
  split <;> simp_all

/-- A day has the fields it was made from. -/
theorem fields_of_fromCalendarDate {y m d : ℤ} {date : Date}
    (h : fromCalendarDate y m d = some date) :
    date.year = y ∧ date.month = m ∧ date.day = d := by
  unfold fromCalendarDate at h
  split at h
  case isTrue hin =>
    obtain rfl := Option.some.inj h
    obtain ⟨h1, h2⟩ := number_in_month hin
    have hindex : monthIndex ⟨_, number_within hin⟩ = 12 * y + (m - 1) := monthOf_eq h1 h2
    unfold year month day
    rw [hindex]
    obtain ⟨_, hm, _⟩ := hin
    refine ⟨by omega, by omega, ?_⟩
    show Civil.monthStart (12 * y + (m - 1)) + (d - 1) - _ + 1 = d
    omega
  case isFalse => cases h

/-- Every day has fields. -/
theorem inCalendar (d : Date) : InCalendar d.year d.month d.day := by
  obtain ⟨h1, h2⟩ := Civil.monthOf_spec d.number
  have hsucc := Civil.monthStart_succ d.monthIndex
  have hlow : 12 * -9999 ≤ d.monthIndex := by
    apply Int.not_lt.mp
    intro hlt
    have hle : Civil.monthStart (d.monthIndex + 1) ≤ minNumber := monthStart_le (by omega)
    have := d.within.1
    have : d.number < Civil.monthStart (d.monthIndex + 1) := h2
    omega
  have hhigh : d.monthIndex < 12 * 10000 := by
    apply Int.not_le.mp
    intro hge
    have hle : endNumber ≤ Civil.monthStart d.monthIndex := monthStart_le hge
    have := d.within.2
    have : Civil.monthStart d.monthIndex ≤ d.number := h1
    omega
  have hstart : Civil.monthStart d.monthIndex ≤ d.number := h1
  have hend : d.number < Civil.monthStart (d.monthIndex + 1) := h2
  have hm : d.month - 1 = d.monthIndex % 12 := by
    unfold month
    omega
  refine ⟨?_, ?_, ?_⟩
  · unfold year
    omega
  · unfold month
    omega
  · rw [hm]
    unfold day year
    omega

end Date

/-! ## Times of day -/

/-- A time of day. -/
structure Time where
  hour : ℕ
  minute : ℕ
  second : ℕ
  nanosecond : ℕ
  valid : hour < 24 ∧ minute < 60 ∧ second < 60 ∧ nanosecond < 1000000000
deriving DecidableEq

namespace Time

/-- The first. -/
def midnight : Time := ⟨0, 0, 0, 0, by decide⟩

/-- A time from its fields, where it is one. -/
def fromHmsNano (hour minute second nanosecond : ℕ) : Option Time :=
  if h : hour < 24 ∧ minute < 60 ∧ second < 60 ∧ nanosecond < 1000000000 then
    some ⟨hour, minute, second, nanosecond, h⟩
  else none

theorem fields_of_fromHmsNano {h m s n : ℕ} {t : Time} (eq : fromHmsNano h m s n = some t) :
    t.hour = h ∧ t.minute = m ∧ t.second = s ∧ t.nanosecond = n := by
  unfold fromHmsNano at eq
  split at eq
  case isTrue =>
    obtain rfl := Option.some.inj eq
    exact ⟨rfl, rfl, rfl, rfl⟩
  case isFalse => cases eq

/-- The seconds of it. -/
def seconds (t : Time) : ℤ := 3600 * t.hour + 60 * t.minute + t.second

/-- The time of so many. -/
def ofSeconds (s : ℤ) (h : 0 ≤ s ∧ s < 86400) (nanosecond : ℕ) (hn : nanosecond < 1000000000) :
    Time where
  hour := (s / 3600).toNat
  minute := (s % 3600 / 60).toNat
  second := (s % 60).toNat
  nanosecond := nanosecond
  valid := by omega

end Time

/-! ## Moments -/

/-- An instant. -/
structure OffsetDateTime where
  date : Date
  time : Time
deriving DecidableEq

namespace OffsetDateTime

/-- The seconds of an instant. -/
def seconds (dt : OffsetDateTime) : ℤ := 86400 * dt.date.number + dt.time.seconds

/-- `checked_add` of whole seconds. -/
def checkedAdd (dt : OffsetDateTime) (n : ℤ) : Option OffsetDateTime :=
  (Date.ofNumber ((dt.seconds + n) / 86400)).map fun date =>
    ⟨date, Time.ofSeconds ((dt.seconds + n) % 86400) (by omega) dt.time.nanosecond dt.time.valid.2.2.2⟩

/-- Seconds can be added as long as a day comes of it. -/
theorem checkedAdd_isSome {dt : OffsetDateTime} {n : ℤ} :
    (dt.checkedAdd n).isSome ↔
      86400 * Date.minNumber ≤ dt.seconds + n ∧ dt.seconds + n < 86400 * Date.endNumber := by
  unfold checkedAdd Date.ofNumber
  rw [Option.isSome_map]
  split
  case isTrue h =>
    simp only [Option.isSome_some, true_iff]
    omega
  case isFalse h =>
    simp only [Option.isSome_none, Bool.false_eq_true, false_iff]
    omega

theorem seconds_within (dt : OffsetDateTime) :
    86400 * Date.minNumber ≤ dt.seconds ∧ dt.seconds < 86400 * Date.endNumber := by
  have hdate := dt.date.within
  have htime := dt.time.valid
  unfold seconds Time.seconds
  omega

theorem ofSeconds_self (t : Time) (h : 0 ≤ t.seconds ∧ t.seconds < 86400) :
    Time.ofSeconds t.seconds h t.nanosecond t.valid.2.2.2 = t := by
  have hs : t.seconds = 3600 * t.hour + 60 * t.minute + t.second := rfl
  have hvalid := t.valid
  generalize t.seconds = s at h hs ⊢
  cases t
  simp only [Time.ofSeconds, Time.mk.injEq, and_true] at hs hvalid ⊢
  omega

theorem checkedAdd_zero (dt : OffsetDateTime) : dt.checkedAdd 0 = some dt := by
  have hvalid := dt.time.valid
  have hday : (dt.seconds + 0) / 86400 = dt.date.number := by
    unfold seconds Time.seconds
    omega
  have htime : (dt.seconds + 0) % 86400 = dt.time.seconds := by
    unfold seconds Time.seconds
    omega
  unfold checkedAdd Date.ofNumber
  simp only [hday, htime, dt.date.within, and_self, dif_pos, Option.map_some, ofSeconds_self]

end OffsetDateTime

end Velosearch

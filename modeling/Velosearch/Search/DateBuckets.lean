import Mathlib.Data.Int.Init
import Velosearch.Search.Dates

/-!
# The grid of a composite source

The composite source takes one offset of its zone for all time, and where it counts by a fixed
length it slides by the offset that was asked for: what it cuts the line of instants into is the
grid of its interval, moved.
-/

set_option autoImplicit false

namespace Velosearch

/-! ## Even grids -/

theorem even_floor_congr {s a b : ℤ} (x : ℤ) (h : s ∣ a - b) :
    (x - a) / s * s + a = (x - b) / s * s + b := by
  obtain ⟨k, hk⟩ := h
  by_cases hs : s = 0
  · rw [hs, Int.zero_mul] at hk
    rw [hs, Int.mul_zero, Int.mul_zero]
    omega
  · have ha : x - a = x - b + -k * s := by
      rw [Int.neg_mul, Int.mul_comm k s]
      omega
    rw [ha, Int.add_mul_ediv_right _ _ hs, Int.add_mul, Int.neg_mul, Int.mul_comm k s]
    omega

theorem even_floor_emod (s a x : ℤ) : (x - a % s) / s * s + a % s = (x - a) / s * s + a := by
  apply even_floor_congr
  have h := Int.emod_add_mul_ediv a s
  exact ⟨-(a / s), by rw [Int.mul_neg]; omega⟩

/-! ## Zones -/

theorem Zone.offsetAt_mem (z : Zone) (t : ℤ) :
    z.offsetAt t ∈ z.initial :: z.transitions.map Prod.snd := by
  unfold Zone.offsetAt
  split
  · exact List.mem_cons_self
  · rename_i x hx
    have hmem := List.mem_of_getLast? hx
    exact List.mem_cons_of_mem _
      (List.mem_map.mpr ⟨x, (List.takeWhile_sublist _).subset hmem, rfl⟩)

/-- A week. -/
def weekMs : ℤ := 604800000

namespace DateSpec

variable (q : DateSpec)

theorem zoneAt_cases :
    (∀ t, q.zoneAt t = q.zoneAt 0) ∨ ∀ t, -93600000 < q.zoneAt t ∧ q.zoneAt t < 93600000 := by
  unfold zoneAt
  cases q.zone with
  | none =>
    left
    intro t
    rfl
  | some z =>
    by_cases hz : z.transitions = []
    · left
      intro t
      have all : ∀ t, z.offsetAt t = z.initial := by
        intro t
        have hmem := z.offsetAt_mem t
        rw [hz] at hmem
        simpa using hmem
      show z.offsetAt _ * 1000 = z.offsetAt _ * 1000
      rw [all, all]
    · right
      intro t
      have hb := z.within hz _ (z.offsetAt_mem (t / 1000))
      show -93600000 < z.offsetAt (t / 1000) * 1000 ∧ z.offsetAt (t / 1000) * 1000 < 93600000
      omega

theorem zoneAt_near (s t : ℤ) : q.zoneAt s < q.zoneAt t + weekMs := by
  unfold weekMs
  cases q.zoneAt_cases with
  | inl h =>
    have hs := h s
    have ht := h t
    omega
  | inr h =>
    have hs := h s
    have ht := h t
    omega

end DateSpec

/-! ## The widths of the units -/

namespace CalendarUnit

theorem weeks_wide (k : ℤ) :
    (((Grid.even 7 (by decide)).shift k).scale dayMs (by decide)).Wide weekMs := by
  intro b hb
  have hd : ((b / dayMs - k) / 7 * 7 + k) * dayMs = b := hb
  show b + weekMs ≤ (b / dayMs - k + 7 + k) * dayMs
  unfold dayMs weekMs at *
  omega

theorem months_wide (n : ℕ) (hn : 0 < n) :
    ((Civil.months n hn).scale dayMs (by decide)).Wide (28 * n * dayMs) := by
  intro b hb
  rw [← addMonths_eq hb]
  have hd : Civil.monthStart (n * (Civil.monthOf (b / dayMs) / n)) * dayMs = b := hb
  generalize Civil.monthOf (b / dayMs) / n = i at hd
  have hday : b / dayMs = Civil.monthStart (n * i) := by
    rw [← hd, Int.mul_ediv_cancel _ (by decide)]
  have hmonth : Civil.monthOf (b / dayMs) = n * i := by
    rw [hday]
    exact Grid.index_start Civil.monthStart_lt (fun d => (Civil.monthOf_spec d).1)
      (fun d => (Civil.monthOf_spec d).2) (n * i)
  have hadd := Civil.monthStart_add (n * i) n
  unfold addMonths midnight
  rw [hmonth, ← hd]
  unfold dayMs
  omega

end CalendarUnit

theorem not_lengths : ∀ name ∈ ["second", "minute", "hour", "day", "week", "1w", "week_sunday",
    "month", "1M", "quarter", "1q", "year", "1y"],
    (parseOffset name.toList).filter (0 < ·) = none := by
  decide

theorem lengths : ∀ x ∈ [("1s", 1000), ("1m", 60000), ("1h", 3600000), ("1d", 86400000)],
    (parseOffset x.1.toList).filter (0 < ·) = some x.2 := by
  decide

theorem fixedLen_even {name : String} {u : CalendarUnit} (h : CalendarUnit.parse name = some u)
    {step : ℤ} (hstep : (parseOffset name.toList).filter (0 < ·) = some step) :
    0 < step ∧ (∀ t, u.floor t = t / step * step) ∧ ∀ t, u.advance t = t + step := by
  have of : ∀ x ∈ [("1s", (1000 : ℤ)), ("1m", 60000), ("1h", 3600000), ("1d", 86400000)],
      name = x.1 → step = x.2 := by
    intro x hx hname
    rw [hname, lengths x hx] at hstep
    exact (Option.some.inj hstep).symm
  have other : ∀ n ∈ ["second", "minute", "hour", "day", "week", "1w", "week_sunday", "month",
      "1M", "quarter", "1q", "year", "1y"], name ≠ n := by
    intro n hn hname
    rw [hname, not_lengths n hn] at hstep
    cases hstep
  unfold CalendarUnit.parse at h
  split at h
  all_goals cases h
  all_goals try exact absurd rfl (other _ (by decide))
  · rw [of ("1s", 1000) (by simp) rfl]
    exact ⟨by decide, fun _ => rfl, fun _ => rfl⟩
  · rw [of ("1m", 60000) (by simp) rfl]
    exact ⟨by decide, fun _ => rfl, fun _ => rfl⟩
  · rw [of ("1h", 3600000) (by simp) rfl]
    exact ⟨by decide, fun _ => rfl, fun _ => rfl⟩
  · rw [of ("1d", 86400000) (by simp) rfl]
    exact ⟨by decide, fun _ => rfl, fun _ => rfl⟩

/-! ## The grid of a composite source -/

namespace DateSpec

variable (q : DateSpec)

/-- The cells of the interval. -/
def unitGrid : Grid :=
  match q.interval with
  | .fixed step pos => Grid.even step pos
  | .calendar _ u _ => u.grid

/-- How far they are moved. -/
def slide : ℤ := if q.fixedLen.isSome then q.offset else 0

/-- The cells, as the request has them. -/
def grid : Grid := q.unitGrid.shift (q.slide - q.zoneAt 0)

theorem composite_fixed {step : ℤ} (hlen : q.fixedLen = some step)
    (hfloor : ∀ t, q.unitGrid.floor t = t / step * step) :
    (∀ lo, q.compositeFirst lo = q.grid.floor lo) ∧ ∀ c, q.compositeNext c = c + step := by
  constructor
  · intro lo
    show _ = q.unitGrid.floor (lo - (q.slide - q.zoneAt 0)) + (q.slide - q.zoneAt 0)
    unfold compositeFirst slide
    rw [hlen, hfloor]
    exact even_floor_emod step (q.offset - q.zoneAt 0) lo
  · intro c
    unfold compositeNext
    rw [hlen]

theorem composite_grid :
    (∀ lo, q.compositeFirst lo = q.grid.floor lo) ∧
      ∀ b, q.grid.Starts b → q.compositeNext b = q.grid.next b := by
  cases hi : q.interval with
  | fixed step pos =>
    have hlen : q.fixedLen = some step := by
      unfold fixedLen
      rw [hi]
    have hunit : q.unitGrid = Grid.even step pos := by
      unfold unitGrid
      rw [hi]
    obtain ⟨hfirst, hnext⟩ := q.composite_fixed hlen (fun t => by rw [hunit]; rfl)
    refine ⟨hfirst, fun b _ => ?_⟩
    rw [hnext]
    show b + step = q.unitGrid.next (b - (q.slide - q.zoneAt 0)) + (q.slide - q.zoneAt 0)
    rw [hunit]
    show b + step = b - (q.slide - q.zoneAt 0) + step + (q.slide - q.zoneAt 0)
    omega
  | calendar name u named =>
    have hunit : q.unitGrid = u.grid := by
      unfold unitGrid
      rw [hi]
    cases hlen : q.fixedLen with
    | some step =>
      have hname : (parseOffset name.toList).filter (0 < ·) = some step := by
        rw [← hlen]
        unfold fixedLen
        rw [hi]
      obtain ⟨-, hfloor, hadvance⟩ := fixedLen_even named hname
      obtain ⟨hfirst, hnext⟩ := q.composite_fixed hlen
        (fun t => by rw [hunit, ← u.floor_eq]; exact hfloor t)
      refine ⟨hfirst, fun b hb => ?_⟩
      have hb' : u.grid.Starts (b - (q.slide - q.zoneAt 0)) := by
        have hb : q.unitGrid.floor (b - (q.slide - q.zoneAt 0)) + (q.slide - q.zoneAt 0) = b := hb
        rw [hunit] at hb
        show u.grid.floor (b - (q.slide - q.zoneAt 0)) = b - (q.slide - q.zoneAt 0)
        omega
      show _ = q.unitGrid.next (b - (q.slide - q.zoneAt 0)) + (q.slide - q.zoneAt 0)
      rw [hnext, hunit, ← u.advance_eq hb', hadvance]
      omega
    | none =>
      have hslide : q.slide = 0 := by
        unfold slide
        rw [hlen]
        rfl
      constructor
      · intro lo
        show _ = q.unitGrid.floor (lo - (q.slide - q.zoneAt 0)) + (q.slide - q.zoneAt 0)
        unfold compositeFirst
        rw [hlen, hi, hunit, hslide, ← u.floor_eq]
        show u.floor (lo + q.zoneAt 0) - q.zoneAt 0 = _
        rw [show lo - (0 - q.zoneAt 0) = lo + q.zoneAt 0 by omega]
        omega
      · intro b hb
        have hb' : u.grid.Starts (b + q.zoneAt 0) := by
          have hb : q.unitGrid.floor (b - (q.slide - q.zoneAt 0)) + (q.slide - q.zoneAt 0) = b := hb
          rw [hunit, hslide, show b - (0 - q.zoneAt 0) = b + q.zoneAt 0 by omega] at hb
          show u.grid.floor (b + q.zoneAt 0) = b + q.zoneAt 0
          omega
        show _ = q.unitGrid.next (b - (q.slide - q.zoneAt 0)) + (q.slide - q.zoneAt 0)
        unfold compositeNext
        rw [hlen, hi, hunit, hslide, show b - (0 - q.zoneAt 0) = b + q.zoneAt 0 by omega,
          ← u.advance_eq hb']
        show u.advance (b + q.zoneAt 0) - q.zoneAt 0 = _
        omega

end DateSpec

end Velosearch

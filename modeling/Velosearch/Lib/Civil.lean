import Velosearch.Lib.Grid

/-!
# The civil calendar

Days are counted from the first of January 1970 and months from the January of the year zero, in
the Gregorian calendar carried back before its time. Years are reckoned from March while counting,
so that the day a leap year has more is the last of them.
-/

set_option autoImplicit false

namespace Velosearch.Civil

/-- The first of March of a year, in days. -/
def marchStart (y : ℤ) : ℤ := 365 * y + y / 4 - y / 100 + y / 400

/-- The first day of a month, counted from year 0. -/
def monthStart (i : ℤ) : ℤ :=
  marchStart ((i - 2) / 12) + (153 * ((i - 2) % 12) + 2) / 5 - 719468

/-- The year from March to February a day lies in, counted from the first of March of the year
zero: the mean year gives it but for one. -/
def marchYear (z : ℤ) : ℤ :=
  if z < marchStart (400 * z / 146097) then 400 * z / 146097 - 1
  else if marchStart (400 * z / 146097 + 1) ≤ z then 400 * z / 146097 + 1
  else 400 * z / 146097

/-- The month a day is in. -/
def monthOf (d : ℤ) : ℤ :=
  let y := marchYear (d + 719468)
  12 * y + (5 * (d + 719468 - marchStart y) + 2) / 153 + 2

/-- A leap year. -/
def Leap (y : ℤ) : Prop := y % 4 = 0 ∧ (y % 100 ≠ 0 ∨ y % 400 = 0)

instance (y : ℤ) : Decidable (Leap y) := inferInstanceAs (Decidable (_ ∧ _))

/-- How long a month is. -/
def monthDays (y m : ℤ) : ℤ :=
  if m = 1 then if Leap y then 29 else 28
  else if m = 3 ∨ m = 5 ∨ m = 8 ∨ m = 10 then 30
  else 31

theorem marchStart_succ (y : ℤ) :
    marchStart (y + 1) = marchStart y + if Leap (y + 1) then 366 else 365 := by
  unfold marchStart
  by_cases h : Leap (y + 1)
  · rw [if_pos h]
    unfold Leap at h
    omega
  · rw [if_neg h]
    unfold Leap at h
    omega

theorem month_offset_succ {m : ℤ} (h0 : 0 ≤ m) (h11 : m < 11) :
    (153 * (m + 1) + 2) / 5 =
      (153 * m + 2) / 5 + if m = 1 ∨ m = 3 ∨ m = 6 ∨ m = 8 then 30 else 31 := by
  obtain ⟨n, rfl⟩ : ∃ n : ℕ, m = n := ⟨m.toNat, by omega⟩
  have hn : n < 11 := by omega
  clear h0 h11
  revert n
  decide

/-- Each month begins where the one before ends. -/
theorem monthStart_succ (i : ℤ) :
    monthStart (i + 1) = monthStart i + monthDays (i / 12) (i % 12) := by
  have hsucc := marchStart_succ ((i - 2) / 12)
  unfold monthStart
  by_cases hfeb : i % 12 = 1
  · -- the year reckoned from March ends here
    have h1 : (i + 1 - 2) / 12 = (i - 2) / 12 + 1 := by omega
    have h2 : (i - 2) / 12 + 1 = i / 12 := by omega
    have h3 : (i + 1 - 2) % 12 = 0 := by omega
    have h4 : (i - 2) % 12 = 11 := by omega
    rw [h1, hsucc, h2, h3, h4, monthDays, if_pos hfeb]
    by_cases hleap : Leap (i / 12)
    · rw [if_pos hleap, if_pos hleap]
      omega
    · rw [if_neg hleap, if_neg hleap]
      omega
  · have h1 : (i + 1 - 2) / 12 = (i - 2) / 12 := by omega
    have h2 : (i + 1 - 2) % 12 = (i - 2) % 12 + 1 := by omega
    rw [h1, h2, monthDays, if_neg hfeb, month_offset_succ (by omega) (by omega)]
    by_cases hshort : i % 12 = 3 ∨ i % 12 = 5 ∨ i % 12 = 8 ∨ i % 12 = 10
    · rw [if_pos (by omega), if_pos hshort]
      omega
    · rw [if_neg (by omega), if_neg hshort]
      omega

theorem monthDays_bounds (y m : ℤ) : 28 ≤ monthDays y m ∧ monthDays y m ≤ 31 := by
  unfold monthDays
  by_cases hfeb : m = 1
  · rw [if_pos hfeb]
    by_cases hleap : Leap y
    · rw [if_pos hleap]
      decide
    · rw [if_neg hleap]
      decide
  · rw [if_neg hfeb]
    by_cases hshort : m = 3 ∨ m = 5 ∨ m = 8 ∨ m = 10
    · rw [if_pos hshort]
      decide
    · rw [if_neg hshort]
      decide

theorem marchStart_bounds (y : ℤ) :
    146097 * y - 700 ≤ 400 * marchStart y ∧ 400 * marchStart y ≤ 146097 * y + 400 := by
  unfold marchStart
  omega

/-- A day is in its year. -/
theorem marchYear_spec (z : ℤ) :
    marchStart (marchYear z) ≤ z ∧ z < marchStart (marchYear z + 1) := by
  unfold marchYear
  generalize hy : 400 * z / 146097 = y
  have hbefore := marchStart_bounds (y - 1)
  have hafter := marchStart_bounds (y + 1 + 1)
  by_cases h1 : z < marchStart y
  · rw [if_pos h1, Int.sub_add_cancel]
    omega
  · rw [if_neg h1]
    by_cases h2 : marchStart (y + 1) ≤ z
    · rw [if_pos h2]
      omega
    · rw [if_neg h2]
      omega

/-- A day is in its month. -/
theorem monthOf_spec (d : ℤ) : monthStart (monthOf d) ≤ d ∧ d < monthStart (monthOf d + 1) := by
  obtain ⟨h1, h2⟩ := marchYear_spec (d + 719468)
  have hlen : marchStart (marchYear (d + 719468) + 1) ≤ marchStart (marchYear (d + 719468)) + 366 := by
    rw [marchStart_succ]
    split <;> omega
  have hm : monthOf d = 12 * marchYear (d + 719468) +
      (5 * (d + 719468 - marchStart (marchYear (d + 719468))) + 2) / 153 + 2 := rfl
  generalize marchYear (d + 719468) = y at h1 h2 hlen hm
  generalize hr : d + 719468 - marchStart y = r at hm
  have hstart : monthStart (monthOf d) =
      marchStart y + (153 * ((5 * r + 2) / 153) + 2) / 5 - 719468 := by
    unfold monthStart
    have hdiv : (monthOf d - 2) / 12 = y := by omega
    have hmod : (monthOf d - 2) % 12 = (5 * r + 2) / 153 := by omega
    rw [hdiv, hmod]
  refine ⟨by rw [hstart]; omega, ?_⟩
  by_cases hlast : (5 * r + 2) / 153 = 11
  · have hdiv : (monthOf d + 1 - 2) / 12 = y + 1 := by omega
    have hmod : (monthOf d + 1 - 2) % 12 = 0 := by omega
    unfold monthStart
    rw [hdiv, hmod]
    omega
  · have hdiv : (monthOf d + 1 - 2) / 12 = y := by omega
    have hmod : (monthOf d + 1 - 2) % 12 = (5 * r + 2) / 153 + 1 := by omega
    unfold monthStart
    rw [hdiv, hmod]
    omega

example : monthStart (12 * 1970) = 0 := by decide

/-- Months begin one after the other. -/
theorem monthStart_lt (i : ℤ) : monthStart i < monthStart (i + 1) := by
  have hsucc := monthStart_succ i
  have hbounds := monthDays_bounds (i / 12) (i % 12)
  omega

theorem monthStart_add (i : ℤ) (n : ℕ) :
    monthStart i + 28 * n ≤ monthStart (i + n) ∧ monthStart (i + n) ≤ monthStart i + 31 * n := by
  induction n with
  | zero => simp
  | succ n ih =>
    have hsucc := monthStart_succ (i + n)
    have hbounds := monthDays_bounds ((i + n) / 12) ((i + n) % 12)
    have hcast : i + ((n + 1 : ℕ) : ℤ) = i + n + 1 := by omega
    rw [hcast]
    omega

/-- The days in runs of `n` months, counted from the January of the year zero. -/
def months (n : ℕ) (hn : 0 < n) : Grid :=
  Grid.ofStarts (fun q => monthStart (n * q)) (fun d => monthOf d / n)
    (by
      intro q
      show monthStart (n * q) < monthStart (n * (q + 1))
      have h := (monthStart_add (n * q) n).1
      rw [Int.mul_add, Int.mul_one]
      omega)
    (by
      intro d
      have hle : n * (monthOf d / n) ≤ monthOf d := Int.mul_ediv_self_le (by omega)
      exact Int.le_trans (Grid.start_le monthStart_lt hle) (monthOf_spec d).1)
    (by
      intro d
      have hlt : monthOf d < n * (monthOf d / n + 1) := by
        have := Int.lt_ediv_add_one_mul_self (monthOf d) (b := n) (by omega)
        rwa [Int.mul_comm]
      exact Int.lt_of_lt_of_le (monthOf_spec d).2 (Grid.start_le monthStart_lt hlt))

end Velosearch.Civil

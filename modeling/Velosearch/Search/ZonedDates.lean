import Velosearch.Lib.Cells
import Velosearch.Search.DateBuckets
import Velosearch.Search.Values

/-!
# Every date in a bucket of a zoned histogram

`run_calendar_histogram` of `src/search/aggs/histogram.rs` walks from the boundary its first date is
floored to, up to the boundary its last one is. Both are floored with the offset at the date, and
the boundaries between are placed with the offset at the boundary. Where the clock is put forward
over a whole bucket the walk stands still or turns back; where the two offsets part at the end, the
last dates lie past it.

Dates are milliseconds. The first and the last reach the walk as doubles that count nanoseconds.
-/

set_option autoImplicit false

namespace Velosearch

/-! ## What a change of the clock keeps -/

namespace CalendarUnit

/-- How long a unit is. -/
def length : CalendarUnit → Option ℤ
  | second => some 1000
  | minute => some 60000
  | hour => some 3600000
  | day => some dayMs
  | week | weekSunday | month | quarter | year => none

/-- A change of the clock that leaves the boundaries of a unit where boundaries are: a whole number
of units, and none at all for a week and what is longer. -/
def Keeps (u : CalendarUnit) (d : ℤ) : Prop :=
  match u.length with
  | some step => step ∣ d
  | none => d = 0

theorem keeps_long {u : CalendarUnit} {w b d : ℤ} (long : u.length = none) (wide : u.grid.Wide w)
    (week : weekMs ≤ w) (hb : u.grid.Starts b) (low : -weekMs < d) (high : d < weekMs) :
    u.grid.Starts (b + d) ↔ u.Keeps d := by
  unfold Keeps
  rw [long]
  constructor
  · intro starts
    have same : b + d = b := wide.eq starts hb (by omega) (by omega)
    omega
  · intro none
    rw [show d = 0 from none, Int.add_zero]
    exact hb

theorem starts_add_iff {u : CalendarUnit} {b d : ℤ} (hb : u.grid.Starts b) (low : -weekMs < d)
    (high : d < weekMs) : u.grid.Starts (b + d) ↔ u.Keeps d := by
  cases u with
  | second =>
    have hb : b / 1000 * 1000 = b := hb
    show (b + d) / 1000 * 1000 = b + d ↔ 1000 ∣ d
    omega
  | minute =>
    have hb : b / 60000 * 60000 = b := hb
    show (b + d) / 60000 * 60000 = b + d ↔ 60000 ∣ d
    omega
  | hour =>
    have hb : b / 3600000 * 3600000 = b := hb
    show (b + d) / 3600000 * 3600000 = b + d ↔ 3600000 ∣ d
    omega
  | day =>
    have hb : b / 86400000 * 86400000 = b := hb
    show (b + d) / 86400000 * 86400000 = b + d ↔ 86400000 ∣ d
    omega
  | week => exact keeps_long rfl (weeks_wide (-3)) (Int.le_refl _) hb low high
  | weekSunday => exact keeps_long rfl (weeks_wide (-4)) (Int.le_refl _) hb low high
  | month => exact keeps_long rfl (months_wide 1 (by decide)) (by decide) hb low high
  | quarter => exact keeps_long rfl (months_wide 3 (by decide)) (by decide) hb low high
  | year => exact keeps_long rfl (months_wide 12 (by decide)) (by decide) hb low high

end CalendarUnit

/-! ## The dates of a request -/

/-- The instant of so many milliseconds, where there is one. -/
def toDt (ms : ℤ) : Option ℤ :=
  let ns := Search.F64.roundInt (ms * 1000000)
  if -377705116800000000000 ≤ ns ∧ ns ≤ 253402300799999999999 then some (ns / 1000000) else none

namespace Search.F64

theorem roundNat_near {n : ℕ} (few : Nat.log2 n - 52 ≤ 18) :
    n ≤ roundNat n + 262144 ∧ roundNat n ≤ n + 262144 := by
  have small : 2 ^ (Nat.log2 n - 52) ≤ 262144 := Nat.pow_le_pow_right (by decide) few
  have parts := Nat.div_add_mod' n (2 ^ (Nat.log2 n - 52))
  have rest := Nat.mod_lt n (Nat.two_pow_pos (Nat.log2 n - 52))
  have even : n / 2 ^ (Nat.log2 n - 52) % 2 = 0 ∨ n / 2 ^ (Nat.log2 n - 52) % 2 = 1 := by omega
  unfold roundNat
  simp only
  generalize 2 ^ (Nat.log2 n - 52) = p at *
  split
  · omega
  · split
    · rw [Nat.add_mul]
      omega
    · cases even with
      | inl even =>
        simp only [even, Nat.add_zero]
        omega
      | inr odd =>
        rw [odd, Nat.add_mul]
        omega

theorem roundNat_long {n : ℕ} (many : 18 < Nat.log2 n - 52) : 2 ^ 71 ≤ roundNat n := by
  have long : 2 ^ Nat.log2 n ≤ n := Nat.log2_self_le (by
    intro zero
    rw [zero] at many
    exact absurd many (by decide))
  have whole : 2 ^ 52 ≤ n / 2 ^ (Nat.log2 n - 52) := by
    rw [Nat.le_div_iff_mul_le (Nat.two_pow_pos _), ← Nat.pow_add]
    rwa [show 52 + (Nat.log2 n - 52) = Nat.log2 n by omega]
  have wide : 2 ^ 19 ≤ 2 ^ (Nat.log2 n - 52) := Nat.pow_le_pow_right (by decide) many
  have up : ∀ k, 2 ^ 52 ≤ k → 2 ^ 71 ≤ k * 2 ^ (Nat.log2 n - 52) := by
    intro k hk
    have both : 2 ^ 52 * 2 ^ 19 ≤ k * 2 ^ (Nat.log2 n - 52) := Nat.mul_le_mul hk wide
    omega
  unfold roundNat
  simp only
  split
  · exact up _ whole
  · split
    · exact up _ (by omega)
    · exact up _ (by omega)

end Search.F64

theorem toDt_le {ms t : ℤ} (h : toDt ms = some t) : t ≤ ms := by
  unfold toDt at h
  simp only at h
  split at h
  case isFalse => exact nomatch h
  case isTrue within =>
    cases h
    obtain ⟨low, high⟩ := within
    by_cases few : Nat.log2 (ms * 1000000).natAbs - 52 ≤ 18
    · have near := Search.F64.roundNat_near few
      have close : Search.F64.roundInt (ms * 1000000) ≤ ms * 1000000 + 262144 := by
        unfold Search.F64.roundInt
        rcases Int.lt_trichotomy (ms * 1000000) 0 with below | zero | above
        · rw [Int.sign_eq_neg_one_of_neg below]
          omega
        · rw [zero]
          decide
        · rw [Int.sign_eq_one_of_pos above]
          omega
      omega
    · have long := Search.F64.roundNat_long (not_le.mp few)
      unfold Search.F64.roundInt at low high ⊢
      rcases Int.lt_trichotomy (ms * 1000000) 0 with below | zero | above
      · rw [Int.sign_eq_neg_one_of_neg below] at low
        omega
      · rw [zero] at few
        exact absurd (by decide) few
      · rw [Int.sign_eq_one_of_pos above] at high
        omega

namespace DateSpec

variable (q : DateSpec)

/-- The instants that `shift` goes over are held: one that is not is a panic. -/
def shiftHeld (t : ℤ) : Bool :=
  let l := t + q.zoneAt t
  CalendarUnit.Held l && CalendarUnit.Held (q.shift t) &&
    match q.interval with
    | .fixed _ _ => true
    | .calendar _ u _ => CalendarUnit.Held (l - q.offset) &&
      CalendarUnit.Held (u.floor (l - q.offset)) && CalendarUnit.Held (q.floorLocal l)

/-- And those of the step from one boundary to the next. -/
def stepHeld (c : ℤ) : Bool :=
  CalendarUnit.Held (q.nextCursor c) &&
    match q.interval with
    | .fixed _ _ => true
    | .calendar _ u _ => CalendarUnit.Held (c + q.zoneAt c) &&
      CalendarUnit.Held (c + q.zoneAt c - q.offset) &&
      CalendarUnit.Held (u.advanceHeld (c + q.zoneAt c - q.offset)) &&
      CalendarUnit.Held (q.localNext u c) && CalendarUnit.Held (q.guess u c)

/-- The buckets of some dates. -/
def bucketsOf (ceiling : ℕ) (dates : List ℤ) : Option (List (ℤ × ℤ)) :=
  match dates.min?, dates.max? with
  | some lo, some hi =>
    match toDt lo, toDt hi with
    | some lo, some hi => (q.runCalendarHistogram ceiling lo hi).filter fun cells =>
      q.shiftHeld lo && q.shiftHeld hi && cells.all fun x => q.stepHeld x.1
    | _, _ => some []
  | _, _ => some []

/-- Nothing is lost and nothing counted twice. -/
structure Whole (dates : List ℤ) (cells : List (ℤ × ℤ)) : Prop where
  apart : cells.Pairwise Grid.Apart
  covers : ∀ d ∈ dates, ∃ x ∈ cells, Grid.holds x d = true
  counts : (cells.map fun x => dates.countP (Grid.holds x)).sum = dates.length
  starts : ∀ name u named, q.interval = .calendar name u named →
    ∀ x ∈ cells, u.floor (x.1 + q.zoneAt x.1 - q.offset) = x.1 + q.zoneAt x.1 - q.offset

/-! ### What is asked of the zone -/

/-- The cursor moves on. -/
def Onward (u : CalendarUnit) (c : ℤ) : Prop :=
  q.zoneAt (q.guess u c) - q.zoneAt c < q.localNext u c - (c + q.zoneAt c)

/-- Where a cell begins. -/
def boundary (lo : ℤ) (i : ℕ) : ℤ := Grid.cursor q.nextCursor (q.shift lo) i

/-- The changes of the clock keep boundaries boundaries, and one that is put forward over a whole
bucket is met by no bucket but the first ones. -/
structure Kept (u : CalendarUnit) (lo : ℤ) (m : ℕ) : Prop where
  first : u.Keeps (q.zoneAt (q.shift lo) - q.zoneAt lo)
  next : ∀ i, i + 1 < m →
    u.Keeps (q.zoneAt (q.boundary lo (i + 1)) - q.zoneAt (q.guess u (q.boundary lo i)))
  onward : ∀ i, i + 1 < m → q.Onward u (q.boundary lo i) → q.Onward u (q.boundary lo (i + 1))

/-- The first boundary past the one the last date is floored to is past that date, and the changes
of the clock up to there keep the walk on its way. -/
def Steady (lo hi : ℤ) : Prop :=
  ∃ first last m, toDt lo = some first ∧ toDt hi = some last ∧
    (∀ i < m, q.boundary first i ≤ q.shift last) ∧ hi < q.boundary first m ∧
    ∀ name u named, q.interval = .calendar name u named → q.Kept u first m

/-! ### The step and the boundaries -/

theorem floorLocal_le (t : ℤ) : q.floorLocal t ≤ t := by
  unfold floorLocal
  split
  case h_1 step pos hi =>
    split
    · exact Int.ediv_mul_le t (by omega)
    · exact Int.le_refl t
  case h_2 name u named hi =>
    have le := u.grid.floor_le (t - q.offset)
    rw [← u.floor_eq] at le
    omega

theorem shift_le (t : ℤ) : q.shift t ≤ t := by
  have le := q.floorLocal_le (t + q.zoneAt t)
  show q.floorLocal (t + q.zoneAt t) - q.zoneAt t ≤ t
  omega

theorem nextCursor_fixed {step : ℤ} {pos : 0 < step} (hi : q.interval = .fixed step pos) (c : ℤ) :
    q.nextCursor c = c + step := by
  unfold nextCursor
  rw [hi]

section Calendar

variable {q} {name : String} {u : CalendarUnit} {named : CalendarUnit.parse name = some u}
  (hi : q.interval = .calendar name u named)

include hi

theorem nextCursor_calendar (c : ℤ) :
    q.nextCursor c = q.localNext u c - q.zoneAt (q.guess u c) := by
  unfold nextCursor
  rw [hi]

theorem onward_iff (c : ℤ) : q.Onward u c ↔ c < q.nextCursor c := by
  rw [nextCursor_calendar hi]
  unfold Onward
  omega

theorem first_local (t : ℤ) : u.grid.Starts (q.shift t + q.zoneAt (q.shift t) - q.offset) ↔
    u.Keeps (q.zoneAt (q.shift t) - q.zoneAt t) := by
  have floored : q.shift t = u.grid.floor (t + q.zoneAt t - q.offset) + q.offset - q.zoneAt t := by
    unfold shift floorLocal
    rw [hi, ← u.floor_eq]
  have near := q.zoneAt_near (q.shift t) t
  have near' := q.zoneAt_near t (q.shift t)
  have starts := u.grid.starts_floor (t + q.zoneAt t - q.offset)
  rw [← CalendarUnit.starts_add_iff starts (by omega) (by omega)]
  rw [show q.shift t + q.zoneAt (q.shift t) - q.offset =
    u.grid.floor (t + q.zoneAt t - q.offset) + (q.zoneAt (q.shift t) - q.zoneAt t) by omega]

/-- A boundary the walk goes on from is not at the end of what is held. -/
theorem localNext_of_moves {c : ℤ} (moves : q.nextCursor c ≠ c) :
    q.localNext u c = u.advance (c + q.zoneAt c - q.offset) + q.offset := by
  rcases u.advanceHeld_cases (c + q.zoneAt c - q.offset) with same | stands
  · rw [localNext, same]
  · have still : q.localNext u c = c + q.zoneAt c := by
      rw [localNext, stands]
      omega
    have here : q.guess u c = c := by
      rw [guess, still]
      omega
    refine absurd ?_ moves
    rw [nextCursor_calendar hi, here, still]
    omega

theorem next_local {c : ℤ} (starts : u.grid.Starts (c + q.zoneAt c - q.offset))
    (moves : q.nextCursor c ≠ c) :
    u.grid.Starts (q.nextCursor c + q.zoneAt (q.nextCursor c) - q.offset) ↔
      u.Keeps (q.zoneAt (q.nextCursor c) - q.zoneAt (q.guess u c)) := by
  have placed : q.nextCursor c = u.grid.next (c + q.zoneAt c - q.offset) + q.offset -
      q.zoneAt (q.guess u c) := by
    rw [nextCursor_calendar hi, localNext_of_moves hi moves, u.advance_eq starts]
  have near := q.zoneAt_near (q.nextCursor c) (q.guess u c)
  have near' := q.zoneAt_near (q.guess u c) (q.nextCursor c)
  rw [← CalendarUnit.starts_add_iff starts.next (by omega) (by omega)]
  rw [show q.nextCursor c + q.zoneAt (q.nextCursor c) - q.offset =
    u.grid.next (c + q.zoneAt c - q.offset) +
      (q.zoneAt (q.nextCursor c) - q.zoneAt (q.guess u c)) by omega]

end Calendar

@[simp] theorem boundary_zero (lo : ℤ) : q.boundary lo 0 = q.shift lo := rfl

theorem boundary_succ (lo : ℤ) (i : ℕ) :
    q.boundary lo (i + 1) = q.nextCursor (q.boundary lo i) := Grid.cursor_succ i

theorem starts_iff {name : String} {u : CalendarUnit}
    {named : CalendarUnit.parse name = some u} (hi : q.interval = .calendar name u named)
    (lo : ℤ) {m : ℕ} (pos : 0 < m)
    (moves : ∀ i, i + 1 < m → q.nextCursor (q.boundary lo i) ≠ q.boundary lo i) :
    (∀ i < m, u.grid.Starts (q.boundary lo i + q.zoneAt (q.boundary lo i) - q.offset)) ↔
      u.Keeps (q.zoneAt (q.shift lo) - q.zoneAt lo) ∧ ∀ i, i + 1 < m →
        u.Keeps (q.zoneAt (q.boundary lo (i + 1)) - q.zoneAt (q.guess u (q.boundary lo i))) := by
  constructor
  · intro starts
    refine ⟨(first_local hi lo).mp (starts 0 pos), fun i hi' => ?_⟩
    have here := starts i (by omega)
    have there := starts (i + 1) hi'
    rw [boundary_succ] at there ⊢
    exact (next_local hi here (moves i hi')).mp there
  · intro keeps i
    obtain ⟨first, next⟩ := keeps
    induction i with
    | zero => exact fun _ => (first_local hi lo).mpr first
    | succ i ih =>
      intro hi'
      have here := ih (by omega)
      have kept := next i hi'
      rw [boundary_succ] at kept ⊢
      exact (next_local hi here (moves i hi')).mpr kept

theorem walk_spec {ceiling : ℕ} {lo hi : ℤ} {cells : List (ℤ × ℤ)}
    (answered : q.runCalendarHistogram ceiling lo hi = some cells) :
    ∃ m, cells = Grid.cellsTo q.nextCursor (q.shift lo) m ∧
      (∀ i < m, q.boundary lo i ≤ q.shift hi) ∧
      (q.shift hi < q.boundary lo m ∨ 0 < m ∧ q.boundary lo m = q.boundary lo (m - 1)) :=
  Grid.walk_cells answered

theorem covers_iff {lo hi first last : ℤ} (hlo : first ≤ lo) (hhi : last ≤ hi) {m : ℕ}
    (within : ∀ i < m, q.boundary first i ≤ q.shift last) {dates : List ℤ}
    (low : ∀ d ∈ dates, lo ≤ d) (high : ∀ d ∈ dates, d ≤ hi) (mem : hi ∈ dates) :
    (∀ d ∈ dates, ∃ x ∈ Grid.cellsTo q.nextCursor (q.shift first) m, Grid.holds x d = true) ↔
      hi < q.boundary first m := by
  have floored := q.shift_le last
  have start := q.shift_le first
  constructor
  · intro covers
    obtain ⟨x, hx, held⟩ := covers hi mem
    obtain ⟨k, hk, rfl⟩ := List.mem_map.mp hx
    have hk := List.mem_range.mp hk
    obtain ⟨-, until_⟩ := Grid.holds_iff.mp held
    by_cases short : k + 1 = m
    · rw [← short]
      exact until_
    · have inTime := within (k + 1) (by omega)
      have until_ : hi < q.boundary first (k + 1) := until_
      omega
  · intro past d hd
    have hlo := low d hd
    have hhi := high d hd
    obtain ⟨k, -, hk, held⟩ : ∃ k, 0 ≤ k ∧ k < m ∧ q.boundary first k ≤ d ∧
        d < q.boundary first (k + 1) := by
      apply Grid.exists_cell (Nat.zero_le m)
      · show q.shift first ≤ d
        omega
      · show d < q.boundary first m
        omega
    exact ⟨_, List.mem_map_of_mem (List.mem_range.mpr hk), Grid.holds_iff.mpr held⟩

theorem apart_iff {first last : ℤ} {m : ℕ}
    (within : ∀ i < m, q.boundary first i ≤ q.shift last)
    (past : q.shift last < q.boundary first m) :
    (Grid.cellsTo q.nextCursor (q.shift first) m).Pairwise Grid.Apart ↔
      ∀ name u named, q.interval = .calendar name u named →
        ∀ i, i + 1 < m → q.Onward u (q.boundary first i) →
          q.Onward u (q.boundary first (i + 1)) := by
  constructor
  · intro apart name u named hi i inside onward
    rw [onward_iff hi, ← boundary_succ] at onward ⊢
    exact Grid.onward_of_apart apart within past inside onward
  · intro onward
    apply Grid.apart_of_onward
    intro i inside up
    cases hi : q.interval with
    | fixed step pos =>
      have next : q.boundary first (i + 2) = q.boundary first (i + 1) + step := by
        rw [boundary_succ, nextCursor_fixed q hi]
      show q.boundary first (i + 1) < q.boundary first (i + 2)
      omega
    | calendar name u named =>
      have goes := onward name u named hi i inside
      rw [onward_iff hi, onward_iff hi, ← boundary_succ, ← boundary_succ] at goes
      exact goes up

theorem past_unique {first last hi : ℤ} (hhi : last ≤ hi) {m n : ℕ}
    (within : ∀ i < m, q.boundary first i ≤ q.shift last)
    (ends : q.shift last < q.boundary first m ∨
      0 < m ∧ q.boundary first m = q.boundary first (m - 1))
    (within' : ∀ i < n, q.boundary first i ≤ q.shift last) (past : hi < q.boundary first n) :
    m = n ∧ hi < q.boundary first m := by
  have floored := q.shift_le last
  rcases Nat.lt_trichotomy m n with before | same | after
  · have inTime := within' m before
    cases ends with
    | inl gone => omega
    | inr stuck =>
      -- the walk stands still and never gets past its last boundary
      obtain ⟨pos, stuck⟩ := stuck
      have same : q.boundary first n = q.boundary first (m - 1) := by
        apply Grid.cursor_stands
        · rw [Nat.sub_add_cancel pos]
          exact stuck
        · omega
      have inTime := within (m - 1) (by omega)
      omega
  · rw [same]
    exact ⟨rfl, past⟩
  · have inTime := within n after
    omega

/-- A walk that gets past the last date stood still nowhere before. -/
theorem moves_of_past {first last hi : ℤ} (hhi : last ≤ hi) {m : ℕ}
    (within : ∀ i < m, q.boundary first i ≤ q.shift last) (past : hi < q.boundary first m) (i : ℕ)
    (inside : i + 1 < m) : q.nextCursor (q.boundary first i) ≠ q.boundary first i := by
  intro stands
  rw [← boundary_succ] at stands
  have same : q.boundary first m = q.boundary first i := Grid.cursor_stands stands (by omega)
  have inTime := within i (by omega)
  have floored := q.shift_le last
  omega

theorem whole_iff {lo hi first last : ℤ} {ceiling : ℕ} {dates : List ℤ} {cells : List (ℤ × ℤ)}
    (hlo : toDt lo = some first) (hhi : toDt hi = some last)
    (low : ∀ d ∈ dates, lo ≤ d) (high : ∀ d ∈ dates, d ≤ hi) (mem : hi ∈ dates)
    (answered : q.runCalendarHistogram ceiling first last = some cells) :
    q.Whole dates cells ↔ q.Steady lo hi := by
  have readLo := toDt_le hlo
  have readHi := toDt_le hhi
  obtain ⟨m, rfl, within, ends⟩ := q.walk_spec answered
  have covers := q.covers_iff readLo readHi within low high mem
  have begins := q.shift_le first
  constructor
  · intro whole
    have past := covers.mp whole.covers
    have floored := q.shift_le last
    have onward := (q.apart_iff within (by omega)).mp whole.apart
    refine ⟨first, last, m, hlo, hhi, within, past, fun name u named hi' => ?_⟩
    have pos : 0 < m := by
      rcases Nat.eq_zero_or_pos m with zero | pos
      · have reached := low hi mem
        rw [zero, boundary_zero] at past
        omega
      · exact pos
    have starts : ∀ i < m,
        u.grid.Starts (q.boundary first i + q.zoneAt (q.boundary first i) - q.offset) := by
      intro i inside
      have begins := whole.starts name u named hi' _
        (List.mem_map_of_mem (List.mem_range.mpr inside))
      rwa [u.floor_eq] at begins
    obtain ⟨kept, next⟩ := (q.starts_iff hi' first pos (q.moves_of_past readHi within past)).mp starts
    exact ⟨kept, next, onward name u named hi'⟩
  · rintro ⟨first', last', n, hlo', hhi', within', past, kept⟩
    cases hlo.symm.trans hlo'
    cases hhi.symm.trans hhi'
    obtain ⟨rfl, past⟩ := q.past_unique readHi within ends within' past
    have floored := q.shift_le last
    have apart := (q.apart_iff within (by omega)).mpr fun name u named hi' =>
      (kept name u named hi').onward
    have held := covers.mpr past
    refine ⟨apart, held, Grid.sum_counts apart held, fun name u named hi' x hx => ?_⟩
    obtain ⟨i, inside, rfl⟩ := List.mem_map.mp hx
    have inside := List.mem_range.mp inside
    have keeps := kept name u named hi'
    have starts := (q.starts_iff hi' first (by omega) (q.moves_of_past readHi within past)).mpr
      ⟨keeps.first, keeps.next⟩ i inside
    rw [u.floor_eq]
    exact starts

end DateSpec

def newYork : Zone := ⟨-18000, [(1710054000, -14400)], by decide⟩

def hoursOfNewYork : DateSpec := ⟨.calendar "hour" .hour rfl, 0, some newYork⟩

end Velosearch

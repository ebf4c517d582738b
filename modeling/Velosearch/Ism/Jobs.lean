import Velosearch.Lib.Text
import Mathlib.Data.Int.ModEq
import Mathlib.Tactic.Linarith
import Mathlib.Tactic.Ring

/-!
# When a job is due

The schedules of `src/ism/jobs.rs`: the next time a schedule names (`next_run`), the cron
expressions (`Cron::parse`, `next_after`), and the table of next times that `due` reads and
moves on.

* Times are milliseconds. A zone is one with a fixed offset.
* The sums an interval is worked out with wrap round at 64 bits, since its start, its
  period and its delay are any the caller wrote; the clock is taken to be far from that.
* `Owed` is what a schedule asks for, in nanoseconds, so that a period of some of them has
  a meaning.
-/

set_option autoImplicit false

namespace Velosearch.Ism

/-! ## Schedules -/

/-- An `i64`. -/
def wrap (n : ℤ) : ℤ :=
  Int.bmod n (2 ^ 64)

/-- The units of a schedule. -/
inductive TimeUnit where
  | nanos
  | micros
  | millis
  | seconds
  | minutes
  | hours
  | days
  deriving DecidableEq, Repr

/-- A unit in milliseconds. -/
def TimeUnit.toMillis : TimeUnit → ℤ
  | .nanos => 0
  | .micros => 0
  | .millis => 1
  | .seconds => 1000
  | .minutes => 60000
  | .hours => 3600000
  | .days => 86400000

/-- A unit in nanoseconds. -/
def TimeUnit.toNanos : TimeUnit → ℤ
  | .nanos => 1
  | .micros => 1000
  | unit => unit.toMillis * 1000000

/-- A schedule, with the `schedule_delay` a rollup writes into it. -/
inductive Schedule where
  | interval (startTime period : ℤ) (unit : TimeUnit) (delay : ℤ)
  | cron (expression : List Char) (zone delay : ℤ)
  deriving DecidableEq

/-- An interval, which may wrap around. -/
def intervalMillis (period : ℤ) (unit : TimeUnit) : ℤ :=
  wrap (period * unit.toMillis)

/-! ## Cron expressions -/

/-- `Cron`: the values each field allows. -/
structure Cron where
  minute : ℕ → Bool
  hour : ℕ → Bool
  dom : ℕ → Bool
  month : ℕ → Bool
  dow : ℕ → Bool
  anyDom : Bool
  anyDow : Bool

/-- `parse::<usize>` -/
def parseUsize (text : List Char) : Option ℕ :=
  let digits := match text with
    | '+' :: rest => rest
    | _ => text
  if digits ≠ [] ∧ digits.all Char.isDigit then
    let n := digits.foldl (fun n c => n * 10 + (c.toNat - '0'.toNat)) 0
    if n < 2 ^ 64 then some n else none
  else none

/-- A text cut at the first of a character. -/
def splitOnce (c : Char) (text : List Char) : Option (List Char × List Char) :=
  match text.span (· ≠ c) with
  | (before, _ :: after) => some (before, after)
  | (_, []) => none

namespace Cron

/-- One item of a field: a range, with a step. -/
def parseItem (lo hi : ℕ) (item : List Char) : Option (ℕ → Bool) := do
  let (range, step) ← match splitOnce '/' item with
    | some (r, s) => do
      let step ← parseUsize s
      guard (0 < step)
      pure (r, step)
    | none => pure (item, 1)
  let (first, last) ←
    if range = ['*'] then pure (lo, hi)
    else match splitOnce '-' range with
      | some (a, b) => do pure (← parseUsize a, ← parseUsize b)
      | none => do
        let v ← parseUsize range
        pure (v, if 1 < step then hi else v)
  guard (lo ≤ first ∧ last ≤ hi ∧ first ≤ last)
  pure fun v => decide (first ≤ v ∧ v ≤ last ∧ (v - first) % step = 0)

/-- One field of an expression. -/
def parseField (lo hi : ℕ) (part : List Char) : Option (ℕ → Bool) := do
  let items ← (part.splitOn ',').mapM (parseItem lo hi)
  pure fun v => items.any fun item => item v

/-- A cron expression. -/
def parse (expr : List Char) : Option Cron :=
  match (expr.splitOnP Text.isWhiteSpace).filter fun part => !part.isEmpty with
  | [minute, hour, dom, month, dow] => do
    let minute ← parseField 0 59 minute
    let hour ← parseField 0 23 hour
    let day ← parseField 1 31 dom
    let month ← parseField 1 12 month
    let week ← parseField 0 7 dow
    pure {
      minute, hour, dom := day, month
      -- Sunday may be written as 0 or as 7
      dow := fun v => week v || (v == 0 && week 7)
      anyDom := dom == ['*'], anyDow := dow == ['*'] }
  | _ => none

end Cron

/-- `civil_from_days`: the month and the day. -/
def civilFromDays (days : ℤ) : ℕ × ℕ :=
  let z := days + 719468
  let doe := z % 146097
  let yoe := (doe - doe / 1460 + doe / 36524 - doe / 146096) / 365
  let doy := doe - (365 * yoe + yoe / 4 - yoe / 100)
  let mp := (5 * doy + 2) / 153
  let d := doy - (153 * mp + 2) / 5 + 1
  let m := if mp < 10 then mp + 3 else mp - 9
  (m.toNat, d.toNat)

namespace Cron

variable (c : Cron) (zone : ℤ)

/-- Whether the expression names the minute at `t`, read in the zone. -/
def names (t : ℤ) : Bool :=
  let local_ := t + zone * 1000
  let days := local_ / 86400000
  let minuteOfDay := local_ % 86400000 / 60000
  let (m, d) := civilFromDays days
  let domOk := c.dom d
  let dowOk := c.dow ((days + 4) % 7).toNat
  let dayOk := match c.anyDom, c.anyDow with
    | true, true => true
    | true, false => dowOk
    | false, true => domOk
    | false, false => domOk || dowOk
  c.month m && dayOk && c.hour (minuteOfDay / 60).toNat && c.minute (minuteOfDay % 60).toNat

/-- The loop of `next_after`. -/
def search : ℕ → ℤ → Option ℤ
  | 0, _ => none
  | fuel + 1, t => if c.names zone t then some t else search fuel (t + 60000)

/-- The minutes `next_after` looks at. -/
def most : ℕ :=
  366 * 24 * 60

/-- The next minute that fits. -/
def nextAfter (now : ℤ) : Option ℤ :=
  c.search zone most ((now.tdiv 60000 + 1) * 60000)

end Cron

/-! ## The table -/

/-- The next run of a schedule. -/
def nextRun : Schedule → ℤ → Option ℤ
  | .interval startTime period unit delay, now =>
    let every := intervalMillis period unit
    if 0 < every then
      let since := wrap (now - startTime)
      let next :=
        if since < 0 then startTime
        else wrap (startTime + wrap (wrap (since / every + 1) * every))
      some (wrap (next + delay))
    else none
  | .cron expression zone delay, now =>
    (Cron.parse expression).bind fun c => (c.nextAfter zone now).map fun t => wrap (t + delay)

example : nextRun (.cron "30 2 * * *".toList 0 0) 0 = some 9000000 := by decide +kernel

/-- `due_table`: by kind and id, the enabled time a job was scheduled from and its next time. -/
abbrev DueTable : Type := String → Option (ℤ × ℤ)

/-- Whether a job is due, and when it is next. -/
def due (table : DueTable) (kind id : String) (schedule : Schedule) (enabledAt now : ℤ) :
    DueTable × Bool :=
  let key := kind ++ ":" ++ id
  let insert := fun (table : DueTable) (next : ℤ) => Function.update table key (some (enabledAt, next))
  -- moved on where it is due
  let settle := fun (table : DueTable) (next : ℤ) =>
    if now < next then (table, false)
    else match nextRun schedule now with
      | some after => (insert table after, true)
      | none => (table, true)
  match (table key).filter fun entry => entry.1 == enabledAt with
  | some (_, next) => settle table next
  | none =>
    match nextRun schedule (max now enabledAt) with
    | none => (table, false)
    | some next => settle (insert table next) next

/-- A job looked at again and again: the times, and what was answered. -/
def ticks (kind id : String) (schedule : Schedule) (enabledAt : ℤ) :
    DueTable → List ℤ → List (ℤ × Bool)
  | _, [] => []
  | table, now :: rest =>
    let (table, answer) := due table kind id schedule enabledAt now
    (now, answer) :: ticks kind id schedule enabledAt table rest

/-! ## What a schedule asks for -/

/-- The times a schedule names. -/
def Grid : Schedule → ℤ → Prop
  | .interval startTime period unit _, t =>
    0 < period ∧ ∃ k : ℕ, t = startTime * 1000000 + k * (period * unit.toNanos)
  | .cron expression zone _, t =>
    ∃ c, Cron.parse expression = some c ∧ ∃ m : ℤ, 60000 ∣ m ∧ c.names zone m = true ∧
      t = m * 1000000

/-- How much later than those it runs. -/
def Schedule.delay : Schedule → ℤ
  | .interval _ _ _ delay => delay
  | .cron _ _ delay => delay

/-- A run that is due since the last look. -/
def Owed (s : Schedule) (last now : ℤ) : Prop :=
  ∃ t, Grid s t ∧ last * 1000000 < t + s.delay * 1000000 ∧ t + s.delay * 1000000 ≤ now * 1000000

/-- A job is due exactly when a time is owed since it was due before. -/
def Faithful (s : Schedule) : ℤ → List (ℤ × Bool) → Prop
  | _, [] => True
  | last, (now, answer) :: rest =>
    (answer = true ↔ Owed s last now) ∧ Faithful s (if answer then now else last) rest

/-! ## When it does -/

/-- Within the bounds of an `i64`. -/
def I64 (n : ℤ) : Prop :=
  -2 ^ 63 ≤ n ∧ n < 2 ^ 63
  deriving Decidable

/-- The next time of an interval. -/
def nextGrid (startTime every b : ℤ) : ℤ :=
  if b < startTime then startTime else startTime + ((b - startTime) / every + 1) * every

/-- The next time after `b` is the first that is owed after it: no time still to come belongs
to a grid point or a minute that has passed, and the next minute is found. -/
def Ready : Schedule → ℤ → Prop
  | .interval startTime period unit delay, b =>
    let every := period * unit.toMillis
    0 < every ∧ I64 every ∧ I64 (b - startTime) ∧ I64 (nextGrid startTime every b + delay) ∧
      0 ≤ delay ∧ ∀ k : ℕ, startTime + k * every ≤ b → startTime + k * every + delay ≤ b
  | .cron expression zone delay, b =>
    ∃ c, Cron.parse expression = some c ∧ I64 b ∧ (0 ≤ b ∨ 60000 ∣ b) ∧ 0 ≤ delay ∧
      (∃ m, 60000 ∣ m ∧ c.names zone m = true ∧ b < m ∧ m ≤ b + 60000 * Cron.most ∧
        I64 (m + delay)) ∧
      ∀ m, 60000 ∣ m → c.names zone m = true → m ≤ b → m + delay ≤ b

/-- No time after `b` is in reach. -/
def Beyond : Schedule → ℤ → Prop
  | .interval _ period unit _, _ => intervalMillis period unit ≤ 0
  | .cron expression zone _, b =>
    ∀ c, Cron.parse expression = some c → (0 ≤ b ∨ 60000 ∣ b) ∧
      ∀ m, 60000 ∣ m → c.names zone m = true → b < m → b + 60000 * Cron.most < m

/-- The condition on the times a job is looked at. -/
def Fine (s : Schedule) : Bool → ℤ → List ℤ → Prop
  | _, _, [] => True
  -- not scheduled yet: nothing is owed since it was enabled
  | true, last, now :: rest => ¬ Owed s last now ∧
    (Ready s (max now last) ∧ Fine s false last rest ∨ Beyond s (max now last) ∧ Fine s true last rest)
  | false, last, now :: rest =>
    (Owed s last now → Ready s now ∧ Fine s false now rest) ∧
      (¬ Owed s last now → Fine s false last rest)

theorem wrap_of_i64 {n : ℤ} (h : I64 n) : wrap n = n := by
  obtain ⟨low, high⟩ := h
  exact Int.bmod_eq_of_le (by norm_num; linarith) (by norm_num; linarith)

/-- The next run of an interval. -/
theorem nextRun_interval {startTime period delay b : ℤ} {unit : TimeUnit}
    (some_ : 0 < period * unit.toMillis) (small : I64 (period * unit.toMillis))
    (near : I64 (b - startTime))
    (fits : I64 (nextGrid startTime (period * unit.toMillis) b + delay)) :
    nextRun (.interval startTime period unit delay) b =
      some (nextGrid startTime (period * unit.toMillis) b + delay) := by
  have every : intervalMillis period unit = period * unit.toMillis := wrap_of_i64 small
  rw [nextRun, every]
  dsimp only
  rw [if_pos some_, wrap_of_i64 near, nextGrid] at *
  by_cases before : b < startTime
  · rw [if_pos (by linarith), if_pos before] at *
    rw [wrap_of_i64 fits]
  · rw [if_neg (by linarith), if_neg before] at *
    refine congrArg some ?_
    rw [← wrap_of_i64 fits]
    simp only [wrap, Int.bmod_mul_bmod, Int.add_bmod_bmod, Int.bmod_add_bmod]

/-- It is the first behind the last one. -/
theorem nextGrid_spec {startTime every : ℤ} (some_ : 0 < every) (b : ℤ) :
    b < nextGrid startTime every b ∧
      (∃ k : ℕ, nextGrid startTime every b = startTime + k * every) ∧
      ∀ k : ℕ, b < startTime + k * every → nextGrid startTime every b ≤ startTime + k * every := by
  rw [nextGrid]
  by_cases before : b < startTime
  · rw [if_pos before]
    refine ⟨before, ⟨0, by simp⟩, fun k _ => ?_⟩
    have : 0 ≤ (k : ℤ) * every := by positivity
    linarith
  · rw [if_neg before]
    have since : 0 ≤ b - startTime := by linarith
    have whole := Int.mul_ediv_add_emod (b - startTime) every
    have rest := Int.emod_nonneg (b - startTime) some_.ne'
    have less := Int.emod_lt_of_pos (b - startTime) some_
    have quotient : 0 ≤ (b - startTime) / every := Int.ediv_nonneg since some_.le
    refine ⟨by nlinarith, ⟨((b - startTime) / every + 1).toNat, ?_⟩, fun k later => ?_⟩
    · rw [Int.toNat_of_nonneg (by linarith)]
    · -- a point after the moment is past all the points up to it
      have : (b - startTime) / every < k := by
        by_contra not
        have : (k : ℤ) * every ≤ (b - startTime) / every * every :=
          mul_le_mul_of_nonneg_right (by linarith) some_.le
        nlinarith
      have : ((b - startTime) / every + 1) * every ≤ k * every :=
        mul_le_mul_of_nonneg_right (by linarith) some_.le
      linarith

theorem toNanos_eq {unit : TimeUnit} (h : unit.toMillis ≠ 0) :
    unit.toNanos = unit.toMillis * 1000000 := by
  cases unit <;> simp_all [TimeUnit.toMillis, TimeUnit.toNanos]

/-! ## The next minute -/

namespace Cron

variable {c : Cron} {zone : ℤ}

/-- The search finds the first minute that fits. -/
theorem search_some {fuel : ℕ} {t n : ℤ} (found : c.search zone fuel t = some n) :
    c.names zone n = true ∧ (∃ i : ℕ, i < fuel ∧ n = t + 60000 * i) ∧
      ∀ i : ℕ, t + 60000 * i < n → c.names zone (t + 60000 * i) = false := by
  induction fuel generalizing t with
  | zero => exact nomatch found
  | succ fuel ih =>
    rw [search] at found
    by_cases here : c.names zone t = true
    · rw [if_pos here] at found
      obtain rfl := Option.some.inj found
      refine ⟨here, ⟨0, by omega, by simp⟩, fun i less => ?_⟩
      omega
    · rw [if_neg here] at found
      obtain ⟨named, ⟨i, inside, at_⟩, none⟩ := ih found
      refine ⟨named, ⟨i + 1, by omega, by push_cast; omega⟩, fun j less => ?_⟩
      cases j with
      | zero => simpa using here
      | succ j =>
        have := none j (by push_cast at less; omega)
        rwa [show t + 60000 * ((j + 1 : ℕ) : ℤ) = t + 60000 + 60000 * j by push_cast; ring]

/-- Or none does. -/
theorem search_none {fuel : ℕ} {t : ℤ} (none : c.search zone fuel t = none) :
    ∀ i : ℕ, i < fuel → c.names zone (t + 60000 * i) = false := by
  induction fuel generalizing t with
  | zero => intro i h; omega
  | succ fuel ih =>
    rw [search] at none
    by_cases here : c.names zone t = true
    · rw [if_pos here] at none
      exact nomatch none
    · rw [if_neg here] at none
      intro i inside
      cases i with
      | zero => simpa using here
      | succ i =>
        have := ih none i (by omega)
        rwa [show t + 60000 * ((i + 1 : ℕ) : ℤ) = t + 60000 + 60000 * i by push_cast; ring]

theorem first_minute {b : ℤ} (h : 0 ≤ b ∨ 60000 ∣ b) :
    (b.tdiv 60000 + 1) * 60000 = (b / 60000 + 1) * 60000 := by
  have same : b.tdiv 60000 = b / 60000 := by
    rcases h with nonneg | whole
    · exact Int.tdiv_eq_ediv_of_nonneg nonneg
    · exact Int.tdiv_eq_ediv_of_dvd whole
  rw [same]

theorem minute_after {b m : ℤ} (whole : 60000 ∣ m) (later : b < m) :
    ∃ i : ℕ, m = (b / 60000 + 1) * 60000 + 60000 * i := by
  obtain ⟨q, rfl⟩ := whole
  refine ⟨(q - (b / 60000 + 1)).toNat, ?_⟩
  omega

/-- **The next minute** is the first one named after the moment. -/
theorem nextAfter_some {b n : ℤ} (h : 0 ≤ b ∨ 60000 ∣ b) (found : c.nextAfter zone b = some n) :
    60000 ∣ n ∧ c.names zone n = true ∧ b < n ∧
      ∀ m, 60000 ∣ m → c.names zone m = true → b < m → n ≤ m := by
  rw [nextAfter, first_minute h] at found
  obtain ⟨named, ⟨i, -, at_⟩, none⟩ := search_some found
  refine ⟨⟨b / 60000 + 1 + i, by rw [at_]; ring⟩, named, by omega, fun m whole namedM later => ?_⟩
  obtain ⟨j, hj⟩ := minute_after whole later
  by_contra before
  have := none j (by omega)
  rw [← hj, namedM] at this
  exact nomatch this

/-- Where it finds none, none fits for as long as it looks. -/
theorem nextAfter_none {b : ℤ} (h : 0 ≤ b ∨ 60000 ∣ b) (none : c.nextAfter zone b = none) :
    ∀ m, 60000 ∣ m → c.names zone m = true → b < m → b + 60000 * most < m := by
  intro m whole named later
  rw [nextAfter, first_minute h] at none
  obtain ⟨i, hi⟩ := minute_after whole later
  by_contra within
  have := search_none none i (by omega)
  rw [← hi, named] at this
  exact nomatch this

end Cron

/-! ## The next time -/

/-- A run is owed when the next is due. -/
theorem owed_iff {s : Schedule} {b n : ℤ} (late : 0 ≤ s.delay) (grid : Grid s (n * 1000000))
    (after : b < n) (passed : ∀ t, Grid s t → t ≤ b * 1000000 →
      t + s.delay * 1000000 ≤ b * 1000000)
    (first : ∀ t, Grid s t → b * 1000000 < t → n * 1000000 ≤ t) (now : ℤ) :
    n + s.delay ≤ now ↔ Owed s b now := by
  constructor
  · intro le
    exact ⟨n * 1000000, grid, by linarith, by linarith⟩
  · rintro ⟨t, ht, later, le⟩
    have ahead : b * 1000000 < t := by
      by_contra not
      have := passed t ht (by linarith)
      linarith
    have := first t ht ahead
    linarith

theorem grid_interval {startTime period delay : ℤ} {unit : TimeUnit}
    (some_ : 0 < period * unit.toMillis) (t : ℤ) :
    Grid (.interval startTime period unit delay) t ↔
      ∃ k : ℕ, t = (startTime + k * (period * unit.toMillis)) * 1000000 := by
  have length : 0 ≤ unit.toMillis := by cases unit <;> decide
  have unit_ : unit.toMillis ≠ 0 := by
    intro zero
    rw [zero, mul_zero] at some_
    exact lt_irrefl _ some_
  have period_ : 0 < period := pos_of_mul_pos_left some_ length
  rw [Grid, toNanos_eq unit_]
  constructor
  · rintro ⟨-, k, rfl⟩
    exact ⟨k, by ring⟩
  · rintro ⟨k, rfl⟩
    exact ⟨period_, k, by ring⟩

/-- **The next time after a moment** is due exactly when a time is owed after it. -/
theorem nextRun_ready {s : Schedule} {b : ℤ} (ready : Ready s b) :
    ∃ n, nextRun s b = some n ∧ b < n ∧ ∀ now, n ≤ now ↔ Owed s b now := by
  cases s with
  | interval startTime period unit delay =>
    obtain ⟨some_, small, near, fits, late, passed⟩ := ready
    obtain ⟨after, ⟨k, at_⟩, first⟩ := @nextGrid_spec startTime _ some_ b
    refine ⟨_, nextRun_interval some_ small near fits, by linarith, fun now => ?_⟩
    refine owed_iff (s := .interval startTime period unit delay) late ?_ after ?_ ?_ now
    · exact (grid_interval some_ _).mpr ⟨k, by rw [at_]⟩
    · intro t grid le
      obtain ⟨j, rfl⟩ := (grid_interval some_ t).mp grid
      have := passed j (by linarith)
      show _ + delay * 1000000 ≤ _
      linarith
    · intro t grid later
      obtain ⟨j, rfl⟩ := (grid_interval some_ t).mp grid
      have := first j (by linarith)
      linarith
  | cron expression zone delay =>
    obtain ⟨c, parsed, bounds, clock, late, ⟨m, whole, named, later, within, fits⟩, passed⟩ := ready
    cases found : c.nextAfter zone b with
    | none => exact absurd (Cron.nextAfter_none clock found m whole named later) (by linarith)
    | some n =>
      obtain ⟨wholeN, namedN, after, first⟩ := Cron.nextAfter_some clock found
      have fitsN : I64 (n + delay) := by
        have := first m whole named later
        exact ⟨by linarith [bounds.1], by linarith [fits.2]⟩
      refine ⟨n + delay, ?_, by linarith, fun now => ?_⟩
      · rw [nextRun, parsed]
        show (c.nextAfter zone b).map _ = _
        rw [found, Option.map_some, wrap_of_i64 fitsN]
      refine owed_iff (s := .cron expression zone delay) late ?_ after ?_ ?_ now
      · exact ⟨c, parsed, n, wholeN, namedN, rfl⟩
      · rintro t ⟨c', parsed', g, wholeG, namedG, rfl⟩ le
        obtain rfl := Option.some.inj (parsed.symm.trans parsed')
        have := passed g wholeG namedG (by linarith)
        show _ + delay * 1000000 ≤ _
        linarith
      · rintro t ⟨c', parsed', g, wholeG, namedG, rfl⟩ ahead
        obtain rfl := Option.some.inj (parsed.symm.trans parsed')
        have := first g wholeG namedG (by linarith)
        linarith

theorem nextRun_beyond {s : Schedule} {b : ℤ} (beyond : Beyond s b) : nextRun s b = none := by
  cases s with
  | interval startTime period unit delay =>
    rw [nextRun]
    exact if_neg (not_lt.mpr beyond)
  | cron expression zone delay =>
    rw [nextRun]
    cases parsed : Cron.parse expression with
    | none => rfl
    | some c =>
      obtain ⟨clock, none_⟩ := beyond c parsed
      cases found : c.nextAfter zone b with
      | none => simp [found]
      | some n =>
        -- what the loop found is within its reach
        obtain ⟨whole, named, after, -⟩ := Cron.nextAfter_some clock found
        have reach := none_ n whole named after
        rw [Cron.nextAfter, Cron.first_minute clock] at found
        obtain ⟨-, ⟨i, inside, at_⟩, -⟩ := Cron.search_some found
        omega

/-! ## Once per scheduled time -/

variable {s : Schedule} {table : DueTable} {kind id : String} {enabledAt last : ℤ}

/-- The table has the job's next run. -/
def Scheduled (s : Schedule) (table : DueTable) (kind id : String) (enabledAt last : ℤ) : Prop :=
  ∃ next, table (kind ++ ":" ++ id) = some (enabledAt, next) ∧ ∀ now, next ≤ now ↔ Owed s last now

/-- A job that was not known is not due, and is known from then on. -/
theorem due_fresh {now : ℤ}
    (fresh : (table (kind ++ ":" ++ id)).filter (fun entry => entry.1 == enabledAt) = none)
    (clear : ¬ Owed s enabledAt now) (ready : Ready s (max now enabledAt)) :
    (due table kind id s enabledAt now).2 = false ∧
      Scheduled s (due table kind id s enabledAt now).1 kind id enabledAt enabledAt := by
  obtain ⟨next, found, after, owed⟩ := nextRun_ready ready
  have early : now < next := lt_of_le_of_lt (le_max_left _ _) after
  have eq : due table kind id s enabledAt now =
      (Function.update table (kind ++ ":" ++ id) (some (enabledAt, next)), false) := by
    unfold due
    dsimp only
    rw [fresh, found]
    exact if_pos early
  rw [eq]
  refine ⟨rfl, next, Function.update_self .., fun at_ => ?_⟩
  rw [owed]
  -- nothing is owed between the enabled time and the moment it was scheduled from
  constructor
  · rintro ⟨t, grid, later, le⟩
    exact ⟨t, grid, lt_of_le_of_lt (mul_le_mul_of_nonneg_right (le_max_right _ _) (by norm_num)) later,
      le⟩
  · rintro ⟨t, grid, later, le⟩
    refine ⟨t, grid, ?_, le⟩
    by_contra not
    refine clear ⟨t, grid, later, ?_⟩
    rcases max_cases now enabledAt with ⟨eq, -⟩ | ⟨eq, -⟩
    · rw [eq] at not
      linarith
    · rw [eq] at not
      linarith

theorem due_beyond {now : ℤ}
    (fresh : (table (kind ++ ":" ++ id)).filter (fun entry => entry.1 == enabledAt) = none)
    (beyond : Beyond s (max now enabledAt)) :
    due table kind id s enabledAt now = (table, false) := by
  unfold due
  dsimp only
  rw [fresh, nextRun_beyond beyond]

/-- One that is known is due when a run is owed. -/
theorem due_scheduled {now : ℤ} (scheduled : Scheduled s table kind id enabledAt last)
    (ready : Owed s last now → Ready s now) :
    ((due table kind id s enabledAt now).2 = true ↔ Owed s last now) ∧
      Scheduled s (due table kind id s enabledAt now).1 kind id enabledAt
        (if (due table kind id s enabledAt now).2 then now else last) := by
  obtain ⟨next, entry, owed⟩ := scheduled
  have kept : (table (kind ++ ":" ++ id)).filter (fun entry => entry.1 == enabledAt) =
      some (enabledAt, next) := by
    rw [entry]
    simp
  by_cases early : now < next
  · have eq : due table kind id s enabledAt now = (table, false) := by
      unfold due
      dsimp only
      rw [kept]
      exact if_pos early
    rw [eq]
    exact ⟨⟨nofun, fun h => absurd ((owed now).mpr h) (by linarith)⟩, next, entry, owed⟩
  · have isOwed := (owed now).mp (by linarith)
    obtain ⟨after, found, -, owedAfter⟩ := nextRun_ready (ready isOwed)
    have eq : due table kind id s enabledAt now =
        (Function.update table (kind ++ ":" ++ id) (some (enabledAt, after)), true) := by
      unfold due
      dsimp only
      rw [kept]
      dsimp only
      rw [if_neg early, found]
    rw [eq]
    exact ⟨⟨fun _ => isOwed, fun _ => rfl⟩, after, Function.update_self .., owedAfter⟩

theorem faithful_tick {now : ℤ} {rest : List ℤ} :
    Faithful s last (ticks kind id s enabledAt table (now :: rest)) ↔
      ((due table kind id s enabledAt now).2 = true ↔ Owed s last now) ∧
        Faithful s (if (due table kind id s enabledAt now).2 then now else last)
          (ticks kind id s enabledAt (due table kind id s enabledAt now).1 rest) :=
  Iff.rfl

/-- Over any ticks, by induction. -/
theorem ticks_scheduled {nows : List ℤ} (scheduled : Scheduled s table kind id enabledAt last)
    (fine : Fine s false last nows) :
    Faithful s last (ticks kind id s enabledAt table nows) := by
  induction nows generalizing table last with
  | nil => trivial
  | cons now rest ih =>
    obtain ⟨whenOwed, whenNot⟩ := fine
    obtain ⟨answer, kept⟩ := due_scheduled scheduled fun owed => (whenOwed owed).1
    refine faithful_tick.mpr ⟨answer, ih kept ?_⟩
    by_cases isOwed : Owed s last now
    · rw [if_pos (answer.mpr isOwed)]
      exact (whenOwed isOwed).2
    · rw [if_neg fun h => isOwed (answer.mp h)]
      exact whenNot isOwed

/-- **A job is due once per scheduled time**, as long as the next time can be found whenever
it is worked out and nothing was owed before it first was. -/
theorem due_once (s : Schedule) (kind id : String) (enabledAt : ℤ) (table : DueTable)
    (fresh : (table (kind ++ ":" ++ id)).filter (fun entry => entry.1 == enabledAt) = none)
    (nows : List ℤ) (fine : Fine s true enabledAt nows) :
    Faithful s enabledAt (ticks kind id s enabledAt table nows) := by
  induction nows with
  | nil => trivial
  | cons now rest ih =>
    obtain ⟨clear, ⟨ready, fine⟩ | ⟨beyond, fine⟩⟩ := fine
    · obtain ⟨answer, scheduled⟩ := due_fresh fresh clear ready
      rw [faithful_tick, answer]
      exact ⟨⟨nofun, fun owed => absurd owed clear⟩, ticks_scheduled scheduled fine⟩
    · have eq := due_beyond fresh beyond
      rw [faithful_tick, eq]
      exact ⟨⟨nofun, fun owed => absurd owed clear⟩, ih fine⟩

/-- A job looked at every half minute, on a schedule of whole minutes. -/
theorem due_once_minutely :
    ((fun _ => none : DueTable) ("transform" ++ ":" ++ "t")).filter
      (fun entry => entry.1 == 30000) = none ∧
    Faithful (.interval 0 1 .minutes 0) 30000
      (ticks "transform" "t" (.interval 0 1 .minutes 0) 30000 (fun _ => none)
        [30000, 60000, 90000]) := by
  have ready : ∀ b ∈ [30000, 60000, 90000], Ready (.interval 0 1 .minutes 0) b := by
    intro b mem
    refine ⟨by decide, by decide, ?_, ?_, le_refl 0, fun k h => by linarith⟩
    all_goals
      rcases (by simpa using mem : b = 30000 ∨ b = 60000 ∨ b = 90000) with rfl | rfl | rfl <;> decide
  refine ⟨rfl, due_once _ _ _ _ _ rfl _ ⟨?_, .inl ⟨ready _ (by decide), ?_⟩⟩⟩
  · rintro ⟨t, -, later, le⟩
    linarith
  · refine ⟨fun _ => ⟨ready _ (by decide), ?_⟩, fun _ => ?_⟩
    all_goals exact ⟨fun _ => ⟨ready _ (by decide), trivial⟩, fun _ => trivial⟩

/-- A delay of more than a period: at 100 s the time at 90 s is owed, and the table has the
one at 150 s. -/
theorem delay_drops_times :
    ¬ Faithful (.interval 0 1 .minutes 90000) 0
      (ticks "rollup" "r" (.interval 0 1 .minutes 90000) 0 (fun _ => none) [0, 100000]) := by
  have answers : ticks "rollup" "r" (.interval 0 1 .minutes 90000) 0 (fun _ => none) [0, 100000] =
      [(0, false), (100000, false)] := by decide +kernel
  rw [answers]
  rintro ⟨-, owed, -⟩
  exact nomatch owed.mpr ⟨0, ⟨by decide, 0, rfl⟩, by decide, by decide⟩

end Velosearch.Ism

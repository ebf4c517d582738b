import Velosearch.Lib.Digits
import Velosearch.Lib.Instants

/-!
# Dates as text

`parse_date_lenient` and `parse_date_math` of `src/store/dates.rs`: what a date in a request is
read as. A text is a date to RFC 3339, or a date that leaves something out, or date math: an anchor
(a date and `||`, or `now`) with operations that round and move it.

The counts in a text are as large as its writer likes, and the code keeps them in 64, 32 and 8
bits. `Run` is what a piece of it does with them, and `means` is what the text means.
-/

set_option autoImplicit false

namespace Velosearch.DateText

/-! ## Runs -/

/-- What a reading comes to. -/
inductive Answer (α : Type) where
  | panics
  | nothing
  | found (a : α)
deriving DecidableEq

/-- What a piece of code answers, and whether a number was too large for where it was put: such a
number is cut to the bits there are, or stops a build with overflow checks. -/
structure Run (α : Type) where
  wraps : Bool
  answer : Answer α
deriving DecidableEq

namespace Run

variable {α β : Type}

/-- It may fail. -/
def ofOption : Option α → Run α
  | none => ⟨false, .nothing⟩
  | some a => ⟨false, .found a⟩

/-- It may panic. -/
def orPanic : Option α → Run α
  | none => ⟨false, .panics⟩
  | some a => ⟨false, .found a⟩

/-- One step and then another. -/
def bind (r : Run α) (f : α → Run β) : Run β :=
  match r.answer with
  | .panics => ⟨r.wraps, .panics⟩
  | .nothing => ⟨r.wraps, .nothing⟩
  | .found a => ⟨r.wraps || (f a).wraps, (f a).answer⟩

instance : Monad Run where
  pure a := ofOption (some a)
  bind := bind

/-- It neither wraps nor panics. -/
def Clean (r : Run α) : Prop := r.wraps = false ∧ r.answer ≠ .panics

/-- What was found. -/
def found? (r : Run α) : Option α :=
  match r.answer with
  | .found a => some a
  | _ => none

theorem bind_def (r : Run α) (f : α → Run β) : r >>= f = r.bind f := rfl

@[simp] theorem pure_bind (a : α) (f : α → Run β) : (pure a : Run α) >>= f = f a := by
  show Run.bind (ofOption (some a)) f = f a
  simp [Run.bind, ofOption]

@[simp] theorem clean_ofOption (o : Option α) : (ofOption o).Clean := by
  cases o with
  | none => exact ⟨rfl, by simp [ofOption]⟩
  | some a => exact ⟨rfl, by simp [ofOption]⟩

@[simp] theorem clean_pure (a : α) : (pure a : Run α).Clean := clean_ofOption (some a)

@[simp] theorem found?_ofOption (o : Option α) : (ofOption o).found? = o := by
  cases o <;> rfl

@[simp] theorem found?_orPanic (o : Option α) : (orPanic o).found? = o := by
  cases o <;> rfl

@[simp] theorem found?_pure (a : α) : (pure a : Run α).found? = some a := rfl

@[simp] theorem clean_orPanic {o : Option α} : (orPanic o).Clean ↔ o.isSome := by
  cases o <;> simp [orPanic, Clean]

@[simp] theorem found?_bind (r : Run α) (f : α → Run β) :
    (r >>= f).found? = r.found?.bind fun a => (f a).found? := by
  obtain ⟨w, a⟩ := r
  cases a <;> rfl

theorem clean_bind {r : Run α} {f : α → Run β} :
    (r >>= f).Clean ↔ r.Clean ∧ ∀ a, r.found? = some a → (f a).Clean := by
  obtain ⟨w, a⟩ := r
  cases a with
  | panics => simp [bind_def, bind, Clean]
  | nothing => simp [bind_def, bind, Clean, found?]
  | found a =>
    simp only [bind_def, bind, Clean, found?, Option.some.injEq, Bool.or_eq_false_iff]
    simp [and_assoc]

end Run

open Run
open Digits (number)

/-- A number of so many bits. -/
def Fits (bits : ℕ) (x : ℤ) : Prop := -2 ^ (bits - 1) ≤ x ∧ x < 2 ^ (bits - 1)

instance (bits : ℕ) (x : ℤ) : Decidable (Fits bits x) := inferInstanceAs (Decidable (_ ∧ _))

/-- It is made one. -/
def cut (bits : ℕ) (x : ℤ) : Run ℤ := ⟨!decide (Fits bits x), .found (Int.bmod x (2 ^ bits))⟩

/-- `as u8` -/
def asU8 (n : ℕ) : Run ℕ := ⟨!decide (n < 256), .found (n % 256)⟩

/-! ## Dates that leave something out -/

/-- `split_once`: the text before the first character of a kind, and the text after it. -/
def splitOnce (p : Char → Bool) (s : List Char) : List Char × Option (List Char) :=
  match s.dropWhile fun c => !p c with
  | [] => (s, none)
  | _ :: rest => (s.takeWhile fun c => !p c, some rest)

/-- `parse::<u32>`, which takes a sign. -/
def parseU32 (s : List Char) : Option ℕ :=
  let ds := match s with
    | '+' :: ds => ds
    | ds => ds
  if ds ≠ [] ∧ ds.all Char.isDigit ∧ number ds < 2 ^ 32 then some (number ds) else none

/-- Digits of a width. -/
def fixed (width : ℕ) (p : List Char) : Option ℤ :=
  if p.length = width ∧ p.all Char.isDigit then some (number p) else none

/-- A day. -/
def parseDay (s : List Char) : Option Date :=
  match s.splitOn '-' with
  | [y] => do Date.fromCalendarDate (← fixed 4 y) 1 1
  | [y, m] => do Date.fromCalendarDate (← fixed 4 y) (← fixed 2 m) 1
  | [y, m, d] => do Date.fromCalendarDate (← fixed 4 y) (← fixed 2 m) (← fixed 2 d)
  | _ => none

/-- A time to the second. -/
def parseClock (hms : List Char) : Option (ℕ × ℕ × ℕ) :=
  match hms.splitOn ':' with
  | [h] => do some (← parseU32 h, 0, 0)
  | [h, m] => do some (← parseU32 h, ← parseU32 m, 0)
  | [h, m, s] => do some (← parseU32 h, ← parseU32 m, ← parseU32 s)
  | _ => none

/-- The bytes of a text. -/
def byteLen (s : List Char) : ℕ := (s.map Char.utf8Size).sum

/-- `String::truncate`, which panics inside a character. -/
def truncate (n : ℕ) : List Char → Run (List Char)
  | [] => pure []
  | c :: s =>
    if n = 0 then pure []
    else if c.utf8Size ≤ n then do pure (c :: (← truncate (n - c.utf8Size) s))
    else ⟨false, .panics⟩

/-- A fraction, without what follows it. -/
def trimFraction (frac : List Char) : List Char :=
  (frac.reverse.dropWhile fun c => !c.isDigit).reverse

/-- A fraction. -/
def parseFraction (frac : List Char) : Run ℕ :=
  if frac = [] then pure 0
  else do
    let d ← truncate 9 (trimFraction frac)
    ofOption (parseU32 (d ++ List.replicate (9 - byteLen d) '0'))

/-- A time and its fraction. -/
def timeText (t : List Char) : List Char × List Char :=
  let (hms, frac) := splitOnce (· = '.') (t.reverse.dropWhile (· = 'Z')).reverse
  (hms, frac.getD [])

/-- A time. -/
def parseTime (t : List Char) : Run Time := do
  let (h, m, sec) ← ofOption (parseClock (timeText t).1)
  let nanos ← parseFraction (timeText t).2
  let hour ← asU8 h
  let minute ← asU8 m
  let second ← asU8 sec
  ofOption (Time.fromHmsNano hour minute second nanos)

/-- A day and what follows it. -/
def dayAndTime (s : List Char) : List Char × Option (List Char) :=
  splitOnce (fun c => c = 'T' || c = ' ') s

/-- A date. -/
def parsePlain (s : List Char) : Run OffsetDateTime := do
  let date ← ofOption (parseDay (dayAndTime s).1)
  match (dayAndTime s).2 with
  | none => pure ⟨date, Time.midnight⟩
  | some t => do pure ⟨date, ← parseTime t⟩

/-! ## Date math -/

/-- An operation: the unit is one character, where there is one left. -/
inductive Op where
  | round (unit : Option Char)
  | move (unit : Option Char) (n : ℤ)
deriving DecidableEq

/-- How many of a unit. -/
def parseCount (digits : List Char) : Option ℤ :=
  if digits = [] then some 1
  else if number digits < 2 ^ 63 then some (number digits)
  else none

/-- One turn of the loop, as far as it reads: the operator `c` and the text after it. -/
def readOp (c : Char) (tail : List Char) : Option (Op × List Char) :=
  if c = '/' then some (.round tail.head?, tail.tail)
  else if c = '+' ∨ c = '-' then
    let rest := tail.dropWhile Char.isDigit
    (parseCount (tail.takeWhile Char.isDigit)).map fun n =>
      (.move rest.head? (if c = '-' then -n else n), rest.tail)
  else none

/-- A day's first instant. -/
def midnight (d : Date) : OffsetDateTime := ⟨d, Time.midnight⟩

/-- The beginning of a unit. -/
def roundDown (dt : OffsetDateTime) (unit : Option Char) : Run OffsetDateTime :=
  match unit with
  | some 'y' => ofOption ((Date.fromCalendarDate dt.date.year 1 1).map midnight)
  | some 'M' => ofOption ((Date.fromCalendarDate dt.date.year dt.date.month 1).map midnight)
  | some 'w' =>
    orPanic ((Date.ofNumber (dt.date.number - dt.date.numberDaysFromMonday)).map midnight)
  | some 'd' => pure (midnight dt.date)
  | some 'H' | some 'h' =>
    ofOption ((Time.fromHmsNano dt.time.hour 0 0 0).map (⟨dt.date, ·⟩))
  | some 'm' => ofOption ((Time.fromHmsNano dt.time.hour dt.time.minute 0 0).map (⟨dt.date, ·⟩))
  | some 's' =>
    ofOption ((Time.fromHmsNano dt.time.hour dt.time.minute dt.time.second 0).map (⟨dt.date, ·⟩))
  | _ => ofOption none

/-- The day of a month, or its last. -/
def dayIn (dt : OffsetDateTime) (year month : ℤ) : ℤ :=
  min dt.date.day (Civil.monthDays year (month - 1))

/-- So many months on, counted. -/
def monthsOn (dt : OffsetDateTime) (n : ℤ) : ℤ := dt.date.year * 12 + (dt.date.month - 1) + n

/-- So many months on. -/
def shiftMonths (dt : OffsetDateTime) (n : ℤ) : Run OffsetDateTime := do
  let total ← cut 64 (monthsOn dt n)
  let y ← cut 32 (total / 12)
  let m := total % 12 + 1
  let date ← ofOption (Date.fromCalendarDate y m (dayIn dt y m))
  pure ⟨date, dt.time⟩

/-- `Duration::days` and its like: the seconds of `n` units. -/
def duration (unitSeconds n : ℤ) : Run ℤ :=
  orPanic (if Fits 64 (n * unitSeconds) then some (n * unitSeconds) else none)

/-- `dt + Duration` -/
def plus (dt : OffsetDateTime) (seconds : ℤ) : Run OffsetDateTime := orPanic (dt.checkedAdd seconds)

/-- An operation. -/
def applyOp (dt : OffsetDateTime) : Op → Run OffsetDateTime
  | .round unit => roundDown dt unit
  | .move unit n =>
    match unit with
    | some 'y' => do shiftMonths dt (← cut 64 (n * 12))
    | some 'M' => shiftMonths dt n
    | some 'w' => do plus dt (← duration 86400 (← cut 64 (n * 7)))
    | some 'd' => do plus dt (← duration 86400 n)
    | some 'H' | some 'h' => do plus dt (← duration 3600 n)
    | some 'm' => do plus dt (← duration 60 n)
    | some 's' => do plus dt (← duration 1 n)
    | _ => ofOption none

/-- The unit that was rounded to. -/
def Op.rounded (op : Op) (before : Option Char) : Option Char :=
  match op with
  | .round unit => unit
  | .move _ _ => before

theorem length_of_readOp {c : Char} {tail rest : List Char} {op : Op}
    (h : readOp c tail = some (op, rest)) : rest.length < (c :: tail).length := by
  have hdrop : (tail.dropWhile Char.isDigit).length ≤ tail.length :=
    (List.dropWhile_sublist _).length_le
  unfold readOp at h
  split at h
  · cases h
    rw [List.length_tail, List.length_cons]
    omega
  · split at h
    · obtain ⟨n, _, heq⟩ := Option.map_eq_some_iff.mp h
      obtain ⟨_, rfl⟩ := Prod.mk.inj heq
      rw [List.length_tail, List.length_cons]
      omega
    · cases h

/-- The operations one after another. -/
def mathLoop (dt : OffsetDateTime) (rounded : Option Char) (rest : List Char) :
    Run (OffsetDateTime × Option Char) :=
  match rest with
  | [] => pure (dt, rounded)
  | c :: tail =>
    match h : readOp c tail with
    | none => ofOption none
    | some (op, rest') => do
      have := length_of_readOp h
      let dt' ← applyOp dt op
      mathLoop dt' (op.rounded rounded) rest'
termination_by rest.length
decreasing_by assumption

/-- `split_once("||")` -/
def splitBars : List Char → Option (List Char × List Char)
  | '|' :: '|' :: rest => some ([], rest)
  | c :: rest => (splitBars rest).map fun x => (c :: x.1, x.2)
  | [] => none

theorem length_of_splitBars {s a o : List Char} (h : splitBars s = some (a, o)) :
    a.length < s.length := by
  induction s using splitBars.induct generalizing a with
  | case1 rest =>
    rw [splitBars] at h
    cases h
    simp
  | case2 c rest hno ih =>
    rw [splitBars.eq_2 _ _ hno] at h
    obtain ⟨⟨a', o'⟩, hrest, heq⟩ := Option.map_eq_some_iff.mp h
    cases heq
    have := ih hrest
    simp
    omega
  | case3 =>
    rw [splitBars] at h
    cases h

/-- `strip_prefix("now")` -/
def stripNow : List Char → Option (List Char)
  | 'n' :: 'o' :: 'w' :: rest => some rest
  | _ => none

/-- The text is an expression. -/
def isMath (s : List Char) : Bool := (splitBars s).isSome || (stripNow s).isSome

/-! ## The two functions -/

section Reading

variable (parseDatetime : List Char → Option OffsetDateTime) (nowUtc : OffsetDateTime)

mutual

/-- A date, or an expression that is one. -/
def parseDateLenient (s : List Char) : Run OffsetDateTime :=
  match parseDatetime s with
  | some dt => pure dt
  | none =>
    if isMath s then do pure (← parseDateMath s).1
    else parsePlain s
termination_by (s.length, 1)

/-- An expression. -/
def parseDateMath (s : List Char) : Run (OffsetDateTime × Option Char) :=
  match h : splitBars s with
  | some (a, o) => do
    have := length_of_splitBars h
    mathLoop (← parseDateLenient a) none o
  | none => do mathLoop nowUtc none (← ofOption (stripNow s))
termination_by (s.length, 0)

end

end Reading

end Velosearch.DateText

import Velosearch.Ism.Engine
import Velosearch.Ism.Jobs
import Velosearch.Lib.Digits
import Mathlib.Data.List.TakeWhile

/-!
# The ages of a policy

`duration_ms` and `met` of `src/ism/engine.rs`, the conditions of a rollover under a policy
(`rollover_conditions_met` of `src/ism/actions.rs`) and of one that is asked for (`rollover` of
`src/api/indices/resize.rs`).

* A duration is a number and a unit; the milliseconds it comes to are worked out in 64 bits.
* `asks` is the same product among the whole numbers.
* Sizes are read into floating point, and are whatever they are read as.
-/

set_option autoImplicit false

namespace Velosearch.Managed

open Ism (wrap I64)
open Text (trim)

/-! ## Durations -/

/-- A value of a condition: a whole number, a text, or anything else as it is printed. -/
inductive Value where
  | int (n : ℤ)
  | text (t : List Char)
  | other (printed : List Char)

/-- A number that is one of 64 bits. -/
def Value.asI64 : Value → Option ℤ
  | .int n => if I64 n then some n else none
  | _ => none

/-- What is not read here: the letters beyond ASCII, and sizes. -/
structure Outside where
  letters : Char → Bool
  bytes : Value → Option ℤ
  parseSize : List Char → Option ℕ

/-- A letter. -/
def Outside.isAlphabetic (o : Outside) (c : Char) : Bool :=
  if c.toNat < 128 then c.isAlpha else o.letters c

/-- A whole number. -/
def parseInt : List Char → Option ℤ
  | '-' :: ds => if ds ≠ [] ∧ ds.all Char.isDigit then some (-(Digits.number ds : ℤ)) else none
  | '+' :: ds => if ds ≠ [] ∧ ds.all Char.isDigit then some (Digits.number ds) else none
  | ds => if ds ≠ [] ∧ ds.all Char.isDigit then some (Digits.number ds) else none

/-- How long a unit is. -/
def unitMs : List Char → Option ℤ
  | ['d'] => some 86400000
  | ['h'] => some 3600000
  | ['m'] => some 60000
  | ['s'] => some 1000
  | ['m', 's'] => some 1
  | [] => some 1
  | _ => none

section

variable (o : Outside)

/-- What an age says, as a number of a unit. -/
def written : Value → Option (ℤ × ℤ)
  | .int n => some (n, 1)
  | .text t =>
    let text := trim t
    let number := text.takeWhile fun c => !o.isAlphabetic c
    let unit := text.dropWhile fun c => !o.isAlphabetic c
    (parseInt (trim number)).bind fun n => (unitMs (trim unit)).map fun u => (n, u)
  | .other _ => none

/-- What it is taken for. -/
def durationMs : Value → Option ℤ
  | .int n => Value.asI64 (.int n)
  | .text t =>
    let text := trim t
    let number := text.takeWhile fun c => !o.isAlphabetic c
    let unit := text.dropWhile fun c => !o.isAlphabetic c
    ((parseInt (trim number)).filter fun n => I64 n).bind fun n =>
      (unitMs (trim unit)).map fun u => wrap (n * u)
  | .other _ => none

/-- What it asks for. -/
def asks (v : Value) : Option ℤ :=
  (written o v).map fun p => p.1 * p.2

/-- It is taken for what it asks for, or refused. -/
def Read (v : Value) : Prop :=
  durationMs o v = none ∨ durationMs o v = asks o v

/-- The milliseconds of a number that is read have room in 64 bits. -/
def Fits (v : Value) : Prop :=
  ∀ n u : ℤ, written o v = some (n, u) → I64 n → I64 (n * u)

/-! ## Conditions -/

/-- A condition of a transition. -/
def Value.holds (f : Facts) (now entered : ℤ) (name : String) (v : Value) : Bool :=
  if name = "min_index_age" then
    (durationMs o v).getD i64Max ≤ (f.creationDate.map fun made => wrap (now - made)).getD 0
  else if name = "min_state_age" then (durationMs o v).getD i64Max ≤ wrap (now - entered)
  else if name = "min_doc_count" then v.asI64.getD i64Max ≤ f.documents.getD 0
  else if name = "min_size" then (o.bytes v).getD i64Max ≤ f.size
  else if name = "min_rollover_age" then
    (durationMs o v).getD i64Max ≤ wrap (now - f.rolloverTime.getD i64Max)
  else false

/-- All of them. -/
def metBy (f : Facts) (now entered : ℤ) (conditions : List (String × Value)) : Bool :=
  conditions.all fun c => c.2.holds o f now entered c.1

/-- `rollover_conditions_met`, of the conditions a policy gives. -/
def rolloverConditionsMet (f : Facts) (now : ℤ) (maxAge maxDocs maxSize : Option Value) : Bool :=
  if maxAge.isNone && maxDocs.isNone && maxSize.isNone then true
  else
    maxAge.any (fun v => (durationMs o v).getD i64Max ≤ wrap (now - f.creationDate.getD now)) ||
      maxDocs.any (fun v => v.asI64.getD i64Max ≤ f.documents.getD 0) ||
      maxSize.any (fun v => (o.bytes v).getD i64Max ≤ f.size)

/-- A value as a message has it. -/
def Value.shown : Value → List Char
  | .int n => Digits.signed n
  | .text t => t
  | .other printed => printed

/-- A number that is none below zero. -/
def Value.asU64 : Value → Option ℤ
  | .int n => if 0 ≤ n ∧ n < 2 ^ 64 then some n else none
  | _ => none

/-- A condition of a rollover. -/
def Value.hit (f : Facts) (now : ℤ) (name : String) (v : Value) : Bool :=
  if name = "max_docs" then v.asU64.getD (2 ^ 64 - 1) ≤ f.documents.getD 0
  else if name = "max_size" ∨ name = "max_primary_shard_size" then
    (o.parseSize v.shown).any fun limit => (limit : ℤ) ≤ f.size
  else if name = "max_age" then
    (durationMs o (.text v.shown)).any fun span => span ≤ wrap (now - f.creationDate.getD now)
  else false

/-- `met` of the endpoint -/
def rolloverMet (f : Facts) (now : ℤ) (conditions : List (String × Value)) : Bool :=
  conditions.isEmpty || conditions.any fun c => c.2.hit o f now c.1

/-- At no moment is a condition that asks for the one met and the same that asks for the other not,
if the other is no longer. -/
def InOrder (a b : Value) : Prop :=
  (durationMs o a).isSome → (durationMs o b).isSome →
    ∀ x y, asks o a = some x → asks o b = some y → x ≤ y →
      (∀ (f : Facts) (now entered : ℤ) (name : String) (before after : List (String × Value)),
        name ∈ ["min_index_age", "min_state_age", "min_rollover_age"] →
          metBy o f now entered (before ++ (name, b) :: after) →
            metBy o f now entered (before ++ (name, a) :: after)) ∧
      (∀ (f : Facts) (now : ℤ) (maxDocs maxSize : Option Value),
        rolloverConditionsMet o f now (some b) maxDocs maxSize →
          rolloverConditionsMet o f now (some a) maxDocs maxSize) ∧
      ∀ (f : Facts) (now : ℤ) (before after : List (String × Value)),
        rolloverMet o f now (before ++ ("max_age", b) :: after) →
          rolloverMet o f now (before ++ ("max_age", a) :: after)

/-- The duration is read as what it asks for, and stands where it should among the durations that
are. -/
def Exact (v : Value) : Prop :=
  Read o v ∧ ∀ w, Read o w → InOrder o v w ∧ InOrder o w v

/-! ## What is read -/

variable {o}

theorem i64_wrap (n : ℤ) : I64 (wrap n) := by
  have low := Int.le_bmod (x := n) (m := 2 ^ 64) (by decide)
  have high := Int.bmod_lt (x := n) (m := 2 ^ 64) (by decide)
  unfold wrap
  constructor <;> omega

theorem wrap_eq_iff {n : ℤ} : wrap n = n ↔ I64 n := by
  constructor
  · intro same
    rw [← same]
    exact i64_wrap n
  · exact Ism.wrap_of_i64

/-- An age is what it says, within 64 bits. -/
theorem durationMs_eq (v : Value) :
    durationMs o v = ((written o v).filter fun p => I64 p.1).map fun p => wrap (p.1 * p.2) := by
  cases v with
  | int n =>
    by_cases fits : I64 n
    · simp [durationMs, Value.asI64, written, fits, Ism.wrap_of_i64 fits]
    · simp [durationMs, Value.asI64, written, fits]
  | other printed => rfl
  | text t =>
    simp only [durationMs, written]
    cases parseInt (trim ((trim t).takeWhile fun c => !o.isAlphabetic c)) with
    | none => rfl
    | some n =>
      cases unitMs (trim ((trim t).dropWhile fun c => !o.isAlphabetic c)) with
      | none => simp
      | some u => by_cases fits : I64 n <;> simp [Option.filter, fits]

/-- It is read right where that has room. -/
theorem read_iff {v : Value} : Read o v ↔ Fits o v := by
  unfold Read Fits asks
  rw [durationMs_eq]
  cases written o v with
  | none => simp
  | some p =>
    obtain ⟨n, u⟩ := p
    by_cases fits : I64 n
    · simp only [Option.filter_some, fits, decide_true, if_true, Option.map_some, reduceCtorEq,
        false_or, Option.some.injEq, wrap_eq_iff]
      constructor
      · intro room n' u' same _
        cases same
        exact room
      · intro room
        exact room n u rfl fits
    · simp only [Option.filter_some, fits, decide_false, Bool.false_eq_true, if_false,
        Option.map_none, true_or, true_iff]
      intro n' u' same inside
      cases same
      exact absurd inside fits

/-! ## Numbers as they are shown -/

theorem digit_plain {c : Char} (digit : c.isDigit) :
    Text.isWhiteSpace c = false ∧ o.isAlphabetic c = false ∧ c ≠ '-' ∧ c ≠ '+' := by
  simp only [Char.isDigit, Bool.and_eq_true, decide_eq_true_eq, ge_iff_le] at digit
  have low : 48 ≤ c.toNat := UInt32.le_iff_toNat_le.mp digit.1
  have high : c.toNat ≤ 57 := UInt32.le_iff_toNat_le.mp digit.2
  refine ⟨?_, ?_, ?_, ?_⟩
  · simp only [Text.isWhiteSpace, Bool.or_eq_false_iff, Bool.and_eq_false_iff, beq_eq_false_iff_ne,
      decide_eq_false_iff_not]
    omega
  · rw [Outside.isAlphabetic, if_pos (by omega)]
    have value : c.val.toNat = c.toNat := rfl
    simp only [Char.isAlpha, Char.isUpper, Char.isLower, Bool.or_eq_false_iff,
      Bool.and_eq_false_iff, decide_eq_false_iff_not, ge_iff_le, UInt32.le_iff_toNat_le, value]
    have upper : 'A'.val.toNat = 65 := rfl
    have lower : 'a'.val.toNat = 97 := rfl
    omega
  · rintro rfl
    revert low
    decide
  · rintro rfl
    revert low
    decide

theorem trim_plain {t : List Char} (plain : ∀ c ∈ t, Text.isWhiteSpace c = false) : trim t = t := by
  have stay : ∀ s : List Char, (∀ c ∈ s, Text.isWhiteSpace c = false) →
      s.dropWhile Text.isWhiteSpace = s := by
    intro s hs
    cases s with
    | nil => rfl
    | cons c s => rw [List.dropWhile_cons_of_neg (by simp [hs c List.mem_cons_self])]
  rw [trim, stay t plain, stay t.reverse (by simpa using plain), List.reverse_reverse]

/-- A plain number is one of milliseconds. -/
theorem written_plain {t : List Char}
    (plain : ∀ c ∈ t, Text.isWhiteSpace c = false ∧ o.isAlphabetic c = false) :
    written o (.text t) = (parseInt t).map fun n => (n, 1) := by
  have number : t.takeWhile (fun c => !o.isAlphabetic c) = t := by
    apply List.takeWhile_eq_self_iff.mpr
    intro c hc
    simp [(plain c hc).2]
  have unit : t.dropWhile (fun c => !o.isAlphabetic c) = [] := by
    apply List.dropWhile_eq_nil_iff.mpr
    intro c hc
    simp [(plain c hc).2]
  have trimmed : trim t = t := trim_plain fun c hc => (plain c hc).1
  simp only [written, trimmed, number, unit]
  cases parseInt t <;> rfl

theorem parseInt_toDigits (n : ℕ) : parseInt (Nat.toDigits 10 n) = some (n : ℤ) := by
  have digits : ∀ c ∈ Nat.toDigits 10 n, c.isDigit := fun c hc => Digits.isDigit_toDigits hc
  have all : (Nat.toDigits 10 n).all Char.isDigit := List.all_eq_true.mpr digits
  have ne : Nat.toDigits 10 n ≠ [] := Nat.toDigits_ne_nil
  have value := Digits.number_toDigits n
  revert digits all ne value
  generalize Nat.toDigits 10 n = ds
  intro digits all ne value
  unfold parseInt
  split
  next ds =>
    have := digits '-' List.mem_cons_self
    simp at this
  next ds =>
    have := digits '+' List.mem_cons_self
    simp at this
  next => rw [if_pos ⟨ne, all⟩, value]

theorem written_shown (n : ℤ) : written o (.text (Value.int n).shown) = some (n, 1) := by
  have plain : ∀ c ∈ Digits.signed n, Text.isWhiteSpace c = false ∧ o.isAlphabetic c = false := by
    intro c hc
    cases Digits.mem_signed hc with
    | inl digit =>
      have plain := digit_plain (o := o) digit
      exact ⟨plain.1, plain.2.1⟩
    | inr minus =>
      subst minus
      exact ⟨by decide, rfl⟩
  rw [Value.shown, written_plain plain]
  cases n with
  | ofNat n =>
    rw [Digits.signed, parseInt_toDigits]
    rfl
  | negSucc n =>
    have all : (Nat.toDigits 10 (n + 1)).all Char.isDigit := by
      apply List.all_eq_true.mpr
      intro c hc
      exact Digits.isDigit_toDigits hc
    have ne : Nat.toDigits 10 (n + 1) ≠ [] := Nat.toDigits_ne_nil
    rw [Digits.signed, parseInt, if_pos ⟨ne, all⟩, Digits.number_toDigits]
    rfl

/-- A number as text is the same age. -/
theorem durationMs_shown {v : Value} (read : (durationMs o v).isSome) :
    durationMs o (.text v.shown) = durationMs o v := by
  cases v with
  | int n => rw [durationMs_eq, durationMs_eq, written_shown, written]
  | text t => rfl
  | other printed => simp [durationMs] at read

/-! ## Conditions in order -/

/-- Ages that are read right are in the order they say. -/
theorem inOrder_of_read {a b : Value} (ha : Read o a) (hb : Read o b) : InOrder o a b := by
  intro someA someB x y asksA asksB le
  have readA : durationMs o a = some x := by
    cases ha with
    | inl none => simp [none] at someA
    | inr same => rw [same, asksA]
  have readB : durationMs o b = some y := by
    cases hb with
    | inl none => simp [none] at someB
    | inr same => rw [same, asksB]
  refine ⟨?_, ?_, ?_⟩
  · intro f now entered name before after age met
    have held : b.holds o f now entered name → a.holds o f now entered name := by
      simp only [List.mem_cons, List.not_mem_nil, or_false] at age
      obtain rfl | rfl | rfl := age
      all_goals
        simp only [Value.holds, readA, readB, Option.getD_some, String.reduceEq, if_true, if_false,
          decide_eq_true_eq]
        intro h
        exact Int.le_trans le h
    simp only [metBy, List.all_append, List.all_cons, Bool.and_eq_true] at met ⊢
    exact ⟨met.1, held met.2.1, met.2.2⟩
  · intro f now maxDocs maxSize met
    simp only [rolloverConditionsMet, Option.isNone_some, Bool.false_and, Bool.false_eq_true,
      if_false, Option.any_some, readA, readB, Option.getD_some, Bool.or_eq_true,
      decide_eq_true_eq] at met ⊢
    cases met with
    | inl met =>
      cases met with
      | inl old => exact .inl (.inl (Int.le_trans le old))
      | inr docs => exact .inl (.inr docs)
    | inr size => exact .inr size
  · intro f now before after met
    have hit : b.hit o f now "max_age" → a.hit o f now "max_age" := by
      simp only [Value.hit, durationMs_shown someA, durationMs_shown someB, readA, readB,
        String.reduceEq, or_self, if_true, if_false, Option.any_some, decide_eq_true_eq]
      intro h
      exact Int.le_trans le h
    simp only [rolloverMet, List.any_append, List.any_cons, Bool.or_eq_true] at met ⊢
    obtain empty | met | met | met := met
    · simp at empty
    · exact .inr (.inl met)
    · exact .inr (.inr (.inl (hit met)))
    · exact .inr (.inr (.inr met))

/-- Ages are exact where the milliseconds of what is written have room in 64 bits, and only
there. -/
theorem exact_iff_fits (o : Outside) (v : Value) : Exact o v ↔ Fits o v := by
  constructor
  · intro exact
    exact read_iff.mp exact.1
  · intro fits
    have read := read_iff.mpr fits
    refine ⟨read, ?_⟩
    intro w readW
    exact ⟨inOrder_of_read read readW, inOrder_of_read readW read⟩

end

def plainText : Outside := ⟨fun _ => false, fun _ => none, fun _ => none⟩

/-- An age of 292 million years is met by an index that is made now, and that of a day is not. -/
theorem days_gone_round :
    durationMs plainText (.text "106751991168d".toList) = some (-9223372036794351616) ∧
      asks plainText (.text "106751991168d".toList) = some 9223372036915200000 ∧
      metBy plainText ⟨some 0, none, 0, none⟩ 0 0
        [("min_index_age", .text "106751991168d".toList)] = true ∧
      metBy plainText ⟨some 0, none, 0, none⟩ 0 0 [("min_index_age", .text "1d".toList)] = false := by
  decide

end Velosearch.Managed

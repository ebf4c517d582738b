import Velosearch.Search.Doubles

/-!
# The values a search sorts by

`SortValue` of `src/search/mod.rs`, with its order and the JSON it is printed as, and
`sort_value_from_json` of `src/search/sort.rs`.

An integer becomes a double by rounding to 53 bits, to the nearest and among two to the even one.
-/

set_option autoImplicit false

namespace Velosearch.Search

/-- A value that is sorted by. -/
inductive SortValue where
  | i64 (v : ℤ)
  | u64 (v : ℕ)
  | f64 (v : F64)
  | str (s : String)
  | missing
  deriving DecidableEq

namespace SortValue

/-- The same as a double. -/
def asF64 : SortValue → Option F64
  | .i64 v => some (F64.ofInt v)
  | .u64 v => some (F64.ofInt v)
  | .f64 v => some v
  | _ => none

/-- One against another. -/
def cmpAsc : SortValue → SortValue → Ordering
  -- a missing value sorts last
  | .missing, .missing => .eq
  | .missing, _ => .gt
  | _, .missing => .lt
  | .i64 a, .i64 b => compare a b
  | .u64 a, .u64 b => compare a b
  | .str a, .str b => compare a b
  | .str _, _ => .gt
  | _, .str _ => .lt
  | a, b => (do (← a.asF64).partialCmp (← b.asF64)).getD .eq

end SortValue

example : F64.roundInt (2 ^ 53 + 1) = 2 ^ 53 := by decide +kernel

example : SortValue.cmpAsc (.i64 (2 ^ 53 + 1)) (.u64 (2 ^ 53)) = .eq := by decide +kernel

/-! ## As JSON -/

/-- A JSON value. -/
inductive Json where
  | null
  | int (n : ℤ)
  | float (x : F64)
  | str (s : String)
  | other (text : String)
  deriving DecidableEq

/-- `as i64`, of a double: towards zero, and no further than the bounds. -/
def F64.toI64 : F64 → ℤ
  | .nan => 0
  | .negInf => -2 ^ 63
  | .posInf => 2 ^ 63 - 1
  | .fin q => max (-2 ^ 63) (min (2 ^ 63 - 1) (if 0 ≤ q then ⌊q⌋ else ⌈q⌉))

/-- `as_f64`, of a number. -/
def Json.asF64 : Json → Option F64
  | .int n => some (F64.ofInt n)
  | .float x => some x
  | _ => none

/-- `as_i64`, of a number. -/
def Json.asI64 : Json → Option ℤ
  | .int n => if -2 ^ 63 ≤ n ∧ n < 2 ^ 63 then some n else none
  | _ => none

/-- The value as the answer has it. -/
def SortValue.toJson : SortValue → Json
  | .i64 v => .int v
  | .u64 v => .int v
  | .f64 (.fin q) => if q.den = 1 ∧ |q| < 9000000000000000 then .int q.num else .float (.fin q)
  -- JSON has no other doubles
  | .f64 _ => .null
  | .str s => .str s
  | .missing => .null

/-- `sort_value_from_json`, with what a date is read from a text as. -/
def sortValueFromJson (readDate : Bool → String → Option ℤ) (date : Option Bool) :
    Json → SortValue
  | .null => .missing
  | .str s =>
    match date with
    | some nanos => ((readDate nanos s).map SortValue.i64).getD (.str s)
    | none => .str s
  | .other text => .str text
  | number =>
    match date with
    | some _ => .i64 (number.asI64.getD 0)
    | none => .f64 (number.asF64.getD (.fin 0))

end Velosearch.Search

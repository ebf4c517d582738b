import Mathlib.Data.Rat.Defs
import Mathlib.Algebra.Order.Ring.Rat
import Mathlib.Algebra.Order.Floor.Semiring
import Mathlib.Data.Rat.Floor
import Mathlib.Data.Int.Log

/-!
# Doubles

A double is what it is worth: a rational number, an infinity or no number. The two zeros are
one here: nothing below tells them apart, there being no division by a zero that has a sign. What
an operation comes to is rounded to the nearest double, and among two to the even one.
-/

set_option autoImplicit false

namespace Velosearch.Search

/-- Doubles, by what they are worth. -/
inductive F64 where
  | nan
  | negInf
  | fin (q : ℚ)
  | posInf
  deriving DecidableEq

namespace F64

/-- One against another. -/
def partialCmp : F64 → F64 → Option Ordering
  | .nan, _ => none
  | _, .nan => none
  | .negInf, .negInf => some .eq
  | .negInf, _ => some .lt
  | _, .negInf => some .gt
  | .posInf, .posInf => some .eq
  | .posInf, _ => some .gt
  | _, .posInf => some .lt
  | .fin p, .fin q => some (compare p q)

/-! ## Rounding -/

/-- A whole number, rounded to 53 bits. -/
def roundNat (n : ℕ) : ℕ :=
  -- the bits that are dropped
  let e := Nat.log2 n - 52
  let q := n / 2 ^ e
  let r := n % 2 ^ e
  if 2 * r < 2 ^ e then q * 2 ^ e
  else if 2 ^ e < 2 * r then (q + 1) * 2 ^ e
  else (q + q % 2) * 2 ^ e

/-- The same with a sign. -/
def roundInt (n : ℤ) : ℤ :=
  n.sign * roundNat n.natAbs

/-- `as f64` -/
def ofInt (n : ℤ) : F64 :=
  .fin (roundInt n)

/-- A number rounded, halves to the even one. -/
def roundEven (q : ℚ) : ℤ :=
  let part := q - ⌊q⌋
  if part < 1 / 2 then ⌊q⌋
  else if 1 / 2 < part then ⌊q⌋ + 1
  else ⌊q⌋ + ⌊q⌋ % 2

/-- The double nearest to a number: 53 bits, fewer below the least power of two, and an infinity
past the greatest. -/
def nearest (q : ℚ) : F64 :=
  if q = 0 then .fin 0
  else
    let unit : ℚ := 2 ^ max (Int.log 2 |q| - 52) (-1074)
    let x := roundEven (q / unit) * unit
    if 2 ^ 1024 ≤ x then .posInf else if x ≤ -2 ^ 1024 then .negInf else .fin x

/-! ## Arithmetic -/

/-- An infinity of the sign of a number. -/
def infinite (positive : Bool) : F64 :=
  if positive then .posInf else .negInf

def neg : F64 → F64
  | .nan => .nan
  | .negInf => .posInf
  | .fin q => .fin (-q)
  | .posInf => .negInf

def abs : F64 → F64
  | .fin q => .fin |q|
  | .negInf => .posInf
  | x => x

/-- A sum, rounded. -/
def add : F64 → F64 → F64
  | .fin p, .fin q => nearest (p + q)
  | .nan, _ | _, .nan => .nan
  | .posInf, .negInf | .negInf, .posInf => .nan
  | .posInf, _ | _, .posInf => .posInf
  | .negInf, _ | _, .negInf => .negInf

/-- A product, rounded. -/
def mul : F64 → F64 → F64
  | .fin p, .fin q => nearest (p * q)
  | .nan, _ | _, .nan => .nan
  | .fin q, .posInf | .posInf, .fin q => if q = 0 then .nan else infinite (decide (0 < q))
  | .fin q, .negInf | .negInf, .fin q => if q = 0 then .nan else infinite (decide (q < 0))
  | .posInf, .posInf | .negInf, .negInf => .posInf
  | .posInf, .negInf | .negInf, .posInf => .negInf

/-- A quotient, rounded. -/
def div : F64 → F64 → F64
  | .fin p, .fin q =>
    if q = 0 then if p = 0 then .nan else infinite (decide (0 < p)) else nearest (p / q)
  | .nan, _ | _, .nan => .nan
  | .fin _, _ => .fin 0
  | .posInf, .fin q => infinite (decide (0 ≤ q))
  | .negInf, .fin q => infinite (decide (q < 0))
  | _, _ => .nan

instance instAddF64 : Add F64 := ⟨add⟩
instance instSubF64 : Sub F64 := ⟨fun x y => add x (neg y)⟩
instance instMulF64 : Mul F64 := ⟨mul⟩
instance instDivF64 : Div F64 := ⟨div⟩

/-- `<=`, which is false of what is no number. -/
def le (x y : F64) : Bool :=
  match x.partialCmp y with
  | some .lt | some .eq => true
  | _ => false

end F64

end Velosearch.Search

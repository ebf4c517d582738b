import Velosearch.Painless.Operators

/-!
# Whole numbers as Java has them

An `int` is 32 bits and a `long` is 64. An operator widens an `int` that meets a `long`, a shift
looks at its left side only, and what does not fit wraps around. Against this stands what `unary`
and `binary` do, and the range of the numbers a script comes by.
-/

set_option autoImplicit false

namespace Velosearch
namespace Painless

/-! ## Java -/

/-- An `int` or a `long`. -/
inductive Whole where
  | int (v : BitVec 32)
  | long (v : BitVec 64)

namespace Whole

/-- The same as a value of the interpreter. -/
def value : Whole → Value
  | .int v => .int v.toInt
  | .long v => .long v.toInt

/-- As a `long`. -/
def widened : Whole → BitVec 64
  | .int v => v.signExtend 64
  | .long v => v

/-- As an `int`. -/
def narrowed : Whole → BitVec 32
  | .int v => v
  | .long v => v.setWidth 32

/-- Its bits as a number. -/
def unsigned : Whole → ℕ
  | .int v => v.toNat
  | .long v => v.toNat

/-- It is an `int`. -/
def isInt : Whole → Bool
  | .int _ => true
  | .long _ => false

/-- The number it is. -/
def number : Whole → ℤ
  | .int v => v.toInt
  | .long v => v.toInt

/-- A result kept in a variable of the other's width. -/
def stored : Whole → Whole → Whole
  | .int _, r => .int r.narrowed
  | .long _, r => .long r.widened

end Whole

/-- The operators Java has on whole numbers. -/
inductive JavaOp where
  | add
  | sub
  | mul
  | div
  | rem
  | and
  | or
  | xor
  | shl
  | shr
  | ushr
  deriving DecidableEq

namespace JavaOp

/-- How one is written. -/
def text : JavaOp → String
  | .add => "+"
  | .sub => "-"
  | .mul => "*"
  | .div => "/"
  | .rem => "%"
  | .and => "&"
  | .or => "|"
  | .xor => "^"
  | .shl => "<<"
  | .shr => ">>"
  | .ushr => ">>>"

/-- It shifts. -/
def isShift : JavaOp → Bool
  | .shl | .shr | .ushr => true
  | _ => false

variable {w : ℕ}

/-- The operator within one width. -/
def met (x y : BitVec w) : JavaOp → Option (BitVec w)
  | .add => some (x + y)
  | .sub => some (x - y)
  | .mul => some (x * y)
  | .div => if y = 0 then none else some (x.sdiv y)
  | .rem => if y = 0 then none else some (x.srem y)
  | .and => some (x &&& y)
  | .or => some (x ||| y)
  | .xor => some (x ^^^ y)
  | .shl | .shr | .ushr => none

/-- A shift within one width. -/
def shifted (x : BitVec w) (count : ℕ) : JavaOp → BitVec w
  | .shl => x <<< count
  | .shr => x.sshiftRight count
  | _ => x >>> count

/-- A shift, by as much of the count as the width goes by. -/
def javaShift (op : JavaOp) (b : Whole) : Whole → Whole
  | .int x => .int (op.shifted x (b.unsigned % 32))
  | .long x => .long (op.shifted x (b.unsigned % 64))

/-- The operator on two numbers, widened where one is. -/
def javaMet (op : JavaOp) : Whole → Whole → Option Whole
  | .int x, .int y => (op.met x y).map .int
  | .int x, .long y => (op.met (x.signExtend 64) y).map .long
  | .long x, .int y => (op.met x (y.signExtend 64)).map .long
  | .long x, .long y => (op.met x y).map .long

/-- What Java makes of them. -/
def java (op : JavaOp) (a b : Whole) : Option Whole :=
  if op.isShift then some (op.javaShift b a) else op.javaMet a b

/-- What Java stores for `a op= b`: as much of the answer as the type of `a` holds. -/
def javaCompound (op : JavaOp) (a b : Whole) : Option Whole :=
  (op.java a b).map a.stored

end JavaOp

/-- The interpreter's answer is Java's. -/
def Agrees (java : Option Whole) (answer : Except String Value) : Prop :=
  match java with
  | some r => answer = .ok r.value
  | none => ∃ message, answer = .error message

/-! ## The operators of two sides -/

variable {w : ℕ}

/-- A number that has room is as it was. -/
theorem wrap_toInt (v : BitVec w) : wrap w v.toInt = v.toInt := by
  simp [wrap]

theorem wrap_wrap {w' : ℕ} (h : w ≤ w') (n : ℤ) : wrap w (wrap w' n) = wrap w n := by
  simp [wrap, Int.bmod_bmod_of_dvd (Nat.pow_dvd_pow 2 h)]

/-- A sum wraps as Java's does. -/
theorem wrap_add (x y : BitVec w) : wrap w (x.toInt + y.toInt) = (x + y).toInt := by
  simp [wrap]

theorem wrap_sub (x y : BitVec w) : wrap w (x.toInt - y.toInt) = (x - y).toInt := by
  simp [wrap]

theorem wrap_mul (x y : BitVec w) : wrap w (x.toInt * y.toInt) = (x * y).toInt := by
  simp [wrap]

/-- So does a quotient. -/
theorem wrap_sdiv (x y : BitVec w) : wrap w (x.toInt.tdiv y.toInt) = (x.sdiv y).toInt := by
  simp [wrap, BitVec.toInt_sdiv]

theorem wrap_srem (x y : BitVec w) : wrap w (x.toInt.tmod y.toInt) = (x.srem y).toInt := by
  rw [← BitVec.toInt_srem, wrap_toInt]

theorem toInt_eq_zero (x : BitVec w) : x.toInt = 0 ↔ x = 0 := by
  rw [← BitVec.toInt_inj]
  simp

theorem inBits_toInt (x : BitVec w) (f : BitVec w → BitVec w) :
    inBits w x.toInt f = (f x).toInt := by
  simp [inBits]

theorem inBits_and (x y : BitVec 32) :
    inBits 64 x.toInt (· &&& BitVec.ofInt 64 y.toInt) = (x &&& y).toInt := by
  show (x.signExtend 64 &&& y.signExtend 64).toInt = _
  rw [← BitVec.signExtend_and, BitVec.toInt_signExtend_of_le (by decide)]

theorem inBits_or (x y : BitVec 32) :
    inBits 64 x.toInt (· ||| BitVec.ofInt 64 y.toInt) = (x ||| y).toInt := by
  show (x.signExtend 64 ||| y.signExtend 64).toInt = _
  rw [← BitVec.signExtend_or, BitVec.toInt_signExtend_of_le (by decide)]

theorem inBits_xor (x y : BitVec 32) :
    inBits 64 x.toInt (· ^^^ BitVec.ofInt 64 y.toInt) = (x ^^^ y).toInt := by
  show (x.signExtend 64 ^^^ y.signExtend 64).toInt = _
  rw [← BitVec.signExtend_xor, BitVec.toInt_signExtend_of_le (by decide)]

/-- The operators on two `int`s. -/
theorem ints_meet {op : JavaOp} (stays : op.isShift = false) (x y : BitVec 32) :
    Agrees ((op.met x y).map .int) (wholeBinary op.text false x.toInt y.toInt) := by
  have narrow (n : ℤ) : asI32 (wrap 64 n) = wrap 32 n := wrap_wrap (by decide) n
  have kept (v : BitVec 32) : asI32 v.toInt = v.toInt := wrap_toInt v
  cases op with
  | add =>
    show Except.ok (Value.int (asI32 (wrap 64 (x.toInt + y.toInt)))) = _
    rw [narrow, wrap_add]
    rfl
  | sub =>
    show Except.ok (Value.int (asI32 (wrap 64 (x.toInt - y.toInt)))) = _
    rw [narrow, wrap_sub]
    rfl
  | mul =>
    show Except.ok (Value.int (asI32 (wrap 64 (x.toInt * y.toInt)))) = _
    rw [narrow, wrap_mul]
    rfl
  | div =>
    by_cases zero : y = 0#32
    · simp [Agrees, JavaOp.met, JavaOp.text, wholeBinary, wholeOut, zero, Except.map]
    · simp [Agrees, JavaOp.met, JavaOp.text, wholeBinary, wholeOut, zero, toInt_eq_zero, narrow,
        wrap_sdiv, Except.map, Whole.value]
  | rem =>
    by_cases zero : y = 0#32
    · simp [Agrees, JavaOp.met, JavaOp.text, wholeBinary, wholeOut, zero, Except.map]
    · simp [Agrees, JavaOp.met, JavaOp.text, wholeBinary, wholeOut, zero, toInt_eq_zero, narrow,
        wrap_srem, Except.map, Whole.value]
  | and =>
    show Except.ok (Value.int (asI32 (inBits 64 x.toInt (· &&& BitVec.ofInt 64 y.toInt)))) = _
    rw [inBits_and, kept]
    rfl
  | or =>
    show Except.ok (Value.int (asI32 (inBits 64 x.toInt (· ||| BitVec.ofInt 64 y.toInt)))) = _
    rw [inBits_or, kept]
    rfl
  | xor =>
    show Except.ok (Value.int (asI32 (inBits 64 x.toInt (· ^^^ BitVec.ofInt 64 y.toInt)))) = _
    rw [inBits_xor, kept]
    rfl
  | shl => cases stays
  | shr => cases stays
  | ushr => cases stays

/-- On two `long`s. -/
theorem longs_meet {op : JavaOp} (stays : op.isShift = false) (x y : BitVec 64) :
    Agrees ((op.met x y).map .long) (wholeBinary op.text true x.toInt y.toInt) := by
  cases op with
  | add =>
    show Except.ok (Value.long (wrap 64 (x.toInt + y.toInt))) = _
    rw [wrap_add]
    rfl
  | sub =>
    show Except.ok (Value.long (wrap 64 (x.toInt - y.toInt))) = _
    rw [wrap_sub]
    rfl
  | mul =>
    show Except.ok (Value.long (wrap 64 (x.toInt * y.toInt))) = _
    rw [wrap_mul]
    rfl
  | div =>
    by_cases zero : y = 0#64
    · simp [Agrees, JavaOp.met, JavaOp.text, wholeBinary, wholeOut, zero, Except.map]
    · simp [Agrees, JavaOp.met, JavaOp.text, wholeBinary, wholeOut, zero, toInt_eq_zero, wrap_sdiv,
        Except.map, Whole.value]
  | rem =>
    by_cases zero : y = 0#64
    · simp [Agrees, JavaOp.met, JavaOp.text, wholeBinary, wholeOut, zero, Except.map]
    · simp [Agrees, JavaOp.met, JavaOp.text, wholeBinary, wholeOut, zero, toInt_eq_zero, wrap_srem,
        Except.map, Whole.value]
  | and =>
    show Except.ok (Value.long (inBits 64 x.toInt (· &&& BitVec.ofInt 64 y.toInt))) = _
    rw [inBits_toInt, BitVec.ofInt_toInt]
    rfl
  | or =>
    show Except.ok (Value.long (inBits 64 x.toInt (· ||| BitVec.ofInt 64 y.toInt))) = _
    rw [inBits_toInt, BitVec.ofInt_toInt]
    rfl
  | xor =>
    show Except.ok (Value.long (inBits 64 x.toInt (· ^^^ BitVec.ofInt 64 y.toInt))) = _
    rw [inBits_toInt, BitVec.ofInt_toInt]
    rfl
  | shl => cases stays
  | shr => cases stays
  | ushr => cases stays

/-- A shift of an `int`. -/
theorem int_shifted {op : JavaOp} (shift : op.isShift = true) (x : BitVec 32) (y : ℤ) :
    wholeBinary op.text false x.toInt y = .ok (.int (op.shifted x (shiftCount 32 y)).toInt) := by
  have kept (v : BitVec 32) : asI32 v.toInt = v.toInt := wrap_toInt v
  cases op with
  | shl =>
    show Except.ok (Value.int (asI32 (inBits 32 x.toInt (· <<< shiftCount 32 y)))) = _
    rw [inBits_toInt, kept]
    rfl
  | shr =>
    show Except.ok (Value.int (asI32 (inBits 32 x.toInt (·.sshiftRight (shiftCount 32 y))))) = _
    rw [inBits_toInt, kept]
    rfl
  | ushr =>
    show Except.ok (Value.int (asI32 (inBits 32 x.toInt (· >>> shiftCount 32 y)))) = _
    rw [inBits_toInt, kept]
    rfl
  | _ => cases shift

/-- Of a `long`. -/
theorem long_shifted {op : JavaOp} (shift : op.isShift = true) (x : BitVec 64) (y : ℤ) :
    wholeBinary op.text true x.toInt y = .ok (.long (op.shifted x (shiftCount 64 y)).toInt) := by
  cases op with
  | shl =>
    show Except.ok (Value.long (inBits 64 x.toInt (· <<< shiftCount 64 y))) = _
    rw [inBits_toInt]
    rfl
  | shr =>
    show Except.ok (Value.long (inBits 64 x.toInt (·.sshiftRight (shiftCount 64 y)))) = _
    rw [inBits_toInt]
    rfl
  | ushr =>
    show Except.ok (Value.long (inBits 64 x.toInt (· >>> shiftCount 64 y))) = _
    rw [inBits_toInt]
    rfl
  | _ => cases shift

variable (lent : Lent)

theorem binary_whole (op : JavaOp) (a b : Whole) :
    binary lent op.text a.value b.value =
      wholeBinary op.text (!(a.isInt && b.isInt)) a.number b.number := by
  have same : binary lent op.text a.value b.value = arithmetic lent op.text a.value b.value := by
    cases a <;> cases b <;> cases op <;> rfl
  rw [same]
  cases a <;> cases b <;> rfl

theorem toInt_widened (x : BitVec 32) : (x.signExtend 64).toInt = x.toInt :=
  BitVec.toInt_signExtend_of_le (by decide)

/-- An operator that is no shift is Java's. -/
theorem java_met {op : JavaOp} (stays : op.isShift = false) (a b : Whole) :
    Agrees (op.java a b) (binary lent op.text a.value b.value) := by
  have met : op.java a b = op.javaMet a b := by simp [JavaOp.java, stays]
  rw [binary_whole, met]
  cases a with
  | int x =>
    cases b with
    | int y => exact ints_meet stays x y
    | long y =>
      have longs := longs_meet stays (x.signExtend 64) y
      rwa [toInt_widened] at longs
  | long x =>
    cases b with
    | int y =>
      have longs := longs_meet stays x (y.signExtend 64)
      rwa [toInt_widened] at longs
    | long y => exact longs_meet stays x y

theorem shiftCount_number {width : ℕ} (divides : width ∣ 2 ^ 32) (b : Whole) :
    shiftCount width b.number = b.unsigned % width := by
  cases b with
  | int v => simp [shiftCount, Whole.unsigned, Whole.number]
  | long v =>
    have low : BitVec.ofInt 32 v.toInt = v.setWidth 32 :=
      BitVec.signExtend_eq_setWidth_of_le v (by decide)
    simp only [shiftCount, Whole.unsigned, Whole.number, low, BitVec.toNat_setWidth]
    exact Nat.mod_mod_of_dvd _ divides

/-- A shift is, but for one of an `int` by a `long`. -/
theorem java_shifted {op : JavaOp} (shift : op.isShift = true) (a b : Whole) :
    Agrees (op.java a b) (binary lent op.text a.value b.value) ↔
      ¬ (a.isInt = true ∧ b.isInt = false) := by
  have shifted : op.java a b = some (op.javaShift b a) := by simp [JavaOp.java, shift]
  rw [binary_whole, shifted]
  cases a with
  | int x =>
    cases b with
    | int y =>
      have answer := int_shifted shift x (Whole.int y).number
      rw [shiftCount_number (by decide)] at answer
      exact iff_of_true answer (by simp [Whole.isInt])
    | long y =>
      have answer := long_shifted shift (x.signExtend 64) y.toInt
      rw [toInt_widened] at answer
      simp [Whole.isInt, Whole.number, Agrees, answer, JavaOp.javaShift, Whole.value]
  | long x =>
    have answer := long_shifted shift x b.number
    rw [shiftCount_number (by decide)] at answer
    exact iff_of_true answer (by simp [Whole.isInt])

/-- Both together. -/
theorem binary_java (op : JavaOp) (a b : Whole) :
    Agrees (op.java a b) (binary lent op.text a.value b.value) ↔
      ¬ (op.isShift = true ∧ a.isInt = true ∧ b.isInt = false) := by
  cases shift : op.isShift with
  | false => simp [java_met lent shift a b]
  | true => simp [java_shifted lent shift a b]

theorem java_isInt {op : JavaOp} {a b r : Whole} (h : op.java a b = some r)
    (alike : a.isInt = true → b.isInt = true) : r.isInt = a.isInt := by
  unfold JavaOp.java at h
  split at h
  · obtain rfl : op.javaShift b a = r := by simpa using h
    cases a <;> rfl
  · cases a with
    | int x =>
      cases b with
      | int y =>
        obtain ⟨v, -, rfl⟩ := Option.map_eq_some_iff.mp h
        rfl
      | long y => cases alike rfl
    | long x => cases b <;> obtain ⟨v, -, rfl⟩ := Option.map_eq_some_iff.mp h <;> rfl

theorem stored_self {a r : Whole} (same : r.isInt = a.isInt) : a.stored r = r := by
  cases a <;> cases r <;> first | rfl | cases same

theorem wide_answer {op : String} {x y n : ℤ} : wholeBinary op true x y ≠ .ok (.int n) := by
  unfold wholeBinary
  cases wholeOut op true x y <;> simp [Except.map]

/-- The same with a result that is stored. -/
theorem compound_java (op : JavaOp) (a b : Whole) :
    Agrees (op.javaCompound a b) (compound lent op.text a.value b.value) ↔
      ¬ (a.isInt = true ∧ b.isInt = false ∧ (op.java a b).isSome = true) := by
  by_cases alike : a.isInt = true → b.isInt = true
  · have same : op.javaCompound a b = op.java a b := by
      unfold JavaOp.javaCompound
      cases answer : op.java a b with
      | none => rfl
      | some r => exact congrArg some (stored_self (java_isInt answer alike))
    rw [same]
    refine iff_of_true ((binary_java lent op a b).mpr ?_) ?_
    · rintro ⟨-, isInt, isLong⟩
      simp [alike isInt] at isLong
    · rintro ⟨isInt, isLong, -⟩
      simp [alike isInt] at isLong
  · obtain ⟨isInt, isLong⟩ : a.isInt = true ∧ b.isInt = false := by simpa using alike
    cases answer : op.java a b with
    | none =>
      have stays : op.isShift = false := by
        cases shift : op.isShift with
        | false => rfl
        | true => simp [JavaOp.java, shift] at answer
      have agrees := java_met lent stays a b
      rw [answer] at agrees
      simpa [JavaOp.javaCompound, answer, compound] using agrees
    | some r =>
      refine iff_of_false ?_ (by simp [isInt, isLong])
      intro agrees
      cases a with
      | int x =>
        have stored : compound lent op.text (Whole.int x).value b.value =
            .ok (.int r.narrowed.toInt) := by
          simpa [Agrees, JavaOp.javaCompound, answer, Whole.stored, Whole.value] using agrees
        rw [compound, binary_whole, isLong] at stored
        exact wide_answer (by simpa using stored)
      | long x => cases isInt

/-! ## The operators of one side -/

namespace Whole

/-- A number negated. -/
def negated : Whole → Whole
  | .int v => .int (-v)
  | .long v => .long (-v)

/-- Its bits turned over. -/
def complement : Whole → Whole
  | .int v => .int (~~~v)
  | .long v => .long (~~~v)

/-- One more or one less, in its own type. -/
def plus (delta : ℤ) : Whole → Whole
  | .int v => .int (v + BitVec.ofInt 32 delta)
  | .long v => .long (v + BitVec.ofInt 64 delta)

end Whole

theorem toInt_complement {w : ℕ} (h : 0 < w) (v : BitVec w) :
    (~~~v).toInt = -v.toInt - 1 := by
  obtain ⟨k, rfl⟩ := Nat.exists_eq_add_one_of_ne_zero (Nat.ne_of_gt h)
  have bound := v.isLt
  have even := Nat.pow_succ (n := 2) (m := k)
  simp only [BitVec.toInt_eq_toNat_cond, BitVec.toNat_not]
  split <;> split <;> omega

theorem int_bounds (v : BitVec 32) : minI32 ≤ v.toInt ∧ v.toInt ≤ maxI32 :=
  ⟨BitVec.le_toInt v, Int.le_of_lt_add_one (BitVec.toInt_lt (x := v))⟩

theorem long_bounds (v : BitVec 64) : minI64 ≤ v.toInt ∧ v.toInt ≤ maxI64 :=
  ⟨BitVec.le_toInt v, Int.le_of_lt_add_one (BitVec.toInt_lt (x := v))⟩

theorem unary_not (checks : Bool) (a : Whole) :
    unary lent checks "~" a.value = some (.ok a.complement.value) := by
  cases a with
  | int v =>
    show some (Except.ok (Value.int (-v.toInt - 1))) = _
    rw [← toInt_complement (by decide)]
    rfl
  | long v =>
    show some (Except.ok (Value.long (-v.toInt - 1))) = _
    rw [← toInt_complement (by decide)]
    rfl

/-- A number negated, but for the least `int`. -/
theorem unary_neg (checks : Bool) (a : Whole) :
    unary lent checks "-" a.value = some (.ok a.negated.value) ↔
      ¬ (a = .int (BitVec.intMin 32) ∨ a = .long (BitVec.intMin 64) ∧ checks = true) := by
  cases a with
  | int v =>
    have inside : v.toInt ≠ minI64 := by
      have bounds := int_bounds v
      simp only [minI32, maxI32] at bounds
      simp only [minI64]
      omega
    have answer : unary lent checks "-" (Whole.int v).value = some (.ok (.int (-v.toInt))) := by
      show (negI64 checks v.toInt).map _ = _
      simp [negI64, inside]
    rw [answer]
    by_cases least : v = BitVec.intMin 32
    · subst least
      refine iff_of_false ?_ (by simp)
      intro same
      have same : -(BitVec.intMin 32).toInt = (-BitVec.intMin 32).toInt := by
        simpa [Whole.negated, Whole.value] using same
      exact absurd same (by decide)
    · refine iff_of_true ?_ (by simp [least])
      simp [Whole.negated, Whole.value, BitVec.toInt_neg_of_ne_intMin least]
  | long v =>
    have start : unary lent checks "-" (Whole.long v).value =
        (negI64 checks v.toInt).map fun n => .ok (.long n) := rfl
    rw [start]
    by_cases least : v = BitVec.intMin 64
    · subst least
      have bits : (BitVec.intMin 64).toInt = minI64 := by decide
      cases checks with
      | false => simp [negI64, bits, Whole.negated, Whole.value, BitVec.neg_intMin]
      | true => simp [negI64, bits]
    · have inside : v.toInt ≠ minI64 := by
        intro same
        apply least
        apply BitVec.eq_of_toInt_eq
        rw [same]
        decide
      refine iff_of_true ?_ (by simp [least])
      simp [negI64, inside, Whole.negated, Whole.value, BitVec.toInt_neg_of_ne_intMin least]

/-- A number raised or lowered by one. -/
theorem stepped_java {delta : ℤ} (one : delta = 1 ∨ delta = -1) (a : Whole) :
    stepped lent delta a.value = .ok (a.plus delta).value := by
  have inside : (BitVec.ofInt 32 delta).toInt = delta := by
    cases one with
    | inl up => subst up; decide
    | inr down => subst down; decide
  have agrees := (binary_java lent .add a (.int (BitVec.ofInt 32 delta))).mpr
    (by simp [JavaOp.isShift])
  have given : stepped lent delta a.value =
      binary lent JavaOp.add.text a.value (Whole.int (BitVec.ofInt 32 delta)).value := by
    simp only [Whole.value, inside]
    rfl
  rw [given]
  cases a with
  | int v => exact agrees
  | long v =>
    have wide : (BitVec.ofInt 32 delta).signExtend 64 = BitVec.ofInt 64 delta := by
      rw [BitVec.signExtend, inside]
    have agrees : _ =
        Except.ok (Whole.long (v + (BitVec.ofInt 32 delta).signExtend 64)).value := agrees
    rw [wide] at agrees
    exact agrees

end Painless
end Velosearch

import Mathlib
import Velosearch.Lib.Json
import Velosearch.Painless.Values

/-!
# What the operators do to numbers

`unary`, `binary`, `cast` and the collectors of `builtins.rs`, the numbers of `lexer.rs`, and what
becomes of a number of a JSON text and of a document's field. Both whole types are held in 64 bits.

The arithmetic of doubles, and what is told of text and of other values, is given by a `Lent`; a
double is turned into a whole number here, by its bits.
-/

set_option autoImplicit false

namespace Velosearch
namespace Painless

/-! ## Whole numbers of 64 and of 32 bits -/

/-- A number within so many bits. -/
def wrap (bits : ℕ) (n : ℤ) : ℤ :=
  (BitVec.ofInt bits n).toInt

/-- `as i32 as i64` -/
def asI32 (n : ℤ) : ℤ :=
  wrap 32 n

def minI32 : ℤ := -2147483648
def maxI32 : ℤ := 2147483647
def minI64 : ℤ := -9223372036854775808
def maxI64 : ℤ := 9223372036854775807

/-- `parse::<i64>()` -/
def parseI64 (s : String) : Option ℤ :=
  let digits := if s.toList.head? = some '-' ∨ s.toList.head? = some '+' then s.toList.tail
    else s.toList
  if digits ≠ [] ∧ digits.all Char.isDigit then
    let n : ℤ := Nat.ofDigitChars 10 digits 0
    let n := if s.toList.head? = some '-' then -n else n
    if minI64 ≤ n ∧ n ≤ maxI64 then some n else none
  else none

/-! ## Doubles -/

/-- `as i64`: cut off at the point, what is too large at the bound, and nothing for no number. -/
def toI64 (d : Double) : ℤ :=
  let exponent := d.toNat / 2 ^ 52 % 2 ^ 11
  let fraction := d.toNat % 2 ^ 52
  let size : ℕ :=
    if exponent < 1075 then (fraction + 2 ^ 52) / 2 ^ (1075 - exponent)
    else (fraction + 2 ^ 52) * 2 ^ (exponent - 1075)
  if exponent = 2047 ∧ fraction ≠ 0 then 0
  else if d.toNat / 2 ^ 63 = 1 then max minI64 (-size)
  else min maxI64 size

/-- What is taken from outside: arithmetic of doubles. -/
structure Lent where
  neg : Double → Double
  add : Double → Double → Double
  sub : Double → Double → Double
  mul : Double → Double → Double
  div : Double → Double → Double
  rem : Double → Double → Double
  least : Double → Double → Double
  greatest : Double → Double → Double
  zero : Double
  one : Double
  infinity : Double
  single : Double → Double
  ofInt : ℤ → Double
  parse : String → Option Double
  asText : Value → String
  equals : Value → Value → Bool
  compare : Value → Value → Option Ordering
  isMatch : ℕ → String → Bool
  matchesWhole : ℕ → String → Bool
  parseDate : String → Option (ℤ × ℤ)
  point : Value → Option ℕ
  base64 : String → String
  address : String → String

variable (lent : Lent)

/-! ## Values as numbers -/

namespace Value

/-- A value as a whole number. -/
def asI64 : Value → Option ℤ
  | .int n | .long n => some n
  | .float d | .double d => some (toI64 d)
  | .str s => parseI64 s
  | _ => none

/-- A value as a double. -/
def asF64 : Value → Option Double
  | .int n | .long n => some (lent.ofInt n)
  | .float d | .double d => some d
  | .bool b => some (if b then lent.one else lent.zero)
  | .str s => lent.parse s
  | _ => none

/-- It is a number. -/
def isNumber : Value → Bool
  | .int _ | .long _ | .float _ | .double _ => true
  | _ => false

end Value

/-! ## Numbers in the text of a script -/

/-- A number as it is read. -/
inductive NumberToken where
  | int (n : ℤ)
  | long (n : ℤ)
  | float (bits : Double)
  | double (bits : Double)

def isHexDigit (c : Char) : Bool :=
  (JsonValue.hexValue c).isSome

/-- A number in hexadecimal. -/
def hexNumber (digits : List Char) : Option ℤ :=
  let n := digits.foldl (fun n c => 16 * n + (JsonValue.hexValue c).getD 0) 0
  if digits ≠ [] ∧ (n : ℤ) ≤ maxI64 then some n else none

/-- The digits after `0x`, and what follows them. -/
def hexDigits : List Char → Option (List Char × List Char)
  | '0' :: x :: rest =>
    if x = 'x' ∨ x = 'X' then some (rest.takeWhile isHexDigit, rest.dropWhile isHexDigit) else none
  | _ => none

/-- What follows the digits behind a point. -/
def afterPoint : List Char → Option (List Char)
  | '.' :: d :: rest => if d.isDigit then some (rest.dropWhile Char.isDigit) else none
  | _ => none

/-- What follows an exponent. -/
def afterExponent : List Char → Option (List Char)
  | e :: rest =>
    let rest := match rest with
      | '+' :: rest | '-' :: rest => rest
      | rest => rest
    if (e = 'e' ∨ e = 'E') ∧ (rest.head?.map Char.isDigit).getD false then
      some (rest.dropWhile Char.isDigit)
    else none
  | [] => none

/-- `text.parse::<i64>()`, of digits. -/
def decimal (text : List Char) : Option ℤ :=
  parseI64 (String.ofList text)

def isDigitOrBar (c : Char) : Bool :=
  c.isDigit || c == '_'

/-- A decimal number cut off the text. -/
def decimalText (src : List Char) : List Char × Bool × List Char :=
  let whole := src.dropWhile isDigitOrBar
  let point := afterPoint whole
  let pointed := point.getD whole
  let exponent := afterExponent pointed
  let rest := exponent.getD pointed
  ((src.take (src.length - rest.length)).filter (· ≠ '_'), point.isSome || exponent.isSome, rest)

/-- The numbers of `lex`, at a digit or at a point before one: nothing for a bad number. -/
def lexNumber (src : List Char) : Option NumberToken :=
  match hexDigits src with
  | some (digits, rest) => do
    let n ← hexNumber digits
    pure (if rest.head? = some 'l' ∨ rest.head? = some 'L' then .long n else .int n)
  | none =>
    let (text, point, rest) := decimalText src
    let double := lent.parse (String.ofList text)
    match rest.head?.map Char.toLower with
    | some 'l' => (decimal text).map .long
    | some 'f' => double.map .float
    | some 'd' => double.map .double
    | _ =>
      if point then double.map .double
      else (decimal text).map fun n => if n ≤ maxI32 then .int n else .long n

/-- The value of a number. -/
def NumberToken.value : NumberToken → Value
  | .int n => .int n
  | .long n => .long n
  | .float d => .float d
  | .double d => .double d

/-! ## Numbers of a parameter and of a field -/

/-- `from_json`, where a list or a map is held at `ref`. -/
def fromJson (ref : ℕ) : JsonValue → Value
  | .null => .null
  | .bool b => .bool b
  | .number (.whole n) =>
    if minI32 ≤ n ∧ n ≤ maxI32 then .int n
    else if minI64 ≤ n ∧ n ≤ maxI64 then .long n
    else .double (lent.ofInt n)
  | .number (.double written) => .double ((lent.parse (String.ofList written)).getD lent.zero)
  | .str s => .str (String.ofList s)
  | .arr _ => .list ref
  | .obj _ => .map ref

def dateKinds : List String := ["date", "date_nanos"]
def wholeKinds : List String := ["long", "integer", "short", "byte", "token_count"]
def doubleKinds : List String := ["double", "scaled_float"]
def floatKinds : List String := ["float", "half_float"]

/-- `typed`: a value as its mapped type reads it. -/
def typed (v : Value) (kind : String) : Value :=
  if kind ∈ dateKinds then
    match v with
    | .str s => ((lent.parseDate s).map fun d => .date d.1 d.2).getD v
    | v => if v.isNumber then .date (v.asI64.getD 0) 0 else v
  else if kind ∈ wholeKinds then
    match v.asI64 with
    | some n => if kind = "long" then .long n else .int n
    | none => v
  else if kind ∈ doubleKinds then ((v.asF64 lent).map .double).getD v
  else if kind ∈ floatKinds then ((v.asF64 lent).map fun d => .float (lent.single d)).getD v
  else if kind = "boolean" then
    match v with
    | .str s => .bool (s = "true")
    | v => v
  else if kind = "geo_point" then
    match v with
    | .str _ | .map _ => ((lent.point v).map .map).getD v
    | .list _ => ((lent.point v).map .map).getD .null
    | v => v
  else if kind = "binary" then
    match v with
    | .str s => .str (lent.base64 s)
    | v => v
  else if kind = "ip" then
    match v with
    | .str s => .str (lent.address s)
    | v => v
  else v

/-! ## Operators -/

/-- `-i`, of 64 bits: a build that checks for overflow stops at the least of them. -/
def negI64 (checks : Bool) (i : ℤ) : Option ℤ :=
  if i = minI64 then if checks then none else some i else some (-i)

/-- `unary`: nothing at all where it stops the process. -/
def unary (checks : Bool) (op : String) (v : Value) : Option (Except String Value) :=
  match op, v with
  | "!", .bool b => some (.ok (.bool !b))
  | "-", .int i => (negI64 checks i).map fun n => .ok (.int n)
  | "-", .long i => (negI64 checks i).map fun n => .ok (.long n)
  | "-", .float d => some (.ok (.float (lent.neg d)))
  | "-", .double d => some (.ok (.double (lent.neg d)))
  | "~", .int i => some (.ok (.int (-i - 1)))
  | "~", .long i => some (.ok (.long (-i - 1)))
  | "!", .null | "-", .null => some (.error "cannot apply an operator to null")
  | op, v =>
    if op = "+" ∧ v.isNumber then some (.ok v)
    else some (.error s!"cannot apply [{op}] to [{v.typeName}]")

/-- The kind two numbers meet in. -/
inductive Meeting where
  | int
  | long
  | float
  | double
  deriving DecidableEq

/-- How wide a number is. -/
def rank : Value → ℕ
  | .double _ => 4
  | .float _ => 3
  | .long _ => 2
  | .int _ | .bool _ => 1
  | _ => 0

/-- The wider of two kinds. -/
def promoted (a b : Value) : Meeting :=
  match max (rank a) (rank b) with
  | 4 => .double
  | 3 => .float
  | 2 => .long
  | _ => .int

/-- `y as u32 & 63`, or `& 31` -/
def shiftCount (width : ℕ) (y : ℤ) : ℕ :=
  (BitVec.ofInt 32 y).toNat % width

/-- An operation within so many bits. -/
def inBits (width : ℕ) (x : ℤ) (f : BitVec width → BitVec width) : ℤ :=
  (f (BitVec.ofInt width x)).toInt

/-- What `binary` has of whole numbers in its 64 bits. -/
def wholeOut (op : String) (wide : Bool) (x y : ℤ) : Except String ℤ :=
  match op with
  | "+" => .ok (wrap 64 (x + y))
  | "-" => .ok (wrap 64 (x - y))
  | "*" => .ok (wrap 64 (x * y))
  | "/" => if y = 0 then .error "/ by zero" else .ok (wrap 64 (x.tdiv y))
  | "%" => if y = 0 then .error "/ by zero" else .ok (wrap 64 (x.tmod y))
  | "&" => .ok (inBits 64 x (· &&& BitVec.ofInt 64 y))
  | "|" => .ok (inBits 64 x (· ||| BitVec.ofInt 64 y))
  | "^" => .ok (inBits 64 x (· ^^^ BitVec.ofInt 64 y))
  -- a long by the low six bits of the count, an int by the low five
  | "<<" =>
    if wide then .ok (inBits 64 x (· <<< shiftCount 64 y))
    else .ok (inBits 32 x (· <<< shiftCount 32 y))
  | ">>" =>
    if wide then .ok (inBits 64 x (·.sshiftRight (shiftCount 64 y)))
    else .ok (inBits 32 x (·.sshiftRight (shiftCount 32 y)))
  | ">>>" =>
    if wide then .ok (inBits 64 x (· >>> shiftCount 64 y))
    else .ok (inBits 32 x (· >>> shiftCount 32 y))
  | op => .error s!"unknown operator [{op}]"

/-- The branch of `binary` for whole numbers. -/
def wholeBinary (op : String) (wide : Bool) (x y : ℤ) : Except String Value :=
  (wholeOut op wide x y).map fun out => if wide then .long out else .int (asI32 out)

/-- The branch of `binary` for doubles. -/
def doubleBinary (op : String) (single : Bool) (x y : Double) : Except String Value :=
  let out : Except String Double := match op with
    | "+" => .ok (lent.add x y)
    | "-" => .ok (lent.sub x y)
    | "*" => .ok (lent.mul x y)
    | "/" => .ok (lent.div x y)
    | "%" => .ok (lent.rem x y)
    | op => .error s!"cannot apply [{op}] to floating point numbers"
  out.map fun out => if single then .float (lent.single out) else .double out

/-- How long a text may grow. -/
def maxTextBytes : ℕ := 2 ^ 26

/-- `binary`, of two sides that may not be equal, matched, ordered or joined as text. -/
def arithmetic (op : String) (a b : Value) : Except String Value :=
  if a.isNull || b.isNull then throw "cannot apply an arithmetic operator to null"
  else
    match a, b with
    | .bool x, .bool y =>
      match op with
      | "&" => pure (.bool (x && y))
      | "|" => pure (.bool (x || y))
      | "^" => pure (.bool (x ^^ y))
      | op => throw s!"cannot apply [{op}] to booleans"
    | a, b =>
      if !a.isNumber || !b.isNumber then
        throw s!"cannot apply [{op}] to [{a.typeName}] and [{b.typeName}]"
      else
        let wholes := (a.asI64.getD 0, b.asI64.getD 0)
        let doubles := ((a.asF64 lent).getD lent.zero, (b.asF64 lent).getD lent.zero)
        match promoted a b with
        | .int => wholeBinary op false wholes.1 wholes.2
        | .long => wholeBinary op true wholes.1 wholes.2
        | .float => doubleBinary lent op true doubles.1 doubles.2
        | .double => doubleBinary lent op false doubles.1 doubles.2

/-- It is a text. -/
def isText : Value → Bool
  | .str _ => true
  | _ => false

/-- The operator on two values. -/
def binary (op : String) (a b : Value) : Except String Value :=
  if op = "+" ∧ (isText a ∨ isText b) then
    let text := lent.asText a ++ lent.asText b
    let limit := s!"[{maxTextBytes}]"
    if maxTextBytes < text.utf8ByteSize then
      throw s!"a string of [{text.utf8ByteSize}] bytes is longer than a script may build {limit}"
    else pure (.str text)
  else
    let sameType := a.typeName = b.typeName
    let ordered (holds : Ordering → Bool) : Except String Value :=
      match lent.compare a b with
      | some o => pure (.bool (holds o))
      | none => throw s!"cannot compare [{a.typeName}] with [{b.typeName}]"
    let matched (test : ℕ → String → Bool) : Except String Value :=
      match b with
      | .regex r => pure (.bool (test r (lent.asText a)))
      | _ => throw "the right side of =~ is a regex"
    match op with
    | "==" => pure (.bool (lent.equals a b))
    | "!=" => pure (.bool !(lent.equals a b))
    | "===" => pure (.bool (lent.equals a b && sameType))
    | "!==" => pure (.bool !(lent.equals a b && sameType))
    | "=~" => matched lent.isMatch
    | "==~" => matched lent.matchesWhole
    | "<" => ordered (· = .lt)
    | ">" => ordered (· = .gt)
    | "<=" => ordered (· ≠ .gt)
    | ">=" => ordered (· ≠ .lt)
    | op => arithmetic lent op a b

/-- The value of `target op= value`. -/
def compound (op : String) (current rhs : Value) : Except String Value :=
  binary lent op current rhs

/-- The value `x++` and the others store. -/
def stepped (delta : ℤ) (current : Value) : Except String Value :=
  binary lent "+" current (.int delta)

/-! ## Casts -/

def intClasses : List String := ["int", "Integer", "short", "byte", "char"]

/-- A value made one of a class. -/
def cast (cls : String) (v : Value) : Except String Value :=
  let refused : Except String Value :=
    throw s!"Cannot cast from [{v.typeName}] to [{cls}]."
  if cls ∈ intClasses then
    if v.isNumber then pure (.int (asI32 (v.asI64.getD 0)))
    else
      match v with
      | .str s =>
        if cls = "char" then
          match s.toList with
          | c :: _ => pure (.char c)
          | [] => throw "Cannot cast from [String] to [char]."
        else refused
      | _ => refused
  else if cls ∈ ["long", "Long"] then
    if v.isNumber then pure (.long (v.asI64.getD 0))
    else throw s!"Cannot cast from [{v.typeName}] to [long]."
  else if cls ∈ ["float", "Float"] then
    if v.isNumber then pure (.float (lent.single ((v.asF64 lent).getD lent.zero)))
    else throw s!"Cannot cast from [{v.typeName}] to [float]."
  else if cls ∈ ["double", "Double", "Number"] then
    if v.isNumber then pure (.double ((v.asF64 lent).getD lent.zero))
    else throw s!"Cannot cast from [{v.typeName}] to [double]."
  else if cls ∈ ["boolean", "Boolean"] then
    match v with
    | .bool _ => pure v
    | _ => throw s!"Cannot cast from [{v.typeName}] to [boolean]."
  else if cls ∈ ["String", "CharSequence"] then
    match v with
    | .str _ | .null => pure v
    | other => pure (.str (lent.asText other))
  else pure v

/-! ## Collectors -/

/-- `summingInt` and the others add doubles. -/
def total (numbers : List Value) : Double :=
  numbers.foldl (fun sum v => lent.add sum ((v.asF64 lent).getD lent.zero)) lent.zero

/-- The numbers a collector makes of what its function says of each item: the value itself, or the
values of a map. -/
def collected (kind : String) (numbers : List Value) : List Value :=
  let doubles := numbers.map fun v => (v.asF64 lent).getD lent.zero
  let mean := lent.div (total lent numbers) (lent.ofInt numbers.length)
  let average : Value := .double (if numbers.isEmpty then lent.zero else mean)
  let least := doubles.foldl lent.least lent.infinity
  let greatest := doubles.foldl lent.greatest (lent.neg lent.infinity)
  let count : Value := .long (wrap 64 numbers.length)
  match kind with
  | "counting" => [count]
  | "summingInt" => [.int (toI64 (total lent numbers))]
  | "summingLong" => [.long (toI64 (total lent numbers))]
  | "summingDouble" => [.double (total lent numbers)]
  | "averagingInt" | "averagingLong" | "averagingDouble" => [average]
  | "summarizingInt" | "summarizingLong" =>
    [count, .long (toI64 (total lent numbers)), .long (toI64 least), .long (toI64 greatest), average]
  | "summarizingDouble" =>
    [count, .double (total lent numbers), .double least, .double greatest, average]
  | _ => []

end Painless
end Velosearch

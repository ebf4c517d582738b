import Velosearch.Painless.Ast

/-!
# The values a script handles

A list, a map and a text that is being built are held behind a reference, and what a context lends
is known by its own; what stands behind them is the world's.
-/

set_option autoImplicit false

namespace Velosearch
namespace Painless

mutual

/-- A value of a script. -/
inductive Value where
  | null
  | bool (b : Bool)
  | int (n : ℤ)
  | long (n : ℤ)
  | float (bits : Double)
  | double (bits : Double)
  | str (s : String)
  | char (c : Char)
  | list (ref : ℕ)
  | map (ref : ℕ)
  | date (millis offsetSecs : ℤ)
  | regex (ref : ℕ)
  | lambda (l : Lambda)
  | docValues (field : String) (values : List Value)
  | native (ref : ℕ)
  | builder (ref : ℕ)
  | error (message : String)

/-- A lambda, with what it captured. -/
inductive Lambda where
  | mk (params : List String) (body : List Stmt) (captured : List (String × Value))
    (method : Option (String × String))

end

namespace Value

/-- It is `null`. -/
def isNull : Value → Bool
  | .null => true
  | _ => false

/-- What its type is called. -/
def typeName : Value → String
  | .null => "null"
  | .bool _ => "boolean"
  | .int _ => "int"
  | .long _ => "long"
  | .float _ => "float"
  | .double _ => "double"
  | .str _ => "String"
  | .char _ => "char"
  | .list _ => "ArrayList"
  | .map _ => "HashMap"
  | .date _ _ => "ZonedDateTime"
  | .regex _ => "Pattern"
  | .lambda _ => "lambda"
  | .docValues _ _ => "ScriptDocValues"
  | .native _ => "Object"
  | .builder _ => "StringBuilder"
  | .error _ => "Exception"

end Value
end Painless
end Velosearch

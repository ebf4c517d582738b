import Mathlib.Data.Int.Notation
import Mathlib.Data.Nat.Notation

/-!
# What a script says, once read

The statements and the expressions of a script, each with the position an error names. A double
is known by its bits.
-/

set_option autoImplicit false

namespace Velosearch
namespace Painless

/-- A double, by its bits. -/
abbrev Double := BitVec 64

mutual

/-- Expressions. -/
inductive Expr where
  | null
  | bool (b : Bool)
  | int (n : ℤ)
  | long (n : ℤ)
  | float (bits : Double)
  | double (bits : Double)
  | str (s : String)
  | regex (pattern flags : String)
  | ident (name : String) (pos : ℕ)
  | list (items : List Expr)
  | map (pairs : List (Expr × Expr))
  | field (target : Expr) (name : String) (safe : Bool) (pos : ℕ)
  | index (target idx : Expr) (pos : ℕ)
  | call (target : Expr) (name : String) (args : List Expr) (safe : Bool) (pos : ℕ)
  | invoke (name : String) (args : List Expr) (pos : ℕ)
  | new (cls : String) (args : List Expr) (pos : ℕ)
  | static (cls name : String) (args : Option (List Expr)) (pos : ℕ)
  | unary (op : String) (expr : Expr) (pos : ℕ)
  | binary (op : String) (left right : Expr) (pos : ℕ)
  | conditional (cond then_ otherwise : Expr)
  | elvis (value fallback : Expr)
  | assign (target : Expr) (op : String) (value : Expr) (pos : ℕ)
  | step (target : Expr) (delta : ℤ) (pre : Bool) (pos : ℕ)
  | cast (cls : String) (expr : Expr)
  | instanceOf (expr : Expr) (cls : String)
  | lambda (params : List String) (body : List Stmt)
  | methodRef (cls name : String)

/-- Statements. -/
inductive Stmt where
  | declare (name : String) (init : Option Expr) (pos : ℕ)
  | expr (e : Expr)
  | ifThen (cond : Expr) (then_ : List Stmt) (otherwise : Option (List Stmt))
  | while_ (cond : Expr) (body : List Stmt)
  | doWhile (body : List Stmt) (cond : Expr)
  | for_ (init : Option Stmt) (cond step : Option Expr) (body : List Stmt)
  | forEach (name : String) (each : Expr) (body : List Stmt)
  | return_ (value : Option Expr) (pos : ℕ)
  | throw (value : Expr) (pos : ℕ)
  | break_
  | continue_
  | block (body : List Stmt)
  | try_ (body : List Stmt) (catchName : Option String) (catchBody : List Stmt)

end

/-- A function of a script. -/
structure Function where
  name : String
  params : List String
  body : List Stmt

end Painless
end Velosearch

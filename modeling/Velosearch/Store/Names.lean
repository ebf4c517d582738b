import Velosearch.Lib.Glob

/-!
# Patterns over names

`wildcard_to_regex` and `glob_match` of `src/store/names.rs`.
-/

set_option autoImplicit false

namespace Velosearch.Store

open Velosearch

/-- Whether the expression `wildcard_to_regex` makes of a pattern matches a name. -/
def wildcardMatch (pattern name : List Char) : Bool :=
  Glob.glob true (· != '\n') pattern name

theorem wildcardMatch_plain {pattern : List Char} (stars : '*' ∉ pattern) (marks : '?' ∉ pattern)
    (name : List Char) : wildcardMatch pattern name = (pattern == name) :=
  Glob.glob_plain stars (fun _ => marks) name

/-- What follows the first occurrence of a text in another. -/
def after (part : List Char) : List Char → Option (List Char)
  | [] => if part = [] then some [] else none
  | c :: rest =>
    if part.isPrefixOf (c :: rest) then some ((c :: rest).drop part.length) else after part rest

/-- The loop of `glob_match` over what stands between stars. -/
def globParts : List (List Char) → List Char → Bool
  | [], _ => true
  | [part], rest => part.isEmpty || part.isSuffixOf rest
  | part :: more, rest =>
    if part.isEmpty then globParts more rest
    else match after part rest with
      | some rest => globParts more rest
      | none => false

/-- `glob_match`: the parts between the stars, one behind the other. -/
def globMatch (pattern name : List Char) : Bool :=
  match pattern.splitOn '*' with
  | [] => false
  | first :: parts =>
    first.isPrefixOf name &&
      if '*' ∈ pattern then globParts parts (name.drop first.length)
      else (name.drop first.length).isEmpty

end Velosearch.Store

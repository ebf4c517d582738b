import Mathlib.Data.List.Basic
import Mathlib.Data.List.Infix

/-!
# Wildcard patterns

Texts against patterns in which `*` stands for a run of characters and, where the caller
says so, `?` for one. What characters a wildcard may stand for is a parameter: an expression
of the regex crate keeps newlines out, a matcher written by hand does not.
-/

set_option autoImplicit false

namespace Velosearch.Glob

variable {dot : Char → Bool} {one : Bool}

/-- A star takes characters one by one, as long as it may. -/
def run (dot : Char → Bool) (rest : List Char → Bool) : List Char → Bool
  | [] => rest []
  | c :: text => rest (c :: text) || (dot c && run dot rest text)

/-- Whether a text matches a pattern: `dot` is what a wildcard may stand for, and `one`
whether `?` is a wildcard at all. -/
def glob (one : Bool) (dot : Char → Bool) : List Char → List Char → Bool
  | [], text => text.isEmpty
  | a :: pattern, text =>
    if a = '*' then run dot (glob one dot pattern) text
    else match text with
      | [] => false
      | c :: text => (if a = '?' ∧ one = true then dot c else a == c) && glob one dot pattern text

/-- A star matches a text whose front it may take and whose rest matches. -/
theorem run_iff {rest : List Char → Bool} {text : List Char} :
    run dot rest text = true ↔
      ∃ before after, text = before ++ after ∧ (∀ c ∈ before, dot c = true) ∧ rest after = true := by
  induction text with
  | nil =>
    rw [run]
    constructor
    · intro h
      exact ⟨[], [], rfl, by simp, h⟩
    · rintro ⟨before, after, eq, -, h⟩
      obtain ⟨rfl, rfl⟩ := List.nil_eq_append_iff.mp eq
      exact h
  | cons c text ih =>
    rw [run, Bool.or_eq_true, Bool.and_eq_true, ih]
    constructor
    · rintro (here | ⟨hc, before, after, rfl, run, h⟩)
      · exact ⟨[], c :: text, rfl, by simp, here⟩
      · refine ⟨c :: before, after, rfl, ?_, h⟩
        intro d mem
        rcases List.mem_cons.mp mem with rfl | mem
        · exact hc
        · exact run d mem
    · rintro ⟨before, after, eq, run, h⟩
      cases before with
      | nil =>
        left
        rw [List.nil_append] at eq
        rwa [eq]
      | cons d before =>
        obtain ⟨rfl, rfl⟩ := List.cons_eq_cons.mp eq
        right
        exact ⟨run c List.mem_cons_self, before, after, rfl,
          fun d mem => run d (List.mem_cons_of_mem _ mem), h⟩

@[simp] theorem glob_nil (text : List Char) : glob one dot [] text = text.isEmpty := by
  rfl

@[simp] theorem glob_star (pattern text : List Char) :
    glob one dot ('*' :: pattern) text = run dot (glob one dot pattern) text := by
  rfl

theorem glob_cons_nil {a : Char} (star : a ≠ '*') (pattern : List Char) :
    glob one dot (a :: pattern) [] = false := by
  unfold glob
  rw [if_neg star]

theorem glob_cons_cons {a : Char} (star : a ≠ '*') (c : Char) (pattern text : List Char) :
    glob one dot (a :: pattern) (c :: text) =
      ((if a = '?' ∧ one = true then dot c else a == c) && glob one dot pattern text) := by
  conv_lhs => unfold glob
  rw [if_neg star]

/-- Without wildcards a pattern matches itself. -/
theorem glob_plain {pattern : List Char} (stars : '*' ∉ pattern)
    (marks : one = true → '?' ∉ pattern) (text : List Char) :
    glob one dot pattern text = (pattern == text) := by
  induction pattern generalizing text with
  | nil => cases text <;> rfl
  | cons a pattern ih =>
    obtain ⟨star, stars⟩ : '*' ≠ a ∧ '*' ∉ pattern := by simpa using stars
    have mark : ¬ (a = '?' ∧ one = true) := by
      rintro ⟨rfl, on⟩
      exact marks on List.mem_cons_self
    have rest := ih stars fun on mem => marks on (List.mem_cons_of_mem _ mem)
    cases text with
    | nil => exact glob_cons_nil star.symm pattern
    | cons c text =>
      rw [glob_cons_cons star.symm, if_neg mark, rest]
      rfl

/-- A character no wildcard takes is as often in the pattern. -/
theorem count_le {d : Char} (never : dot d = false) {pattern text : List Char}
    (h : glob one dot pattern text = true) : text.count d ≤ pattern.count d := by
  induction pattern generalizing text with
  | nil =>
    rw [glob_nil, List.isEmpty_iff] at h
    rw [h]
  | cons a pattern ih =>
    by_cases star : a = '*'
    · subst star
      obtain ⟨before, after, rfl, run, rest⟩ := run_iff.mp h
      have none : before.count d = 0 := by
        refine List.count_eq_zero.mpr fun mem => ?_
        rw [run d mem] at never
        cases never
      rw [List.count_append, none, Nat.zero_add]
      exact (ih rest).trans (List.count_le_count_cons)
    · cases text with
      | nil =>
        rw [glob_cons_nil star] at h
        cases h
      | cons c text =>
        rw [glob_cons_cons star, Bool.and_eq_true] at h
        obtain ⟨here, rest⟩ := h
        have le := ih rest
        by_cases same : c = d
        · subst same
          split at here
          · rw [here] at never
            cases never
          · have eq : a = c := by simpa using here
            rw [eq, List.count_cons_self, List.count_cons_self]
            exact Nat.succ_le_succ le
        · rw [List.count_cons_of_ne same]
          exact le.trans List.count_le_count_cons

/-- A pattern with its wildcards filled in. -/
def spelled (filler : Char) (pattern : List Char) : List Char :=
  pattern.map fun c => if c = '*' ∨ c = '?' then filler else c

/-- A pattern matches itself with its wildcards filled in. -/
theorem glob_spelled {filler : Char} (can : dot filler = true) (pattern : List Char) :
    glob true dot pattern (spelled filler pattern) = true := by
  induction pattern with
  | nil => rfl
  | cons a pattern ih =>
    show glob true dot (a :: pattern)
      ((if a = '*' ∨ a = '?' then filler else a) :: spelled filler pattern) = true
    by_cases star : a = '*'
    · subst star
      refine run_iff.mpr ⟨[filler], spelled filler pattern, rfl, ?_, ih⟩
      intro c mem
      rwa [List.mem_singleton.mp mem]
    · rw [glob_cons_cons star, ih, Bool.and_true]
      by_cases mark : a = '?'
      · simp [mark, can]
      · simp [star, mark]

theorem mem_spelled {filler c : Char} {pattern : List Char} (mem : c ∈ pattern)
    (wild : c = '*' ∨ c = '?') : filler ∈ spelled filler pattern :=
  List.mem_map.mpr ⟨c, mem, if_pos wild⟩

end Velosearch.Glob

import Mathlib.Data.List.Infix

/-!
# A log of writes that is applied again

Each record of a log may say something of one key, and what a log says of a key is what
its last such record says. A log that is applied after a beginning of itself, or with
records at its end that it already ends on, says what it said.
-/

set_option autoImplicit false

namespace Velosearch.Redo

variable {κ ρ ν : Type} [DecidableEq κ] (key : ρ → κ) (said : ρ → Option ν)

/-- What the last record says of a key. -/
def last (k : κ) : List ρ → Option ν
  | [] => none
  | r :: log => (last k log).or (if key r = k then said r else none)

variable {key said} {k : κ}

/-- The later log counts. -/
theorem last_append (log log' : List ρ) :
    last key said k (log ++ log') = (last key said k log').or (last key said k log) := by
  induction log with
  | nil => simp [last]
  | cons r log ih => rw [List.cons_append, last, ih, last, Option.or_assoc]

theorem last_concat (log : List ρ) (r : ρ) :
    last key said k (log ++ [r]) =
      (if key r = k then said r else none).or (last key said k log) := by
  rw [last_append, last, last, Option.none_or]

theorem last_prefix {log log' : List ρ} (h : log <+: log') (none : last key said k log' = none) :
    last key said k log = Option.none := by
  obtain ⟨rest, rfl⟩ := h
  rw [last_append] at none
  exact (Option.or_eq_none_iff.mp none).2

/-- **Records put at the end again** change nothing where each says what the log says last
of its key. -/
theorem last_again {log again : List ρ}
    (h : ∀ r ∈ again, last key said (key r) log = said r) :
    last key said k (log ++ again) = last key said k log := by
  induction again using List.reverseRecOn with
  | nil => rw [List.append_nil]
  | append_singleton again r ih =>
    rw [← List.append_assoc, last_concat, ih fun r' hr' => h r' (by simp [hr'])]
    split
    case isTrue own =>
      rw [← own, h r (by simp), Option.or_self]
    case isFalse => rw [Option.none_or]

end Velosearch.Redo

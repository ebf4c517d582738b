import Mathlib.Data.List.Count
import Mathlib.Data.List.Induction
import Mathlib.Data.Nat.Notation

/-!
# Texts joined by a separator

When the parts of a text that was put together with a separator can be told from the text. They can
where it is known how many there are and none of them holds the separator, whatever the parts may
be that it is compared with (`joined_inj`); and they cannot where there are several and one of them
does (`exists_other`).
-/

set_option autoImplicit false

namespace Velosearch.Joined

variable {α : Type} {sep : α}

/-- Nothing, or something behind a separator. -/
def Tail (sep : α) (x : List α) : Prop :=
  x = [] ∨ ∃ y, x = sep :: y

/-- A text without the separator ends at the first. -/
theorem free_append_inj [DecidableEq α] {t u x y : List α} (ht : sep ∉ t) (hu : sep ∉ u)
    (hx : Tail sep x) (hy : Tail sep y) (same : t ++ x = u ++ y) : t = u ∧ x = y := by
  have upTo : ∀ {t x : List α}, sep ∉ t → Tail sep x → (t ++ x).takeWhile (· ≠ sep) = t := by
    intro t x ht hx
    rw [List.takeWhile_append_of_pos]
    · cases hx with
      | inl h => simp [h]
      | inr h =>
        obtain ⟨y, rfl⟩ := h
        simp
    · intro c hc
      simp only [ne_eq, decide_not, Bool.not_eq_eq_eq_not, Bool.not_true, decide_eq_false_iff_not]
      rintro rfl
      exact ht hc
  have t_eq : t = u := by rw [← upTo ht hx, same, upTo hu hy]
  subst t_eq
  exact ⟨rfl, List.append_cancel_left same⟩

theorem intercalate_append {before ts us : List (List α)} (ts_ne : ts ≠ []) (us_ne : us ≠ [])
    (same : [sep].intercalate ts = [sep].intercalate us) :
    [sep].intercalate (before ++ ts) = [sep].intercalate (before ++ us) := by
  induction before with
  | nil => exact same
  | cons b before ih =>
    rw [List.cons_append, List.cons_append, List.intercalate_cons_of_ne_nil (by simp [ts_ne]),
      List.intercalate_cons_of_ne_nil (by simp [us_ne]), ih]

theorem exists_other {ts : List (List α)} (several : 2 ≤ ts.length) {t : List α} (mem : t ∈ ts)
    (holds : sep ∈ t) :
    ∃ us : List (List α), us.length = ts.length ∧ us ≠ ts ∧
      [sep].intercalate us = [sep].intercalate ts := by
  obtain ⟨x, y, rfl⟩ := List.append_of_mem holds
  obtain ⟨before, after, rfl⟩ := List.append_of_mem mem
  have shorter : x ≠ x ++ sep :: y := by
    intro h
    have := congrArg List.length h
    simp at this
  cases after with
  | cons v after =>
    refine ⟨before ++ x :: (y ++ sep :: v) :: after, by simp, by simp [shorter], ?_⟩
    apply intercalate_append (by simp) (by simp)
    cases after <;> simp
  | nil =>
    cases before using List.reverseRecOn with
    | nil => simp at several
    | append_singleton before v =>
      refine ⟨before ++ [v ++ sep :: x, y], by simp, ?_, ?_⟩
      · intro h
        simp only [List.append_assoc, List.append_cancel_left_eq, List.singleton_append,
          List.cons.injEq] at h
        have := congrArg List.length h.1
        simp at this
      · rw [List.append_assoc]
        apply intercalate_append (by simp) (by simp)
        simp

variable [DecidableEq α]

theorem length_le_count (sep : α) {ts : List (List α)} (some_ : ts ≠ []) :
    ts.length ≤ ([sep].intercalate ts).count sep + 1 := by
  induction ts with
  | nil => exact absurd rfl some_
  | cons t ts ih =>
    cases ts with
    | nil => simp
    | cons u us =>
      have := ih (by simp)
      rw [List.intercalate_cons_cons, List.count_append, List.count_append, List.length_cons]
      simp only [List.count_singleton_self]
      omega

theorem count_of_free {ts : List (List α)} (free : ∀ t ∈ ts, sep ∉ t) :
    ([sep].intercalate ts).count sep ≤ ts.length - 1 := by
  induction ts with
  | nil => simp
  | cons t ts ih =>
    have none_here : t.count sep = 0 := List.count_eq_zero.mpr (free t List.mem_cons_self)
    cases ts with
    | nil => simp [none_here]
    | cons u us =>
      have := ih fun v hv => free v (List.mem_cons_of_mem t hv)
      rw [List.intercalate_cons_cons, List.count_append, List.count_append, none_here]
      simp only [List.count_singleton_self, List.length_cons] at this ⊢
      omega

/-- Texts without the separator can be told apart once joined. -/
theorem joined_inj {ts us : List (List α)} (free : ∀ t ∈ ts, sep ∉ t)
    (length : us.length = ts.length)
    (same : [sep].intercalate us = [sep].intercalate ts) : us = ts := by
  induction ts generalizing us with
  | nil => exact List.eq_nil_of_length_eq_zero length
  | cons t ts ih =>
    cases us with
    | nil => simp at length
    | cons u us =>
      have rest_free : ∀ v ∈ ts, sep ∉ v := fun v hv => free v (List.mem_cons_of_mem t hv)
      have rest_length : us.length = ts.length := by simpa using length
      cases ts with
      | nil =>
        obtain rfl := List.eq_nil_of_length_eq_zero rest_length
        simpa using same
      | cons t' ts =>
        cases us with
        | nil => simp at rest_length
        | cons u' us =>
          rw [List.intercalate_cons_cons, List.intercalate_cons_cons, List.append_assoc,
            List.append_assoc, List.singleton_append, List.singleton_append] at same
          obtain ⟨c, t_eq, rest⟩ | ⟨c, u_eq, rest⟩ := List.append_eq_append_iff.mp same
          · cases c with
            | nil =>
              rw [List.append_nil] at t_eq
              rw [ih rest_free rest_length (List.cons.inj rest).2, t_eq]
            | cons d c =>
              -- the part would hold the separator
              obtain ⟨rfl, -⟩ := List.cons.inj rest
              exact absurd (by rw [t_eq]; simp) (free t List.mem_cons_self)
          · cases c with
            | nil =>
              rw [List.append_nil] at u_eq
              rw [ih rest_free rest_length (List.cons.inj rest).2.symm, u_eq]
            | cons d c =>
              -- there would be too few seams left
              rw [List.cons_append] at rest
              obtain ⟨rfl, tail⟩ := List.cons.inj rest
              have most := count_of_free rest_free
              have least := length_le_count sep (List.cons_ne_nil u' us)
              rw [tail, List.count_append, List.count_cons_self] at most
              simp only [List.length_cons] at rest_length most least
              omega

end Velosearch.Joined

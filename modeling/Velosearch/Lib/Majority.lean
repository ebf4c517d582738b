import Mathlib.Data.Set.Basic
import Mathlib.Data.List.Basic

/-!
# Majorities of a configuration

A configuration is a list of voters, and a majority of it is a set that holds
more than half of its *places*. Places, not names: a name written twice is
counted twice, and nothing below needs the list to be free of repetitions. That
is what makes the one fact everything rests on — two majorities of one
configuration meet — hold for every list, the empty one included (it has no
majority at all).
-/

set_option autoImplicit false

namespace Velosearch.Lib

variable {N : Type}

open Classical in
/-- `S` holds more than half of the places of `config`. -/
def Majority (config : List N) (S : Set N) : Prop :=
  config.length < 2 * config.countP (fun n => decide (n ∈ S))

/-- More than a majority is one. -/
theorem Majority.mono {config : List N} {S T : Set N} (h : Majority config S)
    (hst : ∀ n ∈ config, n ∈ S → n ∈ T) : Majority config T := by
  classical
  have hle : config.countP (fun n => decide (n ∈ S)) ≤
      config.countP (fun n => decide (n ∈ T)) := by
    refine List.countP_mono_left fun n hn hS => ?_
    simp only [decide_eq_true_eq] at hS ⊢
    exact hst n hn hS
  unfold Majority at h ⊢
  omega

theorem countP_add_le {p q : N → Bool} :
    ∀ (l : List N), (∀ n ∈ l, ¬ (p n = true ∧ q n = true)) →
      l.countP p + l.countP q ≤ l.length
  | [], _ => by simp
  | n :: l, h => by
    have ih := countP_add_le l fun m hm => h m (List.mem_cons_of_mem n hm)
    have hn := h n List.mem_cons_self
    rw [List.countP_cons, List.countP_cons, List.length_cons]
    by_cases hp : p n = true <;> by_cases hq : q n = true
    · exact absurd ⟨hp, hq⟩ hn
    all_goals simp only [hp, hq, if_true, if_false, Bool.false_eq_true]; omega

/-- **Two majorities have somebody in common.** -/
theorem Majority.meet {config : List N} {S T : Set N} (hS : Majority config S)
    (hT : Majority config T) : ∃ n ∈ config, n ∈ S ∧ n ∈ T := by
  classical
  by_contra hno
  have hdis : ∀ n ∈ config,
      ¬ (decide (n ∈ S) = true ∧ decide (n ∈ T) = true) := by
    intro n hn hboth
    exact hno ⟨n, hn, of_decide_eq_true hboth.1, of_decide_eq_true hboth.2⟩
  have hle := countP_add_le config hdis
  unfold Majority at hS hT
  omega

end Velosearch.Lib

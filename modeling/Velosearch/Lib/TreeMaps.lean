import Mathlib.Data.List.Basic
import Mathlib.Data.String.Basic

/-!
# Values of an ordered map

`Std.ExtTreeMap` has lemmas for `toList` and `keys` but none for `values`; the three
here say what is in them, and what a filter by key leaves.
-/

set_option autoImplicit false

namespace Velosearch.Lib

variable {K V : Type} {cmp : K → K → Ordering} [Std.TransCmp cmp]

theorem values_eq (t : Std.ExtTreeMap K V cmp) : t.values = t.toList.map Prod.snd := by
  have folded : t.values = t.foldr (fun _ v acc => v :: acc) [] := by
    cases t with
    | mk inner =>
      cases inner with
      | mk m => rfl
  rw [folded, Std.ExtTreeMap.foldr_eq_foldr_toList]
  generalize t.toList = l
  induction l with
  | nil => rfl
  | cons a l ih => simp [ih]

variable [Std.LawfulEqCmp cmp]

/-- A value is one of some key. -/
theorem mem_values {t : Std.ExtTreeMap K V cmp} {v : V} :
    v ∈ t.values ↔ ∃ k : K, t[k]? = some v := by
  rw [values_eq, List.mem_map]
  constructor
  · rintro ⟨⟨k, w⟩, h, rfl⟩
    exact ⟨k, Std.ExtTreeMap.mem_toList_iff_getElem?_eq_some.mp h⟩
  · rintro ⟨k, h⟩
    exact ⟨(k, v), Std.ExtTreeMap.mem_toList_iff_getElem?_eq_some.mpr h, rfl⟩

theorem filter_flatten_values {α : Type} {p : α → Bool} {k : K}
    {t : Std.ExtTreeMap K (List α) cmp} (here : ∀ l, t[k]? = some l → ∀ a ∈ l, p a = true)
    (elsewhere : ∀ k' l, t[k']? = some l → k' ≠ k → ∀ a ∈ l, p a = false) :
    t.values.flatten.filter p = (t[k]?).getD [] := by
  have entries : ∀ e ∈ t.toList, t[e.1]? = some e.2 := fun e he =>
    Std.ExtTreeMap.mem_toList_iff_getElem?_eq_some.mp he
  have distinct := Std.ExtTreeMap.distinct_keys_toList (t := t)
  have found : ∀ l, t[k]? = some l → (k, l) ∈ t.toList := fun l hl =>
    Std.ExtTreeMap.mem_toList_iff_getElem?_eq_some.mpr hl
  rw [values_eq]
  generalize t.toList = entriesOf at *
  have other : ∀ L : List (K × List α), (∀ e ∈ L, t[e.1]? = some e.2) → (∀ e ∈ L, e.1 ≠ k) →
      (L.map Prod.snd).flatten.filter p = [] := by
    intro L hL hk
    rw [List.filter_eq_nil_iff]
    intro a ha
    obtain ⟨l, hl, ha⟩ := List.mem_flatten.mp ha
    obtain ⟨e, he, rfl⟩ := List.mem_map.mp hl
    rw [elsewhere e.1 e.2 (hL e he) (hk e he) a ha]
    exact nofun
  by_cases hk : ∃ e ∈ entriesOf, e.1 = k
  · obtain ⟨⟨k', l⟩, he, rfl⟩ := hk
    have hl : t[k']? = some l := entries _ he
    obtain ⟨pre, post, rfl⟩ := List.append_of_mem he
    have apart : (∀ e ∈ pre, e.1 ≠ k') ∧ ∀ e ∈ post, e.1 ≠ k' := by
      rw [List.pairwise_append, List.pairwise_cons] at distinct
      refine ⟨fun e he' heq => ?_, fun e he' heq => ?_⟩
      · have := distinct.2.2 e he' (k', l) List.mem_cons_self
        rw [heq] at this
        exact this (by simp)
      · have := distinct.2.1.1 e he'
        rw [heq] at this
        exact this (by simp)
    rw [List.map_append, List.map_cons, List.flatten_append, List.flatten_cons,
      List.filter_append, List.filter_append,
      other pre (fun e he' => entries e (by simp [he'])) apart.1,
      other post (fun e he' => entries e (by simp [he'])) apart.2, hl]
    simpa using here l hl
  · have absent : t[k]? = none := by
      cases hl : t[k]? with
      | none => rfl
      | some l => exact absurd ⟨(k, l), found l hl, rfl⟩ hk
    rw [other entriesOf entries fun e he heq => hk ⟨e, he, heq⟩, absent]
    rfl

end Velosearch.Lib

import Velosearch.Search.Paging

/-!
# Pages, however the documents lie

A page is made of what each shard collects of each of its segments, with cutoffs and cuts on the
way. None of it shows: the same documents spread over other shards and segments, in another order
and selected from otherwise, are handed out on the same pages.
-/

set_option autoImplicit false

namespace Velosearch.Search

open Lib

variable (readDate : Bool → String → Option ℤ)

/-- What a candidate is, wherever it lies. -/
def Cand.told {n : ℕ} (d : Cand n) : ℕ × List SortValue := (d.seq, d.sort)

variable {keys : List SortKey} {size : ℕ} {shards shards' : List (List (Segment keys.length))}

/-- **A page does not depend on where the documents are**. -/
theorem pages_of_any_layout (sel sel' : Selection (Cand keys.length))
    (distinct : Distinct (docsOf shards)) (walkable : Walkable keys size shards)
    (walkable' : Walkable keys size shards')
    (same : ((docsOf shards).map Cand.told).Perm ((docsOf shards').map Cand.told)) (i : ℕ) :
    (pageAt readDate keys sel size shards i).map Cand.told =
      (pageAt readDate keys sel' size shards' i).map Cand.told := by
  have distinct' : Distinct (docsOf shards') := by
    have apart : ((docsOf shards).map Cand.told).Pairwise fun a b =>
        a.2.map SortValue.worth ≠ b.2.map SortValue.worth := List.pairwise_map.mpr distinct
    have apart' := (same.pairwise_iff fun ne => ne.symm).mp apart
    rw [List.pairwise_map] at apart'
    exact apart'
  obtain ⟨ordered, perm, strict⟩ := walkable.plain.exists_ordered distinct
  obtain ⟨ordered', perm', strict'⟩ := walkable'.plain.exists_ordered distinct'
  rw [walkable.pages readDate sel perm strict i, walkable'.pages readDate sel' perm' strict' i]
  have one : ordered.map Cand.told = ordered'.map Cand.told := by
    have orders := walkable.plain.orders
    have sorted : (ordered.map Cand.told).Pairwise fun a b => cmpKeys keys a.2 b.2 = .lt :=
      List.pairwise_map.mpr strict
    have sorted' : (ordered'.map Cand.told).Pairwise fun a b => cmpKeys keys a.2 b.2 = .lt :=
      List.pairwise_map.mpr strict'
    refine List.Perm.eq_of_pairwise ?_ sorted sorted'
      (((perm.map _).trans same).trans (perm'.map _).symm)
    intro a b ha hb lt gt
    have ha := (perm.map _).mem_iff.mp ha
    have hb := same.mem_iff.mpr ((perm'.map _).mem_iff.mp hb)
    obtain ⟨d, hd, rfl⟩ := List.mem_map.mp ha
    obtain ⟨e, he, rfl⟩ := List.mem_map.mp hb
    have swap : inOrder keys e d = (inOrder keys d e).swap := orders.swap d hd e he
    have lt : inOrder keys d e = .lt := lt
    rw [lt] at swap
    cases gt.symm.trans swap
  rw [List.map_take, List.map_drop, one, List.map_take, List.map_drop]

/-- The numbers one and two, in some order. -/
theorem walkable_ones_and_twos {shards : List (List (Segment 1))}
    (values : ∀ d ∈ docsOf shards, d.sort = [.i64 1] ∨ d.sort = [.i64 2])
    (short : ∀ shard ∈ shards, ∀ seg ∈ shard, seg.docs.length < 512) :
    Walkable [{ desc := true }] 1 shards where
  some_ := Nat.one_pos
  plain d mem i key v place inside := by
    cases i with
    | succ i => exact nomatch place
    | zero =>
      rcases values d mem with eq | eq <;> rw [eq] at inside <;> cases inside <;>
        exact ⟨by decide, .inr (by decide +kernel)⟩
  found shard mem i := by
    refine .inr ⟨placed_of_last (by decide) _ _, fun seg hseg => cleared_of_short ?_⟩
    exact le_trans (List.length_filter_le ..) (le_max_of_le_right (short shard mem seg hseg).le)
  ends d mem none := by
    rcases values d mem with eq | eq <;> rw [eq] at none <;>
      exact absurd (none _ List.mem_cons_self) nofun

def onePlace : List (List (Segment 1)) :=
  [[.plain [oneValue 0 (.i64 1), oneValue 1 (.i64 2)]]]

/-- Each in a shard of its own. -/
def twoPlaces : List (List (Segment 1)) :=
  [[.plain [oneValue 7 (.i64 2)]], [.plain [], .plain [oneValue 3 (.i64 1)]]]

theorem pages_of_two_layouts :
    let page := fun shards => (pageAt (fun _ _ => none) [{ desc := true }]
      (Selection.sorting (Cand 1)) 1 shards 1).map Cand.told
    page twoPlaces = [(0, [.i64 1])] ∧ page onePlace = page twoPlaces := by
  intro page
  refine ⟨by decide +kernel, ?_⟩
  refine pages_of_any_layout (fun _ _ => none) _ _ ?_
    (walkable_ones_and_twos (by decide) (by decide))
    (walkable_ones_and_twos (by decide) (by decide)) (by decide) 1
  rw [Distinct]
  decide

end Velosearch.Search

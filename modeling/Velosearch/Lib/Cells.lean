import Mathlib
import Velosearch.Lib.Entries
import Velosearch.Lib.Grid

/-!
# A walk that may turn

The loop that goes from boundary to boundary, where the step is any at all: it may stand still, or
go back to where it has been. Its cells are those between the boundaries it comes by; when they
overlap, and what they count.
-/

set_option autoImplicit false

namespace Velosearch

namespace Grid

variable {next : ℤ → ℤ} {last c : ℤ} {cells : List (ℤ × ℤ)}

/-- Where a walk is after so many steps. -/
def cursor (next : ℤ → ℤ) (c : ℤ) (i : ℕ) : ℤ := next^[i] c

@[simp] theorem cursor_zero : cursor next c 0 = c := rfl

theorem cursor_succ (i : ℕ) : cursor next c (i + 1) = next (cursor next c i) :=
  Function.iterate_succ_apply' next i c

theorem cursor_next (i : ℕ) : cursor next (next c) i = cursor next c (i + 1) :=
  (Function.iterate_succ_apply next i c).symm

/-- The cells of its first steps. -/
def cellsTo (next : ℤ → ℤ) (c : ℤ) (m : ℕ) : List (ℤ × ℤ) :=
  (List.range m).map fun i => (cursor next c i, cursor next c (i + 1))

theorem cellsTo_succ (m : ℕ) :
    cellsTo next c (m + 1) = (c, next c) :: cellsTo next (next c) m := by
  rw [cellsTo, List.range_succ_eq_map, List.map_cons, List.map_map]
  refine congrArg₂ List.cons rfl (List.map_congr_left fun i _ => ?_)
  exact congrArg₂ Prod.mk (cursor_next i).symm (cursor_next (i + 1)).symm

/-- What a walk makes are the cells of its first steps. -/
theorem walk_cells {most : ℕ} (h : walk next last true most c = some cells) :
    ∃ m, cells = cellsTo next c m ∧ (∀ i < m, cursor next c i ≤ last) ∧
      (last < cursor next c m ∨ 0 < m ∧ cursor next c m = cursor next c (m - 1)) := by
  have past : ∀ {c : ℤ}, ¬c ≤ last → ∃ m, [] = cellsTo next c m ∧
      (∀ i < m, cursor next c i ≤ last) ∧
      (last < cursor next c m ∨ 0 < m ∧ cursor next c m = cursor next c (m - 1)) :=
    fun out => ⟨0, rfl, fun i hi => absurd hi i.not_lt_zero, .inl (not_le.mp out)⟩
  induction most generalizing c cells with
  | zero =>
    unfold walk at h
    split at h
    · cases h
    · next out =>
      cases h
      exact past out
  | succ most ih =>
    by_cases inTime : c ≤ last
    · rw [walk_succ most inTime] at h
      by_cases stands : next c = c
      · rw [if_pos (by simp [stands])] at h
        cases h
        refine ⟨1, by rw [cellsTo_succ]; rfl, ?_, .inr ⟨one_pos, ?_⟩⟩
        · intro i hi
          rw [Nat.lt_one_iff.mp hi]
          exact inTime
        · rw [cursor_succ]
          exact stands
      · rw [if_neg (by simp [stands])] at h
        obtain ⟨rest, walked, rfl⟩ := Option.map_eq_some_iff.mp h
        obtain ⟨m, rfl, within, ends⟩ := ih walked
        refine ⟨m + 1, (cellsTo_succ m).symm, ?_, ?_⟩
        · intro i hi
          cases i with
          | zero => exact inTime
          | succ i =>
            rw [← cursor_next]
            exact within i (Nat.succ_lt_succ_iff.mp hi)
        · have moved : cursor next (next c) m = cursor next c (m + 1) := cursor_next m
          rw [← moved]
          refine ends.imp_right fun stood => ⟨Nat.succ_pos m, ?_⟩
          obtain ⟨pos, stood⟩ := stood
          obtain ⟨k, rfl⟩ : ∃ k, m = k + 1 := ⟨m - 1, by omega⟩
          rw [stood, Nat.add_sub_cancel]
          exact cursor_next k
    · rw [walk_past _ (not_le.mp inTime)] at h
      cases h
      exact past inTime

/-- A cursor that does not move will not. -/
theorem cursor_stands {i : ℕ} (stands : cursor next c (i + 1) = cursor next c i) {j : ℕ}
    (le : i ≤ j) : cursor next c j = cursor next c i := by
  induction j, le using Nat.le_induction with
  | base => rfl
  | succ j _ ih =>
    rw [cursor_succ, ih]
    exact (cursor_succ i).symm.trans stands

/-- A value between two places of the cursor is in a cell between them. -/
theorem exists_cell {d : ℤ} {i j : ℕ} (le : i ≤ j) (from_ : cursor next c i ≤ d)
    (until_ : d < cursor next c j) :
    ∃ k, i ≤ k ∧ k < j ∧ cursor next c k ≤ d ∧ d < cursor next c (k + 1) := by
  induction j, le using Nat.le_induction with
  | base => omega
  | succ j le ih =>
    by_cases before : d < cursor next c j
    · obtain ⟨k, hik, hkj, hk⟩ := ih before
      exact ⟨k, hik, by omega, hk⟩
    · exact ⟨j, le, by omega, by omega, until_⟩

/-- Two cells hold no number between them. -/
def Apart (x y : ℤ × ℤ) : Prop :=
  ∀ d, ¬((x.1 ≤ d ∧ d < x.2) ∧ y.1 ≤ d ∧ d < y.2)

/-- Cells are apart when those of any two steps are. -/
theorem pairwise_cellsTo {m : ℕ} : (cellsTo next c m).Pairwise Apart ↔
    ∀ i j, i < j → j < m → Apart (cursor next c i, cursor next c (i + 1))
      (cursor next c j, cursor next c (j + 1)) := by
  rw [cellsTo, List.pairwise_map, List.pairwise_iff_getElem]
  simp only [List.length_range, List.getElem_range]
  exact ⟨fun h i j hij hj => h i j (hij.trans hj) hj hij,
    fun h i j _ hj hij => h i j hij hj⟩

/-- Cells of a cursor that only moves on are apart. -/
theorem apart_of_onward {m : ℕ}
    (onward : ∀ i, i + 1 < m → cursor next c i < cursor next c (i + 1) →
      cursor next c (i + 1) < cursor next c (i + 2)) :
    (cellsTo next c m).Pairwise Apart := by
  rw [pairwise_cellsTo]
  intro i j hij hj d both
  obtain ⟨⟨from_, until_⟩, from', -⟩ := both
  have up : cursor next c i < cursor next c (i + 1) := from_.trans_lt until_
  have climbs : ∀ k, i ≤ k → k < m →
      cursor next c k < cursor next c (k + 1) ∧ cursor next c (i + 1) ≤ cursor next c (k + 1) := by
    intro k le
    induction k, le using Nat.le_induction with
    | base => exact fun _ => ⟨up, le_rfl⟩
    | succ k _ ih =>
      intro hk
      obtain ⟨step, above⟩ := ih (by omega)
      have again := onward k hk step
      exact ⟨again, above.trans again.le⟩
  obtain ⟨k, rfl⟩ : ∃ k, j = k + 1 := ⟨j - 1, by omega⟩
  have above := (climbs k (by omega) (by omega)).2
  omega

/-- And only of such a one, within the range that is walked. -/
theorem onward_of_apart {m : ℕ} (apart : (cellsTo next c m).Pairwise Apart)
    (within : ∀ i < m, cursor next c i ≤ last) (ends : last < cursor next c m) {i : ℕ}
    (hi : i + 1 < m) (up : cursor next c i < cursor next c (i + 1)) :
    cursor next c (i + 1) < cursor next c (i + 2) := by
  by_contra back
  have stands : cursor next c (i + 2) ≠ cursor next c (i + 1) := by
    intro same
    have stuck := cursor_stands (i := i + 1) same hi.le
    have inTime := within (i + 1) hi
    omega
  have inTime := within (i + 1) hi
  have short : i + 2 ≠ m := by
    intro same
    rw [← same] at ends
    omega
  -- the cell that leads back over the boundary
  obtain ⟨k, hik, hkm, before, after⟩ : ∃ k, i + 2 ≤ k ∧ k < m ∧
      cursor next c k ≤ cursor next c (i + 1) - 1 ∧
      cursor next c (i + 1) - 1 < cursor next c (k + 1) :=
    exists_cell (by omega) (by omega) (by omega)
  have none := pairwise_cellsTo.mp apart i k (by omega) hkm (cursor next c (i + 1) - 1)
  exact none ⟨⟨by omega, by omega⟩, before, after⟩

/-! ### What the cells count -/

/-- The cell has the value in it. -/
def holds (x : ℤ × ℤ) (d : ℤ) : Bool := x.1 ≤ d && d < x.2

@[simp] theorem holds_iff {x : ℤ × ℤ} {d : ℤ} : holds x d = true ↔ x.1 ≤ d ∧ d < x.2 := by
  simp [holds]

theorem sum_counts_cons (d : ℤ) (ds : List ℤ) (cells : List (ℤ × ℤ)) :
    (cells.map fun x => (d :: ds).countP (holds x)).sum =
      (cells.map fun x => ds.countP (holds x)).sum + cells.countP (holds · d) := by
  induction cells with
  | nil => rfl
  | cons x cells ih =>
    simp only [List.map_cons, List.sum_cons]
    rw [ih, List.countP_cons, List.countP_cons]
    omega

/-- Cells that are apart and cover the values count each of them once. -/
theorem sum_counts {ds : List ℤ} (apart : cells.Pairwise Apart)
    (covers : ∀ d ∈ ds, ∃ x ∈ cells, holds x d = true) :
    (cells.map fun x => ds.countP (holds x)).sum = ds.length := by
  induction ds with
  | nil => simp
  | cons d ds ih =>
    obtain ⟨x, hx, held⟩ := covers d List.mem_cons_self
    have once : cells.countP (holds · d) = 1 := by
      apply Lib.countP_eq_one apart hx held
      intro x y disjoint inX inY
      exact disjoint d ⟨holds_iff.mp inX, holds_iff.mp inY⟩
    rw [sum_counts_cons, once, ih fun e he => covers e (List.mem_cons_of_mem d he)]
    rfl

end Grid

end Velosearch

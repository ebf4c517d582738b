import Mathlib.Data.Int.Notation
import Mathlib.Data.Nat.Notation
import Mathlib.Logic.Function.Iterate

/-!
# Grids on the line

A grid cuts the whole numbers into cells that follow one another: `floor` gives the boundary a
number's cell begins at, `next` the boundary after a boundary. Both halves of the file are about
code that goes over a grid: the grids that can be built (an even step, a shift, a grid of days
counted in a smaller unit, a strictly increasing sequence of boundaries), and the loop that goes
from boundary to boundary.
-/

set_option autoImplicit false

namespace Velosearch

/-- Cells one behind the other, and the start of the one a number is in. -/
structure Grid where
  floor : ℤ → ℤ
  next : ℤ → ℤ
  floor_le : ∀ x, floor x ≤ x
  lt_next : ∀ x, x < next (floor x)
  floor_of : ∀ {x y}, floor x ≤ y → y < next (floor x) → floor y = floor x
  floor_next : ∀ x, floor (next (floor x)) = next (floor x)

namespace Grid

variable (g : Grid)

/-- A cell starts there. -/
def Starts (b : ℤ) : Prop := g.floor b = b

@[simp] theorem floor_floor (x : ℤ) : g.floor (g.floor x) = g.floor x := by
  have hlt : g.floor x < g.next (g.floor x) := Int.lt_of_le_of_lt (g.floor_le x) (g.lt_next x)
  exact g.floor_of (Int.le_refl _) hlt

theorem starts_floor (x : ℤ) : g.Starts (g.floor x) := g.floor_floor x

variable {g}

theorem Starts.lt_next {b : ℤ} (h : g.Starts b) : b < g.next b := by
  have hlt := g.lt_next b
  rwa [show g.floor b = b from h] at hlt

/-- A number between a start and the next is in its cell. -/
theorem Starts.floor_of {b y : ℤ} (h : g.Starts b) (hle : b ≤ y) (hlt : y < g.next b) :
    g.floor y = b := by
  have hb : g.floor b = b := h
  have hy : g.floor y = g.floor b := g.floor_of (by rw [hb]; exact hle) (by rw [hb]; exact hlt)
  rw [hy, hb]

theorem Starts.next {b : ℤ} (h : g.Starts b) : g.Starts (g.next b) := by
  have hn := g.floor_next b
  rwa [show g.floor b = b from h] at hn

/-- No cell starts between two that follow each other. -/
theorem Starts.next_le {b c : ℤ} (hb : g.Starts b) (hc : g.Starts c) (h : b < c) :
    g.next b ≤ c := by
  rcases Int.lt_or_le c (g.next b) with hlt | hle
  · have hcb : g.floor c = b := hb.floor_of (Int.le_of_lt h) hlt
    have hcc : g.floor c = c := hc
    omega
  · exact hle

/-- Later numbers are in later cells. -/
theorem floor_mono {x y : ℤ} (h : x ≤ y) : g.floor x ≤ g.floor y := by
  rcases Int.lt_or_le (g.floor y) (g.floor x) with hlt | hle
  · have hnext := (g.starts_floor y).next_le (g.starts_floor x) hlt
    have hy := g.lt_next y
    have hx := g.floor_le x
    omega
  · exact hle

theorem Starts.le_floor {b y : ℤ} (hb : g.Starts b) (h : b ≤ y) : b ≤ g.floor y := by
  have hm : g.floor b ≤ g.floor y := floor_mono h
  rwa [show g.floor b = b from hb] at hm

/-! ## Cells of a least width -/

variable (g) in
/-- Every cell is at least `w` wide. -/
def Wide (w : ℤ) : Prop := ∀ b, g.Starts b → b + w ≤ g.next b

theorem Wide.eq {w b c : ℤ} (hw : g.Wide w) (hb : g.Starts b) (hc : g.Starts c)
    (h : b < c + w) (h' : c < b + w) : b = c := by
  rcases Int.lt_trichotomy b c with hlt | heq | hgt
  · have hn := hb.next_le hc hlt
    have := hw b hb
    omega
  · exact heq
  · have hn := hc.next_le hb hgt
    have := hw c hc
    omega

/-! ## Grids that can be built -/

/-- Boundaries every `step`, from zero on. -/
def even (step : ℤ) (h : 0 < step) : Grid where
  floor x := x / step * step
  next b := b + step
  floor_le x := Int.ediv_mul_le x (by omega)
  lt_next x := by
    have := Int.lt_ediv_add_one_mul_self x h
    rw [Int.add_mul, Int.one_mul] at this
    exact this
  floor_of := by
    intro x y hle hlt
    have h1 : x / step ≤ y / step := (Int.le_ediv_iff_mul_le h).mpr hle
    have h2 : y / step < x / step + 1 := by
      rw [Int.ediv_lt_iff_lt_mul h, Int.add_mul, Int.one_mul]
      exact hlt
    have h3 : y / step = x / step := by omega
    rw [h3]
  floor_next x := by
    have h1 : (x / step * step + step) = (x / step + 1) * step := by
      rw [Int.add_mul, Int.one_mul]
    rw [h1, Int.mul_ediv_cancel _ (by omega)]

/-- The boundaries `d` later. -/
def shift (g : Grid) (d : ℤ) : Grid where
  floor x := g.floor (x - d) + d
  next b := g.next (b - d) + d
  floor_le x := by
    have := g.floor_le (x - d)
    omega
  lt_next x := by
    have := g.lt_next (x - d)
    rw [Int.add_sub_cancel]
    omega
  floor_of := by
    intro x y hle hlt
    rw [Int.add_sub_cancel] at hlt
    rw [g.floor_of (x := x - d) (y := y - d) (by omega) (by omega)]
  floor_next x := by
    rw [Int.add_sub_cancel, Int.add_sub_cancel, g.floor_next]

/-- A grid counted in units of `u`, each of them cut into `u` smaller ones. -/
def scale (g : Grid) (u : ℤ) (h : 0 < u) : Grid where
  floor x := g.floor (x / u) * u
  next b := g.next (b / u) * u
  floor_le x := by
    have h1 := Int.mul_le_mul_of_nonneg_right (g.floor_le (x / u)) (Int.le_of_lt h)
    have h2 := Int.ediv_mul_le x (b := u) (by omega)
    omega
  lt_next x := by
    rw [Int.mul_ediv_cancel _ (by omega)]
    exact (Int.ediv_lt_iff_lt_mul h).mp (g.lt_next (x / u))
  floor_of := by
    intro x y hle hlt
    rw [Int.mul_ediv_cancel _ (by omega)] at hlt
    have h1 : g.floor (x / u) ≤ y / u := (Int.le_ediv_iff_mul_le h).mpr hle
    have h2 : y / u < g.next (g.floor (x / u)) := (Int.ediv_lt_iff_lt_mul h).mpr hlt
    rw [g.floor_of h1 h2]
  floor_next x := by
    have hu : u ≠ 0 := by omega
    rw [Int.mul_ediv_cancel _ hu, Int.mul_ediv_cancel _ hu, g.floor_next]

section Starts

variable {start index : ℤ → ℤ} (hmono : ∀ i, start i < start (i + 1))
  (hle : ∀ x, start (index x) ≤ x) (hlt : ∀ x, x < start (index x + 1))

include hmono

theorem start_lt {i j : ℤ} (h : i < j) : start i < start j := by
  obtain ⟨n, rfl⟩ : ∃ n : ℕ, j = i + 1 + n := ⟨(j - (i + 1)).toNat, by omega⟩
  induction n with
  | zero => simpa using hmono i
  | succ n ih =>
    have h1 := ih (by omega)
    have h2 := hmono (i + 1 + n)
    have h3 : i + 1 + ((n + 1 : ℕ) : ℤ) = i + 1 + n + 1 := by omega
    rw [h3]
    exact Int.lt_trans h1 h2

theorem start_le {i j : ℤ} (h : i ≤ j) : start i ≤ start j := by
  rcases Int.lt_or_eq_of_le h with hlt | heq
  · exact Int.le_of_lt (start_lt hmono hlt)
  · exact Int.le_of_eq (congrArg start heq)

include hle hlt

/-- The cell of a number is the only one it is in. -/
theorem index_eq {i y : ℤ} (h1 : start i ≤ y) (h2 : y < start (i + 1)) : index y = i := by
  have h3 := hle y
  have h4 := hlt y
  rcases Int.lt_trichotomy (index y) i with h | h | h
  · have := start_le hmono (show index y + 1 ≤ i by omega)
    omega
  · exact h
  · have := start_le hmono (show i + 1 ≤ index y by omega)
    omega

theorem index_start (i : ℤ) : index (start i) = i :=
  index_eq hmono hle hlt (Int.le_refl _) (hmono i)

end Starts

/-- The boundaries are what `start` gives, and `index` finds the one before a number. -/
def ofStarts (start index : ℤ → ℤ) (hmono : ∀ i, start i < start (i + 1))
    (hle : ∀ x, start (index x) ≤ x) (hlt : ∀ x, x < start (index x + 1)) : Grid where
  floor x := start (index x)
  next b := start (index b + 1)
  floor_le := hle
  lt_next x := by
    rw [index_start hmono hle hlt]
    exact hlt x
  floor_of := by
    intro x y h1 h2
    rw [index_start hmono hle hlt] at h2
    rw [index_eq hmono hle hlt h1 h2]
  floor_next x := by
    rw [index_start hmono hle hlt, index_start hmono hle hlt]

/-! ## Going from boundary to boundary -/

/-- The cells from `c` on, as long as they begin by `last`, and nothing where there are more than
`most`. -/
def walk (next : ℤ → ℤ) (last : ℤ) (halts : Bool) : ℕ → ℤ → Option (List (ℤ × ℤ))
  | 0, c => if c ≤ last then none else some []
  | most + 1, c =>
    if c ≤ last then
      if halts && next c == c then some [(c, next c)]
      else (walk next last halts most (next c)).map ((c, next c) :: ·)
    else some []

theorem walk_past {next : ℤ → ℤ} {last c : ℤ} {halts : Bool} (most : ℕ) (h : last < c) :
    walk next last halts most c = some [] := by
  cases most with
  | zero => exact if_neg (by omega)
  | succ most => exact if_neg (by omega)

theorem walk_succ {next : ℤ → ℤ} {last c : ℤ} {halts : Bool} (most : ℕ) (h : c ≤ last) :
    walk next last halts (most + 1) c =
      if halts && next c == c then some [(c, next c)]
      else (walk next last halts most (next c)).map ((c, next c) :: ·) :=
  if_pos h

/-- What a walk over a grid comes to. -/
theorem mem_walk {next : ℤ → ℤ} {last : ℤ} {halts : Bool}
    (hn : ∀ b, g.Starts b → next b = g.next b) (most : ℕ) {c : ℤ} (hc : g.Starts c)
    {cells : List (ℤ × ℤ)} (h : walk next last halts most c = some cells) (x : ℤ × ℤ) :
    x ∈ cells ↔ g.Starts x.1 ∧ c ≤ x.1 ∧ x.1 ≤ last ∧ x.2 = g.next x.1 := by
  have past : ∀ {c}, ¬ c ≤ last → (x ∈ ([] : List (ℤ × ℤ)) ↔
      g.Starts x.1 ∧ c ≤ x.1 ∧ x.1 ≤ last ∧ x.2 = g.next x.1) := by
    intro c hlast
    constructor
    · intro hx
      cases hx
    · intro hx
      have h1 := hx.2.1
      have h2 := hx.2.2.1
      omega
  induction most generalizing c cells with
  | zero =>
    unfold walk at h
    split at h
    · cases h
    · rename_i hlast
      cases h
      exact past hlast
  | succ most ih =>
    by_cases hlast : c ≤ last
    · have hlt := hc.lt_next
      rw [walk_succ most hlast, hn c hc, if_neg (by simp; omega)] at h
      obtain ⟨rest, hrest, rfl⟩ := Option.map_eq_some_iff.mp h
      have hih := ih hc.next hrest
      rw [List.mem_cons]
      constructor
      · intro hx
        cases hx with
        | inl heq =>
          rw [heq]
          exact ⟨hc, Int.le_refl _, hlast, rfl⟩
        | inr hin =>
          obtain ⟨h1, h2, h3⟩ := hih.mp hin
          exact ⟨h1, by omega, h3⟩
      · rintro ⟨hs, hle, hin, hx⟩
        rcases Int.lt_or_eq_of_le hle with hlt' | heq
        · right
          exact hih.mpr ⟨hs, hc.next_le hs hlt', hin, hx⟩
        · left
          cases x
          simp only at heq hx
          rw [hx, ← heq]
    · rw [walk_past _ (by omega)] at h
      cases h
      exact past hlast

end Grid

end Velosearch

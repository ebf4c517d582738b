import Mathlib.Data.List.Basic
import Mathlib.Data.List.Perm.Basic

/-!
# A binary heap kept in a list

The heap stands in the places from 1 on: the children of place `i` are at `2 * i` and
`2 * i + 1`. A value is moved up, or down, from a hole; the order is broken at the hole only, and
on the way the children of the hole stay in order with its parent.

`less` may be strict or not. All that is asked of it is an order that it agrees with in both
answers.
-/

set_option autoImplicit false

namespace Velosearch.Lib.Heap

variable {α : Type} [Inhabited α]

/-- A place of the heap. -/
def cell (h : List α) (i : Nat) : α := h.getD i default

theorem cell_set {h : List α} {i : Nat} (inside : i < h.length) (x : α) (k : Nat) :
    cell (h.set i x) k = if k = i then x else cell h k := by
  by_cases same : k = i
  · simp [cell, same, inside]
  · simp [cell, same, List.getElem?_set_ne (Ne.symm same)]

theorem cell_set_self {h : List α} {i : Nat} (inside : i < h.length) (x : α) :
    cell (h.set i x) i = x := by
  rw [cell_set inside, if_pos rfl]

theorem cell_set_ne {h : List α} {i k : Nat} (other : k ≠ i) (x : α) :
    cell (h.set i x) k = cell h k := by
  simp [cell, List.getElem?_set_ne (Ne.symm other)]

theorem set_set_perm {h : List α} {i j : Nat} (first : i < h.length) (second : j < h.length)
    (other : i ≠ j) (x : α) :
    ((h.set i (cell h j)).set j x).Perm (h.set i x) := by
  have second' : j < (h.set i x).length := by simpa using second
  have swapped := @List.set_set_perm _ (h.set i x) i j (by simpa using first) second'
  have there : (h.set i x)[j] = cell h j := by
    simp [cell, List.getElem_set_ne other, second]
  rw [there, List.getElem_set_self, List.set_set] at swapped
  exact swapped

/-- Moving up from a hole at `i`, whose parent is at `j`. -/
def up (less : α → α → Bool) (node : α) : Nat → List α → Nat → Nat → List α
  | 0, h, i, _ => h.set i node
  | fuel + 1, h, i, j =>
    if 0 < j ∧ less node (cell h j) then up less node fuel (h.set i (cell h j)) j (j / 2)
    else h.set i node

/-- The smaller of two children. -/
def smaller (less : α → α → Bool) (h : List α) (size i : Nat) : Nat :=
  if 2 * i + 1 ≤ size ∧ less (cell h (2 * i + 1)) (cell h (2 * i)) then 2 * i + 1 else 2 * i

/-- Moving down from a hole at `i`, whose smaller child is at `j`. -/
def down (less : α → α → Bool) (node : α) (size : Nat) : Nat → List α → Nat → Nat → List α
  | 0, h, i, _ => h.set i node
  | fuel + 1, h, i, j =>
    if j ≤ size ∧ less (cell h j) node then
      let h := h.set i (cell h j)
      down less node size fuel h j (smaller less h size j)
    else h.set i node

/-- No child is less than its parent. -/
def Ordered (le : α → α → Prop) (h : List α) : Prop :=
  ∀ k, 2 ≤ k → k < h.length → le (cell h (k / 2)) (cell h k)

/-- An order `less` agrees with. -/
structure Agrees (less : α → α → Bool) (le : α → α → Prop) : Prop where
  yes : ∀ x y, less x y = true → le x y
  no : ∀ x y, less x y = false → le y x
  trans : ∀ x y z, le x y → le y z → le x z

namespace Agrees

variable {less : α → α → Bool} {le : α → α → Prop}

omit [Inhabited α] in
theorem refl (h : Agrees less le) (x : α) : le x x := by
  cases same : less x x with
  | true => exact h.yes x x same
  | false => exact h.no x x same

end Agrees

variable {less : α → α → Bool} {le : α → α → Prop} {h : List α} {node : α} {i j k size fuel : Nat}

/-- The top is no larger than anything. -/
theorem Ordered.top_le (agrees : Agrees less le) (order : Ordered le h) (some : 1 ≤ k)
    (inside : k < h.length) : le (cell h 1) (cell h k) := by
  induction k using Nat.strongRecOn with
  | ind k ih =>
    by_cases first : k = 1
    · rw [first]
      exact agrees.refl _
    · exact agrees.trans _ _ _ (ih (k / 2) (by omega) (by omega) (by omega))
        (order k (by omega) inside)

/-- The same but for a node on its way up. -/
structure UpOrder (le : α → α → Prop) (v : List α) (i : Nat) : Prop where
  others : ∀ k, 2 ≤ k → k < v.length → k ≠ i → le (cell v (k / 2)) (cell v k)
  grand : ∀ k, 2 ≤ i → k < v.length → k / 2 = i → le (cell v (i / 2)) (cell v k)

/-- The same but for a node on its way down. -/
structure DownOrder (le : α → α → Prop) (v : List α) (i : Nat) : Prop where
  others : ∀ k, 2 ≤ k → k < v.length → k / 2 ≠ i → le (cell v (k / 2)) (cell v k)
  grand : ∀ k, 2 ≤ i → k < v.length → k / 2 = i → le (cell v (i / 2)) (cell v k)

/-- A node takes its parent's place. -/
theorem UpOrder.move (agrees : Agrees less le) (inside : i < h.length) (some : 2 ≤ i)
    (order : UpOrder le (h.set i node) i) (smaller : less node (cell h (i / 2)) = true) :
    UpOrder le ((h.set i (cell h (i / 2))).set (i / 2) node) (i / 2) := by
  have parent : i / 2 < h.length := by omega
  have apart : i / 2 ≠ i := by omega
  have value : ∀ k, cell ((h.set i (cell h (i / 2))).set (i / 2) node) k =
      if k = i / 2 then node else if k = i then cell h (i / 2) else cell h k := by
    intro k
    rw [cell_set (by simpa using parent), cell_set inside]
  have below := agrees.yes _ _ smaller
  constructor
  · intro k two inner other
    rw [List.length_set, List.length_set] at inner
    rw [value, value, if_neg other]
    by_cases here : k = i
    · rw [if_pos here, here, if_pos rfl]
      exact below
    · have kept := order.others k two (by simpa using inner) here
      rw [cell_set_ne here] at kept
      rw [if_neg here]
      by_cases child : k / 2 = i
      · have grand := order.grand k some (by simpa using inner) child
        rw [cell_set_ne apart, cell_set_ne here] at grand
        rw [child, if_neg apart.symm, if_pos rfl]
        exact grand
      · rw [cell_set_ne child] at kept
        rw [if_neg child]
        by_cases sibling : k / 2 = i / 2
        · rw [if_pos sibling]
          exact agrees.trans _ _ _ below (sibling ▸ kept)
        · rw [if_neg sibling]
          exact kept
  · intro k two inner child
    rw [List.length_set, List.length_set] at inner
    have above := order.others (i / 2) two (by simpa using parent) apart
    rw [cell_set_ne apart, cell_set_ne (by omega)] at above
    rw [value, value, if_neg (by omega), if_neg (by omega), if_neg (by omega)]
    by_cases here : k = i
    · rw [if_pos here]
      exact above
    · have kept := order.others k (by omega) (by simpa using inner) here
      rw [cell_set_ne here, child, cell_set_ne apart] at kept
      rw [if_neg here]
      exact agrees.trans _ _ _ above kept

/-- Or stays, where the parent is no larger. -/
theorem UpOrder.stop (agrees : Agrees less le) (inside : i < h.length)
    (order : UpOrder le (h.set i node) i)
    (done : ¬ (0 < i / 2 ∧ less node (cell h (i / 2)) = true)) : Ordered le (h.set i node) := by
  intro k two inner
  by_cases here : k = i
  · rw [here, cell_set inside, cell_set inside, if_pos rfl, if_neg (by omega)]
    exact agrees.no _ _ (by grind)
  · exact order.others k two inner here

/-- **Moving up** mends the order, and keeps what is in the heap. -/
theorem up_ordered (agrees : Agrees less le) (inside : i < h.length) (some : 1 ≤ i)
    (order : UpOrder le (h.set i node) i) (enough : i ≤ fuel) :
    Ordered le (up less node fuel h i (i / 2)) := by
  induction fuel generalizing h i with
  | zero => omega
  | succ fuel ih =>
    rw [up]
    split
    · rename_i moves
      have two : 2 ≤ i := by omega
      apply ih
      · simpa using by omega
      · omega
      · exact order.move agrees inside two moves.2
      · omega
    · rename_i stays
      exact order.stop agrees inside stays

/-- Going up moves nodes and loses none. -/
theorem up_perm (less : α → α → Bool) (node : α) (fuel : Nat) (inside : i < h.length) (some : 1 ≤ i) :
    (up less node fuel h i (i / 2)).Perm (h.set i node) := by
  induction fuel generalizing h i with
  | zero => exact .refl _
  | succ fuel ih =>
    rw [up]
    split
    · rename_i moves
      refine (ih (by simpa using by omega) (by omega)).trans ?_
      exact set_set_perm inside (by omega) (by omega) node
    · exact .refl _

theorem smaller_le (agrees : Agrees less le) (child : k / 2 = i)
    (inside : k ≤ size) :
    le (cell h (smaller less h size i)) (cell h k) := by
  have which : k = 2 * i ∨ k = 2 * i + 1 := by omega
  rw [smaller]
  split
  · rename_i right
    cases which with
    | inl left => rw [left]; exact agrees.yes _ _ right.2
    | inr same => rw [same]; exact agrees.refl _
  · rename_i left
    cases which with
    | inl same => rw [same]; exact agrees.refl _
    | inr right =>
      rw [right]
      apply agrees.no
      cases test : less (cell h (2 * i + 1)) (cell h (2 * i)) with
      | true => exact absurd ⟨by omega, test⟩ left
      | false => rfl

theorem smaller_half (less : α → α → Bool) (h : List α) (size i : Nat) : smaller less h size i / 2 = i := by
  rw [smaller]
  split <;> omega

theorem smaller_gt (less : α → α → Bool) (h : List α) (size : Nat) (some : 1 ≤ i) : i < smaller less h size i := by
  rw [smaller]
  split <;> omega

theorem smaller_first (less : α → α → Bool) (child : k / 2 = i) (small : k ≤ size) :
    smaller less h size i ≤ size := by
  rw [smaller]
  split <;> omega

/-- A node takes its smaller child's place. -/
theorem DownOrder.move (agrees : Agrees less le) (some : 1 ≤ i) (half : j / 2 = i)
    (inside : j < h.length)
    (least : ∀ k, k / 2 = i → k < h.length → le (cell h j) (cell h k))
    (order : DownOrder le (h.set i node) i) (smaller : less (cell h j) node = true) :
    DownOrder le ((h.set i (cell h j)).set j node) j := by
  have apart : j ≠ i := by omega
  have value : ∀ k, cell ((h.set i (cell h j)).set j node) k =
      if k = j then node else if k = i then cell h j else cell h k := by
    intro k
    rw [cell_set (by simpa using inside), cell_set (by omega)]
  constructor
  · intro k two inner other
    rw [List.length_set, List.length_set] at inner
    rw [value, value, if_neg other]
    by_cases child : k / 2 = i
    · rw [if_pos child]
      by_cases here : k = j
      · rw [if_pos here]
        exact agrees.yes _ _ smaller
      · rw [if_neg here, if_neg (by omega)]
        exact least k child inner
    · have kept := order.others k two (by simpa using inner) child
      rw [cell_set_ne child] at kept
      rw [if_neg child, if_neg (by omega)]
      by_cases here : k = i
      · have grand := order.grand j (by omega) (by simpa using inside) half
        rw [cell_set_ne (by omega), cell_set_ne apart] at grand
        rw [if_pos here, here]
        exact grand
      · rw [cell_set_ne here] at kept
        rw [if_neg here]
        exact kept
  · intro k two inner child
    rw [List.length_set, List.length_set] at inner
    have kept := order.others k (by omega) (by simpa using inner) (by omega)
    rw [child, cell_set_ne apart, cell_set_ne (by omega)] at kept
    rw [value, value, half, if_neg apart.symm, if_pos rfl, if_neg (by omega), if_neg (by omega)]
    exact kept

/-- Or stays, where neither child is less. -/
theorem DownOrder.stop (inside : i < h.length) (some : 1 ≤ i)
    (order : DownOrder le (h.set i node) i)
    (done : ∀ k, k / 2 = i → k < h.length → le node (cell h k)) : Ordered le (h.set i node) := by
  intro k two inner
  by_cases child : k / 2 = i
  · rw [child, cell_set_self inside, cell_set_ne (by omega)]
    exact done k child (by simpa using inner)
  · exact order.others k two inner child

theorem down_ordered (agrees : Agrees less le) (size_eq : size + 1 = h.length) (some : 1 ≤ i)
    (inside : i < h.length) (order : DownOrder le (h.set i node) i) (enough : size < i + fuel) :
    Ordered le (down less node size fuel h i (smaller less h size i)) := by
  induction fuel generalizing h i with
  | zero => omega
  | succ fuel ih =>
    have half := smaller_half less h size i
    have least : ∀ k, k / 2 = i → k < h.length → le (cell h (smaller less h size i)) (cell h k) :=
      fun k child inner => smaller_le agrees child (by omega)
    have after := smaller_gt less h size some
    rw [down]
    split
    · rename_i moves
      apply ih
      · simpa using size_eq
      · omega
      · simpa using by omega
      · exact order.move agrees some half (by omega) least moves.2
      · omega
    · rename_i stays
      refine order.stop inside some fun k child inner => ?_
      have there := smaller_first (h := h) less child (show k ≤ size by omega)
      refine agrees.trans _ _ _ (agrees.no _ _ ?_) (least k child inner)
      cases test : less (cell h (smaller less h size i)) node with
      | true => exact absurd ⟨there, test⟩ stays
      | false => rfl

/-- So does going down. -/
theorem down_perm (less : α → α → Bool) (node : α) (fuel : Nat) (size_eq : size + 1 = h.length) (some : 1 ≤ i) (inside : i < h.length) :
    (down less node size fuel h i (smaller less h size i)).Perm (h.set i node) := by
  induction fuel generalizing h i with
  | zero => exact .refl _
  | succ fuel ih =>
    have after := smaller_gt less h size some
    rw [down]
    split
    · rename_i moves
      refine (ih (by simpa using size_eq) (by omega) (by simpa using by omega)).trans ?_
      exact set_set_perm inside (by omega) (by omega) node
    · exact .refl _

/-! ## What is in the heap -/

theorem up_zero (less : α → α → Bool) (node : α) (h : List α) (fuel : Nat) (some : 1 ≤ i) : cell (up less node fuel h i (i / 2)) 0 = cell h 0 := by
  induction fuel generalizing h i with
  | zero => exact cell_set_ne (by omega) node
  | succ fuel ih =>
    rw [up]
    split
    · rename_i moves
      exact (ih _ (by omega)).trans (cell_set_ne (by omega) _)
    · exact cell_set_ne (by omega) node

theorem down_zero (less : α → α → Bool) (node : α) (h : List α) (size fuel : Nat) (some : 1 ≤ i) :
    cell (down less node size fuel h i (smaller less h size i)) 0 = cell h 0 := by
  induction fuel generalizing h i with
  | zero => exact cell_set_ne (by omega) node
  | succ fuel ih =>
    have after := smaller_gt less h size some
    rw [down]
    split
    · rename_i moves
      exact (ih _ (by omega)).trans (cell_set_ne (by omega) _)
    · exact cell_set_ne (by omega) node

theorem tail_perm {h' : List α} (perm : h'.Perm h) (first : cell h' 0 = cell h 0) :
    h'.tail.Perm h.tail := by
  cases h' with
  | nil => rw [List.nil_perm.mp perm]
  | cons x h' =>
    cases h with
    | nil => exact absurd (List.perm_nil.mp perm) (List.cons_ne_nil x h')
    | cons y h =>
      have same : x = y := first
      rw [same] at perm
      exact (List.perm_cons y).mp perm

end Velosearch.Lib.Heap

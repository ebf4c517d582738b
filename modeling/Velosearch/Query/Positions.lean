import Velosearch.Lib.Heap
import Mathlib.Data.List.Induction

/-!
# The heap positional queries order their parts with

Lucene's binary heap, kept to its exact order of moves. The queries keep it in the order of a key
each item has: where the part stands that the item names.
-/

set_option autoImplicit false

namespace Velosearch.Query

open Velosearch.Lib Velosearch.Lib.Heap

/-- The heap of the span queries, from its first place on. -/
structure LuceneHeap where
  heap : List Nat

namespace LuceneHeap

/-- An empty heap. -/
def new : LuceneHeap := ⟨[18446744073709551615]⟩

/-- A heap emptied. -/
def clear (q : LuceneHeap) : LuceneHeap := ⟨q.heap.take 1⟩

/-- How many are in it. -/
def len (q : LuceneHeap) : Nat := q.heap.length - 1

/-- The least. -/
def top (q : LuceneHeap) : Option Nat := q.heap[1]?

/-- One more. -/
def add (q : LuceneHeap) (item : Nat) (less : Nat → Nat → Bool) : LuceneHeap :=
  let heap := q.heap ++ [item]
  let i := heap.length - 1
  ⟨up less (cell heap i) i heap i (i / 2)⟩

/-- The top finds its place. -/
def down (q : LuceneHeap) (at_ : Nat) (less : Nat → Nat → Bool) : LuceneHeap :=
  let size := q.len
  if size = 0 then q
  else
    ⟨Heap.down less (cell q.heap at_) size (size + 1) q.heap at_ (smaller less q.heap size at_)⟩

/-- The order mended from the top, where there is one. -/
def settled (q : LuceneHeap) (less : Nat → Nat → Bool) : LuceneHeap :=
  if 0 < q.len then q.down 1 less else q

/-- The least taken out. -/
def pop (q : LuceneHeap) (less : Nat → Nat → Bool) : Option Nat × LuceneHeap :=
  let size := q.len
  if size = 0 then (none, q)
  else
    let result := cell q.heap 1
    let q : LuceneHeap := ⟨(q.heap.set 1 (cell q.heap size)).dropLast⟩
    (some result, q.settled less)

/-- What is in it. -/
def items (q : LuceneHeap) : List Nat := q.heap.tail

/-- No child is less than its parent. -/
structure Valid (le : Nat → Nat → Prop) (q : LuceneHeap) : Prop where
  some : 1 ≤ q.heap.length
  order : Ordered le q.heap

variable {less : Nat → Nat → Bool} {le : Nat → Nat → Prop} {q : LuceneHeap} {item : Nat}

theorem len_eq : q.len = q.items.length := by
  simp [len, items]

theorem Valid.congr {le' : Nat → Nat → Prop} (valid : Valid le q)
    (same : ∀ a ∈ q.items, ∀ b ∈ q.items, le a b → le' a b) : Valid le' q where
  some := valid.some
  order := by
    have held : ∀ k, 1 ≤ k → k < q.heap.length → cell q.heap k ∈ q.items := by
      intro k some inside
      rw [items, List.mem_iff_getElem]
      exact ⟨k - 1, by simp; omega, by simp [cell, inside, Nat.sub_add_cancel some]⟩
    intro k two inside
    exact same _ (held _ (by omega) (by omega)) _ (held _ (by omega) inside)
      (valid.order k two inside)

theorem valid_new : Valid le new where
  some := Nat.le_refl 1
  order := by
    intro k two inside
    exact absurd inside (by simp [new]; omega)

theorem clear_valid (valid : Valid le q) : Valid le q.clear where
  some := by
    have some := valid.some
    simp only [clear, List.length_take]
    omega
  order := by
    intro k two inside
    simp only [clear, List.length_take] at inside
    omega

theorem clear_items : q.clear.items = [] := by
  cases q with
  | mk heap => cases heap <;> simp [clear, items]

theorem cell_append {h : List Nat} {k : Nat} (inside : k < h.length) :
    cell (h ++ [item]) k = cell h k := by
  simp [cell, List.getElem?_append_left inside]

/-- **Adding an item** keeps the order, and adds just that. -/
theorem add_valid (item : Nat) (agrees : Agrees less le) (valid : Valid le q) :
    Valid le (q.add item less) ∧ (q.add item less).items.Perm (item :: q.items) := by
  have some := valid.some
  have last : (q.heap ++ [item]).length - 1 = q.heap.length := by simp
  have inside : q.heap.length < (q.heap ++ [item]).length := by simp
  have kept : (q.heap ++ [item]).set q.heap.length (cell (q.heap ++ [item]) q.heap.length) =
      q.heap ++ [item] := by
    simp [cell]
  have perm := up_perm less (cell (q.heap ++ [item]) q.heap.length) q.heap.length inside some
  have zero := up_zero less (cell (q.heap ++ [item]) q.heap.length) (q.heap ++ [item])
    q.heap.length some
  rw [kept] at perm
  simp only [add, last]
  refine ⟨⟨?_, ?_⟩, ?_⟩
  · rw [perm.length_eq]
    simp
  · refine up_ordered agrees inside some ?_ (Nat.le_refl _)
    rw [kept]
    constructor
    · intro k two inner other
      have before : k < q.heap.length := by
        rw [List.length_append, List.length_singleton] at inner
        omega
      rw [cell_append before, cell_append (by omega)]
      exact valid.order k two before
    · intro k two inner child
      simp only [List.length_append, List.length_singleton] at inner
      omega
  · refine (tail_perm perm zero).trans ?_
    rw [List.tail_append_of_ne_nil (List.ne_nil_of_length_pos some)]
    exact List.perm_append_comm

theorem lifted_perm {x : Nat} {t : List Nat} :
    (x :: t).Perm (x :: ((cell (x :: t) t.length :: t).dropLast)) := by
  apply List.Perm.cons
  induction t using List.reverseRecOn with
  | nil => exact .refl _
  | append_singleton t y _ =>
    have last : cell (x :: (t ++ [y])) (t ++ [y]).length = y := by simp [cell]
    rw [last, ← List.cons_append, List.dropLast_concat]
    exact List.perm_append_comm

theorem settled_valid (agrees : Agrees less le) (some : 1 ≤ q.heap.length)
    (order : ∀ k, 2 ≤ k → k < q.heap.length → k / 2 ≠ 1 →
      le (cell q.heap (k / 2)) (cell q.heap k)) :
    Valid le (q.settled less) ∧ (q.settled less).items.Perm q.items := by
  rw [settled]
  by_cases any : 0 < q.len
  · have length : q.len + 1 = q.heap.length := by
      rw [len]
      omega
    have inside : 1 < q.heap.length := by omega
    have kept : q.heap.set 1 (cell q.heap 1) = q.heap := by simp [cell, inside]
    have perm := down_perm less (cell q.heap 1) (q.len + 1) length (Nat.le_refl 1) inside
    rw [kept] at perm
    rw [if_pos any, down, if_neg (by omega)]
    refine ⟨⟨?_, ?_⟩, tail_perm perm (down_zero less _ _ _ _ (Nat.le_refl 1))⟩
    · rw [perm.length_eq]
      exact some
    · refine down_ordered agrees length (Nat.le_refl 1) inside ?_ (by omega)
      rw [kept]
      exact ⟨order, fun k two => by omega⟩
  · rw [if_neg any]
    refine ⟨⟨some, ?_⟩, .refl _⟩
    intro k two inside
    simp only [len] at any
    omega

/-- **Taking the top** keeps the order, and takes just that. -/
theorem pop_valid (agrees : Agrees less le) (valid : Valid le q) (some_ : q.items ≠ []) :
    ∃ item, (q.pop less).1 = some item ∧ q.top = some item ∧ Valid le (q.pop less).2 ∧
      q.items.Perm (item :: (q.pop less).2.items) := by
  obtain ⟨heap⟩ := q
  cases heap with
  | nil => exact absurd rfl some_
  | cons first t =>
    cases t with
    | nil => exact absurd rfl some_
    | cons x t =>
      have popped : (⟨first :: x :: t⟩ : LuceneHeap).pop less =
          (some x, (⟨first :: (cell (x :: t) t.length :: t).dropLast⟩ : LuceneHeap).settled less) :=
        rfl
      have before : ∀ k, 2 ≤ k → k < (first :: (cell (x :: t) t.length :: t).dropLast).length →
          cell (first :: (cell (x :: t) t.length :: t).dropLast) k = cell (first :: x :: t) k := by
        intro k two inside
        obtain ⟨k, rfl⟩ := Nat.exists_eq_add_of_le' two
        simp only [List.length_cons, List.length_dropLast] at inside
        have inner : k + 1 < (cell (x :: t) t.length :: t).length - 1 := by
          simp only [List.length_cons]
          omega
        generalize cell (x :: t) t.length = z at inner
        simp only [cell, List.getD_eq_getElem?_getD]
        rw [List.getElem?_cons_succ, List.getElem?_dropLast, if_pos inner]
        rfl
      have settled := settled_valid (q := ⟨first :: (cell (x :: t) t.length :: t).dropLast⟩) agrees
        (by simp) (fun k two inside inner => by
          have inside : k < (first :: (cell (x :: t) t.length :: t).dropLast).length := inside
          rw [before k two inside, before (k / 2) (by omega) (by omega)]
          refine valid.order k two ?_
          simp only [List.length_cons, List.length_dropLast] at inside ⊢
          omega)
      rw [popped]
      refine ⟨x, rfl, rfl, settled.1, ?_⟩
      exact lifted_perm.trans (settled.2.symm.cons x)

theorem top_le (agrees : Agrees less le) (valid : Valid le q) (top : q.top = some item) :
    item ∈ q.items ∧ ∀ other ∈ q.items, le item other := by
  have inside : 1 < q.heap.length := by
    by_contra none
    rw [LuceneHeap.top, List.getElem?_eq_none (by omega)] at top
    cases top
  have first : cell q.heap 1 = item := by
    simpa [cell, LuceneHeap.top, inside] using top
  constructor
  · rw [items, ← first]
    simp [cell, inside, List.mem_iff_getElem]
    exact ⟨0, by omega, rfl⟩
  · intro other there
    obtain ⟨k, inner, same⟩ := List.mem_iff_getElem.mp there
    simp only [items, List.length_tail] at inner
    have le := valid.order.top_le agrees (k := k + 1) (by omega) (by omega)
    rw [first] at le
    simpa [cell, show k + 1 < q.heap.length by omega, ← same, items] using le

end LuceneHeap

end Velosearch.Query

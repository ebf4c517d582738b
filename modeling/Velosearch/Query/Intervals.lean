import Mathlib.Data.List.Basic
import Mathlib.Data.List.TakeWhile
import Mathlib.Tactic.Common

/-!
# Interval iterators, and the filters over two of them

An `intervals` query walks the stretches of a document its rule matches with an iterator that
says where the next one starts and ends. A filter walks two of them at once: each interval of
`a` is met once, and `b` is moved on as long as it stands behind it. What is passed over is
behind every later interval of `a` too, which is what makes one walk enough.

`not_containing` gives up more than it should: it asks that `b` stand after the interval, so an
interval that ends inside one of `b` is left out although it contains none.
-/

set_option autoImplicit false

namespace Velosearch.Query

/-- There is no more. -/
def NO_MORE : Int := 2147483647

/-- An interval. -/
structure Interval where
  start : Int
  «end» : Int
deriving DecidableEq, Repr

/-- The trait every iterator has, over one document. -/
class Intervals (σ : Type) where
  nextInterval : σ → Int × σ
  start : σ → Int
  «end» : σ → Int

open Intervals

/-- What a caller gets that asks for the next interval until there is none: `NO_MORE` comes
after just these. -/
inductive Returns {σ : Type} [Intervals σ] : σ → List Interval → Prop where
  | done {it : σ} (none : (nextInterval it).1 = NO_MORE) : Returns it []
  | more {it : σ} {l : List Interval} (found : (nextInterval it).1 ≠ NO_MORE)
      (later : Returns (nextInterval it).2 l) :
      Returns it (⟨start (nextInterval it).2, Intervals.end (nextInterval it).2⟩ :: l)

namespace Returns

variable {σ : Type} [Intervals σ] {it other : σ} {l l' : List Interval}

/-- An iterator returns what its first interval and the rest are. -/
theorem of_next (same : nextInterval it = nextInterval other) (h : Returns other l) :
    Returns it l := by
  cases h with
  | done none => exact .done (same ▸ none)
  | more found later =>
    rw [← same] at found later ⊢
    exact .more found later

theorem cons {item : Interval} (next : nextInterval it = (item.start, other))
    (found : item.start ≠ NO_MORE) (first : start other = item.start)
    (last : Intervals.end other = item.end) (later : Returns other l) :
    Returns it (item :: l) := by
  have walked := @Returns.more _ _ it l
  rw [next] at walked
  rw [first, last] at walked
  exact walked found later

/-- It returns nothing else. -/
theorem unique (h : Returns it l) (h' : Returns it l') : l = l' := by
  induction h generalizing l' with
  | done none =>
    cases h' with
    | done => rfl
    | more found => exact absurd none found
  | more found later ih =>
    cases h' with
    | done none => exact absurd none found
    | more found' later' => rw [ih later']

end Returns

/-! ## A source walked from its first interval -/

/-- The intervals of a source in one document: each starts and ends after the one before. -/
structure Sequence where
  items : List Interval
  inside : ∀ x ∈ items, 0 ≤ x.start ∧ x.start ≤ x.end ∧ x.end < NO_MORE
  increasing : items.Pairwise fun x y => x.start < y.start ∧ x.end < y.end

/-- A source of intervals, with the one it is at. -/
structure Cursor where
  rest : List Interval
  start : Int
  «end» : Int
deriving DecidableEq, Repr

namespace Cursor

/-- A source that has not begun. -/
def unset (items : List Interval) : Cursor := ⟨items, -1, -1⟩

/-- A source at an interval. -/
def on (x : Interval) (rest : List Interval) : Cursor := ⟨rest, x.start, x.end⟩

/-- A source that has ended. -/
def ended : Cursor := ⟨[], NO_MORE, NO_MORE⟩

def nextInterval : Cursor → Int × Cursor
  | ⟨[], _, _⟩ => (NO_MORE, ended)
  | ⟨x :: rest, _, _⟩ => (x.start, on x rest)

instance : Intervals Cursor where
  nextInterval := nextInterval
  start := Cursor.start
  «end» := Cursor.end

@[simp] theorem on_start (x : Interval) (rest : List Interval) : (on x rest).start = x.start := rfl
@[simp] theorem on_end (x : Interval) (rest : List Interval) : (on x rest).end = x.end := rfl
@[simp] theorem on_rest (x : Interval) (rest : List Interval) : (on x rest).rest = rest := rfl
@[simp] theorem unset_rest (items : List Interval) : (unset items).rest = items := rfl

/-- Intervals passed over. -/
def passOver (behind : Int → Int → Bool) : List Interval → Int → Int → Bool × Cursor
  | [], s, e => if behind s e then (true, ended) else (false, ⟨[], s, e⟩)
  | x :: rest, s, e =>
    if behind s e then passOver behind rest x.start x.end else (false, ⟨x :: rest, s, e⟩)

/-- The source moves on to one that is not behind. -/
def advance (c : Cursor) (behind : Int → Int → Bool) : Bool × Cursor :=
  passOver behind c.rest c.start c.end

/-- What a source has ahead of it. -/
inductive Ahead : Cursor → List Interval → Prop where
  | unset (items : List Interval) : Ahead (unset items) items
  | on (x : Interval) (rest : List Interval) : Ahead (on x rest) (x :: rest)

variable {behind : Int → Int → Bool}

/-- Moving on passes over what is behind. -/
theorem advance_on (behind : Int → Int → Bool) (x : Interval) (rest : List Interval) :
    (on x rest).advance behind =
      match (x :: rest).dropWhile fun y => behind y.start y.end with
      | [] => (true, ended)
      | y :: l => (false, on y l) := by
  induction rest generalizing x with
  | nil =>
    cases h : behind x.start x.end with
    | true => simp [advance, passOver, h]
    | false => simp [advance, passOver, h, on]
  | cons z rest ih =>
    cases h : behind x.start x.end with
    | true =>
      have moved : (on x (z :: rest)).advance behind = (on z rest).advance behind := by
        simp [advance, passOver, h]
      rw [moved, ih z]
      simp [List.dropWhile, h]
    | false => simp [advance, passOver, h, on]

/-- **Where an iterator stands after the loop**: on the first interval that is not behind. -/
theorem Ahead.advance {c : Cursor} {l : List Interval} (h : Ahead c l)
    (unset : behind (-1) (-1) = true) :
    c.advance behind =
      match l.dropWhile fun y => behind y.start y.end with
      | [] => (true, ended)
      | y :: l => (false, Cursor.on y l) := by
  cases h with
  | on x rest => exact advance_on behind x rest
  | unset =>
    cases l with
    | nil => simp [Cursor.unset, Cursor.advance, passOver, unset]
    | cons x rest =>
      rw [← advance_on behind x rest]
      simp [Cursor.unset, Cursor.advance, passOver, unset]

end Cursor

/-! ## The filters -/

/-- How two intervals may stand. -/
inductive Relation where
  | containing
  | containedBy
  | overlapping
deriving DecidableEq, Repr

namespace Relation

/-- The condition of the loop that moves `b` on. -/
def behind (kind : Relation) (a : Interval) (start «end» : Int) : Bool :=
  match kind with
  | .containing => start < a.start && «end» < a.end
  | .containedBy => «end» < a.end
  | .overlapping => «end» < a.start

/-- The test of an interval of `a` once `b` is not behind it. -/
def accepts (kind : Relation) (a : Interval) (b : Cursor) : Bool :=
  match kind with
  | .containing => a.start ≤ b.start && a.end ≥ b.end
  | .containedBy => b.start ≤ a.start
  | .overlapping => b.start ≤ a.end

/-- They do. -/
def Holds (kind : Relation) (x y : Interval) : Prop :=
  match kind with
  | .containing => x.start ≤ y.start ∧ y.end ≤ x.end
  | .containedBy => y.start ≤ x.start ∧ x.end ≤ y.end
  | .overlapping => x.start ≤ y.end ∧ y.start ≤ x.end

instance (kind : Relation) (x y : Interval) : Decidable (kind.Holds x y) := by
  cases kind
  · exact inferInstanceAs (Decidable (x.start ≤ y.start ∧ y.end ≤ x.end))
  · exact inferInstanceAs (Decidable (y.start ≤ x.start ∧ x.end ≤ y.end))
  · exact inferInstanceAs (Decidable (x.start ≤ y.end ∧ y.start ≤ x.end))

end Relation

/-- `containing`, `contained_by` and `overlapping`: the intervals of `a` that stand in that
relation to one of `b`. -/
structure FilteringIt where
  a : Cursor
  b : Cursor
  bpos : Bool
  kind : Relation

namespace FilteringIt

def reset (it : FilteringIt) : FilteringIt :=
  let (next, b) := it.b.nextInterval
  { it with b, bpos := next != NO_MORE }

/-- The loop of `next_interval`, over what `a` has left. -/
def seek (kind : Relation) : List Interval → Cursor → Int × FilteringIt
  | [], b => (NO_MORE, { a := .ended, b, bpos := kind = .containing, kind })
  | x :: rest, b =>
    let (out, b) := b.advance (kind.behind x)
    if out then
      (NO_MORE, { a := .on x rest, b, bpos := false, kind })
    else if kind.accepts x b then
      (x.start, { a := .on x rest, b, bpos := true, kind })
    else
      seek kind rest b

instance : Intervals FilteringIt where
  nextInterval it := if it.bpos then seek it.kind it.a.rest it.b else (NO_MORE, it)
  start it := if it.bpos then it.a.start else NO_MORE
  «end» it := if it.bpos then it.a.end else NO_MORE

def iterator (kind : Relation) (a b : Sequence) : FilteringIt :=
  reset { a := .unset a.items, b := .unset b.items, bpos := false, kind }

end FilteringIt

/-- The relations that are refused. -/
inductive Difference where
  | notContaining
  | notContainedBy
  | nonOverlapping
deriving DecidableEq, Repr

namespace Difference

/-- The one that is not to hold. -/
def positive : Difference → Relation
  | .notContaining => .containing
  | .notContainedBy => .containedBy
  | .nonOverlapping => .overlapping

/-- The condition of the loop that moves `b` on. -/
def behind (kind : Difference) (a : Interval) (start «end» : Int) : Bool :=
  match kind with
  | .notContaining => start < a.start && «end» < a.end
  | .notContainedBy => «end» < a.end
  | .nonOverlapping => «end» < a.start

/-- The test of an interval of `a` once `b` is not behind it. -/
def accepts (kind : Difference) (a : Interval) (b : Cursor) : Bool :=
  match kind with
  | .notContaining => b.start > a.end
  | .notContainedBy => a.start < b.start
  | .nonOverlapping => b.start > a.end

end Difference

/-- `not_containing`, `not_contained_by` and `not_overlapping`: the intervals of `a` that no
interval of `b` spoils. -/
structure RelativeIt where
  a : Cursor
  b : Option Cursor
  bpos : Bool
  kind : Difference

namespace RelativeIt

def reset (it : RelativeIt) : RelativeIt := { it with bpos := it.b.isSome }

/-- The loop of `next_interval`, over what `a` has left. -/
def seek (kind : Difference) : List Interval → Cursor → Int × RelativeIt
  | [], b => (NO_MORE, { a := .ended, b := some b, bpos := true, kind })
  | x :: rest, b =>
    let (out, b) := b.advance (kind.behind x)
    if out then
      -- with `not_contained_by` the iterator stays where it ran out, and is not behind again
      (x.start, { a := .on x rest, b := some b, bpos := kind = .notContainedBy, kind })
    else if kind.accepts x b then
      (x.start, { a := .on x rest, b := some b, bpos := true, kind })
    else
      seek kind rest b

instance : Intervals RelativeIt where
  nextInterval it :=
    match it.b.filter fun _ => it.bpos with
    | none => let (next, a) := it.a.nextInterval; (next, { it with a })
    | some b => seek it.kind it.a.rest b
  start it := it.a.start
  «end» it := it.a.end

/-- The iterator of a difference, reset for the document: without `b` where its source does not
stand on the document. -/
def iterator (kind : Difference) (a : Sequence) (b : Option Sequence) : RelativeIt :=
  reset { a := .unset a.items, b := b.map fun b => .unset b.items, bpos := false, kind }

end RelativeIt

/-! ## What one walk keeps -/

variable {a b : Sequence} {x y z : Interval} {l rest items : List Interval}

/-- Intervals one behind the other, in both their ends. -/
def Increasing (l : List Interval) : Prop :=
  l.Pairwise fun x y => x.start < y.start ∧ x.end < y.end

namespace Relation

variable {kind : Relation}

/-- What is behind an interval is behind the next. -/
theorem behind_mono (first : x.start < y.start) (last : x.end < y.end)
    (h : kind.behind x z.start z.end = true) : kind.behind y z.start z.end = true := by
  cases kind <;> simp only [behind, Bool.and_eq_true, decide_eq_true_eq] at h ⊢ <;> omega

/-- What is behind does not hold. -/
theorem not_holds_of_behind (h : kind.behind x y.start y.end = true) : ¬ kind.Holds x y := by
  cases kind <;> simp only [behind, Bool.and_eq_true, decide_eq_true_eq] at h <;>
    simp only [Holds] <;> omega

theorem accepts_iff (rest : List Interval) (h : kind.behind x y.start y.end = false) :
    kind.accepts x (.on y rest) = true ↔ kind.Holds x y := by
  cases kind <;>
    simp only [behind, Bool.and_eq_false_iff, decide_eq_false_iff_not] at h <;>
    simp only [accepts, Holds, Bool.and_eq_true, decide_eq_true_eq] <;>
    simp only [Cursor.on_start, Cursor.on_end] <;> omega

/-- What is not behind, and does not hold, holds of no later one. -/
theorem not_holds_later (h : kind.behind x y.start y.end = false) (fails : ¬ kind.Holds x y)
    (first : y.start < z.start) (last : y.end < z.end) : ¬ kind.Holds x z := by
  cases kind <;>
    simp only [behind, Bool.and_eq_false_iff, decide_eq_false_iff_not] at h <;>
    simp only [Holds] at fails ⊢ <;> omega

/-- It holds of some interval. -/
def HoldsOf (kind : Relation) (l : List Interval) (x : Interval) : Prop := ∃ y ∈ l, kind.Holds x y

instance (kind : Relation) (l : List Interval) (x : Interval) : Decidable (kind.HoldsOf l x) :=
  inferInstanceAs (Decidable (∃ y ∈ l, kind.Holds x y))

/-- The intervals of `b` that a walk has in front of it once it has met `x`. -/
def ahead (kind : Relation) (x : Interval) (l : List Interval) : List Interval :=
  l.dropWhile fun z => kind.behind x z.start z.end

theorem ahead_increasing (kind : Relation) (x : Interval) (order : Increasing l) : Increasing (kind.ahead x l) :=
  order.sublist (List.dropWhile_sublist _)

theorem ahead_met (h : kind.ahead x l = y :: rest) : kind.behind x y.start y.end = false := by
  have first := List.head?_dropWhile_not (fun z : Interval => kind.behind x z.start z.end) l
  rw [← ahead, h] at first
  simpa using first

theorem holdsOf_ahead (order : Increasing (x :: items)) (there : y ∈ x :: items) :
    kind.HoldsOf (kind.ahead x l) y ↔ kind.HoldsOf l y := by
  constructor
  · intro ⟨z, later, holds⟩
    exact ⟨z, (List.dropWhile_suffix _).mem later, holds⟩
  · intro ⟨z, held, holds⟩
    rw [← List.takeWhile_append_dropWhile (p := fun z => kind.behind x z.start z.end) (l := l)]
      at held
    cases List.mem_append.mp held with
    | inr later => exact ⟨z, later, holds⟩
    | inl passed =>
      have behind := List.mem_takeWhile_imp passed
      cases List.mem_cons.mp there with
      | inl same => exact absurd holds (not_holds_of_behind (same ▸ behind))
      | inr later =>
        have after := (List.pairwise_cons.mp order).1 y later
        exact absurd holds (not_holds_of_behind (behind_mono after.1 after.2 behind))

theorem ahead_ahead (first : x.start < y.start) (last : x.end < y.end) :
    kind.ahead y (kind.ahead x l) = kind.ahead y l := by
  induction l with
  | nil => rfl
  | cons z l ih =>
    cases h : kind.behind x z.start z.end with
    | false => simp [ahead, h]
    | true =>
      have later : kind.behind y z.start z.end = true := behind_mono first last h
      simpa [ahead, h, later] using ih

/-- What was passed over does not matter for what is ahead. -/
theorem filter_ahead (kind : Relation) (l : List Interval) (order : Increasing (x :: items)) :
    (items.filter fun y => kind.HoldsOf (kind.ahead x l) y) =
      items.filter fun y => kind.HoldsOf l y := by
  apply List.filter_congr
  intro y there
  exact decide_eq_decide.mpr (holdsOf_ahead order (List.mem_cons_of_mem _ there))

theorem holdsOf_first (order : Increasing l) (first : kind.ahead x l = y :: rest) :
    kind.HoldsOf l x ↔ kind.Holds x y := by
  have met := ahead_met first
  have still := ahead_increasing kind x order
  rw [← holdsOf_ahead (List.pairwise_singleton _ x) (List.mem_singleton_self x), first]
  rw [first] at still
  constructor
  · intro ⟨z, there, holds⟩
    cases List.mem_cons.mp there with
    | inl here => exact here ▸ holds
    | inr later =>
      have order := (List.pairwise_cons.mp still).1 z later
      by_contra fails
      exact not_holds_later met fails order.1 order.2 holds
  · intro holds
    exact ⟨y, List.mem_cons_self, holds⟩

theorem not_holdsOf_passed (none : kind.ahead x l = []) : ¬ kind.HoldsOf l x := by
  rw [← holdsOf_ahead (List.pairwise_singleton _ x) (List.mem_singleton_self x), none]
  intro ⟨z, there, _⟩
  exact absurd there List.not_mem_nil

end Relation

namespace FilteringIt

variable {kind : Relation}

/-- An iterator with nothing left. -/
theorem returns_none {it : FilteringIt} (out : it.bpos = false) : Returns it [] := by
  apply Returns.done
  show (if it.bpos then seek it.kind it.a.rest it.b else (NO_MORE, it)).1 = NO_MORE
  rw [out]
  rfl

/-- **The walk of a filter**, with `b` on its first interval that may still count. -/
theorem returns (inside : ∀ x ∈ items, x.start < NO_MORE) (order : Increasing items)
    (others : Increasing (y :: l)) (s e : Int) :
    Returns ({ a := ⟨items, s, e⟩, b := .on y l, bpos := true, kind } : FilteringIt)
      (items.filter fun x => kind.HoldsOf (y :: l) x) := by
  induction items generalizing y l s e with
  | nil => exact .done rfl
  | cons x rest ih =>
    have moved := Cursor.advance_on (kind.behind x) y l
    rw [← Relation.ahead] at moved
    have passed := Relation.filter_ahead kind (y :: l) order
    cases ahead : kind.ahead x (y :: l) with
    | nil =>
      have none : ∀ x' ∈ x :: rest, ¬ kind.HoldsOf (y :: l) x' := by
        intro x' there
        rw [← Relation.holdsOf_ahead order there, ahead]
        intro ⟨z, there, _⟩
        exact absurd there List.not_mem_nil
      rw [List.filter_eq_nil_iff.mpr (fun x' there => by simpa using none x' there)]
      apply Returns.done
      show (seek kind (x :: rest) (.on y l)).1 = NO_MORE
      simp only [seek, moved, ahead]
      rfl
    | cons z l' =>
      have still := Relation.ahead_increasing kind x others
      have first := Relation.holdsOf_first others ahead
      rw [← Relation.accepts_iff l' (Relation.ahead_met ahead)] at first
      rw [ahead] at moved passed still
      have later := ih (fun x' there => inside x' (List.mem_cons_of_mem _ there))
        (List.pairwise_cons.mp order).2 still x.start x.end
      rw [passed] at later
      cases test : kind.accepts x (.on z l') with
      | true =>
        have next : Intervals.nextInterval
            ({ a := ⟨x :: rest, s, e⟩, b := .on y l, bpos := true, kind } : FilteringIt) =
              (x.start, { a := .on x rest, b := .on z l', bpos := true, kind }) := by
          show seek kind (x :: rest) (.on y l) = _
          simp [seek, moved, test]
        rw [List.filter_cons, if_pos (by simpa using first.mpr test)]
        exact .cons next (Int.ne_of_lt (inside x List.mem_cons_self)) rfl rfl later
      | false =>
        have fails : ¬ kind.HoldsOf (y :: l) x := fun h => by simp [first.mp h] at test
        rw [List.filter_cons, if_neg (by simpa using fails)]
        refine later.of_next ?_
        show seek kind (x :: rest) (.on y l) = seek kind rest (.on z l')
        simp [seek, moved, test]

/-- **The positive filters** return just the intervals of `a` that stand in the relation to some
interval of `b`. -/
theorem returns_iterator (kind : Relation) (a b : Sequence) :
    Returns (iterator kind a b) (a.items.filter fun x => kind.HoldsOf b.items x) := by
  cases h : b.items with
  | nil =>
    rw [List.filter_eq_nil_iff.mpr (fun x _ => by simp [Relation.HoldsOf])]
    apply returns_none
    simp [iterator, reset, Cursor.unset, Cursor.nextInterval, h]
  | cons y l =>
    have start : y.start ≠ NO_MORE := by
      have inside := b.inside y (h ▸ List.mem_cons_self)
      omega
    have reset : iterator kind a b = { a := .unset a.items, b := .on y l, bpos := true, kind } := by
      simp [iterator, reset, Cursor.unset, Cursor.nextInterval, h, start]
    rw [reset]
    refine returns (fun x there => ?_) a.increasing (h ▸ b.increasing) (-1) (-1)
    have inside := a.inside x there
    omega

end FilteringIt

namespace Difference

variable {kind : Difference}

theorem behind_eq : kind.behind = kind.positive.behind := by
  cases kind <;> rfl

/-- What is asked of an interval: the first of `b` that is not behind it passes the test. -/
def passes (kind : Difference) (l : List Interval) (x : Interval) : Bool :=
  match kind.positive.ahead x l with
  | [] => true
  | y :: rest => kind.accepts x (.on y rest)

theorem filter_passes (kind : Difference) (l : List Interval) (order : Increasing (x :: items)) :
    items.filter (kind.passes (kind.positive.ahead x l)) = items.filter (kind.passes l) := by
  apply List.filter_congr
  intro y there
  have after := (List.pairwise_cons.mp order).1 y there
  rw [passes, Relation.ahead_ahead after.1 after.2, ← passes]

theorem filter_passes_nil : items.filter (kind.passes []) = items := by
  apply List.filter_eq_self.mpr
  intro y _
  rfl

end Difference

namespace RelativeIt

variable {kind : Difference}

/-- One whose other side has ended. -/
theorem returns_rest {b : Option Cursor} {bpos : Bool} (out : (b.filter fun _ => bpos) = none)
    (inside : ∀ x ∈ items, x.start < NO_MORE) (s e : Int) :
    Returns ({ a := ⟨items, s, e⟩, b, bpos, kind } : RelativeIt) items := by
  induction items generalizing s e with
  | nil =>
    apply Returns.done
    simp [Intervals.nextInterval, out, Cursor.nextInterval]
  | cons x rest ih =>
    have later := ih (fun y there => inside y (List.mem_cons_of_mem _ there)) x.start x.end
    refine .cons ?_ (Int.ne_of_lt (inside x List.mem_cons_self)) rfl rfl later
    simp [Intervals.nextInterval, out, Cursor.nextInterval, Cursor.on]

theorem returns_ended (inside : ∀ x ∈ items, x.start < NO_MORE ∧ x.end < NO_MORE) (s e : Int) :
    Returns ({ a := ⟨items, s, e⟩, b := some .ended, bpos := true, kind := .notContainedBy }
      : RelativeIt) items := by
  induction items generalizing s e with
  | nil => exact .done rfl
  | cons x rest ih =>
    have later := ih (fun y there => inside y (List.mem_cons_of_mem _ there)) x.start x.end
    have here := inside x List.mem_cons_self
    refine .cons ?_ (Int.ne_of_lt here.1) rfl rfl later
    show seek .notContainedBy (x :: rest) .ended = _
    have still : ¬ NO_MORE < x.end := by omega
    simp [seek, Cursor.advance, Cursor.ended, Cursor.passOver, Difference.behind, still,
      Difference.accepts, here.1, Cursor.on]

/-- **The walk of a difference**, with `b` at the first of its intervals that may still count. -/
theorem returns {c : Cursor} (inside : ∀ x ∈ items, 0 ≤ x.start ∧ 0 ≤ x.end ∧
      x.start < NO_MORE ∧ x.end < NO_MORE)
    (order : Increasing items) (at_ : c.Ahead l) (s e : Int) :
    Returns ({ a := ⟨items, s, e⟩, b := some c, bpos := true, kind } : RelativeIt)
      (items.filter (kind.passes l)) := by
  induction items generalizing c l s e with
  | nil => exact .done rfl
  | cons x rest ih =>
    have here := inside x List.mem_cons_self
    have later := fun y there => inside y (List.mem_cons_of_mem x there)
    have unset : kind.behind x (-1) (-1) = true := by
      cases kind <;> simp only [Difference.behind, Bool.and_eq_true, decide_eq_true_eq] <;> omega
    have moved := at_.advance unset
    have passed := Difference.filter_passes kind l order
    have order := (List.pairwise_cons.mp order).2
    rw [show (l.dropWhile fun y => kind.behind x y.start y.end) = kind.positive.ahead x l by
      rw [Difference.behind_eq]; rfl] at moved
    cases ahead : kind.positive.ahead x l with
    | nil =>
      rw [ahead] at moved passed
      have passes : kind.passes l x = true := by simp [Difference.passes, ahead]
      rw [List.filter_cons, if_pos passes, ← passed, Difference.filter_passes_nil]
      have next : Intervals.nextInterval
          ({ a := ⟨x :: rest, s, e⟩, b := some c, bpos := true, kind } : RelativeIt) =
            (x.start, { a := .on x rest, b := some .ended,
                        bpos := kind = .notContainedBy, kind }) := by
        show seek kind (x :: rest) c = _
        simp [seek, moved]
      refine .cons next (Int.ne_of_lt here.2.2.1) rfl rfl ?_
      cases kind with
      | notContainedBy => exact returns_ended (fun y there => (later y there).2.2) _ _
      | notContaining => exact returns_rest rfl (fun y there => (later y there).2.2.1) _ _
      | nonOverlapping => exact returns_rest rfl (fun y there => (later y there).2.2.1) _ _
    | cons z l' =>
      rw [ahead] at moved passed
      have walked := ih later order (.on z l') x.start x.end
      rw [passed] at walked
      cases test : kind.accepts x (.on z l') with
      | true =>
        have passes : kind.passes l x = true := by simp [Difference.passes, ahead, test]
        rw [List.filter_cons, if_pos passes]
        have next : Intervals.nextInterval
            ({ a := ⟨x :: rest, s, e⟩, b := some c, bpos := true, kind } : RelativeIt) =
              (x.start, { a := .on x rest, b := some (.on z l'), bpos := true, kind }) := by
          show seek kind (x :: rest) c = _
          simp [seek, moved, test]
        exact .cons next (Int.ne_of_lt here.2.2.1) rfl rfl walked
      | false =>
        have fails : kind.passes l x = false := by simp [Difference.passes, ahead, test]
        rw [List.filter_cons, if_neg (by simp [fails])]
        refine walked.of_next ?_
        show seek kind (x :: rest) c = seek kind rest (.on z l')
        simp [seek, moved, test]

/-- **A difference** returns just the intervals of `a` that pass. -/
theorem returns_iterator (kind : Difference) (a b : Sequence) :
    Returns (iterator kind a (some b)) (a.items.filter (kind.passes b.items)) := by
  refine returns (fun x there => ?_) a.increasing (.unset b.items) (-1) (-1)
  have inside := a.inside x there
  omega

end RelativeIt

/-! ## The negative forms against the positive ones -/

namespace Difference

/-- The last word of `x` stands in `y`. -/
def Covers (y x : Interval) : Prop := y.start ≤ x.end ∧ x.end ≤ y.end

/-- An interval passes where the relation does not hold. -/
theorem passes_iff {kind : Difference} (other : kind ≠ .notContaining) (order : Increasing l) :
    kind.passes l x = true ↔ ¬ kind.positive.HoldsOf l x := by
  rw [passes]
  cases ahead : kind.positive.ahead x l with
  | nil => simp [Relation.not_holdsOf_passed ahead]
  | cons y rest =>
    rw [Relation.holdsOf_first order ahead, ← Relation.accepts_iff rest (Relation.ahead_met ahead)]
    cases kind with
    | notContaining => exact absurd rfl other
    | notContainedBy =>
      show decide (x.start < y.start) = true ↔ ¬ decide (y.start ≤ x.start) = true
      simp
    | nonOverlapping =>
      show decide (y.start > x.end) = true ↔ ¬ decide (y.start ≤ x.end) = true
      simp

/-- **What `not_containing` lets through**: it asks also that no interval of `b` hold the last
word. -/
theorem passes_notContaining (order : Increasing l) (inside : ∀ y ∈ l, y.start ≤ y.end) :
    passes .notContaining l x = true ↔
      ¬ Relation.HoldsOf .containing l x ∧ ¬ ∃ y ∈ l, Covers y x := by
  have split := List.takeWhile_append_dropWhile
    (p := fun z => Relation.behind .containing x z.start z.end) (l := l)
  have passed : ∀ y ∈ l.takeWhile fun z => Relation.behind .containing x z.start z.end,
      ¬ Covers y x := by
    intro y there covers
    have behind := List.mem_takeWhile_imp there
    simp only [Relation.behind, Bool.and_eq_true, decide_eq_true_eq] at behind
    exact absurd covers.2 (by omega)
  rw [passes]
  cases ahead : Relation.ahead .containing x l with
  | nil =>
    rw [← Relation.ahead, ahead, List.append_nil] at split
    rw [split] at passed
    simp only [positive, ahead, true_iff]
    exact ⟨Relation.not_holdsOf_passed ahead, fun ⟨y, there, covers⟩ => passed y there covers⟩
  | cons z rest =>
    have met := Relation.ahead_met ahead
    have still := Relation.ahead_increasing .containing x order
    have here : z ∈ l := (List.dropWhile_suffix _).mem (by
      rw [← Relation.ahead, ahead]; exact List.mem_cons_self)
    rw [Relation.holdsOf_first order ahead]
    rw [← Relation.ahead, ahead] at split
    rw [ahead] at still
    simp only [Relation.behind, Bool.and_eq_false_iff, decide_eq_false_iff_not] at met
    simp only [positive, ahead]
    show decide (z.start > x.end) = true ↔ _
    rw [decide_eq_true_eq]
    constructor
    · intro after
      have wide := inside z here
      refine ⟨fun holds => ?_, fun ⟨y, there, covers⟩ => ?_⟩
      · have last := holds.2
        omega
      · rw [← split] at there
        cases List.mem_append.mp there with
        | inl before => exact passed y before covers
        | inr later =>
          have first := covers.1
          cases List.mem_cons.mp later with
          | inl same =>
            rw [same] at first
            omega
          | inr later =>
            have order := (List.pairwise_cons.mp still).1 y later
            omega
    · intro ⟨holds, covers⟩
      by_contra before
      -- met within `x` it is contained, met across its end it holds the last word
      by_cases last : x.end ≤ z.end
      · exact covers ⟨z, here, by omega, last⟩
      · exact holds ⟨by omega, by omega⟩

end Difference

/-- The filters part the intervals of `a`: each positive form returns just those that stand in the
relation to some interval of `b`, and its negative form just the others. -/
def Partition (a b : Sequence) : Prop :=
  (∀ kind : Relation,
      Returns (FilteringIt.iterator kind a b) (a.items.filter fun x => kind.HoldsOf b.items x)) ∧
    ∀ kind : Difference,
      Returns (RelativeIt.iterator kind a (some b))
        (a.items.filter fun x => ¬ kind.positive.HoldsOf b.items x)

/-- **When the filters part `a`**: just when each interval of `a` whose last word stands in an
interval of `b` contains one. -/
theorem partition_iff (a b : Sequence) :
    Partition a b ↔
      ∀ x ∈ a.items, (∃ y ∈ b.items, Difference.Covers y x) →
        ∃ y ∈ b.items, Relation.Holds .containing x y := by
  have wide : ∀ y ∈ b.items, y.start ≤ y.end := fun y there => (b.inside y there).2.1
  constructor
  · intro ⟨_, differences⟩ x there covered
    have same := (differences .notContaining).unique (RelativeIt.returns_iterator .notContaining a b)
    by_contra none
    have kept : x ∈ a.items.filter fun x => ¬ Relation.HoldsOf .containing b.items x :=
      List.mem_filter.mpr ⟨there, decide_eq_true none⟩
    rw [show (a.items.filter fun x => ¬ Relation.HoldsOf .containing b.items x) = _ from same] at kept
    have passes := (List.mem_filter.mp kept).2
    exact ((Difference.passes_notContaining b.increasing wide).mp passes).2 covered
  · intro condition
    refine ⟨fun kind => FilteringIt.returns_iterator kind a b, fun kind => ?_⟩
    have walked := RelativeIt.returns_iterator kind a b
    rw [List.filter_congr (q := fun x => ¬ kind.positive.HoldsOf b.items x)] at walked
    · exact walked
    · intro x there
      rw [Bool.eq_iff_iff, decide_eq_true_eq]
      by_cases other : kind = .notContaining
      · cases other
        rw [Difference.passes_notContaining b.increasing wide]
        exact ⟨And.left, fun none => ⟨none, fun covered => none (condition x there covered)⟩⟩
      · exact Difference.passes_iff other b.increasing

/-- The words at 1 and 2, and those at 2 and 3: neither form of `containing` returns the first. -/
theorem overlapped_left_out : ¬ ∀ a b : Sequence, Partition a b := by
  intro all
  let a : Sequence := ⟨[⟨1, 2⟩], by decide, by decide⟩
  let b : Sequence := ⟨[⟨2, 3⟩], by decide, by decide⟩
  have walked : Returns (RelativeIt.iterator .notContaining a (some b)) [] :=
    RelativeIt.returns_iterator .notContaining a b
  have same := ((all a b).2 .notContaining).unique walked
  exact absurd same (by decide)

end Velosearch.Query

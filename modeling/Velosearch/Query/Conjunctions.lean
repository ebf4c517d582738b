import Mathlib
import Velosearch.Query.Intervals
import Velosearch.Query.Positions

/-!
# The iterators over several words

`Ordered` asks that every word stand after the one before it, `Unordered` that they stand in any
order, `Block` that each stand right after the one before. Each iterator keeps one walk of every
word's positions, and returns the shortest stretches there are.

The loops run on a count that bounds their rounds: what the walks have not reached yet.
-/

set_option autoImplicit false

namespace Velosearch.Query

open Velosearch.Lib

/-- A number of 32 bits. -/
def wrap (n : Int) : Int := (n + 2147483648) % 4294967296 - 2147483648

theorem wrap_eq {n : Int} (low : -2147483648 ≤ n) (high : n ≤ 2147483647) : wrap n = n := by
  rw [wrap]
  omega

/-! ## One word -/

/-- The intervals of a term: its places. -/
structure TermIt where
  places : List Int
  next : Nat
  upto : Int
  pos : Int
deriving Inhabited, Repr

namespace TermIt

/-- The iterator before its first interval. -/
def reset (it : TermIt) : TermIt :=
  if it.pos ≠ NO_MORE then { it with upto := it.places.length, pos := -1 } else it

/-- Its next interval. -/
def nextInterval (it : TermIt) : Int × TermIt :=
  if it.upto ≤ 0 then (NO_MORE, { it with pos := NO_MORE })
  else
    let pos := it.places.getD it.next 0
    (pos, { it with upto := it.upto - 1, pos, next := it.next + 1 })

/-- Where the interval begins. -/
def start (it : TermIt) : Int := it.pos

/-- Where it ends. -/
def «end» (it : TermIt) : Int := it.pos

/-- How wide it is. -/
def width (it : TermIt) : Int := wrap (wrap (it.end - it.start) + 1)

instance : Intervals TermIt where
  nextInterval := nextInterval
  start := start
  «end» := TermIt.end

/-- The iterator of some places. -/
def iterator (places : List Int) : TermIt := reset { places, next := 0, upto := 0, pos := -1 }

end TermIt

/-- The iterators of the parts. -/
abbrev Subs := List TermIt

/-- `self.subs[i]`. -/
def sub (subs : Subs) (i : Nat) : TermIt := subs.getD i default

/-- `self.subs[i].next_interval()`. -/
def step (subs : Subs) (i : Nat) : Int × Subs :=
  let (next, it) := (sub subs i).nextInterval
  (next, subs.set i it)

/-- How many positions of a part have not been reached. -/
def left (subs : Subs) (i : Nat) : Nat := (sub subs i).upto.toNat

/-! ## Every part in order -/

/-- Intervals in order. -/
structure OrderedIt where
  subs : Subs
  start : Int
  «end» : Int
  slop : Int
  i : Nat

/-- What is left between the parts of an interval. -/
def slopOf (subs : Subs) (start «end» : Int) : Int :=
  subs.foldl (fun slop sub => wrap (slop - sub.width)) (wrap (wrap («end» - start) + 1))

namespace OrderedIt

def reset (it : OrderedIt) : OrderedIt :=
  { it with subs := (step it.subs 0).2, i := 1, start := -1, «end» := -1, slop := -1 }

/-- The parts behind one are moved past it. -/
def pass (current : Nat) (lastStart prevEnd : Int) : Nat → Subs → Bool × Subs
  | 0, subs => (true, subs)
  | fuel + 1, subs =>
    if (sub subs current).end ≥ lastStart then (true, subs)
    else
      let (next, subs) := step subs current
      if next = NO_MORE then (true, subs)
      else if next > prevEnd then (false, subs)
      else pass current lastStart prevEnd fuel subs

/-- The parts are put behind each other, one after another. -/
def align (lastStart : Int) (minimizing : Bool) : Nat → Subs → Nat → Int → Bool × Nat × Subs
  | 0, subs, current, _ => (true, current, subs)
  | fuel + 1, subs, current, prevEnd =>
    if prevEnd ≥ lastStart then (true, current, subs)
    else if current = subs.length then (false, current, subs)
    else if minimizing ∧ (sub subs current).start > prevEnd then (false, current, subs)
    else
      let (stopped, subs) := pass current lastStart prevEnd (left subs current + 1) subs
      if stopped then (true, current, subs)
      else align lastStart minimizing fuel subs (current + 1) (sub subs current).end

/-- The smallest interval that begins where this one does, or later. -/
def search : Nat → OrderedIt → Nat → Int → Bool → OrderedIt
  | 0, it, _, _, _ => it
  | fuel + 1, it, current, lastStart, minimizing =>
    let size := it.subs.length
    let (stopped, current, subs) := align lastStart minimizing (size + 1 - current) it.subs current
      (sub it.subs (current - 1)).end
    if stopped then { it with subs, i := current }
    else
      let start := (sub subs 0).start
      if start = NO_MORE then { it with subs, start, i := current, «end» := NO_MORE }
      else
        let «end» := (sub subs (size - 1)).end
        let slop := slopOf subs start «end»
        let (next, subs) := step subs 0
        if next = NO_MORE then { subs, start, «end», slop, i := 1 }
        else
          search fuel { subs, start, «end», slop, i := it.i } 1 (sub subs (size - 1)).start true

def nextInterval (it : OrderedIt) : Int × OrderedIt :=
  let it := search (left it.subs 0 + 2)
    { it with start := NO_MORE, «end» := NO_MORE, slop := NO_MORE } it.i NO_MORE false
  (it.start, it)

instance : Intervals OrderedIt where
  nextInterval := nextInterval
  start := OrderedIt.start
  «end» := OrderedIt.end

def iterator (lists : List (List Int)) : OrderedIt :=
  reset { subs := lists.map TermIt.iterator, start := -1, «end» := -1, slop := 0, i := 1 }

end OrderedIt

/-! ## Every part in any order -/

/-- Intervals in any order. -/
structure UnorderedIt where
  subs : Subs
  queue : LuceneHeap
  start : Int
  «end» : Int
  slop : Int
  queueEnd : Int

namespace UnorderedIt

/-- The part that begins first, or ends last. -/
def less (subs : Subs) (a b : Nat) : Bool :=
  let x := sub subs a
  let y := sub subs b
  x.start < y.start || (x.start = y.start && x.end ≥ y.end)

/-- The end of the interval. -/
def updateRight (it : UnorderedIt) (i : Nat) : UnorderedIt :=
  { it with queueEnd := max it.queueEnd (sub it.subs i).end }

/-- The part that begins first leaves the queue. -/
def pop (it : UnorderedIt) : Option Nat × UnorderedIt :=
  let (popped, queue) := it.queue.pop (less it.subs)
  (popped, { it with queue })

def add (it : UnorderedIt) (i : Nat) : UnorderedIt :=
  { it with queue := it.queue.add i (less it.subs) }

def top (it : UnorderedIt) : Option Nat := it.queue.top

/-- The loop of `reset`, over the parts from `i` on. -/
def fill : Nat → UnorderedIt → Nat → UnorderedIt
  | 0, it, _ => it
  | rest + 1, it, i =>
    let (next, subs) := step it.subs i
    let it := { it with subs }
    if next = NO_MORE then it else fill rest ((it.add i).updateRight i) (i + 1)

def reset (it : UnorderedIt) : UnorderedIt :=
  let it := { it with queueEnd := -1, start := -1, «end» := -1, queue := it.queue.clear }
  fill it.subs.length it 0

/-- The part on top is moved on, and put back unless it has run out. -/
def advance (it : UnorderedIt) : UnorderedIt :=
  match it.pop with
  | (none, it) => it
  | (some i, it) =>
    let (next, subs) := step it.subs i
    let it := { it with subs }
    if next ≠ NO_MORE then (it.add i).updateRight i else it

/-- The parts that stand at the last interval's start move on. -/
def leave : Nat → UnorderedIt → UnorderedIt
  | 0, it => it
  | fuel + 1, it =>
    if it.queue.len = it.subs.length ∧ (it.top.map fun t => (sub it.subs t).start) = some it.start
    then leave fuel it.advance
    else it

/-- The stretch from the part on top to the last one, taken for the current one. -/
def mark (it : UnorderedIt) (top : Nat) : UnorderedIt :=
  let start := (sub it.subs top).start
  let «end» := it.queueEnd
  { it with start, «end», slop := slopOf it.subs start «end» }

/-- The interval is made as small as it can be. -/
def shrink : Nat → UnorderedIt → UnorderedIt
  | 0, it => it
  | fuel + 1, it =>
    let top := it.top.getD 0
    let it := it.mark top
    if (sub it.subs top).end = it.end then it
    else
      let it := it.advance
      if it.queue.len = it.subs.length ∧ it.end = it.queueEnd then shrink fuel it else it

/-- As many rounds as there are places left. -/
def rounds (it : UnorderedIt) : Nat := (it.subs.map fun sub => sub.upto.toNat).sum

def nextInterval (it : UnorderedIt) : Int × UnorderedIt :=
  let it := leave (it.rounds + 1) it
  if it.queue.len < it.subs.length then
    (NO_MORE, { it with start := NO_MORE, «end» := NO_MORE })
  else
    let it := shrink (it.rounds + 1) it
    (it.start, it)

instance : Intervals UnorderedIt where
  nextInterval := nextInterval
  start := UnorderedIt.start
  «end» := UnorderedIt.end

def iterator (lists : List (List Int)) : UnorderedIt :=
  reset { subs := lists.map TermIt.iterator, queue := .new, start := -1, «end» := -1, slop := 0,
          queueEnd := -1 }

end UnorderedIt

/-! ## Every part right after the one before -/

/-- Intervals of parts that follow each other. -/
structure BlockIt where
  subs : Subs
  start : Int
  «end» : Int

namespace BlockIt

def reset (it : BlockIt) : BlockIt := { it with start := -1, «end» := -1 }

/-- Every part follows the one before. -/
def follow (i : Nat) : Nat → Subs → Bool × Subs
  | 0, subs => (true, subs)
  | fuel + 1, subs =>
    if (sub subs i).start ≤ (sub subs (i - 1)).end then
      let (next, subs) := step subs i
      if next = NO_MORE then (true, subs) else follow i fuel subs
    else (false, subs)

/-- The loop over the parts, which starts again where one leaves a gap: whether a part ran out. -/
def line : Nat → Subs → Nat → Bool × Subs
  | 0, subs, _ => (true, subs)
  | fuel + 1, subs, i =>
    if i < subs.length then
      let (out, subs) := follow i (left subs i + 1) subs
      if out then (true, subs)
      else if (sub subs i).start = wrap ((sub subs (i - 1)).end + 1) then line fuel subs (i + 1)
      else
        let (next, subs) := step subs 0
        if next = NO_MORE then (true, subs) else line fuel subs 1
    else (false, subs)

def nextInterval (it : BlockIt) : Int × BlockIt :=
  let (next, subs) := step it.subs 0
  if next = NO_MORE then (NO_MORE, { subs, start := NO_MORE, «end» := NO_MORE })
  else
    let (out, subs) := line ((left subs 0 + 1) * subs.length + 1) subs 1
    if out then (NO_MORE, { subs, start := NO_MORE, «end» := NO_MORE })
    else
      let start := (sub subs 0).start
      (start, { subs, start, «end» := (sub subs (subs.length - 1)).end })

instance : Intervals BlockIt where
  nextInterval := nextInterval
  start := BlockIt.start
  «end» := BlockIt.end

def iterator (lists : List (List Int)) : BlockIt :=
  reset { subs := lists.map TermIt.iterator, start := -1, «end» := -1 }

end BlockIt

/-! ## What a walk of one word does -/

/-- The positions of a word in a document. -/
structure Places where
  items : List Int
  inside : ∀ p ∈ items, 0 ≤ p ∧ p < NO_MORE
  increasing : items.Pairwise (· < ·)

instance : Inhabited Places := ⟨⟨[], by simp, .nil⟩⟩

namespace Places

variable (l : Places) {p q x : Int}

/-- The positions after `p`. -/
def later (p : Int) : List Int := l.items.filter (p < ·)

/-- The first position after `p`, or `NO_MORE`. -/
def after (p : Int) : Int := (l.later p).headD NO_MORE

theorem mem_later : x ∈ l.later p ↔ x ∈ l.items ∧ p < x := by
  simp [later]

theorem later_sorted : (l.later p).Pairwise (· < ·) := l.increasing.filter _

/-- **The first position after `p`** is one, and none comes before it. -/
theorem after_cases :
    (l.later p = [] ∧ l.after p = NO_MORE) ∨
      (l.after p ∈ l.items ∧ p < l.after p ∧ l.later p = l.after p :: l.later (l.after p)) := by
  cases h : l.later p with
  | nil => exact .inl ⟨rfl, by simp [after, h]⟩
  | cons y rest =>
    have here : l.after p = y := by simp [after, h]
    have there := l.mem_later.mp (h ▸ List.mem_cons_self : y ∈ l.later p)
    have sorted := List.pairwise_cons.mp (h ▸ l.later_sorted : (y :: rest).Pairwise (· < ·))
    refine .inr ⟨here ▸ there.1, here ▸ there.2, ?_⟩
    rw [here]
    congr 1
    have narrowed : l.later y = (l.later p).filter (y < ·) := by
      rw [later, later, List.filter_filter]
      apply List.filter_congr
      intro x _
      by_cases after : y < x
      · simp [after, lt_trans there.2 after]
      · simp [after]
    rw [narrowed, h, List.filter_cons, if_neg (by simp), List.filter_eq_self.mpr]
    intro x inner
    exact decide_eq_true (sorted.1 x inner)

/-- The next place is the first behind. -/
theorem after_le (there : x ∈ l.items) (after : p < x) : l.after p ≤ x := by
  cases l.after_cases (p := p) with
  | inl none =>
    have mem : x ∈ l.later p := l.mem_later.mpr ⟨there, after⟩
    rw [none.1] at mem
    exact absurd mem List.not_mem_nil
  | inr found =>
    have mem : x ∈ l.later p := l.mem_later.mpr ⟨there, after⟩
    have sorted : (l.later p).Pairwise (· < ·) := l.later_sorted
    rw [found.2.2] at mem sorted
    cases List.mem_cons.mp mem with
    | inl same => exact le_of_eq same.symm
    | inr later => exact le_of_lt ((List.pairwise_cons.mp sorted).1 x later)

/-- It is one of the places. -/
theorem after_mem (found : l.after p ≠ NO_MORE) : l.after p ∈ l.items := by
  cases l.after_cases (p := p) with
  | inl none => exact absurd none.2 found
  | inr some => exact some.1

theorem lt_after (before : p < NO_MORE) : p < l.after p := by
  cases l.after_cases (p := p) with
  | inl none => rw [none.2]; exact before
  | inr some => exact some.2.1

theorem after_le_no_more : l.after p ≤ NO_MORE := by
  cases l.after_cases (p := p) with
  | inl none => exact le_of_eq none.2
  | inr some => exact le_of_lt (l.inside _ some.1).2

/-- There is none. -/
theorem after_no_more (ended : NO_MORE ≤ p) : l.after p = NO_MORE := by
  cases l.after_cases (p := p) with
  | inl none => exact none.2
  | inr some =>
    have inside := (l.inside _ some.1).2
    have later := some.2.1
    omega

/-- Further on it is no earlier. -/
theorem after_mono (le : p ≤ q) : l.after p ≤ l.after q := by
  by_cases out : l.after q = NO_MORE
  · rw [out]
    exact l.after_le_no_more
  · cases l.after_cases (p := q) with
    | inl none => exact absurd none.2 out
    | inr some => exact l.after_le some.1 (lt_of_le_of_lt le some.2.1)

theorem after_eq (le : p ≤ q) (before : q < l.after p) : l.after q = l.after p := by
  apply le_antisymm _ (l.after_mono le)
  by_cases out : l.after p = NO_MORE
  · rw [out]
    exact l.after_le_no_more
  · exact l.after_le (l.after_mem out) before

/-- Moving on leaves one place less. -/
theorem later_after (found : l.after p ≠ NO_MORE) :
    (l.later p).length = (l.later (l.after p)).length + 1 := by
  cases l.after_cases (p := p) with
  | inl none => exact absurd none.2 found
  | inr some =>
    conv_lhs => rw [some.2.2]
    rfl

end Places

namespace TermIt

variable {l : Places} {p : Int} {it : TermIt}

/-- The walk stands at `p`, or before the first position or after the last: what it has not
reached are the positions after `p`. -/
structure At (l : Places) (p : Int) (it : TermIt) : Prop where
  pos : it.pos = p
  rest : it.places.drop it.next = l.later p
  upto : it.upto = (l.later p).length

/-- **A step of the walk** goes to the first position after the one it stands at. -/
theorem At.nextInterval (h : At l p it) :
    it.nextInterval.1 = l.after p ∧ At l (l.after p) it.nextInterval.2 := by
  have upto := h.upto
  cases l.after_cases (p := p) with
  | inl none =>
    have out : it.upto ≤ 0 := by simp [h.upto, none.1]
    have still : l.later NO_MORE = [] := by
      apply List.filter_eq_nil_iff.mpr
      intro x there
      have inside := (l.inside x there).2
      simp only [decide_eq_true_eq]
      omega
    rw [TermIt.nextInterval, if_pos out, none.2]
    refine ⟨rfl, rfl, ?_, ?_⟩
    · show it.places.drop it.next = _
      rw [h.rest, none.1, still]
    · show it.upto = _
      rw [h.upto, none.1, still]
  | inr found =>
    have size : (l.later p).length = (l.later (l.after p)).length + 1 := by
      conv_lhs => rw [found.2.2]
      rfl
    have some : ¬ it.upto ≤ 0 := by omega
    have rest := h.rest
    rw [found.2.2] at rest
    have here : it.places.getD it.next 0 = l.after p := by
      rw [List.getD_eq_getElem?_getD, ← List.head?_drop, rest]
      rfl
    rw [TermIt.nextInterval, if_neg some, here]
    refine ⟨rfl, rfl, ?_, ?_⟩
    · show it.places.drop (it.next + 1) = _
      rw [← List.drop_drop, rest]
      rfl
    · show it.upto - 1 = _
      omega

theorem iterator_at (l : Places) : At l (-1) (iterator l.items) := by
  have all : l.later (-1) = l.items := by
    apply List.filter_eq_self.mpr
    intro x there
    have inside := (l.inside x there).1
    simp only [decide_eq_true_eq]
    omega
  refine ⟨rfl, ?_, ?_⟩
  · rw [all]
    rfl
  · rw [all]
    rfl

end TermIt

/-! ## Where all the walks stand -/

/-- Each walk stands at the point that `p` gives for it. -/
structure Stands (n : Nat) (L : Nat → Places) (p : Nat → Int) (subs : Subs) : Prop where
  size : subs.length = n
  at_ : ∀ k, k < n → (sub subs k).At (L k) (p k)

namespace Stands

variable {n : Nat} {L : Nat → Places} {p : Nat → Int} {subs : Subs} {k : Nat}

theorem start (h : Stands n L p subs) (inside : k < n) : (sub subs k).start = p k :=
  (h.at_ k inside).pos

theorem end_ (h : Stands n L p subs) (inside : k < n) : (sub subs k).end = p k :=
  (h.at_ k inside).pos

theorem left (h : Stands n L p subs) (inside : k < n) :
    Query.left subs k = ((L k).later (p k)).length := by
  rw [Query.left, (h.at_ k inside).upto, Int.toNat_natCast]

/-- **One walk moved on**, and the others where they were. -/
theorem step (h : Stands n L p subs) (inside : k < n) :
    (Query.step subs k).1 = (L k).after (p k) ∧
      Stands n L (Function.update p k ((L k).after (p k))) (Query.step subs k).2 := by
  have moved := (h.at_ k inside).nextInterval
  refine ⟨moved.1, ?_, ?_⟩
  · simpa [Query.step] using h.size
  · intro j inner
    by_cases same : j = k
    · cases same
      rw [Function.update_self]
      simpa [Query.step, sub, h.size, inside] using moved.2
    · rw [Function.update_of_ne same]
      simpa [Query.step, sub, List.getElem?_set_ne (Ne.symm same)] using h.at_ j inner

/-- Iterators that have not begun. -/
theorem iterators (lists : List Places) :
    Stands lists.length (lists.getD · default) (fun _ => -1)
      ((lists.map Places.items).map TermIt.iterator) where
  size := by simp
  at_ := by
    intro k inside
    have here := TermIt.iterator_at (lists.getD k default)
    simpa [sub, inside] using here

end Stands

/-! ## Shortest stretches -/

/-- The interval holds, and no smaller one within it does. -/
def Tight (holds : Int → Int → Prop) (x : Interval) : Prop :=
  holds x.start x.end ∧
    ∀ s e, x.start ≤ s → e ≤ x.end → holds s e → s = x.start ∧ e = x.end

/-- Intervals that are tight end one behind the other. -/
theorem Tight.end_lt {holds : Int → Int → Prop} {x y : Interval} (first : Tight holds x)
    (second : Tight holds y) (after : x.start < y.start) : x.end < y.end := by
  by_contra within
  have same := first.2 y.start y.end (le_of_lt after) (by omega) second.1
  omega

/-- An iterator returns just the shortest stretches that start after `m`. -/
def Enumerates {σ : Type} [Intervals σ] (holds : Int → Int → Prop) (m : Int) (it : σ) : Prop :=
  ∃ l, Returns it l ∧ Increasing l ∧ ∀ x, x ∈ l ↔ Tight holds x ∧ m < x.start

namespace Enumerates

variable {σ : Type} [Intervals σ] {holds : Int → Int → Prop} {m : Int} {it : σ}

/-- An iteration that ends. -/
theorem done (none : (Intervals.nextInterval it).1 = NO_MORE)
    (all : ∀ x, Tight holds x → ¬ m < x.start) : Enumerates holds m it := by
  refine ⟨[], .done none, .nil, fun x => ?_⟩
  simp only [List.not_mem_nil, false_iff]
  intro ⟨tight, after⟩
  exact all x tight after

/-- One interval more. -/
theorem more (x : Interval) (it' : σ) (next : Intervals.nextInterval it = (x.start, it'))
    (found : x.start ≠ NO_MORE) (start : Intervals.start it' = x.start)
    (last : Intervals.end it' = x.end) (tight : Tight holds x) (after : m < x.start)
    (first : ∀ y, Tight holds y → m < y.start → y = x ∨ x.start < y.start)
    (later : Enumerates holds x.start it') : Enumerates holds m it := by
  obtain ⟨l, walked, order, members⟩ := later
  refine ⟨x :: l, .cons next found start last walked, ?_, fun y => ?_⟩
  · refine List.pairwise_cons.mpr ⟨fun y there => ?_, order⟩
    have there := (members y).mp there
    exact ⟨there.2, tight.end_lt there.1 there.2⟩
  · rw [List.mem_cons, members]
    constructor
    · intro either
      cases either with
      | inl same => exact same ▸ ⟨tight, after⟩
      | inr later => exact ⟨later.1, lt_trans after later.2⟩
    · intro ⟨tight, start⟩
      exact (first y tight start).imp_right fun late => ⟨tight, late⟩

end Enumerates

end Velosearch.Query

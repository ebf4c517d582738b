import Mathlib.Data.List.Nodup
import Mathlib.Data.List.Perm.Subperm
import Mathlib.Algebra.Order.BigOperators.Group.List
import Velosearch.Query.SpanFilters

/-!
# Span clauses that keep a heap

`span_or` and an unordered `span_near` keep their clauses in Lucene's heap, by where their matches
stand. One step moves the clause on top, and mends the heap from there.
-/

set_option autoImplicit false

namespace Velosearch.Query

open Spans Velosearch.Lib Velosearch.Lib.Heap

/-! ## The heap, where the key of its top has changed -/

namespace LuceneHeap

variable {less : Nat → Nat → Bool} {le le' : Nat → Nat → Prop} {q : LuceneHeap} {t : Nat}

theorem cell_items {k : Nat} (some_ : 1 ≤ k) (inside : k < q.heap.length) :
    ∃ h : k - 1 < q.items.length, cell q.heap k = q.items[k - 1] := by
  have short : k - 1 < q.items.length := by
    simp only [items, List.length_tail]
    omega
  refine ⟨short, ?_⟩
  simp [cell, items, inside, Nat.sub_add_cancel some_]

/-- **The order mended** where only the top may have changed its place. -/
theorem moved_valid (agrees : Agrees less le') (valid : Valid le q) (top : q.top = some t)
    (nodup : q.items.Nodup)
    (same : ∀ a ∈ q.items, ∀ b ∈ q.items, a ≠ t → b ≠ t → le a b → le' a b) :
    Valid le' (q.settled less) ∧ (q.settled less).items.Perm q.items := by
  refine settled_valid agrees valid.some ?_
  have first : 1 < q.heap.length := by
    by_contra none
    rw [LuceneHeap.top, List.getElem?_eq_none (by omega)] at top
    cases top
  have atTop : cell q.heap 1 = t := by
    simpa [cell, LuceneHeap.top, first] using top
  have other : ∀ k, 2 ≤ k → k < q.heap.length → cell q.heap k ∈ q.items ∧ cell q.heap k ≠ t := by
    intro k two inside
    obtain ⟨short, here⟩ := cell_items (by omega) inside
    obtain ⟨short', there⟩ := cell_items (Nat.le_refl 1) first
    refine ⟨here ▸ List.getElem_mem short, ?_⟩
    intro equal
    rw [here, ← atTop, there, nodup.getElem_inj_iff] at equal
    omega
  intro k two inside far
  obtain ⟨member, ne⟩ := other k two inside
  obtain ⟨member', ne'⟩ := other (k / 2) (by omega) (by omega)
  exact same _ member' _ member ne' ne (valid.order k two inside)

end LuceneHeap

/-! ## The clauses in the heap -/

namespace Spans

variable {σ : Type} {T : Spans σ} {subs : List σ} {heap : LuceneHeap} {items : List Nat}
  {p : Nat → List Match} {s s' : σ} {i t : Nat} {m : Match} {l rest : List Match}

variable (T subs) in
/-- The order of the heap: by start, then by end. -/
def before (a b : Nat) : Prop :=
  T.startAt subs a < T.startAt subs b ∨
    T.startAt subs a = T.startAt subs b ∧ T.endAt subs a ≤ T.endAt subs b

/-- The heap's order is that of the matches. -/
theorem less_agrees : Agrees (T.positionLess subs) (T.before subs) where
  yes a b less := by
    simp only [positionLess, Bool.or_eq_true, Bool.and_eq_true, decide_eq_true_eq,
      beq_iff_eq] at less
    unfold before
    omega
  no a b less := by
    have behind : ¬T.positionLess subs a b = true := by simp [less]
    simp only [positionLess, Bool.or_eq_true, Bool.and_eq_true, decide_eq_true_eq,
      beq_iff_eq] at behind
    unfold before
    omega
  trans a b c hab hbc := by
    unfold before at *
    omega

theorem startAt_of (there : subs[i]? = some s) : T.startAt subs i = T.start s := by
  simp [startAt, there]

theorem endAt_of (there : subs[i]? = some s) : T.endAt subs i = T.end s := by
  simp [endAt, there]

theorem before_set {j a b : Nat} (ha : a ≠ j) (hb : b ≠ j) :
    T.before (subs.set j s) a b ↔ T.before subs a b := by
  simp [before, startAt, endAt, List.getElem?_set_ne ha.symm, List.getElem?_set_ne hb.symm]

variable (T) in
/-- A sub-span that stands before its matches. -/
inductive Loads (s : σ) : List Match → Prop where
  | ended (ended : T.Ended s) : Loads s []
  | on (m : Match) (l : List Match) (on : T.On s m l) : Loads s (m :: l)

theorem Walks.loads (walks : T.Walks s l) (orderly : Orderly l) :
    ∃ x s', T.nextStart s = some (x, s') ∧ T.Loads s' l ∧
      (x = NO_MORE ↔ l = []) := by
  cases walks with
  | done s' _ next ended => exact ⟨NO_MORE, s', next, .ended ended, by simp⟩
  | @more _ s' m l _ _ next shows_ walks =>
    exact ⟨m.start, s', next, .on m l ⟨shows_, walks, orderly⟩, by simp [orderly.head.ne]⟩

variable (T) in
/-- The heap holds the sub-spans that have matches left. -/
structure Heaped (subs : List σ) (heap : LuceneHeap) (items : List Nat) (p : Nat → List Match) :
    Prop where
  loads : ∀ i ∈ items, ∃ s, subs[i]? = some s ∧ T.Loads s (p i)
  valid : heap.Valid (T.before subs)
  perm : heap.items.Perm items
  nodup : items.Nodup

namespace Heaped

/-- **A clause put into the heap**, moved to its first match. -/
theorem enter (h : T.Heaped subs heap items p) (new : i ∉ items) (there : subs[i]? = some s)
    (walks : T.Walks s (p i)) (orderly : Orderly (p i)) :
    ∃ x s', T.nextStart s = some (x, s') ∧ T.Loads s' (p i) ∧
      T.Heaped (subs.set i s') (heap.add i (T.positionLess (subs.set i s'))) (i :: items) p := by
  obtain ⟨x, s', next, loads, -⟩ := walks.loads orderly
  have inside : i < subs.length := (List.getElem?_eq_some_iff.mp there).1
  have kept : heap.Valid (T.before (subs.set i s')) := by
    refine h.valid.congr fun a ha b hb le => ?_
    have other : ∀ a ∈ heap.items, a ≠ i := by
      rintro a ha rfl
      exact new (h.perm.mem_iff.mp ha)
    exact (before_set (other a ha) (other b hb)).mpr le
  have added := LuceneHeap.add_valid i less_agrees kept
  refine ⟨x, s', next, loads, ?_, added.1, added.2.trans (h.perm.cons i),
    List.nodup_cons.mpr ⟨new, h.nodup⟩⟩
  intro j hj
  by_cases same : j = i
  · rw [same]
    exact ⟨s', by simp [inside], loads⟩
  · obtain ⟨t, ht, loadsT⟩ := h.loads j ((List.mem_cons.mp hj).resolve_left same)
    exact ⟨t, by rw [List.getElem?_set_ne (Ne.symm same), ht], loadsT⟩

/-- The top begins first. -/
theorem top (h : T.Heaped subs heap items p) (some_ : items ≠ []) :
    ∃ t, heap.top = some t ∧ t ∈ items ∧ ∀ i ∈ items, T.before subs t i := by
  have any : heap.items ≠ [] := by
    intro none
    have perm := h.perm
    rw [none] at perm
    exact some_ (List.nil_perm.mp perm)
  obtain ⟨t, -, top, -⟩ := LuceneHeap.pop_valid less_agrees h.valid any
  obtain ⟨member, least⟩ := LuceneHeap.top_le less_agrees h.valid top
  exact ⟨t, top, h.perm.mem_iff.mp member, fun i hi => least i (h.perm.mem_iff.mpr hi)⟩

theorem none_left (h : T.Heaped subs heap items p) (member : t ∈ items)
    (least : ∀ i ∈ items, T.before subs t i) (none : p t = []) : ∀ i ∈ items, p i = [] := by
  intro i hi
  obtain ⟨s, there, loads⟩ := h.loads t member
  obtain ⟨s', there', loads'⟩ := h.loads i hi
  have le := least i hi
  rw [none] at loads
  cases loads with
  | ended ended =>
    generalize pending : p i = q at loads'
    cases loads' with
    | ended => rfl
    | on m l on =>
      have fit := on.orderly.head
      have lt := fit.lt
      have high := fit.end
      rw [before, startAt_of there, startAt_of there', ended.start, on.shows_.start] at le
      omega

/-- No match that is left begins earlier. -/
theorem least (h : T.Heaped subs heap items p) (member : t ∈ items)
    (least : ∀ i ∈ items, T.before subs t i) (first : p t = m :: rest) :
    ∀ i ∈ items, ∀ x ∈ p i, m.start ≤ x.start := by
  intro i hi x hx
  obtain ⟨s, there, loads⟩ := h.loads t member
  obtain ⟨s', there', loads'⟩ := h.loads i hi
  have le := least i hi
  rw [first] at loads
  cases loads with
  | on _ _ on =>
    generalize p i = q at loads' hx
    cases loads' with
    | ended => exact absurd hx nofun
    | on y l on' =>
      have above : y.start ≤ x.start := by
        cases List.mem_cons.mp hx with
        | inl here => rw [here]
        | inr later => exact on'.orderly.le x later
      rw [before, startAt_of there, startAt_of there', on.shows_.start, on'.shows_.start] at le
      omega

/-- **The clause on top moved on**, and the heap mended. -/
theorem step (h : T.Heaped subs heap items p) (top : heap.top = some t) (member : t ∈ items)
    (first : p t = m :: rest) :
    ∃ s x s', subs[t]? = some s ∧ T.On s m rest ∧ T.nextStart s = some (x, s') ∧
      T.Loads s' rest ∧ (x = NO_MORE ↔ rest = []) ∧
      T.Heaped (subs.set t s') (heap.settled (T.positionLess (subs.set t s'))) items
        (Function.update p t rest) := by
  obtain ⟨s, there, loads⟩ := h.loads t member
  rw [first] at loads
  cases loads with
  | on _ _ on =>
    obtain ⟨x, s', next, loads, ends⟩ := on.walks.loads on.orderly.tail
    have inside : t < subs.length := (List.getElem?_eq_some_iff.mp there).1
    have agrees : Agrees (T.positionLess (subs.set t s')) (T.before (subs.set t s')) := less_agrees
    have moved := LuceneHeap.moved_valid agrees h.valid top (h.perm.nodup_iff.mpr h.nodup)
      fun a _ b _ ha hb le => (before_set ha hb).mpr le
    refine ⟨s, x, s', there, on, next, loads, ends, ?_, moved.1, moved.2.trans h.perm, h.nodup⟩
    intro i hi
    by_cases same : i = t
    · rw [same, Function.update_self]
      exact ⟨s', by simp [inside], loads⟩
    · obtain ⟨u, hu, loadsU⟩ := h.loads i hi
      rw [Function.update_of_ne same]
      exact ⟨u, by rw [List.getElem?_set_ne (Ne.symm same), hu], loadsU⟩

end Heaped

/-! ## What is left -/

/-- All of them that are left. -/
def pending (items : List Nat) (p : Nat → List Match) : List Match := (items.map p).flatten

theorem map_update_of_notMem (absent : t ∉ items) : items.map (Function.update p t rest) =
    items.map p := by
  apply List.map_congr_left
  intro i hi
  rw [Function.update_of_ne]
  rintro rfl
  exact absent hi

/-- Taking a match leaves the others. -/
theorem pending_update (nodup : items.Nodup) (member : t ∈ items) (first : p t = m :: rest) :
    (pending items p).Perm (m :: pending items (Function.update p t rest)) := by
  unfold pending
  induction items with
  | nil => exact absurd member nofun
  | cons i items ih =>
    obtain ⟨absent, nodup⟩ := List.nodup_cons.mp nodup
    by_cases same : i = t
    · rw [same] at absent ⊢
      rw [List.map_cons, List.map_cons, map_update_of_notMem absent, Function.update_self, first,
        List.flatten_cons, List.flatten_cons, List.cons_append]
    · have later := ih nodup ((List.mem_cons.mp member).resolve_left (Ne.symm same))
      rw [List.map_cons, List.map_cons, Function.update_of_ne same, List.flatten_cons,
        List.flatten_cons]
      exact (later.append_left (p i)).trans List.perm_middle

/-- How many. -/
def behind (items : List Nat) (p : Nat → List Match) : Nat :=
  (items.map fun i => (p i).length - 1).sum

/-- There is less left then. -/
theorem behind_update (nodup : items.Nodup) (member : t ∈ items) (first : p t = m :: rest)
    (more : rest ≠ []) : behind items (Function.update p t rest) < behind items p := by
  unfold behind
  induction items with
  | nil => exact absurd member nofun
  | cons i items ih =>
    obtain ⟨absent, nodup⟩ := List.nodup_cons.mp nodup
    simp only [List.map_cons, List.sum_cons]
    by_cases same : i = t
    · rw [same] at absent ⊢
      have others : (items.map fun i => (Function.update p t rest i).length - 1) =
          items.map fun i => (p i).length - 1 := by
        apply List.map_congr_left
        intro j hj
        rw [Function.update_of_ne]
        rintro rfl
        exact absent hj
      have some_ := List.length_pos_of_ne_nil more
      rw [others, Function.update_self, first, List.length_cons]
      omega
    · have later := ih nodup ((List.mem_cons.mp member).resolve_left (Ne.symm same))
      rw [Function.update_of_ne same]
      omega

theorem sum_le_of_subset {f : Nat → Nat} {n : Nat} (nodup : items.Nodup)
    (inside : ∀ i ∈ items, i < n) : (items.map f).sum ≤ ((List.range n).map f).sum := by
  obtain ⟨l, perm, sub⟩ : items.Subperm (List.range n) :=
    nodup.subperm fun i hi => List.mem_range.mpr (inside i hi)
  rw [← (perm.map f).sum_eq]
  exact (sub.map f).sum_le_sum fun _ _ => Nat.zero_le _

theorem leftAll_eq : T.leftAll subs =
    ((List.range subs.length).map fun i => ((subs[i]?).map T.left).getD 0).sum := by
  have same : subs.map T.left =
      (List.range subs.length).map fun i => ((subs[i]?).map T.left).getD 0 := by
    apply List.ext_getElem
    · simp
    · intro i h _
      simp only [List.length_map] at h
      simp [h]
  rw [leftAll, same]

theorem Heaped.inside (h : T.Heaped subs heap items p) : ∀ i ∈ items, i < subs.length := by
  intro i hi
  obtain ⟨s, there, -⟩ := h.loads i hi
  exact (List.getElem?_eq_some_iff.mp there).1

theorem Heaped.behind_le (h : T.Heaped subs heap items p) : behind items p ≤ T.leftAll subs := by
  rw [leftAll_eq]
  refine le_trans ?_ (sum_le_of_subset h.nodup h.inside)
  apply List.sum_le_sum
  intro i hi
  obtain ⟨s, there, loads⟩ := h.loads i hi
  generalize p i = q at loads
  rw [there, Option.map_some, Option.getD_some]
  cases loads with
  | ended => exact Nat.zero_le _
  | on m l on =>
    rw [List.length_cons, Nat.add_sub_cancel]
    exact on.walks.left

theorem pending_length_le (items : List Nat) (p : Nat → List Match) :
    (pending items p).length ≤ behind items p + items.length := by
  unfold pending behind
  induction items with
  | nil => simp
  | cons i items ih =>
    simp only [List.map_cons, List.flatten_cons, List.length_append, List.sum_cons,
      List.length_cons]
    omega

theorem Heaped.items_le (h : T.Heaped subs heap items p) : items.length ≤ subs.length := by
  have le := sum_le_of_subset (f := fun _ => 1) h.nodup h.inside
  simpa using le

end Spans

/-! ## Any of some clauses -/

namespace OrSpans

variable {σ : Type} {T : Spans σ} {o : OrSpans σ} {items : List Nat} {p : Nat → List Match}
  {t : Nat} {m : Match} {rest : List Match}

variable (T) in
/-- A disjunction in the middle of its walk. -/
structure Standing (o : OrSpans σ) (items : List Nat) (p : Nat → List Match) : Prop where
  heaped : T.Heaped o.subs o.heap items p
  top : o.top = o.heap.top
  any : items ≠ []

/-- A disjunction has ended, or stands at the first match that is left. -/
theorem Standing.cases (standing : Standing T o items p) :
    (spans T).Ended o ∧ (∀ i ∈ items, p i = []) ∨
      ∃ t m rest, o.top = some t ∧ t ∈ items ∧ p t = m :: rest ∧ (spans T).Shows o m ∧ m.Fit ∧
        ∀ i ∈ items, ∀ x ∈ p i, m.start ≤ x.start := by
  obtain ⟨t, top, member, least⟩ := standing.heaped.top standing.any
  have top' : o.top = some t := standing.top.trans top
  obtain ⟨s, there, loads⟩ := standing.heaped.loads t member
  cases first : p t with
  | nil =>
    left
    rw [first] at loads
    cases loads with
    | ended ended =>
      refine ⟨⟨?_, ?_⟩, standing.heaped.none_left member least first⟩
      · show start T o = NO_MORE
        simp [start, top', startAt_of there, ended.start]
      · show (spans T).end o = NO_MORE
        simp [spans, top', endAt_of there, ended.end]
  | cons m rest =>
    right
    rw [first] at loads
    cases loads with
    | on _ _ on =>
      refine ⟨t, m, rest, top', member, first, ⟨?_, ?_, ?_⟩, on.orderly.head,
        standing.heaped.least member least first⟩
      · show start T o = m.start
        simp [start, top', startAt_of there, on.shows_.start]
      · show (spans T).end o = m.end
        simp [spans, top', endAt_of there, on.shows_.end]
      · show ((o.top.bind fun t => o.subs[t]?).map T.width).getD 0 = m.width
        simp [top', there, on.shows_.width]

/-- It moves on to the next. -/
theorem Standing.next (standing : Standing T o items p) (top : o.top = some t)
    (member : t ∈ items) (first : p t = m :: rest) :
    ∃ o', nextStart T o = some (start T o', o') ∧
      Standing T o' items (Function.update p t rest) := by
  obtain ⟨s, x, s', there, -, next, -, -, heaped⟩ :=
    standing.heaped.step (standing.top.symm.trans top) member first
  let subs := o.subs.set t s'
  let heap := o.heap.settled (T.positionLess subs)
  refine ⟨{ o with subs, heap, top := heap.top }, ?_, heaped, rfl, standing.any⟩
  simp [nextStart, top, there, next, subs, heap]

/-- **The walk from a match on** comes by all that are left, in order. -/
theorem Standing.walks (standing : Standing T o items p) (top : o.top = some t)
    (member : t ∈ items) (first : p t = m :: rest)
    (least : ∀ i ∈ items, ∀ x ∈ p i, m.start ≤ x.start) :
    ∃ l, (spans T).Walks o l ∧ l.Perm (pending items (Function.update p t rest)) ∧ Orderly l ∧
      ∀ x ∈ l, m.start ≤ x.start := by
  induction size : (pending items p).length using Nat.strongRecOn generalizing o p t m rest with
  | ind n ih =>
    obtain ⟨o', next, standing'⟩ := standing.next top member first
    have dropped := pending_update standing.heaped.nodup member first
    have fewer : (pending items (Function.update p t rest)).length < n := by
      rw [← size, dropped.length_eq, List.length_cons]
      exact Nat.lt_succ_self _
    have above : ∀ i ∈ items, ∀ x ∈ Function.update p t rest i, m.start ≤ x.start := by
      intro i hi x hx
      by_cases same : i = t
      · rw [same, Function.update_self] at hx
        exact least t member x (first ▸ List.mem_cons_of_mem m hx)
      · rw [Function.update_of_ne same] at hx
        exact least i hi x hx
    have next' : (spans T).nextStart o = some ((spans T).start o', o') := next
    cases standing'.cases with
    | inl ends =>
      obtain ⟨ended, none⟩ := ends
      have empty : pending items (Function.update p t rest) = [] := by
        rw [pending, List.flatten_eq_nil_iff]
        intro l hl
        obtain ⟨i, hi, rfl⟩ := List.mem_map.mp hl
        exact none i hi
      rw [ended.start] at next'
      exact ⟨[], .done o' (fun p => rfl) next' ended, empty ▸ .nil, .nil, nofun⟩
    | inr goes =>
      obtain ⟨t', m', rest', top', member', first', shows_, fit, least'⟩ := goes
      obtain ⟨l, walks, perm, orderly, low⟩ :=
        ih _ fewer standing' top' member' first' least' rfl
      have dropped' := pending_update standing'.heaped.nodup member' first'
      rw [shows_.start] at next'
      have short : l.length < left T o := by
        have length := perm.length_eq
        have all := pending_length_le items p
        have bound := standing.heaped.behind_le
        have few := standing.heaped.items_le
        have size' := dropped'.length_eq
        rw [List.length_cons] at size'
        show l.length < T.leftAll o.subs + o.subs.length
        omega
      refine ⟨m' :: l, .more o' (fun p => rfl) short next' shows_ walks,
        (perm.cons m').trans dropped'.symm, orderly.cons fit low, ?_⟩
      have first_le : m.start ≤ m'.start :=
        above t' member' m' (first' ▸ List.mem_cons_self)
      intro x hx
      cases List.mem_cons.mp hx with
      | inl here => exact here ▸ first_le
      | inr later => exact first_le.trans (low x later)

/-- **The clauses that match put into the heap** one after another. -/
theorem enter_all {is : List Nat} {subs : List σ} {heap : LuceneHeap}
    (heaped : T.Heaped subs heap items p) (nodup : is.Nodup) (new : ∀ i ∈ is, i ∉ items)
    (fresh : ∀ i ∈ is, ∃ s, subs[i]? = some s ∧ T.Walks s (p i) ∧ Orderly (p i)) :
    ∃ subs' heap', is.foldlM (enter T) (subs, heap) = some (subs', heap') ∧
      T.Heaped subs' heap' (is.reverse ++ items) p ∧ subs'.length = subs.length := by
  induction is generalizing subs heap items with
  | nil => exact ⟨subs, heap, rfl, heaped, rfl⟩
  | cons i is ih =>
    obtain ⟨absent, nodup⟩ := List.nodup_cons.mp nodup
    obtain ⟨s, there, walks, orderly⟩ := fresh i List.mem_cons_self
    obtain ⟨x, s', next, -, heaped'⟩ :=
      heaped.enter (new i List.mem_cons_self) there walks orderly
    have other : ∀ j ∈ is, j ≠ i := by
      rintro j hj rfl
      exact absent hj
    obtain ⟨subs', heap', entered, heaped'', length⟩ := ih heaped' nodup
      (fun j hj hmem => (List.mem_cons.mp hmem).elim (other j hj)
        (new j (List.mem_cons_of_mem i hj)))
      (fun j hj => by
        obtain ⟨u, hu, rest⟩ := fresh j (List.mem_cons_of_mem i hj)
        exact ⟨u, by rw [List.getElem?_set_ne (other j hj).symm, hu], rest⟩)
    refine ⟨subs', heap', ?_, ?_, ?_⟩
    · rw [List.foldlM_cons]
      simpa [enter, there, next] using entered
    · rw [List.reverse_cons, List.append_assoc]
      exact heaped''
    · rw [length, List.length_set]

theorem asked_all {ss : List σ} {ls : List (List Match)} (h : List.Forall₂ T.Means ss ls) :
    ∃ asked, ss.mapM T.matches = some asked ∧
      List.Forall₂ (fun a l => a.1 = !List.isEmpty l ∧ (l ≠ [] → T.Fresh a.2 l)) asked ls := by
  induction h with
  | nil => exact ⟨[], rfl, .nil⟩
  | @cons s l ss ls means _ ih =>
    obtain ⟨s', asked, fresh⟩ := means
    obtain ⟨rest, all, beside⟩ := ih
    refine ⟨(!l.isEmpty, s') :: rest, ?_, .cons ⟨rfl, fresh⟩ beside⟩
    simp [List.mapM_cons, asked, all]

theorem pending_filter (is : List Nat) (p : Nat → List Match) :
    pending (is.filter fun i => !(p i).isEmpty) p = pending is p := by
  unfold pending
  induction is with
  | nil => rfl
  | cons i is ih =>
    cases first : p i with
    | nil => simp [first, ih]
    | cons m l => simp [first, ih]

theorem pending_range (ls : List (List Match)) :
    pending (List.range ls.length) (fun i => ls.getD i []) = ls.flatten := by
  have all : (List.range ls.length).map (fun i => ls.getD i []) = ls := by
    apply List.ext_getElem
    · simp
    · intro i h _
      simp only [List.length_map, List.length_range] at h
      simp [h]
  rw [pending, all]

theorem alive_eq {asked : List (Bool × σ)} {ls : List (List Match)}
    (beside : List.Forall₂ (fun a l => a.1 = !List.isEmpty l ∧ (l ≠ [] → T.Fresh a.2 l)) asked ls) :
    ((List.range asked.length).filter fun i => ((asked[i]?).map Prod.fst).getD false) =
      (List.range ls.length).filter fun i => !(ls.getD i []).isEmpty := by
  rw [beside.length_eq]
  apply List.filter_congr
  intro i hi
  have inside := List.mem_range.mp hi
  have inside' : i < asked.length := by rw [beside.length_eq]; exact inside
  have here := (beside.get inside' inside).1
  simp only [List.get_eq_getElem] at here
  simp [inside, inside', here]

theorem flatten_le {asked : List (Bool × σ)} {ls : List (List Match)}
    (beside : List.Forall₂ (fun a l => a.1 = !List.isEmpty l ∧ (l ≠ [] → T.Fresh a.2 l)) asked ls) :
    ls.flatten.length ≤ T.leftAll (asked.map Prod.snd) := by
  induction beside with
  | nil => exact Nat.le_refl 0
  | @cons a l asked ls here _ ih =>
    have enough : l.length ≤ T.left a.2 := by
      by_cases none : l = []
      · rw [none]
        exact Nat.zero_le _
      · exact (here.2 none).walks.left
    unfold leftAll at ih ⊢
    simp only [List.flatten_cons, List.length_append, List.map_cons, List.sum_cons]
    omega

/-- It begins with the first. -/
theorem begin_ (ls : List (List Match)) (new : o.heap = .new) (top : o.top = none)
    (fresh : ∀ i ∈ o.alive, ∃ s, o.subs[i]? = some s ∧ T.Walks s (ls.getD i []) ∧
      Orderly (ls.getD i []))
    (nodup : o.alive.Nodup) (any : o.alive ≠ []) :
    ∃ o', nextStart T o = some (start T o', o') ∧
      Standing T o' o.alive.reverse (fun i => ls.getD i []) := by
  have empty : T.Heaped o.subs o.heap.clear [] (fun i => ls.getD i []) := by
    rw [new]
    refine ⟨nofun, LuceneHeap.clear_valid LuceneHeap.valid_new, ?_, .nil⟩
    rw [LuceneHeap.clear_items]
  obtain ⟨subs, heap, entered, heaped, -⟩ := enter_all empty nodup (fun _ _ => nofun) fresh
  rw [List.append_nil] at heaped
  refine ⟨{ o with subs, heap, top := heap.top }, ?_, heaped, rfl, by simpa using any⟩
  simp [nextStart, top, entered]

/-- **`span_or`** walks all the matches of its clauses, in order. -/
theorem means {ls : List (List Match)} (clauses : List.Forall₂ T.Means o.subs ls)
    (orderly : ∀ l ∈ ls, Orderly l) (new : o.heap = .new) (top : o.top = none) :
    ∃ l, (spans T).Means o l ∧ Orderly l ∧ l.Perm ls.flatten := by
  obtain ⟨asked, all, beside⟩ := asked_all clauses
  have alive := alive_eq beside
  have whole : pending ((List.range ls.length).filter fun i => !(ls.getD i []).isEmpty)
      (fun i => ls.getD i []) = ls.flatten := by
    rw [pending_filter, pending_range]
  have nodup : ((List.range ls.length).filter fun i => !(ls.getD i []).isEmpty).Nodup :=
    List.nodup_range.filter _
  have some_ : ∀ i ∈ (List.range ls.length).filter fun i => !(ls.getD i []).isEmpty,
      ls.getD i [] ≠ [] := by
    intro i hi
    simpa using (List.mem_filter.mp hi).2
  have fresh : ∀ i ∈ (List.range ls.length).filter fun i => !(ls.getD i []).isEmpty,
      ∃ s, (asked.map Prod.snd)[i]? = some s ∧ T.Walks s (ls.getD i []) ∧
        Orderly (ls.getD i []) := by
    intro i hi
    have inside : i < ls.length := List.mem_range.mp (List.mem_filter.mp hi).1
    have inside' : i < asked.length := by rw [beside.length_eq]; exact inside
    have here := (beside.get inside' inside).2
    have ne := some_ i hi
    simp only [List.get_eq_getElem] at here
    have item : ls.getD i [] = ls[i] := by simp [inside]
    rw [item] at ne ⊢
    exact ⟨asked[i].2, by simp [inside'], (here ne).walks,
      orderly _ (List.getElem_mem inside)⟩
  generalize (List.range ls.length).filter (fun i => !(ls.getD i []).isEmpty) = live at *
  by_cases any : live = []
  · have none : ls.flatten = [] := by
      rw [← whole, any]
      rfl
    refine ⟨[], ⟨{ o with subs := asked.map Prod.snd, alive := live }, ?_,
      fun some_ => absurd rfl some_⟩, .nil, none ▸ .nil⟩
    show «matches» T o = _
    simp [«matches», all, alive, any]
  · obtain ⟨o', next, standing⟩ :=
      begin_ (o := { o with subs := asked.map Prod.snd, alive := live }) ls new top fresh nodup any
    cases standing.cases with
    | inl ends =>
      obtain ⟨i, hi⟩ := List.exists_mem_of_ne_nil live any
      exact absurd (ends.2 i (List.mem_reverse.mpr hi)) (some_ i hi)
    | inr goes =>
      obtain ⟨t, m, rest, top', member, first, shows_, fit, least⟩ := goes
      obtain ⟨l, walks, perm, orderly', low⟩ := standing.walks top' member first least
      have dropped := pending_update (p := fun i => ls.getD i []) standing.heaped.nodup member
        first
      have union_ : (m :: l).Perm ls.flatten := by
        refine ((perm.cons m).trans dropped.symm).trans ?_
        rw [← whole]
        exact ((List.reverse_perm live).map _).flatten
      refine ⟨m :: l, ⟨{ o with subs := asked.map Prod.snd, alive := live }, ?_, fun _ => ⟨?_, ?_,
        .more o' (fun p => rfl) ?_ ?_ shows_ walks⟩⟩, orderly'.cons fit low, union_⟩
      · show «matches» T o = _
        simp [«matches», all, alive, any]
      · show start T _ = -1
        simp [start, top]
      · show (spans T).end _ = -1
        simp [spans, top]
      · have length := union_.length_eq
        have enough := flatten_le beside
        rw [List.length_cons] at length
        show l.length < T.leftAll (asked.map Prod.snd) + (asked.map Prod.snd).length
        omega
      · rw [← shows_.start]
        exact next

end OrSpans

/-! ## Near, in any order -/

namespace NearUnordered

variable {σ : Type} {T : Spans σ} {o : NearUnordered σ} {items : List Nat} {p : Nat → List Match}
  {t : Nat} {m : Match} {rest : List Match}

variable (T) in
/-- A window over the sub-spans. -/
structure Window (o : NearUnordered σ) (items : List Nat) (p : Nat → List Match) : Prop where
  heaped : T.Heaped o.subs o.heap items p
  full : ∀ i ∈ items, p i ≠ []
  ends : ∀ i ∈ items, ∀ m rest, p i = m :: rest → m.end ≤ o.maxEnd
  high : o.maxEnd ≤ NO_MORE

variable (T) in
/-- The match of the window. -/
def here (o : NearUnordered σ) : Match :=
  ⟨T.startAt o.subs o.topOf, o.maxEnd, o.maxEnd - T.startAt o.subs o.topOf⟩

/-- The window begins with the first of its parts. -/
theorem Window.top (window : Window T o items p) (any : items ≠ []) :
    ∃ t m rest, o.heap.top = some t ∧ o.topOf = t ∧ t ∈ items ∧ p t = m :: rest ∧
      (here T o).start = m.start ∧ (here T o).Fit ∧ ∀ i ∈ items, ∀ x ∈ p i, m.start ≤ x.start := by
  obtain ⟨t, top, member, least⟩ := window.heaped.top any
  obtain ⟨s, there, loads⟩ := window.heaped.loads t member
  obtain ⟨m, rest, first⟩ := List.exists_cons_of_ne_nil (window.full t member)
  have topOf : o.topOf = t := by simp [NearUnordered.topOf, top]
  have ends := window.ends t member m rest first
  have least' := window.heaped.least member least first
  rw [first] at loads
  cases loads with
  | on _ _ on =>
    have fit := on.orderly.head
    have start : (here T o).start = m.start := by
      show T.startAt o.subs o.topOf = m.start
      rw [topOf, startAt_of there, on.shows_.start]
    refine ⟨t, m, rest, top, topOf, member, first, start, ⟨?_, ?_, window.high⟩, least'⟩
    · rw [start]
      exact fit.start
    · rw [start]
      exact lt_of_lt_of_le fit.lt ends

variable (T) in
/-- The window one place on. -/
structure Moved (o o' : NearUnordered σ) (items : List Nat) (p p' : Nat → List Match) : Prop where
  window : Window T o' items p'
  less : behind items p' < behind items p
  le : (here T o).start ≤ (here T o').start
  atFirst : o'.atFirst = o.atFirst
  exhausted : o'.exhausted = o.exhausted

/-- It moves on by one match. -/
theorem nextPosition_spec (window : Window T o items p) (any : items ≠ []) :
    ∃ o', (nextPosition T o = some (false, o') ∧ o'.atFirst = o.atFirst) ∨
      (nextPosition T o = some (true, o') ∧ ∃ p', Moved T o o' items p p') := by
  obtain ⟨t, m, rest, top, topOf, member, first, start, -, least⟩ := window.top any
  obtain ⟨s, x, s', there, -, next, loads, out, heaped⟩ := window.heaped.step top member first
  by_cases none : rest = []
  · refine ⟨{ o with
      subs := o.subs.set t s'
      totalLength := wrap (o.totalLength - (T.end s - T.start s)) }, .inl ⟨?_, rfl⟩⟩
    simp [nextPosition, topOf, there, next, out.mpr none]
  · have found : x ≠ NO_MORE := fun gone => none (out.mp gone)
    obtain ⟨m', rest', more⟩ := List.exists_cons_of_ne_nil none
    have shown : T.end s' = m'.end ∧ m'.Fit := by
      rw [more] at loads
      cases loads with
      | on _ _ on => exact ⟨on.shows_.end, on.orderly.head⟩
    let o' : NearUnordered σ := { o with
      subs := o.subs.set t s'
      totalLength := wrap (wrap (o.totalLength - (T.end s - T.start s)) + (T.end s' - T.start s'))
      maxEnd := max o.maxEnd (T.end s')
      heap := o.heap.settled (T.positionLess (o.subs.set t s')) }
    have moved : nextPosition T o = some (true, o') := by
      simp [nextPosition, topOf, there, next, found, o']
    have window' : Window T o' items (Function.update p t rest) := by
      refine ⟨heaped, ?_, ?_, ?_⟩
      · intro i hi
        by_cases same : i = t
        · rw [same, Function.update_self]
          exact none
        · rw [Function.update_of_ne same]
          exact window.full i hi
      · intro i hi y l first'
        show y.end ≤ max o.maxEnd (T.end s')
        by_cases same : i = t
        · rw [same, Function.update_self, more] at first'
          cases first'
          rw [shown.1]
          exact le_max_right _ _
        · rw [Function.update_of_ne same] at first'
          exact (window.ends i hi y l first').trans (le_max_left _ _)
      · show max o.maxEnd (T.end s') ≤ NO_MORE
        rw [shown.1]
        exact max_le window.high shown.2.end
    refine ⟨o', .inr ⟨moved, _, window', behind_update window.heaped.nodup member first none, ?_,
      rfl, rfl⟩⟩
    obtain ⟨t', m'', rest'', -, -, member', first', start', -, -⟩ := window'.top any
    rw [start, start']
    by_cases same : t' = t
    · rw [same, Function.update_self] at first'
      exact least t member m'' (by
        rw [first, first']
        exact List.mem_cons_of_mem m List.mem_cons_self)
    · rw [Function.update_of_ne same] at first'
      exact least t' member' m'' (by
        rw [first']
        exact List.mem_cons_self)

/-- **The loop of `next_start`** ends past the last match or on a later one. -/
theorem goOn_spec (window : Window T o items p) (any : items ≠ []) {rounds : Nat}
    (enough : behind items p < rounds) :
    ∃ o', (goOn T rounds o = some (NO_MORE, o') ∧ o'.exhausted = true ∧ o'.atFirst = o.atFirst) ∨
      (goOn T rounds o = some ((here T o').start, o') ∧ ∃ p', Moved T o o' items p p') := by
  induction rounds generalizing o p with
  | zero => omega
  | succ rounds ih =>
    obtain ⟨o', ends | goes⟩ := nextPosition_spec window any
    · refine ⟨{ o' with exhausted := true }, .inl ⟨?_, rfl, ends.2⟩⟩
      simp [goOn, ends.1]
    · obtain ⟨next, p', moved⟩ := goes
      by_cases near : atMatch T o' = true
      · refine ⟨o', .inr ⟨?_, p', moved⟩⟩
        simp [goOn, next, near, here]
      · have again : goOn T (rounds + 1) o = goOn T rounds o' := by
          simp [goOn, next, near]
        have less := moved.less
        rw [again]
        obtain ⟨o'', ends | goes⟩ := ih moved.window (by omega)
        · exact ⟨o'', .inl ⟨ends.1, ends.2.1, ends.2.2.trans moved.atFirst⟩⟩
        · obtain ⟨went, p'', moved'⟩ := goes
          exact ⟨o'', .inr ⟨went, p'', moved'.window, moved'.less.trans less,
            moved.le.trans moved'.le, moved'.atFirst.trans moved.atFirst,
            moved'.exhausted.trans moved.exhausted⟩⟩

/-- **The loop of `matches`** finds a match or there is none. -/
theorem seek_spec (window : Window T o items p) (any : items ≠ []) {rounds : Nat}
    (enough : behind items p < rounds) :
    ∃ o', seek T rounds o = some (false, o') ∨
      (seek T rounds o = some (true, o') ∧ o'.atFirst = true ∧ o'.exhausted = o.exhausted ∧
        ∃ p', Window T o' items p') := by
  induction rounds generalizing o p with
  | zero => omega
  | succ rounds ih =>
    by_cases near : atMatch T o = true
    · exact ⟨{ o with atFirst := true }, .inr ⟨by simp [seek, near], rfl, rfl, p, window.heaped,
        window.full, window.ends, window.high⟩⟩
    · obtain ⟨o', ends | goes⟩ := nextPosition_spec window any
      · exact ⟨o', .inl (by simp [seek, near, ends.1])⟩
      · obtain ⟨next, p', moved⟩ := goes
        have again : seek T (rounds + 1) o = seek T rounds o' := by
          simp [seek, near, next]
        have less := moved.less
        rw [again, ← moved.exhausted]
        exact ih moved.window (by omega)

theorem shows_here (moving : o.atFirst = false) (still : o.exhausted = false) :
    (spans T).Shows o (here T o) := by
  refine ⟨?_, ?_, rfl⟩
  · show startOf T o = _
    simp [startOf, moving, still, here]
  · show (if o.atFirst then -1 else if o.exhausted then NO_MORE else o.maxEnd) = o.maxEnd
    simp [moving, still]

/-- It walks the matches that are near enough. -/
theorem walks_exist (window : Window T o items p) (any : items ≠ []) (moving : o.atFirst = false)
    (still : o.exhausted = false) :
    ∃ l, (spans T).Walks o l ∧ Orderly l ∧ (∀ x ∈ l, (here T o).start ≤ x.start) ∧
      l.length ≤ behind items p := by
  refine Spans.exists_walks (fun o n a => o.atFirst = false ∧ o.exhausted = false ∧
    ∃ p, Window T o items p ∧ n = behind items p ∧ a = (here T o).start) ?_ ?_
    ⟨moving, still, p, window, rfl, rfl⟩
  · rintro o n a ⟨moving, still, p, window, rfl, rfl⟩
    have le := window.heaped.behind_le
    refine ⟨fun p => rfl, ?_⟩
    show behind items p ≤ T.leftAll o.subs + o.atFirst.toNat
    omega
  · rintro o n a ⟨moving, still, p, window, rfl, rfl⟩
    have le := window.heaped.behind_le
    have enough : behind items p < left T o + 1 := by
      show _ < T.leftAll o.subs + o.atFirst.toNat + 1
      omega
    obtain ⟨o', ends | goes⟩ := goOn_spec window any enough
    · left
      obtain ⟨went, out, kept⟩ := ends
      refine ⟨o', ?_, ?_, ?_⟩
      · show nextStart T o = _
        simp [nextStart, moving, went]
      · show startOf T o' = NO_MORE
        simp [startOf, kept, moving, out]
      · show (if o'.atFirst then -1 else if o'.exhausted then NO_MORE else o'.maxEnd) = NO_MORE
        simp [kept, moving, out]
    · right
      obtain ⟨went, p', moved⟩ := goes
      have moving' := moved.atFirst.trans moving
      have still' := moved.exhausted.trans still
      obtain ⟨-, -, -, -, -, -, -, -, fit, -⟩ := moved.window.top any
      refine ⟨here T o', o', behind items p', moved.less, ?_, shows_here moving' still', moved.le,
        fit, moving', still', p', moved.window, rfl, rfl⟩
      show nextStart T o = _
      simp [nextStart, moving, went]

/-- Every part enters it. -/
theorem enter_all {is : List Nat} (window : Window T o items p) (nodup : is.Nodup)
    (new : ∀ i ∈ is, i ∉ items)
    (fresh : ∀ i ∈ is, ∃ s, o.subs[i]? = some s ∧ T.Walks s (p i) ∧ Orderly (p i) ∧ p i ≠ []) :
    ∃ o', is.foldlM (enter T) o = some o' ∧ Window T o' (is.reverse ++ items) p ∧
      o'.atFirst = o.atFirst ∧ o'.exhausted = o.exhausted := by
  induction is generalizing o items with
  | nil => exact ⟨o, rfl, window, rfl, rfl⟩
  | cons i is ih =>
    obtain ⟨absent, nodup⟩ := List.nodup_cons.mp nodup
    obtain ⟨s, there, walks, orderly, some_⟩ := fresh i List.mem_cons_self
    obtain ⟨x, s', next, loads, heaped⟩ :=
      window.heaped.enter (new i List.mem_cons_self) there walks orderly
    have other : ∀ j ∈ is, j ≠ i := by
      rintro j hj rfl
      exact absent hj
    obtain ⟨m, rest, first⟩ := List.exists_cons_of_ne_nil some_
    have shown : T.end s' = m.end ∧ m.Fit := by
      rw [first] at loads
      cases loads with
      | on _ _ on => exact ⟨on.shows_.end, on.orderly.head⟩
    let o₁ : NearUnordered σ := { o with
      subs := o.subs.set i s'
      heap := o.heap.add i (T.positionLess (o.subs.set i s'))
      maxEnd := max o.maxEnd (T.end s')
      totalLength := wrap (o.totalLength + (T.end s' - T.start s')) }
    have window₁ : Window T o₁ (i :: items) p := by
      refine ⟨heaped, ?_, ?_, ?_⟩
      · intro j hj
        cases List.mem_cons.mp hj with
        | inl here => exact here ▸ some_
        | inr later => exact window.full j later
      · intro j hj y l first'
        show y.end ≤ max o.maxEnd (T.end s')
        cases List.mem_cons.mp hj with
        | inl here =>
          rw [here, first] at first'
          cases first'
          rw [shown.1]
          exact le_max_right _ _
        | inr later => exact (window.ends j later y l first').trans (le_max_left _ _)
      · show max o.maxEnd (T.end s') ≤ NO_MORE
        rw [shown.1]
        exact max_le window.high shown.2.end
    obtain ⟨o', entered, window', kept, kept'⟩ := ih window₁ nodup
      (fun j hj hmem => (List.mem_cons.mp hmem).elim (other j hj)
        (new j (List.mem_cons_of_mem i hj)))
      (fun j hj => by
        obtain ⟨u, hu, rest⟩ := fresh j (List.mem_cons_of_mem i hj)
        refine ⟨u, ?_, rest⟩
        show (o.subs.set i s')[j]? = some u
        rw [List.getElem?_set_ne (other j hj).symm, hu])
    refine ⟨o', ?_, ?_, kept, kept'⟩
    · rw [List.foldlM_cons]
      simpa [enter, there, next, o₁] using entered
    · rw [List.reverse_cons, List.append_assoc]
      exact window'

/-- **An unordered near** walks its matches in order, and has one only where each of its clauses
has. -/
theorem means {ls : List (List Match)} (clauses : List.Forall₂ T.Means o.subs ls)
    (orderly : ∀ l ∈ ls, Orderly l) (new : o.heap = .new) (some_ : o.subs ≠ []) :
    ∃ l, (spans T).Means o l ∧ Orderly l ∧ (l ≠ [] → ∀ x ∈ ls, x ≠ []) := by
  obtain ⟨subs, asked, fresh⟩ := Spans.allMatch_means clauses
  by_cases all : ∀ l ∈ ls, l ≠ []
  case neg =>
    have none : (ls.all fun l => !l.isEmpty) = false := by
      simpa using all
    refine ⟨[], ⟨{ o with subs }, ?_, fun some_ => absurd rfl some_⟩, .nil, fun some_ =>
      absurd rfl some_⟩
    show «matches» T o = _
    simp [«matches», asked, none]
  case pos =>
    have yes : (ls.all fun l => !l.isEmpty) = true := by
      simpa using all
    have fresh := fresh all
    have length : subs.length = ls.length := fresh.length_eq
    have any : (List.range subs.length).reverse ++ [] ≠ [] := by
      intro none
      have size := congrArg List.length none
      simp only [List.append_nil, List.length_reverse, List.length_range, List.length_nil] at size
      rw [length, ← clauses.length_eq] at size
      exact some_ (List.eq_nil_of_length_eq_zero size)
    let o₀ : NearUnordered σ := { o with
      subs, atFirst := false, exhausted := false, heap := o.heap.clear, totalLength := 0,
      maxEnd := -1 }
    have empty : Window T o₀ [] (fun i => ls.getD i []) := by
      refine ⟨⟨nofun, ?_, ?_, .nil⟩, nofun, nofun, show (-1 : Int) ≤ NO_MORE by decide⟩
      · show LuceneHeap.Valid _ o.heap.clear
        rw [new]
        exact LuceneHeap.clear_valid LuceneHeap.valid_new
      · show (LuceneHeap.clear _).items.Perm []
        rw [LuceneHeap.clear_items]
    obtain ⟨o₁, entered, window, moving, still⟩ := enter_all empty
      (List.nodup_range : (List.range subs.length).Nodup) (fun _ _ => nofun) (fun i hi => by
        have inside := List.mem_range.mp hi
        have inside' : i < ls.length := length ▸ inside
        have here := fresh.get inside inside'
        simp only [List.get_eq_getElem] at here
        have item : ls.getD i [] = ls[i] := by simp [inside']
        rw [item]
        exact ⟨subs[i], by simp [o₀, inside], here.walks, orderly _ (List.getElem_mem inside'),
          all _ (List.getElem_mem inside')⟩)
    have started : startDocument T { o with subs, atFirst := false, exhausted := false } =
        some o₁ := entered
    have bound := window.heaped.behind_le
    have enough : behind ((List.range subs.length).reverse ++ []) (fun i => ls.getD i []) <
        left T o₁ + 1 := by
      show _ < T.leftAll o₁.subs + o₁.atFirst.toNat + 1
      omega
    obtain ⟨o₂, ends | goes⟩ := seek_spec window any enough
    · refine ⟨[], ⟨o₂, ?_, fun some_ => absurd rfl some_⟩, .nil, fun some_ => absurd rfl some_⟩
      show «matches» T o = _
      simp [«matches», asked, yes, started, ends]
    · obtain ⟨found, stored, kept, p', window'⟩ := goes
      have still' : o₂.exhausted = false := kept.trans still
      have window₃ : Window T { o₂ with atFirst := false } _ p' :=
        ⟨window'.heaped, window'.full, window'.ends, window'.high⟩
      obtain ⟨l, walks, orderly', low, short⟩ := walks_exist window₃ any rfl still'
      obtain ⟨-, -, -, -, -, -, -, -, fit, -⟩ := window₃.top any
      refine ⟨here T o₂ :: l, ⟨o₂, ?_, fun _ => ⟨?_, ?_, .more { o₂ with atFirst := false }
        (fun p => rfl) ?_ ?_ (shows_here (o := { o₂ with atFirst := false }) rfl still') walks⟩⟩,
        orderly'.cons fit low, fun _ => all⟩
      · show «matches» T o = _
        simp [«matches», asked, yes, started, found]
      · show startOf T o₂ = -1
        simp [startOf, stored]
      · show (if o₂.atFirst then -1 else _) = -1
        simp [stored]
      · have le := window'.heaped.behind_le
        show l.length < T.leftAll o₂.subs + o₂.atFirst.toNat
        simp only [stored, Bool.toNat_true]
        omega
      · show nextStart T o₂ = _
        simp [nextStart, stored, here]

end NearUnordered

end Velosearch.Query

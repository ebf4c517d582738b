import Velosearch.Query.Ordered
import Velosearch.Query.Phrase

/-!
# Words in any order

The iterator keeps one position of each word, and the words in a heap by where they stand. The
stretch from the first to the last of them holds one of each; it starts later as long as the word
it starts with has another position before its end.
-/

set_option autoImplicit false

namespace Velosearch.Query

open Velosearch.Lib Velosearch.Lib.Heap

/-- A position of each of `n` words within the stretch. -/
def Together (n : Nat) (L : Nat → Places) (s e : Int) : Prop :=
  ∀ k, k < n → ∃ x ∈ (L k).items, s ≤ x ∧ x ≤ e

variable {n : Nat} {L : Nat → Places}

/-- The smallest window over the parts is tight. -/
theorem tight_together {s e : Int} (holds : Together n L s e)
    (least : ∀ e', Together n L s e' → e ≤ e') (late : ∃ k, k < n ∧ e < (L k).after s) :
    Tight (Together n L) ⟨s, e⟩ := by
  refine ⟨holds, ?_⟩
  intro s' e' after before inner
  obtain ⟨k, inside, beyond⟩ := late
  have same : s' = s := by
    obtain ⟨x, there, from_, upto⟩ := inner k inside
    by_contra other
    have le := (L k).after_le there (show s < x by dsimp only at after; omega)
    dsimp only at before
    omega
  cases same
  exact ⟨rfl, le_antisymm before (least e' inner)⟩

namespace UnorderedIt

variable {p : Nat → Int} {it : UnorderedIt} {m : Int} {i fuel : Nat}

/-- The order of the heap: by where the parts stand. -/
def before (subs : Subs) (a b : Nat) : Prop := (sub subs a).pos ≤ (sub subs b).pos

theorem less_iff {subs : Subs} {a b : Nat} : less subs a b = true ↔ before subs a b := by
  show (decide ((sub subs a).pos < (sub subs b).pos) ||
    (decide ((sub subs a).pos = (sub subs b).pos) &&
      decide ((sub subs a).pos ≥ (sub subs b).pos))) = true ↔ _
  simp only [Bool.or_eq_true, Bool.and_eq_true, decide_eq_true_eq, before]
  omega

/-- The heap's order is that of the parts. -/
theorem less_agrees (subs : Subs) : Agrees (less subs) (before subs) where
  yes := fun _ _ yes => less_iff.mp yes
  no := by
    intro a b no
    have behind : ¬ before subs a b := fun le => by simp [less_iff.mpr le] at no
    exact le_of_lt (not_le.mp behind)
  trans := fun _ _ _ => le_trans

/-- The first `i` parts each on a position, all of them in the heap, and the end of the stretch
where the last of them stands. -/
structure Full (n : Nat) (L : Nat → Places) (i : Nat) (p : Nat → Int) (it : UnorderedIt) :
    Prop where
  stands : Stands n L p it.subs
  valid : it.queue.Valid (before it.subs)
  items : it.queue.items.Perm (List.range i)
  mem : ∀ k, k < i → p k ∈ (L k).items
  reached : ∀ k, k < i → p k ≤ it.queueEnd
  right : 1 ≤ i → ∃ k, k < i ∧ p k = it.queueEnd

namespace Full

theorem len (full : Full n L i p it) : it.queue.len = i := by
  rw [LuceneHeap.len_eq, full.items.length_eq, List.length_range]

theorem top (full : Full n L i p it) (some_ : 1 ≤ i) (le : i ≤ n) :
    ∃ t, it.top = some t ∧ t < i ∧ ∀ k, k < i → p t ≤ p k := by
  have any : it.queue.items ≠ [] := by
    intro none
    have size := full.items.length_eq
    rw [none, List.length_nil, List.length_range] at size
    omega
  obtain ⟨t, -, top, -⟩ := LuceneHeap.pop_valid (less_agrees it.subs) full.valid any
  have first := LuceneHeap.top_le (less_agrees it.subs) full.valid top
  have inside : t < i := List.mem_range.mp (full.items.mem_iff.mp first.1)
  refine ⟨t, top, inside, fun k within => ?_⟩
  have le_ := first.2 k (full.items.mem_iff.mpr (List.mem_range.mpr within))
  rw [before, (full.stands.at_ t (by omega)).pos, (full.stands.at_ k (by omega)).pos] at le_
  exact le_

end Full

/-- **A part put into the heap**, once it stands on its next position. -/
theorem add_full (it : UnorderedIt) (j : Nat) {p' : Nat → Int} {rest : List Nat} (stands : Stands n L p' it.subs)
    (valid : it.queue.Valid (before it.subs)) (items : it.queue.items.Perm rest)
    (all : (j :: rest).Perm (List.range i)) (le : i ≤ n)
    (mem : ∀ k, k < i → p' k ∈ (L k).items)
    (reached : ∀ k, k < i → k ≠ j → p' k ≤ it.queueEnd)
    (right : (∃ k, k < i ∧ k ≠ j ∧ p' k = it.queueEnd) ∨ it.queueEnd ≤ p' j) :
    Full n L i p' ((it.add j).updateRight j) ∧
      ((it.add j).updateRight j).queueEnd = max it.queueEnd (p' j) := by
  have inside : j < i := List.mem_range.mp (all.mem_iff.mp List.mem_cons_self)
  have added := LuceneHeap.add_valid j (less_agrees it.subs) valid
  have end_ : ((it.add j).updateRight j).queueEnd = max it.queueEnd (p' j) := by
    show max it.queueEnd (sub it.subs j).end = _
    rw [stands.end_ (by omega)]
  refine ⟨⟨stands, added.1, added.2.trans ((items.cons j).trans all), mem, ?_, ?_⟩, end_⟩
  · intro k within
    rw [end_]
    by_cases same : k = j
    · rw [same]
      exact le_max_right _ _
    · exact le_trans (reached k within same) (le_max_left _ _)
  · intro _
    rw [end_]
    cases right with
    | inr low => exact ⟨j, inside, (max_eq_right low).symm⟩
    | inl some =>
      obtain ⟨k, within, other, same⟩ := some
      by_cases low : it.queueEnd ≤ p' j
      · exact ⟨j, inside, (max_eq_right low).symm⟩
      · exact ⟨k, within, same.trans (max_eq_left (by omega)).symm⟩

/-- One round of the queue. -/
structure Moved (n : Nat) (L : Nat → Places) (p : Nat → Int) (it it' : UnorderedIt) (t : Nat) :
    Prop where
  start : it'.start = it.start
  end_ : it'.end = it.end
  size : it'.subs.length = n
  cases_ : ((L t).after (p t) = NO_MORE ∧ it'.queue.len < n) ∨
    ((L t).after (p t) ≠ NO_MORE ∧ Full n L n (Function.update p t ((L t).after (p t))) it' ∧
      it'.queueEnd = max it.queueEnd ((L t).after (p t)))

/-- The part that begins first moves on. -/
theorem advance_spec (full : Full n L n p it) (some_ : 1 ≤ n) :
    ∃ t, it.top = some t ∧ t < n ∧ (∀ k, k < n → p t ≤ p k) ∧ Moved n L p it it.advance t := by
  obtain ⟨t, top, inside, least⟩ := full.top some_ (Nat.le_refl n)
  have any : it.queue.items ≠ [] := by
    intro none
    have size := full.items.length_eq
    rw [none, List.length_nil, List.length_range] at size
    omega
  obtain ⟨t', popped, top', valid, perm⟩ :=
    LuceneHeap.pop_valid (less_agrees it.subs) full.valid any
  have same : t' = t := Option.some.inj (top'.symm.trans top)
  subst same
  have moved := full.stands.step inside
  have all := perm.symm.trans full.items
  have size : (it.queue.pop (less it.subs)).2.len + 1 = n := by
    have length := all.length_eq
    rw [List.length_cons, List.length_range] at length
    rw [LuceneHeap.len_eq, length]
  have unique : ∀ k ∈ (it.queue.pop (less it.subs)).2.items, k ≠ t' := by
    have nodup := all.nodup_iff.mpr List.nodup_range
    intro k there same
    exact (List.nodup_cons.mp nodup).1 (same ▸ there)
  have within : ∀ k ∈ (it.queue.pop (less it.subs)).2.items, k < n := fun k there =>
    List.mem_range.mp (all.mem_iff.mp (List.mem_cons_of_mem _ there))
  refine ⟨t', top, inside, least, ?_⟩
  have taken : it.pop = (some t', { it with queue := (it.queue.pop (less it.subs)).2 }) :=
    Prod.ext popped rfl
  rw [advance, taken]
  dsimp only
  rw [moved.1]
  by_cases out : (L t').after (p t') = NO_MORE
  · rw [if_neg (by simp [out])]
    exact ⟨rfl, rfl, moved.2.size, .inl ⟨out, by dsimp only; omega⟩⟩
  · rw [if_pos out]
    have range := ((L t').inside _ (full.mem t' inside)).2
    have rises := (L t').lt_after range
    have added := add_full ⟨(step it.subs t').2, (it.queue.pop (less it.subs)).2, it.start, it.end,
        it.slop, it.queueEnd⟩ t'
      moved.2 (valid.congr ?_) (.refl _) all (Nat.le_refl n) ?_ ?_ ?_
    · refine ⟨rfl, rfl, moved.2.size, .inr ⟨out, added.1, ?_⟩⟩
      rw [added.2, Function.update_self]
    · intro a first b second le
      dsimp only at le ⊢
      rw [before, (full.stands.at_ a (within a first)).pos,
        (full.stands.at_ b (within b second)).pos] at le
      rw [before, (moved.2.at_ a (within a first)).pos, (moved.2.at_ b (within b second)).pos,
        Function.update_of_ne (unique a first), Function.update_of_ne (unique b second)]
      exact le
    · intro k inner
      by_cases same : k = t'
      · rw [same, Function.update_self]
        exact (L t').after_mem out
      · rw [Function.update_of_ne same]
        exact full.mem k inner
    · intro k inner other
      rw [Function.update_of_ne other]
      exact full.reached k inner
    · obtain ⟨k, inner, last⟩ := full.right some_
      by_cases same : k = t'
      · right
        rw [Function.update_self]
        show it.queueEnd ≤ _
        rw [← last, same]
        exact le_of_lt rises
      · exact .inl ⟨k, inner, same, by rw [Function.update_of_ne same]; exact last⟩

/-- How much the parts have left. -/
def total (n : Nat) (L : Nat → Places) (p : Nat → Int) : Nat :=
  ∑ k ∈ Finset.range n, ((L k).later (p k)).length

theorem rounds_eq (stands : Stands n L p it.subs) : it.rounds = total n L p := by
  have listed : it.subs = (List.range n).map (sub it.subs) := by
    apply List.ext_getElem
    · simp [stands.size]
    · intro k inside _
      simp [sub, inside]
  have summed : total n L p = ((List.range n).map fun k => ((L k).later (p k)).length).sum := by
    rw [total, Finset.sum_eq_multiset_sum, Finset.range_val, Multiset.range, Multiset.map_coe,
      Multiset.sum_coe]
  rw [rounds, summed, listed, List.map_map]
  congr 1
  apply List.map_congr_left
  intro k there
  have upto := (stands.at_ k (List.mem_range.mp there)).upto
  show (sub it.subs k).upto.toNat = _
  rw [upto, Int.toNat_natCast]

/-- There is less left then. -/
theorem total_lt {t : Nat} (inside : t < n) (more : (L t).after (p t) ≠ NO_MORE) :
    total n L (Function.update p t ((L t).after (p t))) < total n L p := by
  have size := (L t).later_after more
  apply Finset.sum_lt_sum
  · intro k _
    by_cases same : k = t
    · rw [same, Function.update_self]
      omega
    · rw [Function.update_of_ne same]
  · refine ⟨t, Finset.mem_range.mpr inside, ?_⟩
    rw [Function.update_self]
    omega

/-- No part has passed a position after `m`. -/
def Past (n : Nat) (L : Nat → Places) (m : Int) (p : Nat → Int) : Prop :=
  ∀ k, k < n → m ≤ p k ∧ ∀ x ∈ (L k).items, m < x → p k ≤ x

/-- **The parts at the last start moved on**: each part stands on its first position after it, or
one has none. -/
theorem leave_spec (some_ : 1 ≤ n) (full : Full n L n p it) (past : Past n L it.start p)
    (enough : total n L p < fuel) :
    ((leave fuel it).queue.len < (leave fuel it).subs.length ∧
        ∃ k, k < n ∧ (L k).after it.start = NO_MORE) ∨
      ∃ p', Full n L n p' (leave fuel it) ∧ ∀ k, k < n → p' k = (L k).after it.start := by
  induction fuel generalizing p it with
  | zero => omega
  | succ fuel ih =>
    obtain ⟨t, top, inside, least, moved⟩ := advance_spec full some_
    rw [leave, top, full.len, full.stands.size]
    simp only [true_and, Option.map_some, Option.some.injEq, full.stands.start inside]
    by_cases here : p t = it.start
    · rw [if_pos here]
      rcases moved.cases_ with ⟨out, few⟩ | ⟨more, full', -⟩
      · left
        rw [here] at out
        have still : leave fuel it.advance = it.advance := by
          cases fuel with
          | zero => rfl
          | succ fuel => rw [leave, if_neg (by rw [moved.size]; omega)]
        rw [still, moved.size]
        exact ⟨few, t, inside, out⟩
      · have later := ih full' ?_ ?_
        · rw [moved.start] at later
          exact later
        · rw [moved.start]
          intro k within
          by_cases same : k = t
          · subst same
            rw [Function.update_self, here]
            refine ⟨?_, fun x there after => (L k).after_le there after⟩
            exact le_of_lt ((L k).lt_after (here ▸ ((L k).inside _ (full.mem k inside)).2))
          · rw [Function.update_of_ne same]
            exact past k within
        · have fewer := total_lt inside more
          omega
    · rw [if_neg here]
      refine .inr ⟨p, full, fun k within => ?_⟩
      have low := least k within
      have first := past t inside
      have after : it.start < p k := by omega
      apply le_antisymm
      · by_cases out : (L k).after it.start = NO_MORE
        · rw [out]
          exact le_of_lt ((L k).inside _ (full.mem k within)).2
        · refine (past k within).2 _ ((L k).after_mem out) ?_
          exact (L k).lt_after (by
            have range := ((L k).inside _ (full.mem k within)).2
            omega)
      · exact (L k).after_le (full.mem k within) after

/-- What is left for the calls after a stretch from `m`. -/
def Next (n : Nat) (L : Nat → Places) (m : Int) (it : UnorderedIt) : Prop :=
  it.start = m ∧ it.subs.length = n ∧
    ((∃ p, Full n L n p it ∧ Past n L m p) ∨
      (it.queue.len < n ∧ ∃ k, k < n ∧ (L k).after m = NO_MORE))

/-- **The start moved on** as long as the end stays: some part has no other position before the
end. -/
theorem shrink_spec (some_ : 1 ≤ n) (full : Full n L n p it) (past : Past n L m p)
    (at_ : ∃ k, k < n ∧ p k = m) (enough : total n L p < fuel) :
    ∃ m', m ≤ m' ∧ (shrink fuel it).end = it.queueEnd ∧ Together n L m' it.queueEnd ∧
      (∃ k, k < n ∧ it.queueEnd < (L k).after m') ∧ m' < NO_MORE ∧
      Next n L m' (shrink fuel it) := by
  induction fuel generalizing p it m with
  | zero => omega
  | succ fuel ih =>
    obtain ⟨t, top, inside, least⟩ := full.top some_ (Nat.le_refl n)
    have first : p t = m := by
      obtain ⟨k, within, same⟩ := at_
      have low := least k within
      have floor := (past t inside).1
      omega
    have range := (L t).inside _ (full.mem t inside)
    have start : (sub it.subs t).start = m := by rw [full.stands.start inside, first]
    have end_ : (sub it.subs t).end = m := by rw [full.stands.end_ inside, first]
    have held : Together n L m it.queueEnd := fun k within =>
      ⟨p k, full.mem k within, (past k within).1, full.reached k within⟩
    -- the fields that are set here neither the heap nor the walks go by
    have alike : Full n L n p (it.mark t) :=
      ⟨full.stands, full.valid, full.items, full.mem, full.reached, full.right⟩
    obtain ⟨t', top', -, -, moved⟩ := advance_spec alike some_
    have same : t' = t := Option.some.inj (top'.symm.trans top)
    subst same
    have last : (it.mark t').end = it.queueEnd := rfl
    have opens : (it.mark t').start = m := start
    rw [shrink, top]
    dsimp only [Option.getD_some]
    have end_ : (sub (it.mark t').subs t').end = m := end_
    by_cases only : m = it.queueEnd
    · rw [if_pos (end_.trans (only.trans last.symm))]
      refine ⟨m, le_refl m, last, held, ⟨t', inside, ?_⟩, first ▸ range.2, opens, full.stands.size,
        .inl ⟨p, alike, past⟩⟩
      rw [← only]
      exact (L t').lt_after (first ▸ range.2)
    · rw [if_neg (fun same => only (end_.symm.trans (same.trans last)))]
      rcases moved.cases_ with ⟨out, few⟩ | ⟨more, full', reached⟩
      · rw [first] at out
        rw [if_neg (by rw [moved.size]; omega)]
        refine ⟨m, le_refl m, moved.end_.trans last, held, ⟨t', inside, ?_⟩, first ▸ range.2,
          moved.start.trans opens, moved.size, .inr ⟨few, t', inside, out⟩⟩
        obtain ⟨k, within, right⟩ := full.right some_
        rw [out, ← right]
        exact ((L k).inside _ (full.mem k within)).2
      · have risen : Past n L m (Function.update p t' ((L t').after (p t'))) := by
          intro k within
          by_cases same : k = t'
          · subst same
            rw [Function.update_self, first]
            exact ⟨le_of_lt ((L k).lt_after (first ▸ range.2)),
              fun x there after => (L k).after_le there after⟩
          · rw [Function.update_of_ne same]
            exact past k within
        rw [first] at full' risen reached
        have ends : (it.mark t').advance.end = it.queueEnd := moved.end_.trans last
        have reached : (it.mark t').advance.queueEnd = max it.queueEnd ((L t').after m) := reached
        by_cases stays : it.queueEnd = max it.queueEnd ((L t').after m)
        · rw [if_pos ⟨full'.len.trans moved.size.symm, ends.trans (stays.trans reached.symm)⟩]
          obtain ⟨t, -, inside_, least_⟩ := full'.top some_ (Nat.le_refl n)
          have floor := risen t inside_
          obtain ⟨m', le, end_, held', late, short, next⟩ :=
            ih full' (m := Function.update p t' ((L t').after m) t)
              (fun k within => ⟨least_ k within, fun x there after =>
                (risen k within).2 x there (lt_of_le_of_lt floor.1 after)⟩) ⟨t, inside_, rfl⟩
              (by
                have fewer := total_lt inside more
                rw [first] at fewer
                omega)
          rw [reached, ← stays] at end_ held' late
          exact ⟨m', le_trans floor.1 le, end_, held', late, short, next⟩
        · rw [if_neg (fun both => stays (ends.symm.trans (both.2.trans reached)))]
          refine ⟨m, le_refl m, ends, held, ⟨t', inside, ?_⟩, first ▸ range.2,
            moved.start.trans opens, moved.size, .inl ⟨_, full', risen⟩⟩
          by_contra low
          exact stays (max_eq_left (not_lt.mp low)).symm

/-- **A call** returns the first shortest stretch after the last one, if there is one. -/
theorem next_call (some_ : 1 ≤ n) (before : m < NO_MORE) (next : Next n L m it) :
    ((nextInterval it).1 = NO_MORE ∧ ∃ k, k < n ∧ (L k).after m = NO_MORE) ∨
      ∃ m' e, nextInterval it = (m', (nextInterval it).2) ∧ m < m' ∧ m' < NO_MORE ∧
        (nextInterval it).2.end = e ∧ Together n L m' e ∧ (∃ k, k < n ∧ e < (L k).after m') ∧
        (∀ s e', m < s → Together n L s e' → e ≤ e') ∧ Next n L m' (nextInterval it).2 := by
  obtain ⟨start, size, cases_⟩ := next
  rcases cases_ with ⟨p, full, past⟩ | ⟨few, none⟩
  · rcases leave_spec some_ full (start ▸ past)
      (show total n L p < it.rounds + 1 by rw [rounds_eq full.stands]; omega) with ⟨few, none⟩ | ⟨p', full', moved⟩
    · left
      rw [start] at none
      refine ⟨?_, none⟩
      rw [nextInterval, if_pos few]
    · right
      rw [start] at moved
      obtain ⟨t, -, inside, least⟩ := full'.top some_ (Nat.le_refl n)
      have rises : m < p' t := moved t inside ▸ (L t).lt_after before
      obtain ⟨m', le, end_, held, late, short, next⟩ :=
        shrink_spec (m := p' t) some_ full'
          (fun k within => ⟨least k within, fun x there after => by
            rw [moved k within]
            exact (L k).after_le there (lt_trans rises after)⟩) ⟨t, inside, rfl⟩
          (show total n L p' < (leave (it.rounds + 1) it).rounds + 1 by
            rw [rounds_eq full'.stands]; omega)
      have called : nextInterval it = ((shrink ((leave (it.rounds + 1) it).rounds + 1)
          (leave (it.rounds + 1) it)).start, shrink ((leave (it.rounds + 1) it).rounds + 1)
          (leave (it.rounds + 1) it)) := by
        rw [nextInterval, if_neg (by rw [full'.len, full'.stands.size]; omega)]
      rw [called]
      refine ⟨m', _, ?_, lt_of_lt_of_le rises le, short, end_, held, late, ?_, next⟩
      · rw [next.1]
      · intro s e' after inner
        obtain ⟨k, within, right⟩ := full'.right some_
        obtain ⟨x, there, from_, upto⟩ := inner k within
        have first := (L k).after_le there (lt_of_lt_of_le after from_)
        rw [← right, moved k within]
        exact le_trans first upto
  · left
    refine ⟨?_, none⟩
    have still : leave (it.rounds + 1) it = it := by
      rw [leave, if_neg (by rw [size]; omega)]
    rw [nextInterval, still, if_pos (by rw [size]; exact few)]

/-- **Every run** returns just the shortest stretches. -/
theorem enumerates (some_ : 1 ≤ n) (before : m < NO_MORE) (next : Next n L m it) :
    Enumerates (Together n L) m it := by
  obtain ⟨gap, bound⟩ : ∃ gap, (NO_MORE - m).toNat = gap := ⟨_, rfl⟩
  induction gap using Nat.strongRecOn generalizing m it with
  | ind gap ih =>
    rcases next_call some_ before next with ⟨ended, k, inside, none⟩ |
      ⟨m', e, called, after, short, end_, held, late, least, next'⟩
    · refine .done ended fun x tight later => ?_
      obtain ⟨y, there, from_, -⟩ := tight.1 k inside
      have le := (L k).after_le there (lt_of_lt_of_le later from_)
      have range := ((L k).inside y there).2
      omega
    · refine .more ⟨m', e⟩ (nextInterval it).2 called (ne_of_lt short) next'.1 end_
        (tight_together held (fun e' => least m' e' after) late) after ?_
        (ih _ ?_ short next' rfl)
      · intro y tight later
        by_cases beyond : m' < y.start
        · exact .inr beyond
        · left
          have same := tight.2 m' e (not_lt.mp beyond) (least y.start y.end later tight.1) held
          cases y with
          | mk s e =>
            rw [same.1, same.2]
      · dsimp only
        omega

/-- The queue is filled with every part. -/
theorem fill_spec {rest : Nat} (full : Full n L i p it) (size : i + rest = n)
    (start : it.start = -1) (first : ∀ k, k < i → p k = (L k).after (-1))
    (others : ∀ k, i ≤ k → k < n → p k = -1) (end_ : i = 0 → it.queueEnd = -1) :
    Next n L (-1) (fill rest it i) := by
  induction rest generalizing p it i with
  | zero =>
    cases size
    refine ⟨start, full.stands.size, .inl ⟨p, full, fun k inside => ?_⟩⟩
    rw [first k inside]
    exact ⟨le_of_lt ((L k).lt_after (by decide)), fun x there after => (L k).after_le there after⟩
  | succ rest ih =>
    have inside : i < n := by omega
    have moved := full.stands.step inside
    rw [others i (Nat.le_refl i) inside] at moved
    rw [fill]
    dsimp only
    rw [moved.1]
    by_cases out : (L i).after (-1) = NO_MORE
    · rw [if_pos out]
      refine ⟨start, moved.2.size, .inr ⟨?_, i, inside, out⟩⟩
      show it.queue.len < n
      rw [full.len]
      exact inside
    · rw [if_neg out]
      have there := (L i).after_mem out
      have held : ∀ k ∈ it.queue.items, k < i := fun k there =>
        List.mem_range.mp (full.items.mem_iff.mp there)
      obtain ⟨p', here, kept, stands⟩ : ∃ p', p' i = (L i).after (-1) ∧
          (∀ k, k ≠ i → p' k = p k) ∧ Stands n L p' (step it.subs i).2 :=
        ⟨_, Function.update_self .., fun k other => Function.update_of_ne other .., moved.2⟩
      have added := add_full { it with subs := (step it.subs i).2 } i stands
        (full.valid.congr ?_) full.items (i := i + 1) ?_ inside ?_ ?_ ?_
      · refine ih added.1 (by omega) start ?_ ?_ (by omega)
        · intro k within
          by_cases same : k = i
          · rw [same, here]
          · rw [kept k same]
            exact first k (by omega)
        · intro k le within
          rw [kept k (by omega)]
          exact others k (by omega) within
      · intro a low b high le
        have first := held a low
        have second := held b high
        dsimp only at le ⊢
        rw [before, (full.stands.at_ a (by omega)).pos, (full.stands.at_ b (by omega)).pos] at le
        rw [before, (stands.at_ a (by omega)).pos, (stands.at_ b (by omega)).pos,
          kept a (by omega), kept b (by omega)]
        exact le
      · rw [List.range_succ]
        exact (List.perm_append_singleton i _).symm
      · intro k within
        by_cases same : k = i
        · rw [same, here]
          exact there
        · rw [kept k same]
          exact full.mem k (by omega)
      · intro k within other
        rw [kept k other]
        exact full.reached k (by omega)
      · by_cases zero : i = 0
        · right
          rw [here]
          show it.queueEnd ≤ _
          rw [end_ zero]
          have range := (L i).inside _ there
          omega
        · obtain ⟨k, within, right⟩ := full.right (by omega)
          exact .inl ⟨k, by omega, by omega, by rw [kept k (by omega)]; exact right⟩

theorem iterator_next (lists : List Places) :
    Next lists.length (lists.getD · default) (-1) (iterator (lists.map Places.items)) := by
  have stands := Stands.iterators lists
  have valid : (LuceneHeap.new).Valid (before ((lists.map Places.items).map TermIt.iterator)) :=
    LuceneHeap.valid_new
  rw [iterator, reset]
  dsimp only
  rw [stands.size]
  refine fill_spec (p := fun _ => -1) ⟨stands, LuceneHeap.clear_valid valid, ?_, ?_, ?_, ?_⟩ (Nat.zero_add _)
    rfl ?_ (fun _ _ _ => rfl) (fun _ => rfl)
  · exact .refl _
  · intro k none
    exact absurd none (Nat.not_lt_zero k)
  · intro k none
    exact absurd none (Nat.not_lt_zero k)
  · intro some_
    exact absurd some_ (Nat.not_lt_zero 0)
  · intro k none
    exact absurd none (Nat.not_lt_zero k)

end UnorderedIt

/-- What an iterator over the words of a document returns: the shortest stretches, each starting
and ending after the one before, and then nothing more. -/
def ReturnsShortest {σ : Type} [Intervals σ] (holds : Int → Int → Prop) (it : σ) : Prop :=
  ∃ l, Returns it l ∧ Increasing l ∧ ∀ x, x ∈ l ↔ Tight holds x

/-- The intervals that are enumerated are the shortest. -/
theorem Enumerates.shortest {σ : Type} [Intervals σ] {holds : Int → Int → Prop} {it : σ}
    (run : Enumerates holds (-1) it) (low : ∀ x, Tight holds x → -1 < x.start) :
    ReturnsShortest holds it := by
  obtain ⟨l, walked, order, members⟩ := run
  refine ⟨l, walked, order, fun x => ?_⟩
  rw [members]
  exact ⟨And.left, fun tight => ⟨tight, low x tight⟩⟩

/-- **Ordered, unordered and phrase intervals** are just the shortest ones. -/
theorem conjunctions_shortest (first : Places) (others : List Places) :
    let lists := first :: others
    let n := lists.length
    let L := fun k => lists.getD k default
    ReturnsShortest (InOrder n L) (OrderedIt.iterator (lists.map Places.items)) ∧
      ReturnsShortest (Together n L) (UnorderedIt.iterator (lists.map Places.items)) ∧
      ReturnsShortest (Adjacent n L) (BlockIt.iterator (lists.map Places.items)) := by
  intro lists n L
  have some : 1 ≤ n := Nat.succ_pos _
  refine ⟨?_, ?_, ?_⟩
  · refine (OrderedIt.enumerates some (OrderedIt.iterator_next first others)).shortest ?_
    intro x tight
    have range := (L 0).inside _ ((tight_inOrder some).mp tight).1
    omega
  · refine (UnorderedIt.enumerates some (by decide) (UnorderedIt.iterator_next lists)).shortest ?_
    intro x tight
    by_contra low
    -- no position is before 0, so a stretch from before it holds a smaller one
    have inner : Together n L 0 x.end := by
      intro k inside
      obtain ⟨y, there, -, upto⟩ := tight.1 k inside
      exact ⟨y, there, ((L k).inside y there).1, upto⟩
    have same := (tight.2 0 x.end (by omega) (le_refl _) inner).1
    omega
  · refine (BlockIt.enumerates some (by decide) (BlockIt.iterator_between first others)).shortest ?_
    intro x tight
    have start := ((tight_adjacent some).mp tight).1 0 some
    have range := (L 0).inside _ start
    push_cast at range
    omega

/-- "a a b a b" -/
example : Returns (OrderedIt.iterator [[0, 1, 3], [2, 4]]) [⟨1, 2⟩, ⟨3, 4⟩] :=
  .more (by decide) (.more (by decide) (.done (by decide)))

end Velosearch.Query

import Velosearch.Lib.Entries
import Velosearch.Query.Spans

/-!
# What a span walk finds

A walk stands for the matches it will come by. Each clause is followed to the matches of the clauses
below it: a step of the walk is a step to the next match on a list.
-/

set_option autoImplicit false

namespace Velosearch.Query

/-- A match within 32 bits. -/
structure Match.Fit (m : Match) : Prop where
  start : 0 ≤ m.start
  lt : m.start < m.end
  «end» : m.end ≤ NO_MORE

theorem Match.Fit.ne {m : Match} (fit : m.Fit) : m.start ≠ NO_MORE := by
  have lt := fit.lt
  have le := fit.end
  omega

/-- Matches in order. -/
structure Orderly (l : List Match) : Prop where
  fit : ∀ m ∈ l, m.Fit
  order : l.Pairwise fun x y => x.start ≤ y.start

namespace Orderly

variable {m : Match} {l l' : List Match}

theorem nil : Orderly [] := ⟨nofun, .nil⟩

theorem tail (h : Orderly (m :: l)) : Orderly l :=
  ⟨fun x hx => h.fit x (List.mem_cons_of_mem m hx), (List.pairwise_cons.mp h.order).2⟩

theorem head (h : Orderly (m :: l)) : m.Fit := h.fit m List.mem_cons_self

theorem le (h : Orderly (m :: l)) : ∀ x ∈ l, m.start ≤ x.start := (List.pairwise_cons.mp h.order).1

theorem cons (fit : m.Fit) (le : ∀ x ∈ l, m.start ≤ x.start) (h : Orderly l) :
    Orderly (m :: l) := by
  refine ⟨?_, List.pairwise_cons.mpr ⟨le, h.order⟩⟩
  intro x hx
  cases List.mem_cons.mp hx with
  | inl here => exact here ▸ fit
  | inr later => exact h.fit x later

theorem sublist (h : Orderly l) (sub : l'.Sublist l) : Orderly l' :=
  ⟨fun m hm => h.fit m (sub.subset hm), h.order.sublist sub⟩

end Orderly

namespace Spans

variable {σ : Type} {T : Spans σ} {s s' : σ} {m : Match} {l : List Match} {p : Int}

variable (T) in
/-- It has no `skip_to` of its own. -/
def Steps (s : σ) : Prop :=
  ∀ p, T.skipTo s p = skip T.nextStart T.start p (T.left s + 1) s

variable (T) in
/-- The spans stand at a match. -/
structure Shows (s : σ) (m : Match) : Prop where
  start : T.start s = m.start
  «end» : T.end s = m.end
  width : T.width s = m.width

variable (T) in
/-- They have ended. -/
structure Ended (s : σ) : Prop where
  start : T.start s = NO_MORE
  «end» : T.end s = NO_MORE

variable (T) in
/-- They walk some matches. -/
inductive Walks : σ → List Match → Prop where
  | done {s : σ} (s' : σ) (steps : T.Steps s) (next : T.nextStart s = some (NO_MORE, s'))
      (ended : T.Ended s') : Walks s []
  | more {s : σ} (s' : σ) {m : Match} {l : List Match} (steps : T.Steps s)
      (left : l.length < T.left s) (next : T.nextStart s = some (m.start, s'))
      (shows_ : T.Shows s' m) (later : Walks s' l) : Walks s (m :: l)

theorem Walks.steps (h : T.Walks s l) : T.Steps s := by
  cases h with
  | done _ steps => exact steps
  | more _ steps => exact steps

theorem Walks.left (h : T.Walks s l) : l.length ≤ T.left s := by
  cases h with
  | done => exact Nat.zero_le _
  | more _ _ left => exact left

variable (T) in
/-- They stand before their first match. -/
structure Fresh (s : σ) (l : List Match) : Prop where
  start : T.start s = -1
  «end» : T.end s = -1
  walks : T.Walks s l

variable (T) in
/-- The matches there are in the document: `matches` tells whether there is one, and where there is
the walk comes by them. -/
def Means (s : σ) (l : List Match) : Prop :=
  ∃ s', T.matches s = some (!l.isEmpty, s') ∧ (l ≠ [] → T.Fresh s' l)

/-- A walk comes to its matches. -/
theorem Walks.walk (h : T.Walks s l) (orderly : Orderly l) {rounds : Nat}
    (enough : l.length < rounds) : T.walk rounds s = some l := by
  induction h generalizing rounds with
  | done _ _ next _ =>
    obtain ⟨rounds, rfl⟩ : ∃ k, rounds = k + 1 := ⟨rounds - 1, by omega⟩
    simp [Spans.walk, next]
  | more _ _ _ next shows_ _ ih =>
    obtain ⟨rounds, rfl⟩ : ∃ k, rounds = k + 1 := ⟨rounds - 1, by omega⟩
    have rest := ih orderly.tail (Nat.lt_of_succ_lt_succ enough)
    simp [Spans.walk, next, orderly.head.ne, rest, shows_.start, shows_.end, shows_.width]

/-- And is found so. -/
theorem Means.found (h : T.Means s l) (orderly : Orderly l) : T.found s = some l := by
  obtain ⟨s', asked, fresh⟩ := h
  by_cases none : l = []
  · simp [Spans.found, asked, none]
  · have walked := (fresh none).walks.walk orderly
      (Nat.lt_succ_of_le (fresh none).walks.left)
    simp [Spans.found, asked, none, walked]

theorem Means.asked (h : T.Means s l) : (T.matches s).map Prod.fst = some (!l.isEmpty) := by
  obtain ⟨s', asked, -⟩ := h
  rw [asked]
  rfl

theorem Walks.next (h : T.Walks s l) : ∃ x s', T.nextStart s = some (x, s') := by
  cases h with
  | done s' _ next => exact ⟨_, s', next⟩
  | more s' _ _ next => exact ⟨_, s', next⟩

/-- All of the spans match where each has a match. -/
theorem allMatch_means {ss : List σ} {ls : List (List Match)} (h : List.Forall₂ T.Means ss ls) :
    ∃ ss', T.allMatch ss = some (ls.all fun l => !l.isEmpty, ss') ∧
      ((∀ l ∈ ls, l ≠ []) → List.Forall₂ T.Fresh ss' ls) := by
  induction h with
  | nil => exact ⟨[], rfl, fun _ => .nil⟩
  | @cons s l ss ls means _ ih =>
    obtain ⟨s', asked, fresh⟩ := means
    obtain ⟨ss', rest, others⟩ := ih
    by_cases none : l = []
    · refine ⟨s' :: ss, ?_, fun some_ => absurd none (some_ l List.mem_cons_self)⟩
      simp [allMatch, asked, none]
    · refine ⟨s' :: ss', ?_, fun some_ => .cons (fresh none) (others ?_)⟩
      · simp [allMatch, asked, none, rest]
      · exact fun l' hl => some_ l' (List.mem_cons_of_mem l hl)

/-! ## A walk that is given by its steps -/

/-- What is so of every step is so of the walk. -/
theorem exists_walks (inv : σ → Nat → Int → Prop)
    (steps : ∀ s n a, inv s n a → T.Steps s ∧ n ≤ T.left s)
    (step : ∀ s n a, inv s n a →
      (∃ s', T.nextStart s = some (NO_MORE, s') ∧ T.Ended s') ∨
        ∃ m s' k, k < n ∧ T.nextStart s = some (m.start, s') ∧ T.Shows s' m ∧ a ≤ m.start ∧
          m.Fit ∧ inv s' k m.start)
    {s : σ} {n : Nat} {a : Int} (h : inv s n a) :
    ∃ l, T.Walks s l ∧ Orderly l ∧ (∀ m ∈ l, a ≤ m.start) ∧ l.length ≤ n := by
  induction n using Nat.strongRecOn generalizing s a with
  | ind n ih =>
    obtain ⟨own, left⟩ := steps s n a h
    cases step s n a h with
    | inl ends =>
      obtain ⟨s', next, ended⟩ := ends
      exact ⟨[], .done s' own next ended, .nil, nofun, Nat.zero_le n⟩
    | inr goes =>
      obtain ⟨m, s', k, less, next, shows_, le, fit, again⟩ := goes
      obtain ⟨l, walks, orderly, above, short⟩ := ih k less again
      refine ⟨m :: l, .more s' own (by omega) next shows_ walks, orderly.cons fit above, ?_, ?_⟩
      · intro x hx
        cases List.mem_cons.mp hx with
        | inl here => exact here ▸ le
        | inr later => exact le.trans (above x later)
      · rw [List.length_cons]
        omega

/-! ## Skipping -/

variable (T) in
/-- They stand at a match, with others to come. -/
structure On (s : σ) (m : Match) (l : List Match) : Prop where
  shows_ : T.Shows s m
  walks : T.Walks s l
  orderly : Orderly (m :: l)

variable (T) in
/-- They may be asked for more. -/
inductive Open (s : σ) : Prop where
  | fresh (l : List Match) (fresh : T.Fresh s l) (orderly : Orderly l)
  | on (m : Match) (l : List Match) (on : T.On s m l)

/-- Skipping ahead passes over matches and loses none behind. -/
theorem skip_walks (h : T.Walks s l) (orderly : Orderly l) (most : p ≤ NO_MORE)
    (behind : T.start s < p) {rounds : Nat} (enough : l.length < rounds) :
    ∃ s', skip T.nextStart T.start p rounds s = some (NO_MORE, s') ∨
      ∃ m l', skip T.nextStart T.start p rounds s = some (m.start, s') ∧ p ≤ m.start ∧
        T.On s' m l' := by
  induction h generalizing rounds with
  | done s' steps next ended =>
    obtain ⟨rounds, rfl⟩ : ∃ k, rounds = k + 1 := ⟨rounds - 1, by omega⟩
    refine ⟨s', .inl ?_⟩
    have past : ¬T.start s' < p := by rw [ended.start]; omega
    rw [skip, if_pos behind, next]
    cases rounds <;> simp [skip, ended.start, show ¬NO_MORE < p by omega]
  | more s' steps left next shows_ later ih =>
    rename_i s m l
    obtain ⟨rounds, rfl⟩ : ∃ k, rounds = k + 1 := ⟨rounds - 1, by omega⟩
    have moved : skip T.nextStart T.start p (rounds + 1) s =
        skip T.nextStart T.start p rounds s' := by
      rw [skip, if_pos behind, next]
      rfl
    rw [moved]
    by_cases still : T.start s' < p
    · exact ih orderly.tail still (Nat.lt_of_succ_lt_succ enough)
    · have there : p ≤ m.start := by
        rw [← shows_.start]
        omega
      refine ⟨s', .inr ⟨m, l, ?_, there, shows_, later, orderly⟩⟩
      cases rounds <;> simp [skip, shows_.start, show ¬m.start < p by omega]

/-- **Where a walk stands that skipped to a position**: past its last match, or on a match from
there on. -/
theorem Open.skipTo (h : T.Open s) (low : 0 ≤ p) (most : p ≤ NO_MORE) :
    ∃ s', T.skipTo s p = some (NO_MORE, s') ∨
      ∃ m l, T.skipTo s p = some (m.start, s') ∧ p ≤ m.start ∧ T.On s' m l := by
  cases h with
  | fresh l fresh orderly =>
    rw [fresh.walks.steps]
    apply skip_walks fresh.walks orderly most
    · rw [fresh.start]
      omega
    · exact Nat.lt_succ_of_le fresh.walks.left
  | on m l on =>
    rw [on.walks.steps]
    by_cases behind : T.start s < p
    · exact skip_walks on.walks on.orderly.tail most behind (Nat.lt_succ_of_le on.walks.left)
    · have there : p ≤ m.start := by
        rw [← on.shows_.start]
        omega
      refine ⟨s, .inr ⟨m, l, ?_, there, on⟩⟩
      rw [skip, if_neg behind, on.shows_.start]

end Spans

/-! ## Boxes -/

namespace Boxed

theorem length_all (ds : List Dyn) : (all ds).length = ds.length := List.length_ofFn

theorem get_all (ds : List Dyn) (i : Nat) (inside : i < (all ds).length) :
    (all ds).get ⟨i, inside⟩ =
      ⟨⟨i, length_all ds ▸ inside⟩, (ds.get ⟨i, length_all ds ▸ inside⟩).state⟩ :=
  List.getElem_ofFn inside

variable {ds : List Dyn} {i : Fin ds.length} {s : (ds.get i).σ} {l : List Match}

theorem skip_put (p : Int) (rounds : Nat) (s : (ds.get i).σ) :
    Spans.skip (spans ds).nextStart (spans ds).start p rounds ⟨i, s⟩ =
      put ds i (Spans.skip (ds.get i).ops.nextStart (ds.get i).ops.start p rounds s) := by
  induction rounds generalizing s with
  | zero =>
    show (if (ds.get i).ops.start s < p then none else _) = _
    rw [Spans.skip]
    split
    · rfl
    · rfl
  | succ rounds ih =>
    show (if (ds.get i).ops.start s < p then
      (put ds i ((ds.get i).ops.nextStart s)).bind fun x => Spans.skip _ _ p rounds x.2 else _) =
      put ds i (if (ds.get i).ops.start s < p then
        ((ds.get i).ops.nextStart s).bind fun x => Spans.skip _ _ p rounds x.2 else _)
    split
    · cases next : (ds.get i).ops.nextStart s with
      | none => rfl
      | some r => exact ih r.2
    · rfl

theorem steps (h : (ds.get i).ops.Steps s) : (spans ds).Steps ⟨i, s⟩ := by
  intro p
  rw [skip_put]
  exact congrArg (put ds i) (h p)

/-- A box walks what is in it. -/
theorem walks (h : (ds.get i).ops.Walks s l) : (spans ds).Walks ⟨i, s⟩ l := by
  induction h with
  | done s' own next ended =>
    refine .done ⟨i, s'⟩ (steps own) ?_ ⟨ended.start, ended.end⟩
    exact congrArg (put ds i) next
  | more s' own left next shows_ later ih =>
    rename_i m l
    have shown : (spans ds).Shows ⟨i, s'⟩ m := ⟨shows_.start, shows_.end, shows_.width⟩
    refine .more ⟨i, s'⟩ (steps own) left ?_ shown ih
    exact congrArg (put ds i) next

/-- **A boxed walk comes by what it does without its box.** -/
theorem means (h : (ds.get i).ops.Means s l) : (spans ds).Means ⟨i, s⟩ l := by
  obtain ⟨s', asked, fresh⟩ := h
  refine ⟨⟨i, s'⟩, congrArg (put ds i) asked, fun some_ => ?_⟩
  exact ⟨(fresh some_).start, (fresh some_).end, walks (fresh some_).walks⟩

end Boxed

/-! ## One word -/

namespace TermSpans

theorem walks (l : Places) (k : Nat) (current : Int) :
    spans.Walks ⟨l.items, k, current⟩ ((l.items.drop k).map fun p => ⟨p, p + 1, 0⟩) := by
  induction rest : l.items.length - k generalizing k current with
  | zero =>
    have past : l.items.length ≤ k := by omega
    rw [List.drop_eq_nil_of_le past]
    refine .done ⟨l.items, k, NO_MORE⟩ (fun p => rfl) ?_ ⟨rfl, rfl⟩
    show nextStart _ = _
    simp [nextStart, past]
  | succ n ih =>
    have inside : k < l.items.length := by omega
    have place := l.inside _ (List.getElem_mem inside)
    rw [List.drop_eq_getElem_cons inside]
    refine .more ⟨l.items, k + 1, l.items[k]⟩ (fun p => rfl) ?_ ?_ ⟨rfl, ?_, rfl⟩
      (ih (k + 1) _ (by omega))
    · show _ < l.items.length - k
      simp
      omega
    · show nextStart _ = _
      simp [nextStart, inside]
    · show (if l.items[k] = -1 then -1 else if l.items[k] = NO_MORE then NO_MORE else _) = _
      rw [if_neg (by omega), if_neg (by omega)]

/-- The matches of a term. -/
def matchesOf (l : Places) : List Match := l.items.map fun p => ⟨p, p + 1, 0⟩

theorem orderly (l : Places) : Orderly (matchesOf l) := by
  constructor
  · intro m hm
    obtain ⟨p, hp, rfl⟩ := List.mem_map.mp hm
    have place := l.inside p hp
    exact ⟨place.1, Int.lt_succ p, place.2⟩
  · exact List.pairwise_map.mpr (l.increasing.imp fun lt => le_of_lt lt)

theorem means (l : Places) : spans.Means ⟨l.items, 0, -1⟩ (matchesOf l) := by
  refine ⟨⟨l.items, 0, -1⟩, ?_, fun _ => ⟨rfl, rfl, walks l 0 (-1)⟩⟩
  show some (!l.items.isEmpty, _) = _
  rw [matchesOf, List.isEmpty_map]

end TermSpans

/-! ## Near, in order -/

namespace NearOrdered

variable {σ : Type} {T : Spans σ} {o : NearOrdered σ} {rest : List Match} {later : List σ}

/-- The parts are put one behind the other, or one has ended. -/
theorem stretch_spec (opened : ∀ s ∈ later, T.Open s) (previousEnd width : Int)
    (low : 0 ≤ previousEnd) (high : previousEnd ≤ NO_MORE) :
    ∃ later' out e w, stretch T previousEnd width later = some (later', out, e, w) ∧
      (out = false → (∀ s ∈ later', T.Open s) ∧ previousEnd ≤ e ∧ e ≤ NO_MORE) := by
  induction later generalizing previousEnd width with
  | nil => exact ⟨[], false, previousEnd, width, rfl, fun _ => ⟨nofun, le_rfl, high⟩⟩
  | cons s later ih =>
    obtain ⟨s', out | on⟩ := (opened s List.mem_cons_self).skipTo low high
    · refine ⟨s' :: later, true, previousEnd, width, ?_, nofun⟩
      simp [stretch, out]
    · obtain ⟨m, l, there, le, on⟩ := on
      have fit := on.orderly.head
      have lt := fit.lt
      obtain ⟨later', out, e, w, stretched, good⟩ :=
        ih (fun t ht => opened t (List.mem_cons_of_mem s ht)) (T.end s')
          (width + (T.start s' - previousEnd)) (by rw [on.shows_.end]; omega)
          (by rw [on.shows_.end]; exact fit.end)
      refine ⟨s' :: later', out, e, w, ?_, ?_⟩
      · simp [stretch, there, fit.ne, stretched]
      · intro still
        obtain ⟨opened', le', high'⟩ := good still
        rw [on.shows_.end] at le'
        refine ⟨?_, by omega, high'⟩
        intro t ht
        cases List.mem_cons.mp ht with
        | inl here => exact here ▸ .on m l on
        | inr there => exact opened' t there

variable (T) in
/-- Ordered spans before their next match. -/
structure Ready (o : NearOrdered σ) (rest : List Match) : Prop where
  subs : ∃ first later, o.subs = first :: later ∧ T.Walks first rest ∧ ∀ s ∈ later, T.Open s
  orderly : Orderly rest

variable (T) in
/-- They found it. -/
structure Found (o o' : NearOrdered σ) (rest rest' : List Match) : Prop where
  ready : Ready T o' rest'
  atFirst : o'.atFirst = o.atFirst
  lt : o'.start < o'.end
  «end» : o'.end ≤ NO_MORE
  first : ∃ m ∈ rest, o'.start = m.start
  le : ∀ x ∈ rest', o'.start ≤ x.start
  short : rest'.length < rest.length
  within : ∀ x ∈ rest', x ∈ rest

theorem seek_spec (ready : Ready T o rest) (still : o.exhausted = false) {rounds : Nat}
    (enough : rest.length < rounds) :
    ∃ o', (seek T rounds o = some (false, o') ∧ o'.atFirst = o.atFirst) ∨
      (seek T rounds o = some (true, o') ∧ ∃ rest', Found T o o' rest rest') := by
  induction rounds generalizing o rest with
  | zero => omega
  | succ rounds ih =>
    obtain ⟨⟨first, later, subs, walks, opened⟩, orderly⟩ := ready
    cases walks with
    | done first' _ next =>
      refine ⟨{ o with subs := first' :: later }, .inl ⟨?_, rfl⟩⟩
      simp [seek, subs, next]
    | @more _ first' m rest _ _ next shows_ walks =>
      have fit := orderly.head
      have low := fit.start
      have lt := fit.lt
      obtain ⟨later', out, e, w, stretched, good⟩ := stretch_spec opened
        (T.end first') 0 (by rw [shows_.end]; omega)
        (by rw [shows_.end]; exact fit.end)
      cases out with
      | true =>
        -- a later clause ran out: the first is moved once more, and the loop ends
        obtain ⟨x, first'', moved⟩ := walks.next
        obtain ⟨rounds, rfl⟩ : ∃ k, rounds = k + 1 := ⟨rounds - 1, by
          rw [List.length_cons] at enough
          omega⟩
        refine ⟨{ o with
          subs := first'' :: later', start := m.start, width := w, exhausted := true },
          .inl ⟨?_, rfl⟩⟩
        simp [seek, subs, next, stretchToOrder, stretched, still, fit.ne, moved, shows_.start]
      | false =>
        obtain ⟨opened', le, high⟩ := good rfl
        rw [shows_.end] at le
        by_cases near : w ≤ o.slop
        · refine ⟨{ o with subs := first' :: later', start := m.start, «end» := e, width := w },
            .inr ⟨?_, rest, ⟨⟨first', later', rfl, walks, opened'⟩, orderly.tail⟩, rfl, ?_, high,
              ⟨m, List.mem_cons_self, rfl⟩, orderly.le, Nat.lt_succ_self _,
              fun x => List.mem_cons_of_mem m⟩⟩
          · simp [seek, subs, next, stretchToOrder, stretched, still, fit.ne, near, shows_.start]
          · show m.start < e
            omega
        · have again := ih (o := { o with
              subs := first' :: later', start := m.start, «end» := e, width := w })
            ⟨⟨first', later', rfl, walks, opened'⟩, orderly.tail⟩ still
            (Nat.lt_of_succ_lt_succ enough)
          have moved : seek T (rounds + 1) o = seek T rounds { o with
              subs := first' :: later', start := m.start, «end» := e, width := w } := by
            simp [seek, subs, next, stretchToOrder, stretched, still, fit.ne, near, shows_.start]
          rw [moved]
          obtain ⟨o', ends | goes⟩ := again
          · exact ⟨o', .inl ends⟩
          · obtain ⟨found, rest', found'⟩ := goes
            refine ⟨o', .inr ⟨found, rest', found'.ready, found'.atFirst, found'.lt, found'.end,
              ?_, found'.le, ?_, fun x hx => List.mem_cons_of_mem m (found'.within x hx)⟩⟩
            · obtain ⟨y, hy, same⟩ := found'.first
              exact ⟨y, List.mem_cons_of_mem m hy, same⟩
            · have short := found'.short
              rw [List.length_cons]
              omega

/-- The next match, or none. -/
theorem nextMatch_spec (ready : Ready T o rest) (moving : o.atFirst = false) :
    ∃ o', (nextMatch T o = some (false, o') ∧ o'.atFirst = false) ∨
      (nextMatch T o = some (true, o') ∧
        ∃ rest', Found T { o with exhausted := false } o' rest rest') := by
  have again : Ready T { o with exhausted := false } rest := ⟨ready.subs, ready.orderly⟩
  obtain ⟨first, later, subs, walks, -⟩ := ready.subs
  have enough : rest.length < left T o + 1 := by
    have le := walks.left
    simp only [left, subs, Spans.leftAll, List.take_succ_cons, List.take_zero, List.map_cons,
      List.map_nil, List.sum_cons, List.sum_nil]
    omega
  obtain ⟨o', ends | goes⟩ := seek_spec again rfl enough
  · exact ⟨o', .inl ⟨ends.1, ends.2.trans moving⟩⟩
  · exact ⟨o', .inr goes⟩

/-- The match they stand at. -/
def here (o : NearOrdered σ) : Match := ⟨o.start, o.end, o.width⟩

theorem Found.shows_ {o' : NearOrdered σ} {rest' : List Match} (found : Found T o o' rest rest')
    (moving : o.atFirst = false) : (spans T).Shows o' o'.here := by
  have still : o'.atFirst = false := found.atFirst.trans moving
  refine ⟨?_, ?_, rfl⟩
  · show (if o'.atFirst then -1 else o'.start) = o'.start
    simp [still]
  · show (if o'.atFirst then -1 else o'.end) = o'.end
    simp [still]

theorem Found.fit {o' : NearOrdered σ} {rest' : List Match} (found : Found T o o' rest rest')
    (orderly : Orderly rest) : o'.here.Fit := by
  obtain ⟨m, hm, same⟩ := found.first
  refine ⟨?_, found.lt, found.end⟩
  show 0 ≤ o'.start
  rw [same]
  exact (orderly.fit m hm).start

/-- Ordered spans walk their matches. -/
theorem walks_exist (ready : Ready T o rest) (moving : o.atFirst = false) {a : Int}
    (above : ∀ m ∈ rest, a ≤ m.start) :
    ∃ l, (spans T).Walks o l ∧ Orderly l ∧ (∀ m ∈ l, a ≤ m.start) ∧ l.length ≤ rest.length := by
  refine Spans.exists_walks (fun o n a => o.atFirst = false ∧
    ∃ rest, Ready T o rest ∧ n = rest.length ∧ ∀ m ∈ rest, a ≤ m.start) ?_ ?_
    ⟨moving, rest, ready, rfl, above⟩
  · rintro o n a ⟨moving, rest, ready, rfl, above⟩
    obtain ⟨first, later, subs, walks, -⟩ := ready.subs
    refine ⟨fun p => rfl, ?_⟩
    have le := walks.left
    show rest.length ≤ left T o
    simp only [left, subs, Spans.leftAll, List.take_succ_cons, List.take_zero, List.map_cons,
      List.map_nil, List.sum_cons, List.sum_nil]
    omega
  · rintro o n a ⟨moving, rest, ready, rfl, above⟩
    obtain ⟨o', ends | goes⟩ := nextMatch_spec ready moving
    · left
      refine ⟨{ o' with start := NO_MORE, «end» := NO_MORE }, ?_, ?_, ?_⟩
      · show nextStart T o = _
        simp [nextStart, moving, ends.1]
      · show (if o'.atFirst then -1 else NO_MORE) = NO_MORE
        simp [ends.2]
      · show (if o'.atFirst then -1 else NO_MORE) = NO_MORE
        simp [ends.2]
    · right
      obtain ⟨next, rest', found⟩ := goes
      obtain ⟨m, hm, same⟩ := found.first
      refine ⟨o'.here, o', rest'.length, found.short, ?_, found.shows_ moving, ?_,
        found.fit ready.orderly, found.atFirst.trans moving, rest', found.ready, rfl, found.le⟩
      · show nextStart T o = _
        simp [nextStart, moving, next, here]
      · show a ≤ o'.start
        rw [same]
        exact above m hm

/-- **An ordered near** walks its matches in order, and has one only where each of its clauses
has. -/
theorem means {ls : List (List Match)} (clauses : List.Forall₂ T.Means o.subs ls)
    (orderly : ∀ l ∈ ls, Orderly l) (some_ : o.subs ≠ []) :
    ∃ l, (spans T).Means o l ∧ Orderly l ∧ (l ≠ [] → ∀ x ∈ ls, x ≠ []) := by
  obtain ⟨subs, asked, fresh⟩ := Spans.allMatch_means clauses
  by_cases all : ∀ l ∈ ls, l ≠ []
  case neg =>
    have none : (ls.all fun l => !l.isEmpty) = false := by
      simpa using all
    refine ⟨[], ⟨{ o with subs }, ?_, fun some_ => absurd rfl some_⟩, .nil, fun some_ =>
      absurd rfl some_⟩
    show «matches» T o = _
    simp [«matches», asked, none]
  case pos =>
    have yes : (ls.all fun l => !l.isEmpty) = true := by
      simpa using all
    have fresh := fresh all
    cases hls : ls with
    | nil =>
      rw [hls] at clauses
      exact absurd (List.forall₂_nil_right_iff.mp clauses) some_
    | cons rest others =>
      rw [hls] at fresh
      obtain ⟨first, later, isFresh, laterFresh, rfl⟩ := List.forall₂_cons_right_iff.mp fresh
      have opened : ∀ s ∈ later, T.Open s := by
        intro s hs
        obtain ⟨l, hl, fresh⟩ := Velosearch.Lib.beside_left laterFresh hs
        exact .fresh l fresh (orderly l (by rw [hls]; exact List.mem_cons_of_mem _ hl))
      have ready : Ready T { o with subs := first :: later, atFirst := false } rest :=
        ⟨⟨first, later, rfl, isFresh.walks, opened⟩,
          orderly rest (by rw [hls]; exact List.mem_cons_self)⟩
      obtain ⟨o', ends | goes⟩ := nextMatch_spec ready rfl
      · refine ⟨[], ⟨o', ?_, fun some_ => absurd rfl some_⟩, .nil, fun some_ => absurd rfl some_⟩
        show «matches» T o = _
        simp [«matches», asked, yes, ends.1]
      · obtain ⟨next, rest', found⟩ := goes
        have still : o'.atFirst = false := found.atFirst
        obtain ⟨l, walks, orderly', above, short⟩ := walks_exist found.ready still found.le
        refine ⟨o'.here :: l, ⟨{ o' with atFirst := true }, ?_, fun _ => ⟨rfl, rfl, ?_⟩⟩,
          orderly'.cons (found.fit ready.orderly) above, fun _ => hls ▸ all⟩
        · show «matches» T o = _
          simp [«matches», asked, yes, next]
        · refine .more o' (fun p => rfl) ?_ ?_ (found.shows_ rfl) walks
          · show l.length < left T { o' with atFirst := true }
            have le := walks.left
            change l.length ≤ left T o' at le
            simp only [left, still, Bool.toNat_false, Bool.toNat_true] at le ⊢
            omega
          · show some (o'.start, { o' with atFirst := false }) = some (o'.start, o')
            rw [← still]

end NearOrdered

end Velosearch.Query

import Mathlib.Data.Int.Notation
import Mathlib.Data.Nat.Notation

/-!
# Index state management

`tick` and `advance` of `src/ism/engine.rs`, `attach_at` and `change_to` of `src/ism/mod.rs`, and what
the endpoints of `src/api/ism.rs` do to one index under a policy. What an index is doing is kept in a
record under the name of the index; the index itself may be deleted, by its policy or by a caller,
and made again.
-/

set_option autoImplicit false

namespace Velosearch.Managed

/-! ## Policies -/

/-- A condition of a transition, with the value it was read as; a schedule, or a name the engine does
not know, is never met. -/
inductive Condition where
  | minIndexAge (span : Option ℤ)
  | minStateAge (span : Option ℤ)
  | minDocCount (count : Option ℤ)
  | minSize (size : Option ℤ)
  | minRolloverAge (span : Option ℤ)
  | never

/-- A transition of a state. -/
structure Transition where
  stateName : Option String
  conditions : List Condition

/-- An action of a state. -/
structure Action where
  kind : String

/-- A state of a policy. -/
structure PolicyState where
  name : String
  actions : List Action
  transitions : List Transition

/-- A policy. -/
structure Policy where
  defaultState : String
  states : List PolicyState

/-- The state of a name. -/
def namedState (p : Policy) (name : String) : Option PolicyState :=
  p.states.find? fun s => s.name == name

/-- What is known of an index when a policy looks at it. -/
structure Facts where
  creationDate : Option ℤ
  documents : Option ℤ
  size : ℤ
  rolloverTime : Option ℤ

def i64Max : ℤ := 9223372036854775807

/-- The condition of a transition. -/
def Condition.holds (f : Facts) (now entered : ℤ) : Condition → Bool
  | .minIndexAge span => span.getD i64Max ≤ (f.creationDate.map (now - ·)).getD 0
  | .minStateAge span => span.getD i64Max ≤ now - entered
  | .minDocCount count => count.getD i64Max ≤ f.documents.getD 0
  | .minSize size => size.getD i64Max ≤ f.size
  | .minRolloverAge span => span.getD i64Max ≤ now - f.rolloverTime.getD i64Max
  | .never => false

/-- All of its conditions. -/
def met (f : Facts) (now entered : ℤ) (conditions : List Condition) : Bool :=
  conditions.all (Condition.holds f now entered)

/-! ## The record of an index -/

/-- `managed_index`: the policy as it was when it was attached, the state and when it was entered, the
position of the last action and whether it failed. -/
structure Record where
  policy : Policy
  state : String
  startTime : ℤ
  action : Option (ℤ × Bool)
  retryCount : ℤ
  enabled : Bool

/-- How often an action is tried again. -/
def retries : ℤ := 3

/-- The record of an index a policy is put on. -/
def attachAt (p : Policy) (keepState : Option String) (now : ℤ) : Record where
  policy := p
  state := (keepState.filter fun wanted => p.states.any fun s => s.name == wanted).getD p.defaultState
  startTime := now
  action := none
  retryCount := 0
  enabled := true

/-! ## One name -/

/-- What happened to the indices that had the name: a state was entered, because a policy was
attached or not; the action at a position was carried out; a state was left. -/
inductive Entry where
  | entered (index : ℕ) (policy : Policy) (state : String) (time : ℤ) (attached : Bool)
  | succeeded (index : ℕ) (position : ℕ)
  | left (index : ℕ) (dest : String) (now : ℤ) (facts : Facts)

/-- The index that has the name, if one has, its record, how many have been made under the name,
and what happened to them, the latest first. -/
structure World where
  present : Option ℕ := none
  record : Option Record := none
  made : ℕ := 0
  log : List Entry := []

/-- How an action ended. -/
inductive Outcome where
  | ok
  | notYet
  | failed

namespace World

/-- The state a transition leads to: the first whose conditions are met. -/
def target (f : Facts) (now entered : ℤ) (ts : List Transition) : Option String :=
  ts.findSome? fun t => t.stateName.filter fun _ => met f now entered t.conditions

/-- `advance`, and what the action does to the index. -/
def advance (w : World) (now : ℤ) (f : Facts) (outcome : Outcome) : World :=
  match w.record, w.present with
  | some r, some index =>
    match r.enabled, namedState r.policy r.state with
    | true, some state =>
      let done := (r.action.map Prod.fst).getD (-1)
      let failed := (r.action.map Prod.snd).getD false
      if failed && retries ≤ r.retryCount then w
      else
        let next := if failed then done else done + 1
        match state.actions[(max next 0).toNat]? with
        | some action =>
          match outcome with
          | .ok =>
            { w with
              record := some { r with action := some (next, false), retryCount := 0 }
              present := if action.kind = "delete" then none else some index
              log := .succeeded index (max next 0).toNat :: w.log }
          | .notYet =>
            { w with record := some { r with action := some (next - 1, false), retryCount := 0 } }
          | .failed =>
            { w with
              record := some { r with action := some (next, true), retryCount := r.retryCount + 1 } }
        | none =>
          match target f now r.startTime state.transitions with
          | some dest =>
            { w with
              record := some { r with state := dest, startTime := now, action := none, retryCount := 0 }
              log := .entered index r.policy dest now false :: .left index dest now f :: w.log }
          | none => w
    | _, _ => w
  | _, _ => w

/-- A policy is put on the index. -/
def attach (w : World) (now : ℤ) (p : Policy) : World :=
  match w.present with
  | some index =>
    let r := attachAt p none now
    { w with record := some r, log := .entered index p r.state now true :: w.log }
  | none => w

/-- A policy whose template fits an index is put on it. -/
def adopt (w : World) (now : ℤ) (template : Option Policy) : World :=
  match w.record, template with
  | none, some p => w.attach now p
  | _, _ => w

/-- The request for that. -/
def addPolicy (w : World) (now : ℤ) (p : Policy) : World :=
  match w.record with
  | none => w.attach now p
  | some _ => w

/-- `change_policy`: the state is kept, or the one asked for is written over it. -/
def changePolicy (w : World) (now : ℤ) (p : Policy) (state : Option String) : World :=
  match w.present, w.record with
  | some index, some r =>
    let changed := attachAt p (some r.state) now
    let log := .entered index p changed.state now false :: w.log
    match state with
    | none => { w with record := some changed, log := log }
    | some s =>
      { w with
        record := some { changed with state := s, startTime := now }
        log := .entered index p s now false :: log }
  | _, _ => w

/-- The request to take it off. -/
def removePolicy (w : World) : World :=
  match w.present with
  | some _ => { w with record := none }
  | none => w

/-- The request to try again. -/
def retry (w : World) (now : ℤ) (state : Option String) : World :=
  match w.present, w.record with
  | some index, some r =>
    if (r.action.map Prod.snd).getD false = false ∧ state = none then w
    else
      let again := { r with action := r.action.map fun x => (x.1 - 1, false), retryCount := 0 }
      match state with
      | none => { w with record := some again }
      | some s =>
        { w with
          record := some { again with state := s, startTime := now, action := none }
          log := .entered index r.policy s now false :: w.log }
  | _, _ => w

/-- The index is deleted. -/
def delete (w : World) : World := { w with present := none }

/-- It is made. -/
def create (w : World) : World :=
  match w.present with
  | none => { w with present := some w.made, made := w.made + 1 }
  | some _ => w

end World

/-- What happens to an index. -/
inductive Event where
  | tick (now : ℤ) (template : Option Policy) (facts : Facts) (outcome : Outcome)
  | addPolicy (now : ℤ) (p : Policy)
  | changePolicy (now : ℤ) (p : Policy) (state : Option String)
  | removePolicy
  | retry (now : ℤ) (state : Option String)
  | delete
  | create

/-- One event. -/
def World.apply (w : World) : Event → World
  | .tick now template f outcome => (w.adopt now template).advance now f outcome
  | .addPolicy now p => w.addPolicy now p
  | .changePolicy now p state => w.changePolicy now p state
  | .removePolicy => w.removePolicy
  | .retry now state => w.retry now state
  | .delete => w.delete
  | .create => w.create

/-- Several. -/
def World.run (w : World) (es : List Event) : World := es.foldl World.apply w

/-! ## What a policy is to do -/

/-- A stay in a state: which it is, and since when. -/
structure Stay where
  index : ℕ
  policy : Policy
  state : String
  time : ℤ

/-- The stay the log is in. -/
def stayOf : List Entry → Option Stay
  | [] => none
  | .entered index p s t _ :: _ => some ⟨index, p, s, t⟩
  | .succeeded _ _ :: l | .left _ _ _ _ :: l => stayOf l

/-- The actions that were done in it. -/
def doneIn : List Entry → List ℕ
  | [] => []
  | .entered _ _ _ _ _ :: _ => []
  | .succeeded _ k :: l => k :: doneIn l
  | .left _ _ _ _ :: l => doneIn l

/-- Every action was of the state the index was in, and the one after those that succeeded before; a
state was left after all its actions and with the conditions of the transition met by the index that
was there, as long as it had been in the state itself; and an index was in the default state of its
policy before it was in another. -/
def Proper : List Entry → Prop
  | [] => True
  | .entered index p s _ attached :: l =>
    Proper l ∧ (if attached then s = p.defaultState else ∃ y, stayOf l = some y ∧ y.index = index)
  | .succeeded index k :: l =>
    Proper l ∧ ∃ y st, stayOf l = some y ∧ y.index = index ∧
      namedState y.policy y.state = some st ∧ k = (doneIn l).length ∧ k < st.actions.length
  | .left index dest now f :: l =>
    Proper l ∧ ∃ y st t, stayOf l = some y ∧ y.index = index ∧
      namedState y.policy y.state = some st ∧ (doneIn l).length = st.actions.length ∧
        t ∈ st.transitions ∧ t.stateName = some dest ∧ met f now y.time t.conditions = true

/-- And the record of the index that is there is of a stay of its own. -/
def Good (w : World) : Prop :=
  Proper w.log ∧ ∀ index r, w.present = some index → w.record = some r →
    stayOf w.log = some ⟨index, r.policy, r.state, r.startTime⟩

/-- The condition on a step: no index is made under a name that still has a record. -/
def Fit (w : World) (e : Event) : Prop :=
  match e with
  | .create => w.present = none → w.record = none
  | _ => True

/-- Every step of a run meets it. -/
def AllFit : World → List Event → Prop
  | _, [] => True
  | w, e :: es => Fit w e ∧ AllFit (w.apply e) es

/-! ## What a tick can do -/

/-- The action that is next. -/
def nextAction (r : Record) : ℤ :=
  if (r.action.map Prod.snd).getD false then (r.action.map Prod.fst).getD (-1)
  else (r.action.map Prod.fst).getD (-1) + 1

/-- What a tick may do. -/
inductive Advance (w : World) (now : ℤ) (f : Facts) : World → Prop where
  | still : Advance w now f w
  | ok {r : Record} {index : ℕ} {state : PolicyState} {action : Action} {present : Option ℕ}
      (hr : w.record = some r) (hi : w.present = some index)
      (hs : namedState r.policy r.state = some state)
      (ha : state.actions[(max (nextAction r) 0).toNat]? = some action)
      (hp : present = none ∨ present = some index) :
      Advance w now f
        { w with
          record := some { r with action := some (nextAction r, false), retryCount := 0 }
          present := present
          log := .succeeded index (max (nextAction r) 0).toNat :: w.log }
  | notYet {r : Record} {index : ℕ} (hr : w.record = some r) (hi : w.present = some index) :
      Advance w now f
        { w with
          record := some { r with action := some (nextAction r - 1, false), retryCount := 0 } }
  | failed {r : Record} {index : ℕ} (hr : w.record = some r) (hi : w.present = some index) :
      Advance w now f
        { w with
          record := some
            { r with action := some (nextAction r, true), retryCount := r.retryCount + 1 } }
  | moved {r : Record} {index : ℕ} {state : PolicyState} {t : Transition} {dest : String}
      (hr : w.record = some r) (hi : w.present = some index)
      (hs : namedState r.policy r.state = some state)
      (ha : state.actions[(max (nextAction r) 0).toNat]? = none)
      (ht : t ∈ state.transitions) (hd : t.stateName = some dest)
      (hm : met f now r.startTime t.conditions = true) :
      Advance w now f
        { w with
          record := some { r with state := dest, startTime := now, action := none, retryCount := 0 }
          log := .entered index r.policy dest now false :: .left index dest now f :: w.log }

/-- A transition that is taken is one of the state's, and its conditions are met. -/
theorem target_some {f : Facts} {now entered : ℤ} {ts : List Transition} {dest : String}
    (h : World.target f now entered ts = some dest) :
    ∃ t ∈ ts, t.stateName = some dest ∧ met f now entered t.conditions = true := by
  obtain ⟨t, ht, hd⟩ := List.exists_of_findSome?_eq_some h
  obtain ⟨hname, hmet⟩ := Option.filter_eq_some_iff.mp hd
  exact ⟨t, ht, hname, hmet⟩

/-- A tick does one of the things it may. -/
theorem advance_cases (w : World) (now : ℤ) (f : Facts) (outcome : Outcome) :
    Advance w now f (w.advance now f outcome) := by
  unfold World.advance
  split
  · rename_i r index hr hi
    split
    · rename_i state henabled hs
      dsimp only
      split
      · exact .still
      · split
        · rename_i action ha
          cases outcome with
          | ok =>
            refine .ok hr hi hs ha ?_
            split
            · exact Or.inl rfl
            · exact Or.inr rfl
          | notYet => exact .notYet hr hi
          | failed => exact .failed hr hi
        · rename_i ha
          split
          · rename_i dest hdest
            obtain ⟨t, ht, hname, hmet⟩ := target_some hdest
            exact .moved hr hi hs ha ht hname hmet
          · exact .still
    · exact .still
  · exact .still

/-! ## The indices are numbered as they are made -/

/-- No index, and no stay of one, is past those that were made. -/
structure Bounded (w : World) : Prop where
  stay : ∀ y, stayOf w.log = some y → y.index < w.made
  present : ∀ index, w.present = some index → index < w.made

theorem Bounded.entered {w : World} (h : Bounded w) {index : ℕ} (hi : w.present = some index)
    (p : Policy) (s : String) (t : ℤ) (attached : Bool) (l : List Entry) (r : Option Record) :
    Bounded { w with record := r, log := .entered index p s t attached :: l } := by
  refine ⟨fun y hy => ?_, h.present⟩
  cases hy
  exact h.present index hi

theorem Bounded.attach {w : World} (h : Bounded w) (now : ℤ) (p : Policy) :
    Bounded (w.attach now p) := by
  unfold World.attach
  split
  · rename_i index hi
    exact h.entered hi _ _ _ _ _ _
  · exact h

theorem Bounded.adopt {w : World} (h : Bounded w) (now : ℤ) (template : Option Policy) :
    Bounded (w.adopt now template) := by
  unfold World.adopt
  split
  · exact h.attach _ _
  · exact h

/-- None of them makes an index. -/
theorem Bounded.advance {w w' : World} {now : ℤ} {f : Facts} (h : Bounded w)
    (ha : Advance w now f w') : Bounded w' := by
  cases ha with
  | still => exact h
  | ok hr hi hs ha hp =>
    refine ⟨h.stay, fun i hi' => ?_⟩
    cases hp with
    | inl hp =>
      rw [hp] at hi'
      cases hi'
    | inr hp =>
      rw [hp] at hi'
      cases hi'
      exact h.present _ hi
  | notYet => exact ⟨h.stay, h.present⟩
  | failed => exact ⟨h.stay, h.present⟩
  | moved hr hi => exact h.entered hi _ _ _ _ _ _

/-- No event goes past the indices that were made. -/
theorem Bounded.apply {w : World} (h : Bounded w) (e : Event) : Bounded (w.apply e) := by
  cases e with
  | tick now template f outcome => exact (h.adopt now template).advance (advance_cases _ _ _ _)
  | addPolicy now p =>
    show Bounded (w.addPolicy now p)
    unfold World.addPolicy
    split
    · exact h.attach _ _
    · exact h
  | changePolicy now p state =>
    show Bounded (w.changePolicy now p state)
    unfold World.changePolicy
    split
    · rename_i index r hi hr
      cases state with
      | none => exact h.entered hi _ _ _ _ _ _
      | some s => exact h.entered hi _ _ _ _ _ _
    · exact h
  | removePolicy =>
    show Bounded w.removePolicy
    unfold World.removePolicy
    split
    · exact ⟨h.stay, h.present⟩
    · exact h
  | retry now state =>
    show Bounded (w.retry now state)
    unfold World.retry
    split
    · rename_i index r hi hr
      dsimp only
      split
      · exact h
      · cases state with
        | none => exact ⟨h.stay, h.present⟩
        | some s => exact h.entered hi _ _ _ _ _ _
    · exact h
  | delete =>
    refine ⟨h.stay, fun i hi => ?_⟩
    cases hi
  | create =>
    show Bounded w.create
    unfold World.create
    split
    · refine ⟨fun y hy => Nat.lt_succ_of_lt (h.stay y hy), fun i hi => ?_⟩
      cases hi
      exact Nat.lt_succ_self _
    · exact h

/-! ## What every step keeps -/

/-- No more is done than there is to do. -/
theorem doneIn_length_le {l : List Entry} (h : Proper l) {y : Stay} (hy : stayOf l = some y)
    {st : PolicyState} (hst : namedState y.policy y.state = some st) :
    (doneIn l).length ≤ st.actions.length := by
  induction l with
  | nil => cases hy
  | cons e l ih =>
    cases e with
    | entered => exact Nat.zero_le _
    | succeeded index k =>
      obtain ⟨-, y', st', hy', -, hst', hk, hlt⟩ := h
      have hy : stayOf l = some y := hy
      rw [hy] at hy'
      cases hy'
      rw [hst] at hst'
      cases hst'
      show (doneIn l).length + 1 ≤ st.actions.length
      omega
    | left => exact ih h.1 hy

/-- The position in a record against the actions that succeeded in the stay: the last of them, or
the one after them that failed. -/
def Placed (action : Option (ℤ × Bool)) (done : List ℕ) : Prop :=
  match action with
  | none => done = []
  | some (k, false) => k + 1 = done.length
  | some (k, true) => k = done.length

theorem Placed.next {r : Record} {done : List ℕ} (h : Placed r.action done) :
    nextAction r = done.length := by
  unfold Placed at h
  unfold nextAction
  split at h
  · rename_i ha
    rw [ha, h]
    rfl
  · rename_i k ha
    rw [ha]
    exact h
  · rename_i k ha
    rw [ha]
    exact h

/-- The record of the index that is there is of a stay of its own, and says how far it has come. -/
structure Kept (w : World) : Prop where
  proper : Proper w.log
  own : ∀ index r, w.present = some index → w.record = some r →
    stayOf w.log = some ⟨index, r.policy, r.state, r.startTime⟩ ∧ Placed r.action (doneIn w.log)

theorem Kept.attach {w : World} (h : Kept w) (now : ℤ) (p : Policy) : Kept (w.attach now p) := by
  unfold World.attach
  split
  · rename_i index hi
    refine ⟨⟨h.proper, rfl⟩, fun i r hi' hr => ?_⟩
    have hi' : w.present = some i := hi'
    rw [hi] at hi'
    cases hi'
    cases hr
    exact ⟨rfl, rfl⟩
  · exact h

theorem Kept.adopt {w : World} (h : Kept w) (now : ℤ) (template : Option Policy) :
    Kept (w.adopt now template) := by
  unfold World.adopt
  split
  · exact h.attach _ _
  · exact h

theorem Kept.written {w : World} (h : Kept w) {r : Record} (hr : w.record = some r) {action : Option (ℤ × Bool)} {count : ℤ}
    (hp : Placed action (doneIn w.log)) :
    Kept { w with record := some { r with action := action, retryCount := count } } := by
  refine ⟨h.proper, fun i r' hi' hr' => ?_⟩
  cases hr'
  obtain ⟨hstay, -⟩ := h.own i r hi' hr
  exact ⟨hstay, hp⟩

/-- A tick keeps the invariant. -/
theorem Kept.advance {w w' : World} {now : ℤ} {f : Facts} (h : Kept w)
    (ha : Advance w now f w') : Kept w' := by
  cases ha with
  | still => exact h
  | ok hr hi hs ha hp =>
    rename_i r index state action present
    obtain ⟨hstay, hplaced⟩ := h.own index r hi hr
    have hnext := hplaced.next
    have hpos : (max (nextAction r) 0).toNat = (doneIn w.log).length := by
      rw [hnext]
      omega
    have hlt := (List.getElem?_eq_some_iff.mp ha).1
    refine ⟨⟨h.proper, _, state, hstay, rfl, hs, hpos, hlt⟩, fun i r' hi' hr' => ?_⟩
    cases hr'
    have hi' : present = some i := hi'
    cases hp with
    | inl hp =>
      rw [hp] at hi'
      cases hi'
    | inr hp =>
      rw [hp] at hi'
      cases hi'
      refine ⟨hstay, ?_⟩
      show nextAction r + 1 = ((max (nextAction r) 0).toNat :: doneIn w.log).length
      rw [hnext, List.length_cons]
      omega
  | notYet hr hi =>
    rename_i r index
    refine h.written hr ?_
    show nextAction r - 1 + 1 = (doneIn w.log).length
    rw [(h.own index r hi hr).2.next]
    omega
  | failed hr hi =>
    rename_i r index
    exact h.written hr (h.own index r hi hr).2.next
  | moved hr hi hs ha ht hd hm =>
    rename_i r index state t dest
    obtain ⟨hstay, hplaced⟩ := h.own index r hi hr
    have hnext := hplaced.next
    -- nothing is left to do at the position after the last success
    have hlen : (doneIn w.log).length = state.actions.length := by
      have hge := List.getElem?_eq_none_iff.mp ha
      rw [hnext] at hge
      have hle := doneIn_length_le h.proper hstay hs
      omega
    refine ⟨⟨⟨h.proper, _, state, t, hstay, rfl, hs, hlen, ht, hd, hm⟩, _, hstay, rfl⟩,
      fun i r' hi' hr' => ?_⟩
    have hi' : w.present = some i := hi'
    rw [hi] at hi'
    cases hi'
    cases hr'
    exact ⟨rfl, rfl⟩

theorem Kept.entered {w : World} (h : Kept w) {r : Record} {index : ℕ} (hr : w.record = some r)
    (hi : w.present = some index) (next : Record) (hnone : next.action = none) :
    Kept { w with
      record := some next
      log := .entered index next.policy next.state next.startTime false :: w.log } := by
  obtain ⟨hstay, -⟩ := h.own index r hi hr
  refine ⟨⟨h.proper, _, hstay, rfl⟩, fun i r'' hi' hr' => ?_⟩
  have hi' : w.present = some i := hi'
  rw [hi] at hi'
  cases hi'
  cases hr'
  exact ⟨rfl, by rw [hnone]; rfl⟩

/-- So does any event that fits. -/
theorem Kept.apply {w : World} (h : Kept w) {e : Event} (hfit : Fit w e) : Kept (w.apply e) := by
  cases e with
  | tick now template f outcome => exact (h.adopt now template).advance (advance_cases _ _ _ _)
  | addPolicy now p =>
    show Kept (w.addPolicy now p)
    unfold World.addPolicy
    split
    · exact h.attach _ _
    · exact h
  | changePolicy now p state =>
    show Kept (w.changePolicy now p state)
    unfold World.changePolicy
    split
    · rename_i index r hi hr
      have hchanged := h.entered hr hi (attachAt p (some r.state) now) rfl
      cases state with
      | none => exact hchanged
      | some s =>
        exact hchanged.entered (w := { w with record := _, log := _ }) rfl hi
          { attachAt p (some r.state) now with state := s, startTime := now } rfl
    · exact h
  | removePolicy =>
    show Kept w.removePolicy
    unfold World.removePolicy
    split
    · exact ⟨h.proper, fun i r _ hr => by cases hr⟩
    · exact h
  | retry now state =>
    show Kept (w.retry now state)
    unfold World.retry
    split
    · rename_i index r hi hr
      dsimp only
      split
      · exact h
      · rename_i hfailed
        cases state with
        | none =>
          -- the failed action is the one after those that succeeded
          obtain ⟨-, hplaced⟩ := h.own index r hi hr
          refine h.written hr ?_
          cases ha : r.action with
          | none => simp [ha] at hfailed
          | some x =>
            obtain ⟨k, failed⟩ := x
            cases failed with
            | false => simp [ha] at hfailed
            | true =>
              rw [ha] at hplaced
              have hk : k = (doneIn w.log).length := hplaced
              show k - 1 + 1 = (doneIn w.log).length
              omega
        | some s =>
          exact h.entered hr hi ⟨r.policy, s, now, none, 0, r.enabled⟩ rfl
    · exact h
  | delete => exact ⟨h.proper, fun i r hi _ => by cases hi⟩
  | create =>
    show Kept w.create
    unfold World.create
    split
    · rename_i hnone
      refine ⟨h.proper, fun i r _ hr => ?_⟩
      have hr : w.record = some r := hr
      rw [hfit hnone] at hr
      cases hr
    · exact h

theorem Kept.good {w : World} (h : Kept w) : Good w :=
  ⟨h.proper, fun index r hi hr => (h.own index r hi hr).1⟩

/-- An event that goes well fits. -/
theorem fit_of_good {w : World} (hb : Bounded w) {e : Event} (h : Good (w.apply e)) : Fit w e := by
  cases e with
  | create =>
    intro hnone
    cases hr : w.record with
    | none => rfl
    | some r =>
      have happly : w.apply .create = { w with present := some w.made, made := w.made + 1 } := by
        show w.create = _
        unfold World.create
        rw [hnone]
      rw [happly] at h
      have hstay := h.2 w.made r rfl hr
      have hlt := hb.stay _ hstay
      exact absurd hlt (Nat.lt_irrefl _)
  | _ => trivial

/-! ## Runs -/

/-- A run whose events fit goes well. -/
theorem good_of_allFit {w : World} (h : Kept w) {es : List Event} (hfit : AllFit w es) (k : ℕ) :
    Good (w.run (es.take k)) := by
  induction es generalizing w k with
  | nil =>
    rw [List.take_nil]
    exact h.good
  | cons e es ih =>
    cases k with
    | zero => exact h.good
    | succ k => exact ih (h.apply hfit.1) hfit.2 k

/-- And only such a one. -/
theorem allFit_of_good {w : World} (hb : Bounded w) {es : List Event}
    (h : ∀ k, Good (w.run (es.take k))) : AllFit w es := by
  induction es generalizing w with
  | nil => exact trivial
  | cons e es ih => exact ⟨fit_of_good hb (h 1), ih (hb.apply e) fun k => h (k + 1)⟩

theorem start_bounded : Bounded {} := by
  refine ⟨fun y hy => ?_, fun i hi => ?_⟩
  · cases hy
  · cases hi

theorem start_kept : Kept {} :=
  ⟨trivial, fun i r hi _ => by cases hi⟩

/-- Whatever happens to the indices of a name and to their policies, each of them is under its policy
as it is meant to be, in every state reached, just where none is made under the name while it has a
record. -/
theorem policies_act_iff (es : List Event) :
    (∀ k, Good (World.run {} (es.take k))) ↔ AllFit {} es := by
  constructor
  · intro h
    exact allFit_of_good start_bounded h
  · intro h k
    exact good_of_allFit start_kept h k

/-! ## A name used again -/

def retention : Policy where
  defaultState := "hot"
  states :=
    [⟨"hot", [], [⟨some "old", [.minStateAge (some 86400000)]⟩]⟩, ⟨"old", [⟨"delete"⟩], []⟩]

def facts : Facts := ⟨none, none, 0, none⟩

def madeAgain : List Event :=
  [.create, .addPolicy 0 retention, .delete, .create, .tick 90000000 none facts .ok,
    .tick 90000001 none facts .ok]

/-- The new index goes by the day the old one began, and is deleted a moment after it was made. -/
theorem new_index_deleted :
    ¬ (∀ k, Good (World.run {} (madeAgain.take k))) ∧ (World.run {} madeAgain).present = none := by
  refine ⟨fun h => ?_, rfl⟩
  have hfit := allFit_of_good start_bounded h
  have hrecord : (World.run {} (madeAgain.take 3)).record = none := hfit.2.2.2.1 rfl
  cases hrecord

end Velosearch.Managed

import Velosearch.Cluster.Allocation.Runs
import Velosearch.Cluster.Coordinator.Reports

/-!
# The table a `_cluster/reroute` leaves

A manager that is asked to reroute works the commands out on the routing it has
committed, answers with what they come to, and leaves the table for its next
publication, which starts from it instead of from the routing of the state it builds
on. If a publication was in flight, that state is the one in flight: whatever it
brought is then not in the table.

**`reroute_keeps_updates`** says when nothing is lost: every table that was left is the
commands' effect on the very routing the publication that takes it up is built on.
`reroute_forgets_started` is a run in which a copy that was started is not any more.
-/

set_option autoImplicit false

namespace Velosearch.Cluster

open Allocation Coordinator Relation

/-- The routing a REROUTE asks for, as the coordinator works it out. -/
def Coordinator.shaped (E : Env) (c : Coordinator) (e : Envelope) : Option RoutingTable :=
  match E.metadata with
  | none => none
  | some look =>
    let table := c.committed.routing
    let table := if e.body.retryFailed.getD false then retryFailed table else table
    match applyCommands (c.rerouteContext (look c.drawn)) E.random (e.body.explain.getD false)
        { table := table, drawn := c.drawn } e.body.commands [] with
    | .error _ => none
    | .ok (w, _) => some w.table

/-- A request is accepted: a manager that is not asked for a dry run shapes a table. -/
structure Accepts (E : Env) (c : Coordinator) (e : Envelope) (t : RoutingTable) : Prop where
  action : e.action = .reroute
  kind : e.kind = .request
  leads : c.mode = .leader
  wet : e.body.dryRun.getD false = false
  shaped : (c.clear E.wall).shaped E e = some t

/-- The state carries what the REROUTE asks for. -/
def TakesUp (E : Env) (e : Envelope) (base s : ClusterState) : Prop :=
  ∃ (E' : Env) (look : Nat → Source) (c : Coordinator) (s₀ : ClusterState) (t : RoutingTable),
    E'.metadata = some look ∧ Round E' c base s₀ s ∧ c.commandTable = some t ∧
      Ordered E base.routing e t

/-- The publication an event is, if it is one. -/
def Event.publication : Event → Option (ClusterState × ClusterState)
  | .published base s => some (base, s)
  | _ => none

/-- The first of them. -/
def firstPublished (es : List Event) : Option (ClusterState × ClusterState) :=
  es.findSome? Event.publication

section Chore

variable {E E₀ : Env} {I : Option Envelope} {r : RoutingTable} {d d' : Desk} {e : Envelope}
variable {t : RoutingTable} {es : List Event}

/-- What is being published has the routing of what was accepted. -/
def Flies (d : Desk) : Prop :=
  d.mode = .leader → ∀ s, d.inFlight = some s → d.accepted.routing = s.routing

theorem applyCommitted_routing {s : ClusterState} (same : s.routing = d.accepted.routing) :
    (d.applyCommitted s).accepted.routing = d.accepted.routing ∧
      ((d.applyCommitted s).committed.routing = d.committed.routing ∨
        (d.applyCommitted s).committed.routing = d.accepted.routing) := by
  unfold Desk.applyCommitted
  dsimp only
  split
  · exact ⟨rfl, Or.inl rfl⟩
  · split
    · exact ⟨same, Or.inr same⟩
    · exact ⟨rfl, Or.inr same⟩

theorem Chore.flies (chore : Chore E I r d d') (h : Flies d) : Flies d' := by
  cases chore with
  | note evs leads => exact h
  | take e kind ev got leads about => exact h
  | outdated e kind ev got leads about late primary => exact h
  | refuse e kind got => exact h
  | command e t got action leads wet ordered => exact h
  | round c s₀ s here leads idle made =>
    intro _ s' flew
    rw [Option.some.inj flew.symm]
    rfl
  | lead c s₀ s term stood here made other =>
    intro _ s' flew
    rw [Option.some.inj flew.symm]
    rfl
  | decide s leads inFlight =>
    intro _ s' flew
    have idle := applyCommitted_inFlight
      { d with inFlight := none, marks := d.marks ++ [.decided s] } s
    rw [Desk.decide, idle] at flew
    exact absurd flew nofun
  | answer leads idle => exact h
  | stepDown =>
    intro leads
    exact absurd leads nofun
  | follow l stood =>
    intro leads
    exact absurd leads nofun
  | accept s l =>
    intro leads
    exact absurd leads nofun
  | adopt =>
    intro leads s flew
    rw [applyCommitted_mode] at leads
    rw [applyCommitted_inFlight] at flew
    rw [(applyCommitted_routing rfl).1]
    exact h leads s flew
  | joined s l =>
    intro leads
    exact absurd leads nofun
  | boot config => exact h

theorem Chores.flies (chores : Chores E I r d d') (h : Flies d) : Flies d' := by
  induction chores with
  | refl => exact h
  | tail _ chore ih => exact chore.flies ih

/-- The table of a request waits, and is still what the commands make of the committed
routing, as long as this node leads. -/
structure Waits (E₀ : Env) (e : Envelope) (t : RoutingTable) (d : Desk) : Prop where
  table : d.commandTable = some t
  ordered : d.mode = .leader → Ordered E₀ d.committed.routing e t
  still : d.mode = .leader → d.accepted.routing = d.committed.routing

/-- The table waits, or the first publication since has taken it up. -/
def Kept (E₀ : Env) (e : Envelope) (t : RoutingTable) (es : List Event) (d : Desk) : Prop :=
  match firstPublished (es ++ d.marks) with
  | some (base, s) => TakesUp E₀ e base s
  | none => Waits E₀ e t d

theorem firstPublished_append (a b : List Event) :
    firstPublished (a ++ b) = (firstPublished a).or (firstPublished b) := by
  unfold firstPublished
  exact List.findSome?_append

theorem Kept.quiet (h : Kept E₀ e t es d) (ms : List Event) (marks : d'.marks = d.marks ++ ms)
    (none : firstPublished ms = none) (waits : Waits E₀ e t d → Waits E₀ e t d') :
    Kept E₀ e t es d' := by
  unfold Kept at h ⊢
  rw [marks, ← List.append_assoc, firstPublished_append, none, Option.or_none]
  cases first : firstPublished (es ++ d.marks) with
  | none =>
    rw [first] at h
    exact waits h
  | some p =>
    rw [first] at h
    exact h

theorem Kept.published (h : Kept E₀ e t es d) {ms : List Event} (marks : d'.marks = d.marks ++ ms)
    (some : firstPublished (es ++ d.marks) ≠ none) : Kept E₀ e t es d' := by
  unfold Kept at h ⊢
  rw [marks, ← List.append_assoc, firstPublished_append]
  cases first : firstPublished (es ++ d.marks) with
  | none => exact absurd first some
  | some p =>
    rw [first] at h
    exact h

/-- **One chore** keeps the table, unless it is an election or another request. -/
theorem Chore.kept (chore : Chore E I r d d') (flies : Flies d) (store : E.metadata.isSome = true)
    (order : ∀ x, I = some x → x.action ≠ .reroute)
    (reign : firstPublished es = none → ∀ term base, .led term base ∉ d'.marks)
    (h : Kept E₀ e t es d) : Kept E₀ e t es d' := by
  -- a chore that touches neither the table nor the states
  have same : d'.commandTable = d.commandTable → d'.mode = d.mode → d'.committed = d.committed →
      d'.accepted = d.accepted → d'.marks = d.marks → Kept E₀ e t es d' := by
    intro table mode committed accepted marks
    refine h.quiet [] (by rw [marks, List.append_nil]) rfl fun waits => ?_
    exact ⟨table.trans waits.table, fun leads => committed ▸ waits.ordered (mode ▸ leads),
      fun leads => by rw [committed, accepted]; exact waits.still (mode ▸ leads)⟩
  -- one after which this node does not lead
  have down : d'.commandTable = d.commandTable → d'.mode ≠ .leader → d'.marks = d.marks →
      Kept E₀ e t es d' := by
    intro table mode marks
    refine h.quiet [] (by rw [marks, List.append_nil]) rfl fun waits => ?_
    exact ⟨table.trans waits.table, fun leads => absurd leads mode, fun leads => absurd leads mode⟩
  -- one that commits a state with the accepted routing
  have commits : ∀ {x : Desk} {s : ClusterState}, Kept E₀ e t es x →
      s.routing = x.accepted.routing → d' = x.applyCommitted s → Kept E₀ e t es d' := by
    rintro x s kept routing rfl
    obtain ⟨_, _, marks, _, table⟩ := applyCommitted_same x s
    obtain ⟨accepted, committed⟩ := applyCommitted_routing routing
    refine kept.quiet [] (by rw [marks, List.append_nil]) rfl fun waits => ?_
    have now : x.mode = .leader →
        (x.applyCommitted s).committed.routing = x.committed.routing := by
      intro leads
      rcases committed with same | same
      · exact same
      · exact same.trans (waits.still leads)
    refine ⟨table.trans waits.table, fun leads => ?_, fun leads => ?_⟩
    · rw [applyCommitted_mode] at leads
      rw [now leads]
      exact waits.ordered leads
    · rw [applyCommitted_mode] at leads
      rw [accepted, now leads]
      exact waits.still leads
  cases chore with
  | note evs leads => exact same rfl rfl rfl rfl rfl
  | take e kind ev got leads about => exact same rfl rfl rfl rfl rfl
  | outdated e kind ev got leads about late primary => exact same rfl rfl rfl rfl rfl
  | refuse e kind got => exact same rfl rfl rfl rfl rfl
  | command x t' got action leads wet ordered => exact absurd action (order x got)
  | round c s₀ s here leads idle made =>
    obtain ⟨_, marks⟩ := round_replies (E := E) (c := c) s₀ s d.committed
    rw [here] at marks
    by_cases first : firstPublished (es ++ d.marks) = none
    · -- the table is taken up here
      unfold Kept at h ⊢
      rw [first] at h
      rw [marks, ← List.append_assoc, firstPublished_append, first]
      obtain ⟨look, hlook⟩ := Option.isSome_iff_exists.mp store
      have table : c.commandTable = some t := (congrArg Desk.commandTable here).trans h.table
      exact ⟨E, look, c, s₀, t, hlook, made, table, h.ordered leads⟩
    · exact h.published marks first
  | lead c s₀ s term stood here made other =>
    obtain ⟨_, marks⟩ := round_replies (E := E) (c := c) s₀ s d.accepted
    rw [here, List.append_assoc] at marks
    by_cases first : firstPublished (es ++ d.marks) = none
    · rw [firstPublished_append, Option.or_eq_none_iff] at first
      have led := reign first.1 term d.accepted
      rw [marks] at led
      exact absurd (List.mem_append_right _ List.mem_cons_self) led
    · exact h.published marks first
  | decide s leads inFlight =>
    have decided : Kept E₀ e t es { d with inFlight := none, marks := d.marks ++ [.decided s] } :=
      h.quiet _ rfl rfl fun waits => ⟨waits.table, waits.ordered, waits.still⟩
    exact commits decided (flies leads s inFlight).symm rfl
  | answer leads idle => exact same rfl rfl rfl rfl rfl
  | stepDown => exact down rfl nofun rfl
  | follow l stood => exact down rfl nofun rfl
  | accept s l => exact down rfl nofun rfl
  | adopt => exact commits h rfl rfl
  | joined s l =>
    obtain ⟨_, _, marks, _, table⟩ := applyCommitted_same d s
    exact down table nofun marks
  | boot config =>
    refine h.quiet [] (List.append_nil _).symm rfl fun waits => ?_
    exact ⟨waits.table, waits.ordered, waits.still⟩

theorem Chore.marks (chore : Chore E I r d d') : d.marks <+: d'.marks := by
  have round : ∀ {c : Coordinator} {s₀ s base : ClusterState}, d.marks <+: c.desk.marks →
      d.marks <+: ((c.place E s₀).1.desk.publish base s).marks := by
    intro c s₀ s base before
    rw [(round_replies (E := E) (c := c) s₀ s base).2]
    exact before.trans (List.prefix_append _ _)
  cases chore with
  | round c s₀ s here leads idle made =>
    exact round (here ▸ List.prefix_rfl)
  | lead c s₀ s term stood here made other =>
    refine round ?_
    rw [here]
    exact List.prefix_append _ _
  | decide s leads inFlight =>
    obtain ⟨_, _, marks, _⟩ := applyCommitted_same
      { d with inFlight := none, marks := d.marks ++ [.decided s] } s
    rw [Desk.decide, marks]
    exact List.prefix_append _ _
  | adopt =>
    have marks := (applyCommitted_same d d.accepted).2.2.1
    exact marks.symm ▸ List.prefix_rfl
  | joined s l =>
    show d.marks <+: (d.applyCommitted s).marks
    have marks := (applyCommitted_same d s).2.2.1
    exact marks.symm ▸ List.prefix_rfl
  | _ => exact List.prefix_rfl

theorem Chores.marks (chores : Chores E I r d d') : d.marks <+: d'.marks := by
  induction chores with
  | refl => exact List.prefix_rfl
  | tail _ chore ih => exact ih.trans chore.marks

theorem Chore.unled {term : Nat} {base : ClusterState} (chore : Chore E (some e) r d d')
    (action : e.action = .reroute) (h : .led term base ∉ d.marks) : .led term base ∉ d'.marks := by
  cases chore with
  | round c s₀ s here leads idle made =>
    rw [(round_replies (E := E) (c := c) s₀ s d.committed).2, here]
    simpa using h
  | lead c s₀ s term stood here made other => exact absurd action (other e rfl)
  | decide s leads inFlight =>
    obtain ⟨_, _, marks, _⟩ := applyCommitted_same
      { d with inFlight := none, marks := d.marks ++ [.decided s] } s
    rw [Desk.decide, marks]
    simpa using h
  | adopt =>
    rw [(applyCommitted_same d d.accepted).2.2.1]
    exact h
  | joined s l =>
    show _ ∉ (d.applyCommitted s).marks
    rw [(applyCommitted_same d s).2.2.1]
    exact h
  | _ => exact h

theorem Chores.unled {term : Nat} {base : ClusterState} (chores : Chores E (some e) r d d')
    (action : e.action = .reroute) (h : .led term base ∉ d.marks) : .led term base ∉ d'.marks := by
  induction chores with
  | refl => exact h
  | tail _ chore ih => exact chore.unled action ih

theorem Chores.kept (chores : Chores E I r d d') (flies : Flies d)
    (store : E.metadata.isSome = true) (order : ∀ x, I = some x → x.action ≠ .reroute)
    (reign : firstPublished es = none → ∀ term base, .led term base ∉ d'.marks)
    (h : Kept E₀ e t es d) : Kept E₀ e t es d' := by
  induction chores using ReflTransGen.head_induction_on with
  | refl => exact h
  | head chore rest ih =>
    refine ih (chore.flies flies) (chore.kept flies store order (fun none term base led => ?_) h)
    exact reign none term base ((Chores.marks rest).subset led)

end Chore

/-! ## One input -/

section Handle

variable {E E₀ : Env} {c : Coordinator} {e : Envelope} {t : RoutingTable} {es : List Event}

theorem shaped_ordered (h : c.shaped E e = some t) : Ordered E c.committed.routing e t := by
  unfold Coordinator.shaped at h
  split at h
  · exact absurd h nofun
  · dsimp only at h
    split at h
    · exact absurd h nofun
    · rename_i w said applied
      exact ⟨_, _, w, said, applied, (Option.some.inj h).symm⟩

theorem onReroute_cases (action : e.action = .reroute) :
    (∃ t, c.mode = .leader ∧ e.body.dryRun.getD false = false ∧ c.shaped E e = some t ∧
      Chores E none c.committed.routing { c.desk with commandTable := some t }
        (c.onReroute E e).desk) ∨
    (c.onReroute E e).desk = c.desk ∧ (c.mode = .leader → e.body.dryRun.getD false = false →
      c.shaped E e = none) := by
  have h : e.action.report = none := by rw [action]; rfl
  unfold onReroute
  split
  · rename_i other
    exact Or.inr ⟨desk_refuse h, fun leads => absurd leads other⟩
  · rename_i leads
    have leads : c.mode = .leader := not_not.mp leads
    split
    · rename_i store
      refine Or.inr ⟨desk_refuse h, fun _ _ => ?_⟩
      unfold Coordinator.shaped
      rw [store]
    · rename_i look store
      dsimp only
      split
      · rename_i why refused
        refine Or.inr ⟨desk_refuse h, fun _ _ => ?_⟩
        unfold Coordinator.shaped
        rw [store]
        dsimp only
        rw [refused]
      · rename_i w said applied
        have shaped : c.shaped E e = some w.table := by
          unfold Coordinator.shaped
          rw [store]
          dsimp only
          rw [applied]
        generalize Allocation.reroute _ _ _ _ = after
        generalize hd : respond { c with drawn := after.drawn } e _ = d
        have answered : d.desk = c.desk := by
          rw [← hd]
          exact (desk_respond h).trans rfl
        split
        · rename_i dry
          refine Or.inr ⟨answered, fun _ wet => ?_⟩
          rw [dry] at wet
          exact absurd wet nofun
        · rename_i wet
          refine Or.inl ⟨w.table, leads, Bool.eq_false_iff.mpr wet, shaped, ?_⟩
          rw [← answered]
          exact nextPublication_chores (E := E) E.rounds
            { d with commandTable := some w.table, republishWanted := true }

theorem handle_cases (c : Coordinator) {i : Input} (running : i ≠ .start) :
    (∃ e t, i = .message e ∧ Accepts E c e t ∧
      Chores E none c.committed.routing { c.cleared with commandTable := some t }
        (c.handle E i).desk) ∨
    ∃ I, (∀ x, I = some x → x.action ≠ .reroute) ∧
      Chores E I c.committed.routing c.cleared (c.handle E i).desk := by
  by_cases order : ∃ e, i = .message e ∧ e.action = .reroute
  · obtain ⟨e, rfl, action⟩ := order
    have arm : c.handle E (.message e) = (c.clear E.wall).onMessage E e := rfl
    rw [arm]
    cases kind : e.kind with
    | request =>
      have arm : (c.clear E.wall).onMessage E e = (c.clear E.wall).onReroute E e := by
        unfold onMessage
        rw [action, kind]
      rw [arm]
      rcases onReroute_cases (E := E) (c := c.clear E.wall) action with
        ⟨t, leads, wet, shaped, chores⟩ | ⟨same, _⟩
      · exact Or.inl ⟨e, t, rfl, ⟨action, kind, leads, wet, shaped⟩, chores⟩
      · refine Or.inr ⟨none, (fun _ none => nomatch none), ?_⟩
        rw [same]
        exact .refl
    | _ =>
      refine Or.inr ⟨none, (fun _ none => nomatch none), ?_⟩
      unfold onMessage
      rw [action, kind]
      exact .refl
  · refine Or.inr ⟨i.envelope, fun x got action => order ⟨x, ?_, action⟩, handle_chores c running⟩
    cases i with
    | message y => exact congrArg Input.message (Option.some.inj got)
    | _ => exact absurd got nofun

theorem Accepts.chores (h : Accepts E c e t) :
    Chores E none c.committed.routing { c.cleared with commandTable := some t }
      (c.handle E (.message e)).desk := by
  have arm : c.handle E (.message e) = (c.clear E.wall).onReroute E e := by
    show (c.clear E.wall).onMessage E e = _
    unfold onMessage
    rw [h.action, h.kind]
  rw [arm]
  rcases onReroute_cases (E := E) (c := c.clear E.wall) h.action with
    ⟨t', _, _, shaped, chores⟩ | ⟨_, refused⟩
  · obtain rfl := Option.some.inj (shaped.symm.trans h.shaped)
    exact chores
  · exact absurd ((refused h.leads h.wet).symm.trans h.shaped) nofun

theorem firstPublished_filter (l : List Event) :
    firstPublished (l.filter Event.shown) = firstPublished l := by
  unfold firstPublished
  induction l with
  | nil => rfl
  | cons x l ih =>
    cases x with
    | published base s => rfl
    | led term base => exact ih
    | decided s => exact ih
    | voted term dest => exact ih
    | accepted s => exact ih
    | committed s => exact ih

theorem Kept.settle (h : Kept E₀ e t es c.desk) : Kept E₀ e t (es ++ c.history) c.cleared := by
  have past : firstPublished (es ++ c.history ++ c.cleared.marks) =
      firstPublished (es ++ c.desk.marks) := by
    show firstPublished (es ++ c.history ++ []) = firstPublished (es ++ c.history.filter Event.shown)
    rw [List.append_nil, firstPublished_append, firstPublished_append, firstPublished_filter]
  unfold Kept at h ⊢
  rw [past]
  cases first : firstPublished (es ++ c.desk.marks) with
  | none =>
    rw [first] at h
    exact ⟨h.table, h.ordered, h.still⟩
  | some p =>
    rw [first] at h
    exact h

theorem handle_flies (h : Flies c.cleared) (i : Input) : Flies (c.handle E i).cleared := by
  have flies : Flies (c.handle E i).desk := by
    by_cases running : i = .start
    · subst running
      obtain ⟨committed, accepted, heq⟩ := desk_start (E := E) c
      rw [heq]
      intro leads
      exact absurd leads nofun
    · exact Chores.flies (handle_chores c running) h
  exact flies

end Handle

/-! ## Over a life -/

namespace Life

/-- A condition that every happening of a life meets where it comes. -/
def Meets (C : Coordinator → Happening → Prop) (l : Life) : List Happening → Prop
  | [] => True
  | h :: hs => C l.now h ∧ (l.step h).Meets C hs

theorem meets_append {C : Coordinator → Happening → Prop} {l : Life} {hs hs' : List Happening}
    (h : l.Meets C (hs ++ hs')) : l.Meets C hs ∧ (l.run hs).Meets C hs' := by
  induction hs generalizing l with
  | nil => exact ⟨trivial, h⟩
  | cons x hs ih =>
    obtain ⟨before, after⟩ := ih h.2
    exact ⟨⟨h.1, before⟩, after⟩

end Life

/-- The places where a waiting table goes out of date or is lost: another request is
accepted before it is taken up; a request is accepted while the routing last
published is not the committed one; the node is elected anew, or its process
restarted, with the table still waiting. -/
def Heeds (c : Coordinator) : Happening → Prop
  | .restart .. => c.commandTable = none
  | .input E i => E.metadata.isSome = true ∧
    (∀ e t, i = .message e → Accepts E c e t →
      c.commandTable = none ∧ c.accepted.routing = c.committed.routing) ∧
    (c.commandTable ≠ none → ∀ term base, .led term base ∉ (c.handle E i).history)

section Life

variable {E₀ : Env} {e : Envelope} {t : RoutingTable} {es : List Event} {l : Life}

theorem life_flies (env : Env) (g : Config) (uuid : String) (hs : List Happening) :
    Flies ((Life.born env g uuid).run hs).now.cleared := by
  have fresh : ∀ (g : Config) (uuid : String) (disk : Durable),
      Flies (g.process uuid disk).cleared := by
    intro g uuid disk leads
    exact absurd leads nofun
  induction hs using List.reverseRecOn with
  | nil => exact handle_flies (fresh g uuid {}) .start
  | append_singleton hs h ih =>
    rw [Life.run_append, Life.run_cons, Life.run_nil]
    cases h with
    | input E i => exact handle_flies ih i
    | restart E g' uuid' => exact handle_flies (fresh _ _ _) .start

theorem Kept.waits {d : Desk} (h : Kept E₀ e t es d) (none : firstPublished (es ++ d.marks) = none) :
    Waits E₀ e t d := by
  unfold Kept at h
  rw [none] at h
  exact h

/-- **One happening** keeps a table that waits, or has been taken up. -/
theorem step_kept (flies : Flies l.now.cleared) {h : Happening} (heeds : Heeds l.now h)
    (kept : Kept E₀ e t es l.now.cleared) :
    Kept E₀ e t (es ++ (Life.meets l.now h).history) (l.step h).now.cleared := by
  have now : (l.step h).now = Life.meets l.now h := rfl
  rw [now]
  by_cases first : firstPublished es = none
  · have waits : Waits E₀ e t l.now.cleared := kept.waits (by
      show firstPublished (es ++ []) = none
      rw [List.append_nil]
      exact first)
    have table : l.now.commandTable ≠ none := by
      rw [show l.now.commandTable = some t from waits.table]
      exact nofun
    cases h with
    | restart E g uuid => exact absurd heeds table
    | input E i =>
      obtain ⟨store, accepted, reign⟩ := heeds
      refine Kept.settle ?_
      by_cases running : i = .start
      · subst running
        obtain ⟨committed, accepted, heq⟩ := desk_start (E := E) l.now
        show Kept E₀ e t es (l.now.handle E .start).desk
        rw [heq]
        refine kept.quiet [] rfl rfl fun _ => ⟨waits.table, ?_, ?_⟩
        · exact fun leads => absurd leads nofun
        · exact fun leads => absurd leads nofun
      · rcases handle_cases (E := E) l.now running with ⟨x, t', hi, takes, _⟩ | ⟨I, order, chores⟩
        · exact absurd (accepted x t' hi takes).1 table
        · refine Chores.kept chores flies store order (fun _ term base led => ?_) kept
          exact reign table term base (List.mem_of_mem_filter led)
  · have more : firstPublished (es ++ (Life.meets l.now h).history ++
        (Life.meets l.now h).cleared.marks) = firstPublished es := by
      rw [List.append_assoc, firstPublished_append]
      cases hes : firstPublished es with
      | none => exact absurd hes first
      | some p => rfl
    have before : firstPublished (es ++ l.now.cleared.marks) = firstPublished es := by
      show firstPublished (es ++ []) = firstPublished es
      rw [List.append_nil]
    unfold Kept at kept ⊢
    rw [more]
    rw [before] at kept
    cases hes : firstPublished es with
    | none => exact absurd hes first
    | some p =>
      rw [hes] at kept
      exact kept

theorem run_kept (hs : List Happening) (flies : Flies l.now.cleared) (heeds : l.Meets Heeds hs)
    (kept : Kept E₀ e t es l.now.cleared) :
    ∃ es', (l.run hs).past = l.past ++ es' ∧
      Kept E₀ e t (es ++ es') (l.run hs).now.cleared := by
  induction hs generalizing l es with
  | nil => exact ⟨[], (List.append_nil _).symm, by rw [List.append_nil]; exact kept⟩
  | cons h hs ih =>
    have flies' : Flies (l.step h).now.cleared := by
      cases h with
      | input E i => exact handle_flies flies i
      | restart E g uuid =>
        refine handle_flies ?_ .start
        intro leads
        exact absurd leads nofun
    obtain ⟨es', past, kept'⟩ := ih flies' heeds.2 (step_kept flies heeds.1 kept)
    refine ⟨(Life.meets l.now h).history ++ es', ?_, ?_⟩
    · rw [Life.run_cons, past]
      exact List.append_assoc _ _ _
    · rw [← List.append_assoc]
      exact kept'

/-- What becomes of an accepted request, in the events recorded since: the first state
published was built from the commands' effect on the routing of the state it was
built on; until there is one, the table waits, and is the commands' effect on the
routing of the publication in flight. -/
def Preserves (E : Env) (e : Envelope) (t : RoutingTable) (es : List Event) (c : Coordinator) :
    Prop :=
  match firstPublished es with
  | some (base, s) => TakesUp E e base s
  | none => c.mode = .leader → c.commandTable = some t ∧
    ∀ p, c.publishing = some p → Ordered E p.state.routing e t

theorem Kept.preserves {c : Coordinator} (h : Kept E₀ e t es c.cleared) (flies : Flies c.cleared) :
    Preserves E₀ e t es c := by
  have past : firstPublished (es ++ c.cleared.marks) = firstPublished es := by
    show firstPublished (es ++ []) = firstPublished es
    rw [List.append_nil]
  unfold Kept at h
  unfold Preserves
  rw [past] at h
  cases first : firstPublished es with
  | some p =>
    rw [first] at h
    exact h
  | none =>
    rw [first] at h
    intro leads
    refine ⟨h.table, fun p inFlight => ?_⟩
    have flew : c.cleared.inFlight = some p.state := by
      show c.publishing.map (·.state) = _
      rw [inFlight]
      rfl
    -- accepted, committed and in flight: one routing
    have routing : p.state.routing = c.committed.routing :=
      (flies leads p.state flew).symm.trans (h.still leads)
    rw [routing]
    exact h.ordered leads

/-- **No routing update is lost to a `_cluster/reroute`**: in every life whose
happenings heed the table that waits, an accepted request keeps what the publication
in flight brings, whatever happens before the next publication and then in it. -/
theorem reroute_keeps_updates (env : Env) (g : Config) (uuid : String)
    (before after : List Happening) (E : Env) (e : Envelope) (t : RoutingTable)
    (heeds : (Life.born env g uuid).Meets Heeds (before ++ .input E (.message e) :: after))
    (accepts : Accepts E ((Life.born env g uuid).run before).now e t) (es : List Event)
    (since : ((Life.born env g uuid).run (before ++ .input E (.message e) :: after)).past =
      ((Life.born env g uuid).run before).past ++ es) :
    Preserves E e t es
      ((Life.born env g uuid).run (before ++ .input E (.message e) :: after)).now := by
  have flies := life_flies env g uuid before
  have lands := life_flies env g uuid (before ++ .input E (.message e) :: after)
  obtain ⟨_, heeds⟩ := Life.meets_append heeds
  rw [Life.run_append] at since lands ⊢
  generalize (Life.born env g uuid).run before = l at flies heeds accepts since lands ⊢
  obtain ⟨⟨store, accepted, reign⟩, rest⟩ := heeds
  obtain ⟨_, routing⟩ := accepted e t rfl accepts
  -- the table is left, and kept to the end of the input
  have left : Kept E e t [] { l.now.cleared with commandTable := some t } :=
    ⟨rfl, fun _ => shaped_ordered (c := l.now.clear E.wall) accepts.shaped, fun _ => routing⟩
  have held : Kept E e t [] (l.now.handle E (.message e)).desk := by
    refine Chores.kept accepts.chores flies store (fun _ none => nomatch none) ?_ left
    intro _ term base
    have running : Input.message e ≠ .start := nofun
    exact Chores.unled (handle_chores l.now running) accepts.action List.not_mem_nil
  have kept : Kept E e t (l.now.handle E (.message e)).history
      (l.step (.input E (.message e))).now.cleared := held.settle
  obtain ⟨es', past, whole⟩ := run_kept after (handle_flies flies _) rest kept
  have same : es = (l.now.handle E (.message e)).history ++ es' := by
    rw [Life.run_cons, past] at since
    have : l.past ++ (l.now.handle E (.message e)).history ++ es' = l.past ++ es := since
    rw [List.append_assoc] at this
    exact (List.append_cancel_left this).symm
  rw [same]
  exact whole.preserves lands

end Life

/-! ## A manager with a store, to run -/

def Env.shop : Env :=
  { random := tally
    metadata := some fun _ => { snapshot := .ofList [("books", books 1 1)] } }

def opening : List Happening :=
  let node := fun id => (Config.plain id [] []).node
  [.input .shop (.peer (node "b")), .input .shop (.peer (node "c")),
    .input .shop (.timer .election),
    .input .shop (.message ⟨.response, 2, .preVote, "b", { term := some 0 }⟩),
    .input .shop (.message (.request .join "b" 1
      { term := some 1, vote := some true, node := some (node "b") })),
    .input .shop (.message ⟨.response, 5, .publish, "b", { term := some 1, version := some 1 }⟩)]

def shopkeeper (hs : List Happening) : Life :=
  (Life.born .shop (.plain "a" ["a", "b", "c"] []) "blank").run hs

def emptyReroute : Envelope := .request .reroute "b" 3 {}

theorem ordered_empty {E : Env} {r t : RoutingTable} (h : Ordered E r emptyReroute t) : t = r := by
  obtain ⟨ctx, drawn, w, said, applied, rfl⟩ := h
  have same : ({ table := r, drawn := drawn } : Work) = w :=
    congrArg Prod.fst (Except.ok.inj applied)
  rw [← same]

/-- `b` has filled the replica, and the state that says so is in flight when a request
comes: its table still has the replica being filled, and so has the state published
next. -/
theorem reroute_forgets_started :
    let filled : Happening := .input .shop (.message (.request .shardStarted "b" 2
      { index := some "books", shard := some 0, allocationId := some (tally 2) }))
    let ack : Happening := .input .shop (.message
      ⟨.response, 7, .publish, "b", { term := some 1, version := some 2 }⟩)
    let before := opening ++ [filled]
    let asked := before ++ [.input .shop (.message emptyReroute)]
    (∃ t, Accepts .shop (shopkeeper before).now emptyReroute t ∧
      ¬ Preserves .shop emptyReroute t (shopkeeper asked).now.history (shopkeeper asked).now) ∧
    ((shopkeeper (asked ++ [ack])).now.committed.routing.copies "books" 0).map (·.state) =
      [.started, .started] ∧
    ((shopkeeper (asked ++ [ack])).now.accepted.routing.copies "books" 0).map (·.state) =
      [.started, .initializing] := by
  intro filled ack before asked
  refine ⟨?_, by decide +kernel, by decide +kernel⟩
  have shaped : (((shopkeeper before).now.clear Env.shop.wall).shaped .shop emptyReroute).isSome =
      true := by decide +kernel
  obtain ⟨t, ht⟩ := Option.isSome_iff_exists.mp shaped
  refine ⟨t, ⟨rfl, rfl, by decide +kernel, rfl, ht⟩, fun preserves => ?_⟩
  unfold Preserves at preserves
  have none : firstPublished (shopkeeper asked).now.history = Option.none := by decide +kernel
  rw [none] at preserves
  obtain ⟨table, ordered⟩ := preserves (by decide +kernel)
  have flying : (shopkeeper asked).now.publishing.isSome = true := by decide +kernel
  obtain ⟨p, hp⟩ := Option.isSome_iff_exists.mp flying
  -- the commands' effect would be the routing in flight
  have same : (shopkeeper asked).now.commandTable =
      (shopkeeper asked).now.publishing.map (·.state.routing) := by
    rw [table, hp, ordered_empty (ordered p hp)]
    rfl
  exact absurd same (by decide +kernel)

section Heeds

variable {c : Coordinator} {E : Env} {i : Input}

theorem heeds_idle (store : E.metadata.isSome = true) (idle : c.commandTable = none)
    (other : ∀ e, i = .message e → e.action ≠ .reroute) : Heeds c (.input E i) :=
  ⟨store, fun e _ hi accepts => absurd accepts.action (other e hi), fun table => absurd idle table⟩

theorem heeds_busy (store : E.metadata.isSome = true)
    (other : ∀ e, i = .message e → e.action ≠ .reroute)
    (reign : ∀ term base, .led term base ∉ (c.handle E i).history) : Heeds c (.input E i) :=
  ⟨store, fun e _ hi accepts => absurd accepts.action (other e hi), fun _ => reign⟩

end Heeds

/-- A state that brings nothing new to the routing is in flight when the request comes;
the one published next is built from the table. -/
theorem reroute_taken_up :
    let before := opening ++ [.input .shop (.timer .allocate)]
    let ack : Happening := .input .shop (.message
      ⟨.response, 7, .publish, "b", { term := some 1, version := some 2 }⟩)
    let life := before ++ .input .shop (.message emptyReroute) :: [ack]
    ((shopkeeper before).now.publishing.isSome = true ∧
      (shopkeeper life).now.publishing.isSome = true) ∧
    ∃ t es, Accepts .shop (shopkeeper before).now emptyReroute t ∧
      (∃ p, firstPublished es = some p) ∧ Preserves .shop emptyReroute t es (shopkeeper life).now := by
  intro before ack life
  have shaped : (((shopkeeper before).now.clear Env.shop.wall).shaped .shop emptyReroute).isSome =
      true := by decide +kernel
  obtain ⟨t, ht⟩ := Option.isSome_iff_exists.mp shaped
  have accepts : Accepts .shop (shopkeeper before).now emptyReroute t :=
    ⟨rfl, rfl, by decide +kernel, rfl, ht⟩
  have heeds : (Life.born .shop (.plain "a" ["a", "b", "c"] []) "blank").Meets Heeds life := by
    have quiet : ∀ {i : Input}, (i.envelope.map (·.action)) ≠ some .reroute →
        ∀ e, i = .message e → e.action ≠ .reroute := by
      rintro i other e rfl action
      exact other (congrArg some action)
    have idle : ∀ {n : Nat} {i : Input}, (shopkeeper (life.take n)).now.commandTable = none →
        (i.envelope.map (·.action)) ≠ some .reroute →
          Heeds (shopkeeper (life.take n)).now (.input .shop i) :=
      fun table other => heeds_idle rfl table (quiet other)
    refine ⟨idle (n := 0) (by decide +kernel) nofun, idle (n := 1) (by decide +kernel) nofun,
      idle (n := 2) (by decide +kernel) nofun, idle (n := 3) (by decide +kernel) nofun,
      idle (n := 4) (by decide +kernel) nofun, idle (n := 5) (by decide +kernel) nofun,
      idle (n := 6) (by decide +kernel) nofun, ?_, ?_, trivial⟩
    · refine ⟨rfl, fun _ _ _ _ => ⟨?_, ?_⟩, fun table => absurd ?_ table⟩
      · show (shopkeeper before).now.commandTable = none
        decide +kernel
      · show (shopkeeper before).now.accepted.routing = (shopkeeper before).now.committed.routing
        decide +kernel
      · show (shopkeeper before).now.commandTable = none
        decide +kernel
    · refine heeds_busy rfl (quiet nofun) fun term base led => ?_
      have none : ((shopkeeper life).now.history.any fun e => match e with
          | .led .. => true
          | _ => false) = false := by decide +kernel
      rw [List.any_eq_false] at none
      exact absurd rfl (none _ led)
  have grew : (shopkeeper before).past <+: (shopkeeper life).past := by
    have whole : shopkeeper life = (shopkeeper before).run (.input .shop (.message emptyReroute) ::
      [ack]) := Life.run_append _ _ _
    rw [whole]
    exact Life.past_run _ _
  refine ⟨by decide +kernel, t, (shopkeeper life).past.drop (shopkeeper before).past.length,
    accepts, ?_, ?_⟩
  · exact Option.isSome_iff_exists.mp (by decide +kernel)
  · exact reroute_keeps_updates .shop (.plain "a" ["a", "b", "c"] []) "blank" before [ack] .shop
      emptyReroute t heeds accepts _ (List.prefix_iff_eq_append.mp grew).symm

end Velosearch.Cluster

import Velosearch.Cluster.Coordinator.Messages

/-!
# What an input can do to terms and states

Safety speaks of a node's `Core`, of the six kinds of message terms and states
travel in, and of the recorded history. A `View` is these three, and most of the
coordinator's code does not touch it: the lemmas `view_…` of the first half of this
file say so, function by function, and are the simp set everything above rests on.

The second half is what the few functions that do touch it make of one.
-/

set_option autoImplicit false

namespace Velosearch.Cluster

/-- The message says something of terms, votes or states. -/
def Envelope.binding (e : Envelope) : Bool :=
  match e.action, e.kind with
  | .startJoin, .request | .join, .request | .join, .response
  | .publish, .request | .publish, .response | .commit, .request => true
  | _, _ => false

/-- The message that goes out, where it binds. -/
def Output.bound : Output → Option (NodeId × Envelope)
  | .send dest e => if e.binding then some (dest, e) else none
  | _ => none

/-- What elections are about: the core, the messages that bind, the history. -/
structure View where
  core : Core
  sent : List (NodeId × Envelope)
  marks : List Event

namespace Coordinator

variable (env : Env)

/-- The view of a coordinator. -/
def view (c : Coordinator) : View := ⟨c.toCore, c.out.filterMap Output.bound, c.history⟩

/-! ## Functions that leave the view alone -/

theorem view_emit {c : Coordinator} {o : Output} (h : o.bound = none) :
    (c.emit o).view = c.view := by
  simp [emit, view, h]

theorem view_emits {c : Coordinator} {l : List Output} (h : ∀ o ∈ l, o.bound = none) :
    (c.emits l).view = c.view := by
  have : l.filterMap Output.bound = [] := List.filterMap_eq_nil_iff.mpr h
  simp [emits, view, this]

theorem view_foldl {α : Type} {f : Coordinator → α → Coordinator}
    (h : ∀ c a, (f c a).view = c.view) (l : List α) (c : Coordinator) :
    (l.foldl f c).view = c.view := by
  induction l generalizing c with
  | nil => rfl
  | cons a l ih => rw [List.foldl_cons, ih, h]

@[simp] theorem view_rid (c : Coordinator) : c.rid.view = c.view := rfl

@[simp] theorem view_note (c : Coordinator) (n : Note) : (c.emit (.note n)).view = c.view :=
  view_emit rfl

@[simp] theorem view_timer (c : Coordinator) (id : TimerId) (after : Millis) :
    (c.emit (.timer id after)).view = c.view := view_emit rfl

@[simp] theorem view_told (c : Coordinator) (w : Told) : (c.emit (.told w)).view = c.view :=
  view_emit rfl

@[simp] theorem view_remark (c : Coordinator) (n : Note) : (c.remark n).view = c.view := by
  unfold remark
  split <;> simp

@[simp] theorem view_tell (c : Coordinator) (w : Told) : (c.tell env w).view = c.view := by
  unfold tell
  split <;> simp

theorem view_send {c : Coordinator} {dest : NodeId} {e : Envelope} (h : e.binding = false) :
    (c.send dest e).view = c.view :=
  view_emit (by simp [Output.bound, h])

theorem view_request {c : Coordinator} {dest : NodeId} {a : Action} {b : Body}
    (h : (Envelope.request a c.me.id c.rid.nextRequest b).binding = false) :
    (c.request dest a b).view = c.view := by
  unfold request
  exact (view_send h).trans (view_rid c)

@[simp] theorem view_joinError (c : Coordinator) (dest : NodeId) (b : Body) :
    (c.joinError dest b).view = c.view := by
  unfold joinError
  exact (view_send rfl).trans (view_rid c)

theorem error_not_binding (e : Envelope) (sender : NodeId) (b : Body) :
    (e.error sender b).binding = false := by
  unfold Envelope.binding Envelope.error
  cases e.action <;> rfl

@[simp] theorem view_refuse (c : Coordinator) (e : Envelope) (b : Body) :
    (c.refuse e b).view = c.view := view_send (error_not_binding _ _ _)

@[simp] theorem view_refuseStranger (c : Coordinator) (e : Envelope) :
    (c.refuseStranger e).view = c.view := view_refuse _ _ _

@[simp] theorem view_learn (c : Coordinator) (n : DiscoveryNode) :
    (c.learn n).view = c.view := by
  unfold learn
  split
  · rfl
  · split
    · rfl
    · exact view_emit (c := c) (o := .peer n.id n.transportAddress) rfl

@[simp] theorem view_scheduleElection (c : Coordinator) :
    c.scheduleElection.view = c.view := by
  unfold scheduleElection
  exact view_emit (c := c) rfl

@[simp] theorem view_dialSeeds (c : Coordinator) : c.dialSeeds.view = c.view := by
  unfold dialSeeds
  apply view_emits
  intro o ho
  obtain ⟨h, _, rfl⟩ := List.mem_map.mp ho
  rfl

@[simp] theorem view_disappointReplies (c : Coordinator) :
    c.disappointReplies.view = c.view := by
  unfold disappointReplies
  refine Eq.trans ?_ (view_emits (c := c) (l := c.eventReplies.map fun w =>
    .send w.dest (w.envelope.error c.me.id
      { term := some c.currentTerm, reason := some "no longer the manager" })) ?_)
  · rfl
  · intro o ho
    obtain ⟨w, _, rfl⟩ := List.mem_map.mp ho
    simp [Output.bound, error_not_binding]

@[simp] theorem view_prevote (c : Coordinator) : c.prevote.view = c.view := by
  unfold prevote
  rw [view_emits]
  · rfl
  · intro o ho
    obtain ⟨t, _, rfl⟩ := List.mem_map.mp ho
    rfl

@[simp] theorem view_noteHeld (c : Coordinator) (b : Body) :
    (c.noteHeld b).view = c.view := by
  unfold noteHeld
  split <;> rfl

/-! ### Placing and applying -/

@[simp] theorem view_placeNotes (c : Coordinator) (ch : Allocation.Changes) :
    (c.placeNotes ch).view = c.view := by
  unfold placeNotes
  have notes : ∀ (c : Coordinator) (f : Coordinator → String × Nat × String → Coordinator),
      (∀ d x, (f d x).view = d.view) →
        (ch.notes.foldl (fun c n => c.remark (.allocation n)) (ch.retired.foldl f c)).view =
          c.view := by
    intro c f plain
    rw [view_foldl (fun c n => view_remark c _), view_foldl plain]
  split <;> split <;> simp [notes]

@[simp] theorem view_inSyncNotes (c : Coordinator)
    (before after : BTreeMap String IndexMetadata) :
    (c.inSyncNotes before after).view = c.view := by
  unfold inSyncNotes
  apply view_foldl
  intro c n
  dsimp only
  split <;> simp

@[simp] theorem view_afterPlacing (c : Coordinator) (src : Source) (s : ClusterState)
    (p : Placing) : (c.afterPlacing env src s p).view = c.view := by
  unfold afterPlacing
  rw [view_tell, view_inSyncNotes, view_placeNotes]
  rfl

@[simp] theorem view_place (c : Coordinator) (s : ClusterState) :
    (c.place env s).1.view = c.view := by
  unfold place
  split
  · rfl
  · exact view_afterPlacing env _ _ _ _

@[simp] theorem view_report (c : Coordinator) (ev : ShardEvent) :
    (c.report ev).view = c.view := by
  unfold report
  split
  · rfl
  · cases ev <;> exact view_request rfl
  · rfl

@[simp] theorem view_reportMetadata (c : Coordinator) :
    (c.reportMetadata env).view = c.view := by
  unfold reportMetadata
  split
  · dsimp only
    split
    · rfl
    · exact view_request rfl
  · rfl

@[simp] theorem view_takeCustoms (c : Coordinator) : (c.takeCustoms env).view = c.view := by
  unfold takeCustoms
  dsimp only
  split
  · exact view_tell env _ _
  · rfl

theorem view_dropLocal (c : Coordinator) (x : String × IndexMetadata) :
    (c.dropLocal env x).view = c.view := by
  unfold dropLocal
  split <;> simp

@[simp] theorem view_applyMetadata (c : Coordinator) :
    (c.applyMetadata env).view = c.view := by
  unfold applyMetadata
  split
  · rfl
  · rw [view_foldl (view_dropLocal env), view_takeCustoms, view_emits]
    · split <;> simp
    · intro o ho
      obtain ⟨n, _, rfl⟩ := List.mem_map.mp ho
      rfl

theorem view_noteCopy (c : Coordinator) (x : ShardRouting) :
    (c.noteCopy env x).view = c.view := by
  unfold noteCopy
  split
  · split <;> simp
  · rfl

theorem view_reportAgain (c : Coordinator) (x : ShardRouting) :
    (c.reportAgain x).view = c.view := by
  unfold reportAgain
  split <;> simp

theorem view_resyncCopy (c : Coordinator) (x : ShardRouting) :
    (c.resyncCopy env x).view = c.view := by
  unfold resyncCopy
  dsimp only
  split
  · rfl
  · split
    · rfl
    · rw [view_remark]
      split
      · exact view_told _ _
      · rfl

theorem view_startCopy (c : Coordinator) (x : ShardRouting) :
    (c.startCopy env x).view = c.view := by
  unfold startCopy
  split
  · rfl
  · split
    · rfl
    · dsimp only
      split
      · rfl
      · exact view_report _ _
      · exact view_report _ _

theorem view_releaseCopy (c : Coordinator) (x : String × String × Nat) :
    (c.releaseCopy env x).view = c.view := by
  unfold releaseCopy
  dsimp only
  split
  · rfl
  · split
    · exact view_remark _ _
    · split
      · exact view_told _ _
      · rfl

@[simp] theorem view_applyShards (c : Coordinator) : (c.applyShards env).view = c.view := by
  unfold applyShards
  rw [view_foldl (view_releaseCopy env), view_foldl (view_startCopy env),
    view_foldl (view_resyncCopy env), view_foldl view_reportAgain]
  exact (view_foldl (view_noteCopy env) _ _).trans (view_applyMetadata env c)

@[simp] theorem view_answerReplies (c : Coordinator) : c.answerReplies.view = c.view := by
  unfold answerReplies
  refine Eq.trans (b := (c.emits _).view) rfl (view_emits ?_)
  intro o ho
  obtain ⟨w, _, rfl⟩ := List.mem_map.mp ho
  cases w with
  | mk carriedAt dest kind requestId => cases kind <;> rfl

/-! ### Discovery

A candidate that has just begun looking names no manager, so it sends no join. -/

theorem foldl_request_leaderHint (a : Action) (b : Coordinator → Body) (l : List NodeId)
    (c : Coordinator) :
    (l.foldl (fun c t => c.request t a (b c)) c).leaderHint = c.leaderHint := by
  induction l generalizing c with
  | nil => rfl
  | cons t l ih => exact (ih _).trans rfl

theorem view_discover {c : Coordinator} (h : c.leaderHint = none) :
    (c.discover env).view = c.view := by
  unfold discover
  split
  · rfl
  · dsimp only
    rw [view_timer]
    have hint : ((c.dialSeeds.everyone.toList.foldl (fun c t =>
        c.request t .peers { node := some c.me, nodeId := some c.me.id }) c.dialSeeds).joinHint
          env).view = c.view := by
      unfold joinHint
      rw [foldl_request_leaderHint .peers
        (fun c => { node := some c.me, nodeId := some c.me.id })]
      have : c.dialSeeds.leaderHint = none := h
      rw [this]
      dsimp only
      rw [view_foldl (fun c t => view_request rfl), view_dialSeeds]
    split
    · rw [view_scheduleElection, hint]
    · exact hint

end Coordinator

/-! ## Functions that change it -/

namespace Core

/-- Neither leader nor publishing. -/
def stepDown (k : Core) : Core := { k with mode := .candidate, publishing := none }

/-- The term is taken up, and is on disk. -/
def toTerm (k : Core) (t : Nat) : Core :=
  { k with
    currentTerm := t
    durable := { k.durable with term := some t }
    joinVotes := ∅
    mode := .candidate
    publishing := if k.mode = .candidate then k.publishing else none }

/-- A state is accepted, and is on disk. -/
def accept (k : Core) (s : ClusterState) : Core :=
  { k with accepted := s, durable := { k.durable with accepted := some s } }

/-- A state is committed, and is on disk. -/
def commit (k : Core) (s : ClusterState) : Core :=
  { k with committed := s, durable := { k.durable with committed := some s } }

end Core

namespace View

/-- The view of another core. -/
def withCore (v : View) (k : Core) : View := { v with core := k }

/-- Messages go out. -/
def send (v : View) (ms : List (NodeId × Envelope)) : View := { v with sent := v.sent ++ ms }

/-- Events are recorded. -/
def mark (v : View) (es : List Event) : View := { v with marks := v.marks ++ es }

/-- A committed state is put in force. -/
def applyCommitted (v : View) (s : ClusterState) : View :=
  if !fresher s.term s.version v.core.committed.term v.core.committed.version then v
  else
    let s := Coordinator.settled s
    let v :=
      if fresher s.term s.version v.core.accepted.term v.core.accepted.version then
        (v.withCore (v.core.accept s)).mark [.accepted s]
      else v
    (v.withCore (v.core.commit s)).mark [.committed s]

end View

namespace Coordinator

variable (env : Env)

theorem view_of_core {c c' : Coordinator} {v : View} (h : c.view = v) (f : Core → Core)
    (hc : c'.toCore = f c.toCore) (ho : c'.out = c.out) (hh : c'.history = c.history) :
    c'.view = v.withCore (f v.core) := by
  subst h
  simp only [view, View.withCore, hc, ho, hh]

theorem view_record (c : Coordinator) (e : Event) : (c.record e).view = c.view.mark [e] := rfl

theorem view_send_binding {c : Coordinator} {dest : NodeId} {e : Envelope}
    (h : e.binding = true) : (c.send dest e).view = c.view.send [(dest, e)] := by
  simp [send, emit, view, View.send, Output.bound, h]

theorem view_emits_send {c : Coordinator} {l : List NodeId} {e : Envelope}
    (h : e.binding = true) :
    (c.emits (l.map fun n => .send n e)).view = c.view.send (l.map fun n => (n, e)) := by
  have : (l.map fun n => Output.send n e).filterMap Output.bound = l.map fun n => (n, e) := by
    simp [List.filterMap_map, Function.comp_def, Output.bound, h]
  simp [emits, view, View.send, this]

theorem view_becomeCandidate (c : Coordinator) :
    (c.becomeCandidate env).view = c.view.withCore c.toCore.stepDown := by
  unfold becomeCandidate
  rw [view_discover env rfl]
  have down : ({ c.disappointReplies with mode := .candidate } : Coordinator).view =
      c.view.withCore { c.toCore with mode := .candidate } :=
    view_of_core (view_disappointReplies c) (fun k => { k with mode := .candidate }) rfl rfl rfl
  exact view_of_core ((view_tell env _ _).trans down)
    (fun k => { k with publishing := none }) rfl rfl rfl

theorem view_sawTerm (t : Nat) (c : Coordinator) :
    (c.sawTerm env t).view =
      if t ≤ c.currentTerm then c.view else c.view.withCore (c.toCore.toTerm t) := by
  unfold sawTerm
  dsimp only
  split
  · rfl
  · split
    · rename_i hm
      rw [view_becomeCandidate]
      have hm : ¬ c.mode = .candidate := hm
      have hr : ∀ d : Coordinator, (d.remark (.steppingDown t)).toCore = d.toCore :=
        fun d => congrArg View.core (view_remark d _)
      rw [view_remark, hr]
      simp [view, View.withCore, Core.stepDown, Core.toTerm, persistTerm, hm]
    · rename_i hm
      have hm : c.mode = .candidate := not_not.mp hm
      simp [view, View.withCore, Core.toTerm, persistTerm, hm]

theorem view_applyCommitted (c : Coordinator) (s : ClusterState) :
    (c.applyCommitted s).view = c.view.applyCommitted s := by
  have hcore : c.view.core = c.toCore := rfl
  unfold applyCommitted View.applyCommitted
  rw [hcore]
  dsimp only
  cases fresher s.term s.version c.committed.term c.committed.version with
  | false => rfl
  | true =>
    cases fresher (settled s).term (settled s).version c.accepted.term c.accepted.version with
    | false => rfl
    | true => rfl

end Coordinator

end Velosearch.Cluster

import Mathlib.Logic.Relation
import Velosearch.Cluster.Coordinator.Messages

/-!
# The manager's desk

What a manager has before it besides terms and votes: the shard events no publication
has taken up, the reporters that wait for one, the table `_cluster/reroute` left for
the next round, the publication in flight. A `Desk` is these, with the answers to shard
reports put out so far and what was published and decided.

As with the `View`, most of the coordinator leaves the desk alone. What does not comes
down to `Chore`s (`handle_chores`). A `round` is where a state is built: everything a publication
carries to the data nodes is decided there, from what lies on the desk.
-/

set_option autoImplicit false

namespace Velosearch.Cluster

open Allocation Relation

/-! ## Reports and answers -/

/-- The kind of report a message is, if it is one. -/
def Action.report : Action → Option ReportKind
  | .shardStarted => some .started
  | .shardFailed => some .failed
  | .shardStale => some .stale
  | _ => none

/-- An answer to a report. -/
structure Reply where
  dest : NodeId
  kind : ReportKind
  requestId : Nat
  ok : Bool
deriving DecidableEq

/-- The answer an output is, if it is one. -/
def Output.reply : Output → Option Reply
  | .send dest e =>
    match e.action.report, e.kind with
    | some k, .response => some ⟨dest, k, e.requestId, true⟩
    | some k, .error => some ⟨dest, k, e.requestId, false⟩
    | _, _ => none
  | _ => none

/-- The answer that is owed. -/
def Waiting.reply (w : Waiting) (ok : Bool) : Reply := ⟨w.dest, w.kind, w.requestId, ok⟩

namespace ShardEvent

/-- The index of the copy. -/
def index : ShardEvent → String
  | .started i _ _ | .failed i _ _ _ | .stale i _ _ => i

/-- Its shard. -/
def shard : ShardEvent → Nat
  | .started _ s _ | .failed _ s _ _ | .stale _ s _ => s

/-- Its id. -/
def allocationId : ShardEvent → String
  | .started _ _ a | .failed _ _ a _ | .stale _ _ a => a

/-- The report an event comes from. -/
def kind : ShardEvent → ReportKind
  | .started .. => .started
  | .failed .. => .failed
  | .stale .. => .stale

/-- The event is what the report says. -/
structure About (ev : ShardEvent) (kind : ReportKind) (e : Envelope) : Prop where
  request : e.kind = .request
  action_eq : e.action = kind.action
  kind_eq : ev.kind = kind
  index_eq : ev.index = e.body.index.getD ""
  shard_eq : ev.shard = e.body.shard.getD 0 % 2 ^ 32
  allocationId_eq : ev.allocationId = e.body.allocationId.getD "" ∨
    kind = .failed ∧ e.body.nodeText.isSome = true

end ShardEvent

/-- What a manager shows of its history here. -/
def Event.shown : Event → Bool
  | .published .. | .decided _ | .led .. => true
  | _ => false

/-- What reports and their answers go through. -/
structure Desk where
  mode : Mode
  committed : ClusterState
  accepted : ClusterState
  inFlight : Option ClusterState
  terms : BTreeMap String (BTreeMap Nat Nat)
  shardEvents : List ShardEvent
  eventReplies : List Waiting
  commandTable : Option RoutingTable
  replies : List Reply
  marks : List Event

/-- Copies of departed nodes are taken out of a routing table. -/
def Forgets : RoutingTable → RoutingTable → Prop :=
  ReflTransGen fun t t' => ∃ now node, t' = Coordinator.forgetCopies now node t

/-- A placing round: what `c` makes of `s₀`, a state made from `base`, before it is
stamped. -/
structure Round (E : Env) (c : Coordinator) (base s₀ s : ClusterState) : Prop where
  from_indices : s₀.indices = base.indices
  from_routing : Forgets base.routing s₀.routing
  from_version : s₀.version = (base.version + 1) % 2 ^ 64
  version : s.version = s₀.version
  indices : s.indices = (c.place E s₀).2.indices
  routing : s.routing = (c.place E s₀).2.routing

/-- The table a `_cluster/reroute` request makes of a routing. -/
def Ordered (E : Env) (r : RoutingTable) (e : Envelope) (t : RoutingTable) : Prop :=
  ∃ (ctx : Context) (drawn : Nat) (w : Work) (said : List Explanation),
    applyCommands ctx E.random (e.body.explain.getD false)
      { table := if e.body.retryFailed.getD false then retryFailed r else r, drawn := drawn }
      e.body.commands [] = .ok (w, said) ∧ t = w.table

namespace Desk

/-- A committed state, as the desk sees it. -/
def applyCommitted (d : Desk) (s : ClusterState) : Desk :=
  if !fresher s.term s.version d.committed.term d.committed.version then d
  else
    let s := Coordinator.settled s
    let d := if fresher s.term s.version d.accepted.term d.accepted.version then
        { d with accepted := s }
      else d
    { d with committed := s }

/-- An answer is owed once a state that carries the event is committed. -/
def due (d : Desk) (w : Waiting) : Bool :=
  w.carriedAt != Coordinator.notCarried && decide (w.carriedAt ≤ d.committed.version)

/-- Those whose event the committed state carries are answered. -/
def answer (d : Desk) : Desk :=
  { d with
    eventReplies := d.eventReplies.filter fun w => !d.due w
    replies := d.replies ++ (d.eventReplies.filter d.due).map (·.reply true) }

/-- Whoever steps down owes nobody an answer any more. -/
def stepDown (d : Desk) : Desk :=
  { d with
    mode := .candidate
    inFlight := none
    eventReplies := []
    replies := d.replies ++ d.eventReplies.map (·.reply false) }

/-- The desk of a node that starts a cluster. -/
def boot (d : Desk) (config : List NodeId) : Desk :=
  { d with
    accepted := { d.accepted with
      lastAcceptedConfig := config, lastCommittedConfig := config }
    committed := { d.committed with
      lastAcceptedConfig := config, lastCommittedConfig := config } }

/-- A state built from `base` and in flight. -/
def publish (d : Desk) (base s : ClusterState) : Desk :=
  { d with
    inFlight := some s
    accepted := s
    marks := d.marks ++ [.published base s] }

/-- A publication is decided: it leaves the desk, with its mark. -/
def decide (d : Desk) (s : ClusterState) : Desk :=
  let d : Desk := { d with inFlight := none, marks := d.marks ++ [.decided s] }
  d.applyCommitted s

end Desk

namespace Coordinator

/-- The desk of a coordinator. -/
def desk (c : Coordinator) : Desk :=
  ⟨c.mode, c.committed, c.accepted, c.publishing.map (·.state), c.terms, c.shardEvents,
    c.eventReplies, c.commandTable, c.out.filterMap Output.reply, c.history.filter Event.shown⟩

end Coordinator

/-- One step of a node at its desk, while it handles `inp`; `r` is the routing it had
committed when it began. -/
inductive Chore (E : Env) (inp : Option Envelope) (r : RoutingTable) : Desk → Desk → Prop where
  | note (d : Desk) (evs : List ShardEvent) (leads : d.mode ≠ .leader → evs = []) :
      Chore E inp r d { d with shardEvents := d.shardEvents ++ evs }
  | take (d : Desk) (e : Envelope) (kind : ReportKind) (ev : ShardEvent) (got : inp = some e)
      (leads : d.mode = .leader) (about : ev.About kind e) :
      Chore E inp r d { d with
        shardEvents := d.shardEvents ++ [ev]
        eventReplies := d.eventReplies ++ [⟨Coordinator.notCarried, e.sender, kind, e.requestId⟩] }
  | outdated (d : Desk) (e : Envelope) (kind : ReportKind) (ev : ShardEvent) (got : inp = some e)
      (leads : d.mode = .leader) (about : ev.About kind e) (late : kind ≠ .started)
      (primary : (r.primary ev.index ev.shard).bind (·.allocationId) = some ev.allocationId) :
      Chore E inp r d { d with replies := d.replies ++ [⟨e.sender, kind, e.requestId, true⟩] }
  | refuse (d : Desk) (e : Envelope) (kind : ReportKind) (got : inp = some e) :
      Chore E inp r d { d with replies := d.replies ++ [⟨e.sender, kind, e.requestId, false⟩] }
  | command (d : Desk) (e : Envelope) (t : RoutingTable) (got : inp = some e)
      (action : e.action = .reroute) (leads : d.mode = .leader)
      (wet : e.body.dryRun.getD false = false) (ordered : Ordered E d.committed.routing e t) :
      Chore E inp r d { d with commandTable := some t }
  | round (d : Desk) (c : Coordinator) (s₀ s : ClusterState) (here : c.desk = d)
      (leads : d.mode = .leader) (idle : d.inFlight = none)
      (made : Round E c d.committed s₀ s) :
      Chore E inp r d ((c.place E s₀).1.desk.publish d.committed s)
  | lead (d : Desk) (c : Coordinator) (s₀ s : ClusterState) (term : Nat) (stood : d.mode = .candidate)
      (here : c.desk = { d with mode := .leader, marks := d.marks ++ [.led term d.accepted] })
      (made : Round E c d.accepted s₀ s) (other : ∀ e, inp = some e → e.action ≠ .reroute) :
      Chore E inp r d ((c.place E s₀).1.desk.publish d.accepted s)
  | decide (d : Desk) (s : ClusterState) (leads : d.mode = .leader) (inFlight : d.inFlight = some s) :
      Chore E inp r d (d.decide s)
  | answer (d : Desk) (leads : d.mode = .leader) (idle : d.inFlight = none) :
      Chore E inp r d d.answer
  | stepDown (d : Desk) : Chore E inp r d d.stepDown
  | follow (d : Desk) (l : NodeId) (stood : d.mode = .candidate) :
      Chore E inp r d { d with mode := .follower l }
  | accept (d : Desk) (s : ClusterState) (l : NodeId) :
      Chore E inp r d { d with accepted := s, mode := .follower l }
  | adopt (d : Desk) : Chore E inp r d (d.applyCommitted d.accepted)
  | joined (d : Desk) (s : ClusterState) (l : NodeId) :
      Chore E inp r d { d.applyCommitted s with mode := .follower l }
  | boot (d : Desk) (config : List NodeId) : Chore E inp r d (d.boot config)

/-- Any number of changes to a desk. -/
abbrev Chores (E : Env) (inp : Option Envelope) (r : RoutingTable) : Desk → Desk → Prop :=
  ReflTransGen (Chore E inp r)

end Velosearch.Cluster

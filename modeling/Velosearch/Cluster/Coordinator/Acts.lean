import Mathlib.Logic.Relation
import Velosearch.Cluster.Coordinator.View

/-!
# Acts: the smallest steps that keep the invariants

Handling one input can do many things at once: count the vote that elects this
node, publish the first state of the term, commit it on its own, and publish again.
Between some of these steps no invariant holds, between others all do. An `Act` is
a step after which they hold again; **`handle_moves`** says that whatever is handled
comes down to a sequence of acts. Every safety result is then one case analysis
over `Act`, and no proof above this file looks at a handler.

Two switches let one relation serve all of them. `M` and `O` ask more of a run than
the code checks: that an answer to a publication carries that publication's own term
and version (`Act.ack`), and that a node is not elected over a state of the current
term that another manager published (`Act.lead`). With both off, the acts are those
of every run.
-/

set_option autoImplicit false

namespace Velosearch.Cluster

open Relation

namespace Core

/-- `join_body`, of the core. -/
def joinBody (k : Core) (dest : NodeId) (held : List Held) : Body :=
  { term := some k.currentTerm
    lastAcceptedTerm := some k.accepted.term
    lastAcceptedVersion := some k.accepted.version
    nodeId := some k.me.id
    node := some k.me
    vote := some (k.lastJoin == some (k.currentTerm, dest))
    held := some held }

/-- The node is one of those the first cluster is to be made of. -/
def Named (k : Core) : Prop :=
  (k.initialNames.any fun n => n == k.me.name || n == k.me.id) = true

/-- The node with its first configuration. -/
def boot (k : Core) (config : List NodeId) : Core :=
  let accepted := { k.accepted with
    lastAcceptedConfig := config, lastCommittedConfig := config }
  let committed := { k.committed with
    lastAcceptedConfig := config, lastCommittedConfig := config }
  { k with
    accepted := accepted
    committed := committed
    durable := { k.durable with accepted := some accepted, committed := some committed } }

/-- What the node accepted last is older than its term, or its own. -/
def OwnBase (k : Core) : Prop :=
  k.accepted.term < k.currentTerm ∨ k.accepted.clusterManager = some k.me.id

/-- The votes once a node's has been counted. -/
def votesAfter (k : Core) (node : DiscoveryNode) : BTreeSet NodeId :=
  Coordinator.votesWith k.me.id (k.joinVotes.insert node.id node)

end Core

def Input.envelope : Input → Option Envelope
  | .message e => some e
  | _ => none

/-- A START_JOIN of the node, for a term. -/
def IsStartJoin (me : NodeId) (t : Nat) (e : Envelope) : Prop :=
  ∃ rid, e = .request .startJoin me rid { term := some t }

/-- The message under way is this one. -/
structure Got (inp : Option Envelope) (e : Envelope) (action : Action) (kind : Kind) :
    Prop where
  handled : inp = some e
  action_eq : e.action = action
  kind_eq : e.kind = kind

/-- A vote this node may count: one that reached it in a join of its term from a
node that has accepted nothing fresher, or its own. -/
structure VoteFor (inp : Option Envelope) (k : Core) (node : DiscoveryNode) : Prop where
  candidate : k.mode = .candidate
  cast : (∃ e, Got inp e .join .request ∧ e.body.term.getD 0 = k.currentTerm ∧
      e.body.vote = some true ∧ e.body.node = some node ∧
      fresher (e.body.lastAcceptedTerm.getD 0) (e.body.lastAcceptedVersion.getD 0)
        k.accepted.term k.accepted.version = false) ∨
    (node = k.me ∧ k.lastJoin = some (k.currentTerm, k.me.id))

/-- A state that was made from another for publication in the node's term. -/
structure MadeFrom (k : Core) (base s : ClusterState) : Prop where
  term : s.term = k.currentTerm
  manager : s.clusterManager = some k.me.id
  version : s.version = (base.version + 1) % 2 ^ 64
  committedConfig : s.lastCommittedConfig = base.lastCommittedConfig

namespace View

/-- A publication goes out to the other nodes of its state. -/
def publish (v : View) (base s : ClusterState) (rid seq : Nat) : View :=
  let others := s.nodes.keys.filter (· != v.core.me.id)
  let v := v.send (others.map fun n =>
    (n, .request .publish v.core.me.id rid (Body.ofState s)))
  (v.withCore { v.core.accept s with
    publishing := some ⟨s, rid, seq, (∅ : BTreeSet NodeId).insert v.core.me.id⟩ }).mark
      [.published base s, .accepted s]

/-- A publication is decided, and its commit goes out. -/
def announce (v : View) (p : Publication) (dests : List NodeId) (rid : Nat) : View :=
  let v := v.withCore { v.core with publishing := none }
  let v := v.send (dests.map fun n => (n, .request .commit v.core.me.id rid
    { term := some p.state.term, version := some p.state.version }))
  v.mark [.decided p.state]

/-- A decided publication is put in force here. -/
def decide (v : View) (p : Publication) (dests : List NodeId) (rid : Nat) : View :=
  (v.announce p dests rid).applyCommitted p.state

end View

/-- One step of a node handling `inp`. -/
inductive Act (M O : Prop) (inp : Option Envelope) : View → View → Prop where
  | join (v : View) (dest : NodeId) (rid : Nat) (held : List Held) :
      Act M O inp v (v.send
        [(dest, .request .join v.core.me.id rid (v.core.joinBody dest held))])
  | term (v : View) (t : Nat) (higher : v.core.currentTerm < t) :
      Act M O inp v (v.withCore (v.core.toTerm t))
  | stepDown (v : View) : Act M O inp v (v.withCore v.core.stepDown)
  | follow (v : View) (l : NodeId) :
      Act M O inp v (v.withCore { v.core with mode := .follower l })
  | vote (v : View) (e : Envelope) (t : Nat) (got : Got inp e .startJoin .request)
      (named : e.body.term = some t) (higher : v.core.currentTerm < t)
      (other : e.sender ≠ v.core.me.id) :
      Act M O inp v ((v.withCore
        { v.core.toTerm t with lastJoin := some (t, e.sender) }).mark [.voted t e.sender])
  | candidacy (v : View) (t : Nat) (msgs : List (NodeId × Envelope))
      (higher : v.core.currentTerm < t)
      (told : ∀ m ∈ msgs, IsStartJoin v.core.me.id t m.2) :
      Act M O inp v (((v.send msgs).withCore
        { v.core.toTerm t with lastJoin := some (t, v.core.me.id) }).mark
          [.voted t v.core.me.id])
  | vain (v : View) (t : Nat) (msgs : List (NodeId × Envelope)) (last : u64Max ≤ t)
      (told : ∀ m ∈ msgs, IsStartJoin v.core.me.id t m.2) :
      Act M O inp v (v.send msgs)
  | count (v : View) (node : DiscoveryNode) (vote : VoteFor inp v.core node) :
      Act M O inp v (v.withCore
        { v.core with joinVotes := v.core.joinVotes.insert node.id node })
  | lead (v : View) (node : DiscoveryNode) (s : ClusterState) (rid seq : Nat)
      (vote : VoteFor inp v.core node)
      (won : electionQuorum v.core.accepted (v.core.votesAfter node) = true)
      (own : O → v.core.OwnBase)
      (made : MadeFrom v.core v.core.accepted s)
      (config : s.lastAcceptedConfig = v.core.accepted.lastAcceptedConfig) :
      Act M O inp v (((v.withCore { v.core with mode := .leader, joinVotes := ∅ }).mark
        [.led v.core.currentTerm v.core.accepted]).publish v.core.accepted s rid seq)
  | next (v : View) (s : ClusterState) (rid seq : Nat)
      (leads : v.core.mode = .leader) (idle : v.core.publishing = none)
      (made : MadeFrom v.core v.core.committed s)
      (config : v.core.committed.lastCommittedConfig ≠ [] → s.lastAcceptedConfig ≠ []) :
      Act M O inp v (v.publish v.core.committed s rid seq)
  | ack (v : View) (e : Envelope) (p : Publication) (got : Got inp e .publish .response)
      (leads : v.core.mode = .leader) (inFlight : v.core.publishing = some p)
      (rid : p.rid = e.requestId)
      (matched : M → e.body.term = some p.state.term ∧ e.body.version = some p.state.version) :
      Act M O inp v (v.withCore { v.core with
        publishing := some { p with acked := p.acked.insert e.sender } })
  | decide (v : View) (p : Publication) (dests : List NodeId) (rid : Nat)
      (leads : v.core.mode = .leader) (inFlight : v.core.publishing = some p)
      (quorum : electionQuorum p.state p.acked = true) :
      Act M O inp v (v.decide p dests rid)
  | accept (v : View) (e : Envelope) (s : ClusterState) (l : NodeId)
      (got : Got inp e .publish .request) (carries : e.body.state = some s)
      (term : s.term = v.core.currentTerm)
      (newer : ¬ (s.term = v.core.accepted.term ∧ s.version ≤ v.core.accepted.version)) :
      Act M O inp v (((v.withCore { v.core.accept s with mode := .follower l }).send
        [(e.sender, e.response v.core.me.id
          { term := some s.term, version := some s.version })]).mark [.accepted s])
  | commit (v : View) (e : Envelope) (got : Got inp e .commit .request)
      (now : e.body.term.getD 0 = v.core.currentTerm)
      (term : v.core.accepted.term = e.body.term.getD 0)
      (version : v.core.accepted.version = e.body.version.getD 0) :
      Act M O inp v (v.applyCommitted v.core.accepted)
  | joined (v : View) (e : Envelope) (s : ClusterState) (got : Got inp e .join .response)
      (carries : e.body.state = some s) (term : s.term = v.core.currentTerm) :
      Act M O inp v ((v.applyCommitted s).withCore
        { (v.applyCommitted s).core with mode := .follower e.sender })
  | late (v : View) (dest : NodeId) (rid : Nat) (leads : v.core.mode = .leader)
      (idle : v.core.publishing = none) :
      Act M O inp v (v.send [(dest, .request .commit v.core.me.id rid
        { term := some v.core.committed.term, version := some v.core.committed.version })])
  | welcome (v : View) (dest : NodeId) (rid : Nat) (leads : v.core.mode = .leader)
      (nodes : v.core.committed.nodes ≠ ∅) :
      Act M O inp v (v.send [(dest,
        (Envelope.request .join v.core.me.id rid {}).response v.core.me.id
          (Body.ofState v.core.committed))])
  | summon (v : View) (dest : NodeId) (rid : Nat) (leads : v.core.mode = .leader) :
      Act M O inp v (v.send [(dest, .request .startJoin v.core.me.id rid
        { term := some v.core.currentTerm })])
  | boot (v : View) (config : List NodeId) (named : v.core.Named)
      (blank : v.core.accepted.lastAcceptedConfig = []) :
      Act M O inp v (v.withCore (v.core.boot config))

/-- Any number of acts. -/
abbrev Moves (M O : Prop) (inp : Option Envelope) : View → View → Prop :=
  ReflTransGen (Act M O inp)

end Velosearch.Cluster

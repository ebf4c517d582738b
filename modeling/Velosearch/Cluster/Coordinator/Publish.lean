import Velosearch.Cluster.Coordinator.Place

/-!
# Being the manager

Publishing, committing and getting elected: `publish`, `commit_publication`,
`next_publication`, `apply_committed`, `become_leader`, `on_join`, `on_start_join`
and `start_election` of `src/cluster/coordinator.rs`.

In the source the first three call one another: a node that is a quorum on its own
commits what it publishes at once, and then looks whether there is more to publish.
Here each takes what it calls as an argument, and `nextPublication` ties the knot
with a bound on how often it goes round.
-/

set_option autoImplicit false

namespace Velosearch.Cluster

open Allocation

namespace Coordinator

variable (env : Env)

/-! ## Publishing and committing -/

/-- A state whose configuration is in force. -/
def settled (s : ClusterState) : ClusterState :=
  { s with lastCommittedConfig := s.lastAcceptedConfig }

/-- A state that is newer than the last is put in force. -/
def applyCommitted (c : Coordinator) (s : ClusterState) : Coordinator :=
  if !fresher s.term s.version c.committed.term c.committed.version then c
  else
    let s := settled s
    let c :=
      if fresher s.term s.version c.accepted.term c.accepted.version then
        { c with accepted := s }.persistAccepted.record (.accepted s)
      else c
    { c with committed := s }.persistCommitted.record (.committed s)

/-- The answers a committed state carries go out. -/
def answerReplies (c : Coordinator) : Coordinator :=
  let carried := fun (w : Waiting) =>
    w.carriedAt != notCarried && decide (w.carriedAt ≤ c.committed.version)
  { c.emits ((c.eventReplies.filter carried).map fun w =>
      .send w.dest (w.envelope.response c.me.id {})) with
    eventReplies := c.eventReplies.filter fun w => !carried w }

/-- The publication is no longer in flight, and those that said they accepted it are
told to commit: a commit that overtook its publication would be refused. -/
def announceCommit (c : Coordinator) (p : Publication) : Coordinator :=
  let c := { c with publishing := none }.rid
  let nodes := p.state.nodes.keys
  let c := c.emits ((nodes.filter fun n => n != c.me.id && p.acked.contains n).map
    fun n => .send n (.request .commit c.me.id c.nextRequest
      { term := some p.state.term, version := some p.state.version }))
  { c with
    lagging := Std.ExtTreeSet.ofList (nodes.filter fun n => !p.acked.contains n) compare
    }.record (.decided p.state)

/-- Commit the publication in flight, and go on with `next`. -/
def commitWith (next : Coordinator → Coordinator) (c : Coordinator) : Coordinator :=
  match c.publishing with
  | none => c
  | some p =>
    let c := (c.announceCommit p).applyCommitted p.state
    let c := (c.applyShards env).answerReplies
    next (c.remark (.committed p.state.term p.state.version p.state.nodes.size
      p.state.lastAcceptedConfig.length))

/-- A state under the node's term and name. -/
def stamp (c : Coordinator) (s : ClusterState) : ClusterState :=
  { s with
    term := c.currentTerm
    clusterManager := some c.me.id
    votingConfigExclusions := c.exclusions }

/-- A publication is under way. -/
def putInFlight (base s : ClusterState) (c : Coordinator) : Coordinator :=
  let seq := (c.publishSeq + 1) % 2 ^ 64
  let c := { c with
    publishSeq := seq
    publishing := some ⟨s, c.nextRequest, seq, (∅ : BTreeSet NodeId).insert c.me.id⟩
    accepted := s }.persistAccepted
  let c := (c.record (.published base s)).record (.accepted s)
  c.emit (.timer .publish c.timings.publishTimeout)

/-- It goes out to the nodes of its state. -/
def launch (base s : ClusterState) (c : Coordinator) : Coordinator :=
  let c := c.rid
  let others := s.nodes.keys.filter (· != c.me.id)
  (c.emits (others.map fun n => .send n
    (.request .publish c.me.id c.nextRequest (Body.ofState s)))).putInFlight base s

/-- Publish a state made from `base`; commit once a quorum of both configurations
has accepted. -/
def publishWith (next : Coordinator → Coordinator) (base s : ClusterState)
    (c : Coordinator) : Coordinator :=
  let s := c.stamp s
  let c := c.launch base s
  if electionQuorum s ((∅ : BTreeSet NodeId).insert c.me.id) then commitWith env next c else c

/-- The copies of a node that left. -/
def forgetCopies (now : Millis) (node : NodeId) (t : RoutingTable) : RoutingTable :=
  { indices := t.indices.map fun _ shards => shards.map fun _ copies => copies.map fun c =>
      if c.node = some node then
        unassign c (unassignedInfo "NODE_LEFT" now "no_attempt" 0)
      else c }

/-- A node that joined is in the state. -/
def admitNode (now : Millis) (s : ClusterState) (entry : NodeId × DiscoveryNode) :
    ClusterState :=
  let (id, j) := entry
  let restarted := ((s.nodes[id]?).map fun held => held.ephemeralId != j.ephemeralId).getD false
  { s with
    routing := if restarted then forgetCopies now id s.routing else s.routing
    nodes := s.nodes.insert id j }

/-- `self.followers.entry(n).or_default()` for every other node of a state. -/
def followAll (c : Coordinator) (s : ClusterState) : Coordinator :=
  let others := s.nodes.keys.filter (· != c.me.id)
  { c with followers := others.foldl (fun f n => f.insertIfNew n {}) c.followers }

/-- The state the joins and departures that waited make of the committed one, with
the voting configuration it calls for; and whether anything asks for it. -/
def nextState (c : Coordinator) : ClusterState × Bool :=
  let asked := !c.waitingJoins.isEmpty || c.republishWanted || !c.shardEvents.isEmpty ||
    c.commandTable.isSome
  let s := c.waitingJoins.toList.foldl (admitNode c.lastWall)
    (c.committed.next (env.random c.drawn))
  let left := c.pendingRemovals.toList.any fun r => s.nodes.contains r
  let s := { s with nodes := c.pendingRemovals.toList.foldl (fun ns r => ns.erase r) s.nodes }
  let config := c.reconfigure s
  ({ s with lastAcceptedConfig := config },
    asked || left || config != s.lastAcceptedConfig)

/-- What has been waiting to be published. -/
def takeWaiting (c : Coordinator) : Coordinator :=
  { c with
    waitingJoins := ∅
    pendingRemovals := ∅
    drawn := c.drawn + 1
    followers := c.pendingRemovals.toList.foldl (fun f r => f.erase r) c.followers }

/-- It is being published. -/
def takeUp (c : Coordinator) : Coordinator :=
  { c.takeWaiting with republishWanted := false }

/-- The next state, if anything asks for one: joins and departures that waited,
metadata that moved, a voting configuration to improve. -/
def nextWith (publish : ClusterState → ClusterState → Coordinator → Coordinator)
    (c : Coordinator) : Coordinator :=
  if c.mode ≠ .leader ∨ c.publishing.isSome then c
  else
    let (s, changed) := c.nextState env
    if !changed then c.takeWaiting
    else
      let placed := c.takeUp.place env s
      publish c.committed placed.2 (placed.1.followAll placed.2)

/-- Look for the next state at most `n` times, one publication each. -/
def nextPublication : Nat → Coordinator → Coordinator
  | 0, c => c
  | n + 1, c => nextWith env (publishWith env (nextPublication n)) c

/-- A publication, with as many after it as there is fuel. -/
def publish (base s : ClusterState) (c : Coordinator) : Coordinator :=
  publishWith env (nextPublication env env.rounds) base s c

/-- A decided publication is committed. -/
def commitPublication (c : Coordinator) : Coordinator :=
  commitWith env (nextPublication env env.rounds) c

/-! ## Getting elected -/

/-- The state a new leader publishes. -/
def firstState (c : Coordinator) : ClusterState :=
  let s := c.accepted.next (env.random c.drawn)
  let joined := c.joinVotes.toList.foldl (fun ns (id, n) => ns.insert id n) s.nodes
  { s with
    clusterManager := some c.me.id
    clusterUuidCommitted := true
    nodes := joined.insert c.me.id c.me }

/-- The node leads. -/
def takeLead (c : Coordinator) : Coordinator :=
  let heard := c.joinVotes.keys.foldl (fun f v => f.insert v ⟨0, c.lastWall⟩)
    (∅ : BTreeMap NodeId FollowerHealth)
  let others := (c.firstState env).nodes.keys.filter (· != c.me.id)
  let c := { c with
    mode := .leader
    leaderHint := some c.me.id
    electionScheduled := false
    electionAttempt := 0
    lagging := ∅
    joinVotes := ∅
    drawn := c.drawn + 1
    followers := others.foldl (fun f n => f.insert n {}) heard }
  (c.record (.led c.currentTerm c.accepted)).remark (.leader c.currentTerm)

/-- It publishes. -/
def becomeLeader (c : Coordinator) : Coordinator :=
  let placed := (c.takeLead env).place env (c.firstState env)
  let d := placed.1.publish env c.accepted placed.2
  let d := d.emit (.timer .followerCheck d.timings.followerCheckInterval)
  if env.metadata.isSome then d.emit (.timer .metadata d.metadataPoll) else d

/-- The node that is followed. -/
def followed (c : Coordinator) : Option NodeId :=
  match c.mode with
  | .follower l => some l
  | _ => none

/-- The votes once another has been counted. -/
def votesAfter (c : Coordinator) (node : DiscoveryNode) : BTreeSet NodeId :=
  votesWith c.me.id (c.joinVotes.insert node.id node)

/-- A vote, which may make a leader. -/
def countVote (c : Coordinator) (node : DiscoveryNode) : Coordinator :=
  let won := c.eligible && electionQuorum c.accepted (c.votesAfter node)
  let c := { c with joinVotes := c.joinVotes.insert node.id node }
  if won then c.becomeLeader env else c

/-- A node joins a leader. -/
def welcome (c : Coordinator) (node : DiscoveryNode) (sender : NodeId) : Coordinator :=
  if sender = c.me.id then c
  else
    let c := { c with
      followers := c.followers.insert node.id ⟨0, c.lastWall⟩
      pendingRemovals := c.pendingRemovals.erase node.id }
    if c.committed.nodes[node.id]? = some node ∧ ¬ c.lagging.contains node.id then
      let c := c.rid
      c.send sender ((Envelope.request .join c.me.id c.nextRequest {}).response c.me.id
        (Body.ofState c.committed))
    else
      { c with
        lagging := c.lagging.erase node.id
        waitingJoins := c.waitingJoins.insert node.id node }.nextPublication env env.rounds

/-- A JOIN of an earlier term. -/
def behind (c : Coordinator) (sender : NodeId) : Coordinator :=
  if c.mode = .leader then
    c.request sender .startJoin { term := some c.currentTerm }
  else c.joinError sender { term := some c.currentTerm, leader := c.followed }

/-- `held.insert(n, h)` where the body has both. -/
def noteHeld (c : Coordinator) (body : Body) : Coordinator :=
  match body.held, body.nodeId with
  | some h, some n => { c with heldBy := c.heldBy.insert n h }
  | _, _ => c

/-- JOIN, from another node or the node's own. -/
def onJoin (c : Coordinator) (body : Body) (sender : NodeId) : Coordinator :=
  let term := body.term.getD 0
  let c := c.noteHeld body
  match body.node with
  | none => c
  | some node =>
    let c := (c.sawTerm env term).learn node
    if term < c.currentTerm then c.behind sender
    else if fresher (body.lastAcceptedTerm.getD 0) (body.lastAcceptedVersion.getD 0)
        c.accepted.term c.accepted.version then
      -- it has accepted something this node has not: it cannot follow this node
      c.joinError sender { term := some c.currentTerm, reason := some "fresher" }
    else match c.mode with
      | .candidate => if body.vote.getD false then c.countVote env node else c
      | .leader => c.welcome env node sender
      | .follower l => c.joinError sender { term := some c.currentTerm, leader := some l }

/-- A term is taken up. -/
def onStartJoin (c : Coordinator) (term : Nat) (sender : NodeId) : Coordinator :=
  if term ≤ c.currentTerm then c
  else
    let c := c.sawTerm env term
    let c := { c with lastJoin := some (term, sender) }.record (.voted term sender)
    if sender = c.me.id then c.onJoin env (c.joinBody env sender) sender
    else c.join env sender

/-- The term an election starts: above every one seen, as far as a `u64` goes. -/
def electionTerm (c : Coordinator) : Nat :=
  min (max c.maxTermSeen c.currentTerm + 1) u64Max

/-- The node stands for election. -/
def startElection (c : Coordinator) : Coordinator :=
  let term := c.electionTerm
  let c := { c with prevoteRid := 0, prevotes := ∅ }.remark (.election term)
  let c := c.everyone.toList.foldl
    (fun c t => c.request t .startJoin { term := some term }) c
  c.onStartJoin env term c.me.id

end Coordinator

end Velosearch.Cluster

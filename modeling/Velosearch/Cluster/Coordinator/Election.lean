import Velosearch.Cluster.Coordinator.Basic

/-!
# Being a candidate

The first half of `impl Coordinator` in `src/cluster/coordinator.rs`: request ids,
what is kept on disk, who is known, moving to a term, discovery, and pre-votes.

A method of the source that takes `&mut self` and returns outputs is a function
from coordinator to coordinator that appends them to `out`. Methods that only read
are predicates and values.
-/

set_option autoImplicit false

namespace Velosearch.Cluster

/-! ## Quorums and freshness -/

/-- More than half of a configuration has voted. -/
def hasQuorum (config : List NodeId) (votes : BTreeSet NodeId) : Bool :=
  !config.isEmpty && decide ((config.countP fun n => votes.contains n) * 2 > config.length)

/-- A vote carries when it does in both configurations of a state. -/
def electionQuorum (state : ClusterState) (votes : BTreeSet NodeId) : Bool :=
  hasQuorum state.lastCommittedConfig votes && hasQuorum state.lastAcceptedConfig votes

/-- `(term, version)` ordering of states. -/
def fresher (aTerm aVersion bTerm bVersion : Nat) : Bool :=
  decide (aTerm > bTerm) || (decide (aTerm = bTerm) && decide (aVersion > bVersion))

namespace Coordinator

variable (env : Env)

/-! ## Outputs -/

/-- One output more. -/
def emit (c : Coordinator) (o : Output) : Coordinator := { c with out := c.out ++ [o] }

/-- Some outputs more. -/
def emits (c : Coordinator) (os : List Output) : Coordinator := { c with out := c.out ++ os }

/-- A line for the log, where one is kept. -/
def remark (c : Coordinator) (n : Note) : Coordinator :=
  if c.notes then c.emit (.note n) else c

/-- The store is told, where there is one. -/
def tell (c : Coordinator) (w : Told) : Coordinator :=
  if env.metadata.isSome then c.emit (.told w) else c

/-- An event for the history. -/
def record (c : Coordinator) (e : Event) : Coordinator :=
  { c with history := c.history ++ [e] }

/-- A message goes out. -/
def send (c : Coordinator) (dest : NodeId) (e : Envelope) : Coordinator :=
  c.emit (.send dest e)

/-- `rid`: the counter is raised, and its new value is the id. -/
def rid (c : Coordinator) : Coordinator :=
  { c with nextRequest := (c.nextRequest + 1) % 2 ^ 64 }

/-- A request goes out under a number of its own. -/
def request (c : Coordinator) (dest : NodeId) (action : Action) (body : Body) :
    Coordinator :=
  let c := c.rid
  c.send dest (.request action c.me.id c.nextRequest body)

/-- A request's own error, sent unasked: the shape `on_join` answers in. -/
def joinError (c : Coordinator) (dest : NodeId) (body : Body) : Coordinator :=
  let c := c.rid
  c.send dest ((Envelope.request .join c.me.id c.nextRequest {}).error c.me.id body)

/-- A message is answered. -/
def respond (c : Coordinator) (e : Envelope) (body : Body) : Coordinator :=
  c.send e.sender (e.response c.me.id body)

/-- A message is answered with an error. -/
def refuse (c : Coordinator) (e : Envelope) (body : Body) : Coordinator :=
  c.send e.sender (e.error c.me.id body)

/-! ## What is kept on disk -/

/-- The term goes to disk. -/
def persistTerm (c : Coordinator) : Coordinator :=
  { c with durable := { c.durable with term := some c.currentTerm } }

/-- What was accepted goes to disk. -/
def persistAccepted (c : Coordinator) : Coordinator :=
  { c with durable := { c.durable with accepted := some c.accepted } }

/-- What was committed goes to disk. -/
def persistCommitted (c : Coordinator) : Coordinator :=
  { c with durable := { c.durable with committed := some c.committed } }

/-! ## Who is known -/

/-- The node may be elected. -/
def eligible (c : Coordinator) : Bool := c.me.isClusterManagerEligible

/-- A node is remembered. -/
def learn (c : Coordinator) (node : DiscoveryNode) : Coordinator :=
  if node.id = c.me.id then c
  else if c.peers[node.id]? = some node then c
  else { c.emit (.peer node.id node.transportAddress) with
    peers := c.peers.insert node.id node }

/-- Every node there is to ask. -/
def everyone (c : Coordinator) : BTreeSet NodeId :=
  (Std.ExtTreeSet.ofList (c.peers.keys ++ c.seeds ++ c.accepted.nodes.keys ++
    c.accepted.lastCommittedConfig ++ c.accepted.lastAcceptedConfig) compare).erase c.me.id

/-- Whether a node is one of this cluster's, rather than one that merely found the
port. -/
def knows (c : Coordinator) (who : NodeId) : Bool :=
  who == c.me.id || c.everyone.contains who

/-! ## Discovery -/

/-- A join carries a vote only when it answers the start-join of the node it goes
to, in this term: one vote per node per term. -/
def joinBody (c : Coordinator) (dest : NodeId) : Body :=
  { term := some c.currentTerm
    lastAcceptedTerm := some c.accepted.term
    lastAcceptedVersion := some c.accepted.version
    nodeId := some c.me.id
    node := some c.me
    vote := some (c.lastJoin == some (c.currentTerm, dest))
    held := some ((env.metadata.map fun m => (m c.drawn).held).getD []) }

/-- A JOIN, with what the node has. -/
def join (c : Coordinator) (dest : NodeId) : Coordinator :=
  c.request dest .join (c.joinBody env dest)

/-- The next election, a little later each time. -/
def scheduleElection (c : Coordinator) : Coordinator :=
  let attempt := (c.electionAttempt + 1) % 2 ^ 32
  let t := c.timings
  let cap := min t.electionMax (t.electionInitial + t.electionBackoff * attempt)
  let (delay, rng) := c.rng.range 0 cap
  { c.emit (.timer .election (t.electionInitial + delay)) with
    electionAttempt := attempt, rng := rng, electionScheduled := true }

/-- The seeds are asked who is there. -/
def dialSeeds (c : Coordinator) : Coordinator :=
  let known := c.peers.values.map (·.transportAddress)
  c.emits ((c.seedHosts.filter fun h =>
    !known.contains h && h != c.me.transportAddress).map .dial)

/-- `if let Some(l) = self.leader_hint.clone() { out.push(self.join(&l)) }` -/
def joinHint (c : Coordinator) : Coordinator :=
  match c.leaderHint with
  | some l => c.join env l
  | none => c

/-- Ask around for peers and for the manager; try to join one that is known; get
an election on the calendar if there is none. -/
def discover (c : Coordinator) : Coordinator :=
  if c.mode ≠ .candidate then c
  else
    let c := c.dialSeeds
    let c := c.everyone.toList.foldl
      (fun c t => c.request t .peers { node := some c.me, nodeId := some c.me.id }) c
    let c := c.joinHint env
    let c :=
      if c.eligible && !c.accepted.lastAcceptedConfig.isEmpty && !c.electionScheduled then
        c.scheduleElection
      else c
    c.emit (.timer .discover c.timings.discoverInterval)

/-- Every answer that is owed becomes a refusal. -/
def disappointReplies (c : Coordinator) : Coordinator :=
  let body : Body := { term := some c.currentTerm, reason := some "no longer the manager" }
  { c.emits (c.eventReplies.map fun w => .send w.dest (w.envelope.error c.me.id body)) with
    eventReplies := [] }

/-- The node gives up leading or following. -/
def becomeCandidate (c : Coordinator) : Coordinator :=
  let c := { c.disappointReplies with mode := .candidate }
  let c := c.tell env .securityLost
  let c := { c with
    publishing := none
    followers := ∅
    pendingChecks := ∅
    leaderCheckOutstanding := none
    leaderMisses := 0
    lastLeaderOk := c.lastWall
    electionAttempt := 0
    electionScheduled := false
    leaderHint := none }
  c.discover env

/-- A higher term makes the node step down. -/
def sawTerm (term : Nat) (c : Coordinator) : Coordinator :=
  let c := { c with maxTermSeen := max c.maxTermSeen term }
  if term ≤ c.currentTerm then c
  else
    let c := { c with currentTerm := term }.persistTerm
    let c := { c with joinVotes := ∅ }
    if c.mode ≠ .candidate then (c.remark (.steppingDown term)).becomeCandidate env else c

/-- The node a name stands for. -/
def namedId (c : Coordinator) (name : String) : Option NodeId :=
  if name = c.me.name ∨ name = c.me.id then some c.me.id
  else (c.peers.values.find? fun p => p.name == name || p.id == name).map (·.id)

/-- `ids.sort(); ids.dedup()` -/
def sortDedup (l : List NodeId) : List NodeId :=
  (Std.ExtTreeSet.ofList l compare).toList

/-- The first configuration, where the nodes it names are all there. -/
def bootstrap (c : Coordinator) : Coordinator :=
  if !c.accepted.lastAcceptedConfig.isEmpty || !c.eligible then c
  else if !c.initialNames.any fun n => n == c.me.name || n == c.me.id then c
  else match c.initialNames.mapM c.namedId with
    | none => c
    | some found =>
      let config := sortDedup found
      let c := { c with
        accepted := { c.accepted with
          lastAcceptedConfig := config, lastCommittedConfig := config }
        committed := { c.committed with
          lastAcceptedConfig := config, lastCommittedConfig := config } }
      c.persistAccepted.persistCommitted.remark (.bootstrapped config)

/-! ## Pre-votes -/

/-- The others are asked whether they would vote. -/
def prevote (c : Coordinator) : Coordinator :=
  let c := { c with
    prevotes := ∅, maxTermSeen := max c.maxTermSeen c.currentTerm }.rid
  let c := { c with prevoteRid := c.nextRequest }
  let asked := c.everyone.toList.filter fun t =>
    ((c.peers[t]?).map (·.isClusterManagerEligible)).getD true
  c.emits (asked.map fun t => .send t
    (.request .preVote c.me.id c.nextRequest { term := some c.currentTerm }))

/-- `votes.insert(self.me.id)` over the keys of a map. -/
def votesWith {V : Type} (me : NodeId) (votes : BTreeMap NodeId V) : BTreeSet NodeId :=
  (Std.ExtTreeSet.ofList votes.keys compare).insert me

/-- Enough of them would. -/
def prevoteQuorum (c : Coordinator) : Bool :=
  electionQuorum c.accepted (votesWith c.me.id c.prevotes)

end Coordinator

end Velosearch.Cluster

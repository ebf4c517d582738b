import Velosearch.Cluster.Coordinator.Publish

/-!
# Messages, timers and the start

`handle` and `on_message` of `src/cluster/coordinator.rs`, one function for each arm
of their matches. The arms that refuse strangers are written with the guard where
the source has it: it is repeated by hand there, and the arms without it matter.
-/

set_option autoImplicit false

namespace Velosearch.Cluster

open Allocation

namespace Coordinator

variable (env : Env)

/-- A node that is not known is refused, and told so. -/
def refuseStranger (c : Coordinator) (e : Envelope) : Coordinator :=
  c.refuse e { term := some c.currentTerm, reason := some "not a node of this cluster" }

/-! ## Discovery and pre-votes -/

/-- The node that is taken for the leader. -/
def leaderNamed (c : Coordinator) : Option NodeId :=
  match c.mode with
  | .leader => some c.me.id
  | .follower l => some l
  | .candidate => c.leaderHint

/-- PEERS: the sender is remembered, and told who is there. -/
def onPeersRequest (c : Coordinator) (e : Envelope) : Coordinator :=
  let c := match e.body.node with
    | some n => if c.knows n.id then c.learn n else c
    | none => c
  c.respond e { peers := c.peers.values ++ [c.me], leader := c.leaderNamed }

/-- A leader that is named is asked to let the node join. -/
def followHint (c : Coordinator) (leader : Option String) : Coordinator :=
  match leader with
  | some l =>
    if l ≠ c.me.id ∧ c.mode = .candidate ∧ c.leaderHint ≠ some l then
      { c with leaderHint := some l }.join env l
    else c
  | none => c

/-- The nodes that are named are remembered. -/
def onPeersResponse (c : Coordinator) (e : Envelope) : Coordinator :=
  (e.body.peers.foldl learn c).followHint env e.body.leader

/-- PRE_VOTE: the node says whether it would vote. -/
def onPreVoteRequest (c : Coordinator) (e : Envelope) : Coordinator :=
  if !c.knows e.sender then c.refuseStranger e
  else
    let c := { c with maxTermSeen := max c.maxTermSeen (e.body.term.getD 0) }
    let leader := match c.mode with
      | .leader => some c.me.id
      | .follower l => some l
      | .candidate => none
    match leader.filter (· != e.sender) with
    | some l => c.refuse e { term := some c.currentTerm, leader := some l }
    | none => c.respond e
        { term := some c.currentTerm
          lastAcceptedTerm := some c.accepted.term
          lastAcceptedVersion := some c.accepted.version }

/-- Enough pre-votes begin an election. -/
def onPreVoteResponse (c : Coordinator) (e : Envelope) : Coordinator :=
  if c.mode ≠ .candidate ∨ e.requestId ≠ c.prevoteRid then c
  else
    let term := e.body.term.getD 0
    let laTerm := e.body.lastAcceptedTerm.getD 0
    let laVersion := e.body.lastAcceptedVersion.getD 0
    let c := { c with maxTermSeen := max c.maxTermSeen term }
    if fresher laTerm laVersion c.accepted.term c.accepted.version then c
    else
      let c := { c with prevotes := c.prevotes.insert e.sender (term, laTerm, laVersion) }
      if c.prevoteQuorum then { c with prevotes := ∅ }.startElection env else c

/-- A pre-vote that was refused for a higher term. -/
def onPreVoteError (c : Coordinator) (e : Envelope) : Coordinator :=
  let c := match e.body.term with
    | some t => { c with maxTermSeen := max c.maxTermSeen t }
    | none => c
  match e.body.leader with
  | some l =>
    if l ≠ c.me.id ∧ c.mode = .candidate then { c with leaderHint := some l }.join env l
    else c
  | none => c

/-! ## Joins -/

/-- START_JOIN: the term is taken up and the vote is sent. -/
def onStartJoinRequest (c : Coordinator) (e : Envelope) : Coordinator :=
  if !c.knows e.sender then c.refuseStranger e
  else (c.respond e {}).onStartJoin env (e.body.term.getD 0) e.sender

/-- `if let Some(t) = … { out.extend(self.saw_term(t, durable)) }` -/
def sawTermIn (c : Coordinator) (body : Body) : Coordinator :=
  match body.term with
  | some t => c.sawTerm env t
  | none => c

/-- A JOIN that was refused, for a term or with a leader's name. -/
def onJoinError (c : Coordinator) (e : Envelope) : Coordinator :=
  let c := c.sawTermIn env e.body
  let forget := if c.leaderHint = some e.sender then { c with leaderHint := none } else c
  match e.body.leader with
  | some l =>
    if l = c.me.id then forget
    else if c.mode = .candidate ∧ c.leaderHint ≠ some l then
      { c with leaderHint := some l }.join env l
    else c
  | none => forget

/-- The leader is checked on from now on. -/
def beginFollowing (c : Coordinator) : Coordinator :=
  { c with
    leaderMisses := 0
    lastLeaderOk := c.lastWall
    leaderCheckOutstanding := none }.emit
      (.timer .leaderCheck c.timings.leaderCheckInterval)

/-- A JOIN that was answered with the state. -/
def onJoinResponse (c : Coordinator) (e : Envelope) : Coordinator :=
  match e.body.state with
  | some s =>
    if s.term = c.currentTerm then
      let c := c.applyCommitted s
      let was := c.mode
      let c := { c with mode := .follower e.sender, leaderHint := some e.sender }
      let c := c.applyShards env
      if was = .candidate then c.beginFollowing else c
    else c
  | none => c

/-! ## Publications -/

/-- A publication is refused. -/
def refusePublish (c : Coordinator) (e : Envelope) (reason : String) : Coordinator :=
  c.refuse e { term := some c.currentTerm, reason := some reason }

/-- Why it is, if it is. -/
def publishRefusal (c : Coordinator) (s : ClusterState) : Option String :=
  if s.term ≠ c.currentTerm then some "term"
  else if s.term = c.accepted.term ∧ s.version ≤ c.accepted.version then some "stale"
  else if c.committed.clusterUuidCommitted ∧ s.clusterUuid ≠ c.committed.clusterUuid then
    some "cluster_uuid"
  else none

/-- A state is accepted and its leader followed. -/
def accept (c : Coordinator) (e : Envelope) (s : ClusterState) : Coordinator :=
  let leader := s.clusterManager.getD e.sender
  let wasFollowing := c.mode = .follower leader
  let c := { c with accepted := s }.persistAccepted.record (.accepted s)
  let c := { c with
    mode := .follower leader
    lastLeaderOk := c.lastWall
    leaderHint := some leader
    electionScheduled := false }
  let c := c.respond e { term := some s.term, version := some s.version }
  if wasFollowing then c else c.beginFollowing

/-- PUBLISH. -/
def onPublishRequest (c : Coordinator) (e : Envelope) : Coordinator :=
  if !c.knows e.sender then c.refuseStranger e
  else match e.body.state with
    | none => c
    | some s =>
      match c.publishRefusal s with
      | some reason => c.refusePublish e reason
      | none => c.accept e s

/-- The publication in flight with one more answer, matched by request id alone. -/
def acknowledged (c : Coordinator) (e : Envelope) : Option Publication :=
  match c.publishing with
  | some p =>
    if p.rid = e.requestId then some { p with acked := p.acked.insert e.sender } else none
  | none => none

/-- A node that answers once the state is decided gets its commit. -/
def lateCommit (c : Coordinator) (e : Envelope) : Coordinator :=
  let term := e.body.term.getD 0
  let version := e.body.version.getD 0
  if c.publishing.isNone ∧ term = c.committed.term ∧ version = c.committed.version ∧
      c.committed.nodes.contains e.sender then
    { c with lagging := c.lagging.erase e.sender }.request e.sender .commit
      { term := some term, version := some version }
  else c

/-- An acknowledgement, which may be the one that decides. -/
def onPublishResponse (c : Coordinator) (e : Envelope) : Coordinator :=
  if c.mode ≠ .leader then c
  else match c.acknowledged e with
    | some p =>
      let c := { c with publishing := some p }
      if electionQuorum p.state p.acked then c.commitPublication env else c.lateCommit e
    | none => c.lateCommit e

/-- A refusal of a publication. -/
def onPublishError (c : Coordinator) (e : Envelope) : Coordinator :=
  let c := c.sawTermIn env e.body
  { c with lagging := c.lagging.insert e.sender }

/-- COMMIT: the state is put in force. -/
def onCommitRequest (c : Coordinator) (e : Envelope) : Coordinator :=
  if !c.knows e.sender then c.refuseStranger e
  else
    let term := e.body.term.getD 0
    let version := e.body.version.getD 0
    if term = c.currentTerm ∧ c.accepted.term = term ∧ c.accepted.version = version then
      let c := { c.applyCommitted c.accepted with lastLeaderOk := c.lastWall }
      let c := (c.respond e {}).applyShards env
      c.remark (.committed term version c.committed.nodes.size
        c.committed.lastAcceptedConfig.length)
    else c

/-! ## Checks -/

/-- A leader's check of a follower. -/
def onFollowerCheckRequest (c : Coordinator) (e : Envelope) : Coordinator :=
  if !c.knows e.sender then c.refuseStranger e
  else
    let term := e.body.term.getD 0
    if term < c.currentTerm then c.refuse e { term := some c.currentTerm }
    else
      let c := c.sawTerm env term
      match c.mode with
      | .candidate =>
        let c := { c with
          mode := .follower e.sender
          leaderHint := some e.sender
          electionScheduled := false }
        (c.respond e {}).beginFollowing
      | .follower l =>
        if l = e.sender then c.respond e {}
        else c.refuse e { term := some c.currentTerm, reason := some "not my manager" }
      | .leader => c.refuse e { term := some c.currentTerm, reason := some "not my manager" }

/-- A follower that is there. -/
def onFollowerCheckResponse (c : Coordinator) (e : Envelope) : Coordinator :=
  match c.pendingChecks[e.requestId]? with
  | none => c
  | some n =>
    let c := { c with pendingChecks := c.pendingChecks.erase e.requestId }
    if c.followers.contains n then
      { c with followers := c.followers.insert n ⟨0, c.lastWall⟩ }
    else c

/-- One that is not, or will not follow. -/
def onFollowerCheckError (c : Coordinator) (e : Envelope) : Coordinator :=
  let c := { c with pendingChecks := c.pendingChecks.filter fun _ n => n != e.sender }
  let misses := (c.timings.followerCheckRetries + 1) % 2 ^ 32
  let c := match c.followers[e.sender]? with
    | some h => { c with followers := c.followers.insert e.sender { h with misses := misses } }
    | none => c
  c.sawTermIn env e.body

/-- A follower's check of its leader. -/
def onLeaderCheckRequest (c : Coordinator) (e : Envelope) : Coordinator :=
  if c.mode = .leader ∧ c.committed.nodes.contains e.sender then c.respond e {}
  else c.refuse e { term := some c.currentTerm, reason := some "not the manager" }

/-- A leader that is there. -/
def onLeaderCheckResponse (c : Coordinator) (e : Envelope) : Coordinator :=
  if c.leaderCheckOutstanding = some e.requestId then
    { c with leaderCheckOutstanding := none, leaderMisses := 0, lastLeaderOk := c.lastWall }
  else c

/-- One that leads no more. -/
def onLeaderCheckError (c : Coordinator) (e : Envelope) : Coordinator :=
  let c := c.sawTermIn env e.body
  if c.mode = .follower e.sender then c.becomeCandidate env else c

/-! ## Shard reports, metadata, commands, departures -/

/-- A request for the leader, to a node that is none. -/
def refuseNotManager (c : Coordinator) (e : Envelope) : Coordinator :=
  c.refuse e
    { term := some c.currentTerm, leader := c.followed, reason := some "not the manager" }

/-- A failure may name the node whose copy is no good rather than the allocation
id; the copy called the primary now is never the one. -/
def failedOn (c : Coordinator) (index : String) (shard : Nat) (named : String) :
    Option String :=
  let primaryAlloc := (c.committed.routing.primary index shard).bind (·.allocationId)
  (((c.committed.routing.shardsOf index).filter fun x =>
    x.shard == shard && x.node == some named).filterMap (·.allocationId)).find?
      fun a => some a != primaryAlloc

/-- The copy a report is about. -/
def reportedId (c : Coordinator) (kind : ReportKind) (e : Envelope) (index : String)
    (shard : Nat) : String :=
  let id := e.body.allocationId.getD ""
  if kind = .failed then
    ((e.body.nodeText.bind fun n => c.failedOn index shard n)).getD id
  else id

/-- A report is taken in and its answer owed. -/
def takeReport (c : Coordinator) (kind : ReportKind) (e : Envelope) (ev : ShardEvent) :
    Coordinator :=
  let waiting : Waiting := ⟨notCarried, e.sender, kind, e.requestId⟩
  let c := { c with
    shardEvents := c.shardEvents ++ [ev]
    republishWanted := true
    eventReplies := c.eventReplies ++ [waiting] }
  c.nextPublication env env.rounds

/-- `SHARD_STARTED`, `SHARD_FAILED` and `SHARD_STALE`. -/
def onShardReport (c : Coordinator) (kind : ReportKind) (e : Envelope) : Coordinator :=
  if c.mode ≠ .leader then c.refuseNotManager e
  else if !c.knows e.sender then c.refuseStranger e
  else
    let index := e.body.index.getD ""
    let shard := e.body.shard.getD 0 % 2 ^ 32
    let id := c.reportedId kind e index shard
    let copies := (c.committed.routing.shardsOf index).filter fun x => x.shard == shard
    let primary := c.committed.routing.primary index shard
    if kind = .started then
      if copies.any fun x => x.allocationId == some id && x.node == some e.sender then
        c.takeReport env kind e (.started index shard id)
      else c.refuse e
        { term := some c.currentTerm
          reason := some "a copy is reported started by the node it was placed on" }
    else if primary.bind (·.allocationId) = some id then
      -- out of date: the roles moved while it was in flight
      (c.respond e {}).nextPublication env env.rounds
    else if !(copies.any fun x => x.node == some e.sender) &&
        primary.bind (·.node) != some e.sender then
      c.refuse e
        { term := some c.currentTerm
          reason := some ("a shard's copies are reported by a node holding one, " ++
            "never by anyone about the primary itself") }
    else if kind = .stale then c.takeReport env kind e (.stale index shard id)
    else c.takeReport env kind e (.failed index shard id (e.body.message.getD ""))

/-- What a data node says of the metadata it holds. -/
def onMetadataReport (c : Coordinator) (e : Envelope) : Coordinator :=
  if c.mode ≠ .leader then
    c.refuse e { term := some c.currentTerm, reason := some "not the manager" }
  else
    let reports := e.body.indices.foldl (fun r m => r.insert m.name (e.sender, m)) c.reports
    let heldBy := match e.body.held with
      | some h => c.heldBy.insert e.sender h
      | none => c.heldBy
    let c := { c with reports := reports, heldBy := heldBy, republishWanted := true }
    (c.respond e {}).nextPublication env env.rounds

/-- What `_cluster/reroute` looks at. -/
def rerouteContext (c : Coordinator) (src : Source) : Context :=
  { nodes := c.committed.nodes
    indices := src.snapshot
    cluster := src.cluster
    primaryHome := src.snapshot.map fun _ _ => c.me.id
    homeHoldsDocuments := Std.ExtTreeSet.ofList
      (src.snapshot.keys.filter fun n => src.holdsDocuments.contains n) compare
    held := c.heldBy
    now := c.lastWall }

/-- REROUTE: the commands wait for the next publication. -/
def onReroute (c : Coordinator) (e : Envelope) : Coordinator :=
  if c.mode ≠ .leader then c.refuseNotManager e
  else match env.metadata with
    | none => c.refuse e { reason := some "no metadata source" }
    | some look =>
      let src := look c.drawn
      let ctx := c.rerouteContext src
      let table := c.committed.routing
      let table := if e.body.retryFailed.getD false then retryFailed table else table
      match applyCommands ctx env.random (e.body.explain.getD false)
          { table := table, drawn := c.drawn } e.body.commands [] with
      | .error why => c.refuse e { refusal := some why }
      | .ok (w, explanations) =>
        -- the state as it would be: the commands, then the deciders over them
        let after := reroute ctx env.random w.table w.drawn
        let c := { c with drawn := after.drawn }
        let c := c.respond e
          { state := some { c.committed with routing := after.table }
            explanations := explanations }
        if e.body.dryRun.getD false then c
        else { c with
          commandTable := some w.table, republishWanted := true }.nextPublication
            env env.rounds

/-- A node leaves. -/
def onLeave (c : Coordinator) (e : Envelope) : Coordinator :=
  if c.mode = .leader then
    ({ c with pendingRemovals := c.pendingRemovals.insert e.sender }.respond e {}).nextPublication
      env env.rounds
  else c

/-! ## `on_message` -/

/-- A message, by what it asks and what it is. -/
def onMessage (c : Coordinator) (e : Envelope) : Coordinator :=
  match e.action, e.kind with
  | .peers, .request => c.onPeersRequest e
  | .peers, .response => c.onPeersResponse env e
  | .preVote, .request => c.onPreVoteRequest e
  | .preVote, .response => c.onPreVoteResponse env e
  | .preVote, .error => c.onPreVoteError env e
  | .startJoin, .request => c.onStartJoinRequest env e
  | .join, .request => c.onJoin env e.body e.sender
  | .join, .error => c.onJoinError env e
  | .join, .response => c.onJoinResponse env e
  | .publish, .request => c.onPublishRequest e
  | .publish, .response => c.onPublishResponse env e
  | .publish, .error => c.onPublishError env e
  | .commit, .request => c.onCommitRequest env e
  | .followerCheck, .request => c.onFollowerCheckRequest env e
  | .followerCheck, .response => c.onFollowerCheckResponse e
  | .followerCheck, .error => c.onFollowerCheckError env e
  | .leaderCheck, .request => c.onLeaderCheckRequest e
  | .leaderCheck, .response => c.onLeaderCheckResponse e
  | .leaderCheck, .error => c.onLeaderCheckError env e
  | .shardStarted, .request => c.onShardReport env .started e
  | .shardFailed, .request => c.onShardReport env .failed e
  | .shardStale, .request => c.onShardReport env .stale e
  | .metadataReport, .request => c.onMetadataReport env e
  | .reroute, .request => c.onReroute env e
  | .leave, .request => c.onLeave env e
  | _, _ => c

/-! ## The start and the timers -/

/-- What was on disk survives a restart; accepted is never older than committed. -/
def restore (c : Coordinator) : Coordinator :=
  let committed := c.durable.committed.getD c.committed
  let accepted := match c.durable.accepted with
    | some s =>
      if fresher s.term s.version committed.term committed.version then s else committed
    | none => committed
  let term := max (c.durable.term.getD c.currentTerm) accepted.term
  { c with
    committed := committed, accepted := accepted, currentTerm := term, maxTermSeen := term }

/-- The store is looked at from time to time. -/
def pollMetadata (c : Coordinator) : Coordinator :=
  if env.metadata.isSome then c.emit (.timer .metadata c.metadataPoll) else c

/-- The process starts with what is on disk. -/
def onStart (c : Coordinator) : Coordinator :=
  let c := c.restore
  let c := c.accepted.nodes.values.foldl learn c
  (c.bootstrap.becomeCandidate env).pollMetadata env

/-- Time to look for the others. -/
def onDiscoverTimer (c : Coordinator) : Coordinator :=
  { c with leaderHint := none }.bootstrap.discover env

/-- Time to stand, where there is no leader. -/
def onElectionTimer (c : Coordinator) : Coordinator :=
  let c := { c with electionScheduled := false }
  if c.mode ≠ .candidate ∨ !c.eligible then c
  else
    let c := c.joinHint env
    let c :=
      if c.accepted.lastAcceptedConfig.isEmpty then c
      else
        let c := c.prevote
        if c.prevoteQuorum then c.startElection env else c
    if c.mode = .candidate then c.scheduleElection else c

/-- A publication has taken too long. -/
def onPublishTimer (c : Coordinator) : Coordinator :=
  match c.publishing with
  | some p =>
    if p.seq = c.publishSeq ∧ c.mode = .leader then
      (c.remark (.publicationTimedOut p.state.version)).becomeCandidate env
    else c
  | none => c

/-- A check that was not answered. -/
def missed (c : Coordinator) (n : NodeId) : Coordinator :=
  let h := (c.followers[n]?).getD {}
  let misses := (h.misses + 1) % 2 ^ 32
  let c := { c with followers := c.followers.insert n { h with misses := misses } }
  if misses > c.timings.followerCheckRetries then
    { c.remark (.removed n) with pendingRemovals := c.pendingRemovals.insert n }
  else c

/-- One follower is checked, or counted as gone. -/
def checkFollower (c : Coordinator) (n : NodeId) : Coordinator :=
  if c.pendingRemovals.contains n then c
  else
    let c := c.rid
    { c with pendingChecks := c.pendingChecks.insert c.nextRequest n }.send n
      (.request .followerCheck c.me.id c.nextRequest { term := some c.currentTerm })

/-- Time to check the followers. -/
def onFollowerCheckTimer (c : Coordinator) : Coordinator :=
  if c.mode ≠ .leader then c
  else
    let unanswered := c.pendingChecks.values
    let c := unanswered.foldl missed { c with pendingChecks := ∅ }
    let c := c.nextPublication env env.rounds
    -- the nodes of the latest publication, committed or on its way
    let c := (c.accepted.nodes.keys.filter (· != c.me.id)).foldl checkFollower c
    c.emit (.timer .followerCheck c.timings.followerCheckInterval)

/-- What the store has changed is to be published. -/
def lookAtStore (c : Coordinator) (src : Source) : Coordinator :=
  let c := { c with republishWanted := c.republishWanted ||
      c.metadataFingerprint env src src.snapshot c.committed.routing != c.lastFingerprint ||
      src.hasTombstones || src.votingExclusions != c.exclusions }
  { c with exclusions := src.votingExclusions }

/-- Time to look at the store. -/
def onMetadataTimer (c : Coordinator) : Coordinator :=
  let c :=
    if c.mode = .leader then
      let c := match env.metadata with
        | some look => c.lookAtStore env (look c.drawn)
        | none => c
      let c := if c.republishWanted && c.publishing.isNone then c.remark .metadataChanged else c
      c.nextPublication env env.rounds
    else c.reportMetadata env
  c.pollMetadata env

/-- Time to look for copies that wait out a delay. -/
def onAllocateTimer (c : Coordinator) : Coordinator :=
  if c.mode ≠ .leader then c
  else { c with republishWanted := true }.nextPublication env env.rounds

/-- Time to check the leader. -/
def onLeaderCheckTimer (c : Coordinator) : Coordinator :=
  match c.mode with
  | .follower leader =>
    let misses := if c.leaderCheckOutstanding.isSome then (c.leaderMisses + 1) % 2 ^ 32
      else c.leaderMisses
    let lost := c.leaderCheckOutstanding.isSome && misses > c.timings.leaderCheckRetries
    let c := { c with leaderMisses := misses }
    if lost then (c.remark (.lostManager leader)).becomeCandidate env
    else
      let c := c.rid
      let c := { c with leaderCheckOutstanding := some c.nextRequest }.send leader
        (.request .leaderCheck c.me.id c.nextRequest {})
      c.emit (.timer .leaderCheck c.timings.leaderCheckInterval)
  | _ => c

/-- A timer, by what it is for. -/
def onTimer (c : Coordinator) : TimerId → Coordinator
  | .discover => c.onDiscoverTimer env
  | .election => c.onElectionTimer env
  | .publish => c.onPublishTimer env
  | .followerCheck => c.onFollowerCheckTimer env
  | .metadata => c.onMetadataTimer env
  | .allocate => c.onAllocateTimer env
  | .leaderCheck => c.onLeaderCheckTimer env
  | .other _ => c

/-- A copy on this node is ready, or has failed. -/
def onShardDone (c : Coordinator) (id : String) (result : Except String Unit) :
    Coordinator :=
  match c.hosted[id]? with
  | none => c
  | some (index, shard) =>
    let c := match result with
      | .ok _ => { c with startedHere := c.startedHere.insert id }.report
          (.started index shard id)
      | .error message =>
        let c := c.remark (.shardFailedHere index shard message)
        { c with
          reported := c.reported.erase id
          startedHere := c.startedHere.erase id }.report (.failed index shard id message)
    c.nextPublication env env.rounds

/-- An input handled; what it put out is in `out` and `history`, which begin
empty. -/
def handle (c : Coordinator) (input : Input) : Coordinator :=
  let c := { c with lastWall := env.wall, out := [], history := [] }
  match input with
  | .start => c.onStart env
  | .message e => c.onMessage env e
  | .timer id => c.onTimer env id
  | .peer node => (c.learn node).bootstrap
  | .shardDone id result => c.onShardDone env id result

end Coordinator

end Velosearch.Cluster

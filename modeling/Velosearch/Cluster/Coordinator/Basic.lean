import Velosearch.Cluster.Allocation.Commands

/-!
# The coordinator's data

What `src/cluster/coordinator.rs` keeps and exchanges, with the envelope of
`transport.rs`, the inputs and outputs of `sim.rs` and the metadata source of
`metadata.rs`.

* A `Coordinator` is the source's struct, its fields gathered by what they serve:
  `Core` is what an election and a publication are decided on, and the only part
  safety speaks of. The durable map the source is handed with every input is a
  field of it.
* A message body is JSON on the wire. Here it is what the handlers read of one,
  each reading an `Option` that is `none` where the key is missing or is not of
  its type; every JSON text gives such a record.
* Outputs are gathered in `out` while an input is handled, in the order the source
  returns them. `history` is no field of the source: it records what happened to
  terms and states while the input was handled, and nothing reads it.
* What the outside answers while an input is handled is an `Env`: the clock, the
  store as a metadata source, the host of the shards, the random source. It is
  chosen anew for every input.
-/

set_option autoImplicit false

namespace Velosearch.Cluster

open Allocation

/-! ## Messages -/

/-- The actions, by the source's constants. -/
inductive Action where
  | peers
  | preVote
  | startJoin
  | join
  | publish
  | commit
  | followerCheck
  | leaderCheck
  | leave
  | shardStarted
  | shardFailed
  | shardStale
  | reroute
  | metadataReport
  | other (name : String)
deriving DecidableEq

/-- A request, the response to it, or an error. -/
inductive Kind where
  | request
  | response
  | error
deriving DecidableEq

/-- An index copy on a node's disk: name, uuid, allocation id. -/
abbrev Held := String × String × String

/-- The fields of a message, each of which may be missing. -/
structure Body where
  term : Option Nat := none
  version : Option Nat := none
  lastAcceptedTerm : Option Nat := none
  lastAcceptedVersion : Option Nat := none
  vote : Option Bool := none
  held : Option (List Held) := none
  nodeId : Option String := none
  node : Option DiscoveryNode := none
  nodeText : Option String := none
  peers : List DiscoveryNode := []
  leader : Option String := none
  reason : Option String := none
  refusal : Option Refusal := none
  index : Option String := none
  shard : Option Nat := none
  allocationId : Option String := none
  message : Option String := none
  indices : List IndexMetadata := []
  commands : List Command := []
  dryRun : Option Bool := none
  explain : Option Bool := none
  retryFailed : Option Bool := none
  state : Option ClusterState := none
  explanations : List Explanation := []
deriving DecidableEq

/-- The body that carries a state. -/
def Body.ofState (s : ClusterState) : Body :=
  { state := some s, term := some s.term, version := some s.version }

/-- One message on the wire. -/
structure Envelope where
  kind : Kind
  requestId : Nat
  action : Action
  sender : NodeId
  body : Body
deriving DecidableEq

namespace Envelope

/-- A request to a node. -/
def request (action : Action) (sender : NodeId) (requestId : Nat) (body : Body) :
    Envelope :=
  ⟨.request, requestId, action, sender, body⟩

/-- The response to a message. -/
def response (e : Envelope) (sender : NodeId) (body : Body) : Envelope :=
  ⟨.response, e.requestId, e.action, sender, body⟩

/-- The error to a message. -/
def error (e : Envelope) (sender : NodeId) (body : Body) : Envelope :=
  ⟨.error, e.requestId, e.action, sender, body⟩

end Envelope

/-! ## Inputs and outputs -/

/-- The timers. -/
inductive TimerId where
  | discover
  | followerCheck
  | leaderCheck
  | metadata
  | election
  | publish
  | allocate
  | other (id : Nat)
deriving DecidableEq

/-- What a coordinator is handed. -/
inductive Input where
  | start
  | message (e : Envelope)
  | timer (id : TimerId)
  | peer (node : DiscoveryNode)
  | shardDone (allocationId : String) (result : Except String Unit)

/-- What it writes to the log. -/
inductive Note where
  | steppingDown (term : Nat)
  | bootstrapped (config : List NodeId)
  | election (term : Nat)
  | leader (term : Nat)
  | leftInSync (index : String) (shard : Nat) (allocationId : String)
  | allocation (note : RerouteNote)
  | allocationCounts (assigned unassigned promoted relocating : Nat)
  | inSync (index : String) (was now : List String)
  | committed (term version nodes config : Nat)
  | publicationTimedOut (version : Nat)
  | removed (node : NodeId)
  | metadataChanged
  | lostManager (leader : NodeId)
  | droppedLocal (index : String) (buried : Bool)
  | sendingCopies (index : String) (shard copies term : Nat)
  | copyKept (index : String) (shard : Nat)
  | shardFailedHere (index : String) (shard : Nat) (message : String)
deriving DecidableEq

/-- What the store and the host are told without being asked anything. -/
inductive Told where
  | securityLost
  | settleSecurity (customs : String) (leading : Bool)
  | applyIndexMetadata (name : String)
  | applyCustoms (customs : String)
  | dropLocal (index : String)
  | noteAllocation (index : String) (shard : Nat) (allocationId : String)
  | resync (index : String) (shard term : Nat) (dest : List NodeId)
  | removeShard (index : String) (shard : Nat)
deriving DecidableEq

/-- What it asks of the node it runs in. -/
inductive Output where
  | send (dest : NodeId) (envelope : Envelope)
  | timer (id : TimerId) (after : Millis)
  | note (note : Note)
  | peer (id : NodeId) (address : String)
  | dial (address : String)
  | told (what : Told)
deriving DecidableEq

/-- What is on disk. -/
structure Durable where
  committed : Option ClusterState := none
  accepted : Option ClusterState := none
  term : Option Nat := none
deriving DecidableEq

/-- What happened while an input was handled; nothing of the source reads it. -/
inductive Event where
  | voted (term : Nat) (dest : NodeId)
  | led (term : Nat) (base : ClusterState)
  | published (base s : ClusterState)
  | accepted (s : ClusterState)
  | committed (s : ClusterState)
  | decided (s : ClusterState)
deriving DecidableEq

/-! ## The outside -/

/-- `MetadataSource`, as it answers at one moment. -/
structure Source where
  snapshot : BTreeMap String IndexMetadata := ∅
  votingExclusions : List (String × String) := []
  clusterSettings : String := "\x7b\"persistent\":\x7b\x7d,\"transient\":\x7b\x7d\x7d"
  cluster : ClusterSettings := {}
  tombstones : List Tombstone := []
  hasTombstones : Bool := false
  holdsDocuments : BTreeSet String := ∅
  customs : String := "\x7b\x7d"
  held : List Held := []

/-- What the outside answers while one input is handled. -/
structure Env where
  wall : Millis := 0
  metadata : Option (Nat → Source) := none
  host : Option (IndexMetadata → ShardRouting → Option NodeId → Except String Bool) := none
  random : Nat → String
  fingerprint : BTreeMap String IndexMetadata → Nat := fun _ => 0
  digest : Nat → List String → Nat := fun _ _ => 0
  fuel : Nat := 7

/-- How many publications may follow one another before the fuel is out. -/
def Env.rounds (env : Env) : Nat := env.fuel + 1

/-! ## The generator

`Rng` of `sim.rs`, splitmix64, and the seed `Coordinator::new` gives it. -/

/-- The generator of a node's own numbers. -/
structure Rng where
  state : UInt64
deriving DecidableEq

namespace Rng

/-- A generator from a seed. -/
def new (seed : UInt64) : Rng := ⟨seed + 0x9E3779B97F4A7C15⟩

/-- The next number. -/
def nextU64 (r : Rng) : UInt64 × Rng :=
  let s := r.state + 0x9E3779B97F4A7C15
  let z := (s ^^^ (s >>> 30)) * 0xBF58476D1CE4E5B9
  let z := (z ^^^ (z >>> 27)) * 0x94D049BB133111EB
  (z ^^^ (z >>> 31), ⟨s⟩)

/-- A number in `lo..=hi`. -/
def range (r : Rng) (lo hi : Nat) : Nat × Rng :=
  if hi ≤ lo then (lo, r)
  else
    let (z, r) := r.nextU64
    (lo + z.toNat % (hi - lo + 1), r)

end Rng

/-- The seed a node's id gives. -/
def seedOf (id : NodeId) : UInt64 :=
  id.toUTF8.data.toList.foldl (fun h b => (h ^^^ b.toUInt64) * 0x100000001b3)
    0xcbf29ce484222325

/-! ## The node -/

/-- The intervals and how often a check may be missed. -/
structure Timings where
  discoverInterval : Millis := 1000
  electionInitial : Millis := 100
  electionBackoff : Millis := 100
  electionMax : Millis := 10000
  followerCheckInterval : Millis := 1000
  followerCheckRetries : Nat := 3
  leaderCheckInterval : Millis := 1000
  leaderCheckRetries : Nat := 3
  publishTimeout : Millis := 30000
deriving DecidableEq

/-- What a node is to the cluster. -/
inductive Mode where
  | candidate
  | follower (leader : NodeId)
  | leader
deriving DecidableEq

/-- What a data node reports of a copy. -/
inductive ShardEvent where
  | started (index : String) (shard : Nat) (allocationId : String)
  | failed (index : String) (shard : Nat) (allocationId : String) (message : String)
  | stale (index : String) (shard : Nat) (allocationId : String)
deriving DecidableEq

/-- The actions a `ShardEvent` is reported under. -/
inductive ReportKind where
  | started
  | failed
  | stale
deriving DecidableEq

/-- The message a report is sent as. -/
def ReportKind.action : ReportKind → Action
  | .started => .shardStarted
  | .failed => .shardFailed
  | .stale => .shardStale

/-- A reporter waiting for the state that carries its event to be committed: the
version of that state, and of the report's envelope what an answer repeats. -/
structure Waiting where
  carriedAt : Nat
  dest : NodeId
  kind : ReportKind
  requestId : Nat
deriving DecidableEq

/-- The message an answer is owed to. -/
def Waiting.envelope (w : Waiting) : Envelope :=
  .request w.kind.action w.dest w.requestId {}

/-- How a follower has been answering. -/
structure FollowerHealth where
  misses : Nat := 0
  lastOk : Millis := 0
deriving DecidableEq

/-- A publication that is not decided yet. -/
structure Publication where
  state : ClusterState
  rid : Nat
  seq : Nat
  acked : BTreeSet NodeId
deriving DecidableEq

/-- What elections and publications are decided by. -/
structure Core where
  me : DiscoveryNode
  initialNames : List String := []
  mode : Mode := .candidate
  currentTerm : Nat := 0
  committed : ClusterState
  accepted : ClusterState
  joinVotes : BTreeMap NodeId DiscoveryNode := ∅
  lastJoin : Option (Nat × NodeId) := none
  publishing : Option Publication := none
  durable : Durable := {}

/-- What a node is started with. -/
structure Setup where
  timings : Timings := {}
  seeds : List NodeId := []
  seedHosts : List String := []
  autoShrink : Bool := true
  notes : Bool := true
  metadataPoll : Millis := 500

/-- What a node that looks for a leader keeps. -/
structure Seeking where
  peers : BTreeMap NodeId DiscoveryNode := ∅
  leaderHint : Option NodeId := none
  rng : Rng := ⟨0⟩
  electionAttempt : Nat := 0
  electionScheduled : Bool := false
  prevoteRid : Nat := 0
  prevotes : BTreeMap NodeId (Nat × Nat × Nat) := ∅
  maxTermSeen : Nat := 0

/-- What a leader keeps. -/
structure Managing where
  followers : BTreeMap NodeId FollowerHealth := ∅
  publishSeq : Nat := 0
  lagging : BTreeSet NodeId := ∅
  pendingChecks : BTreeMap Nat NodeId := ∅
  eventReplies : List Waiting := []
  waitingJoins : BTreeMap NodeId DiscoveryNode := ∅
  pendingRemovals : BTreeSet NodeId := ∅
  lastFingerprint : Nat := 0
  shardEvents : List ShardEvent := []
  terms : BTreeMap String (BTreeMap Nat Nat) := ∅
  commandTable : Option RoutingTable := none
  reports : BTreeMap String (NodeId × IndexMetadata) := ∅
  heldBy : BTreeMap NodeId (List Held) := ∅
  exclusions : List (String × String) := []
  republishWanted : Bool := false

/-- What a follower keeps. -/
structure Following where
  leaderMisses : Nat := 0
  lastLeaderOk : Millis := 0
  leaderCheckOutstanding : Option Nat := none
  resynced : BTreeMap String (BTreeMap Nat Nat) := ∅
  startedHere : BTreeSet String := ∅
  reported : BTreeSet String := ∅
  hosted : BTreeMap String (String × Nat) := ∅
  reportedFp : BTreeMap String Nat := ∅
  customsApplied : Nat := 0
  heldReported : List Held := []

/-- The whole of a coordinator's state. -/
structure Coordinator extends Core, Setup, Seeking, Managing, Following where
  nextRequest : Nat := 1
  lastWall : Millis := 0
  drawn : Nat := 0
  out : List Output := []
  history : List Event := []

/-- `Coordinator::new`; `uuid` is the random one of its empty state. -/
def Coordinator.new (me : DiscoveryNode) (clusterName clusterUuid uuid : String)
    (initialNames : List String) (seeds : List NodeId) : Coordinator where
  me := me
  committed := ClusterState.empty clusterName clusterUuid uuid
  accepted := ClusterState.empty clusterName clusterUuid uuid
  initialNames := initialNames
  seeds := seeds
  rng := Rng.new (seedOf me.id)

end Velosearch.Cluster

import Mathlib.Data.String.Basic
import Velosearch.Search.Doubles

/-!
# The cluster state

`src/cluster/state.rs`, with the settings types of `src/cluster/allocation.rs`
that index metadata is read through. A cluster state is one versioned value that
the cluster manager publishes and every node applies: the nodes, the manager, the
two voting configurations, the metadata of every index, and the routing table.

Three things about the embedding.

* `BTreeMap` and `BTreeSet` are `Std.ExtTreeMap` and `Std.ExtTreeSet`: ordered by
  key, and two of them are equal exactly when they hold the same entries, which is
  what `PartialEq` says of the source's.
* A JSON document that nothing here looks into (mappings, aliases, customs, the
  cluster settings as they are published) is its text. Index settings are what
  allocation reads of them.
* Terms, versions and times are `Nat`; where a `u64` can run out
  (`ClusterState.next`, the next election's term) the arithmetic says so.
-/

set_option autoImplicit false

namespace Velosearch.Cluster

open Search (F64)

/-- An ordered map. -/
abbrev BTreeMap (K V : Type) [Ord K] := Std.ExtTreeMap K V compare

/-- An ordered set. -/
abbrev BTreeSet (K : Type) [Ord K] := Std.ExtTreeSet K compare

/-- A node's identity on the wire: a text, compared as one. -/
abbrev NodeId := String

abbrev Millis := Nat

/-- The largest number of 64 bits. -/
def u64Max : Nat := 2 ^ 64 - 1

/-! ## Nodes -/

/-- A node as the cluster knows it. -/
structure DiscoveryNode where
  id : NodeId
  name : String
  ephemeralId : NodeId
  transportAddress : String
  roles : List String
  attributes : BTreeMap String String
  httpAddress : String
deriving DecidableEq

namespace DiscoveryNode

/-- The node may be elected. -/
def isClusterManagerEligible (n : DiscoveryNode) : Bool :=
  n.roles.any fun r => r == "cluster_manager" || r == "master"

/-- The node holds copies. -/
def isData (n : DiscoveryNode) : Bool :=
  n.roles.any fun r => r == "data" || "data_".toList.isPrefixOf r.toList

end DiscoveryNode

/-! ## Settings allocation reads -/

/-- `cluster.routing.allocation.enable` and the index setting of the same name. -/
inductive Enable where
  | all
  | primaries
  | newPrimaries
  | none
deriving DecidableEq

/-- `cluster.routing.rebalance.enable` and the index setting. -/
inductive RebalanceEnable where
  | all
  | primaries
  | replicas
  | none
deriving DecidableEq

/-- When shards may be moved to even things out. -/
inductive AllowRebalance where
  | always
  | indicesPrimariesActive
  | indicesAllActive
deriving DecidableEq

/-- `include`, `exclude` and `require` filters: attribute to accepted values. -/
structure Filters where
  included : BTreeMap String (List String) := ∅
  excluded : BTreeMap String (List String) := ∅
  required : BTreeMap String (List String) := ∅
deriving DecidableEq

/-- The settings of an index that its placing goes by. -/
structure IndexSettings where
  enable : Option Enable := none
  rebalanceEnable : Option RebalanceEnable := none
  totalShardsPerNode : Int := -1
  filters : Filters := {}
  maxRetries : Nat := 5
  delayedTimeout : Millis := 60000
deriving DecidableEq

/-- Those of the cluster. -/
structure ClusterSettings where
  enable : Enable := .all
  rebalanceEnable : RebalanceEnable := .all
  allowRebalance : AllowRebalance := .indicesAllActive
  clusterConcurrentRebalance : Nat := 2
  nodeConcurrentIncoming : Nat := 2
  nodeConcurrentOutgoing : Nat := 2
  nodeInitialPrimaries : Nat := 4
  nodeInitialReplicas : Nat := 4
  totalShardsPerNode : Int := -1
  awarenessAttributes : List String := []
  awarenessForced : BTreeMap String (List String) := ∅
  filters : Filters := {}
  balanceShard : F64 := F64.nearest (45 / 100)
  balanceIndex : F64 := F64.nearest (55 / 100)
  balanceThreshold : F64 := .fin 1
deriving DecidableEq

/-! ## Shards -/

/-- Where a copy is in its life. -/
inductive ShardState where
  | unassigned
  | initializing
  | started
  | relocating
deriving DecidableEq, Repr

/-- Why a copy has no node, and since when. -/
structure UnassignedInfo where
  reason : String
  atMillis : Millis
  delayed : Bool
  allocationStatus : String
  failedAllocations : Nat
  details : Option String
deriving DecidableEq

/-- An entry of the routing table. -/
structure ShardRouting where
  index : String
  shard : Nat
  primary : Bool
  state : ShardState
  node : Option NodeId
  relocatingNode : Option NodeId
  allocationId : Option String
  unassigned : Option UnassignedInfo
deriving DecidableEq

namespace ShardRouting

/-- `matches!(c.state, Started | Relocating)` -/
def active (c : ShardRouting) : Bool :=
  c.state == .started || c.state == .relocating

end ShardRouting

/-- What the cluster knows about one index, apart from where its shards are. -/
structure IndexMetadata where
  name : String
  uuid : String
  settings : IndexSettings
  numberOfShards : Nat
  numberOfReplicas : Nat
  primaryTerms : BTreeMap Nat Nat
  inSyncAllocations : BTreeMap Nat (List String)
  creationDate : Millis
  text : String
deriving DecidableEq

/-- The routing table: the entries of each shard of each index. -/
structure RoutingTable where
  indices : BTreeMap String (BTreeMap Nat (List ShardRouting)) := ∅
deriving DecidableEq

namespace RoutingTable

/-- The entries of a shard. -/
def copies (t : RoutingTable) (index : String) (shard : Nat) : List ShardRouting :=
  (t.indices[index]?.bind fun s => s[shard]?).getD []

/-- Those of an index. -/
def shardsOf (t : RoutingTable) (index : String) : List ShardRouting :=
  (t.indices[index]?.map fun s => s.values.flatten).getD []

/-- All of them. -/
def all (t : RoutingTable) : List ShardRouting :=
  t.indices.values.flatMap fun s => s.values.flatten

/-- Those on a node. -/
def onNode (t : RoutingTable) (node : NodeId) : List ShardRouting :=
  t.all.filter fun c => c.node == some node

/-- While a primary is moving there are two copies marked primary, and the one
being moved away from is the one that answers. -/
def primary (t : RoutingTable) (index : String) (shard : Nat) : Option ShardRouting :=
  let cs := t.copies index shard
  (cs.find? fun r => r.primary && r.active).or (cs.find? fun r => r.primary)

end RoutingTable

/-- An index that was deleted. -/
structure Tombstone where
  indexName : Option String
  indexUuid : Option String
deriving DecidableEq

/-! ## The whole of it -/

/-- The state of the cluster. -/
structure ClusterState where
  clusterName : String
  clusterUuid : String
  clusterUuidCommitted : Bool
  stateUuid : String
  version : Nat
  term : Nat
  clusterManager : Option NodeId
  nodes : BTreeMap NodeId DiscoveryNode
  lastCommittedConfig : List NodeId
  lastAcceptedConfig : List NodeId
  votingConfigExclusions : List (String × String)
  indices : BTreeMap String IndexMetadata
  routing : RoutingTable
  clusterSettings : String
  graveyard : List Tombstone
  customs : String
deriving DecidableEq

namespace ClusterState

/-- The state a node begins with; `uuid` is the random one it draws. -/
def empty (clusterName clusterUuid uuid : String) : ClusterState where
  clusterName := clusterName
  clusterUuid := clusterUuid
  clusterUuidCommitted := false
  stateUuid := uuid
  version := 0
  term := 0
  clusterManager := none
  nodes := ∅
  lastCommittedConfig := []
  lastAcceptedConfig := []
  votingConfigExclusions := []
  indices := ∅
  routing := {}
  clusterSettings := "\x7b\"persistent\":\x7b\x7d,\"transient\":\x7b\x7d\x7d"
  graveyard := []
  customs := "\x7b\x7d"

/-- A state with a new version and uuid, ready to be changed and published. -/
def next (s : ClusterState) (uuid : String) : ClusterState :=
  { s with version := (s.version + 1) % 2 ^ 64, stateUuid := uuid }

end ClusterState

end Velosearch.Cluster

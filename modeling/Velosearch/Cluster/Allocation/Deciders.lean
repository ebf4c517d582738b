import Velosearch.Cluster.State
import Mathlib.Data.List.Sort

/-!
# The allocation deciders and the balancer's weights

`src/cluster/allocation.rs`, from `Decision` to `ranked`. A decider answers
whether a copy may be put on a node, moved, or left where it is; `overall` is the
worst of the answers. What is kept of a verdict is who gave it and what it was:
the sentence `_cluster/allocation/explain` prints is left out, as nothing here
reads it.

The deciders that always say yes in the source (`node_version`,
`snapshot_in_progress`, `disk_threshold` and their like) are kept in their places,
so that a list of verdicts here is the source's list.
-/

set_option autoImplicit false

namespace Velosearch.Cluster.Allocation

open Search (F64)

/-! ## Verdicts -/

/-- What a decider says. -/
inductive Decision where
  | yes
  | throttle
  | no
deriving DecidableEq, Repr

namespace Decision

/-- The stricter of two decisions. -/
def max : Decision → Decision → Decision
  | .no, _ | _, .no => .no
  | .throttle, _ | _, .throttle => .throttle
  | .yes, .yes => .yes

end Decision

/-- Who speaks, by the name `_cluster/allocation/explain` shows. -/
inductive Decider where
  | dataRole
  | maxRetry
  | replicaAfterPrimaryActive
  | clusterConcurrentRecoveries
  | enable
  | nodeVersion
  | snapshotInProgress
  | restoreInProgress
  | filter
  | searchReplicaAllocation
  | sameShard
  | diskThreshold
  | throttling
  | shardsLimit
  | awareness
  | loadAwareness
  | targetPool
  | remoteStoreMigration
  | rebalanceOnlyWhenActive
  | clusterRebalance
  | concurrentRebalance
deriving DecidableEq, Repr

/-- A decision with the decider whose it is. -/
structure Verdict where
  decider : Decider
  decision : Decision
deriving DecidableEq, Repr

/-- The strictest of the verdicts. -/
def overall (vs : List Verdict) : Decision :=
  vs.foldr (fun v d => Decision.max v.decision d) .yes

theorem overall_no_of_mem {vs : List Verdict} {v : Verdict} (hv : v ∈ vs)
    (hno : v.decision = .no) : overall vs = .no := by
  induction vs with
  | nil => exact absurd hv (by simp)
  | cons a rest ih =>
    rw [overall, List.foldr_cons, ← overall]
    rcases List.mem_cons.mp hv with rfl | hm
    · rw [hno]; rfl
    · rw [ih hm]; cases a.decision <;> rfl

def verdictIf (decider : Decider) (ok : Bool) : Verdict :=
  ⟨decider, if ok then .yes else .no⟩

/-! ## Filters -/

/-- The rest of a text from after the first place `part` stands in it. -/
def findAfter (part : List Char) : List Char → Option (List Char)
  | [] => if part.isEmpty then some [] else none
  | c :: cs => if part.isPrefixOf (c :: cs) then some ((c :: cs).drop part.length)
      else findAfter part cs

/-- The parts of a pattern, found one behind the other. -/
def globParts : List (List Char) → List Char → Bool
  | [], _ => true
  | [part], rest => part.isEmpty || part.isSuffixOf rest
  | part :: parts, rest =>
    if part.isEmpty then globParts parts rest
    else match findAfter part rest with
      | some rest => globParts parts rest
      | none => false

/-- `glob_match`, for a pattern with stars. -/
def globMatch (pattern name : String) : Bool :=
  match pattern.toList.splitOn '*' with
  | [] => true
  | first :: parts =>
    first.isPrefixOf name.toList &&
      (let rest := name.toList.drop first.length
       if parts.isEmpty then rest.isEmpty else globParts parts rest)

/-- What an attribute of a filter stands for on a node. -/
def nodeValue (node : DiscoveryNode) (attr : String) : Option String :=
  if attr = "_name" then some node.name
  else if attr = "_id" then some node.id
  else if attr ∈ ["_ip", "_host_ip", "_publish_ip", "_host"] then
    some (String.ofList (node.transportAddress.toList.takeWhile (· != ':')))
  else node.attributes[attr]?

/-- One of the values asked for is the node's, or a pattern of it. -/
def matchesAny (values : List String) : Option String → Bool
  | some h => values.any fun v => v == h || (v.toList.contains '*' && globMatch v h)
  | none => false

/-- `required`, `included` and `excluded`, against the attributes of a node. -/
def filtersPass (f : Filters) (node : DiscoveryNode) : Bool :=
  (f.required.toList.all fun (attr, values) => matchesAny values (nodeValue node attr)) &&
  (f.included.isEmpty ||
    f.included.toList.any fun (attr, values) => matchesAny values (nodeValue node attr)) &&
  (f.excluded.toList.all fun (attr, values) => !matchesAny values (nodeValue node attr))

/-! ## What is looked at -/

/-- Everything `reroute` looks at besides the table. -/
structure Context where
  nodes : BTreeMap NodeId DiscoveryNode
  indices : BTreeMap String IndexMetadata
  cluster : ClusterSettings := {}
  primaryHome : BTreeMap String NodeId := ∅
  homeHoldsDocuments : BTreeSet String := ∅
  held : BTreeMap NodeId (List (String × String × String)) := ∅
  now : Millis := 0

namespace Context

/-- The nodes a copy could be put on. -/
def dataNodes (ctx : Context) : List DiscoveryNode :=
  ctx.nodes.values.filter (·.isData)

def indexSettings (ctx : Context) (index : String) : IndexSettings :=
  (ctx.indices[index]?.map (·.settings)).getD {}

end Context

/-! ## Can this copy be allocated to this node? -/

/-- How often the copy has failed so far. -/
def failedAllocations (copy : ShardRouting) : Nat :=
  (copy.unassigned.map (·.failedAllocations)).getD 0

/-- `copy.unassigned.map(|u| u.reason == reason).unwrap_or(false)` -/
def reasonIs (copy : ShardRouting) (reason : String) : Bool :=
  (copy.unassigned.map fun u => u.reason == reason).getD false

/-- A copy needs a data node. -/
def dataRoleVerdict (node : DiscoveryNode) : List Verdict :=
  if node.isData then [] else [⟨.dataRole, .no⟩]

/-- A copy that failed too often is left alone. -/
def maxRetryVerdict (is : IndexSettings) (copy : ShardRouting) : Verdict :=
  verdictIf .maxRetry (failedAllocations copy < is.maxRetries)

/-- A replica waits for its primary. -/
def replicaAfterPrimaryVerdict (table : RoutingTable) (copy : ShardRouting) : Verdict :=
  verdictIf .replicaAfterPrimaryActive
    (copy.primary || ((table.primary copy.index copy.shard).map (·.active)).getD false)

/-- What the settings let be allocated at all. -/
def enableVerdict (ctx : Context) (is : IndexSettings) (copy : ShardRouting) : Verdict :=
  verdictIf .enable <| match is.enable.getD ctx.cluster.enable with
    | .all => true
    | .none => false
    | .primaries => copy.primary
    | .newPrimaries => copy.primary && reasonIs copy "INDEX_CREATED"

/-- The filters of the cluster and of the index. -/
def filterVerdict (ctx : Context) (is : IndexSettings) (node : DiscoveryNode) : Verdict :=
  verdictIf .filter (filtersPass ctx.cluster.filters node && filtersPass is.filters node)

/-- Another copy of the shard is on the node already. -/
def twinOn (table : RoutingTable) (copy : ShardRouting) (node : NodeId) : Bool :=
  (table.shardsOf copy.index).any fun c =>
    c.shard == copy.shard && c.state != .unassigned && c.node == some node &&
      c.allocationId != copy.allocationId

/-- No two copies of one shard on one node. -/
def sameShardVerdict (table : RoutingTable) (copy : ShardRouting) (node : NodeId) :
    Verdict :=
  let itself := copy.state != .unassigned && copy.node == some node
  verdictIf .sameShard (!itself && !twinOn table copy node)

/-- Not too many copies on their way to a node, or from it, at once. -/
def throttlingVerdict (ctx : Context) (table : RoutingTable) (copy : ShardRouting)
    (node : NodeId) : Verdict :=
  let here := table.onNode node
  if copy.primary then
    let ongoing := here.countP fun c =>
      c.state == .initializing && c.primary && c.relocatingNode.isNone
    ⟨.throttling, if ongoing ≥ ctx.cluster.nodeInitialPrimaries then .throttle else .yes⟩
  else
    let initial := reasonIs copy "INDEX_CREATED"
    let inLimit :=
      if initial then ctx.cluster.nodeInitialReplicas else ctx.cluster.nodeConcurrentIncoming
    let outLimit :=
      if initial then ctx.cluster.nodeInitialReplicas else ctx.cluster.nodeConcurrentOutgoing
    let incoming := here.countP fun c => c.state == .initializing
    if incoming ≥ inLimit then ⟨.throttling, .throttle⟩
    else match (table.primary copy.index copy.shard).bind (·.node) with
      | some src =>
        let outgoing := table.all.countP fun c =>
          c.state == .initializing && !c.primary &&
            (table.primary c.index c.shard).bind (·.node) == some src
        ⟨.throttling, if outgoing ≥ outLimit then .throttle else .yes⟩
      | none => ⟨.throttling, .yes⟩

/-- Not more shards of an index on a node than asked for. -/
def shardsLimitVerdict (ctx : Context) (is : IndexSettings) (table : RoutingTable)
    (copy : ShardRouting) (node : NodeId) : Verdict :=
  let others := (table.onNode node).filter fun c => c.allocationId != copy.allocationId
  let indexCount : Int := others.countP fun c => c.index == copy.index
  let total : Int := others.length
  verdictIf .shardsLimit <|
    !(decide (is.totalShardsPerNode ≥ 0) && decide (indexCount ≥ is.totalShardsPerNode)) &&
    !(decide (ctx.cluster.totalShardsPerNode ≥ 0) &&
      decide (total ≥ ctx.cluster.totalShardsPerNode))

/-- The node a copy counts for: where it is going, where it is going anywhere. -/
def countedAt (c : ShardRouting) : Option NodeId :=
  (if c.state = .relocating then c.relocatingNode else none).or c.node

/-- Copies spread evenly over the values of each awareness attribute. -/
def awarenessVerdict (ctx : Context) (table : RoutingTable) (copy : ShardRouting)
    (node : DiscoveryNode) : Verdict :=
  let copies := (table.shardsOf copy.index).filter fun c => c.shard == copy.shard
  verdictIf .awareness <| ctx.cluster.awarenessAttributes.all fun attr =>
    match node.attributes[attr]? with
    | none => false
    | some mine =>
      let values := ctx.dataNodes.filterMap (fun n => n.attributes[attr]?) ++
        (ctx.cluster.awarenessForced[attr]?).getD []
      let nValues := max values.dedup.length 1
      let same := copies.countP fun c =>
        c.allocationId != copy.allocationId && c.state != .unassigned &&
          ((countedAt c).bind fun id => ctx.nodes[id]?.bind fun n => n.attributes[attr]?)
            == some mine
      -- `total.div_ceil(n_values)`
      decide (same + 1 ≤ (copies.length + nValues - 1) / nValues)

/-- The verdicts on placing a copy on a node. -/
def canAllocate (ctx : Context) (table : RoutingTable) (copy : ShardRouting)
    (node : DiscoveryNode) : List Verdict :=
  let is := ctx.indexSettings copy.index
  dataRoleVerdict node ++
  [ maxRetryVerdict is copy,
    replicaAfterPrimaryVerdict table copy,
    ⟨.clusterConcurrentRecoveries, .yes⟩,
    enableVerdict ctx is copy,
    ⟨.nodeVersion, .yes⟩,
    ⟨.snapshotInProgress, .yes⟩,
    ⟨.restoreInProgress, .yes⟩,
    filterVerdict ctx is node,
    ⟨.searchReplicaAllocation, .yes⟩,
    sameShardVerdict table copy node.id,
    ⟨.diskThreshold, .yes⟩,
    throttlingVerdict ctx table copy node.id,
    shardsLimitVerdict ctx is table copy node.id,
    awarenessVerdict ctx table copy node,
    ⟨.loadAwareness, .yes⟩,
    ⟨.targetPool, .yes⟩,
    ⟨.remoteStoreMigration, .yes⟩ ]

/-- **What every placement rests on**: a node the deciders do not refuse holds
neither this copy nor another of its shard. -/
theorem no_twin_of_canAllocate {ctx : Context} {table : RoutingTable}
    {copy : ShardRouting} {node : DiscoveryNode}
    (h : overall (canAllocate ctx table copy node) ≠ .no) :
    (copy.state = .unassigned ∨ copy.node ≠ some node.id) ∧
      twinOn table copy node.id = false := by
  have hv : (sameShardVerdict table copy node.id).decision ≠ .no := by
    intro hno
    exact h (overall_no_of_mem (by simp [canAllocate]) hno)
  simp only [sameShardVerdict, verdictIf] at hv
  split at hv
  · rename_i hok
    simpa using hok
  · exact absurd rfl hv

/-! ## May a started copy be moved, or stay? -/

/-- When shards may be moved to even things out. -/
def clusterRebalanceVerdict (ctx : Context) (table : RoutingTable) : Verdict :=
  verdictIf .clusterRebalance <| match ctx.cluster.allowRebalance with
    | .always => true
    | .indicesPrimariesActive => table.all.all fun c => !c.primary || c.active
    | .indicesAllActive =>
      !(table.all.any fun c => c.state == .unassigned) && table.all.all (·.active)

/-- The verdicts on moving a copy to even things out. -/
def canRebalance (ctx : Context) (table : RoutingTable) (copy : ShardRouting) :
    List Verdict :=
  let is := ctx.indexSettings copy.index
  let relocating := table.all.countP fun c => c.state == .relocating
  [ verdictIf .rebalanceOnlyWhenActive
      (((table.shardsOf copy.index).filter fun c => c.shard == copy.shard).all (·.active)),
    clusterRebalanceVerdict ctx table,
    ⟨.concurrentRebalance,
      if relocating ≥ ctx.cluster.clusterConcurrentRebalance then .throttle else .yes⟩,
    verdictIf .enable <| match is.rebalanceEnable.getD ctx.cluster.rebalanceEnable with
      | .all => true
      | .none => false
      | .primaries => copy.primary
      | .replicas => !copy.primary,
    ⟨.snapshotInProgress, .yes⟩ ]

/-- The verdicts on leaving a copy where it is. -/
def canRemain (ctx : Context) (table : RoutingTable) (copy : ShardRouting)
    (node : DiscoveryNode) : List Verdict :=
  let is := ctx.indexSettings copy.index
  dataRoleVerdict node ++
  [ filterVerdict ctx is node,
    shardsLimitVerdict ctx is table copy node.id,
    awarenessVerdict ctx table copy node,
    ⟨.diskThreshold, .yes⟩ ]

/-! ## The balancer -/

/-- The copies on a node, counted once for an index and a role, and those of the index. -/
def weightCounts (table : RoutingTable) (index : String) (node : NodeId) : F64 × F64 :=
  let seen := ((table.onNode node).filter fun c => c.state != .unassigned).map
    (fun c => (c.index, c.primary)) |>.dedup
  (.ofInt seen.length, .ofInt (seen.filter fun p => p.1 == index).length)

/-- A sum in doubles, from the left as the source adds it. -/
def total (counts : List F64) : F64 := counts.foldl (· + ·) (.fin 0)

/-- How far above average a node is, in copies overall and in copies of the
index. -/
def weight (ctx : Context) (table : RoutingTable) (index : String) (node : NodeId) : F64 :=
  let data := ctx.dataNodes
  let n := F64.ofInt (max data.length 1 : ℕ)
  let totalAll := total (data.map fun d => (weightCounts table index d.id).1)
  let totalIndex := total (data.map fun d => (weightCounts table index d.id).2)
  let here := weightCounts table index node
  let theta0 := ctx.cluster.balanceShard / (ctx.cluster.balanceShard + ctx.cluster.balanceIndex)
  let theta1 := ctx.cluster.balanceIndex / (ctx.cluster.balanceShard + ctx.cluster.balanceIndex)
  theta0 * (here.1 - totalAll / n) + theta1 * (here.2 - totalIndex / n)

/-- `a.1.partial_cmp(&b.1).unwrap_or(Equal).then(a.0.id.cmp(&b.0.id))`, not greater. -/
def lighter (a b : DiscoveryNode × F64) : Bool :=
  match (a.2.partialCmp b.2).getD .eq with
  | .lt => true
  | .eq => decide (a.1.id ≤ b.1.id)
  | .gt => false

/-- The data nodes by the weight an index gives them, the lightest first. -/
def ranked (ctx : Context) (table : RoutingTable) (index : String) :
    List (DiscoveryNode × F64) :=
  (ctx.dataNodes.map fun d => (d, weight ctx table index d.id)).insertionSort fun a b =>
    lighter a b

end Velosearch.Cluster.Allocation

import Velosearch.Cluster.Allocation.Deciders

/-!
# `reroute`: the routing table as it should be, from the table as it was

`reroute` of `src/cluster/allocation.rs`, cut at its own six comments:

1. `syncIndices` — indices that came and went; shards that came and went;
2. `departNodes` — copies on nodes that left;
3. `allocatePass` — what is unassigned, primaries first, then replicas;
4. `moveStuck` — what may not stay where it is;
5. `rebalance` — a copy from a heavy node to the lightest, one for each index;
6. `colocate` — every shard of an index sits where its first shard sits.

A pass works on a `Work`: the table, the changes noted so far, and how many
allocation ids have been drawn. `ids` is the random source of `new_allocation_id`,
the `n`-th id it gives being `ids n`.

Entries of a shard are edited at a position, as the source does: `List.modify`,
`List.eraseIdx`, and `swap`. Where the source would panic on a position that is not
there the edit does nothing; no such position comes up.
-/

set_option autoImplicit false

namespace Velosearch.Cluster

namespace RoutingTable

/-- The list of a shard, replaced. -/
def setCopies (t : RoutingTable) (index : String) (shard : Nat)
    (cs : List ShardRouting) : RoutingTable :=
  { indices := t.indices.insert index ((t.indices[index]?.getD ∅).insert shard cs) }

/-- Every shard the table has a list for. -/
def shardKeys (t : RoutingTable) : List (String × Nat) :=
  t.indices.toList.flatMap fun (index, shards) => shards.keys.map fun s => (index, s)

end RoutingTable

namespace Allocation

open Search (F64)

/-! ## What a pass did -/

/-- The sentences `reroute` notes, by what they name. -/
inductive RerouteNote where
  | noneMayTakePrimary (index : String) (shard : Nat) (inSync : Option (List String))
  | primaryPlacedBack (index : String) (node : NodeId)
  | noInSyncCopy (index : String) (inSync : List String)
  | mayNotRemain (index : String) (shard : Nat) (node : NodeId)
deriving DecidableEq

/-- What one pass of `reroute` did, for the notes. -/
structure Changes where
  retired : List (String × Nat × String) := []
  notes : List RerouteNote := []
  assigned : List (String × Nat × Bool × NodeId) := []
  unassigned : List (String × Nat × Bool × String) := []
  promoted : List (String × Nat × NodeId) := []
  relocating : List (String × Nat × Bool × NodeId × NodeId) := []
  nextDelayAt : Option Millis := none
deriving DecidableEq

namespace Changes

/-- Nothing was changed. -/
def isEmpty (c : Changes) : Bool :=
  c.assigned.isEmpty && c.unassigned.isEmpty && c.promoted.isEmpty && c.relocating.isEmpty

end Changes

/-- A table under work: the changes so far and how many ids were drawn. -/
structure Work where
  table : RoutingTable
  changes : Changes := {}
  drawn : Nat

/-- What is noted of a copy that has no node. -/
def unassignedInfo (reason : String) (since : Millis) (status : String) (failed : Nat) :
    UnassignedInfo where
  reason := reason
  atMillis := since
  delayed := false
  allocationStatus := status
  failedAllocations := failed
  details := none

/-- `[T]::swap`. -/
def swap {α : Type} (l : List α) (i j : Nat) : List α :=
  match l[i]?, l[j]? with
  | some a, some b => (l.set i b).set j a
  | _, _ => l

variable (ctx : Context) (ids : Nat → String)

/-- The node is in the cluster. -/
def Context.present (ctx : Context) (node : NodeId) : Bool := ctx.nodes.contains node

/-! ## 1. Indices and shards that came and went -/

/-- A primary that waits for a node. -/
def freshPrimary (name : String) (m : IndexMetadata) (shard : Nat) : ShardRouting where
  index := name
  shard := shard
  primary := true
  state := .unassigned
  node := none
  relocatingNode := none
  allocationId := none
  unassigned := some
    (unassignedInfo "INDEX_CREATED" (max m.creationDate ctx.now) "no_attempt" 0)

/-- A replica that waits for one. -/
def freshReplica (name : String) (m : IndexMetadata) (shard : Nat) (fresh : Bool) :
    ShardRouting where
  index := name
  shard := shard
  primary := false
  state := .unassigned
  node := none
  relocatingNode := none
  allocationId := none
  unassigned := some (unassignedInfo
    (if fresh then "INDEX_CREATED" else "REPLICA_ADDED")
    (if fresh then max m.creationDate ctx.now else ctx.now) "no_attempt" 0)

/-- A new primary's home, if the index has one and the deciders let it be there,
or documents are already written there. -/
def atHome (table : RoutingTable) (name : String) (m : IndexMetadata) (shard : Nat) :
    Option NodeId :=
  match ctx.primaryHome[name]?.bind fun home => ctx.nodes[home]? with
  | some node =>
    if ctx.homeHoldsDocuments.contains name ||
        overall (canAllocate ctx table (freshPrimary ctx name m shard) node) != .no then
      some node.id
    else none
  | none => none

/-- The primary of an index whose documents are on its home already. -/
def startedAtHome (name : String) (shard : Nat) (home : NodeId) (id : String) :
    ShardRouting where
  index := name
  shard := shard
  primary := true
  state := .started
  node := some home
  relocatingNode := none
  allocationId := some id
  unassigned := none

/-- Drop the first `n` elements a predicate picks; what is left, and how many it
did not find. -/
def dropPicked {α : Type} (p : α → Bool) : Nat → List α → List α × Nat
  | 0, l => (l, 0)
  | n, [] => ([], n)
  | n + 1, a :: l =>
    if p a then dropPicked p n l
    else
      let r := dropPicked p (n + 1) l
      (a :: r.1, r.2)

/-- Replicas that are too many go, unassigned ones before assigned ones. -/
def trimReplicas (extra : Nat) (copies : List ShardRouting) : List ShardRouting :=
  let r := dropPicked (fun c => !c.primary && c.state == .unassigned) extra copies.reverse
  (dropPicked (fun c => !c.primary) r.2 r.1).1.reverse

/-- As many replicas as the settings ask for. -/
def matchReplicas (name : String) (m : IndexMetadata) (shard : Nat) (fresh : Bool)
    (copies : List ShardRouting) : List ShardRouting :=
  let have_ := copies.countP fun c => !c.primary
  let copies := copies ++
    List.replicate (m.numberOfReplicas - have_) (freshReplica ctx name m shard fresh)
  if have_ > m.numberOfReplicas then trimReplicas (have_ - m.numberOfReplicas) copies
  else copies

/-- A primary where there is none, and the replicas. -/
def syncShard (table : RoutingTable) (name : String) (m : IndexMetadata) (w : Work)
    (shard : Nat) : Work :=
  let fresh := !((w.table.indices[name]?.getD ∅).contains shard)
  let copies := w.table.copies name shard
  if copies.all fun c => !c.primary then
    match atHome ctx table name m shard with
    | some home =>
      { w with
        table := w.table.setCopies name shard
          (matchReplicas ctx name m shard fresh
            (startedAtHome name shard home (ids w.drawn) :: copies))
        drawn := w.drawn + 1 }
    | none =>
      { w with
        table := w.table.setCopies name shard
          (matchReplicas ctx name m shard fresh (freshPrimary ctx name m shard :: copies)) }
  else
    { w with
      table := w.table.setCopies name shard (matchReplicas ctx name m shard fresh copies) }

/-- `t.indices.entry(name).or_default()` -/
def withIndex (t : RoutingTable) (name : String) : RoutingTable :=
  { indices := t.indices.insert name (t.indices[name]?.getD ∅) }

/-- `shards.retain(|s, _| *s < number_of_shards)` -/
def retainShards (t : RoutingTable) (name : String) (n : Nat) : RoutingTable :=
  { indices := t.indices.insert name
      ((t.indices[name]?.getD ∅).filter fun s _ => decide (s < n)) }

/-- Every shard of an index, and none beyond. -/
def syncIndex (table : RoutingTable) (w : Work) (name : String) (m : IndexMetadata) :
    Work :=
  let w := { w with table := withIndex w.table name }
  let w := (List.range m.numberOfShards).foldl (syncShard ctx ids table name m) w
  { w with table := retainShards w.table name m.numberOfShards }

/-- Every index of the cluster, and none beyond. -/
def syncIndices (w : Work) : Work :=
  let kept := { w with
    table := { indices := w.table.indices.filter fun n _ => ctx.indices.contains n } }
  ctx.indices.toList.foldl (fun acc (name, m) => syncIndex ctx ids w.table acc name m) kept

/-! ## 2. Copies on nodes that left -/

/-- A source whose target's node has left is started again. -/
def targetLeft (c : ShardRouting) : ShardRouting :=
  if c.state = .relocating ∧ (c.relocatingNode.map fun r => !ctx.present r).getD false then
    { c with state := .started, relocatingNode := none }
  else c

/-- A target whose node or whose source's node has left. -/
def stranded (c : ShardRouting) : Bool :=
  c.state == .initializing && c.relocatingNode.isSome &&
    ((c.node.map fun n => !ctx.present n).getD true ||
      (c.relocatingNode.map fun r => !ctx.present r).getD true)

/-- The copy is on a node that has left. -/
def onLeft (c : ShardRouting) : Bool :=
  c.state != .unassigned && (c.node.map fun n => !ctx.present n).getD false

/-- The copy has no node any more. -/
def unassign (c : ShardRouting) (info : UnassignedInfo) : ShardRouting :=
  { c with
    state := .unassigned, node := none, relocatingNode := none, allocationId := none
    unassigned := some info }

/-- A copy on a lost node is unassigned, and waits. -/
def nodeLeft (is : IndexSettings) (c : ShardRouting) : ShardRouting :=
  if onLeft ctx c then
    unassign c { unassignedInfo "NODE_LEFT" ctx.now "no_attempt" 0 with
      delayed := !c.primary && decide (is.delayedTimeout > 0) }
  else c

/-- An active replica that is in sync. -/
def mayTakeOver (inSync : Option (List String)) (c : ShardRouting) : Bool :=
  !c.primary && c.active &&
    (c.allocationId.map fun a => match inSync with
      | none => true
      | some set => set.contains a).getD false

/-- The replica at `ri` becomes the primary, the lost one at `pi` a replica. -/
def takeOver (copies : List ShardRouting) (pi ri : Nat) : List ShardRouting :=
  let copies := copies.modify ri fun c =>
    { c with primary := true, relocatingNode := none, state := .started }
  let copies := copies.modify pi fun c => { c with primary := false }
  swap copies 0 ri

/-- What is noted of a primary nobody can take over from. -/
def noValidCopy (c : ShardRouting) : ShardRouting :=
  if reasonIs c "NODE_LEFT" then
    { c with unassigned := c.unassigned.map fun u =>
        { u with allocationStatus := "no_valid_shard_copy" } }
  else c

/-- The list of a shard without the nodes that left. -/
def withoutLeft (name : String) (copies : List ShardRouting) : List ShardRouting :=
  ((copies.map (targetLeft ctx)).filter fun c => !stranded ctx c).map
    (nodeLeft ctx (ctx.indexSettings name))

/-- The first replica that may takes over from a primary that has no node. -/
def promote (inSync : Option (List String)) (copies : List ShardRouting) :
    List ShardRouting × Option NodeId :=
  match copies.findIdx? fun c => c.primary && c.state == .unassigned with
  | none => (copies, none)
  | some pi =>
    match copies.findIdx? (mayTakeOver inSync) with
    | some ri => (takeOver copies pi ri, (copies[ri]?).bind (·.node))
    | none => (copies.modify pi noValidCopy, none)

/-- The in-sync ids of a shard. -/
def inSyncOf (name : String) (shard : Nat) : Option (List String) :=
  ctx.indices[name]?.bind fun m => m.inSyncAllocations[shard]?

/-- What a departure changed, as the changes list it. -/
def departChanges (name : String) (shard : Nat) (copies : List ShardRouting)
    (ch : Changes) : Changes :=
  let kept := (copies.map (targetLeft ctx)).filter fun c => !stranded ctx c
  let gone := kept.filter (onLeft ctx)
  let after := withoutLeft ctx name copies
  let taken := (promote (inSyncOf ctx name shard) after).2
  let deposed := ((gone.filter (·.primary)).getLast?).bind (·.allocationId)
  let replicas := (gone.filter fun c => !c.primary).filterMap (·.allocationId)
  let retired := replicas ++ (if taken.isSome then deposed.toList else [])
  let lost := after.find? fun c => c.primary && c.state == .unassigned
  let stuck := (lost.map fun c => reasonIs c "NODE_LEFT").getD false && taken.isNone &&
    after.any fun c => !c.primary && c.active
  { ch with
    retired := ch.retired ++ retired.map fun a => (name, shard, a)
    unassigned := ch.unassigned ++ gone.map fun c => (name, shard, c.primary, "NODE_LEFT")
    promoted := ch.promoted ++ taken.toList.map fun n => (name, shard, n)
    notes := ch.notes ++
      if stuck then [.noneMayTakePrimary name shard (inSyncOf ctx name shard)] else [] }

/-- One shard without the nodes that left. -/
def departShard (w : Work) (key : String × Nat) : Work :=
  let copies := w.table.copies key.1 key.2
  { w with
    table := w.table.setCopies key.1 key.2
      (promote (inSyncOf ctx key.1 key.2) (withoutLeft ctx key.1 copies)).1
    changes := departChanges ctx key.1 key.2 copies w.changes }

/-- Every shard. -/
def departNodes (w : Work) : Work :=
  w.table.shardKeys.foldl (departShard ctx) w

/-! ## 3. Allocate what is unassigned -/

/-- `u.delayed = false`, where there is a `u`. -/
def undelayed (u : Option UnassignedInfo) : Option UnassignedInfo :=
  u.map fun u => { u with delayed := false }

/-- The copy on a node, under an id. -/
def assignTo (node : NodeId) (id : String) (c : ShardRouting) : ShardRouting :=
  { c with
    state := .initializing, node := some node, relocatingNode := none
    allocationId := some id, unassigned := undelayed c.unassigned }

/-- The node that holds the primary's documents, going by the in-sync ids. -/
def keeper (t : RoutingTable) (name : String) (copy : ShardRouting)
    (inSync : List String) : Option NodeId :=
  let uuid := ((ctx.indices[name]?).map (·.uuid)).getD ""
  (ctx.dataNodes.find? fun n =>
    (((ctx.held[n.id]?).map fun h => h.any fun (hn, hu, ha) =>
      hn == name && hu == uuid && inSync.contains ha).getD false) &&
      overall (canAllocate ctx t copy n) == .yes).map (·.id)

/-- What is noted of a copy that no node may take. -/
def refusedStatus (throttled : Bool) (primary : Bool) (u : UnassignedInfo) : String :=
  if throttled then "throttled"
  else if ctx.dataNodes.isEmpty || !primary then "no_attempt"
  else if u.allocationStatus = "no_valid_shard_copy" then "no_valid_shard_copy"
  else "deciders_no"

/-- A primary that was somewhere before. -/
def lostPrimary (copy : ShardRouting) : Bool :=
  let reason := (copy.unassigned.map (·.reason)).getD ""
  copy.primary && reason != "INDEX_CREATED" && reason != "FORCED_EMPTY_PRIMARY"

/-- When a copy that waits out its delay may be placed. -/
def readyAt (name : String) (copy : ShardRouting) : Option Millis :=
  copy.unassigned.bind fun u =>
    if u.delayed then some (u.atMillis + (ctx.indexSettings name).delayedTimeout) else none

/-- A lost primary goes back to where its documents are. -/
def restorePrimary (w : Work) (name : String) (shard i : Nat) (copy : ShardRouting) :
    Work :=
  let copies := w.table.copies name shard
  let inSync := (inSyncOf ctx name shard).getD []
  match keeper ctx w.table name copy inSync with
  | some node =>
    { w with
      table := w.table.setCopies name shard (copies.modify i (assignTo node (ids w.drawn)))
      drawn := w.drawn + 1
      changes := { w.changes with
        notes := w.changes.notes ++ [.primaryPlacedBack name node]
        assigned := w.changes.assigned ++ [(name, shard, true, node)] } }
  | none =>
    { w with
      table := w.table.setCopies name shard (copies.modify i fun c =>
        { c with unassigned := c.unassigned.map fun u =>
            { u with allocationStatus := "no_valid_shard_copy" } })
      changes := { w.changes with
        notes := w.changes.notes ++ [.noInSyncCopy name inSync] } }

/-- Any other copy goes to the lightest node that may take it. -/
def placeCopy (w : Work) (name : String) (shard i : Nat) (copy : ShardRouting) : Work :=
  let copies := w.table.copies name shard
  let order := (ranked ctx w.table name).map (·.1)
  let answer := fun n => overall (canAllocate ctx w.table copy n)
  match order.find? fun n => answer n == .yes with
  | some node =>
    { w with
      table := w.table.setCopies name shard
        (copies.modify i (assignTo node.id (ids w.drawn)))
      drawn := w.drawn + 1
      changes := { w.changes with
        assigned := w.changes.assigned ++ [(name, shard, copy.primary, node.id)] } }
  | none =>
    let throttled := order.any fun n => answer n == .throttle
    { w with
      table := w.table.setCopies name shard (copies.modify i fun c =>
        { c with unassigned := c.unassigned.map fun u =>
            { u with
              delayed := false
              allocationStatus := refusedStatus ctx throttled copy.primary u } }) }

/-- One copy that waits, in its turn. -/
def allocateCopy (w : Work) (place : String × Nat × Nat) : Work :=
  let (name, shard, i) := place
  match (w.table.copies name shard)[i]? with
  | none => w
  | some copy =>
    if lostPrimary copy then restorePrimary ctx ids w name shard i copy
    else match readyAt ctx name copy with
      | some ready =>
        if ctx.now < ready then
          { w with changes := { w.changes with
              nextDelayAt := some ((w.changes.nextDelayAt.map (min · ready)).getD ready) } }
        else placeCopy ctx ids w name shard i copy
      | none => placeCopy ctx ids w name shard i copy

/-- The places of the copies of one role that are unassigned. -/
def pending (t : RoutingTable) (pass : Bool) : List (String × Nat × Nat) :=
  t.shardKeys.flatMap fun (name, shard) =>
    (t.copies name shard).zipIdx.filterMap fun (c, i) =>
      if c.primary == pass && c.state == .unassigned then some (name, shard, i) else none

/-- The primaries that wait, or the replicas. -/
def allocatePass (pass : Bool) (w : Work) : Work :=
  (pending w.table pass).foldl (allocateCopy ctx ids) w

/-! ## 4. Move what may not stay where it is -/

/-- The target of a move. -/
def moveTarget (copy : ShardRouting) (source dest : NodeId) (id : String) :
    ShardRouting where
  index := copy.index
  shard := copy.shard
  primary := copy.primary
  state := .initializing
  node := some dest
  relocatingNode := some source
  allocationId := some id
  unassigned := none

/-- Its source. -/
def moveSource (dest : NodeId) (c : ShardRouting) : ShardRouting :=
  { c with state := .relocating, relocatingNode := some dest }

/-- A copy starts on its way: the entry at `pos` relocates, and its target is
added at the end. -/
def startMove (copies : List ShardRouting) (pos : Nat) (copy : ShardRouting)
    (source dest : NodeId) (id : String) : List ShardRouting :=
  copies.modify pos (moveSource dest) ++ [moveTarget copy source dest id]

/-- A move begins: the source is on its way and the target at the end of the list. -/
def relocate (w : Work) (name : String) (copy : ShardRouting) (source dest : NodeId) : Work :=
  let copies := w.table.copies name copy.shard
  match copies.findIdx? fun c => c.allocationId == copy.allocationId with
  | none => w
  | some pos =>
    { w with
      table := w.table.setCopies name copy.shard
        (startMove copies pos { copy with index := name } source dest (ids w.drawn))
      drawn := w.drawn + 1
      changes := { w.changes with
        relocating := w.changes.relocating ++
          [(name, copy.shard, copy.primary, source, dest)] } }

/-- The copy's node has no data role or fails the filters. -/
def mayNotRemain (t : RoutingTable) (c : ShardRouting) : Bool :=
  match c.node.bind fun n => ctx.nodes[n]? with
  | some node => (canRemain ctx t c node).any fun v =>
      v.decision == .no && (v.decider == .dataRole || v.decider == .filter)
  | none => false

/-- One copy that has to move, to the lightest node that may take it. -/
def moveOne (name : String) (w : Work) (copy : ShardRouting) : Work :=
  match copy.node with
  | none => w
  | some source =>
    match ((ranked ctx w.table name).map (·.1)).find? fun n =>
        n.id != source && overall (canAllocate ctx w.table copy n) == .yes with
    | some n => relocate ids w name copy source n.id
    | none =>
      { w with changes := { w.changes with
          notes := w.changes.notes ++ [.mayNotRemain name copy.shard source] } }

/-- The copies of an index's first shard that have to move. -/
def moveStuckOf (w : Work) (name : String) : Work :=
  let stuck := (w.table.shardsOf name).filter fun c =>
    c.shard == 0 && c.state == .started && mayNotRemain ctx w.table c
  stuck.foldl (moveOne ctx ids name) w

/-- Those of every index. -/
def moveStuck (w : Work) : Work :=
  w.table.indices.keys.foldl (moveStuckOf ctx ids) w

/-! ## 5. Rebalance -/

/-- The move makes things better, and not merely different. -/
def worthMoving (t : RoutingTable) (name : String) (light heavy : NodeId) (lw hw : F64) :
    Bool :=
  let afterLight := weight ctx t name light + .fin 1
  let afterHeavy := weight ctx t name heavy - .fin 1
  !(hw - lw).le (afterHeavy - afterLight).abs

/-- The move that evens an index out, where one is worth making. -/
def rebalanceMove (t : RoutingTable) (name : String) :
    Option (ShardRouting × NodeId × NodeId) :=
  match ranked ctx t name with
  | [] | [_] => none
  | (light, lw) :: rest =>
    let heavies := ((light, lw) :: rest).reverse.takeWhile fun (heavy, hw) =>
      heavy.id != light.id && !(hw - lw).le ctx.cluster.balanceThreshold
    (heavies.flatMap fun (heavy, hw) =>
      ((t.onNode heavy.id).filter fun c => c.index == name && c.state == .started).filterMap
        fun copy =>
          if overall (canRebalance ctx t copy) == .yes &&
              overall (canAllocate ctx t copy light) == .yes &&
              worthMoving ctx t name light.id heavy.id lw hw then
            some (copy, heavy.id, light.id)
          else none).head?

/-- It is begun. -/
def rebalanceOf (w : Work) (name : String) : Work :=
  match rebalanceMove ctx w.table name with
  | some (copy, heavy, light) => relocate ids w name copy heavy light
  | none => w

/-- For every index, one move at most. -/
def rebalance (w : Work) : Work :=
  w.table.indices.keys.foldl (rebalanceOf ctx ids) w

/-! ## 6. Every shard sits where its first shard sits -/

/-- The copy sits where its model does. -/
def sameSeat (model c : ShardRouting) : Bool :=
  c.node == model.node && c.state == model.state && c.primary == model.primary

/-- An entry put where its model is; `id` is drawn for it if it needs one. -/
def follow (model c : ShardRouting) (id : String) : ShardRouting :=
  { c with
    primary := model.primary
    state := model.state
    node := model.node
    relocatingNode := model.relocatingNode
    unassigned := model.unassigned
    allocationId :=
      if model.node.isNone then none
      else if c.allocationId.isNone && model.allocationId.isSome then some id
      else c.allocationId }

/-- A copy for a shard that has fewer than the first. -/
def gained (name : String) (shard : Nat) (model : ShardRouting) (id : String) :
    ShardRouting :=
  { model with
    index := name, shard := shard, allocationId := model.allocationId.map fun _ => id }

/-- The entries of a shard laid beside those of the first one, with the number of
ids drawn so far. -/
def alignCopies (name : String) (shard : Nat) : Nat → List ShardRouting →
    List ShardRouting → List ShardRouting × Nat
  | drawn, [], _ => ([], drawn)
  | drawn, model :: first, [] =>
    let c := gained name shard model (ids drawn)
    let r := alignCopies name shard
      (if model.allocationId.isSome then drawn + 1 else drawn) first []
    (c :: r.1, r.2)
  | drawn, model :: first, c :: copies =>
    if sameSeat model c then
      let r := alignCopies name shard drawn first copies
      (c :: r.1, r.2)
    else
      let draws := c.allocationId.isNone && model.allocationId.isSome
      let r := alignCopies name shard (if draws then drawn + 1 else drawn) first copies
      (follow model c (ids drawn) :: r.1, r.2)

/-- The copies that are given another node. -/
def reseated (name : String) (shard : Nat) (first copies : List ShardRouting) :
    List (String × Nat × Bool × NodeId) :=
  (first.zip copies).filterMap fun (model, c) =>
    if sameSeat model c || c.node == model.node then none
    else model.node.map fun n => (name, shard, model.primary, n)

/-- One shard, seated as the first one is. -/
def colocateShard (name : String) (first : List ShardRouting) (w : Work) (shard : Nat) :
    Work :=
  let copies := w.table.copies name shard
  let r := alignCopies ids name shard w.drawn first copies
  { w with
    table := w.table.setCopies name shard r.1
    drawn := r.2
    changes := { w.changes with
      assigned := w.changes.assigned ++ reseated name shard first copies } }

/-- Every shard of an index but its first. -/
def colocateIndex (w : Work) (name : String) : Work :=
  match (w.table.indices[name]?).bind fun shards => shards[0]? with
  | none => w
  | some first =>
    (((w.table.indices[name]?.getD ∅).keys).filter (· != 0)).foldl
      (colocateShard ids name first) w

/-- Of every index. -/
def colocate (w : Work) : Work :=
  w.table.indices.keys.foldl (colocateIndex ids) w

/-! ## The whole -/

/-- The table the co-location pass is handed: everything before it. -/
def placed (table : RoutingTable) (drawn : Nat) : Work :=
  let w : Work := { table := table, drawn := drawn }
  let w := departNodes ctx (syncIndices ctx ids w)
  let w := allocatePass ctx ids false (allocatePass ctx ids true w)
  rebalance ctx ids (moveStuck ctx ids w)

/-- `reroute`: the passes in the source's order. -/
def reroute (table : RoutingTable) (drawn : Nat) : Work :=
  colocate ids (placed ctx ids table drawn)

end Allocation

end Velosearch.Cluster

import Velosearch.Cluster.Allocation.Reroute

/-!
# Shard events and `_cluster/reroute` commands

The rest of what edits a routing table in `src/cluster/allocation.rs`: what data
nodes report of their copies (`shard_started`, `shard_failed`, `shard_stale`),
`retry_failed`, and `apply_commands`.

A command is what `apply_commands` reads of its JSON; an argument left out is the
default the source gives it. A refusal keeps what the sentence names, not the
sentence. With `explain` a refusal becomes an explanation; `Outcome.failed` is the
kind that fails the request either way.
-/

set_option autoImplicit false

namespace Velosearch.Cluster.Allocation

/-! ## What data nodes report -/

/-- What `shard_started` answers: the id that retires, and whether a primary was forced. -/
structure Started where
  retired : Option String
  forcedPrimary : Bool
deriving DecidableEq

/-- The copy an allocation id names, by its position. -/
def placeOf (copies : List ShardRouting) (allocationId : String) : Option Nat :=
  copies.findIdx? fun c => c.allocationId == some allocationId

/-- The source of a relocation, by the node it is on. -/
def sourceOf (copies : List ShardRouting) (source : Option NodeId) : Option Nat :=
  copies.findIdx? fun c => c.state == .relocating && c.node == source

/-- A copy that is started, and on its way nowhere. -/
def finishStart (c : ShardRouting) : ShardRouting :=
  { c with state := .started, relocatingNode := none, unassigned := none }

/-- `copies.sort_by_key(|c| !c.primary)`, which is stable. -/
def primariesFirst (copies : List ShardRouting) : List ShardRouting :=
  copies.filter (·.primary) ++ copies.filter fun c => !c.primary

/-- The copies of a shard once the one at `pos` is started: the source of a
relocation ends. -/
def startedCopies (copies : List ShardRouting) (pos : Nat) (c : ShardRouting) :
    List ShardRouting × Option String :=
  let copies := copies.modify pos finishStart
  match c.relocatingNode.bind fun src => sourceOf copies (some src) with
  | some sp => (copies.eraseIdx sp, (copies[sp]?).bind (·.allocationId))
  | none => (copies, none)

/-- `shard_started`: the copy is started, and the source of its relocation goes. -/
def shardStarted (t : RoutingTable) (index : String) (shard : Nat)
    (allocationId : String) : RoutingTable × Option Started :=
  let copies := t.copies index shard
  match placeOf copies allocationId with
  | none => (t, none)
  | some pos =>
    match copies[pos]? with
    | none => (t, none)
    | some c =>
      if c.state ≠ .initializing then (t, none)
      else
        let r := startedCopies copies pos c
        (t.setCopies index shard (primariesFirst r.1),
          some ⟨r.2, c.primary && reasonIs c "FORCED_EMPTY_PRIMARY"⟩)

/-- A relocation is given up: its target at `pos` goes, and the source stays where
it is. -/
def dropTarget (copies : List ShardRouting) (pos : Nat) (source : Option NodeId) :
    List ShardRouting :=
  let copies := copies.eraseIdx pos
  match sourceOf copies source with
  | some sp => copies.modify sp fun c => { c with state := .started, relocatingNode := none }
  | none => copies

/-- What is noted of a copy that failed. -/
def failedInfo (c : ShardRouting) (now : Millis) (message : String) : UnassignedInfo :=
  { unassignedInfo "ALLOCATION_FAILED" now "no_attempt" (failedAllocations c + 1) with
    details := some ("failed shard on node: " ++ message) }

/-- `shard_failed`: the copy is unassigned, or dropped where it is the target of a move. -/
def shardFailed (t : RoutingTable) (index : String) (shard : Nat)
    (allocationId : String) (now : Millis) (message : String) : RoutingTable × Bool :=
  let copies := t.copies index shard
  match placeOf copies allocationId with
  | none => (t, false)
  | some pos =>
    match copies[pos]? with
    | none => (t, false)
    | some c =>
      if c.state = .initializing ∧ c.relocatingNode.isSome then
        (t.setCopies index shard (dropTarget copies pos c.relocatingNode), true)
      else
        (t.setCopies index shard
          (copies.modify pos fun c => unassign c (failedInfo c now message)), true)

/-- What is noted of a copy that is out of date. -/
def staleInfo (now : Millis) : UnassignedInfo :=
  { unassignedInfo "REALLOCATED_REPLICA" now "no_attempt" 0 with
    details := some "the copy did not take an acknowledged write" }

/-- `shard_stale`: the replica is given up, to be filled again. -/
def shardStale (t : RoutingTable) (index : String) (shard : Nat)
    (allocationId : String) (now : Millis) : RoutingTable × Bool :=
  let copies := t.copies index shard
  match copies.findIdx? fun c => c.allocationId == some allocationId && !c.primary with
  | none => (t, false)
  | some pos =>
    (t.setCopies index shard (copies.modify pos fun c => unassign c (staleInfo now)), true)

/-- `retry_failed=true`: failures forgotten, so the deciders look again. -/
def retryFailed (t : RoutingTable) : RoutingTable :=
  { indices := t.indices.map fun _ shards => shards.map fun _ copies => copies.map fun c =>
      { c with unassigned := c.unassigned.map fun u => { u with failedAllocations := 0 } } }

/-! ## Commands -/

/-- The kinds of `allocate` commands. -/
inductive AllocateKind where
  | replica
  | emptyPrimary
  | stalePrimary
deriving DecidableEq

/-- The commands of a `_cluster/reroute` request. -/
inductive Command where
  | move (index : String) (shard : Nat) (fromNode toNode : String)
  | allocate (kind : AllocateKind) (index : String) (shard : Nat) (node : String)
      (acceptDataLoss : Bool)
  | cancel (index : String) (shard : Nat) (node : String) (allowPrimary : Bool)
  | unknown (name : String)
  | malformed
deriving DecidableEq

/-- Why a request is refused. -/
inductive Refusal where
  | notResolved (name : String)
  | notFound (index : String) (shard : Nat) (node : NodeId)
  | notStarted (state : ShardState)
  | notAllowed (verdicts : List Verdict)
  | alreadyAssigned (index : String) (shard : Nat)
  | isPrimary (index : String) (shard : Nat)
  | dataLoss (index : String) (shard : Nat)
  | notACommand (name : String)
  | notAnObject
deriving DecidableEq

/-- What a command comes to, with the verdicts it was given. -/
inductive Outcome where
  | done (w : Work) (verdicts : List Verdict)
  | refused (why : Refusal)
  | failed (why : Refusal)

/-- What `explain` says of one command. -/
structure Explanation where
  command : Command
  refusal : Option Refusal
  verdicts : List Verdict
deriving DecidableEq

variable (ctx : Context) (ids : Nat → String)

/-- A node by its id or its name. -/
def resolveNode (name : String) : Except Refusal DiscoveryNode :=
  match ctx.nodes.values.find? fun n =>
      n.id == name || n.name == name || n.transportAddress == name with
  | some n => .ok n
  | none => .error (.notResolved name)

/-- A copy that may be moved from the node: started there, with the role asked for. -/
def movable (primary : Bool) (source : NodeId) (c : ShardRouting) : Bool :=
  c.state == .started && c.primary == primary && c.node == some source

/-- The shards a move takes along: those with such a copy. -/
def carriedShards (t : RoutingTable) (index : String) (primary : Bool) (source : NodeId) :
    List Nat :=
  ((t.shardsOf index).filter (movable primary source)).map (·.shard)

/-- The copy of one shard begins its move. -/
def moveShard (index : String) (primary : Bool) (source dest : NodeId) (w : Work)
    (moving : Nat) : Work :=
  let copies := w.table.copies index moving
  match copies.findIdx? (movable primary source) with
  | none => w
  | some pos =>
    match copies[pos]? with
    | none => w
    | some c =>
      { w with
        table := w.table.setCopies index moving
          (startMove copies pos { c with index := index, shard := moving, primary := primary }
            source dest (ids w.drawn))
        drawn := w.drawn + 1 }

/-- The copy on a node. -/
def copyOn (t : RoutingTable) (index : String) (shard : Nat) (node : NodeId) :
    Option ShardRouting :=
  (t.shardsOf index).find? fun c => c.shard == shard && c.node == some node

/-- The move asked for is on already. -/
def underWay (t : RoutingTable) (index : String) (shard : Nat) (source dest : NodeId) :
    Bool :=
  (t.shardsOf index).any fun c =>
    c.shard == shard && c.relocatingNode == some dest && c.node == some source

/-- `move`: the verdicts are those on the one shard that is named. -/
def applyMove (w : Work) (index : String) (shard : Nat) (source dest : DiscoveryNode) :
    Outcome :=
  if underWay w.table index shard source.id dest.id then .done w []
  else match copyOn w.table index shard source.id with
    | none => .refused (.notFound index shard source.id)
    | some copy =>
      if copy.state ≠ .started then .refused (.notStarted copy.state)
      else
        let vs := canAllocate ctx w.table copy dest
        if overall vs = .no then .refused (.notAllowed vs)
        else .done ((carriedShards w.table index copy.primary source.id).foldl
          (moveShard ids index copy.primary source.id dest.id) w) vs

/-- An unassigned copy with the role asked for. -/
def awaiting (primary : Bool) (c : ShardRouting) : Bool :=
  c.primary == primary && c.state == .unassigned

/-- What a command's allocation makes of an entry: its `relocating_node` is left
as it was. -/
def allocated (primary : Bool) (node : NodeId) (id : String) (c : ShardRouting) :
    ShardRouting :=
  { c with
    state := .initializing, node := some node, allocationId := some id
    unassigned := c.unassigned.map fun u =>
      { u with
        delayed := false
        reason := if primary then "FORCED_EMPTY_PRIMARY" else u.reason } }

/-- `allocate_replica` and its like. -/
def applyAllocate (w : Work) (primary : Bool) (index : String) (shard : Nat)
    (n : DiscoveryNode) : Outcome :=
  match (w.table.shardsOf index).find? fun c => c.shard == shard && awaiting primary c with
  | none => .refused (.alreadyAssigned index shard)
  | some copy =>
    let vs := canAllocate ctx w.table copy n
    if overall vs = .no then .refused (.notAllowed vs)
    else
      let copies := w.table.copies index shard
      match copies.findIdx? (awaiting primary) with
      | none => .done w vs
      | some pos =>
        .done { w with
          table := w.table.setCopies index shard
            (copies.modify pos (allocated primary n.id (ids w.drawn)))
          drawn := w.drawn + 1 } vs

/-- The copies of a shard once the one at `pos` is cancelled. -/
def cancelled (now : Millis) (copies : List ShardRouting) (pos : Nat)
    (copy : ShardRouting) : List ShardRouting :=
  if copy.state = .initializing ∧ copy.relocatingNode.isSome then
    dropTarget copies pos copy.relocatingNode
  else if copy.state = .relocating then
    -- the source of a relocation: the target goes, the source stays
    let copies := copies.modify pos fun c => { c with state := .started, relocatingNode := none }
    match copies.findIdx? fun c =>
        c.state == .initializing && c.node == copy.relocatingNode with
    | some tp => copies.eraseIdx tp
    | none => copies
  else
    copies.modify pos fun c =>
      unassign c (unassignedInfo "REROUTE_CANCELLED" now "no_attempt" 0)

/-- `cancel`: the copy on the node is unassigned. -/
def applyCancel (w : Work) (index : String) (shard : Nat) (n : DiscoveryNode)
    (allowPrimary : Bool) : Outcome :=
  match copyOn w.table index shard n.id with
  | none => .refused (.notFound index shard n.id)
  | some copy =>
    if copy.primary ∧ ¬ allowPrimary then .refused (.isPrimary index shard)
    else
      let copies := w.table.copies index shard
      match copies.findIdx? fun c => c.allocationId == copy.allocationId with
      | none => .done w []
      | some pos =>
        .done { w with
          table := w.table.setCopies index shard (cancelled ctx.now copies pos copy) } []

/-- One command. -/
def applyCommand (w : Work) : Command → Outcome
  | .move index shard fromNode toNode =>
    match resolveNode ctx fromNode, resolveNode ctx toNode with
    | .ok source, .ok dest => applyMove ctx ids w index shard source dest
    | .error e, _ => .refused e
    | _, .error e => .refused e
  | .allocate kind index shard node acceptDataLoss =>
    match resolveNode ctx node with
    | .error e => .refused e
    | .ok n =>
      let primary := kind != .replica
      if primary && !acceptDataLoss then .failed (.dataLoss index shard)
      else applyAllocate ctx ids w primary index shard n
  | .cancel index shard node allowPrimary =>
    match resolveNode ctx node with
    | .error e => .refused e
    | .ok n => applyCancel ctx w index shard n allowPrimary
  | .unknown name => .failed (.notACommand name)
  | .malformed => .failed .notAnObject

/-- Apply `_cluster/reroute` commands to a table. -/
def applyCommands (explain : Bool) : Work → List Command → List Explanation →
    Except Refusal (Work × List Explanation)
  | w, [], said => .ok (w, said)
  | w, cmd :: cmds, said =>
    match applyCommand ctx ids w cmd with
    | .done w' vs =>
      applyCommands explain w' cmds (if explain then said ++ [⟨cmd, none, vs⟩] else said)
    | .refused why =>
      if explain then applyCommands explain w cmds (said ++ [⟨cmd, some why, []⟩])
      else .error why
    | .failed why => .error why

end Velosearch.Cluster.Allocation

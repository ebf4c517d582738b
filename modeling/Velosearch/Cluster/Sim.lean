import Velosearch.Cluster.Coordinator.Lives

/-!
# Nodes and a network that may do anything

The nodes of `src/cluster/sim.rs` under every schedule: what is sent stays on the
wire, and any message on it may be delivered at any time, any number of times or
never, which is loss, delay, reordering and duplication at once. Timers fire when
they like. A node may crash between any two inputs and come back from what it kept.
Clients and data nodes are outside: they may hand a node any message but the six
kinds terms and states travel in, which only coordinators send.

A run is a list of `Move`s. `Sim.Fair` is what a run may be asked for beyond what
the code checks; it looks at a move and the nodes before it.
-/

set_option autoImplicit false

namespace Velosearch.Cluster

open Coordinator

/-- A node: how it starts, its disk, and its process where it runs. -/
structure SimNode where
  config : Config
  durable : Durable := {}
  logic : Option Coordinator := none

/-- The nodes, the wire, and what happened. -/
structure Sim where
  nodes : BTreeMap NodeId SimNode
  wire : List (NodeId × Envelope) := []
  past : List (NodeId × Event) := []

/-- A node of the first cluster. -/
def SimNode.member (config seeds : List NodeId) (id : NodeId) : SimNode :=
  let root := { ClusterState.empty "cluster" "uuid" "root" with
    lastCommittedConfig := config, lastAcceptedConfig := config }
  { config := .plain id config seeds
    durable := { committed := some root, accepted := some root } }

/-- A node that knows no cluster yet. -/
def SimNode.newcomer (seeds : List NodeId) (id : NodeId) : SimNode :=
  { config := .plain id [] seeds }

/-- One thing that happens. -/
inductive Move where
  | deliver (env : Env) (i : Nat)
  | inject (env : Env) (n : NodeId) (e : Envelope)
  | timer (env : Env) (n : NodeId) (id : TimerId)
  | peer (env : Env) (n : NodeId) (node : DiscoveryNode)
  | shardDone (env : Env) (n : NodeId) (allocationId : String) (result : Except String Unit)
  | crash (n : NodeId)
  | restart (env : Env) (n : NodeId) (ephemeralId uuid : String)

/-- The message an output sends. -/
def Output.sent : Output → Option (NodeId × Envelope)
  | .send dest e => some (dest, e)
  | _ => none

/-- The process that starts on the node's disk. -/
def SimNode.process (node : SimNode) (ephemeralId uuid : String) :
    Coordinator :=
  { node.config with node := { node.config.node with ephemeralId := ephemeralId } }.process uuid
    node.durable

namespace Sim

/-- A node's logic after an input: what it put out is on the wire. -/
def apply (w : Sim) (n : NodeId) (node : SimNode) (c : Coordinator) : Sim where
  nodes := w.nodes.insert n { node with logic := some c, durable := c.durable }
  wire := w.wire ++ c.out.filterMap Output.sent
  past := w.past ++ c.history.map (n, ·)

/-- A process is handed something. -/
def feed (w : Sim) (env : Env) (n : NodeId) (input : Input) : Sim :=
  match w.nodes[n]? with
  | some node =>
    match node.logic with
    | some c => w.apply n node (c.handle env input)
    | none => w
  | none => w

/-- A process is gone; its disk stays. -/
def crash (w : Sim) (n : NodeId) : Sim :=
  match w.nodes[n]? with
  | some node => { w with nodes := w.nodes.insert n { node with logic := none } }
  | none => w

/-- It starts again. -/
def restart (w : Sim) (env : Env) (n : NodeId) (ephemeralId uuid : String) : Sim :=
  match w.nodes[n]? with
  | some node =>
    match node.logic with
    | some _ => w
    | none => w.apply n node ((node.process ephemeralId uuid).handle env .start)
  | none => w

/-- One move. -/
def step (w : Sim) : Move → Sim
  | .deliver env i =>
    match w.wire[i]? with
    | some (n, e) => w.feed env n (.message e)
    | none => w
  | .inject env n e => if e.binding then w else w.feed env n (.message e)
  | .timer env n id => w.feed env n (.timer id)
  | .peer env n node => w.feed env n (.peer node)
  | .shardDone env n id result => w.feed env n (.shardDone id result)
  | .crash n => w.crash n
  | .restart env n ephemeralId uuid => w.restart env n ephemeralId uuid

/-- A run. -/
def run (w : Sim) (ms : List Move) : Sim := ms.foldl step w

@[simp] theorem run_nil (w : Sim) : w.run [] = w := rfl

@[simp] theorem run_cons (w : Sim) (m : Move) (ms : List Move) :
    w.run (m :: ms) = (w.step m).run ms := rfl

/-- The process of a node that runs. -/
def up (w : Sim) (n : NodeId) : Option Coordinator := w.nodes[n]?.bind (·.logic)

/-! ## What a run may be asked for -/

variable (M O : Prop)

/-- A delivered message is fair to the node it reaches (`Coordinator.Fair`). -/
def Fair (w : Sim) : Move → Prop
  | .deliver _ i => ∀ m ∈ w.wire[i]?, ∀ c ∈ w.up m.1, c.Fair M O m.2
  | _ => True

/-- Every move of a run is one the network can make. -/
def FairRun : Sim → List Move → Prop
  | _, [] => True
  | w, m :: ms => w.Fair M O m ∧ (w.step m).FairRun ms

instance [Decidable M] [Decidable O] (w : Sim) (m : Move) : Decidable (w.Fair M O m) :=
  match m with
  | .deliver _ i =>
    inferInstanceAs (Decidable (∀ m ∈ w.wire[i]?, ∀ c ∈ w.up m.1, c.Fair M O m.2))
  | .inject .. | .timer .. | .peer .. | .shardDone .. | .crash _ | .restart .. => .isTrue trivial

instance decidableFairRun [Decidable M] [Decidable O] :
    (w : Sim) → (ms : List Move) → Decidable (w.FairRun M O ms)
  | _, [] => .isTrue trivial
  | w, m :: ms =>
    have := decidableFairRun (w.step m) ms
    inferInstanceAs (Decidable (w.Fair M O m ∧ (w.step m).FairRun M O ms))

/-! ## Where a run begins -/

/-- The state a node has before there is any. -/
structure IsRoot (config : List NodeId) (s : ClusterState) : Prop where
  term : s.term = 0
  version : s.version = 0
  committedConfig : s.lastCommittedConfig = config
  acceptedConfig : s.lastAcceptedConfig = config

/-- A node before its first start: bootstrapped with the configuration, or blank and
not one of those the first configuration is made of. -/
def Ready (config : List NodeId) (node : SimNode) : Prop :=
  (node.durable.term.getD 0 = 0 ∧ ∃ s, IsRoot config s ∧
    node.durable.committed = some s ∧ node.durable.accepted = some s) ∨
  (node.durable = {} ∧
    (node.config.initialNames.any fun n =>
      n == node.config.node.name || n == node.config.node.id) = false)

/-- A cluster about to start from a bootstrapped configuration: nothing sent, nobody
up. -/
structure Begins (config : List NodeId) (w : Sim) : Prop where
  nonempty : config ≠ []
  wire : w.wire = []
  past : w.past = []
  node : ∀ n node, w.nodes[n]? = some node →
    node.config.node.id = n ∧ node.logic = none ∧ Ready config node

/-- Nodes that have not started. -/
def ofNodes (l : List SimNode) : Sim where
  nodes := l.foldl (fun ns node => ns.insert node.config.node.id node) ∅

theorem ofNodes_begins {config : List NodeId} {l : List SimNode} (nonempty : config ≠ [])
    (ready : ∀ node ∈ l, node.logic = none ∧ Ready config node) :
    (ofNodes l).Begins config := by
  have inv : ∀ (l : List SimNode) (ns : BTreeMap NodeId SimNode),
      (∀ node ∈ l, node.logic = none ∧ Ready config node) →
      (∀ n node, ns[n]? = some node →
        node.config.node.id = n ∧ node.logic = none ∧ Ready config node) →
      ∀ n node, (l.foldl (fun ns node => ns.insert node.config.node.id node) ns)[n]? = some node →
        node.config.node.id = n ∧ node.logic = none ∧ Ready config node := by
    intro l
    induction l with
    | nil => exact fun ns _ hns => hns
    | cons x l ih =>
      intro ns hl hns
      refine ih _ (fun node hn => hl node (List.mem_cons_of_mem x hn)) fun n node hn => ?_
      rw [Std.ExtTreeMap.getElem?_insert] at hn
      split at hn
      · rename_i heq
        obtain rfl := Option.some.inj hn
        exact ⟨compare_eq_iff_eq.mp heq, hl x List.mem_cons_self⟩
      · exact hns n node hn
  exact ⟨nonempty, rfl, rfl, inv l ∅ ready (by simp)⟩

end Sim

end Velosearch.Cluster

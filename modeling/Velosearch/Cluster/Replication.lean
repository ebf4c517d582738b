import Velosearch.Index.Write
import Velosearch.Lib.TreeMaps

/-!
# Answering a write

`replicate`, `may_still_answer` and `finish` of `src/cluster/replication.rs`: the primary
sends what it wrote to every other copy, tells the manager of each copy that did not take
it, and only then gives its caller the handler's answer.

The cluster goes on meanwhile, so each look at the cluster state is a look at a state of
its own (`Course`): the one asked whether there is anything to do, the one the copying
begins with, and the one in force when the answer is given. What other nodes say is given
too: an answer for each copy asked, and for each report to the manager whether it was
answered with success.

Left out are the tracker of sequence numbers, the retries of a report that was not heard
and the traces, which no answer depends on. A node without a runtime is in no cluster.
-/

set_option autoImplicit false

namespace Velosearch.Cluster

open Velosearch.Index (ReplicaOp)

instance : Ord (NodeId × String) := lexOrd

/-- What a copy says to a batch. -/
inductive CopyAnswer where
  | response
  | error (body : String)
  | left
  | noAnswer
  | lost
deriving DecidableEq

/-- Why it did not take it, where it says so. -/
def CopyAnswer.failure : CopyAnswer → Option String
  | .response => none
  | .error body => some body
  | .left => some "the node left the cluster"
  | .noAnswer => some "no answer from the node"
  | .lost => none

/-- A report to the manager: `SHARD_FAILED` with its message, or `SHARD_STALE`. -/
structure CopyReport where
  index : String
  shard : Nat
  allocationId : String
  failed : Option String
deriving DecidableEq

/-- How many copies of an index took a request's writes. -/
structure Ack where
  total : Nat := 0
  successful : Nat := 0
  failed : Nat := 0
  failures : List (NodeId × String) := []
  managerUnreachable : Bool := false
  wroteTo : List NodeId := []
deriving DecidableEq

/-- A primary that is not being moved is the source, not a copy. -/
def source (c : ShardRouting) : Bool :=
  c.primary && (c.relocatingNode.isNone || c.state == .relocating)

/-- What one copy adds to the nodes a write is copied to. -/
def target (me : NodeId) (byNode : BTreeMap NodeId Bool) (c : ShardRouting) : BTreeMap NodeId Bool :=
  if c.state == .unassigned then byNode
  else if source c then byNode
  else
    match c.node with
    | none => byNode
    | some n =>
      if n == me then byNode
      else byNode.insert n ((byNode[n]?).getD true && c.state != .initializing)

/-- Where a write to an index is copied: every other node holding a copy of any shard, with
whether all it holds is active. -/
def targets (state : ClusterState) (me : NodeId) (index : String) : List (NodeId × Bool) :=
  ((state.routing.shardsOf index).foldl (target me) ∅).toList

namespace Replication

variable (state : ClusterState) (me : NodeId) (ops : List ReplicaOp)

/-- The operations by node and index, each batch in their order. -/
def batches : BTreeMap (NodeId × String) (List ReplicaOp × Bool) :=
  ops.foldl (fun batches op =>
    (targets state me op.index).foldl (fun batches (node, inSync) =>
      let (batch, all) := (batches[(node, op.index)]?).getD ([], true)
      batches.insert (node, op.index) (batch ++ [op], all && inSync)) batches) ∅

/-- What a node answered for an index. -/
structure Heard where
  node : NodeId
  index : String
  inSync : Bool
  answer : CopyAnswer

/-- The answers to the batches. -/
def heard (answer : NodeId → String → CopyAnswer) : List Heard :=
  ((batches state me ops).toList.map fun ((node, index), (_, inSync)) =>
    { node, index, inSync, answer := answer node index }).filter fun h => h.answer != .lost

/-- The nodes that took a batch. -/
def acked (heard : List Heard) (index : String) : List NodeId :=
  (heard.filter fun h => h.index == index && h.answer.failure.isNone).map Heard.node

/-- The copies that are reported failed. -/
def failedReports (heard : List Heard) : List CopyReport :=
  heard.flatMap fun h =>
    match h.answer.failure with
    | none => []
    | some reason =>
      let node := h.node
      (state.routing.shardsOf h.index).filterMap fun c =>
        if c.node == some h.node && !c.primary then
          c.allocationId.map fun allocationId =>
            { index := h.index, shard := c.shard, allocationId
              failed := some s!"replication to [{node}] failed: {reason}" }
        else none

/-- The ids of the copies that took everything. -/
def fine (acked : List NodeId) (index : String) : List String :=
  (state.routing.shardsOf index).filterMap fun c =>
    let took := c.node == some me || (c.node.map acked.contains).getD false
    if took && c.state != .unassigned then c.allocationId else none

/-- The copies that are reported out of date. -/
def staleReports (heard : List Heard) (index : String) : List CopyReport :=
  match state.indices[index]? with
  | none => []
  | some m =>
    m.inSyncAllocations.toList.flatMap fun (shard, ids) =>
      (ids.filter fun id => !(fine state me (acked heard index) index).contains id).map fun id =>
        { index, shard, allocationId := id, failed := none }

/-- The indices that were written to. -/
def indices : List String :=
  (ops.foldl (fun (names : BTreeSet String) op => names.insert op.index) ∅).toList

/-- Everything that is reported to the leader. -/
def reports (heard : List Heard) : List CopyReport :=
  failedReports state heard ++ (indices ops).flatMap (staleReports state me heard)

/-- Each report with whether the leader answered it. -/
def told (heard : List Heard) (answered : Nat → Bool) : List (CopyReport × Bool) :=
  (reports state me ops heard).zipIdx.map fun (r, i) =>
    (r, state.clusterManager.isSome && answered i)

/-- On how many copies a write is. -/
def successful (acked : List NodeId) (index : String) (total : Nat) : Nat :=
  let shards := ((ops.filter fun o => o.index == index).map ReplicaOp.shard).dedup
  let holders := shards.map fun shard =>
    ((state.routing.shardsOf index).filter fun c =>
      c.shard == shard && !c.primary && c.active && (c.node.map acked.contains).getD false).length
  min (1 + holders.min?.getD 0) (max total 1)

/-- What the caller is told of an index. -/
def ack (heard : List Heard) (unreachable : Bool) (index : String) : Ack :=
  let total := 1 + ((state.indices[index]?).map IndexMetadata.numberOfReplicas).getD 0
  let failures := heard.filterMap fun h =>
    if h.index == index && h.inSync && h.answer != .left then
      h.answer.failure.map fun reason => (h.node, reason)
    else none
  { total
    successful := successful state ops (acked heard index) index total
    failed := failures.length
    failures
    managerUnreachable := unreachable
    wroteTo := acked heard index }

end Replication

/-- `replicate`: the counts of each index, and the reports made on the way. -/
def replicate (state : ClusterState) (me : NodeId) (answer : NodeId → String → CopyAnswer)
    (answered : Nat → Bool) (ops : List ReplicaOp) :
    List (String × Ack) × List (CopyReport × Bool) :=
  let heard := Replication.heard state me ops answer
  let told := Replication.told state me ops heard answered
  let unreachable := told.any fun r => !r.2
  ((Replication.indices ops).map fun index =>
    (index, Replication.ack state ops heard unreachable index), told)

/-! ## Answering -/

/-- The primary term of a shard. -/
def primaryTermOf (state : ClusterState) (index : String) (shard : Nat) : Nat :=
  ((state.indices[index]?).bind fun m => m.primaryTerms[shard]?).getD 1

/-- The copy of the id is on this node. -/
def hereId (state : ClusterState) (me : NodeId) (index id : String) : Bool :=
  (state.routing.shardsOf index).any fun c => c.node == some me && c.allocationId == some id

/-- The ids in sync, of every shard of an index. -/
def inSyncIds (state : ClusterState) (index : String) : List String :=
  ((state.indices[index]?).map fun m => m.inSyncAllocations.values.flatten).getD []

/-- No copy but this one is written to. -/
def nothingToDo (state : ClusterState) (me : NodeId) (ops : List ReplicaOp) : Bool :=
  ops.all fun op => (targets state me op.index).isEmpty &&
    (inSyncIds state op.index).all (hereId state me op.index)

/-- The node is the primary of a shard, in a term not past the one given. -/
def answersFor (state : ClusterState) (me : NodeId) (op : ReplicaOp) : Bool :=
  ((state.routing.primary op.index op.shard).bind ShardRouting.node == some me) &&
    primaryTermOf state op.index op.shard ≤ op.term

/-- What the cluster does while a write is answered. -/
structure Course where
  atStart : ClusterState
  atCount : ClusterState
  managed : Bool
  atCopy : ClusterState
  answer : NodeId → String → CopyAnswer
  answered : Nat → Bool
  managedAtEnd : Bool
  atEnd : ClusterState

/-- What the caller gets: the handler's answer, its counts patched by the copies', or an
error in its place. -/
inductive Finish where
  | answered (acks : List (String × Ack))
  | refused (kind reason : String)
deriving DecidableEq

namespace Course

variable (w : Course) (me : NodeId) (ops : List ReplicaOp)

/-- The node still answers for what it wrote. -/
def mayStillAnswer : Bool :=
  w.managedAtEnd && ops.all (answersFor w.atEnd me)

/-- The refusal of a node that does not. -/
def noLongerPrimary : Finish :=
  .refused "unavailable_shards_exception"
    ("this node is no longer the primary for this write, or cannot say that it is; not " ++
      "acknowledged, retry")

/-- How the write ends for whoever asked for it. -/
def finish : Finish :=
  if nothingToDo w.atStart me ops then
    -- a node that is the whole cluster answers for itself
    if 1 < w.atCount.nodes.size && !w.mayStillAnswer me ops then noLongerPrimary
    else .answered []
  else if !w.managed then
    .refused "cluster_block_exception" "blocked by: [SERVICE_UNAVAILABLE/2/no cluster-manager];"
  else
    let acks := (replicate w.atCopy me w.answer w.answered ops).1
    if acks.any fun a => a.2.failures.any fun f =>
        decide ("stale primary term".toList <:+: f.2.toList) then
      .refused "unavailable_shards_exception"
        ("the primary that took this write is no longer the primary (its term is stale); " ++
          "retry")
    else if acks.any fun a => a.2.managerUnreachable then
      .refused "unavailable_shards_exception"
        ("a copy did not take this write and the cluster manager could not be told; not " ++
          "acknowledged, retry")
    else if !w.mayStillAnswer me ops then noLongerPrimary
    else .answered acks

/-! ## What an answer stands for -/

/-- The state the copies were picked from. -/
def began : ClusterState :=
  if nothingToDo w.atStart me ops then w.atStart else w.atCopy

/-- What was reported, and which reports were answered. -/
def reported : List (CopyReport × Bool) :=
  if nothingToDo w.atStart me ops then []
  else (replicate w.atCopy me w.answer w.answered ops).2

/-- The ids in sync of one shard. -/
def inSyncOf (state : ClusterState) (index : String) (shard : Nat) : List String :=
  ((state.indices[index]?).bind fun m => m.inSyncAllocations[shard]?).getD []

/-- The node has a copy under the id, at the beginning or the end. -/
def Holds (index id : String) (node : NodeId) : Prop :=
  ∃ c ∈ (w.began me ops).routing.shardsOf index ++ w.atEnd.routing.shardsOf index,
    c.allocationId = some id ∧ c.node = some node

/-- The node took what was written to the index. -/
def Took (index : String) (node : NodeId) : Prop :=
  nothingToDo w.atStart me ops = false ∧ w.answer node index = .response ∧
    ∃ batch inSync, (Replication.batches w.atCopy me ops)[(node, index)]? = some (batch, inSync) ∧
      ∀ op ∈ ops, op.index = index → op ∈ batch

/-- The id is of a copy here, of a copy that took the batch, or was reported with success. -/
def Accounted (op : ReplicaOp) (id : String) : Prop :=
  w.Holds me ops op.index id me ∨
    (∃ node, w.Holds me ops op.index id node ∧ w.Took me ops op.index node) ∨
    ∃ r ∈ w.reported me ops, r.1.index = op.index ∧ r.1.shard = op.shard ∧
      r.1.allocationId = id ∧ r.2 = true

/-- A copy is here, or its node was asked and something was heard of it: for the target a primary
is being moved to, an answer. -/
def Reached (index : String) (c : ShardRouting) : Prop :=
  c.node = some me ∨ ∃ node, c.node = some node ∧ c.state ≠ .unassigned ∧ source c = false ∧
    w.answer node index ≠ .lost ∧ (c.primary = false ∨ w.answer node index = .response)

end Course

namespace Replication

variable {state : ClusterState} {me : NodeId} {ops : List ReplicaOp}

theorem target_kept {byNode : BTreeMap NodeId Bool} {n : NodeId} (c : ShardRouting)
    (h : n ∈ byNode) : n ∈ target me byNode c := by
  unfold target
  split
  · exact h
  · split
    · exact h
    · split
      · exact h
      · split
        · exact h
        · exact Std.ExtTreeMap.mem_insert.mpr (.inr h)

/-- **Every assigned copy that is not a source is a target**, by the node it stands on. -/
theorem mem_targets {index : String} {c : ShardRouting} (hc : c ∈ state.routing.shardsOf index)
    (assigned : c.state ≠ .unassigned) (copy : source c = false) {n : NodeId}
    (node : c.node = some n) (away : n ≠ me) : n ∈ (targets state me index).map Prod.fst := by
  have kept : ∀ (cs : List ShardRouting) (byNode : BTreeMap NodeId Bool), n ∈ byNode →
      n ∈ cs.foldl (target me) byNode := by
    intro cs
    induction cs with
    | nil => exact fun _ h => h
    | cons c cs ih => exact fun byNode h => ih _ (target_kept c h)
  have folded : ∀ (cs : List ShardRouting) (byNode : BTreeMap NodeId Bool), c ∈ cs →
      n ∈ cs.foldl (target me) byNode := by
    intro cs
    induction cs with
    | nil => exact fun _ h => absurd h List.not_mem_nil
    | cons d cs ih =>
      intro byNode h
      rcases List.mem_cons.mp h with rfl | h
      · refine kept cs _ ?_
        have here : target me byNode c =
            byNode.insert n ((byNode[n]?).getD true && c.state != .initializing) := by
          simp [target, assigned, copy, node, away]
        rw [here]
        exact Std.ExtTreeMap.mem_insert_self
      · exact ih _ h
  have mem := folded _ ∅ hc
  rw [← Std.ExtTreeMap.mem_keys, ← Std.ExtTreeMap.map_fst_toList_eq_keys] at mem
  exact mem

/-- The operation goes into the batch of each of its copies. -/
def put (batches : BTreeMap (NodeId × String) (List ReplicaOp × Bool)) (op : ReplicaOp)
    (nodes : List (NodeId × Bool)) : BTreeMap (NodeId × String) (List ReplicaOp × Bool) :=
  nodes.foldl (fun batches (node, inSync) =>
    let (batch, all) := (batches[(node, op.index)]?).getD ([], true)
    batches.insert (node, op.index) (batch ++ [op], all && inSync)) batches

theorem batches_eq : batches state me ops =
    ops.foldl (fun batches op => put batches op (targets state me op.index)) ∅ :=
  rfl

theorem put_getElem? (nodes : List (NodeId × Bool))
    (batches : BTreeMap (NodeId × String) (List ReplicaOp × Bool)) (op : ReplicaOp) (node : NodeId)
    (index : String) :
    (index = op.index ∧ node ∈ nodes.map Prod.fst → ∃ batch all,
      (put batches op nodes)[(node, index)]? = some (batch, all) ∧ op ∈ batch ∧
        ∀ o ∈ ((batches[(node, index)]?).getD ([], true)).1, o ∈ batch) ∧
    (¬ (index = op.index ∧ node ∈ nodes.map Prod.fst) →
      (put batches op nodes)[(node, index)]? = batches[(node, index)]?) := by
  induction nodes generalizing batches with
  | nil => simp [put]
  | cons t nodes ih =>
    obtain ⟨node', inSync⟩ := t
    generalize hb : batches.insert (node', op.index)
      (((batches[(node', op.index)]?).getD ([], true)).1 ++ [op],
        ((batches[(node', op.index)]?).getD ([], true)).2 && inSync) = batches'
    have step : put batches op ((node', inSync) :: nodes) = put batches' op nodes := by
      rw [← hb]
      rfl
    have here : batches'[(node', op.index)]? =
        some (((batches[(node', op.index)]?).getD ([], true)).1 ++ [op],
          ((batches[(node', op.index)]?).getD ([], true)).2 && inSync) := by
      rw [← hb]
      simp
    have there : ∀ {node index}, ¬ (node = node' ∧ index = op.index) →
        batches'[(node, index)]? = batches[(node, index)]? := by
      intro node index other
      rw [← hb, Std.ExtTreeMap.getElem?_insert, if_neg]
      intro same
      have := Std.LawfulEqCmp.eq_of_compare same
      simp only [Prod.mk.injEq] at this
      exact other ⟨this.1.symm, this.2.symm⟩
    obtain ⟨taken, left⟩ := ih batches'
    rw [step]
    refine ⟨fun ⟨same, mem⟩ => ?_, fun other => ?_⟩
    · by_cases later : node ∈ nodes.map Prod.fst
      · obtain ⟨batch, all, eq, mine, old⟩ := taken ⟨same, later⟩
        refine ⟨batch, all, eq, mine, fun o ho => old o ?_⟩
        by_cases now : node = node'
        · subst now same
          rw [here, Option.getD_some]
          exact List.mem_append_left _ ho
        · rwa [there fun both => now both.1]
      · obtain rfl : node = node' := by simpa [later] using mem
        subst same
        refine ⟨_, _, (left fun both => later both.2).trans here, ?_, fun o ho => ?_⟩
        · exact List.mem_append_right _ List.mem_cons_self
        · exact List.mem_append_left _ ho
    · rw [left fun both => other ⟨both.1, List.mem_cons_of_mem _ both.2⟩,
        there fun both => other ⟨both.2, by simp [both.1]⟩]

/-- **A batch holds every operation of its index**: a copy is a copy of the whole index, so
whoever takes one operation of it takes them all. -/
theorem mem_batch {node : NodeId} {index : String} {batch : List ReplicaOp} {inSync : Bool}
    (h : (batches state me ops)[(node, index)]? = some (batch, inSync)) :
    ∀ op ∈ ops, op.index = index → op ∈ batch := by
  -- along the operations: a node has a batch of an index once an operation of the index has
  -- come by, if the index goes to the node, and never else
  have invariant : ∀ (done rest : List ReplicaOp)
      (b : BTreeMap (NodeId × String) (List ReplicaOp × Bool)),
      (∀ batch all, b[(node, index)]? = some (batch, all) →
        node ∈ (targets state me index).map Prod.fst ∧
          ∀ op ∈ done, op.index = index → op ∈ batch) →
      (b[(node, index)]? = none → node ∈ (targets state me index).map Prod.fst →
        ∀ op ∈ done, op.index ≠ index) →
      ∀ batch all, (rest.foldl (fun b op => put b op (targets state me op.index)) b)[(node, index)]? =
        some (batch, all) → ∀ op ∈ done ++ rest, op.index = index → op ∈ batch := by
    intro done rest
    induction rest generalizing done with
    | nil =>
      intro b full _ batch all eq op hop
      exact (full batch all eq).2 op (by simpa using hop)
    | cons op rest ih =>
      intro b full empty batch all eq
      rw [List.append_cons]
      refine ih (done ++ [op]) (put b op (targets state me op.index)) ?_ ?_ batch all eq
      · intro batch all eq
        obtain ⟨taken, left⟩ := put_getElem? (targets state me op.index) b op node index
        by_cases goes : index = op.index ∧ node ∈ (targets state me op.index).map Prod.fst
        · obtain ⟨batch', all', eq', mine, old⟩ := taken goes
          obtain ⟨rfl, rfl⟩ := Prod.mk.inj (Option.some.inj (eq.symm.trans eq'))
          refine ⟨goes.1 ▸ goes.2, fun o ho same => ?_⟩
          rcases List.mem_append.mp ho with ho | ho
          · refine old o ?_
            cases had : b[(node, index)]? with
            | some entry => exact (full entry.1 entry.2 had).2 o ho same
            | none => exact absurd same (empty had (goes.1 ▸ goes.2) o ho)
          · rwa [List.mem_singleton.mp ho]
        · rw [left goes] at eq
          obtain ⟨mine, old⟩ := full batch all eq
          refine ⟨mine, fun o ho same => ?_⟩
          rcases List.mem_append.mp ho with ho | ho
          · exact old o ho same
          · rw [List.mem_singleton.mp ho] at same
            exact absurd ⟨same.symm, same ▸ mine⟩ goes
      · intro none mine o ho same
        obtain ⟨taken, left⟩ := put_getElem? (targets state me op.index) b op node index
        by_cases goes : index = op.index ∧ node ∈ (targets state me op.index).map Prod.fst
        · obtain ⟨batch', all', eq', -⟩ := taken goes
          rw [none] at eq'
          exact absurd eq' nofun
        · rw [left goes] at none
          rcases List.mem_append.mp ho with ho | ho
          · exact empty none mine o ho same
          · rw [List.mem_singleton.mp ho] at same
            exact goes ⟨same.symm, same ▸ mine⟩
  rw [batches_eq] at h
  exact invariant [] ops ∅ (by simp) (by simp) batch inSync h

/-- A node that an index goes to has a batch of it as soon as there is an operation. -/
theorem batch_of_target {node : NodeId} {index : String}
    (goes : node ∈ (targets state me index).map Prod.fst) {op : ReplicaOp} (hop : op ∈ ops)
    (same : op.index = index) :
    ∃ batch inSync, (batches state me ops)[(node, index)]? = some (batch, inSync) := by
  have kept : ∀ (op : ReplicaOp) (b : BTreeMap (NodeId × String) (List ReplicaOp × Bool)),
      (∃ e, b[(node, index)]? = some e) →
      ∃ e, (put b op (targets state me op.index))[(node, index)]? = some e := by
    intro op b had
    obtain ⟨taken, left⟩ := put_getElem? (targets state me op.index) b op node index
    by_cases here : index = op.index ∧ node ∈ (targets state me op.index).map Prod.fst
    · obtain ⟨batch, all, eq, -⟩ := taken here
      exact ⟨_, eq⟩
    · rwa [left here]
  have folded : ∀ (l : List ReplicaOp) (b : BTreeMap (NodeId × String) (List ReplicaOp × Bool)),
      (op ∈ l ∨ ∃ e, b[(node, index)]? = some e) →
      ∃ e, (l.foldl (fun b op => put b op (targets state me op.index)) b)[(node, index)]? =
        some e := by
    intro l
    induction l with
    | nil => exact fun b h => h.resolve_left List.not_mem_nil
    | cons o l ih =>
      intro b h
      refine ih _ ?_
      rcases h with h | h
      · rcases List.mem_cons.mp h with rfl | h
        · obtain ⟨batch, all, eq, -⟩ :=
            (put_getElem? (targets state me op.index) b op node index).1 ⟨same.symm, same ▸ goes⟩
          exact .inr ⟨_, eq⟩
        · exact .inl h
      · exact .inr (kept o b h)
  obtain ⟨⟨batch, inSync⟩, eq⟩ := folded ops ∅ (.inl hop)
  exact ⟨batch, inSync, eq⟩

/-- **A copy that did not take its batch is reported**, whichever way that was heard. -/
theorem mem_failedReports {answer : NodeId → String → CopyAnswer} {node : NodeId} {index : String}
    {batch : List ReplicaOp} {inSync : Bool}
    (sent : (batches state me ops)[(node, index)]? = some (batch, inSync))
    (found : answer node index ≠ .lost) (missed : answer node index ≠ .response)
    {c : ShardRouting} (hc : c ∈ state.routing.shardsOf index) (here : c.node = some node)
    (replica : c.primary = false) {id : String} (named : c.allocationId = some id) :
    ∃ r ∈ failedReports state (heard state me ops answer), r.index = index ∧ r.shard = c.shard ∧
      r.allocationId = id := by
  have listed : (⟨node, index, inSync, answer node index⟩ : Heard) ∈ heard state me ops answer := by
    refine List.mem_filter.mpr ⟨List.mem_map.mpr ⟨((node, index), (batch, inSync)), ?_, rfl⟩, ?_⟩
    · exact Std.ExtTreeMap.mem_toList_iff_getElem?_eq_some.mpr sent
    · simpa using found
  obtain ⟨reason, failed⟩ : ∃ reason, (answer node index).failure = some reason := by
    cases said : answer node index with
    | response => exact absurd said missed
    | lost => exact absurd said found
    | _ => exact ⟨_, rfl⟩
  refine ⟨{ index, shard := c.shard, allocationId := id
            failed := some s!"replication to [{node}] failed: {reason}" },
    List.mem_flatMap.mpr ⟨_, listed, ?_⟩, rfl, rfl, rfl⟩
  simp only [failed]
  exact List.mem_filterMap.mpr ⟨c, hc, by simp [here, replica, named]⟩

theorem acked_answered {answer : NodeId → String → CopyAnswer} {node : NodeId} {index : String}
    (h : node ∈ acked (heard state me ops answer) index) : answer node index = .response ∧
      ∃ batch inSync, (batches state me ops)[(node, index)]? = some (batch, inSync) := by
  obtain ⟨e, he, rfl⟩ := List.mem_map.mp h
  obtain ⟨he, answered⟩ := List.mem_filter.mp he
  obtain ⟨he, found⟩ := List.mem_filter.mp he
  obtain ⟨⟨⟨node, name⟩, batch, inSync⟩, listed, rfl⟩ := List.mem_map.mp he
  simp only [Bool.and_eq_true, beq_iff_eq, Option.isNone_iff_eq_none, bne_iff_ne, ne_eq]
    at answered found
  obtain ⟨rfl, none⟩ := answered
  refine ⟨?_, batch, inSync, ?_⟩
  · cases said : answer node name <;> simp_all [CopyAnswer.failure]
  · exact Std.ExtTreeMap.mem_toList_iff_getElem?_eq_some.mp listed

theorem fine_held {nodes : List NodeId} {index id : String} (h : id ∈ fine state me nodes index) :
    ∃ c ∈ state.routing.shardsOf index, c.allocationId = some id ∧
      (c.node = some me ∨ ∃ node ∈ nodes, c.node = some node) := by
  obtain ⟨c, hc, eq⟩ := List.mem_filterMap.mp h
  dsimp only at eq
  split at eq
  case isFalse => exact absurd eq nofun
  case isTrue took =>
    refine ⟨c, hc, eq, ?_⟩
    simp only [Bool.and_eq_true, Bool.or_eq_true, beq_iff_eq] at took
    rcases took.1 with mine | theirs
    · exact .inl mine
    · cases hn : c.node with
      | none => simp [hn] at theirs
      | some node =>
        rw [hn] at theirs
        exact .inr ⟨node, by simpa using theirs, rfl⟩

theorem mem_indices {op : ReplicaOp} (h : op ∈ ops) : op.index ∈ indices ops := by
  have invariant : ∀ (ops : List ReplicaOp) (names : BTreeSet String),
      (op ∈ ops ∨ op.index ∈ names) →
        op.index ∈ ops.foldl (fun (names : BTreeSet String) op => names.insert op.index) names := by
    intro ops
    induction ops with
    | nil => exact fun names h => h.resolve_left List.not_mem_nil
    | cons o ops ih =>
      intro names h
      refine ih _ ?_
      rcases h with h | h
      · rcases List.mem_cons.mp h with rfl | h
        · exact .inr (by simp)
        · exact .inl h
      · exact .inr (by simp [h])
  exact Std.ExtTreeSet.mem_toList.mpr (invariant ops ∅ (.inl h))

theorem mem_staleReports (me : NodeId) (heard : List Heard) {index id : String} {shard : Nat}
    (h : id ∈ Course.inSyncOf state index shard) :
    id ∈ fine state me (acked heard index) index ∨
      { index, shard, allocationId := id, failed := none } ∈ staleReports state me heard index := by
  rw [Course.inSyncOf] at h
  rw [staleReports]
  cases hm : state.indices[index]? with
  | none => simp [hm] at h
  | some m =>
    cases hs : m.inSyncAllocations[shard]? with
    | none => simp [hm, hs] at h
    | some ids =>
      have h : id ∈ ids := by simpa [hm, hs] using h
      by_cases took : id ∈ fine state me (acked heard index) index
      · exact .inl took
      · refine .inr (List.mem_flatMap.mpr ⟨(shard, ids), ?_, ?_⟩)
        · exact Std.ExtTreeMap.mem_toList_iff_getElem?_eq_some.mpr hs
        · exact List.mem_map.mpr ⟨id, List.mem_filter.mpr ⟨h, by simpa using took⟩, rfl⟩

end Replication

namespace Course

variable {w : Course} {me : NodeId} {ops : List ReplicaOp}

theorem told_answered {acks : List (String × Ack)} (busy : nothingToDo w.atStart me ops = false)
    (h : w.finish me ops = .answered acks) {op : ReplicaOp} (hop : op ∈ ops)
    {r : CopyReport} (hr : r ∈ Replication.reports w.atCopy me ops
      (Replication.heard w.atCopy me ops w.answer)) : (r, true) ∈ w.reported me ops := by
  rw [reported, busy]
  have unreached : ((replicate w.atCopy me w.answer w.answered ops).1.any
      fun a => a.2.managerUnreachable) = false := by
    rw [finish, busy] at h
    simp only [Bool.false_eq_true, if_false] at h
    split at h
    · exact absurd h nofun
    · split at h
      · exact absurd h nofun
      · split at h
        · exact absurd h nofun
        case isFalse reached => simpa using reached
  have all : ∀ t ∈ Replication.told w.atCopy me ops
      (Replication.heard w.atCopy me ops w.answer) w.answered, t.2 = true := by
    have here := List.any_eq_false.mp unreached _
      (List.mem_map.mpr ⟨op.index, Replication.mem_indices hop, rfl⟩)
    simpa [Replication.ack] using here
  obtain ⟨i, hi, get⟩ := List.mem_iff_getElem.mp hr
  have told : (r, w.atCopy.clusterManager.isSome && w.answered i) ∈ Replication.told w.atCopy me ops
      (Replication.heard w.atCopy me ops w.answer) w.answered := by
    refine List.mem_map.mpr ⟨(r, i), ?_, rfl⟩
    exact List.mem_zipIdx_iff_getElem?.mpr (by rw [List.getElem?_eq_getElem hi, get])
  have := all _ told
  dsimp only at this
  rwa [this] at told

theorem quiet_here (quiet : nothingToDo w.atStart me ops = true) {op : ReplicaOp} (hop : op ∈ ops)
    {id : String} (hid : id ∈ inSyncOf w.atStart op.index op.shard) :
    ∃ c ∈ w.atStart.routing.shardsOf op.index, c.allocationId = some id ∧ c.node = some me := by
  have all := List.all_eq_true.mp quiet op hop
  simp only [Bool.and_eq_true, List.all_eq_true] at all
  have listed : id ∈ inSyncIds w.atStart op.index := by
    rw [inSyncOf] at hid
    rw [inSyncIds]
    cases hm : w.atStart.indices[op.index]? with
    | none => simp [hm] at hid
    | some m =>
      cases hs : m.inSyncAllocations[op.shard]? with
      | none => simp [hm, hs] at hid
      | some ids =>
        have hid : id ∈ ids := by simpa [hm, hs] using hid
        rw [Option.map_some, Option.getD_some, List.mem_flatten]
        exact ⟨ids, Velosearch.Lib.mem_values.mpr ⟨op.shard, hs⟩, hid⟩
  obtain ⟨c, hc, mine⟩ := List.any_eq_true.mp (all.2 id listed)
  simp only [Bool.and_eq_true, beq_iff_eq] at mine
  exact ⟨c, hc, mine.2, mine.1⟩

/-- Where nothing is to be copied, a copy that something was heard of stands here. -/
theorem reached_here (quiet : nothingToDo w.atStart me ops = true) {op : ReplicaOp} (hop : op ∈ ops)
    {c : ShardRouting} (hc : c ∈ w.atStart.routing.shardsOf op.index)
    (reached : w.Reached me op.index c) : c.node = some me := by
  rcases reached with mine | ⟨node, there, assigned, copy, -⟩
  · exact mine
  · by_cases away : node = me
    · rw [there, away]
    · have all := List.all_eq_true.mp quiet op hop
      simp only [Bool.and_eq_true, List.isEmpty_iff] at all
      have goes := Replication.mem_targets hc assigned copy there away
      rw [all.1] at goes
      cases goes

/-- A copy that the copying reached is accounted for: it took the batch, or was reported. -/
theorem reached_accounted {acks : List (String × Ack)}
    (busy : nothingToDo w.atStart me ops = false) (h : w.finish me ops = .answered acks)
    {op : ReplicaOp} (hop : op ∈ ops) {c : ShardRouting}
    (hc : c ∈ w.atCopy.routing.shardsOf op.index) (shard : c.shard = op.shard) {id : String}
    (named : c.allocationId = some id) (reached : w.Reached me op.index c) :
    w.Accounted me ops op id := by
  have holds : ∀ {node}, c.node = some node → w.Holds me ops op.index id node := by
    intro node here
    refine ⟨c, List.mem_append_left _ ?_, named, here⟩
    rwa [began, busy]
  rcases reached with mine | ⟨node, there, assigned, copy, found, answered⟩
  · exact .inl (holds mine)
  · by_cases away : node = me
    · exact .inl (holds (away ▸ there))
    · have goes := Replication.mem_targets hc assigned copy there away
      obtain ⟨batch, inSync, sent⟩ := Replication.batch_of_target goes hop rfl
      by_cases took : w.answer node op.index = .response
      · exact .inr (.inl ⟨node, holds there, busy, took, batch, inSync, sent,
          Replication.mem_batch sent⟩)
      · have replica : c.primary = false := answered.resolve_right took
        obtain ⟨r, hr, index, shard', id'⟩ :=
          Replication.mem_failedReports sent found took hc there replica named
        have made := List.mem_append_left ((Replication.indices ops).flatMap
          (Replication.staleReports w.atCopy me (Replication.heard w.atCopy me ops w.answer))) hr
        exact .inr (.inr ⟨_, told_answered busy h hop made, index, shard'.trans shard, id', rfl⟩)

/-- **An answer is accounted for**: for every shard written, every id that is in sync as the answer
is given, and was as the copying began or is of a copy of the shard that the copying reached, is of
a copy on this node, of a copy that took the batch, or was reported and the report answered; and the
node is still the primary, in its term, unless it is all the cluster there is. -/
theorem finish_acknowledges (w : Course) (me : NodeId) (ops : List ReplicaOp)
    (acks : List (String × Ack)) (h : w.finish me ops = .answered acks) :
    ∀ op ∈ ops,
      (∀ id ∈ inSyncOf w.atEnd op.index op.shard,
        (id ∈ inSyncOf (w.began me ops) op.index op.shard ∨
          ∃ c ∈ (w.began me ops).routing.shardsOf op.index, c.shard = op.shard ∧
            c.allocationId = some id ∧ w.Reached me op.index c) → w.Accounted me ops op id) ∧
      ((nothingToDo w.atStart me ops = true ∧ w.atCount.nodes.size ≤ 1) ∨
        (w.managedAtEnd = true ∧ answersFor w.atEnd me op = true)) := by
  intro op hop
  have still : w.mayStillAnswer me ops = true →
      w.managedAtEnd = true ∧ answersFor w.atEnd me op = true := by
    intro still
    simp only [mayStillAnswer, Bool.and_eq_true, List.all_eq_true] at still
    exact ⟨still.1, still.2 op hop⟩
  cases quiet : nothingToDo w.atStart me ops with
  | true =>
    have at_ : w.began me ops = w.atStart := by rw [began, quiet, if_pos rfl]
    constructor
    · intro id _ hid
      rw [at_] at hid
      have found : ∃ c ∈ w.atStart.routing.shardsOf op.index, c.allocationId = some id ∧
          c.node = some me := by
        rcases hid with hid | ⟨c, hc, -, named, reached⟩
        · exact quiet_here quiet hop hid
        · exact ⟨c, hc, named, reached_here quiet hop hc reached⟩
      obtain ⟨c, hc, eq, mine⟩ := found
      exact .inl ⟨c, List.mem_append_left _ (at_ ▸ hc), eq, mine⟩
    · rw [finish, quiet] at h
      simp only [if_true] at h
      split at h
      · cases h
      case isFalse through =>
        by_cases alone : w.atCount.nodes.size ≤ 1
        · exact .inl ⟨rfl, alone⟩
        · refine .inr (still ?_)
          simpa [Nat.lt_of_not_le alone] using through
  | false =>
    have at_ : w.began me ops = w.atCopy := by
      rw [began, quiet]
      rfl
    constructor
    · intro id _ hid
      rw [at_] at hid
      rcases hid with hid | ⟨c, hc, shard, named, reached⟩
      · have holds : ∀ {c : ShardRouting} {node}, c ∈ w.atCopy.routing.shardsOf op.index →
            c.allocationId = some id → c.node = some node → w.Holds me ops op.index id node :=
          fun hc eq here => ⟨_, List.mem_append_left _ (at_ ▸ hc), eq, here⟩
        rcases Replication.mem_staleReports me (Replication.heard w.atCopy me ops w.answer) hid with
          took | stale
        · obtain ⟨c, hc, eq, mine | ⟨node, acked, there⟩⟩ := Replication.fine_held took
          · exact .inl (holds hc eq mine)
          · obtain ⟨said, batch, inSync, sent⟩ := Replication.acked_answered acked
            refine .inr (.inl ⟨node, holds hc eq there, quiet, said, batch, inSync, sent, ?_⟩)
            exact Replication.mem_batch sent
        · have made := List.mem_append_right
            (Replication.failedReports w.atCopy (Replication.heard w.atCopy me ops w.answer))
            (List.mem_flatMap.mpr ⟨op.index, Replication.mem_indices hop, stale⟩)
          exact .inr (.inr ⟨_, told_answered quiet h hop made, rfl, rfl, rfl, rfl⟩)
      · exact reached_accounted quiet h hop hc shard named reached
    · refine .inr (still ?_)
      rw [finish, quiet] at h
      simp only [Bool.false_eq_true, if_false] at h
      split at h
      · cases h
      · split at h
        · cases h
        · split at h
          · cases h
          · split at h
            · cases h
            case isFalse through => simpa using through

/-! ## Two nodes -/

def startedCopy (primary : Bool) (node : NodeId) : ShardRouting :=
  { index := "i", shard := 0, primary, state := .started, node := some node
    relocatingNode := none, allocationId := some node, unassigned := none }

def placed (copies : List ShardRouting) : ClusterState :=
  { ClusterState.empty "c" "u" "s" with
    clusterManager := some "a"
    nodes := (∅ : BTreeMap NodeId DiscoveryNode).insert "a" ⟨"a", "a", "a", "", [], ∅, ""⟩
      |>.insert "b" ⟨"b", "b", "b", "", [], ∅, ""⟩
    indices := (∅ : BTreeMap String IndexMetadata).insert "i"
      { name := "i", uuid := "i", settings := {}, numberOfShards := 1, numberOfReplicas := 1
        primaryTerms := ∅
        inSyncAllocations := (∅ : BTreeMap Nat (List String)).insert 0
          (copies.filterMap ShardRouting.allocationId)
        creationDate := 0, text := "" }
    routing :=
      { indices := (∅ : BTreeMap String (BTreeMap Nat (List ShardRouting))).insert "i"
          ((∅ : BTreeMap Nat (List ShardRouting)).insert 0 copies) } }

def alone : ClusterState :=
  { ClusterState.empty "c" "u" "s" with
    clusterManager := some "a"
    nodes := (∅ : BTreeMap NodeId DiscoveryNode).insert "a" ⟨"a", "a", "a", "", [], ∅, ""⟩ }

def oneWrite : List ReplicaOp :=
  [{ index := "i", id := "1", routing := none, version := 1, seq := 0, term := 1, shard := 0
     source := some "\x7b\x7d", docTerm := none }]

def course (start finish : ClusterState) : Course :=
  { atStart := start, atCount := start, managed := true, atCopy := start
    answer := fun _ _ => .response, answered := fun _ => true, managedAtEnd := true
    atEnd := finish }

def steady : Course :=
  course (placed [startedCopy true "a", startedCopy false "b"])
    (placed [startedCopy true "a", startedCopy false "b"])

theorem finish_acknowledges_steady : ∃ acks, steady.finish "a" oneWrite = .answered acks ∧
    ∀ op ∈ oneWrite,
      (∀ id ∈ inSyncOf steady.atEnd op.index op.shard,
        (id ∈ inSyncOf (steady.began "a" oneWrite) op.index op.shard ∨
          ∃ c ∈ (steady.began "a" oneWrite).routing.shardsOf op.index, c.shard = op.shard ∧
            c.allocationId = some id ∧ steady.Reached "a" op.index c) →
          steady.Accounted "a" oneWrite op id) ∧
      ((nothingToDo steady.atStart "a" oneWrite = true ∧ steady.atCount.nodes.size ≤ 1) ∨
        (steady.managedAtEnd = true ∧ answersFor steady.atEnd "a" op = true)) := by
  have answered : steady.finish "a" oneWrite = .answered
      [("i", { total := 2, successful := 2, wroteTo := ["b"] })] := by decide +kernel
  exact ⟨_, answered, finish_acknowledges steady "a" oneWrite _ answered⟩

/-- A copy that joined the in-sync set while the write was answered is accounted for by
nothing in the request; and a node that is the whole cluster answers for an index that
is gone. -/
theorem joined_copy_unaccounted :
    ((course (placed [startedCopy true "a"])
        (placed [startedCopy true "a", startedCopy false "b"])).finish "a" oneWrite = .answered [] ∧
      ∃ op ∈ oneWrite, ∃ id ∈ inSyncOf (placed [startedCopy true "a", startedCopy false "b"])
        op.index op.shard,
        ¬ (course (placed [startedCopy true "a"])
          (placed [startedCopy true "a", startedCopy false "b"])).Accounted "a" oneWrite op id) ∧
    ((course alone alone).finish "a" oneWrite = .answered [] ∧
      ∃ op ∈ oneWrite, answersFor alone "a" op = false) := by
  refine ⟨⟨by decide +kernel, _, List.mem_cons_self, "b", by decide +kernel, ?_⟩,
    by decide +kernel⟩
  have quiet : nothingToDo (placed [startedCopy true "a"]) "a" oneWrite = true := by decide +kernel
  rintro (⟨c, hc, eq, mine⟩ | ⟨node, -, busy, -⟩ | ⟨r, hr, -⟩)
  · rw [began, course, quiet, if_pos rfl] at hc
    have none : ∀ c ∈ (placed [startedCopy true "a"]).routing.shardsOf "i" ++
        (placed [startedCopy true "a", startedCopy false "b"]).routing.shardsOf "i",
        c.allocationId = some "b" → c.node ≠ some "a" := by decide +kernel
    exact none c hc eq mine
  · exact absurd (quiet.symm.trans busy) nofun
  · rw [reported, course, quiet, if_pos rfl] at hr
    exact absurd hr List.not_mem_nil

end Course

end Velosearch.Cluster

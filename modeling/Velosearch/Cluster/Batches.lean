import Velosearch.Cluster.Replication

/-!
# The batches of a write

What `replicate` sends: to each other node that holds a copy of an index, all the operations the
request made on that index and nothing else, in the order the primary made them.
-/

set_option autoImplicit false

namespace Velosearch.Cluster.Replication

open Velosearch.Index (ReplicaOp)

variable {state : ClusterState} {me : NodeId} {ops : List ReplicaOp}

theorem targets_nodup (state : ClusterState) (me : NodeId) (index : String) :
    ((targets state me index).map Prod.fst).Nodup := by
  unfold targets
  rw [Std.ExtTreeMap.map_fst_toList_eq_keys]
  exact Std.ExtTreeMap.nodup_keys

theorem put_same {batches : BTreeMap (NodeId × String) (List ReplicaOp × Bool)} {op : ReplicaOp}
    {nodes : List (NodeId × Bool)} (distinct : (nodes.map Prod.fst).Nodup) (node : NodeId) :
    (put batches op nodes)[(node, op.index)]? =
      match nodes.lookup node with
      | some inSync =>
        some (((batches[(node, op.index)]?).getD ([], true)).1 ++ [op],
          ((batches[(node, op.index)]?).getD ([], true)).2 && inSync)
      | none => batches[(node, op.index)]? := by
  induction nodes generalizing batches with
  | nil => rfl
  | cons t nodes ih =>
    obtain ⟨node', inSync⟩ := t
    rw [List.map_cons, List.nodup_cons] at distinct
    obtain ⟨fresh, distinct⟩ := distinct
    show (put (batches.insert (node', op.index)
      (((batches[(node', op.index)]?).getD ([], true)).1 ++ [op],
        ((batches[(node', op.index)]?).getD ([], true)).2 && inSync)) op nodes)[(node, op.index)]? =
          _
    rw [ih distinct, List.lookup_cons]
    by_cases own : node = node'
    · subst own
      have gone : nodes.lookup node = none := by
        rw [List.lookup_eq_none_iff]
        intro p mem
        simp only [bne_iff_ne, ne_eq]
        rintro rfl
        exact fresh (List.mem_map.mpr ⟨p, mem, rfl⟩)
      rw [gone, beq_self_eq_true]
      simp only [Std.ExtTreeMap.getElem?_insert_self]
    · have other : ¬ compare (node', op.index) (node, op.index) = .eq := by
        intro same
        have := Std.LawfulEqCmp.eq_of_compare same
        exact own (Prod.mk.inj this).1.symm
      rw [Std.ExtTreeMap.getElem?_insert, if_neg other, beq_false_of_ne own]

/-- **A batch is what was written, in order**: the batch of a node and an index holds the
operations on that index in the order they were made, if the node has copies of it to write, and
is marked in sync as the node's copies are. -/
theorem batch_in_order (state : ClusterState) (me : NodeId) (ops : List ReplicaOp) (node : NodeId)
    (index : String) :
    (batches state me ops)[(node, index)]? =
      if ops.filter (fun op => op.index == index) = [] then none
      else ((targets state me index).lookup node).map fun inSync =>
        (ops.filter (fun op => op.index == index), inSync) := by
  induction ops using List.reverseRecOn with
  | nil => rfl
  | append_singleton ops op ih =>
    have step : batches state me (ops ++ [op]) =
        put (batches state me ops) op (targets state me op.index) := by
      rw [batches_eq, batches_eq, List.foldl_append]
      rfl
    rw [step, List.filter_append]
    by_cases own : op.index = index
    · subst own
      rw [put_same (targets_nodup state me op.index), ih]
      cases (targets state me op.index).lookup node with
      | none => simp
      | some inSync =>
        by_cases first : ops.filter (fun o => o.index == op.index) = []
        · simp [first]
        · simp [first]
    · rw [((put_getElem? _ _ op node index).2 fun same => own same.1.symm), ih]
      simp [own]

end Velosearch.Cluster.Replication

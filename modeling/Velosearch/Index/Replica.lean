import Velosearch.Index.Write

/-!
# A copy's side

`src/api/doc/replica.rs`: a copy takes what the primary wrote, as the primary wrote it.
-/

set_option autoImplicit false

namespace Velosearch.Index

namespace IdxState

variable (S : Settings) (st : IdxState)

/-! ## Applying -/

/-- The version an index holds of a document, deleted or not. -/
def heldVersion (id : String) : Option Nat :=
  match st.versions[id]? with
  | some m => some m.version
  | none => if st.isLive S id then some 1 else none

/-- A write carries the routing it was made with, and a write without one was made
without one; a delete leaves the routing alone. -/
def takeRouting (op : ReplicaOp) : IdxState :=
  match op.routing, op.source with
  | some r, _ => st.setRouting op.id (some r)
  | none, some _ => st.setRouting op.id none
  | none, none => st

/-- `apply_replicated`: the operation is taken. -/
def take (op : ReplicaOp) : IdxState :=
  let existed := st.isLive S op.id
  let st := st.takeRouting op
  let st := st.setReplicatedVersion S op.id op.version op.source.isSome op.seq
  let writtenIn := op.docTerm.getD op.term
  let st := st.setTerm op.id (if op.source.isSome then writtenIn else 1)
  let shard := st.shardOfDoc S op.id
  let st := if existed then st.queueOpFor op.id shard (.delete op.id) else st
  let st :=
    match op.source with
    | some raw =>
      let doc : Doc := { id := op.id, source := raw, seq := op.seq, routing := op.routing }
      st.queueOpFor op.id shard (.add doc)
    | none => st
  let routing := if op.source.isSome then op.routing else none
  let st := st.logWrite
    { id := op.id, routing, version := op.version, seq := op.seq, term := writtenIn
      source := op.source }
  (st.notePending op.id op.source).notePendingSeq op.id op.seq

/-- `apply_replicated_inner`: `force` takes the operation whatever stands here, a write
of a newer term too, and any other only where it is newer than what is held. -/
def applyReplicatedInner (op : ReplicaOp) (force : Bool) : IdxState × Bool :=
  if force then (st.take S op, true)
  else if st.appliedTerm < op.term then
    ({ st with appliedTerm := op.term }.take S op, true)
  else if (st.heldVersion S op.id).any (op.version ≤ ·) then (st, false)
  else (st.take S op, true)

/-- It is, if it is newer than what is held. -/
def applyReplicated (op : ReplicaOp) : IdxState × Bool :=
  st.applyReplicatedInner S op false

end IdxState

end Velosearch.Index

import Velosearch.Api.Refused
import Mathlib.Logic.Function.Basic

/-!
# Writing over the documents a query finds

`src/api/doc/by_query.rs`: `_delete_by_query`, `_update_by_query` and `_reindex`, from where the
documents are read to where the walk ends. The walk holds an index's lock only for a write of its
own, so that other clients write, delete, refresh, drop and make indices around every one of them.

* An index is asked for by its name and locked afterwards; what is dropped in between is still
  locked, and written, by who asked for it before. So the node keeps what it holds under numbers of
  their own, and a name is one of them.
* Of a script and of the pipelines there is what they answer, which may be anything.
* The indices that are refreshed at the end, the throttle and the answer are left out.
-/

set_option autoImplicit false

namespace Velosearch.ByQuery

open Velosearch.Cluster (BTreeMap)
open Velosearch.Index Velosearch.Api

/-! ## Shards -/

/-- What places a document: `shard_count`, at least one, `velo_routing_shards`,
`routing_partition_size` and `routing_hash`. -/
structure Shards where
  count : Nat
  pos : 0 < count
  routingShards : Option Nat
  partitionSize : Nat
  routingHash : String → ℤ

/-- An `i32` that went round. -/
def wrapI32 (n : ℤ) : ℤ :=
  n.bmod (2 ^ 32)

namespace Shards

variable (s : Shards)

/-- The shard a routing value hashes to, with the partition's offset. -/
def routingShardOffset (routing : String) (offset : ℤ) : Nat :=
  let hash := wrapI32 (s.routingHash routing + offset)
  match s.routingShards with
  | some rns =>
    if s.count ≤ rns ∧ rns % s.count = 0 then (hash % rns).toNat / (rns / s.count)
    else (hash % s.count).toNat
  | none => (hash % s.count).toNat

/-- The shard of a document, by its routing or its id. -/
def shardOf (id : String) : Option String → Nat
  | none => s.routingShardOffset id 0
  | some r =>
    let offset := if s.partitionSize = 1 then 0 else s.routingHash id % s.partitionSize
    s.routingShardOffset r (wrapI32 offset)

theorem mod_toNat_lt (hash : ℤ) {n : Nat} (pos : 0 < n) : (hash % n).toNat < n := by
  have low := Int.emod_nonneg hash (b := (n : ℤ)) (by omega)
  have high := Int.emod_lt_of_pos hash (b := (n : ℤ)) (by omega)
  omega

theorem routingShardOffset_lt (routing : String) (offset : ℤ) :
    s.routingShardOffset routing offset < s.count := by
  unfold routingShardOffset
  generalize wrapI32 (s.routingHash routing + offset) = hash
  cases s.routingShards with
  | none => exact mod_toNat_lt hash s.pos
  | some rns =>
    dsimp only
    split
    next even =>
      obtain ⟨k, hk⟩ := Nat.dvd_of_mod_eq_zero even.2
      have lt := mod_toNat_lt hash (Nat.lt_of_lt_of_le s.pos even.1)
      have kpos : 0 < k := by
        apply Nat.pos_of_ne_zero
        intro zero
        rw [hk, zero] at lt
        simp at lt
      rw [hk, Nat.mul_div_cancel_left _ s.pos, ← hk]
      rw [Nat.div_lt_iff_lt_mul kpos, ← hk]
      exact lt
    next => exact mod_toNat_lt hash s.pos

theorem shardOf_lt (id : String) (routing : Option String) : s.shardOf id routing < s.count := by
  cases routing with
  | none => exact s.routingShardOffset_lt id 0
  | some r => exact s.routingShardOffset_lt r _

end Shards

/-! ## The node -/

/-- The shards of an index, and how its documents are named. -/
structure Shape (V : Type) where
  shards : Shards
  idFingerprint : String → Nat
  routingRequired : Bool
  knobs : Knobs V
  terms : BTreeMap Nat Nat

def Shape.settings {V : Type} (s : Shape V) : Settings where
  shardOf := s.shards.shardOf
  idFingerprint := s.idFingerprint
  routingRequired := s.routingRequired
  partitionSize := s.shards.partitionSize

/-- The indices of a node: what a name stands for, and what every index that was ever made holds. -/
structure Node (M : Type) where
  names : BTreeMap String Nat
  heap : Nat → Held M
  next : Nat

namespace Node

variable {M : Type} (n : Node M)

/-- The index a handle stands for is replaced. -/
def put (h : Nat) (x : Held M) : Node M :=
  { n with heap := Function.update n.heap h x }

/-- `delete`: whoever holds the index still does. -/
def drop (name : String) : Node M :=
  { n with names := n.names.erase name }

/-- A new index under a name, with a handle of its own. -/
def make (name : String) (x : Held M) : Node M :=
  { names := n.names.insert name n.next, heap := Function.update n.heap n.next x
    next := n.next + 1 }

end Node

/-- What is done to an index under its lock, by a request of a client or by the node itself: the
routes of `Api.Doc` are made of these. -/
inductive Change (V M : Type) where
  | write (id : String) (v : V) (opType : OpType) (raw : Option String) (forced : Option Nat)
  | delete (id : String)
  | deleteExternal (id : String) (version : Nat)
  | setRouting (id : String) (routing : Option String)
  | refresh
  | refreshShard (shard : Nat)
  | hold (closed readOnly readOnlyAllowDelete writes : Bool)
  | learn (mapping : M)

/-- What another client does: to an index it has asked for, or to a name. -/
inductive Act (V M : Type) where
  | on (h : Nat) (c : Change V M)
  | drop (name : String)
  | make (name : String) (x : Held M)

/-- The node, and the documents that were written or deleted since the walk read, the last one
first: the index, the document, and the sequence number the change got. -/
structure World (M : Type) where
  node : Node M
  changes : List (Nat × String × Nat)

/-- What every index of a node is made with, and what a mapping makes of a document. -/
structure Env (V M : Type) where
  shape : Nat → Shape V
  mapper : Mapper V M

variable {V M : Type}

/-- The index after a change, and the document it wrote or deleted with the sequence number of
that, if it did. -/
def Change.run (E : Env V M) (h : Nat) (x : Held M) : Change V M → Held M × Option (String × Nat)
  | .write id v opType raw forced =>
    match x.writeDocUncounted (E.shape h).settings (E.shape h).knobs E.mapper (E.shape h).terms id v
      opType raw forced with
    | (y, .ok answer) => (y, some (id, answer.seqNo))
    | (y, .error _) => (y, none)
  | .delete id =>
    match x.deleteDoc (E.shape h).settings (E.shape h).terms id with
    | (y, .ok answer) => (y, if answer.status = 200 then some (id, answer.seqNo) else none)
    | (y, .error _) => (y, none)
  | .deleteExternal id version =>
    match x.st.deleteExternal (E.shape h).settings (E.shape h).terms id version {} with
    | (st, _, .ok answer) =>
      ({ x with st }, if answer.status = 200 then some (id, answer.seqNo) else none)
    | (st, _, .error _) => ({ x with st }, none)
  | .setRouting id routing => (x.route id routing, none)
  | .refresh => ({ x with st := x.st.refresh }, none)
  | .refreshShard shard => ({ x with st := x.st.refreshShard (E.shape h).settings shard }, none)
  | .hold closed readOnly readOnlyAllowDelete writes =>
    ({ x with st := { x.st with
      closed, blocksReadOnly := readOnly, blocksReadOnlyAllowDelete := readOnlyAllowDelete
      blocksWrite := writes } }, none)
  | .learn mapping => ({ x with mapping }, none)

namespace World

variable (E : Env V M) (w : World M)

/-- What another request does between two documents. -/
def act : Act V M → World M
  | .on h c =>
    let (y, changed) := c.run E h (w.node.heap h)
    { node := w.node.put h y
      changes := match changed with
        | some (id, n) => (h, id, n) :: w.changes
        | none => w.changes }
  | .drop name => { w with node := w.node.drop name }
  | .make name x => { w with node := w.node.make name x }

/-- What happens while the walk waits. -/
def await (acts : List (Act V M)) : World M :=
  acts.foldl (World.act E) w

/-- When a document was last changed, if it was. -/
def lastChange (h : Nat) (id : String) : Option Nat :=
  (w.changes.find? fun c => c.1 == h && c.2.1 == id).map fun c => c.2.2

end World

/-! ## The walk -/

/-- The three walks. -/
inductive Kind where
  | update
  | delete
  | reindex
deriving DecidableEq

/-- A document as the search returned it. -/
structure Seen (V : Type) where
  index : String
  id : String
  source : V
  seqNo : Option Nat

/-- A failure as the response lists it. -/
structure Failure where
  index : String
  id : String
  status : Nat
  kind : String
  reason : String

/-- What the response counts. -/
structure Tally where
  created : Nat := 0
  updated : Nat := 0
  deleted : Nat := 0
  noops : Nat := 0
  versionConflicts : Nat := 0
  failures : List Failure := []

namespace Tally

variable (t : Tally)

/-- `note_refusal`: a version conflict is counted, anything else is a failure. -/
def noteRefusal (index id : String) (refusal : Refusal) (proceeding : Bool) : Tally :=
  let conflict := refusal.kind == "version_conflict_engine_exception"
  let t := if conflict then { t with versionConflicts := t.versionConflicts + 1 } else t
  if conflict && proceeding then t
  else
    { t with failures := t.failures ++
        [{ index, id, status := refusal.status, kind := refusal.kind, reason := refusal.reason }] }

/-- A document that was written to since the walk read it, standing now at `now`. -/
def noteConflict (seen : Seen V) (now : Nat) : Tally :=
  let id := seen.id
  let seq := seen.seqNo.getD 0
  { t with failures := t.failures ++
      [{ index := seen.index, id, status := 409, kind := "version_conflict_engine_exception"
         reason := s!"[{id}]: version conflict, required seqNo [{seq}], primary term [1]. " ++
           s!"current document has seqNo [{now}] and primary term [1]" }] }

/-- The counts of a batch added to those of the walk. -/
def absorb (batch : Tally) : Tally where
  created := t.created + batch.created
  updated := t.updated + batch.updated
  deleted := t.deleted + batch.deleted
  noops := t.noops + batch.noops
  versionConflicts := t.versionConflicts + batch.versionConflicts
  failures := t.failures ++ batch.failures

end Tally

/-- How the walk goes on after a document. -/
inductive After where
  | go
  | stop
  | fail (why : Refusal)

/-- The request: what is done, to which index, with which script and pipeline. -/
structure Walk (V : Type) where
  kind : Kind
  proceed : Bool
  batch : Nat
  pos : 0 < batch
  dest : Option String := none
  createOnly : Bool := false
  only : V → V := id
  routing : Option String := none
  remote : Bool := false

/-- What `read_ctx` reads of a context. -/
structure Read (V : Type) where
  op : String
  source : V
  id : Option String := none
  routing : Option String := none

/-- What a script left of a document. -/
structure Left (V : Type) where
  extra : Option String := none
  read : Except String (Read V)
  index : Option String := none
  idNull : Bool := false

/-- What happens around one document: what other clients do before the walk asks for its index and
between that and where it holds it, and what the script, the pipelines and the store answer. -/
structure Turn (V M : Type) where
  before : List (Act V M) := []
  meanwhile : List (Act V M) := []
  script : Option (UpdateCtx V → Except Refusal (Left V)) := none
  pipeline : Option (V → Except Refusal (Option V)) := none
  makes : Option (Held M) := none
  reads : List String := []
  forbids : String → Option Refusal := fun _ => none

/-- A document of a batch, with what happens before its turn. -/
structure Doc (V M : Type) where
  seen : Seen V
  turn : Turn V M

/-- A walk on its way: the world, what it has counted, and how it goes on. -/
structure Going (M : Type) where
  world : World M
  tally : Tally := {}
  after : After := .go
  judged : List String := []

namespace Going

variable (g : Going M)

def await (E : Env V M) (acts : List (Act V M)) : Going M :=
  { g with world := g.world.await E acts }

def put (h : Nat) (x : Held M) : Going M :=
  { g with world := { g.world with node := g.world.node.put h x } }

/-- A failure is listed. -/
def failed (f : Failure) : Going M :=
  { g with tally := { g.tally with failures := g.tally.failures ++ [f] } }

def stopped : Going M :=
  { g with after := .stop }

def fail (why : Refusal) : Going M :=
  { g with after := .fail why }

def created : Going M :=
  { g with tally := { g.tally with created := g.tally.created + 1 } }

def updated : Going M :=
  { g with tally := { g.tally with updated := g.tally.updated + 1 } }

def deleted : Going M :=
  { g with tally := { g.tally with deleted := g.tally.deleted + 1 } }

def noop : Going M :=
  { g with tally := { g.tally with noops := g.tally.noops + 1 } }

/-- A write that was refused: what is listed as a failure ends the walk once its batch is done. -/
def refused (index id : String) (refusal : Refusal) (proceeding : Bool) : Going M :=
  let tally := g.tally.noteRefusal index id refusal proceeding
  { g with
    tally
    after := if g.tally.failures.length < tally.failures.length then .stop else g.after }

end Going

/-- The sequence number of a later write than the one that was seen. -/
def writtenSince (x : Held M) (seen : Seen V) : Option Nat :=
  match seen.seqNo, x.st.readSeq seen.id with
  | some saw, some now => if saw ≠ now then some now else none
  | _, _ => none

/-- A conflict is counted, or ends the walk. -/
def conflicted (W : Walk V) (g : Going M) (seen : Seen V) (now : Nat) : Going M :=
  let g := { g with tally := { g.tally with versionConflicts := g.tally.versionConflicts + 1 } }
  if W.proceed then g else { g with tally := g.tally.noteConflict seen now }.stopped

/-! ## Deleting -/

/-- What `delete_batch` does once it holds the index. -/
def deleteHeld (E : Env V M) (W : Walk V) (g : Going M) (h : Nat) (seen : Seen V) : Going M :=
  let x := g.world.node.heap h
  match writtenSince x seen with
  | some now => conflicted W g seen now
  | none =>
    match x.deleteDoc (E.shape h).settings (E.shape h).terms seen.id with
    | (y, .ok a) => if a.status = 200 then (g.put h y).deleted else (g.put h y).noop
    | (y, .error _) => (g.put h y).noop

/-- A document of `delete_batch`. -/
def deleteOne (E : Env V M) (W : Walk V) (g : Going M) (d : Doc V M) : Going M :=
  let g := g.await E d.turn.before
  let taken := g.world.node.names[d.seen.index]?
  let g := g.await E d.turn.meanwhile
  match taken with
  | none => g
  | some h => deleteHeld E W g h d.seen

/-! ## Updating -/

/-- What a script asks for. -/
inductive Asked (V : Type) where
  | noop
  | delete
  | write (source : V)
  | refused (why : Refusal)

def badRequest (reason : String) : Refusal :=
  { status := 400, kind := "illegal_argument_exception", reason }

def invalidFields (junk : String) : Refusal :=
  badRequest s!"Invalid fields added to context [{junk}]"

def notAllowed (op : String) : Refusal :=
  badRequest s!"Operation type [{op}] not allowed, only [noop, index, delete] are allowed"

/-- What a script asks for, by the `op` it left. -/
def scriptedChange (left : Left V) (id : String) : Except Refusal (Asked V) :=
  match left.extra with
  | some junk => .error (invalidFields junk)
  | none =>
    match left.read with
    | .error reason => .error (badRequest reason)
    | .ok read =>
      if read.id.any (· != id) then .error (badRequest "Modifying [_id] not allowed")
      else if read.op = "noop" ∨ read.op = "none" then .ok .noop
      else if read.op = "delete" then .ok .delete
      else if read.op = "index" then .ok (.write read.source)
      else .error (notAllowed read.op)

def Turn.piped (t : Turn V M) : Asked V → Asked V
  | .write source =>
    match t.pipeline with
    | none => .write source
    | some through =>
      match through source with
      | .ok (some source) => .write source
      | .ok none => .noop
      | .error why => .refused why
  | asked => asked

/-- What `update_batch` is to do with a document, worked out with no lock on the index. -/
def updateAsked (x : Held M) (d : Doc V M) : Except Refusal (Asked V) :=
  match d.turn.script with
  | none => .ok (d.turn.piped (.write d.seen.source))
  | some run =>
    match run { index := x.st.name, id := d.seen.id, version := x.st.versionOf d.seen.id
                source := d.seen.source, op := "index" } with
    | .error why => .error why
    | .ok left => (scriptedChange left d.seen.id).map d.turn.piped

/-- What `update_batch` does once it holds the index. -/
def updateHeld (E : Env V M) (W : Walk V) (g : Going M) (h : Nat) (seen : Seen V) :
    Asked V → Going M
  | .noop => g.noop
  | .refused why =>
    (g.failed { index := seen.index, id := seen.id, status := 400, kind := why.kind
                reason := why.reason }).stopped
  | .delete =>
    let x := g.world.node.heap h
    match writtenSince x seen with
    | some now => conflicted W g seen now
    | none => (g.put h (x.deleteDoc (E.shape h).settings (E.shape h).terms seen.id).1).deleted
  | .write source =>
    let x := g.world.node.heap h
    match writtenSince x seen with
    | some now => conflicted W g seen now
    | none =>
      match x.writeDocUncounted (E.shape h).settings (E.shape h).knobs E.mapper (E.shape h).terms
        seen.id source .index none none with
      | (y, .ok _) => (g.put h y).updated
      | (y, .error refusal) => (g.put h y).refused seen.index seen.id refusal W.proceed

/-- A document of `update_batch`. -/
def updateOne (E : Env V M) (W : Walk V) (g : Going M) (d : Doc V M) : Going M :=
  let g := g.await E d.turn.before
  let taken := g.world.node.names[d.seen.index]?
  let then_ := g.await E d.turn.meanwhile
  match taken with
  | none => then_
  | some h =>
    match updateAsked (g.world.node.heap h) d with
    | .error why => then_.fail why
    | .ok asked => updateHeld E W then_ h d.seen asked

/-! ## Reindexing -/

/-- Where a pipeline sends a document. -/
inductive Sent (V : Type) where
  | noop
  | failed (f : Failure)
  | refused (f : Failure)
  | delete (dest target : String)
  | write (dest id : String) (source : V) (routing : Option String) (op : OpType)

/-- What is asked of an index the first time a document is sent to it. -/
def judge (W : Walk V) (judged : List String) (dest : String) (d : Doc V M) (named : String) :
    Option Failure :=
  if named ≠ dest ∧ named ∉ judged then
    if !W.remote && d.turn.reads.contains named then
      some { index := named, id := d.seen.id, status := 400
             kind := "action_request_validation_exception"
             reason := "Validation Failed: 1: reindex cannot write into an index its reading " ++
               s!"from [{named}];" }
    else
      (d.turn.forbids named).map fun why =>
        { index := named, id := d.seen.id, status := 403, kind := "security_exception"
          reason := why.reason }
  else none

/-- A piped document, to its index. -/
def sendPiped (d : Doc V M) (dest id : String) (source : V) (routing : Option String) (op : OpType) :
    Sent V :=
  match d.turn.pipeline with
  | none => .write dest id source routing op
  | some through =>
    match through source with
    | .ok (some source) => .write dest id source routing op
    | .ok none => .noop
    | .error why =>
      .refused { index := dest, id := d.seen.id, status := 400, kind := why.kind
                 reason := why.reason }

/-- A document of a reindex to where it goes. -/
def sendTo (d : Doc V M) (dest : String) (left : Left V) (read : Read V) : Except Refusal (Sent V) :=
  if read.op = "noop" then .ok .noop
  else if read.op = "delete" then .ok (.delete dest (read.id.getD d.seen.id))
  else if read.op = "index" ∨ read.op = "create" then
    let id := read.id.getD (if left.idNull then "" else d.seen.id)
    let op := if read.op = "create" then OpType.create else OpType.index
    .ok (sendPiped d dest id read.source read.routing op)
  else .error (notAllowed read.op)

/-- What `reindex_batch` is to do with a document, and the destinations judged after it. -/
def reindexSent (W : Walk V) (judged : List String) (dest : String) (d : Doc V M) :
    Except Refusal (List String × Sent V) :=
  let document := W.only d.seen.source
  match d.turn.script with
  | none => .ok (judged, sendPiped d dest d.seen.id document none .index)
  | some run =>
    match run { index := dest, id := d.seen.id, version := 1, source := document, op := "index" } with
    | .error why => .error why
    | .ok left =>
      match left.extra with
      | some junk => .error (invalidFields junk)
      | none =>
        match left.read with
        | .error reason => .error (badRequest reason)
        | .ok read =>
          let named := left.index.getD dest
          match judge W judged dest d named with
          | some f => .ok (judged, .failed f)
          | none =>
            let judged := if named ≠ dest ∧ named ∉ judged then named :: judged else judged
            (sendTo d named left read).map fun sent => (judged, sent)

/-- The index a name stands for, made where there is none. -/
def ensured (n : Node M) (taken : Option Nat) (dest : String) (makes : Option (Held M)) :
    Option (Node M × Nat) :=
  match taken with
  | some h => some (n, h)
  | none =>
    match n.names[dest]? with
    | some h => some (n, h)
    | none => makes.map fun x => (n.make dest x, n.next)

/-- A document that comes without an id is given one. -/
def given (x : Held M) (id : String) : Held M × String :=
  x.named (if id = "" then none else some id)

/-- The routing the script gave, and then the one the destination says: `discard`, or `=value`. -/
def routed (W : Walk V) (x : Held M) (id : String) (scripted : Option String) : Held M :=
  let x := x.reroute id scripted
  match W.routing with
  | some asked =>
    if asked = "discard" then x.route id none
    else if asked.toList.head? = some '=' then x.route id (some (String.ofList asked.toList.tail))
    else x
  | none => x

/-- What `reindex_batch` does once it holds the destination. -/
def reindexHeld (E : Env V M) (W : Walk V) (g : Going M) (taken : Option Nat) (d : Doc V M) :
    Sent V → Going M
  | .noop => g.noop
  | .failed f => g.failed f
  | .refused f => (g.failed f).stopped
  | .delete dest target =>
    match taken with
    | none => g
    | some h =>
      match (g.world.node.heap h).deleteDoc (E.shape h).settings (E.shape h).terms target with
      | (y, .ok a) =>
        if a.status = 200 then (g.put h y).deleted
        else (g.put h y).failed { index := dest, id := target, status := a.status, kind := "",
                                  reason := "" }
      | (y, .error why) =>
        (g.put h y).failed { index := dest, id := target, status := why.status, kind := why.kind
                             reason := why.reason }
  | .write dest id source scripted op =>
    match ensured g.world.node taken dest d.turn.makes with
    | none => g
    | some (node, h) =>
      let g := { g with world := { g.world with node } }
      let (x, id) := given (node.heap h) id
      let x := routed W x id scripted
      let existed := x.st.isLive (E.shape h).settings id
      let op := if W.createOnly then OpType.create else op
      match x.writeDocUncounted (E.shape h).settings (E.shape h).knobs E.mapper (E.shape h).terms id
        source op none none with
      | (y, .ok _) => if existed then (g.put h y).updated else (g.put h y).created
      | (y, .error refusal) => (g.put h y).refused dest d.seen.id refusal W.proceed

def Sent.dest : Sent V → String
  | .delete dest _ => dest
  | .write dest _ _ _ _ => dest
  | _ => ""

/-- A document of `reindex_batch`. -/
def reindexOne (E : Env V M) (W : Walk V) (dest : String) (g : Going M) (d : Doc V M) : Going M :=
  let g := g.await E d.turn.before
  let then_ := g.await E d.turn.meanwhile
  match reindexSent W g.judged dest d with
  | .error why => then_.fail why
  | .ok (judged, sent) =>
    reindexHeld E W { then_ with judged } (g.world.node.names[sent.dest]?) d sent

/-! ## Batches and slices -/

/-- One document of the walk. -/
def one (E : Env V M) (W : Walk V) (g : Going M) (d : Doc V M) : Going M :=
  match W.kind with
  | .delete => deleteOne E W g d
  | .update => updateOne E W g d
  | .reindex =>
    match W.dest with
    | some dest => reindexOne E W dest { g with judged := dest :: g.judged } d
    | none => g.stopped

/-- A batch, document by document, until something ends the walk. -/
def batchRun (E : Env V M) (W : Walk V) (g : Going M) : List (Doc V M) → Going M
  | [] => g
  | d :: rest =>
    let g := one E W g d
    match g.after with
    | .fail _ => g
    | _ => batchRun E W g rest

/-- What there is to a batch besides its documents: the walk was not cancelled while it waited, the
script compiles, and the translog reaches the disk. -/
structure Round where
  turn : Bool := true
  compiles : Option Refusal := none
  synced : Option Refusal := none

/-- `write_batch`, with a tally of its own. -/
def writeBatch (E : Env V M) (W : Walk V) (r : Round) (g : Going M) (docs : List (Doc V M)) :
    Going M :=
  let g := { g with tally := {}, after := .go }
  let g :=
    match (if W.kind = .delete then none else r.compiles) with
    | some why => g.fail why
    | none => batchRun E W g docs
  match r.synced with
  | some why => g.fail why
  | none => g

/-- How a walk ended. -/
inductive Ended where
  | done
  | cancelled
  | stopped
  | failed (why : Refusal)

/-- `run_slice`: the documents left are written a batch at a time. -/
def sliceRun (E : Env V M) (W : Walk V) (rounds : Nat → Round) (n : Nat) (g : Going M)
    (docs : List (Doc V M)) : Going M × Ended :=
  if !(rounds n).turn then (g, .cancelled)
  else if _left : docs = [] then (g, .done)
  else
    let wrote := writeBatch E W (rounds n) g (docs.take W.batch)
    let g' := { wrote with tally := g.tally.absorb wrote.tally }
    match wrote.after with
    | .go => sliceRun E W rounds (n + 1) g' (docs.drop W.batch)
    | .stop => (g', .stopped)
    | .fail why => (g', .failed why)
termination_by docs.length
decreasing_by
  have pos := W.pos
  have := List.length_pos_iff.mpr _left
  simp only [List.length_drop]
  omega

/-- The hash the slices share ids by. -/
def fnv (id : String) : Nat :=
  id.toUTF8.data.toList.foldl (fun h b => ((h ^^^ b.toNat) * 0x100000001b3) % 2 ^ 64)
    0xcbf29ce484222325

/-- `slice_of`: with no more slices than shards a slice takes whole shards, and with more each
shard's documents are shared between the slices it holds. -/
def sliceOf (E : Env V M) (n : Node M) (seen : Seen V) (max : Nat) : Nat :=
  let (shard, shards) :=
    match n.names[seen.index]? with
    | some h => ((n.heap h).st.shardOfDoc (E.shape h).settings seen.id, (E.shape h).shards.count)
    | none => (0, 1)
  if max ≤ shards then shard % max
  else
    let inShard := if shard < max % shards then max / shards + 1 else max / shards
    shard + shards * (fnv seen.id % inShard)

/-- The documents of a page, each to its slice. -/
def shares (E : Env V M) (n : Node M) (slices : Nat) (docs : List (Doc V M)) :
    List (List (Doc V M)) :=
  if slices ≤ 1 then [docs]
  else
    docs.foldl (fun parts d => parts.modify (sliceOf E n d.seen slices) (· ++ [d]))
      (List.replicate slices [])

end Velosearch.ByQuery

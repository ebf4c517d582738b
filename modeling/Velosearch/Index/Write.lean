import Velosearch.Index.State

/-!
# Writing and deleting one document

`src/api/doc/validate.rs` and `src/api/doc/mod.rs`: whether a write may go ahead, the
write itself, and the two routes a single document is written and deleted through, from
where they hold the index's lock.

What the mapping makes of a document is the request's `kept`: the text that is stored,
with the names it ignored written in, or the complaint that refuses it
(`document_complaint`, `scan_malformed`, the dynamic templates, the percolator and the
limit on fields, which the source asks one after another at that point).

`terms` is `primary_terms` of the index in the node's cluster state. Every function
that writes answers with the operations it recorded for the copies.
-/

set_option autoImplicit false

namespace Velosearch.Index

open Velosearch.Cluster (BTreeMap)

/-- `primary_term`: the term the cluster state has for a shard, the first if none. -/
def primaryTerm (terms : BTreeMap Nat Nat) (shard : Nat) : Nat :=
  (terms[shard]?).getD 1

/-- One write as the primary made it. -/
structure ReplicaOp where
  index : String
  id : String
  routing : Option String
  version : Nat
  seq : Nat
  term : Nat
  shard : Nat
  source : Option String
  docTerm : Option Nat
deriving DecidableEq

/-- What a write may find. -/
inductive OpType where
  | index
  | create
deriving DecidableEq

/-- `external` is also `external_gt`; every other text is `internal`. -/
inductive VersionType where
  | internal
  | external
  | externalGte
deriving DecidableEq

/-- The parameters of a request. -/
structure Params where
  version : Option Nat := none
  versionType : VersionType := .internal
  ifSeqNo : Option Nat := none
  ifPrimaryTerm : Option Nat := none
  routing : Option String := none
  refresh : Bool := false
deriving DecidableEq

/-- What a request answers. -/
structure Answer where
  id : String
  version : Nat
  result : String
  seqNo : Nat
  primaryTerm : Nat
  status : Nat
deriving DecidableEq

namespace IdxState

variable (S : Settings) (terms : BTreeMap Nat Nat) (st : IdxState)

/-! ## Whether a write may go ahead -/

/-- A version the caller supplied, and what it means for the write: the version it
takes, where the caller numbers the document. -/
def versionCheck (id : String) (p : Params) : Except Refusal (Option Nat) :=
  match p.version with
  | none => .ok none
  | some want =>
    let existed := st.isLive S id
    let held := st.versionOf id
    let conflict : Refusal :=
      { status := 409, kind := "version_conflict_engine_exception"
        reason := s!"[{id}]: version conflict, current version [{held}] is higher or equal to " ++
          s!"the one provided [{want}]" }
    match p.versionType with
    | .external => if existed && want ≤ held then .error conflict else .ok (some want)
    | .externalGte => if existed && want < held then .error conflict else .ok (some want)
    | .internal =>
      if !existed || want != held then
        .error { status := 409, kind := "version_conflict_engine_exception"
                 reason := s!"[{id}]: version conflict, required version [{want}] is different " ++
                   s!"to the one in the index [{held}]" }
      else .ok none

/-- `if_seq_no` and `if_primary_term` make a write conditional on the document not
having moved. -/
def seqCheck (id : String) (p : Params) : Option Refusal :=
  let refused (reason : String) : Option Refusal :=
    some { status := 409, kind := "version_conflict_engine_exception", reason }
  if p.ifSeqNo.isNone && p.ifPrimaryTerm.isNone then none
  else if !st.isLive S id then
    -- a condition on a document that is not there cannot hold
    let want := p.ifSeqNo.getD 0
    let wantTerm := p.ifPrimaryTerm.getD 1
    refused (s!"[{id}]: version conflict, required seqNo [{want}], primary term [{wantTerm}]. " ++
      "but no document was found")
  else
    let held := (st.readSeq id).getD 0
    let haveTerm := st.termOf id
    let termOk := p.ifPrimaryTerm.all (· == haveTerm)
    let want := p.ifSeqNo.getD held
    if held == want && termOk then none
    else
      let wantTerm := p.ifPrimaryTerm.getD 1
      refused (s!"[{id}]: version conflict, required seqNo [{want}], primary term [{wantTerm}]. " ++
        s!"current document has seqNo [{held}] and primary term [{haveTerm}]")

/-- The routing a write needs and has not been given. -/
def routingRefusal (id : String) (routing : Option String) : Option Refusal :=
  let name := st.name
  if 1 < S.partitionSize && !S.routingRequired then
    some { status := 400, kind := "illegal_argument_exception"
           reason := "mapping type [_doc] must have routing required for partitioned index " ++
             s!"[{name}]" }
  else if S.routingRequired && routing.all (· == "") then
    some { status := 400, kind := "routing_missing_exception"
           reason := s!"routing is required for [{name}]/[{id}]" }
  else none

/-- The routing a read needs and has not been given. -/
def readRoutingRefusal (id : String) (p : Params) : Option Refusal :=
  let name := st.name
  if S.routingRequired && (p.routing.filter (· != "")).isNone then
    some { status := 400, kind := "routing_missing_exception"
           reason := s!"routing is required for [{name}]/[{id}]" }
  else none

/-- The routing leads to the document's shard. -/
def routingMatches (id : String) (p : Params) : Bool :=
  S.shardOf id (p.routing.filter (· != "")) == st.shardOfDoc S id

/-! ## Writing -/

/-- The version a write gets, its own or one it brings. -/
def numbered (id : String) (forced : Option Nat) (existed : Bool) : IdxState × Nat × Nat :=
  match forced with
  | some v => st.bumpToSeq S id true v none
  | none => st.bump S id true existed

/-- The write once nothing refuses it: the version and the sequence number, the queue,
and the operation the copies hear of. -/
def writeGranted (id raw : String) (forced : Option Nat) : IdxState × ReplicaOp × Answer :=
  let existed := st.isLive S id
  let shard := st.shardOfDoc S id
  let index := st.name
  let (st, version, seq) := st.numbered S id forced existed
  let routing := st.routing[id]?
  let doc : Doc := { id, source := raw, seq, routing }
  let st := if existed then st.queueOpFor id shard (.delete id) else st
  let st := st.queueOpFor id shard (.add doc)
  let term := primaryTerm terms shard
  let st := st.setTerm id term
  let op : ReplicaOp :=
    { index, id, routing, version, seq, term, shard, source := some raw, docTerm := none }
  let st := st.logWrite { id, routing, version, seq, term, source := some raw }
  ((st.notePending id (some raw)).notePendingSeq id seq, op,
    { id, version, result := if existed then "updated" else "created", seqNo := seq
      primaryTerm := term, status := if existed then 200 else 201 })

/-- `write_doc_uncounted`, for a caller's write. -/
def writeDocUncounted (id : String) (kept : Except Refusal String) (opType : OpType)
    (forced : Option Nat) : Except Refusal (IdxState × ReplicaOp × Answer) :=
  match st.changeRefusal with
  | some (kind, why) => .error { status := refusalStatus kind why, kind, reason := why }
  | none =>
    let len := id.utf8ByteSize
    if 512 < len then
      .error { status := 400, kind := "illegal_argument_exception"
               reason := s!"Document id cannot be longer than 512 bytes but was [{len}]. " ++
                 s!"The invalid id was: [{id}]." }
    else if opType = .create ∧ forced.isSome then
      .error { status := 400, kind := "action_request_validation_exception"
               reason := "Validation Failed: 1: create operations only support internal " ++
                 "versioning. use index instead;" }
    else if opType = .create ∧ st.isLive S id then
      let at_ := st.versionOf id
      .error { status := 409, kind := "version_conflict_engine_exception"
               reason := s!"[{id}]: version conflict, document already exists " ++
                 s!"(current version [{at_}])" }
    else
      match kept with
      | .error complaint => .error complaint
      | .ok raw => .ok (st.writeGranted S terms id raw forced)

/-- A write with its conditions. -/
def writeDocChecked (id : String) (kept : Except Refusal String) (opType : OpType)
    (p : Params) : Except Refusal (IdxState × ReplicaOp × Answer) :=
  match st.seqCheck S id p with
  | some refusal => .error refusal
  | none => do
    let forced ← st.versionCheck S id p
    st.writeDocUncounted S terms id kept opType forced

/-- The routing of a document is recorded. -/
def setRouting (id : String) (routing : Option String) : IdxState :=
  { st with
    routing := match routing with
      | some r => st.routing.insert id r
      | none => st.routing.erase id }

/-- The shard is refreshed where that was asked for. -/
def maybeRefresh (p : Params) (shard : Nat) : IdxState :=
  if p.refresh then st.refreshShard S shard else st

/-- `do_index`, from where it holds the index: the routing is remembered before the
write, and put back where the write is refused. -/
def doIndex (id : String) (kept : Except Refusal String) (opType : OpType) (p : Params) :
    IdxState × List ReplicaOp × Except Refusal Answer :=
  let routed := p.routing.filter (· != "")
  match st.routingRefusal S id routed with
  | some refusal => (st, [], .error refusal)
  | none =>
    let before := st.routing[id]?
    let st := st.setRouting id routed
    match st.writeDocChecked S terms id kept opType p with
    | .ok (st, op, answer) => (st.maybeRefresh S p (st.shardOfDoc S id), [op], .ok answer)
    | .error refusal => (st.setRouting id before, [], .error refusal)

/-! ## Deleting -/

/-- A deletion. -/
def deleteDoc (id : String) : IdxState × List ReplicaOp × Except Refusal Answer :=
  match st.changeRefusal with
  | some (kind, why) =>
    (st, [], .error { status := refusalStatus kind why, kind, reason := why })
  | none =>
    let existed := st.isLive S id
    let (st, version, seq) := st.bump S id false existed
    let shard := st.shardOfDoc S id
    let term := primaryTerm terms shard
    let answer : Answer :=
      { id, version, result := if existed then "deleted" else "not_found", seqNo := seq
        primaryTerm := term, status := if existed then 200 else 404 }
    if existed then
      let op : ReplicaOp :=
        { index := st.name, id, routing := none, version, seq, term, shard, source := none
          docTerm := none }
      let st := (st.queueOpFor id shard (.delete id)).setTerm id 1
      let st := st.logWrite { id, routing := none, version, seq, term, source := none }
      ((st.notePending id none).notePendingSeq id seq, [op], .ok answer)
    else (st, [], .ok answer)

/-- One that brings its version along. -/
def deleteExternal (id : String) (v : Nat) (p : Params) :
    IdxState × List ReplicaOp × Except Refusal Answer :=
  let existed := st.isLive S id
  let (st, version, seq) := st.bumpTo S id false v
  let shard := st.shardOfDoc S id
  let st :=
    if existed then
      let term := primaryTerm terms shard
      let st := (st.queueOpFor id shard (.delete id)).setTerm id 1
      let st := st.logWrite { id, routing := none, version, seq, term, source := none }
      st.notePending id none
    else st
  let st := st.setRouting id none
  (st.maybeRefresh S p shard, [],
    .ok { id, version, result := if existed then "deleted" else "not_found", seqNo := seq
          primaryTerm := primaryTerm terms shard, status := if existed then 200 else 404 })

/-- `delete_doc_route`, from where it holds the index. -/
def deleteDocRoute (id : String) (p : Params) :
    IdxState × List ReplicaOp × Except Refusal Answer :=
  match st.readRoutingRefusal S id p with
  | some refusal => (st, [], .error refusal)
  | none =>
    match st.seqCheck S id p with
    | some refusal => (st, [], .error refusal)
    | none =>
      match st.versionCheck S id p with
      | .error refusal => (st, [], .error refusal)
      | .ok (some v) => st.deleteExternal S terms id v p
      | .ok none =>
        if !st.routingMatches S id p then
          (st, [], .ok { id, version := st.versionOf id, result := "not_found", seqNo := 0
                         primaryTerm := 1, status := 404 })
        else
          let shard := st.shardOfDoc S id
          let (st, ops, answer) := st.deleteDoc S terms id
          ((st.setRouting id none).maybeRefresh S p shard, ops, answer)

end IdxState

end Velosearch.Index

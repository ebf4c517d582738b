import Mathlib
import Velosearch.Index.Write

/-!
# The routes a document is written through

`src/api/doc/mod.rs`, `update.rs` and `bulk.rs`, from where they hold the index: a document
indexed or created, updated and deleted by a request of its own, and the same as an item of
a bulk. Unlike `Index.Write`, what the mapping makes of a document is followed here, with
what a document teaches it (`write_doc_uncounted`).

* The mapping and JSON are parameters (`Mapper`): what they are asked, and in which order,
  is the source's. So are a script, compiled and run, and the pipelines a fresh document
  goes through.
* `synced` says whether the record of the write reached the disk (`sync_translog`).
* Counters, the audit log and the vectors kept beside the index are left out, and what is
  recorded for the copies, which is `Index.Write`'s.
-/

set_option autoImplicit false

namespace Velosearch.Api

open Velosearch.Cluster (BTreeMap)
open Velosearch.Index

/-- What a node makes of a JSON value, alone and under a mapping. -/
structure Mapper (V M : Type) where
  text : V → String
  read : String → Option V
  merge : V → V → V
  isObject : V → Bool
  isNull : V → Bool
  dottedOnlyField : V → Option String
  hasDocCount : V → Bool
  documentComplaint : M → String → V → Option Refusal
  scanMalformed : M → String → V → Except Refusal (List String)
  withIgnored : V → List String → V
  /-- `claim_by_templates`: the fields a template claims, and the first a strict mapping
  refuses. -/
  claimByTemplates : M → V → List (String × V) × Option String
  insertPath : M → String → V → M
  strictMode : M → String
  percolatorComplaint : M → V → Option Refusal
  fieldCount : M → Nat
  teachesAnything : M → V → Bool
  learnDynamic : M → V → M

/-- What an index's settings say besides `Settings`. -/
structure Knobs (V : Type) where
  totalFieldsLimit : Nat := 1000
  appendOnly : Bool := false
  streamDocumentRefusal : V → Option Refusal := fun _ => none

/-- An index with its mapping. -/
structure Held (M : Type) where
  st : IdxState
  mapping : M
  hasDocCount : Bool := false
  autoId : Nat := 0

/-- `seqNo` of a version conflict, as the update routes and the bulk write it. -/
def seqConflict (id : String) (want : Nat) (held : Int) : Refusal :=
  { status := 409, kind := "version_conflict_engine_exception"
    reason := s!"[{id}]: version conflict, required seqNo [{want}], primary term [1]. " ++
      s!"current document has seqNo [{held}] and primary term [1]" }

def documentMissing (id : String) : Refusal :=
  { status := 404, kind := "document_missing_exception", reason := s!"[{id}]: document missing" }

def translogException : Refusal :=
  { status := 500, kind := "translog_exception", reason := "the translog could not be forced to disk" }

/-- The checks of `write_doc_uncounted` that ask nothing of the mapping. -/
def writeRefusal (S : Settings) (st : IdxState) (id : String) (opType : OpType)
    (forced : Option Nat) : Option Refusal :=
  match st.changeRefusal with
  | some (kind, why) => some { status := IdxState.refusalStatus kind why, kind, reason := why }
  | none =>
    let len := id.utf8ByteSize
    if 512 < len then
      some { status := 400, kind := "illegal_argument_exception"
             reason := s!"Document id cannot be longer than 512 bytes but was [{len}]. " ++
               s!"The invalid id was: [{id}]." }
    else if opType = .create ∧ forced.isSome then
      some { status := 400, kind := "action_request_validation_exception"
             reason := "Validation Failed: 1: create operations only support internal " ++
               "versioning. use index instead;" }
    else if opType = .create ∧ st.isLive S id then
      let at_ := st.versionOf id
      some { status := 409, kind := "version_conflict_engine_exception"
             reason := s!"[{id}]: version conflict, document already exists " ++
               s!"(current version [{at_}])" }
    else none

def limitExceeded (most : Nat) : Refusal :=
  { status := 400, kind := "illegal_argument_exception"
    reason := s!"Limit of total fields [{most}] has been exceeded while adding new fields" }

/-- What a strict mapping answers to a field it does not know. -/
def strictRefusal (mode field : String) : Refusal :=
  { status := 400, kind := "strict_dynamic_mapping_exception"
    reason := s!"mapping set to {mode}, dynamic introduction of [{field}] within [_doc] is not " ++
      "allowed" }

/-- `apply_dynamic_templates`: what the templates claim is mapped, whether or not the
document is then refused. -/
def Mapper.applyDynamicTemplates {V M : Type} (D : Mapper V M) (m : M) (v : V) : M :=
  (D.claimByTemplates m v).1.foldl (fun m field => D.insertPath m field.1 field.2) m

namespace Held

variable {V M : Type} (S : Settings) (K : Knobs V) (D : Mapper V M) (terms : BTreeMap Nat Nat)
  (x : Held M)

/-! ## Writing -/

/-- `write_doc_uncounted`, for a caller's write. -/
def writeDocUncounted (id : String) (v : V) (opType : OpType) (raw : Option String)
    (forced : Option Nat) : Held M × Except Refusal Answer :=
  match writeRefusal S x.st id opType forced with
  | some refusal => (x, .error refusal)
  | none =>
    match D.documentComplaint x.mapping id v with
    | some refusal => (x, .error refusal)
    | none =>
      match D.scanMalformed x.mapping id v with
      | .error refusal => (x, .error refusal)
      | .ok ignored =>
        let stored :=
          if ignored.isEmpty then raw.getD (D.text v) else D.text (D.withIgnored v ignored)
        let refused := (D.claimByTemplates x.mapping v).2
        let x := { x with
          hasDocCount := x.hasDocCount || D.hasDocCount v
          mapping := D.applyDynamicTemplates x.mapping v }
        match refused with
        | some field => (x, .error (strictRefusal (D.strictMode x.mapping) field))
        | none =>
          match D.percolatorComplaint x.mapping v with
          | some refusal => (x, .error refusal)
          | none =>
            if K.totalFieldsLimit ≤ D.fieldCount x.mapping && D.teachesAnything x.mapping v then
              (x, .error (limitExceeded K.totalFieldsLimit))
            else
              let granted := x.st.writeGranted S terms id stored forced
              ({ x with st := granted.1, mapping := D.learnDynamic x.mapping v },
                .ok granted.2.2)

/-- A write with its conditions checked first. -/
def writeDocChecked (id : String) (v : V) (opType : OpType) (p : Params) :
    Held M × Except Refusal Answer :=
  match x.st.seqCheck S id p with
  | some refusal => (x, .error refusal)
  | none =>
    match x.st.versionCheck S id p with
    | .error refusal => (x, .error refusal)
    | .ok forced => x.writeDocUncounted S K D terms id v opType none forced

/-- The routing of a document is recorded, or what is recorded is removed. -/
def route (id : String) (routing : Option String) : Held M :=
  { x with st := x.st.setRouting id routing }

/-- A routing that is given is recorded; none leaves what is there. -/
def reroute (id : String) (routing : Option String) : Held M :=
  match routing with
  | some r => x.route id (some r)
  | none => x

/-- `next_auto_id`, where no id is given. -/
def named (id : Option String) : Held M × String :=
  match id with
  | some id => (x, id)
  | none =>
    let n := (x.autoId + 1) % 2 ^ 64
    let digits := Nat.toDigits 16 n
    ({ x with autoId := n },
      "auto-" ++ String.ofList (List.replicate (16 - digits.length) '0' ++ digits))

/-- `maybe_refresh`, and the answer after it. -/
def settle (p : Params) (shard : Nat) (synced : Bool) (answer : Answer) :
    Held M × Except Refusal Answer :=
  if synced then ({ x with st := x.st.maybeRefresh S p shard }, .ok answer)
  else (x, .error translogException)

/-- `PUT` and `POST` of a document. -/
def doIndex (id : Option String) (v : V) (opType : OpType) (p : Params) (synced : Bool) :
    Held M × Except Refusal Answer :=
  if !D.isObject v then
    (x, .error { status := 400, kind := "mapper_parsing_exception"
                 reason := "failed to parse: expected an object" })
  else
    match D.dottedOnlyField v with
    | some bad =>
      (x, .error { status := 400, kind := "mapper_parsing_exception"
                   reason := s!"field name cannot contain only the character [.]: [{bad}]" })
    | none =>
      match K.streamDocumentRefusal v with
      | some refusal => (x, .error refusal)
      | none =>
        let (x, id) := x.named id
        let routed := p.routing.filter (· != "")
        match x.st.routingRefusal S id routed with
        | some refusal => (x, .error refusal)
        | none =>
          let before := x.st.routing[id]?
          match (x.route id routed).writeDocChecked S K D terms id v opType p with
          | (y, .ok answer) => y.settle S p (y.st.shardOfDoc S id) synced answer
          -- a refused write leaves the document where it was
          | (y, .error refusal) => (y.route id before, .error refusal)

/-! ## Deleting -/

/-- The deletion itself. -/
def deleteDoc (id : String) : Held M × Except Refusal Answer :=
  let done := x.st.deleteDoc S terms id
  ({ x with st := done.1 }, done.2.2)

/-- `DELETE` of a document: its routing, its conditions, the deletion. -/
def deleteDocRoute (id : String) (p : Params) (synced : Bool) : Held M × Except Refusal Answer :=
  match x.st.readRoutingRefusal S id p with
  | some refusal => (x, .error refusal)
  | none =>
    match x.st.seqCheck S id p with
    | some refusal => (x, .error refusal)
    | none =>
      let shard := x.st.shardOfDoc S id
      match x.st.versionCheck S id p with
      | .error refusal => (x, .error refusal)
      | .ok (some v) =>
        match x.st.deleteExternal S terms id v {} with
        | (st, _, .ok answer) => { x with st }.settle S p shard synced answer
        | (st, _, .error refusal) => ({ x with st }, .error refusal)
      | .ok none =>
        if !x.st.routingMatches S id p then
          (x, .ok { id, version := x.st.versionOf id, result := "not_found", seqNo := 0
                    primaryTerm := 1, status := 404 })
        else
          let (y, answer) := x.deleteDoc S terms id
          -- the routing is forgotten and the shard refreshed, whatever the answer
          let y := y.route id none
          if synced then ({ y with st := y.st.maybeRefresh S p shard }, answer)
          else (y, .error translogException)

end Held

/-! ## Updating -/

/-- `update_ctx`: what a script is given. -/
structure UpdateCtx (V : Type) where
  index : String
  id : String
  version : Nat
  source : V
  op : String

/-- What a script left in its context (`read_ctx`). -/
structure Written (V : Type) where
  op : String
  source : V
  id : Option String := none

/-- A script as a request names it: it compiles or does not, a run of it fails or ends, and
what it leaves can be read or not. -/
structure Script (V : Type) where
  compiled : Except Refusal (UpdateCtx V → Except Refusal (Except Refusal (Written V)))

/-- The body of an update, and the pipelines a document it makes goes through, if there are
any: they change it, drop it or fail. -/
structure Patch (V : Type) where
  doc : Option V := none
  upsert : Option V := none
  docAsUpsert : Bool := false
  detectNoop : Bool := true
  scriptedUpsert : Bool := false
  script : Option (Script V) := none
  unknownKey : Option String := none
  pipelines : Option (V → Except Refusal (Option V)) := none

/-- What an update comes to before it is written. -/
inductive Plan (V : Type) where
  | noop
  | dropped
  | delete
  | write (source : V) (created : Bool)

/-- A document an update creates goes through the index's pipelines. -/
def Patch.piped {V : Type} (patch : Patch V) : Plan V → Except Refusal (Plan V)
  | .write source true => do
    match ← patch.pipelines.elim (.ok (some source)) (· source) with
    | none => .ok .dropped
    | some source => .ok (.write source true)
  | plan => .ok plan

namespace Held

variable {V M : Type} [DecidableEq V] (S : Settings) (K : Knobs V) (D : Mapper V M)
  (terms : BTreeMap Nat Nat) (x : Held M)

/-- The document as the mapper reads it. -/
def readSource (id : String) : Option V :=
  (x.st.readSource id).bind D.read

/-- The document an update finds, where its routing lets it be found. -/
def existing (id : String) (p : Params) : Option V :=
  if x.st.routingMatches S id p then x.readSource D id else none

/-- The answer of an update that changes nothing. -/
def standing (id result : String) (status : Nat) : Answer :=
  { id, version := x.st.versionOf id, result, seqNo := (x.st.readSeq id).getD 0
    primaryTerm := x.st.termOf id, status }

/-- The answer of an update whose document a pipeline dropped. -/
def dropped (id : String) : Answer :=
  { id, version := 0, result := "noop", seqNo := 0, primaryTerm := 0, status := 200 }

/-- What a script makes of an update, of a document or of an upsert (`fresh`). -/
def scriptPlan (id : String) (run : UpdateCtx V → Except Refusal (Except Refusal (Written V)))
    (base : V) (fresh : Bool) : Except Refusal (Plan V) := do
  let written ← run
    { index := x.st.name, id, version := x.st.versionOf id, source := base
      op := if fresh then "create" else "index" }
  let written ← written
  if written.id.any (· != id) then
    .error { status := 400, kind := "illegal_argument_exception"
             reason := "Modifying [_id] not allowed" }
  else if written.op = "noop" ∨ written.op = "none" then .ok .noop
  else if written.op = "delete" then .ok .delete
  else if written.op = "index" ∨ written.op = "create" then .ok (.write written.source fresh)
  else
    let other := written.op
    .error { status := 400, kind := "illegal_argument_exception"
             reason := s!"Operation type [{other}] not allowed, only [noop, index, delete] are " ++
               "allowed" }

/-- The plan of an update by a partial document. -/
def docPlan (id : String) (found : Option V) (patch : Patch V) : Except Refusal (Plan V) :=
  match found, patch.doc with
  | some base, some d =>
    let merged := D.merge base d
    if patch.detectNoop && merged = base then .ok .noop else .ok (.write merged false)
  | some _, none => .ok .noop
  | none, doc =>
    match patch.upsert.or (if patch.docAsUpsert then doc else none) with
    | some up => .ok (.write up true)
    | none => .error (documentMissing id)

/-- The plan of an update, by script or by document. -/
def updatePlan (id : String) (found : Option V) (patch : Patch V) : Except Refusal (Plan V) :=
  match patch.script with
  | none => docPlan D id found patch
  | some script => do
    let run ← script.compiled
    match found, patch.upsert with
    | some base, _ =>
      if D.isNull base then docPlan D id found patch else x.scriptPlan id run base false
    | none, some up =>
      -- without a document there is only the upsert to run over, and only when asked
      if patch.scriptedUpsert && !D.isNull up then x.scriptPlan id run up true
      else docPlan D id found patch
    | none, none => .error (documentMissing id)

/-- `POST /{index}/_update/{id}`. -/
def updateDoc (id : String) (patch : Patch V) (p : Params) (synced : Bool) :
    Held M × Except Refusal Answer :=
  match patch.unknownKey with
  | some key =>
    let hint := if key.length = 3 ∧ key.startsWith "d" ∧ key.endsWith "c" then
      " did you mean [doc]?" else ""
    (x, .error { status := 400, kind := "x_content_parse_exception"
                 reason := s!"[UpdateRequest] unknown field [{key}]{hint}" })
  | none =>
    match x.st.readRoutingRefusal S id p with
    | some refusal => (x, .error refusal)
    | none =>
      let found := x.existing S D id p
      let held := (x.st.readSeq id).getD 0
      match p.ifSeqNo.filter fun want => found.isSome && held != want with
      | some want => (x, .error (seqConflict id want held))
      | none =>
        match x.updatePlan D id found patch >>= patch.piped with
        | .error refusal => (x, .error refusal)
        | .ok .noop => x.settle S p (x.st.shardOfDoc S id) synced (x.standing id "noop" 200)
        | .ok .dropped => (x, .ok (dropped id))
        | .ok .delete =>
          match x.deleteDoc S terms id with
          | (y, .error refusal) => (y, .error refusal)
          | (y, .ok answer) =>
            if 400 ≤ answer.status then (y, .ok answer)
            else y.settle S p (y.st.shardOfDoc S id) synced (y.standing id "deleted" 200)
        | .ok (.write source _) =>
          -- a routing given on the update is the one the document keeps
          let y := x.reroute id (p.routing.filter (· != ""))
          match y.writeDocUncounted S K D terms id source .index none none with
          | (y, .error refusal) => (y, .error refusal)
          | (y, .ok answer) => y.settle S p (y.st.shardOfDoc S id) synced answer

/-! ## Items of a bulk -/

/-- A `u64` read as an `i64`. -/
def asI64 (n : Nat) : Int :=
  if n < 2 ^ 63 then n else n - 2 ^ 64

/-- The check of `if_seq_no` as the bulk makes it. -/
def bulkSeqCheck (id : String) (ifSeqNo : Option Nat) : Option Refusal :=
  match ifSeqNo with
  | none => none
  | some want =>
    let held := if x.st.isLive S id then asI64 ((x.st.readSeq id).getD 0) else -2
    if held != asI64 want then some (seqConflict id want held) else none

/-- An `index` or a `create` item, from the routing it carries on. `given` says whether the action
line named an id (`id_was_given_before`): the pipelines may have named one since. -/
def bulkIndex (given : Bool) (id : Option String) (v : V) (raw : String) (opType : OpType)
    (routing : Option String) (ifSeqNo : Option Nat) : Held M × Except Refusal Answer :=
  if id = some "" then
    (x, .error { status := 400, kind := "illegal_argument_exception"
                 reason := "if _id is specified it must not be empty" })
  else
    let (x, id) := x.named id
    let routed := routing.filter (· != "")
    match x.st.routingRefusal S id routed with
    | some refusal => (x, .error refusal)
    | none =>
      if given && K.appendOnly then
        let name := x.st.name
        let op := match opType with
          | .index => "INDEX"
          | .create => "CREATE"
        (x, .error { status := 400, kind := "validation_exception"
                     reason := s!"Validation Failed: 1: Operation [{op}] is not allowed with a " ++
                       s!"custom document id {id} as setting `index.append_only.enabled` is " ++
                       s!"enabled for this index: {name};" })
      else
        match x.bulkSeqCheck S id ifSeqNo with
        | some refusal => (x, .error refusal)
        | none =>
          let y := x.route id routed
          match K.streamDocumentRefusal v with
          | some refusal => (y, .error refusal)
          | none =>
            match D.documentComplaint y.mapping id v with
            | some refusal => (y, .error refusal)
            | none => y.writeDocUncounted S K D terms id v opType (some raw) none

/-- A document a pipeline sent on to this index. -/
def bulkSentOn (id : Option String) (v : V) (opType : OpType) (routing : Option String) :
    Held M × Except Refusal Answer :=
  let (x, id) := x.named id
  let y := x.reroute id routing
  y.writeDocUncounted S K D terms id v opType none none

def unexplained (status : Nat) : Refusal :=
  { status, kind := "", reason := "" }

/-- The document an update item makes where there is none: first through the pipelines, and
then through the script. -/
def bulkUpsert (id : String) (patch : Patch V) (up : V) : Except Refusal (Plan V) := do
  match ← patch.piped (.write up true) with
  | .write up _ =>
    match (if patch.scriptedUpsert then patch.script else none) with
    | none => .ok (.write up true)
    | some script =>
      let run ← script.compiled
      let written ← run { index := x.st.name, id, version := 1, source := up, op := "create" }
      match written with
      | .ok written => .ok (.write written.source true)
      | .error _ => .ok (.write up true)
  | plan => .ok plan

/-- The plan of an update in a bulk. -/
def bulkPlan (id : String) (found : Option V) (patch : Patch V) : Except Refusal (Plan V) :=
  match found, patch.doc with
  -- what changes nothing is written all the same
  | some base, some d => .ok (.write (D.merge base d) false)
  | none, doc =>
    match patch.upsert.or (if patch.docAsUpsert then doc else none) with
    | none => .error (documentMissing id)
    | some up => x.bulkUpsert id patch up
  | some base, none =>
    match patch.script with
    | none => .error (unexplained 400)
    | some script => do
      let run ← script.compiled
      let written ← run
        { index := x.st.name, id, version := x.st.versionOf id, source := base, op := "index" }
      match written with
      | .error _ => .error (unexplained 400)
      | .ok written =>
        if written.op = "noop" ∨ written.op = "none" then .ok .noop
        else if written.op = "delete" then .ok .delete
        else .ok (.write written.source false)

/-- An `update` item. -/
def bulkUpdate (id : Option String) (patch : Patch V) (routing : Option String)
    (ifSeqNo : Option Nat) : Held M × Except Refusal Answer :=
  if id = some "" then
    (x, .error { status := 400, kind := "illegal_argument_exception"
                 reason := "if _id is specified it must not be empty" })
  else
    let (x, id) := x.named id
    let routed := routing.filter (· != "")
    match x.st.readRoutingRefusal S id { routing := routed } with
    | some refusal => (x, .error refusal)
    | none =>
      let found := x.existing S D id { routing := routed }
      -- the routing the document is written with, unless it names another shard than the
      -- one holding the document
      let y := x.reroute id (routed.filter fun _ => found.isSome || !x.st.isLive S id)
      let held := (y.st.readSeq id).getD 0
      match ifSeqNo.filter fun want => found.isSome && held != want with
      | some want => (y, .error (seqConflict id want held))
      | none =>
        match y.bulkPlan D id found patch with
        | .error refusal => (y, .error refusal)
        | .ok .noop => (y, .ok (y.standing id "noop" 200))
        | .ok .dropped => (y, .ok (dropped id))
        | .ok .delete => y.deleteDoc S terms id
        | .ok (.write source _) =>
          match y.writeDocUncounted S K D terms id source .index none none with
          | (y, .ok answer) => (y, .ok answer)
          -- the failure of an item's own write carries no reason
          | (y, .error _) => (y, .error (unexplained 500))

/-- A `delete` item. -/
def bulkDelete (id : Option String) (routing : Option String) : Held M × Except Refusal Answer :=
  if id = some "" then
    (x, .error { status := 400, kind := "illegal_argument_exception"
                 reason := "if _id is specified it must not be empty" })
  else
    let (x, id) := x.named id
    let p : Params := { routing := routing.filter (· != "") }
    match x.st.readRoutingRefusal S id p with
    | some refusal => (x, .error refusal)
    | none =>
      if !x.st.routingMatches S id p then
        (x, .ok { id, version := 1, result := "not_found", seqNo := 0, primaryTerm := 1
                  status := 404 })
      else x.deleteDoc S terms id

/-- The refresh a bulk asks for of every index it touched, whatever came of the items. -/
def refreshed (refreshing : Bool) (x : Held M) : Held M :=
  if refreshing then { x with st := x.st.refresh } else x

/-- How the request of an item ends for its index: the refresh, if it asks for one, and then the
record, which reached the disk or did not. -/
def recorded (done : Held M × Except Refusal Answer) (refreshing synced : Bool) :
    Held M × Except Refusal Answer :=
  match done with
  | (y, .ok answer) =>
    (y.refreshed refreshing, if synced then .ok answer else .error translogException)
  | (y, .error refusal) => (y.refreshed refreshing, .error refusal)

end Held

end Velosearch.Api

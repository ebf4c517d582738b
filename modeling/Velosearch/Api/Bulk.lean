import Velosearch.Api.Refused

/-!
# A bulk, as a whole

`bulk` of `src/api/doc/bulk.rs` over the indices of a store. The lines of the body are split
into operations first, and a body that cannot be split is refused before anything is done.
The operations are then carried out one after another, and some of what refuses the bulk as
a whole is only found there.

* The body is given as its lines that are not blank. What JSON and the store's templates,
  pipelines, scripts and permissions make of it are parameters (`Node`).
* The writers kept open, the audit log, and the refresh and the record on disk after the
  last operation are left out: nothing there refuses the bulk.
-/

set_option autoImplicit false

namespace Velosearch.Api

open Velosearch.Cluster (BTreeMap)
open Velosearch.Index

/-! ## The store -/

/-- An alias of an index, with its write mark. -/
structure Alias where
  isWriteIndex : Bool := false
  indexRouting : Option String := none

/-- An index on the shelf, with the aliases it has. -/
structure Entry (V M : Type) where
  held : Held M
  settings : Settings
  knobs : Knobs V := {}
  aliases : List (String × Alias) := []

/-- The indices of a store, and the names of its data streams. -/
structure Shelf (V M : Type) where
  inner : BTreeMap String (Entry V M) := ∅
  dataStreams : List String := []

/-! ## The body -/

/-- An action line of the body. -/
structure Action where
  op : String
  index : Option String := none
  id : Option String := none
  asCreate : Bool := false
  requireAlias : Option Bool := none
  pipeline : Option String := none
  routing : Option String := none
  routingText : Option String := none
  ifSeqNo : Option Nat := none

/-- An operation split off the body, with the line of its document. -/
structure Item where
  action : Action
  index : String
  line : Option String

/-- What the operation is called from then on. -/
def Item.op (item : Item) : String :=
  if item.action.asCreate then "create" else item.action.op

/-- A document as the pipelines send it on. -/
structure Sent (V : Type) where
  index : String
  id : String
  source : V
  routing : Option String

/-- What a node brings to a bulk: the mapper, the pipelines, and the names it resolves. -/
structure Node (V M : Type) where
  mapper : Mapper V M
  terms : BTreeMap Nat Nat
  readAction : String → Except String (Option Action)
  readDoc : String → Except String V
  empty : V
  itemRefusal : List String → String → Option String
  resolveDateMathName : String → String
  resolve : Shelf V M → String → List String
  autoCreateComplaint : Shelf V M → String → Option Refusal
  dataStreamTemplate : Shelf V M → String → Bool
  backingIndex : String → Nat → String
  opened : Shelf V M → String → Except String (Entry V M)
  anyIngestNode : Bool
  pipelinesForWrite : Shelf V M → String → List String
  ingestForWrite : Shelf V M → String → String → V → Option String → Option String →
    Except Refusal (Option (Sent V))
  readPatch : Shelf V M → String → Action → V → Patch V

/-- The parameters of the request itself. -/
structure BulkParams where
  defaultIndex : Option String := none
  badBatchSize : Option String := none
  requireAlias : Bool := false
  pipeline : Option String := none

def illegal (reason : String) : Refusal :=
  { status := 400, kind := "illegal_argument_exception", reason }

/-- The body split into operations. -/
def splitBody {V M : Type} (N : Node V M) (q : BulkParams) :
    Nat → List String → Except Refusal (List Item)
  | _, [] => .ok []
  | at_, line :: rest =>
    match N.readAction line with
    | .error e => .error (illegal e)
    | .ok none =>
      .error (illegal (s!"Malformed action/metadata line [{at_}], expected FIELD_NAME but found " ++
        "[END_OBJECT]"))
    | .ok (some action) =>
      match action.index.or q.defaultIndex with
      | none => .error (illegal "missing index")
      | some index =>
        if action.op = "delete" then do
          let items ← splitBody N q (at_ + 1) rest
          .ok ({ action, index, line := none } :: items)
        else
          match rest with
          | [] => .error (illegal "The bulk request must be terminated by a newline [\\n]")
          | line :: rest => do
            let items ← splitBody N q (at_ + 2) rest
            .ok ({ action, index, line := some line } :: items)

/-- The privileges an index is asked for, by what the body does to it. -/
def wanted (items : List Item) (index : String) : List String :=
  "indices:data/write/bulk[s]" :: ((items.filter (·.index = index)).map fun item =>
    if item.action.op = "delete" then "indices:data/write/delete"
    else if item.action.op = "update" then "indices:data/write/update"
    else "indices:data/write/index").eraseDups

/-! ## The names of the store -/

namespace Shelf

variable {V M : Type} (N : Node V M) (s : Shelf V M)

/-- A name in angle brackets is date math. -/
def dateMath (name : String) : String :=
  if name.startsWith "<" then N.resolveDateMathName name else name

/-- The first index that has the alias. -/
def behindAlias (name : String) : Option String :=
  s.inner.keys.find? fun key => s.inner[key]?.any fun e => e.aliases.any (·.1 == name)

def isAlias (name : String) : Bool :=
  (s.behindAlias name).isSome

/-- `Store::get`: the name the index is held under. -/
def get (name : String) : Option String :=
  if s.inner.contains name then some name
  else
    let resolved := dateMath N name
    if s.inner.contains resolved then some resolved else s.behindAlias resolved

/-- The index is the alias's write index. -/
def isWriteIndex (alias_ key : String) : Bool :=
  s.inner[key]?.any fun e => e.aliases.any fun a => a.1 == alias_ && a.2.isWriteIndex

/-- The index a write to a name goes to. -/
def writeTarget (name : String) : Option String :=
  let backing := if s.dataStreams.contains name then
    s.inner.keys.filter (·.startsWith (".ds-" ++ name ++ "-")) else []
  match backing.getLast? with
  | some newest => some newest
  | none =>
    if !s.isAlias name then some name
    else
      let behind := N.resolve s name
      match behind.find? fun n => (s.get N n).any (s.isWriteIndex name) with
      | some one => some one
      | none => if behind.length = 1 then behind.head? else none

/-- The routing an alias writes with, where it gives one. -/
def aliasIndexRouting (name : String) : Option String :=
  if !s.isAlias name then none
  else do
    let target ← (s.writeTarget N name).or (N.resolve s name).head?
    let key ← s.get N target
    let e ← s.inner[key]?
    let found ← e.aliases.find? (·.1 == name)
    found.2.indexRouting

def put (key : String) (e : Entry V M) : Shelf V M :=
  { s with inner := s.inner.insert key e }

/-- `create`, of an index without a body: the store, the name the index is held under, and
the index. -/
def create (name : String) : Except String (Shelf V M × String × Entry V M) :=
  let key := dateMath N name
  if s.inner.contains key then .error "resource_already_exists_exception"
  else (N.opened s key).map fun e => (s.put key e, key, e)

/-- The index of a name, created where there is none. -/
def ensure (name : String) : Except String (Shelf V M × String × Entry V M) :=
  match (s.get N name).bind fun key => s.inner[key]?.map (key, ·) with
  | some (key, e) => .ok (s, key, e)
  | none => s.create N name

/-- A stream is made for a write that a template sends to one. -/
def createStreamForWrite (name : String) : Shelf V M :=
  if s.inner.contains name || s.isAlias name || s.dataStreams.contains name ||
      !N.dataStreamTemplate s name then s
  else
    match s.create N (N.backingIndex name 1) with
    | .error _ => s
    | .ok (s, _) => { s with dataStreams := name :: s.dataStreams }

end Shelf

/-! ## The operations -/

/-- The routing of the action against that of the alias. -/
def routingThrough (name : String) (aliasRouting asked : Option String) :
    Except Refusal (Option String) :=
  let asked := asked.filter (· != "")
  match aliasRouting with
  | none => .ok asked
  | some aliasRouting =>
    match asked.filter (· != aliasRouting) with
    | some r =>
      .error (illegal (s!"Alias [{name}] has index routing associated with it [{aliasRouting}], " ++
        s!"and was provided with routing value [{r}], rejecting operation"))
    | none => .ok (some aliasRouting)

/-- What the turn of an action comes to. -/
inductive Turn (V M : Type) where
  | on (s : Shelf V M) (answer : Except Refusal Answer)
  | stop (s : Shelf V M) (refusal : Refusal)

/-- The index routing of each name the bulk writes through, once it was looked up. -/
abbrev Routings := BTreeMap String (Option String)

/-- What is done for an action that is none of the four. -/
def Held.bulkUnknown {M : Type} (S : Settings) (x : Held M) (id : Option String)
    (routing : Option String) : Held M × Option Refusal :=
  let (x, id) := x.named id
  (x, x.st.readRoutingRefusal S id { routing := routing.filter (· != "") })

namespace Shelf

variable {V M : Type} (N : Node V M) (q : BulkParams) (s : Shelf V M)

/-- The refusals of an action before anything is looked up. -/
def refusal (item : Item) : Option Refusal :=
  let idx := item.index
  if item.action.id = some "" then some (illegal "if _id is specified it must not be empty")
  else if s.isAlias idx && 1 < (N.resolve s idx).length &&
      !(N.resolve s idx).any (fun n => (s.get N n).any (s.isWriteIndex idx)) then
    some (illegal (s!"no write index is defined for alias [{idx}]. The write index may be " ++
      "explicitly disabled using is_write_index=false or the alias points to multiple indices " ++
      "without one being designated as a write index"))
  else if item.action.requireAlias.getD q.requireAlias && !s.isAlias idx then
    some { status := 404, kind := "index_not_found_exception"
           reason := s!"no such index [{idx}] and [require_alias] request flag is [true] and " ++
             s!"[{idx}] is not an alias" }
  else if (s.get N idx).isSome || s.isAlias idx then none
  else N.autoCreateComplaint s idx

/-- The action on its index. -/
def carryOut (item : Item) (idx key : String) (e : Entry V M) (id : Option String)
    (doc : Option V) (raw : Option String) (routing : Option String) : Turn V M :=
  let x := e.held
  let v := doc.getD N.empty
  let keep (done : Held M × Except Refusal Answer) : Turn V M :=
    .on (s.put key { e with held := done.1 }) done.2
  if item.op = "delete" then keep (x.bulkDelete e.settings N.terms id routing)
  else if item.op = "index" ∨ item.op = "create" then
    keep (x.bulkIndex e.settings e.knobs N.mapper N.terms item.action.id.isSome id v (raw.getD (N.mapper.text v))
      (if item.op = "create" then .create else .index) routing item.action.ifSeqNo)
  else if item.op = "update" then
    keep (x.bulkUpdate e.settings e.knobs N.mapper N.terms id
      (N.readPatch s idx item.action v) routing item.action.ifSeqNo)
  else
    match x.bulkUnknown e.settings id routing with
    | (x, some refusal) => .on (s.put key { e with held := x }) (.error refusal)
    | (x, none) =>
      let op := item.op
      .stop (s.put key { e with held := x }) (illegal s!"unknown bulk action [{op}]")

/-- The routing an item carries: what its pipelines made of it, its own, or the one of the
alias it is written through, which is looked up once. -/
def itemRouting (known : Routings) (item : Item) (piped : Option (Option String)) :
    Except Refusal (Option String) × Routings :=
  match piped with
  | some r => (.ok r, known)
  | none =>
    let aliasRouting := known[item.index]?.getD (s.aliasIndexRouting N item.index)
    (routingThrough item.index aliasRouting item.action.routing,
      known.insert item.index aliasRouting)

/-- The routing of the action, and then the action. -/
def route (known : Routings) (item : Item) (idx key : String) (e : Entry V M)
    (id : Option String) (doc : Option V) (raw : Option String)
    (piped : Option (Option String)) : Turn V M × Routings :=
  match s.itemRouting N known item piped with
  | (.error refusal, known) => (.on s (.error refusal), known)
  | (.ok routing, known) => (s.carryOut N item idx key e id doc raw routing, known)

/-- The pipeline the action asks for, before that of the request. -/
def askedPipeline (item : Item) : Option String :=
  item.action.pipeline.or q.pipeline

/-- Whether the action's document goes through pipelines. -/
def pipes (item : Item) (idx : String) : Bool :=
  (item.op = "index" || item.op = "create") &&
    ((askedPipeline q item).isSome || !(N.pipelinesForWrite s idx).isEmpty)

/-- A document that a pipeline sends to another index. -/
def sendOn (item : Item) (d : Sent V) : Turn V M :=
  match s.ensure N d.index with
  | .error e => .stop s (illegal e)
  | .ok (s, key, e) =>
    let done := e.held.bulkSentOn e.settings e.knobs N.mapper N.terms
      (if d.id = "" then none else some d.id) d.source
      (if item.op = "create" then .create else .index) d.routing
    .on (s.put key { e with held := done.1 }) done.2

/-- The operation, on the index it was found to be for. -/
def ingest (known : Routings) (item : Item) (idx key : String) (e : Entry V M)
    (doc : Option V) : Turn V M × Routings :=
  let id := item.action.id
  if !s.pipes N q item idx then
    s.route N known item idx key e id doc (item.line.map fun l => l.trimAscii.toString) none
  else if !N.anyIngestNode then
    (.stop s (illegal ("There are no ingest nodes in this cluster, unable to forward request " ++
      "to an ingest node.")), known)
  else
    match N.ingestForWrite s idx (id.getD "") (doc.getD N.empty) (askedPipeline q item)
        item.action.routingText with
    | .error refusal => (.on s (.error refusal), known)
    | .ok none => (.on s (.ok (Held.dropped (id.getD ""))), known)
    | .ok (some d) =>
      if d.index ≠ idx then (s.sendOn N item d, known)
      else
        s.route N known item idx key e (if d.id = "" then id else some d.id) (some d.source) none
          (some d.routing)

/-- The index of the action, with a stream or an index made for it. -/
def open_ (known : Routings) (item : Item) (idx : String) (doc : Option V) :
    Turn V M × Routings :=
  match s.ensure N idx with
  | .error e => (.stop s (illegal e), known)
  | .ok (s, key, e) => s.ingest N q known item idx key e doc

/-- One action, from its refusals to its answer. -/
def turn (refused : String → Option String) (known : Routings) (item : Item) :
    Turn V M × Routings :=
  match refused item.index with
  | some why => (.on s (.error { status := 403, kind := "security_exception", reason := why }), known)
  | none =>
    match item.line.mapM N.readDoc with
    | .error e => (.stop s (illegal e), known)
    | .ok doc =>
      match s.refusal N q item with
      | some refusal => (.on s (.error refusal), known)
      | none =>
        let s := s.createStreamForWrite N item.index
        s.open_ N q known item ((s.writeTarget N item.index).getD item.index) doc

/-- The bulk: its actions in order, the shelves they leave, and what stopped it. -/
def loop (refused : String → Option String) :
    Shelf V M → Routings → List Item → List (Shelf V M) × Option Refusal
  | _, _, [] => ([], none)
  | s, known, item :: rest =>
    match s.turn N q refused known item with
    | (.stop s refusal, _) => ([s], some refusal)
    | (.on s _, known) =>
      let (stores, refusal) := loop refused s known rest
      (s :: stores, refusal)

/-- `bulk`: the stores its operations leave, one after another, and what refuses it as a
whole. -/
def bulk (body : List String) : List (Shelf V M) × Option Refusal :=
  match q.badBatchSize with
  | some b => ([], some (illegal s!"Batch size must be greater than 0, but got [{b}]"))
  | none =>
    match splitBody N q 1 body with
    | .error refusal => ([], some refusal)
    | .ok items => loop N q (fun idx => N.itemRefusal (wanted items idx) idx) s ∅ items

end Shelf

end Velosearch.Api

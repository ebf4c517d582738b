import Velosearch.Api.Refused

/-!
# A bulk of one operation

The same operation sent by itself and as the one item of a bulk. The two are written apart
in the source, and each repeats the rules on routing, versions, conditions, updates that
change nothing and upserts by hand. They agree where an operation meets none of the rules
that only one of them has.
-/

set_option autoImplicit false

namespace Velosearch.Api

open Velosearch.Cluster (BTreeMap)
open Velosearch.Index

/-- An operation on a document. -/
inductive Op (V : Type) where
  | index (id : Option String) (v : V) (line : String) (opType : OpType) (p : Params)
  | update (id : String) (patch : Patch V) (p : Params)
  | delete (id : String) (p : Params)

/-- A write was answered, not refused. -/
def accepted : Except Refusal Answer → Bool
  | .ok _ => true
  | .error _ => false

namespace Op

variable {V M : Type} [DecidableEq V] (S : Settings) (K : Knobs V) (D : Mapper V M)
  (terms : BTreeMap Nat Nat) (x : Held M)

/-- The operation as the route for single documents carries it out. -/
def single : Op V → Held M × Except Refusal Answer
  | .index id v _ opType p =>
    x.doIndex S K D terms id v opType { p with refresh := false } true
  | .update id patch p => x.updateDoc S K D terms id patch { p with refresh := false } true
  | .delete id p => x.deleteDocRoute S terms id { p with refresh := false } true

/-- The item of a bulk. -/
def bulk : Op V → Held M × Except Refusal Answer
  | .index id v line opType p => x.bulkIndex S K D terms id.isSome id v line opType p.routing p.ifSeqNo
  | .update id patch p => x.bulkUpdate S K D terms (some id) patch p.routing p.ifSeqNo
  | .delete id p => x.bulkDelete S terms (some id) p.routing

/-- Both accept it or refuse it, and leave the index the same. -/
def Agrees (op : Op V) : Prop :=
  accepted (op.single S K D terms x).2 = accepted (op.bulk S K D terms x).2 ∧
    (op.single S K D terms x).1 = (op.bulk S K D terms x).1

end Op

/-! ## The condition -/

/-- A bulk finds nothing in the patch that it could carry out. -/
def Patch.Barren {V : Type} (found : Option V) (patch : Patch V) : Prop :=
  match found, patch.doc with
  | none, doc => patch.upsert.or (if patch.docAsUpsert then doc else none) = none
  | some _, some _ => False
  | some _, none => ∀ script ∈ patch.script, ∃ r, script.compiled = .error r

/-- The pipelines, if there are any, leave a fresh document as it is. -/
def Patch.Through {V : Type} (patch : Patch V) (source : V) : Prop :=
  patch.piped (.write source true) = .ok (.write source true)

namespace Held

variable {V M : Type} [DecidableEq V] (S : Settings) (K : Knobs V) (D : Mapper V M) (x : Held M)

/-- A scripted update that keeps to what both routes do with a script. -/
def TameUpdate (id : String) (base : V)
    (run : UpdateCtx V → Except Refusal (Except Refusal (Written V))) : Prop :=
  D.isNull base = false ∧ ∀ written,
    run { index := x.st.name, id, version := x.st.versionOf id, source := base, op := "index" } =
      .ok (.ok written) →
    written.id.any (· != id) = false ∧ written.op ∈ ["noop", "none", "delete", "index", "create"]

/-- A script over an upsert does not tell the version the one gives it from the other's, and
leaves a document to be written, which the pipelines pass. -/
def TameUpsert (id : String) (up : V) (patch : Patch V)
    (run : UpdateCtx V → Except Refusal (Except Refusal (Written V))) : Prop :=
  let ctx : UpdateCtx V :=
    { index := x.st.name, id, version := 1, source := up, op := "create" }
  D.isNull up = false ∧ patch.Through up ∧
    run { ctx with version := x.st.versionOf id } = run ctx ∧
    ∀ result, run ctx = .ok result → ∃ written, result = .ok written ∧
      written.id.any (· != id) = false ∧ written.op ∈ ["index", "create"] ∧
      patch.Through written.source

/-- A patch for which both routes plan the same thing. -/
def TamePatch (id : String) (found : Option V) (patch : Patch V) : Prop :=
  match found, patch.doc, patch.script with
  -- a bulk writes what changes nothing, and knows no script beside a document
  | some base, some d, none => patch.detectNoop = true → D.merge base d ≠ base
  | some base, some d, some script =>
    (∃ run, script.compiled = .ok run) ∧ D.isNull base = true ∧
      (patch.detectNoop = true → D.merge base d ≠ base)
  | some base, none, some script => ∀ run, script.compiled = .ok run → x.TameUpdate D id base run
  -- an update of nothing is a noop to the one and a failure to the other
  | some _, none, none => False
  | none, _, none => True
  | none, doc, some script =>
    match patch.upsert with
    | none => patch.docAsUpsert = false ∨ doc = none
    | some up =>
      if patch.scriptedUpsert then
        match script.compiled with
        -- the one runs the pipelines after the script, the other before it
        | .ok run => x.TameUpsert D id up patch run
        | .error _ => patch.piped (.write up true) ≠ .ok .dropped
      else ∃ run, script.compiled = .ok run

/-- A bulk turns an `index` item away before it writes its routing down. -/
def Turned (id : Option String) (p : Params) : Prop :=
  id = some "" ∨ x.reachesRouting S K id.isSome id p.routing p.ifSeqNo = false

/-- A bulk refuses an `index` item and leaves the index as it was: it was turned away, or else
it was routed so before, and where the templates had their say they claim nothing of it. -/
def Spared (id : Option String) (v : V) (opType : OpType) (p : Params) : Prop :=
  let i := (x.named id).2
  x.Turned S K id p ∨ p.routing.filter (· != "") = x.st.routing[i]? ∧
    ((K.streamDocumentRefusal v).isSome = true ∨
      match x.verdict S K D i v opType none with
      | .early => True
      | .late => x.taught D v = x
      | .granted => False)

end Held

/-- The condition on an operation. -/
def Op.Alike {V M : Type} [DecidableEq V] (S : Settings) (K : Knobs V) (D : Mapper V M)
    (x : Held M) : Op V → Prop
  | .index id v line opType p =>
    let i := (x.named id).2
    let routed := p.routing.filter (· != "")
    -- alone it is refused before it is named
    if (!D.isObject v || (D.dottedOnlyField v).isSome ||
        (K.streamDocumentRefusal v).isSome) = true then
      id.isSome = true ∧ x.Spared S K D id v opType p
    else if (x.st.routingRefusal S i routed).isSome then True
    else
      match x.checkedVerdict S K D i v opType p with
      | .early => x.Spared S K D id v opType p
      | .late =>
        (x.Turned S K id p → x.taught D v = x) ∧
          (¬ x.Turned S K id p → routed = x.st.routing[i]? ∧
            match x.verdict S K D i v opType none with
            | .early => x.taught D v = x
            | .late => True
            | .granted => False)
      | .granted =>
        ¬ x.Turned S K id p ∧ x.st.versionCheck S i p = .ok none ∧
          (D.scanMalformed x.mapping i v = .ok [] → line = D.text v)
  | .update id patch p =>
    let found := x.existing S D id p
    let held := (x.st.readSeq id).getD 0
    let entry := x.st.routing[id]?
    -- the routing that a bulk leaves the document with, whatever comes of the item
    let left := (x.rerouting S D id p.routing).or entry
    id ≠ "" ∧ (x.st.readRoutingRefusal S id p = none →
      if (p.ifSeqNo.filter fun want => found.isSome && held != want).isSome then left = entry
      else if patch.unknownKey.isSome then patch.Barren found ∧ left = entry
      else
        x.TamePatch D id found patch ∧
          match x.planned S D id patch p with
          | some (.write _ _) => left = (p.routing.filter (· != "")).or entry
          | _ => left = entry)
  | .delete id p =>
    id ≠ "" ∧ (x.st.readRoutingRefusal S id p = none →
      if (x.st.seqCheck S id p).isSome then
        x.st.routingMatches S id p = true ∧ x.st.changeRefusal.isSome = true
      else
        match x.st.versionCheck S id p with
        | .error _ => x.st.routingMatches S id p = true ∧ x.st.changeRefusal.isSome = true
        | .ok (some _) => False
        | .ok none => x.st.routingMatches S id p = true → x.st.routing[id]? = none)

/-! ## Each route -/

namespace Held

variable {V M : Type} {S : Settings} {K : Knobs V} {D : Mapper V M} {terms : BTreeMap Nat Nat}
  {x : Held M} {id : String}

/-- Routing is recorded for one id. -/
theorem setRouting_routing (st : IdxState) (id : String) (entry : Option String) (k : String) :
    (st.setRouting id entry).routing[k]? = if id = k then entry else st.routing[k]? := by
  cases entry with
  | none => simp [IdxState.setRouting, Std.ExtTreeMap.getElem?_erase]
  | some r => simp [IdxState.setRouting, Std.ExtTreeMap.getElem?_insert]

theorem route_eq_of {y : Held M} {entry : Option String} (st : y.st = { x.st with routing := y.st.routing })
    (rest : y = { x with st := y.st })
    (same : ∀ k : String, (x.st.setRouting id entry).routing[k]? = y.st.routing[k]?) :
    x.route id entry = y := by
  have routing : (x.st.setRouting id entry).routing = y.st.routing :=
    Std.ExtTreeMap.ext_getElem? same
  rw [rest, st, ← routing]
  rfl

/-- Recording the routing that is recorded changes nothing. -/
theorem route_self {entry : Option String} (h : x.st.routing[id]? = entry) :
    x.route id entry = x := by
  refine route_eq_of rfl rfl fun k => ?_
  rw [setRouting_routing]
  split
  case isTrue own => rw [← own, h]
  case isFalse => rfl

/-- The routing recorded last is the one recorded. -/
theorem route_route (entry entry' : Option String) :
    (x.route id entry).route id entry' = x.route id entry' := by
  refine route_eq_of rfl rfl fun k => ?_
  show ((x.st.setRouting id entry).setRouting id entry').routing[k]? =
    (x.st.setRouting id entry').routing[k]?
  rw [setRouting_routing, setRouting_routing, setRouting_routing]
  split <;> rfl

theorem reroute_self {entry : Option String}
    (h : entry.or x.st.routing[id]? = x.st.routing[id]?) : x.reroute id entry = x := by
  cases entry with
  | none => rfl
  | some r => exact route_self h.symm

/-- An empty routing is none, however often it is looked at. -/
theorem filter_filter (routing : Option String) :
    (routing.filter (· != "")).filter (· != "") = routing.filter (· != "") := by
  cases routing with
  | none => rfl
  | some r => by_cases h : (r != "") = true <;> simp [Option.filter, h]

variable (terms) in
/-- The line that is queued is the document's text, whoever worked it out. -/
theorem writeDocUncounted_text (x : Held M) (id : String) (v : V) (line : String)
    (opType : OpType) (forced : Option Nat)
    (same : D.scanMalformed x.mapping id v = .ok [] → line = D.text v) :
    x.writeDocUncounted S K D terms id v opType (some line) forced =
      x.writeDocUncounted S K D terms id v opType none forced := by
  rw [writeDocUncounted, writeDocUncounted]
  cases scanned : D.scanMalformed x.mapping id v with
  | error r => rfl
  | ok ignored =>
    cases ignored with
    | nil => rw [same scanned]; rfl
    | cons => rfl

/-- Both routes answer, or both refuse, and leave the same index. -/
def Same (a b : Held M × Except Refusal Answer) : Prop :=
  accepted a.2 = accepted b.2 ∧ a.1 = b.1

/-- An empty routing is refused where none would be. -/
theorem readRoutingRefusal_filter (st : IdxState) (id : String) (p : Params) :
    st.readRoutingRefusal S id { routing := p.routing.filter (· != "") } =
      st.readRoutingRefusal S id p := by
  rw [IdxState.readRoutingRefusal, IdxState.readRoutingRefusal, filter_filter]

theorem routingMatches_filter (st : IdxState) (id : String) (p : Params) :
    st.routingMatches S id { routing := p.routing.filter (· != "") } =
      st.routingMatches S id p := by
  rw [IdxState.routingMatches, IdxState.routingMatches, filter_filter]

/-- A closed index refuses a deletion before anything else. -/
theorem deleteDoc_closed (terms : BTreeMap Nat Nat) (id : String)
    (closed : x.st.changeRefusal.isSome = true) :
    ∃ r, x.deleteDoc S terms id = (x, .error r) := by
  obtain ⟨why, eq⟩ := Option.isSome_iff_exists.mp closed
  exact ⟨_, deleteDoc_refused eq⟩

/-- The two routes to a deletion. -/
theorem delete_same (x : Held M) (p : Params) (filled : id ≠ "")
    (alike : x.st.readRoutingRefusal S id p = none →
      if (x.st.seqCheck S id p).isSome then
        x.st.routingMatches S id p = true ∧ x.st.changeRefusal.isSome = true
      else
        match x.st.versionCheck S id p with
        | .error _ => x.st.routingMatches S id p = true ∧ x.st.changeRefusal.isSome = true
        | .ok (some _) => False
        | .ok none => x.st.routingMatches S id p = true → x.st.routing[id]? = none) :
    Same (x.deleteDocRoute S terms id { p with refresh := false } true)
      (x.bulkDelete S terms (some id) p.routing) := by
  have given : ¬ (some id = some "") := fun eq => filled (Option.some.inj eq)
  have asked : x.st.readRoutingRefusal S id { p with refresh := false } =
    x.st.readRoutingRefusal S id p := rfl
  have seqs : x.st.seqCheck S id { p with refresh := false } = x.st.seqCheck S id p := rfl
  have versions : x.st.versionCheck S id { p with refresh := false } = x.st.versionCheck S id p :=
    rfl
  have matches_ : x.st.routingMatches S id { p with refresh := false } =
    x.st.routingMatches S id p := rfl
  rw [deleteDocRoute, bulkDelete, if_neg given, asked, seqs, versions, matches_]
  dsimp only [named]
  rw [readRoutingRefusal_filter, routingMatches_filter]
  cases refused : x.st.readRoutingRefusal S id p with
  | some r => exact ⟨rfl, rfl⟩
  | none =>
    have alike := alike refused
    cases seq : x.st.seqCheck S id p with
    | some r =>
      rw [seq] at alike
      obtain ⟨found, closed⟩ := alike
      obtain ⟨r', eq⟩ := deleteDoc_closed (S := S) terms id closed
      rw [found, eq]
      exact ⟨rfl, rfl⟩
    | none =>
      rw [seq] at alike
      dsimp only [Option.isSome_none] at alike ⊢
      rw [if_neg Bool.false_ne_true] at alike
      cases version : x.st.versionCheck S id p with
      | error r =>
        rw [version] at alike
        obtain ⟨found, closed⟩ := alike
        obtain ⟨r', eq⟩ := deleteDoc_closed (S := S) terms id closed
        rw [found, eq]
        exact ⟨rfl, rfl⟩
      | ok forced =>
        rw [version] at alike
        cases forced with
        | some v => exact alike.elim
        | none =>
          cases found : x.st.routingMatches S id p with
          | false => exact ⟨rfl, rfl⟩
          | true =>
            have routing : x.st.routing[id]? = none := alike found
            simp only [Bool.not_true, Bool.false_eq_true, if_false, if_true]
            -- the document has no routing to be forgotten
            cases change : x.st.changeRefusal with
            | some why =>
              rw [deleteDoc_refused change]
              refine ⟨rfl, ?_⟩
              show x.route id none = x
              exact route_none routing
            | none =>
              refine ⟨rfl, ?_⟩
              show (x.deleteDoc S terms id).1.route id none = (x.deleteDoc S terms id).1
              refine route_none ?_
              rw [deleteDoc]
              dsimp only
              rw [IdxState.deleteDoc_routing]
              exact routing

/-! ### An index or a create -/

section Index

variable (id : Option String) (v : V) (line : String) (opType : OpType) (p : Params)

variable (terms) in
/-- What the bulk route turns away is turned away whatever else is asked. -/
theorem bulkIndex_turned (turned : x.Turned S K id p) :
    ∃ r, x.bulkIndex S K D terms id.isSome id v line opType p.routing p.ifSeqNo =
      ((x.named id).1, .error r) := by
  unfold bulkIndex
  dsimp only
  by_cases empty : id = some ""
  · rw [if_pos empty, empty]
    exact ⟨_, rfl⟩
  · have stopped := turned.resolve_left empty
    obtain ⟨a, named⟩ := x.named_eq id
    rw [if_neg empty]
    rw [reachesRouting] at stopped
    generalize hi : (x.named id).2 = i at stopped
    have pair : x.named id = ({ x with autoId := a }, i) := by rw [← named, ← hi]
    rw [pair]
    dsimp only
    cases routing : x.st.routingRefusal S i (p.routing.filter (· != "")) with
    | some r => exact ⟨r, rfl⟩
    | none =>
      dsimp only
      rw [routing] at stopped
      cases append : id.isSome && K.appendOnly with
      | true => exact ⟨_, rfl⟩
      | false =>
        rw [append] at stopped
        simp only [Bool.false_eq_true, if_false]
        have same : bulkSeqCheck S { x with autoId := a } i p.ifSeqNo =
            x.bulkSeqCheck S i p.ifSeqNo := rfl
        rw [same]
        cases seq : x.bulkSeqCheck S i p.ifSeqNo with
        | some r => exact ⟨r, rfl⟩
        | none =>
          rw [seq] at stopped
          exact absurd stopped (by simp)

variable (terms) in
/-- An item that was not turned away, by the verdict on its document. -/
theorem bulkIndex_reached (reached : ¬ x.Turned S K id p) :
    let y := (x.named id).1.route (x.named id).2 (p.routing.filter (· != ""))
    let done := x.bulkIndex S K D terms id.isSome id v line opType p.routing p.ifSeqNo
    if (K.streamDocumentRefusal v).isSome then ∃ r, done = (y, .error r)
    else
      match x.verdict S K D (x.named id).2 v opType none with
      | .early => ∃ r, done = (y, .error r)
      | .late => ∃ r, done = (y.taught D v, .error r)
      | .granted =>
        done = y.writeDocUncounted S K D terms (x.named id).2 v opType (some line) none := by
  rw [Turned, not_or, Bool.not_eq_false] at reached
  obtain ⟨filled, through⟩ := reached
  rw [reachesRouting] at through
  obtain ⟨a, named⟩ := x.named_eq id
  unfold bulkIndex
  dsimp only
  rw [if_neg filled]
  generalize hi : (x.named id).2 = i at *
  have pair : x.named id = ({ x with autoId := a }, i) := by rw [← named, ← hi]
  rw [pair]
  dsimp only
  simp only [Bool.and_eq_true, Option.isNone_iff_eq_none, Bool.not_eq_true'] at through
  obtain ⟨⟨routing, append⟩, seq⟩ := through
  rw [routing, append]
  dsimp only
  rw [if_neg Bool.false_ne_true]
  have seqB : bulkSeqCheck S { x with autoId := a } i p.ifSeqNo = none := seq
  rw [seqB]
  dsimp only
  obtain ⟨y, hy⟩ : ∃ y, y = route { x with autoId := a } i (p.routing.filter (· != "")) :=
    ⟨_, rfl⟩
  have routed : Rerouted x y i (p.routing.filter (· != "")) := by
    rw [hy]
    exact rerouted_route rfl rfl i _
  rw [← hy, ← (routed.verdict_eq (S := S) (K := K) (D := D) v opType none).1]
  cases K.streamDocumentRefusal v with
  | some r => exact ⟨r, rfl⟩
  | none =>
    dsimp only [Option.isSome_none]
    rw [if_neg Bool.false_ne_true]
    have spec := y.writeDocUncounted_cases S K D terms i v opType (some line) none
    cases complaint : D.documentComplaint y.mapping i v with
    | some r =>
      have early : y.verdict S K D i v opType none = .early := by
        rw [verdict, complaint]
        simp
      rw [early]
      exact ⟨r, rfl⟩
    | none =>
      cases found : y.verdict S K D i v opType none with
      | early => rwa [found] at spec
      | late => rwa [found] at spec
      | granted => rfl

variable (terms) in
/-- What a request of its own comes to. -/
theorem doIndex_cases (sound : D.isObject v = true) (dots : D.dottedOnlyField v = none)
    (stream : K.streamDocumentRefusal v = none) :
    let z := (x.named id).1
    let done := x.doIndex S K D terms id v opType { p with refresh := false } true
    if (x.st.routingRefusal S (x.named id).2 (p.routing.filter (· != ""))).isSome then
      ∃ r, done = (z, .error r)
    else
      match x.checkedVerdict S K D (x.named id).2 v opType p with
      | .early => ∃ r, done = (z, .error r)
      | .late => ∃ r, done = (z.taught D v, .error r)
      | .granted => ∀ answer y, x.st.versionCheck S (x.named id).2 p = .ok none →
          (z.route (x.named id).2 (p.routing.filter (· != ""))).writeDocUncounted S K D terms
            (x.named id).2 v opType none none = (y, .ok answer) → done = (y, .ok answer) := by
  obtain ⟨a, named⟩ := x.named_eq id
  dsimp only
  rw [doIndex, sound, dots, stream]
  generalize hi : (x.named id).2 = i at *
  have pair : x.named id = ({ x with autoId := a }, i) := by rw [← named, ← hi]
  rw [pair]
  simp only [Bool.not_true, Bool.false_eq_true, if_false]
  cases routing : x.st.routingRefusal S i (p.routing.filter (· != "")) with
  | some r => exact ⟨r, rfl⟩
  | none =>
    dsimp only [Option.isSome_none]
    rw [if_neg Bool.false_ne_true]
    obtain ⟨y, hy⟩ : ∃ y, y = route { x with autoId := a } i (p.routing.filter (· != "")) :=
      ⟨_, rfl⟩
    have routed : Rerouted x y i (p.routing.filter (· != "")) := by
      rw [hy]
      exact rerouted_route rfl rfl i _
    have back : y.route i x.st.routing[i]? = { x with autoId := a } := by
      rw [hy, route_route]
      exact route_self rfl
    have asked : y.checkedVerdict S K D i v opType { p with refresh := false } =
        x.checkedVerdict S K D i v opType p :=
      routed.checkedVerdict_eq v opType p
    have spec := writeDocChecked_cases (S := S) (K := K) (D := D) (x := y) terms i v opType
      { p with refresh := false }
    rw [asked] at spec
    rw [← hy]
    cases found : x.checkedVerdict S K D i v opType p with
    | early =>
      rw [found] at spec
      obtain ⟨r, eq⟩ := spec
      rw [eq]
      exact ⟨r, congrArg (·, Except.error r) back⟩
    | late =>
      rw [found] at spec
      obtain ⟨r, eq⟩ := spec
      rw [eq]
      exact ⟨r, congrArg (fun z : Held M => (z.taught D v, Except.error r)) back⟩
    | granted =>
      dsimp only
      intro answer z version granted
      have seqs : y.st.seqCheck S i { p with refresh := false } = x.st.seqCheck S i p := by
        have moved := congrArg (IdxState.seqCheck S · i { p with refresh := false }) routed.1
        exact moved
      have versions : y.st.versionCheck S i { p with refresh := false } = .ok none := by
        have moved := congrArg (IdxState.versionCheck S · i { p with refresh := false }) routed.1
        exact moved.trans version
      have none' : x.st.seqCheck S i p = none := by
        cases seq : x.st.seqCheck S i p with
        | none => rfl
        | some r =>
          rw [checkedVerdict, seq] at found
          cases found
      rw [writeDocChecked, seqs, none', versions]
      dsimp only
      rw [granted]
      rfl

theorem named_route {routing : Option String} (kept : routing = x.st.routing[(x.named id).2]?) :
    (x.named id).1.route (x.named id).2 routing = (x.named id).1 := by
  obtain ⟨a, named⟩ := x.named_eq id
  refine route_self ?_
  rw [named, kept]

theorem named_taught (known : x.taught D v = x) :
    (x.named id).1.taught D v = (x.named id).1 := by
  obtain ⟨a, named⟩ := x.named_eq id
  rw [named]
  exact congrArg (fun y : Held M => { y with autoId := a }) known

variable (terms) in
theorem bulkIndex_spared (spared : x.Spared S K D id v opType p) :
    ∃ r, x.bulkIndex S K D terms id.isSome id v line opType p.routing p.ifSeqNo =
      ((x.named id).1, .error r) := by
  by_cases stopped : x.Turned S K id p
  · exact bulkIndex_turned terms id v line opType p stopped
  · obtain ⟨kept, refused⟩ := spared.resolve_left stopped
    have spec := bulkIndex_reached (D := D) terms id v line opType p stopped
    dsimp only at spec
    rw [named_route id kept] at spec
    by_cases stream : (K.streamDocumentRefusal v).isSome = true
    · rwa [if_pos stream] at spec
    · rw [if_neg stream] at spec
      have refused := refused.resolve_left stream
      cases found : x.verdict S K D (x.named id).2 v opType none with
      | early => rwa [found] at spec
      | late =>
        rw [found] at spec refused
        rwa [named_taught id v refused] at spec
      | granted =>
        rw [found] at refused
        exact refused.elim

/-- The two routes to a write. -/
theorem index_same [DecidableEq V] (alike : (Op.index id v line opType p).Alike S K D x) :
    Same (x.doIndex S K D terms id v opType { p with refresh := false } true)
      (x.bulkIndex S K D terms id.isSome id v line opType p.routing p.ifSeqNo) := by
  obtain ⟨a, named⟩ := x.named_eq id
  have turned := bulkIndex_turned (x := x) (S := S) (K := K) (D := D) terms id v line
    opType p
  have reached := bulkIndex_reached (x := x) (S := S) (K := K) (D := D) terms id v line
    opType p
  have spared := bulkIndex_spared (x := x) (S := S) (K := K) (D := D) terms id v line
    opType p
  unfold Op.Alike at alike
  dsimp only at alike
  split at alike
  case isTrue refused =>
    obtain ⟨given, alike⟩ := alike
    obtain ⟨i, rfl⟩ := Option.isSome_iff_exists.mp given
    obtain ⟨r, eq⟩ := spared alike
    obtain ⟨r', alone⟩ : ∃ r', x.doIndex S K D terms (some i) v opType { p with refresh := false }
        true = (x, .error r') := by
      rw [doIndex]
      cases object : D.isObject v with
      | false => exact ⟨_, rfl⟩
      | true =>
        cases dots : D.dottedOnlyField v with
        | some bad => exact ⟨_, rfl⟩
        | none =>
          cases stream : K.streamDocumentRefusal v with
          | some r => exact ⟨r, rfl⟩
          | none =>
            rw [object, dots, stream] at refused
            cases refused
    rw [alone, eq]
    exact ⟨rfl, rfl⟩
  case isFalse refused =>
    simp only [Bool.or_eq_true, not_or, Bool.not_eq_true', Bool.not_eq_true, Option.isSome_eq_false_iff,
      Option.isNone_iff_eq_none, Bool.not_eq_false] at refused
    obtain ⟨⟨object, dots⟩, stream⟩ := refused
    have alone := doIndex_cases (x := x) (S := S) terms id v opType p object dots stream
    dsimp only at alone
    have streamless : ¬ (K.streamDocumentRefusal v).isSome = true := by
      rw [stream]
      exact Bool.false_ne_true
    split at alike
    case isTrue routing =>
      rw [if_pos routing] at alone
      obtain ⟨r, eq⟩ := alone
      have stopped : x.Turned S K id p := by
        refine .inr ?_
        rw [reachesRouting, Option.isNone_eq_false_iff.mpr routing]
        rfl
      obtain ⟨r', eq'⟩ := turned stopped
      rw [eq, eq']
      exact ⟨rfl, rfl⟩
    case isFalse routing =>
      rw [if_neg routing] at alone
      cases found : x.checkedVerdict S K D (x.named id).2 v opType p with
      | early =>
        rw [found] at alone alike
        obtain ⟨r, eq⟩ := alone
        obtain ⟨r', eq'⟩ := spared alike
        rw [eq, eq']
        exact ⟨rfl, rfl⟩
      | late =>
        rw [found] at alone alike
        obtain ⟨r, eq⟩ := alone
        obtain ⟨stopped, through⟩ := alike
        by_cases away : x.Turned S K id p
        · obtain ⟨r', eq'⟩ := turned away
          rw [eq, eq', named_taught id v (stopped away)]
          exact ⟨rfl, rfl⟩
        · obtain ⟨kept, refused⟩ := through away
          have spec := reached away
          dsimp only at spec
          rw [if_neg streamless, named_route id kept] at spec
          cases verdict : x.verdict S K D (x.named id).2 v opType none with
          | early =>
            rw [verdict] at spec refused
            obtain ⟨r', eq'⟩ := spec
            rw [eq, eq', named_taught id v refused]
            exact ⟨rfl, rfl⟩
          | late =>
            rw [verdict] at spec
            obtain ⟨r', eq'⟩ := spec
            rw [eq, eq']
            exact ⟨rfl, rfl⟩
          | granted =>
            rw [verdict] at refused
            exact refused.elim
      | granted =>
        rw [found] at alone alike
        obtain ⟨away, version, printed⟩ := alike
        have spec := reached away
        dsimp only at spec
        have verdict : x.verdict S K D (x.named id).2 v opType none = .granted := by
          rw [checkedVerdict, version] at found
          split at found
          · cases found
          · exact found
        rw [if_neg streamless, verdict] at spec
        obtain ⟨y, hy⟩ : ∃ y, y =
            (x.named id).1.route (x.named id).2 (p.routing.filter (· != "")) := ⟨_, rfl⟩
        rw [← hy] at spec alone
        have mapping : y.mapping = x.mapping := by rw [hy, named]; rfl
        have routed : Rerouted x y (x.named id).2 (p.routing.filter (· != "")) := by
          rw [hy]
          exact rerouted_route (by rw [named]) (by rw [named]) _ _
        have granted := y.writeDocUncounted_cases S K D terms (x.named id).2 v opType none none
        rw [(routed.verdict_eq v opType none).1, verdict] at granted
        obtain ⟨stored, taught, answer, eq⟩ := granted
        have lines := writeDocUncounted_text (S := S) (K := K) (D := D) terms y
          (x.named id).2 v line opType none (by rw [mapping]; exact printed)
        rw [spec, lines, eq, alone answer _ version eq]
        exact ⟨rfl, rfl⟩

end Index

/-! ### An update -/

/-- A tame script plans the same on both routes. -/
theorem scriptPlan_update {base : V} {patch : Patch V}
    {run : UpdateCtx V → Except Refusal (Except Refusal (Written V))}
    (tame : x.TameUpdate D id base run) :
    ((x.scriptPlan id run base false) >>= patch.piped).toOption =
      (do
        let written ← run
          { index := x.st.name, id, version := x.st.versionOf id, source := base, op := "index" }
        match written with
        | .error _ => .error (unexplained 400)
        | .ok written =>
          if written.op = "noop" ∨ written.op = "none" then .ok Plan.noop
          else if written.op = "delete" then .ok .delete
          else .ok (.write written.source false) : Except Refusal (Plan V)).toOption := by
  rw [scriptPlan]
  obtain ⟨-, ran⟩ := tame
  simp only [Bool.false_eq_true, if_false]
  cases result : run
      { index := x.st.name, id, version := x.st.versionOf id, source := base, op := "index" } with
  | error r => rfl
  | ok read =>
    cases read with
    | error r => rfl
    | ok written =>
      obtain ⟨same, known⟩ := ran written result
      have changed : ¬ written.id.any (· != id) = true := by rw [same]; exact Bool.false_ne_true
      show ((if written.id.any (· != id) = true then _ else _ : Except Refusal (Plan V)) >>=
        patch.piped).toOption = _
      rw [if_neg changed]
      by_cases idle : written.op = "noop" ∨ written.op = "none"
      · rw [if_pos idle]
        show _ = (if _ then _ else _ : Except Refusal (Plan V)).toOption
        rw [if_pos idle]
        rfl
      · rw [if_neg idle]
        show _ = (if _ then _ else _ : Except Refusal (Plan V)).toOption
        rw [if_neg idle]
        by_cases gone : written.op = "delete"
        · rw [if_pos gone, if_pos gone]
          rfl
        · have writes : written.op = "index" ∨ written.op = "create" := by
            simp only [List.mem_cons, List.not_mem_nil, or_false] at known
            tauto
          rw [if_neg gone, if_neg gone, if_pos writes]
          rfl

/-- A document to be created goes through the pipelines on either route. -/
theorem piped_fresh (patch : Patch V) (up : V) :
    (∃ r, patch.piped (.write up true) = .error r) ∨ patch.piped (.write up true) = .ok .dropped ∨
      ∃ source, patch.piped (.write up true) = .ok (.write source true) := by
  rw [Patch.piped]
  cases patch.pipelines.elim (.ok (some up)) (· up) with
  | error r => exact .inl ⟨r, rfl⟩
  | ok made =>
    cases made with
    | none => exact .inr (.inl rfl)
    | some source => exact .inr (.inr ⟨source, rfl⟩)

/-- An upsert without a script is a write of its document. -/
theorem bulkUpsert_plain {patch : Patch V} (up : V)
    (plain : (if patch.scriptedUpsert then patch.script else none) = none) :
    x.bulkUpsert id patch up = patch.piped (.write up true) := by
  rw [bulkUpsert, plain]
  rcases piped_fresh patch up with ⟨r, eq⟩ | eq | ⟨source, eq⟩ <;> rw [eq] <;> rfl

theorem bulkUpsert_scripted [DecidableEq V] {patch : Patch V} {up : V} {script : Script V}
    (asked : patch.scriptedUpsert = true) (scripted : patch.script = some script)
    (tame : match script.compiled with
      | .ok run => x.TameUpsert D id up patch run
      | .error _ => patch.piped (.write up true) ≠ .ok .dropped) :
    ((do
        let run ← script.compiled
        if D.isNull up then docPlan D id none patch else x.scriptPlan id run up true :
          Except Refusal (Plan V)) >>= patch.piped).toOption =
      (x.bulkUpsert id patch up).toOption := by
  rw [bulkUpsert, asked, if_pos rfl, scripted]
  cases compiled : script.compiled with
  | error r =>
    rw [compiled] at tame
    rcases piped_fresh patch up with ⟨r', eq⟩ | eq | ⟨source, eq⟩
    · rw [eq]
      rfl
    · exact absurd eq tame
    · rw [eq]
      show _ = (script.compiled >>= _ : Except Refusal (Plan V)).toOption
      rw [compiled]
      rfl
  | ok run =>
    rw [compiled] at tame
    obtain ⟨null, through, version, tame⟩ := tame
    rw [through, null]
    show (x.scriptPlan id run up true >>= patch.piped).toOption =
      (script.compiled >>= _ : Except Refusal (Plan V)).toOption
    rw [compiled, scriptPlan, if_pos rfl, version]
    cases result : run { index := x.st.name, id, version := 1, source := up, op := "create" } with
    | error r =>
      show _ = (run _ >>= _ : Except Refusal (Plan V)).toOption
      rw [result]
      rfl
    | ok read =>
      obtain ⟨written, rfl, same, writes, passed⟩ := tame read result
      have changed : ¬ written.id.any (· != id) = true := by rw [same]; exact Bool.false_ne_true
      have writes : written.op = "index" ∨ written.op = "create" := by simpa using writes
      have idle : ¬ (written.op = "noop" ∨ written.op = "none") := by
        rcases writes with eq | eq <;> rw [eq] <;> decide
      have gone : ¬ written.op = "delete" := by
        rcases writes with eq | eq <;> rw [eq] <;> decide
      show ((if written.id.any (· != id) = true then _ else _ : Except Refusal (Plan V)) >>=
        patch.piped).toOption = (run _ >>= _ : Except Refusal (Plan V)).toOption
      rw [if_neg changed, if_neg idle, if_neg gone, if_pos writes, result]
      show (patch.piped (.write written.source true)).toOption = _
      rw [passed]
      rfl

/-- **The two routes come to the same** of an update that is tame. -/
theorem plan_eq [DecidableEq V] {found : Option V} {patch : Patch V} (tame : x.TamePatch D id found patch) :
    (x.updatePlan D id found patch >>= patch.piped).toOption =
      (x.bulkPlan D id found patch).toOption := by
  cases found with
  | some base =>
    cases doc : patch.doc with
    | some d =>
      have written : (patch.detectNoop = true → D.merge base d ≠ base) →
          (docPlan D id (some base) patch >>= patch.piped).toOption =
            (x.bulkPlan D id (some base) patch).toOption := by
        intro moves
        have moved : ¬ (patch.detectNoop && decide (D.merge base d = base)) = true := by
          intro both
          rw [Bool.and_eq_true, decide_eq_true_eq] at both
          exact moves both.1 both.2
        unfold bulkPlan docPlan
        rw [doc]
        dsimp only
        rw [if_neg moved]
        rfl
      unfold TamePatch at tame
      rw [doc] at tame
      unfold updatePlan
      cases scripted : patch.script with
      | none =>
        rw [scripted] at tame
        exact written tame
      | some script =>
        rw [scripted] at tame
        obtain ⟨⟨run, compiled⟩, null, moves⟩ := tame
        dsimp only
        rw [compiled]
        show ((if D.isNull base = true then _ else _ : Except Refusal (Plan V)) >>=
          patch.piped).toOption = _
        rw [if_pos null]
        exact written moves
    | none =>
      cases scripted : patch.script with
      | none =>
        unfold TamePatch at tame
        rw [doc, scripted] at tame
        exact tame.elim
      | some script =>
        unfold TamePatch at tame
        rw [doc, scripted] at tame
        unfold updatePlan bulkPlan
        rw [scripted, doc]
        dsimp only
        cases compiled : script.compiled with
        | error r => rfl
        | ok run =>
          have tame : x.TameUpdate D id base run := tame run compiled
          show ((if D.isNull base = true then _ else _ : Except Refusal (Plan V)) >>=
            patch.piped).toOption = _
          rw [tame.1, if_neg Bool.false_ne_true]
          exact scriptPlan_update tame
  | none =>
    cases scripted : patch.script with
    | none =>
      have plain : (if patch.scriptedUpsert then patch.script else none) = none := by
        rw [scripted]
        split <;> rfl
      unfold updatePlan bulkPlan docPlan
      rw [scripted]
      dsimp only
      cases patch.upsert.or (if patch.docAsUpsert = true then patch.doc else none) with
      | none => rfl
      | some up =>
        dsimp only
        rw [bulkUpsert_plain up plain]
        rfl
    | some script =>
      unfold TamePatch at tame
      rw [scripted] at tame
      cases upsert : patch.upsert with
      | none =>
        rw [upsert] at tame
        have nothing : (if patch.docAsUpsert = true then patch.doc else none) = none := by
          rcases tame with off | empty
          · rw [off, if_neg Bool.false_ne_true]
          · rw [empty]
            split <;> rfl
        unfold updatePlan bulkPlan
        rw [scripted, upsert]
        dsimp only
        rw [nothing]
        cases script.compiled <;> rfl
      | some up =>
        rw [upsert] at tame
        unfold updatePlan bulkPlan
        rw [scripted, upsert]
        dsimp only [Option.some_or] at tame ⊢
        cases asked : patch.scriptedUpsert with
        | true =>
          rw [asked, if_pos rfl] at tame
          rw [← bulkUpsert_scripted asked scripted tame]
          cases script.compiled with
          | error r => rfl
          | ok run =>
            show ((if true && !D.isNull up then _ else _ : Except Refusal (Plan V)) >>=
              patch.piped).toOption = ((if D.isNull up then _ else _ : Except Refusal (Plan V)) >>=
              patch.piped).toOption
            cases D.isNull up <;> rfl
        | false =>
          rw [asked, if_neg Bool.false_ne_true] at tame
          obtain ⟨run, compiled⟩ := tame
          have plain : (if patch.scriptedUpsert then patch.script else none) = none := by
            rw [asked, if_neg Bool.false_ne_true]
          unfold docPlan
          rw [bulkUpsert_plain up plain, compiled, upsert]
          rfl

theorem existing_filter (p : Params) :
    x.existing S D id { routing := p.routing.filter (· != "") } = x.existing S D id p := by
  rw [existing, existing, routingMatches_filter]

/-- A routing that is given, or else the one the document has. -/
theorem reroute_eq_route (entry : Option String) :
    x.reroute id entry = x.route id (entry.or x.st.routing[id]?) := by
  cases entry with
  | none => exact (route_self rfl).symm
  | some r => rfl

variable (id) in
/-- Nothing a bulk could carry out is a failure of the item. -/
theorem bulkPlan_barren {found : Option V} {patch : Patch V} (barren : patch.Barren found) :
    ∃ r, x.bulkPlan D id found patch = .error r := by
  unfold Patch.Barren at barren
  unfold bulkPlan
  cases found with
  | none =>
    dsimp only at barren ⊢
    rw [barren]
    exact ⟨_, rfl⟩
  | some base =>
    cases doc : patch.doc with
    | some d =>
      rw [doc] at barren
      exact barren.elim
    | none =>
      rw [doc] at barren
      cases scripted : patch.script with
      | none => exact ⟨_, rfl⟩
      | some script =>
        obtain ⟨r, failed⟩ := barren script scripted
        dsimp only
        rw [failed]
        exact ⟨r, rfl⟩

/-- The two routes to an update. -/
theorem update_same [DecidableEq V] (x : Held M) (patch : Patch V) (p : Params)
    (alike : (Op.update id patch p).Alike S K D x) :
    Same (x.updateDoc S K D terms id patch { p with refresh := false } true)
      (x.bulkUpdate S K D terms (some id) patch p.routing p.ifSeqNo) := by
  obtain ⟨filled, alike⟩ := alike
  have given : ¬ (some id = some "") := fun eq => filled (Option.some.inj eq)
  have asked : x.st.readRoutingRefusal S id { p with refresh := false } =
    x.st.readRoutingRefusal S id p := rfl
  have found : x.existing S D id { p with refresh := false } = x.existing S D id p := rfl
  obtain ⟨entry, hentry⟩ : ∃ e, e = x.rerouting S D id p.routing := ⟨_, rfl⟩
  have filtered : ((p.routing.filter (· != "")).filter
      fun _ => (x.existing S D id p).isSome || !x.st.isLive S id) = entry := by
    rw [hentry, rerouting, existing_filter]
  obtain ⟨y, hy⟩ : ∃ y, y = x.reroute id entry := ⟨_, rfl⟩
  have routed : Rerouted x y id (entry.or x.st.routing[id]?) := by
    rw [hy]
    exact rerouted_reroute rfl rfl id _
  -- the routing left with the document is the one it had
  have still : entry.or x.st.routing[id]? = x.st.routing[id]? → y = x := fun kept =>
    hy.trans (reroute_self kept)
  have seqs : (y.st.readSeq id).getD 0 = (x.st.readSeq id).getD 0 := by
    have same := congrArg (fun st => (IdxState.readSeq st id).getD 0) routed.1
    exact same
  rw [updateDoc, bulkUpdate, if_neg given, asked, found]
  dsimp only [named]
  rw [readRoutingRefusal_filter, existing_filter, filtered, ← hy, seqs]
  cases read : x.st.readRoutingRefusal S id p with
  | some r => cases patch.unknownKey <;> exact ⟨rfl, rfl⟩
  | none =>
    have alike := alike read
    rw [← hentry] at alike
    cases seq : p.ifSeqNo.filter fun want =>
        (x.existing S D id p).isSome && (x.st.readSeq id).getD 0 != want with
    | some want =>
      rw [seq, if_pos Option.isSome_some] at alike
      rw [still alike]
      cases patch.unknownKey <;> exact ⟨rfl, rfl⟩
    | none =>
      rw [seq, if_neg (by simp)] at alike
      dsimp only
      cases keys : patch.unknownKey with
      | some key =>
        rw [keys, if_pos Option.isSome_some] at alike
        obtain ⟨barren, kept⟩ := alike
        obtain ⟨r, failed⟩ := bulkPlan_barren (x := x) (D := D) id barren
        rw [still kept, failed]
        exact ⟨rfl, rfl⟩
      | none =>
        rw [keys, if_neg (by simp)] at alike
        obtain ⟨tame, left⟩ := alike
        have plans := plan_eq tame
        have planned_eq : x.planned S D id patch p =
            (x.updatePlan D id (x.existing S D id p) patch >>= patch.piped).toOption := by
          rw [planned, keys, read, seq]
          rfl
        rw [planned_eq] at left
        dsimp only
        rw [routed.bulkPlan_eq]
        cases one : x.updatePlan D id (x.existing S D id p) patch >>= patch.piped with
        | error r =>
          rw [one] at left
          cases other : x.bulkPlan D id (x.existing S D id p) patch with
          | error r' =>
            rw [still left]
            exact ⟨rfl, rfl⟩
          | ok plan => rw [one, other] at plans; cases plans
        | ok plan =>
          rw [one] at left
          cases other : x.bulkPlan D id (x.existing S D id p) patch with
          | error r => rw [one, other] at plans; cases plans
          | ok plan' =>
            rw [one, other] at plans
            obtain rfl : plan = plan' := Option.some.inj plans
            cases plan with
            | noop =>
              rw [still left]
              exact ⟨rfl, rfl⟩
            | dropped =>
              rw [still left]
              exact ⟨rfl, rfl⟩
            | delete =>
              rw [still left]
              dsimp only
              obtain ⟨z, hz⟩ : ∃ z, z = x.deleteDoc S terms id := ⟨_, rfl⟩
              rw [← hz]
              obtain ⟨z, answer⟩ := z
              cases answer with
              | error r => exact ⟨rfl, rfl⟩
              | ok answer =>
                dsimp only
                by_cases late : 400 ≤ answer.status
                · rw [if_pos late]
                  exact ⟨rfl, rfl⟩
                · rw [if_neg late]
                  exact ⟨rfl, rfl⟩
            | write source created =>
              have same : x.reroute id (p.routing.filter (· != "")) = y := by
                rw [hy, reroute_eq_route, reroute_eq_route, ← left]
              dsimp only
              rw [same]
              obtain ⟨z, hz⟩ : ∃ z, z = y.writeDocUncounted S K D terms id source .index none none :=
                ⟨_, rfl⟩
              rw [← hz]
              obtain ⟨z, answer⟩ := z
              cases answer <;> exact ⟨rfl, rfl⟩

end Held

def liveIndex : Held Unit where
  st := { name := "idx", liveIds := .ofList [0]
          written := [{ id := "1", source := "\x7b\x7d", seq := 0, routing := none }]
          realtime := [{ id := "1", source := "\x7b\x7d", seq := 0, routing := none }], seqNo := 1 }
  mapping := ()

end Velosearch.Api

import Velosearch.Api.Bulk
import Velosearch.Api.Alike

/-!
# A bulk that is refused as a whole

What refuses a bulk in the middle of its operations does not undo the ones before it. It
changed nothing exactly if every operation up to the one it stopped at is such as to touch
nothing: refused before its index was looked up, or on an index that was there and left as
it was.
-/

set_option autoImplicit false

namespace Velosearch.Api

open Velosearch.Cluster (BTreeMap)
open Velosearch.Index

/-! ## An operation that leaves its index as it was -/

namespace Held

variable {V M : Type} (S : Settings) (K : Knobs V) (D : Mapper V M) (x : Held M)

/-- A document that is not written, and would leave `entry` for its routing. -/
def WriteSpares (id : String) (v : V) (opType : OpType) (entry : Option String) : Prop :=
  entry = x.st.routing[id]? ∧
    match x.verdict S K D id v opType none with
    | .early => True
    -- what the document would have taught the mapping by then, it knew
    | .late => D.applyDynamicTemplates x.mapping v = x.mapping ∧
        (D.hasDocCount v = true → x.hasDocCount = true)
    | .granted => False

/-- A deletion that does no harm. -/
def DeleteSpares (id : String) (routing : Option String) : Prop :=
  (x.st.readRoutingRefusal S id { routing := routing.filter (· != "") }).isSome = true ∨
    x.st.routingMatches S id { routing := routing.filter (· != "") } = false ∨
    x.st.changeRefusal.isSome = true

/-- A write that does none. -/
def IndexSpares (given : Bool) (id : String) (v : V) (opType : OpType) (routing : Option String)
    (ifSeqNo : Option Nat) : Prop :=
  (x.st.routingRefusal S id (routing.filter (· != ""))).isSome = true ∨
    (given && K.appendOnly) = true ∨
    (x.bulkSeqCheck S id ifSeqNo).isSome = true ∨
    if (K.streamDocumentRefusal v).isSome then routing.filter (· != "") = x.st.routing[id]?
    else x.WriteSpares S K D id v opType (routing.filter (· != ""))

/-- An update that does none. -/
def UpdateSpares (id : String) (patch : Patch V) (routing : Option String)
    (ifSeqNo : Option Nat) : Prop :=
  (x.st.readRoutingRefusal S id { routing := routing.filter (· != "") }).isSome = true ∨
    match x.bulkPlanned S D id patch routing ifSeqNo with
    | some (.write v _) =>
      x.WriteSpares S K D id v .index ((x.rerouting S D id routing).or x.st.routing[id]?)
    | plan =>
      (x.rerouting S D id routing).or x.st.routing[id]? = x.st.routing[id]? ∧
        ((plan matches some .delete) = true → x.st.changeRefusal.isSome = true)

end Held

/-! ## Each operation -/

namespace Held

variable {V M : Type} {S : Settings} {K : Knobs V} {D : Mapper V M} {terms : BTreeMap Nat Nat}
  {x y : Held M} {id : String}

theorem reroute_autoId (x : Held M) (id : String) (entry : Option String) :
    (x.reroute id entry).autoId = x.autoId := by
  cases entry <;> rfl

theorem writeDocUncounted_autoId (x : Held M) (id : String) (v : V) (opType : OpType)
    (raw : Option String) (forced : Option Nat) :
    (x.writeDocUncounted S K D terms id v opType raw forced).1.autoId = x.autoId := by
  have spec := x.writeDocUncounted_cases S K D terms id v opType raw forced
  cases found : x.verdict S K D id v opType forced with
  | early =>
    rw [found] at spec
    obtain ⟨r, eq⟩ := spec
    rw [eq]
  | late =>
    rw [found] at spec
    obtain ⟨r, eq⟩ := spec
    rw [eq]
    rfl
  | granted =>
    rw [found] at spec
    obtain ⟨stored, mapping, answer, eq⟩ := spec
    rw [eq]
    rfl

theorem named_autoId (x : Held M) : (x.named none).1.autoId ≠ x.autoId :=
  succ64_ne x.autoId

theorem taught_self {v : V} (mapping : D.applyDynamicTemplates x.mapping v = x.mapping)
    (counts : D.hasDocCount v = true → x.hasDocCount = true) : x.taught D v = x := by
  have flag : (x.hasDocCount || D.hasDocCount v) = x.hasDocCount := by
    cases own : D.hasDocCount v with
    | false => rw [Bool.or_false]
    | true => rw [counts own, Bool.true_or]
  rw [taught, flag, mapping]

theorem write_spares {entry : Option String} (v : V) (opType : OpType) (raw : Option String) :
    ((x.route id entry).writeDocUncounted S K D terms id v opType raw none).1 = x ↔
      x.WriteSpares S K D id v opType entry := by
  have routed : Rerouted x (x.route id entry) id entry := rerouted_route rfl rfl id entry
  have spec := (x.route id entry).writeDocUncounted_cases S K D terms id v opType raw none
  have verdict := (routed.verdict_eq (S := S) (K := K) (D := D) v opType none).1
  have moved : ∀ z : Held M, z = x → z.st = (x.route id entry).st → entry = x.st.routing[id]? := by
    intro z eq st
    rw [← routed.2.2, ← st, eq]
  rw [WriteSpares, ← verdict]
  cases found : (x.route id entry).verdict S K D id v opType none with
  | early =>
    rw [found] at spec
    obtain ⟨r, eq⟩ := spec
    rw [eq]
    exact ⟨fun same => ⟨moved _ same rfl, trivial⟩, fun h => route_self h.1.symm⟩
  | late =>
    rw [found] at spec
    obtain ⟨r, eq⟩ := spec
    rw [eq]
    constructor
    · intro same
      refine ⟨moved _ same rfl, congrArg Held.mapping same, fun counts => ?_⟩
      have flag : (x.hasDocCount || D.hasDocCount v) = x.hasDocCount :=
        congrArg Held.hasDocCount same
      rw [← flag, counts, Bool.or_true]
    · rintro ⟨kept, mapping, flag⟩
      rw [route_self kept.symm]
      exact taught_self mapping flag
  | granted =>
    rw [found] at spec
    obtain ⟨stored, mapping, answer, eq⟩ := spec
    rw [eq]
    refine ⟨fun same => ?_, fun h => h.2.elim⟩
    have seq := congrArg (fun z => z.st.seqNo) same
    dsimp only at seq
    rw [IdxState.writeGranted_seqNo] at seq
    exact (succ64_ne x.st.seqNo seq).elim

theorem exists_some_iff {P : String → Prop} (i : String) : (∃ j, some i = some j ∧ P j) ↔ P i :=
  ⟨fun ⟨_, eq, h⟩ => Option.some.inj eq ▸ h, fun h => ⟨i, rfl, h⟩⟩

theorem delete_spares (x : Held M) (id : Option String)
    (routing : Option String) (filled : id ≠ some "") :
    (x.bulkDelete S terms id routing).1 = x ↔ ∃ i, id = some i ∧ x.DeleteSpares S i routing := by
  cases id with
  | none =>
    refine ⟨fun same => absurd (congrArg Held.autoId same) ?_, by rintro ⟨_, ⟨⟩, _⟩⟩
    rw [bulkDelete, if_neg (by rintro ⟨⟩)]
    dsimp only
    cases (x.named none).1.st.readRoutingRefusal S (x.named none).2
        { routing := routing.filter (· != "") } with
    | some r => exact x.named_autoId
    | none =>
      dsimp only
      split <;> exact x.named_autoId
  | some i =>
    rw [bulkDelete, if_neg filled]
    dsimp only [named]
    rw [exists_some_iff, DeleteSpares]
    cases x.st.readRoutingRefusal S i { routing := routing.filter (· != "") } with
    | some r => simp
    | none =>
      dsimp only
      cases x.st.routingMatches S i { routing := routing.filter (· != "") } with
      | false => simp
      | true =>
        simp only [Bool.not_true, Bool.false_eq_true, if_false, Option.isSome_none, false_or,
          Bool.true_eq_false]
        cases refused : x.st.changeRefusal with
        | some why => simp [deleteDoc_refused refused]
        | none =>
          obtain ⟨st, answer, eq, seqNo, -⟩ := deleteDoc_granted (S := S) terms i refused
          rw [eq]
          refine ⟨fun same => ?_, by rintro ⟨⟩⟩
          have seq := congrArg (fun z => z.st.seqNo) same
          exact (succ64_ne x.st.seqNo (seqNo.symm.trans seq)).elim

theorem index_spares (x : Held M) (given : Bool) (id : Option String) (v : V) (raw : String) (opType : OpType)
    (routing : Option String) (ifSeqNo : Option Nat) (filled : id ≠ some "") :
    (x.bulkIndex S K D terms given id v raw opType routing ifSeqNo).1 = x ↔
      ∃ i, id = some i ∧ x.IndexSpares S K D given i v opType routing ifSeqNo := by
  unfold bulkIndex
  rw [if_neg filled]
  cases id with
  | none =>
    refine ⟨fun same => absurd (congrArg Held.autoId same) ?_, by rintro ⟨_, ⟨⟩, _⟩⟩
    dsimp only
    cases (x.named none).1.st.routingRefusal S (x.named none).2 (routing.filter (· != "")) with
    | some r => exact x.named_autoId
    | none =>
      dsimp only
      cases given && K.appendOnly with
      | true => exact x.named_autoId
      | false =>
        rw [if_neg Bool.false_ne_true]
        cases (x.named none).1.bulkSeqCheck S (x.named none).2 ifSeqNo with
        | some r => exact x.named_autoId
        | none =>
          cases K.streamDocumentRefusal v with
          | some r => exact x.named_autoId
          | none =>
            dsimp only
            split
            · exact x.named_autoId
            · rw [writeDocUncounted_autoId]
              exact x.named_autoId
  | some i =>
    dsimp only [named]
    rw [exists_some_iff, IndexSpares]
    cases x.st.routingRefusal S i (routing.filter (· != "")) with
    | some r => simp
    | none =>
      dsimp only
      cases given && K.appendOnly with
      | true => simp
      | false =>
        cases x.bulkSeqCheck S i ifSeqNo with
        | some r => simp
        | none =>
          simp only [Option.isSome_none, Bool.false_eq_true, false_or]
          have rerouted : x.route i (routing.filter (· != "")) = x ↔
              routing.filter (· != "") = x.st.routing[i]? := by
            refine ⟨fun same => ?_, fun kept => route_self kept.symm⟩
            have entry : (x.route i (routing.filter (· != ""))).st.routing[i]? = _ :=
              (rerouted_route (x := x) rfl rfl i _).2.2
            rw [← entry, same]
          cases K.streamDocumentRefusal v with
          | some r => simpa using rerouted
          | none =>
            simp only [Option.isSome_none, Bool.false_eq_true, if_false]
            cases complaint : D.documentComplaint x.mapping i v with
            | some r =>
              have early : x.verdict S K D i v opType none = .early := by
                rw [verdict, complaint]
                simp
              have found : D.documentComplaint (x.route i (routing.filter (· != ""))).mapping i v =
                some r := complaint
              rw [found, WriteSpares, early, and_true]
              exact rerouted
            | none =>
              have found : D.documentComplaint (x.route i (routing.filter (· != ""))).mapping i v =
                none := complaint
              rw [found]
              exact write_spares v opType (some raw)

theorem rewrite_spares {entry : Option String} (v : V) (opType : OpType) (raw : Option String) :
    ((x.reroute id entry).writeDocUncounted S K D terms id v opType raw none).1 = x ↔
      x.WriteSpares S K D id v opType (entry.or x.st.routing[id]?) := by
  have same : x.reroute id entry = x.route id (entry.or x.st.routing[id]?) := by
    cases entry with
    | none => exact (route_self rfl).symm
    | some r => rfl
  rw [same]
  exact write_spares v opType raw

theorem sentOn_spares (x : Held M) (id : Option String) (v : V) (opType : OpType)
    (routing : Option String) :
    (x.bulkSentOn S K D terms id v opType routing).1 = x ↔
      ∃ i, id = some i ∧ x.WriteSpares S K D i v opType (routing.or x.st.routing[i]?) := by
  cases id with
  | none =>
    refine ⟨fun same => absurd (congrArg Held.autoId same) ?_, nofun⟩
    rw [bulkSentOn]
    dsimp only
    rw [writeDocUncounted_autoId, reroute_autoId]
    exact x.named_autoId
  | some i =>
    rw [exists_some_iff]
    exact rewrite_spares v opType none

theorem unknown_spares (x : Held M) (id : Option String) (routing : Option String) :
    (x.bulkUnknown S id routing).1 = x ↔ id.isSome = true := by
  cases id with
  | none => exact ⟨fun same => absurd (congrArg Held.autoId same) x.named_autoId, nofun⟩
  | some i => exact ⟨fun _ => rfl, fun _ => rfl⟩

theorem update_autoId (x : Held M) (patch : Patch V) (routing : Option String)
    (ifSeqNo : Option Nat) :
    (x.bulkUpdate S K D terms none patch routing ifSeqNo).1.autoId = (x.named none).1.autoId := by
  rw [bulkUpdate, if_neg (by rintro ⟨⟩)]
  dsimp only
  generalize (x.named none).1 = z
  generalize (x.named none).2 = i
  split
  · rfl
  · generalize Option.filter (fun _ => (z.existing S D i
      { routing := routing.filter (· != "") }).isSome || !z.st.isLive S i)
      (routing.filter (· != "")) = entry
    split
    · exact z.reroute_autoId i entry
    · split
      · exact z.reroute_autoId i entry
      · exact z.reroute_autoId i entry
      · exact z.reroute_autoId i entry
      · exact z.reroute_autoId i entry
      next source created _ =>
        have written : ((z.reroute i entry).writeDocUncounted S K D terms i source .index none
            none).1.autoId = z.autoId := by
          rw [writeDocUncounted_autoId, reroute_autoId]
        split <;> rename_i eq <;> rw [eq] at written <;> exact written

theorem update_spares (x : Held M) (id : Option String) (patch : Patch V)
    (routing : Option String) (ifSeqNo : Option Nat) (filled : id ≠ some "") :
    (x.bulkUpdate S K D terms id patch routing ifSeqNo).1 = x ↔
      ∃ i, id = some i ∧ x.UpdateSpares S K D i patch routing ifSeqNo := by
  cases id with
  | none =>
    refine ⟨fun same => absurd (congrArg Held.autoId same) ?_, nofun⟩
    rw [update_autoId]
    exact x.named_autoId
  | some i =>
    rw [exists_some_iff, UpdateSpares, bulkUpdate, if_neg filled]
    dsimp only [named]
    cases x.st.readRoutingRefusal S i { routing := routing.filter (· != "") } with
    | some r => simp
    | none =>
      simp only [Option.isSome_none, Bool.false_eq_true, false_or]
      obtain ⟨y, hy⟩ : ∃ y, y = x.reroute i (x.rerouting S D i routing) := ⟨_, rfl⟩
      have routed : Rerouted x y i ((x.rerouting S D i routing).or x.st.routing[i]?) := by
        rw [hy]
        exact rerouted_reroute rfl rfl i _
      have rerouted : y = x ↔
          (x.rerouting S D i routing).or x.st.routing[i]? = x.st.routing[i]? := by
        refine ⟨fun same => ?_, fun kept => hy.trans (reroute_self kept)⟩
        rw [← routed.2.2, same]
      have seqs : (y.st.readSeq i).getD 0 = (x.st.readSeq i).getD 0 := by
        have same := congrArg (fun st => (IdxState.readSeq st i).getD 0) routed.1
        exact same
      have written : ∀ v, (y.writeDocUncounted S K D terms i v .index none none).1 = x ↔
          x.WriteSpares S K D i v .index ((x.rerouting S D i routing).or x.st.routing[i]?) := by
        intro v
        rw [hy]
        exact rewrite_spares v .index none
      rw [bulkPlanned]
      rw [rerouting] at hy
      rw [← hy, seqs]
      cases ifSeqNo.filter fun want =>
          (x.existing S D i { routing := routing.filter (· != "") }).isSome &&
            (x.st.readSeq i).getD 0 != want with
      | some want => simpa using rerouted
      | none =>
        dsimp only [Option.isSome_none]
        rw [if_neg Bool.false_ne_true, routed.bulkPlan_eq]
        cases x.bulkPlan D i (x.existing S D i { routing := routing.filter (· != "") }) patch with
        | error r => simpa [Except.toOption] using rerouted
        | ok plan =>
          dsimp only [Except.toOption]
          cases plan with
          | noop => simpa using rerouted
          | dropped => simpa using rerouted
          | delete =>
            have refusal : y.st.changeRefusal = x.st.changeRefusal := by
              have same := congrArg IdxState.changeRefusal routed.1
              exact same
            cases refused : x.st.changeRefusal with
            | some why => simpa [deleteDoc_refused (refusal.trans refused)] using rerouted
            | none =>
              obtain ⟨st, answer, eq, seqNo, -⟩ :=
                deleteDoc_granted (S := S) terms i (refusal.trans refused)
              rw [eq]
              refine ⟨fun same => ?_, fun h => absurd (h.2 rfl) Bool.false_ne_true⟩
              have counted : succ64 y.st.seqNo = succ64 x.st.seqNo := by
                have moved := congrArg (fun st => succ64 (IdxState.seqNo st)) routed.1
                exact moved
              have seq := congrArg (fun z => z.st.seqNo) same
              exact (succ64_ne x.st.seqNo ((seqNo.trans counted).symm.trans seq)).elim
          | write v created =>
            dsimp only
            rw [← written v]
            obtain ⟨z, hz⟩ : ∃ z, z = y.writeDocUncounted S K D terms i v .index none none :=
              ⟨_, rfl⟩
            rw [← hz]
            obtain ⟨z, answer⟩ := z
            cases answer <;> rfl

end Held

/-! ## An operation that leaves the store as it was -/

/-- The action is one of the four. -/
def Item.known (item : Item) : Bool :=
  item.op = "delete" || item.op = "index" || item.op = "create" || item.op = "update"

namespace Shelf

variable {V M : Type} (N : Node V M) (q : BulkParams) (s : Shelf V M)

/-- An action that does none. -/
def CarrySpares (item : Item) (idx : String) (e : Entry V M) (id : Option String)
    (doc : Option V) (routing : Option String) : Prop :=
  ∃ i, id = some i ∧
    if item.op = "delete" then e.held.DeleteSpares e.settings i routing
    else if item.op = "index" ∨ item.op = "create" then
      e.held.IndexSpares e.settings e.knobs N.mapper item.action.id.isSome i (doc.getD N.empty)
        (if item.op = "create" then .create else .index) routing item.action.ifSeqNo
    else if item.op = "update" then
      e.held.UpdateSpares e.settings e.knobs N.mapper i
        (N.readPatch s idx item.action (doc.getD N.empty)) routing item.action.ifSeqNo
    else True

/-- An action that ends the bulk. -/
def CarryHalts (item : Item) (e : Entry V M) (id : Option String) (routing : Option String) :
    Prop :=
  item.known = false ∧ (e.held.bulkUnknown e.settings id routing).2 = none

/-- The index of a name. -/
def held (name : String) : Option (String × Entry V M) :=
  (s.get N name).bind fun key => s.inner[key]?.map (key, ·)

/-- No index has to be made. -/
def Unmade (name : String) : Prop :=
  s.inner.contains (dateMath N name) = true ∨ ∃ e, N.opened s (dateMath N name) = .error e

/-- A document a pipeline sends to another index: the index is there and takes no such
document, or it is not and cannot be made. -/
def SendSpares (item : Item) (d : Sent V) : Prop :=
  match s.held N d.index with
  | none => s.Unmade N d.index
  | some (_, e) => d.id ≠ "" ∧ e.held.WriteSpares e.settings e.knobs N.mapper d.id d.source
      (if item.op = "create" then .create else .index) (d.routing.or e.held.st.routing[d.id]?)

/-- The routing of an action. -/
def routingOf (item : Item) : Except Refusal (Option String) :=
  routingThrough item.index (s.aliasIndexRouting N item.index) item.action.routing

/-- Its document, once it has been through the pipelines. -/
def ingested (item : Item) (idx : String) (doc : Option V) : Except Refusal (Option (Sent V)) :=
  N.ingestForWrite s idx (item.action.id.getD "") (doc.getD N.empty) (askedPipeline q item)
    item.action.routingText

/-- Pipelines that do no harm. -/
def IngestSpares (item : Item) (idx : String) (e : Entry V M) (doc : Option V) : Prop :=
  if s.pipes N q item idx then
    N.anyIngestNode = true → ∀ d, s.ingested N q item idx doc = .ok (some d) →
      if d.index ≠ idx then s.SendSpares N item d
      else s.CarrySpares N item idx e (if d.id = "" then item.action.id else some d.id)
        (some d.source) d.routing
  else ∀ routing, s.routingOf N item = .ok routing →
    s.CarrySpares N item idx e item.action.id doc routing

/-- And stops the bulk: there is no ingest node, the index its document is sent to cannot be
made, or it is no action a bulk has. -/
def IngestHalts (item : Item) (idx : String) (e : Entry V M) (doc : Option V) : Prop :=
  if s.pipes N q item idx then
    N.anyIngestNode = false ∨ ∃ d, s.ingested N q item idx doc = .ok (some d) ∧
      d.index ≠ idx ∧ s.held N d.index = none ∧ s.Unmade N d.index
  else ∃ routing, s.routingOf N item = .ok routing ∧
    CarryHalts item e item.action.id routing

/-- A stream is made for the name. -/
def MakesStream (name : String) : Prop :=
  (s.inner.contains name || s.isAlias name || s.dataStreams.contains name ||
    !N.dataStreamTemplate s name) = false ∧ ¬ s.Unmade N (N.backingIndex name 1)

/-- Where the action goes. -/
def targetOf (item : Item) : String :=
  (s.writeTarget N item.index).getD item.index

/-- **An operation that touches nothing.** -/
def Spares (refused : String → Option String) (item : Item) : Prop :=
  refused item.index = none → ∀ doc, item.line.mapM N.readDoc = .ok doc →
    s.refusal N q item = none →
    ¬ s.MakesStream N item.index ∧
      match s.held N (s.targetOf N item) with
      | none => s.Unmade N (s.targetOf N item)
      | some (_, e) => s.IngestSpares N q item (s.targetOf N item) e doc

/-- One that stops the bulk, of those: its document is no JSON, or its index cannot be
made, or as `IngestHalts` has it. -/
def Halts (refused : String → Option String) (item : Item) : Prop :=
  refused item.index = none ∧
    match item.line.mapM N.readDoc with
    | .error _ => True
    | .ok doc => s.refusal N q item = none ∧
      match s.held N (s.targetOf N item) with
      | none => s.Unmade N (s.targetOf N item)
      | some (_, e) => s.IngestHalts N q item (s.targetOf N item) e doc

/-- Up to the one that stops the bulk, every operation touches nothing. -/
def Sparing (refused : String → Option String) : List Item → Prop
  | [] => True
  | item :: rest => s.Spares N q refused item ∧
      (s.Halts N q refused item ∨ Sparing refused rest)

end Shelf

/-! ## Each stage -/

/-- The shelf after a turn. -/
def Turn.shelf {V M : Type} : Turn V M → Shelf V M
  | .on s _ => s
  | .stop s _ => s

/-- It ends the bulk. -/
def Turn.stops {V M : Type} : Turn V M → Bool
  | .on .. => false
  | .stop .. => true

namespace Shelf

variable {V M : Type} {N : Node V M} {q : BulkParams} {s s' : Shelf V M}
  {item : Item} {name idx key : String} {e : Entry V M} {known : Routings}

theorem put_self (there : s.inner[key]? = some e) (x : Held M) :
    s.put key { e with held := x } = s ↔ x = e.held := by
  constructor
  · intro same
    have entry : (s.put key { e with held := x }).inner[key]? = some { e with held := x } := by
      simp [put]
    rw [same, there] at entry
    exact (congrArg Entry.held (Option.some.inj entry)).symm
  · rintro rfl
    have same : s.inner.insert key e = s.inner := by
      apply Std.ExtTreeMap.ext_getElem?
      intro k
      rw [Std.ExtTreeMap.getElem?_insert]
      split
      case isTrue own => rw [← Std.LawfulEqCmp.eq_of_compare own, there]
      case isFalse => rfl
    rw [put, same]

/-- Nothing that was there has gone. -/
def Grown (s s' : Shelf V M) : Prop :=
  s'.dataStreams = s.dataStreams ∧ ∀ k, s.inner.contains k = true → s'.inner.contains k = true

theorem Grown.refl (s : Shelf V M) : Grown s s :=
  ⟨rfl, fun _ h => h⟩

theorem Grown.put {s' : Shelf V M} (h : Grown s s') (key : String) (e : Entry V M) :
    Grown s (s'.put key e) := by
  refine ⟨h.1, fun k there => ?_⟩
  rw [Shelf.put, Std.ExtTreeMap.contains_insert, h.2 k there, Bool.or_true]

theorem held_there (h : s.held N name = some (key, e)) : s.inner[key]? = some e := by
  rw [held, Option.bind_eq_some_iff] at h
  obtain ⟨k, -, eq⟩ := h
  rw [Option.map_eq_some_iff] at eq
  obtain ⟨e', there, pair⟩ := eq
  cases pair
  exact there

theorem create_unmade (unmade : s.Unmade N name) : ∃ why, s.create N name = .error why := by
  rw [create]
  rcases unmade with there | ⟨why, eq⟩
  · exact ⟨_, if_pos there⟩
  · rw [eq]
    split
    · exact ⟨_, rfl⟩
    · exact ⟨why, rfl⟩

theorem create_made (made : ¬ s.Unmade N name) :
    ∃ e, s.create N name = .ok (s.put (dateMath N name) e, dateMath N name, e) ∧
      s.inner.contains (dateMath N name) = false := by
  rw [Unmade, not_or, Bool.not_eq_true] at made
  obtain ⟨free, opens⟩ := made
  cases opened : N.opened s (dateMath N name) with
  | error why => exact absurd ⟨why, opened⟩ opens
  | ok e =>
    refine ⟨e, ?_, free⟩
    rw [create, if_neg (by rw [free]; exact Bool.false_ne_true), opened]
    rfl

theorem ensure_held (h : s.held N name = some (key, e)) : s.ensure N name = .ok (s, key, e) := by
  rw [ensure]
  rw [held] at h
  rw [h]

theorem ensure_absent (h : s.held N name = none) : s.ensure N name = s.create N name := by
  rw [ensure]
  rw [held] at h
  rw [h]

theorem grown_ne {e : Entry V M} (free : s.inner.contains key = false)
    (grown : Grown (s.put key e) s') : s' ≠ s := by
  rintro rfl
  have there := grown.2 key (by rw [put, Std.ExtTreeMap.contains_insert]; simp)
  rw [free] at there
  exact Bool.false_ne_true there

theorem carryOut_grown (id : Option String) (doc : Option V) (raw routing : Option String) :
    Grown s (s.carryOut N item idx key e id doc raw routing).shelf := by
  rw [carryOut]
  dsimp only
  split
  · exact (Grown.refl s).put key _
  · split
    · exact (Grown.refl s).put key _
    · split
      · exact (Grown.refl s).put key _
      · split <;> exact (Grown.refl s).put key _

theorem carryOut_spec (item : Item) (idx : String) (there : s.inner[key]? = some e)
    {id : Option String} (filled : id ≠ some "") (doc : Option V) (raw routing : Option String) :
    ((s.carryOut N item idx key e id doc raw routing).shelf = s ↔
        s.CarrySpares N item idx e id doc routing) ∧
      ((s.carryOut N item idx key e id doc raw routing).stops = true ↔
        CarryHalts item e id routing) := by
  rw [carryOut, CarrySpares, CarryHalts, Item.known]
  by_cases delete : item.op = "delete"
  · simp only [if_pos delete]
    refine ⟨(put_self there _).trans (e.held.delete_spares id routing filled), ?_⟩
    simp [Turn.stops, delete]
  · simp only [if_neg delete]
    by_cases index : item.op = "index" ∨ item.op = "create"
    · simp only [if_pos index]
      refine ⟨(put_self there _).trans (e.held.index_spares _ id _ _ _ routing _ filled), ?_⟩
      rcases index with eq | eq <;> simp [Turn.stops, eq]
    · simp only [if_neg index]
      by_cases update : item.op = "update"
      · simp only [if_pos update]
        refine ⟨(put_self there _).trans (e.held.update_spares id _ routing _ filled), ?_⟩
        simp [Turn.stops, update]
      · simp only [if_neg update]
        rw [not_or] at index
        have spared := e.held.unknown_spares (S := e.settings) id routing
        have given : (∃ i, id = some i ∧ True) ↔ id.isSome = true := by
          rw [Option.isSome_iff_exists]
          simp
        rw [given, ← spared]
        obtain ⟨z, hz⟩ : ∃ z, z = e.held.bulkUnknown e.settings id routing := ⟨_, rfl⟩
        rw [← hz]
        obtain ⟨x, refusal⟩ := z
        cases refusal with
        | some r =>
          refine ⟨put_self there x, ?_⟩
          simp [Turn.stops]
        | none =>
          refine ⟨put_self there x, ?_⟩
          simp [Turn.stops, delete, index.1, index.2, update]

/-- What is known of routings is so. -/
def Knows (N : Node V M) (s : Shelf V M) (known : Routings) : Prop :=
  ∀ (name : String) (r : Option String), known[name]? = some r → r = s.aliasIndexRouting N name

theorem itemRouting_looked (item : Item) (knows : Knows N s known) :
    (s.itemRouting N known item none).1 = s.routingOf N item ∧
      Knows N s (s.itemRouting N known item none).2 := by
  have looked : known[item.index]?.getD (s.aliasIndexRouting N item.index) =
      s.aliasIndexRouting N item.index := by
    cases found : known[item.index]? with
    | none => rfl
    | some r => exact knows item.index r found
  rw [itemRouting]
  dsimp only
  rw [looked]
  refine ⟨rfl, fun name r found => ?_⟩
  rw [Std.ExtTreeMap.getElem?_insert] at found
  split at found
  case isTrue own =>
    rw [← Std.LawfulEqCmp.eq_of_compare own]
    exact (Option.some.inj found).symm
  case isFalse => exact knows name r found

theorem route_grown (id : Option String) (doc : Option V) (raw : Option String)
    (piped : Option (Option String)) :
    Grown s (s.route N known item idx key e id doc raw piped).1.shelf := by
  rw [route]
  split
  · exact Grown.refl s
  · exact carryOut_grown id doc raw _

theorem sendOn_grown (d : Sent V) : Grown s (s.sendOn N item d).shelf := by
  rw [sendOn]
  cases there : s.held N d.index with
  | some found =>
    obtain ⟨key, e⟩ := found
    rw [ensure_held there]
    exact (Grown.refl s).put key _
  | none =>
    rw [ensure_absent there]
    by_cases unmade : s.Unmade N d.index
    · obtain ⟨why, eq⟩ := create_unmade unmade
      rw [eq]
      exact Grown.refl s
    · obtain ⟨e, eq, -⟩ := create_made unmade
      rw [eq]
      exact ((Grown.refl s).put _ e).put _ _

theorem ingest_grown (doc : Option V) :
    Grown s (s.ingest N q known item idx key e doc).1.shelf := by
  rw [ingest]
  split
  · exact route_grown _ doc _ none
  · split
    · exact Grown.refl s
    · split
      · exact Grown.refl s
      · exact Grown.refl s
      · split
        · exact sendOn_grown _
        · exact route_grown _ _ none _

theorem sendOn_spec (s : Shelf V M) (item : Item) (d : Sent V) :
    ((s.sendOn N item d).shelf = s ↔ s.SendSpares N item d) ∧
      ((s.sendOn N item d).stops = true ↔ s.held N d.index = none ∧ s.Unmade N d.index) := by
  rw [sendOn, SendSpares]
  cases there : s.held N d.index with
  | some found =>
    obtain ⟨key, e⟩ := found
    rw [ensure_held there]
    refine ⟨(put_self (held_there there) _).trans ((e.held.sentOn_spares ..).trans ?_),
      nofun, fun h => nomatch h.1⟩
    by_cases named : d.id = ""
    · simp [named]
    · simp [named]
  | none =>
    rw [ensure_absent there]
    by_cases unmade : s.Unmade N d.index
    · obtain ⟨why, eq⟩ := create_unmade unmade
      rw [eq]
      exact ⟨⟨fun _ => unmade, fun _ => rfl⟩, fun _ => ⟨rfl, unmade⟩, fun _ => rfl⟩
    · obtain ⟨e, eq, free⟩ := create_made unmade
      rw [eq]
      have other : (s.put (dateMath N d.index) e).put (dateMath N d.index)
          { e with held := (e.held.bulkSentOn e.settings e.knobs N.mapper N.terms
            (if d.id = "" then none else some d.id) d.source
            (if item.op = "create" then .create else .index) d.routing).1 } ≠ s :=
        grown_ne free ((Grown.refl _).put _ _)
      exact ⟨⟨fun same => absurd same other, fun h => absurd h unmade⟩, nofun,
        fun h => absurd h.2 unmade⟩

theorem pipes_known (pipes : s.pipes N q item idx = true) : item.known = true := by
  rw [Shelf.pipes, Bool.and_eq_true, Bool.or_eq_true, decide_eq_true_eq, decide_eq_true_eq] at pipes
  rw [Item.known]
  rcases pipes.1 with eq | eq <;> simp [eq]

theorem ingest_spec (idx : String) (there : s.inner[key]? = some e) (filled : item.action.id ≠ some "")
    (knows : Knows N s known) (doc : Option V) :
    ((s.ingest N q known item idx key e doc).1.shelf = s ↔ s.IngestSpares N q item idx e doc) ∧
      ((s.ingest N q known item idx key e doc).1.stops = true ↔
        s.IngestHalts N q item idx e doc) ∧
      Knows N s (s.ingest N q known item idx key e doc).2 := by
  rw [ingest, IngestSpares, IngestHalts]
  cases pipes : s.pipes N q item idx with
  | false =>
    simp only [Bool.not_false, if_true, Bool.false_eq_true, if_false]
    obtain ⟨looked, still⟩ := itemRouting_looked item knows
    rw [route]
    obtain ⟨z, hz⟩ : ∃ z, z = s.itemRouting N known item none := ⟨_, rfl⟩
    rw [← hz] at looked still ⊢
    obtain ⟨made, known'⟩ := z
    obtain rfl : made = s.routingOf N item := looked
    cases eq : s.routingOf N item with
    | error r =>
      rw [eq] at hz
      refine ⟨⟨fun _ _ => nofun, fun _ => rfl⟩, ⟨nofun, fun ⟨_, h, _⟩ => nomatch h⟩, still⟩
    | ok routing =>
      obtain ⟨spares, halts⟩ := carryOut_spec (N := N) item idx there filled doc
        (item.line.map fun l => l.trimAscii.toString) routing
      refine ⟨spares.trans ?_, halts.trans ?_, still⟩
      · exact ⟨fun h _ eq => by cases eq; exact h, fun h => h routing rfl⟩
      · exact ⟨fun h => ⟨routing, rfl, h⟩, fun ⟨_, eq, h⟩ => by cases eq; exact h⟩
  | true =>
    simp only [Bool.not_true, Bool.false_eq_true, if_false, if_true]
    cases node : N.anyIngestNode with
    | false => exact ⟨⟨fun _ => nofun, fun _ => rfl⟩, ⟨fun _ => .inl rfl, fun _ => rfl⟩, knows⟩
    | true =>
      simp only [Bool.not_true, Bool.false_eq_true, if_false, forall_const, Bool.true_eq_false,
        false_or]
      have taken : N.ingestForWrite s idx (item.action.id.getD "") (doc.getD N.empty)
          (askedPipeline q item) item.action.routingText = s.ingested N q item idx doc := rfl
      rw [taken]
      cases s.ingested N q item idx doc with
      | error r =>
        exact ⟨⟨fun _ _ => nofun, fun _ => rfl⟩, ⟨nofun, fun ⟨_, h, _⟩ => nomatch h⟩, knows⟩
      | ok sent =>
        cases sent with
        | none =>
          exact ⟨⟨fun _ _ => nofun, fun _ => rfl⟩, ⟨nofun, fun ⟨_, h, _⟩ => nomatch h⟩, knows⟩
        | some d =>
          simp only [Except.ok.injEq, Option.some.injEq, forall_eq', exists_eq_left']
          by_cases elsewhere : d.index ≠ idx
          · rw [if_pos elsewhere, if_pos elsewhere]
            obtain ⟨spares, halts⟩ := s.sendOn_spec (N := N) item d
            exact ⟨spares, halts.trans (and_iff_right elsewhere).symm, knows⟩
          · rw [if_neg elsewhere, if_neg elsewhere]
            have given : (if d.id = "" then item.action.id else some d.id) ≠ some "" := by
              split
              · exact filled
              · rename_i some_
                exact fun eq => some_ (Option.some.inj eq)
            obtain ⟨spares, halts⟩ := carryOut_spec (N := N) item idx there given (some d.source)
              none d.routing
            refine ⟨spares, halts.trans ⟨fun h => ?_, fun h => absurd h.1 elsewhere⟩, knows⟩
            -- only actions a bulk has go through pipelines
            exact absurd ((pipes_known pipes).symm.trans h.1) nofun

theorem stream_unmade (h : ¬ s.MakesStream N name) : s.createStreamForWrite N name = s := by
  rw [createStreamForWrite]
  split
  case isTrue => rfl
  case isFalse asked =>
    rw [MakesStream, not_and, not_not] at h
    obtain ⟨why, eq⟩ := create_unmade (h (Bool.not_eq_true _ ▸ asked))
    rw [eq]

theorem stream_made (h : s.MakesStream N name) :
    (s.createStreamForWrite N name).dataStreams = name :: s.dataStreams := by
  obtain ⟨e, eq, -⟩ := create_made h.2
  rw [createStreamForWrite, if_neg (by rw [h.1]; exact Bool.false_ne_true), eq]
  rfl

theorem open_grown (s : Shelf V M) (target : String) (doc : Option V) :
    Grown s (s.open_ N q known item target doc).1.shelf := by
  rw [open_]
  cases there : s.held N target with
  | some found =>
    obtain ⟨key, e⟩ := found
    rw [ensure_held there]
    exact ingest_grown doc
  | none =>
    rw [ensure_absent there]
    by_cases unmade : s.Unmade N target
    · obtain ⟨why, eq⟩ := create_unmade unmade
      rw [eq]
      exact Grown.refl s
    · obtain ⟨e, eq, -⟩ := create_made unmade
      rw [eq]
      have first := (Grown.refl s).put (dateMath N target) e
      have second : Grown (s.put (dateMath N target) e) ((s.put (dateMath N target) e).ingest N q
          known item target (dateMath N target) e doc).1.shelf := ingest_grown doc
      exact ⟨second.1.trans first.1, fun k h => second.2 k (first.2 k h)⟩

theorem filled_of_refusal (h : s.refusal N q item = none) : item.action.id ≠ some "" := by
  intro empty
  rw [refusal, if_pos empty] at h
  exact nomatch h

/-- **One operation**: it leaves the store as it was if it is such, and then stops the bulk
if it is such. -/
theorem turn_spec (refused : String → Option String) (item : Item) (knows : Knows N s known) :
    ((s.turn N q refused known item).1.shelf = s ↔ s.Spares N q refused item) ∧
      ((s.turn N q refused known item).1.shelf = s →
        ((s.turn N q refused known item).1.stops = true ↔ s.Halts N q refused item) ∧
          Knows N s (s.turn N q refused known item).2) := by
  rw [turn, Spares, Halts]
  cases refused item.index with
  | some why =>
    exact ⟨⟨fun _ => nofun, fun _ => rfl⟩, fun _ => ⟨⟨nofun, fun h => nomatch h.1⟩, knows⟩⟩
  | none =>
    dsimp only
    cases item.line.mapM N.readDoc with
    | error why =>
      exact ⟨⟨fun _ _ _ => nofun, fun _ => rfl⟩,
        fun _ => ⟨⟨fun _ => ⟨rfl, trivial⟩, fun _ => rfl⟩, knows⟩⟩
    | ok doc =>
      dsimp only
      simp only [Except.ok.injEq, forall_eq', true_and, forall_const]
      cases own : s.refusal N q item with
      | some r =>
        exact ⟨⟨fun _ => nofun, fun _ => rfl⟩, fun _ => ⟨⟨nofun, fun h => nomatch h.1⟩, knows⟩⟩
      | none =>
        simp only [true_and, forall_const]
        by_cases streams : s.MakesStream N item.index
        · -- a stream that was made stays
          refine (fun other => ⟨⟨fun same => absurd same other, fun h => absurd streams h.1⟩,
            fun same => absurd same other⟩) fun same => ?_
          have grown : Grown (s.createStreamForWrite N item.index) _ := same ▸ open_grown _ _ doc
          have streamed := grown.1.trans (stream_made streams)
          exact absurd (congrArg List.length streamed) (by simp)
        · rw [stream_unmade streams]
          simp only [streams, not_false_eq_true, true_and]
          have target : (s.writeTarget N item.index).getD item.index = s.targetOf N item := rfl
          rw [target, open_]
          cases there : s.held N (s.targetOf N item) with
          | some found =>
            obtain ⟨key, e⟩ := found
            rw [ensure_held there]
            obtain ⟨spares, halts, still⟩ := ingest_spec (q := q) (s.targetOf N item)
              (held_there there) (filled_of_refusal own) knows doc
            exact ⟨spares, fun _ => ⟨halts, still⟩⟩
          | none =>
            rw [ensure_absent there]
            by_cases unmade : s.Unmade N (s.targetOf N item)
            · obtain ⟨why, eq⟩ := create_unmade unmade
              rw [eq]
              exact ⟨⟨fun _ => unmade, fun _ => rfl⟩, fun _ =>
                ⟨⟨fun _ => unmade, fun _ => rfl⟩, knows⟩⟩
            · obtain ⟨e, eq, free⟩ := create_made unmade
              rw [eq]
              have other : ((s.put (dateMath N (s.targetOf N item)) e).ingest N q known item
                  (s.targetOf N item) (dateMath N (s.targetOf N item)) e doc).1.shelf ≠ s :=
                grown_ne free (ingest_grown doc)
              exact ⟨⟨fun same => absurd same other, fun h => absurd h unmade⟩,
                fun same => absurd same other⟩

theorem loop_spares (refused : String → Option String) (items : List Item)
    (knows : Knows N s known) (refusal : (loop N q refused s known items).2.isSome = true) :
    (∀ s' ∈ (loop N q refused s known items).1, s' = s) ↔ s.Sparing N q refused items := by
  induction items generalizing known with
  | nil => exact nomatch refusal
  | cons item rest ih =>
    obtain ⟨spares, later⟩ := turn_spec (q := q) refused item knows
    rw [Sparing]
    unfold loop at refusal ⊢
    obtain ⟨z, hz⟩ : ∃ z, z = s.turn N q refused known item := ⟨_, rfl⟩
    rw [← hz] at spares later refusal ⊢
    obtain ⟨turned, known'⟩ := z
    cases turned with
    | stop s' r =>
      simp only [List.mem_singleton, forall_eq]
      have spared : s' = s ↔ s.Spares N q refused item := spares
      rw [spared]
      exact ⟨fun h => ⟨h, .inl ((later (spares.mpr h)).1.mp rfl)⟩, fun h => h.1⟩
    | on s' answer =>
      dsimp only at refusal ⊢
      simp only [List.mem_cons, forall_eq_or_imp]
      have spared : s' = s ↔ s.Spares N q refused item := spares
      rw [spared]
      refine and_congr_right fun h => ?_
      obtain rfl : s' = s := spared.mpr h
      obtain ⟨halts, still⟩ := later rfl
      have goes : ¬ s'.Halts N q refused item := fun halt => nomatch halts.mpr halt
      rw [ih still refusal]
      exact ⟨.inr, fun either => either.resolve_left goes⟩

end Shelf

def plainNode : Node String Unit where
  mapper := plainMapper
  terms := ∅
  readAction := fun line => .ok (some { op := line, index := some "idx", id := some "1" })
  readDoc := .ok
  empty := "\x7b\x7d"
  itemRefusal := fun _ _ => none
  resolveDateMathName := fun name => name
  resolve := fun _ name => [name]
  autoCreateComplaint := fun _ _ => none
  dataStreamTemplate := fun _ _ => false
  backingIndex := fun name _ => name
  opened := fun _ _ => .error "no room"
  anyIngestNode := true
  pipelinesForWrite := fun _ _ => []
  ingestForWrite := fun _ _ _ _ _ _ => .ok none
  readPatch := fun _ _ _ _ => {}

def oneIndex (x : Held Unit) : Shelf String Unit :=
  ({} : Shelf String Unit).put "idx" { held := x, settings := oneShard }

theorem oneIndex_held (x : Held Unit) :
    (oneIndex x).held plainNode "idx" = some ("idx", { held := x, settings := oneShard }) := by
  simp [Shelf.held, Shelf.get, oneIndex, Shelf.put]

end Velosearch.Api

import Velosearch.Api.Refused
import Velosearch.Index.Following
import Velosearch.Lib.Text
import Velosearch.Search.Routing

/-!
# An index made out of another

`resize_index` of `src/api/indices/resize.rs`: a split, a shrink and a clone copy every document
of an index into a new one, each through the route a document is written by.

* What `store.create` makes of the source's settings and mapping, with the request's over them,
  is a parameter (`Made`): an index without documents, or a complaint.
* The source is held still by its write block, so that one state of it is read throughout.
* A routing is kept beside the documents of an index. The copy names none.
* What a mapping says of routing goes over with the mapping. The shards a document is filed
  under are those of the target's own settings (`Search.Routing`).
-/

set_option autoImplicit false

namespace Velosearch.Resize

open Velosearch.Cluster (BTreeMap)
open Velosearch.Index Velosearch.Api

/-! ## The request -/

/-- The three requests. -/
inductive Kind where
  | split
  | shrink
  | clone
  deriving DecidableEq

/-- A setting's value in the request. -/
inductive Setting where
  | null
  | bool (b : Bool)
  | int (n : ℤ)
  | text (s : String)
  | other
  deriving DecidableEq

namespace Setting

/-- `true`, as a setting may spell it. -/
def isTrue (s : Setting) : Bool :=
  s = .bool true || s = .text "true"

/-- `false`, likewise. -/
def isFalse (s : Setting) : Bool :=
  s = .bool false || s = .text "false"

def digits (cs : List Char) : Option ℕ :=
  if cs ≠ [] ∧ cs.all Char.isDigit then
    some (cs.foldl (fun n c => 10 * n + (c.toNat - '0'.toNat)) 0)
  else none

/-- `parse::<i64>` -/
def parseI64 (text : String) : Option ℤ :=
  let read : Option ℤ := match text.toList with
    | '-' :: cs => (digits cs).map fun n => -(n : ℤ)
    | '+' :: cs => (digits cs).map fun n => (n : ℤ)
    | cs => (digits cs).map fun n => (n : ℤ)
  read.filter fun n => -2 ^ 63 ≤ n ∧ n < 2 ^ 63

/-- `as_i64`, or a text that reads as one. -/
def num : Setting → Option ℤ
  | .int n => if -2 ^ 63 ≤ n ∧ n < 2 ^ 63 then some n else none
  | .text s => parseI64 s
  | _ => none

end Setting

/-- What a request says: the settings under `index`, and its parameters. -/
structure Request where
  setting : String → Option Setting := fun _ => none
  copySettings : Bool := true
  waitForCompletion : Bool := true

/-- An index with its settings and where it was placed. -/
structure Index (V M : Type) where
  held : Held M
  placed : Routing.Settings
  routingRequired : Bool
  idFingerprint : String → Nat
  knobs : Knobs V
  terms : BTreeMap Nat Nat

/-- What the index's documents are written and read by. -/
def Index.settings {V M : Type} (x : Index V M) : Settings where
  shardOf := x.placed.shardOf
  idFingerprint := x.idFingerprint
  routingRequired := x.routingRequired
  partitionSize := x.placed.partitionSize.toNat

/-- What `store.create` makes: an index without documents. -/
structure Made (V M : Type) where
  mapping : M
  onDisk : Bool
  placed : Routing.Settings
  knobs : Knobs V
  terms : BTreeMap Nat Nat

/-- The target, from what was made and the index it is a copy of. -/
def Made.index {V M : Type} (made : Made V M) (src : Index V M) (held : Held M) : Index V M :=
  { held, placed := made.placed, routingRequired := src.routingRequired
    idFingerprint := src.idFingerprint, knobs := made.knobs, terms := made.terms }

abbrev Indices (V M : Type) := BTreeMap String (Index V M)

/-- What a resize answers. -/
inductive Reply where
  | acknowledged
  | task
  deriving DecidableEq

/-! ## What is refused before anything is made -/

def noSuchIndex (index : String) : Refusal :=
  { status := 404, kind := "index_not_found_exception", reason := s!"no such index [{index}]" }

def illegalArgument (reason : String) : Refusal :=
  { status := 400, kind := "illegal_argument_exception", reason }

def illegalState (reason : String) : Refusal :=
  { status := 400, kind := "illegal_state_exception", reason }

/-- A request that would leave the copy blocked for its own writes. -/
def targetBlocked (q : Request) : Option Refusal :=
  (["blocks.read_only", "blocks.metadata", "blocks.read_only_allow_delete"].find? fun blocked =>
    (q.setting blocked).any Setting.isTrue).map fun blocked =>
    { status := 400, kind := "action_request_validation_exception"
      reason := s!"Validation Failed: 1: illegal value can not be set [index.{blocked}] on " ++
        "the target index;" }

/-- The number of shards asked for against the source's. -/
def shardsRefusal (kind : Kind) (q : Request) (own : ℤ) : Option Refusal :=
  match (q.setting "number_of_shards").bind Setting.num with
  | none => none
  | some n =>
    if n < 1 then
      some (illegalArgument
        s!"Failed to parse value [{n}] for setting [index.number_of_shards] must be >= 1")
    else
      match kind with
      | .split =>
        if (q.setting "number_of_routing_shards").isSome then
          some (illegalArgument "cannot provide index.number_of_routing_shards on resize")
        else if n ≤ own ∨ n % own ≠ 0 then
          some (illegalState s!"the number of source shards [{own}] must be a factor of [{n}]")
        else none
      | .shrink =>
        if own ≤ n ∨ own % n ≠ 0 then
          some (illegalState s!"the number of source shards [{own}] must be a multiple of [{n}]")
        else none
      | .clone =>
        if n ≠ own then
          some (illegalArgument s!"the number of source shards [{own}] must be equal to [{n}]")
        else none

/-- What is asked of the source: no writes, and no blocks carried over. -/
def sourceRefusal (source : String) (q : Request) (st : IdxState) : Option Refusal :=
  let lifted := (q.setting "blocks.read_only").any fun s => s = .null || s.isFalse
  if !lifted && st.blocksReadOnly then
    some (illegalArgument s!"index [{source}] blocked by: [FORBIDDEN/5/index read-only (api)];")
  else if !st.blocksWrite then
    some (illegalState (s!"index {source} must be read-only to resize index. use " ++
      "\"index.blocks.write=true\""))
  else none

/-- Every refusal of a resize, in the source's order. -/
def refusal (source : String) (kind : Kind) (q : Request) {V M : Type} (src : Index V M) :
    Option Refusal :=
  let own := Routing.asI64 src.placed.shards
  targetBlocked q <|> shardsRefusal kind q own <|> sourceRefusal source q src.held.st <|>
    if q.copySettings then none
    else some (illegalArgument "parameter [copy_settings] can not be explicitly set to [false]")

/-! ## The copy -/

/-- `all_ids`: what the realtime reader shows, and what waits behind it. -/
def allIds (st : IdxState) : List String :=
  let shown := st.realtime.map Doc.id
  shown ++ ((st.pending.toList.filter fun e => e.2.isSome && !shown.contains e.1).map Prod.fst)

section Copy

variable {V M : Type} (D : Mapper V M)

/-- A document of the source, as the copying reads it. -/
def sourceDoc (src : Held M) (id : String) : Option V :=
  match (src.st.pending[id]?).join with
  | some raw => D.read raw
  | none => src.readSource D id

/-- The documents one after another; the first that is refused ends it. -/
def copyAll (S : Settings) (K : Knobs V) (terms : BTreeMap Nat Nat) (src : Held M) :
    Held M → List String → Held M × Option Refusal
  | dst, [] => (dst, none)
  | dst, id :: ids =>
    match sourceDoc D src id with
    | none => copyAll S K terms src dst ids
    | some v =>
      match dst.writeDocUncounted S K D terms id v .index none none with
      | (dst, .ok _) => copyAll S K terms src dst ids
      | (dst, .error refusal) => (dst, some refusal)

/-- A block the copy gets only when the documents are in. -/
def heldBack (q : Request) (key : String) (own : Bool) : Bool :=
  match q.setting key with
  | some s => s.isTrue
  | none => own

/-- The copy once its documents are in: blocks, routing and refresh. -/
def finished (q : Request) (src dst : Held M) : Held M :=
  { dst with
    st := { dst.st.refresh with
      blocksReadOnly := heldBack q "blocks.read_only" src.st.blocksReadOnly
      blocksReadOnlyAllowDelete :=
        heldBack q "blocks.read_only_allow_delete" src.st.blocksReadOnlyAllowDelete
      blocksWrite := heldBack q "blocks.write" src.st.blocksWrite } }

/-- `_split`, `_shrink` and `_clone`. -/
def resizeIndex (n : Indices V M) (source target : String) (kind : Kind) (q : Request)
    (makes : Except String (Made V M)) : Indices V M × Except Refusal Reply :=
  match n[source]? with
  | none => (n, .error (noSuchIndex source))
  | some src =>
    if n.contains target then
      (n, .error { status := 400, kind := "resource_already_exists_exception"
                   reason := s!"index [{target}] already exists" })
    else
      match refusal source kind q src with
      | some r => (n, .error r)
      | none =>
        match makes with
        | .error why => (n, .error (illegalArgument why))
        | .ok made =>
          let ids := allIds src.held.st
          let dst : Held M :=
            { st := { name := target, onDisk := made.onDisk }, mapping := made.mapping }
          match copyAll D (made.index src dst).settings made.knobs made.terms src.held dst ids with
          | (dst, some r) =>
            -- a document the target would not take is the copy failing
            ((n.insert target (made.index src dst)).erase target, .error r)
          | (dst, none) =>
            (n.insert target (made.index src (finished q src.held dst)),
              .ok (if q.waitForCompletion then .acknowledged else .task))

end Copy

/-! ## What a copy is -/

section Copies

variable {V M : Type} (D : Mapper V M) (lifted : V → V)

/-- JSON that is written reads back, and the names of ignored fields are lifted out of it. -/
structure Lossless : Prop where
  read_text : ∀ v, D.read (D.text v) = some v
  lifted_withIgnored : ∀ v names, lifted (D.withIgnored v names) = lifted v

/-- `get_doc`: the source of the document that a request reads, under the routing it names. -/
def Index.got (x : Index V M) (id : String) (p : Params) : Option V :=
  if (x.held.st.readRoutingRefusal x.settings id p).isSome then none
  else if x.held.st.routingMatches x.settings id p then x.held.readSource D id
  else none

/-- A value of a search's `routing`, as `search_narrowing` splits it at the commas. -/
def Askable (r : String) : Prop :=
  r ≠ "" ∧ ',' ∉ r.toList ∧ Text.trim r.toList = r.toList

/-- The target holds the documents of the source, each with its source and its routing: a get
that reads a document of the source reads it, and a search whose routing values keep a document
of the source, once that is refreshed, is shown it. -/
structure Copies (src dst : Index V M) : Prop where
  live : ∀ id, dst.held.st.isLive dst.settings id = src.held.st.isLive src.settings id
  source : ∀ id, src.held.st.isLive src.settings id = true →
    (dst.held.readSource D id).map lifted = (src.held.readSource D id).map lifted
  routing : ∀ id, src.held.st.isLive src.settings id = true →
    dst.held.st.routing[id]? = src.held.st.routing[id]?
  got : ∀ id p v, src.got D id p = some v → (dst.got D id p).map lifted = some (lifted v)
  searched : ∀ id values, src.held.st.isLive src.settings id = true → (∀ r ∈ values, Askable r) →
    src.placed.finds values id src.held.st.routing[id]? = true →
    ∃ d ∈ dst.held.st.realtime, d.id = id ∧ dst.placed.finds values id d.routing = true

/-- Every document of the source can be read, none was written with a routing, and a routing
value that names the shard of one in the source names its shard among the target's. -/
structure Copyable (src : Index V M) (placed : Routing.Settings) : Prop where
  read : ∀ id, src.held.st.isLive src.settings id = true → (src.held.readSource D id).isSome = true
  unrouted : ∀ id, src.held.st.isLive src.settings id = true → src.held.st.routing[id]? = none
  together : ∀ id, src.held.st.isLive src.settings id = true → ∀ r, r ≠ "" →
    src.placed.shardOf id (some r) = src.placed.shardOf id none →
    placed.shardOf id (some r) = placed.shardOf id none
  asked : ∀ id, src.held.st.isLive src.settings id = true → ∀ r, Askable r →
    src.placed.shardOf id none ∈ src.placed.shardsForRouting r →
    placed.shardOf id none ∈ placed.shardsForRouting r

end Copies

/-! ## What is copied -/

section Read

variable {V M : Type} {D : Mapper V M} {S : Settings} {src : Held M} {id : String}

/-- The copying reads a document as a `GET` does. -/
theorem sourceDoc_eq : sourceDoc D src id = src.readSource D id := by
  unfold sourceDoc Held.readSource IdxState.readSource
  cases src.st.pending[id]? with
  | none => rfl
  | some waiting =>
    cases waiting with
    | none => rfl
    | some raw => rfl

/-- A document that is not live is not read. -/
theorem readSource_dead (agrees : src.st.Agrees S id) (dead : src.st.isLive S id = false) :
    src.readSource D id = none := by
  rw [Held.readSource, agrees.readSource, agrees.absent dead]
  rfl

/-- Every live document is among the ids that are walked. -/
theorem mem_allIds (agrees : src.st.Agrees S id) (live : src.st.isLive S id = true) :
    id ∈ allIds src.st := by
  unfold allIds
  by_cases shown : id ∈ src.st.realtime.map Doc.id
  · exact List.mem_append_left _ shown
  · apply List.mem_append_right
    rw [agrees.isLive] at live
    cases waits : src.st.pending[id]? with
    | none =>
      obtain ⟨idle, same⟩ := agrees.shown waits
      rw [IdxState.docsOf_settled_of_idle idle, ← same] at live
      cases docs : docsOf src.st.realtime id with
      | nil =>
        rw [docs] at live
        cases live
      | cons d l =>
        have mem := mem_docsOf.mp (docs ▸ List.mem_cons_self : d ∈ docsOf src.st.realtime id)
        exact absurd (List.mem_map.mpr ⟨d, mem.1, mem.2⟩) shown
    | some source =>
      have docs := agrees.waiting source waits
      cases source with
      | none =>
        rw [List.map_eq_nil_iff.mp docs] at live
        cases live
      | some raw =>
        refine List.mem_map.mpr ⟨(id, some raw), List.mem_filter.mpr ⟨?_, ?_⟩, rfl⟩
        · exact Std.ExtTreeMap.mem_toList_iff_getElem?_eq_some.mpr waits
        · simpa using shown

end Read

/-! ## What is written -/

section Write

variable {V M : Type} {D : Mapper V M} {lifted : V → V} {S S' : Settings} {K : Knobs V}
  {terms : BTreeMap Nat Nat} {src dst y : Held M} {id : String} {v : V} {answer : Answer}
  {done : List String}

/-- A write that was granted stored the document's text. -/
theorem stored_of_ok
    (wrote : dst.writeDocUncounted S' K D terms id v .index none none = (y, .ok answer)) :
    ∃ stored, (stored = D.text v ∨ ∃ names, stored = D.text (D.withIgnored v names)) ∧
      y.st = (dst.st.writeGranted S' terms id stored none).1 := by
  rw [Held.writeDocUncounted] at wrote
  cases refused : writeRefusal S' dst.st id .index none with
  | some r =>
    rw [refused] at wrote
    cases wrote
  | none =>
    cases complaint : D.documentComplaint dst.mapping id v with
    | some r =>
      rw [refused, complaint] at wrote
      cases wrote
    | none =>
      cases scanned : D.scanMalformed dst.mapping id v with
      | error r =>
        rw [refused, complaint, scanned] at wrote
        cases wrote
      | ok ignored =>
        rw [refused, complaint, scanned] at wrote
        dsimp only at wrote
        split at wrote
        · cases wrote
        · split at wrote
          · cases wrote
          · split at wrote
            · cases wrote
            · cases wrote
              refine ⟨_, ?_, rfl⟩
              cases ignored with
              | nil => exact .inl rfl
              | cons name names => exact .inr ⟨name :: names, rfl⟩

/-- How far the copying has come: what was copied reads back, and nothing else is there. -/
structure Copied (D : Mapper V M) (lifted : V → V) (S' : Settings) (src dst : Held M)
    (done : List String) : Prop where
  sound : dst.st.Sound S'
  routing : dst.st.routing = ∅
  live : ∀ id, dst.st.isLive S' id = true ↔ id ∈ done ∧ (src.readSource D id).isSome = true
  source : ∀ id v, id ∈ done → src.readSource D id = some v →
    (dst.readSource D id).map lifted = some (lifted v)
  unrouted : ∀ id, ∀ d ∈ docsOf dst.st.settled id, d.routing = none

/-- A new index has had nothing copied into it. -/
theorem Copied.fresh (name : String) (onDisk : Bool) (mapping : M) :
    Copied D lifted S' src { st := { name, onDisk }, mapping } [] where
  sound := by
    have empty := Pair.sound_empty S' name
    exact ⟨⟨empty.pinned.queues, empty.pinned.resting⟩, fun id => by
      have agrees := empty.agrees id
      exact ⟨agrees.single, agrees.waiting, agrees.shown, agrees.versioned, agrees.unversioned,
        agrees.numbered, agrees.numbers⟩⟩
  routing := rfl
  live id := by
    simp [IdxState.isLive]
  source id v mem := by cases mem
  unrouted id d mem := by cases mem

/-- An id that reads as nothing is passed over. -/
theorem Copied.skip (h : Copied D lifted S' src dst done) (unread : src.readSource D id = none) :
    Copied D lifted S' src dst (id :: done) where
  sound := h.sound
  routing := h.routing
  live j := by
    rw [h.live j, List.mem_cons]
    constructor
    · exact fun both => ⟨.inr both.1, both.2⟩
    · intro both
      rcases both with ⟨rfl | mem, read⟩
      · rw [unread] at read
        cases read
      · exact ⟨mem, read⟩
  source j v mem read := by
    rcases List.mem_cons.mp mem with rfl | mem
    · rw [unread] at read
      cases read
    · exact h.source j v mem read
  unrouted := h.unrouted

/-- A document is read where it is live. -/
theorem document_iff {st : IdxState} {d : Document} (h : st.document S id = some d) :
    st.isLive S id = true ∧ st.readSource id = d.source := by
  rw [IdxState.document] at h
  by_cases live : st.isLive S id = true
  · rw [if_pos live] at h
    cases h
    exact ⟨live, rfl⟩
  · rw [if_neg live] at h
    cases h

theorem isLive_iff_document {st : IdxState} :
    st.isLive S id = true ↔ (st.document S id).isSome = true := by
  rw [IdxState.document]
  by_cases live : st.isLive S id = true
  · simp [live]
  · simp [live]

/-- One document more. -/
theorem Copied.write (lossless : Lossless D lifted) (h : Copied D lifted S' src dst done)
    (read : src.readSource D id = some v)
    (wrote : dst.writeDocUncounted S' K D terms id v .index none none = (y, .ok answer)) :
    Copied D lifted S' src y (id :: done) := by
  obtain ⟨stored, text, st⟩ := stored_of_ok wrote
  have made := IdxState.writeGranted_made h.sound terms id stored none
  rw [← st] at made
  have shown : (D.read stored).map lifted = some (lifted v) := by
    rcases text with rfl | ⟨names, rfl⟩
    · rw [lossless.read_text]
      rfl
    · rw [lossless.read_text, Option.map_some, lossless.lifted_withIgnored]
  have own : y.st.isLive S' id = true ∧ y.st.readSource id = some stored :=
    document_iff made.document
  have others : ∀ j, id ≠ j → y.st.document S' j = dst.st.document S' j :=
    fun j other => (made.leaves j other).document h.sound
  refine ⟨made.sound, ?_, ?_, ?_, ?_⟩
  · rw [st, IdxState.writeGranted_routing (h.sound.agrees id)]
    exact h.routing
  · intro j
    by_cases same : id = j
    · subst same
      simp [own.1, read]
    · rw [isLive_iff_document, others j same, ← isLive_iff_document, h.live j, List.mem_cons]
      simp [Ne.symm same]
  · intro j w mem readJ
    by_cases same : id = j
    · subst same
      rw [read] at readJ
      cases readJ
      rw [Held.readSource, own.2]
      exact shown
    · have mem' : j ∈ done := (List.mem_cons.mp mem).resolve_left (Ne.symm same)
      have live := (h.live j).mpr ⟨mem', by rw [readJ]; rfl⟩
      obtain ⟨d, held⟩ := Option.isSome_iff_exists.mp (isLive_iff_document.mp live)
      have before := (document_iff held).2
      have after := (document_iff ((others j same).trans held)).2
      have same : y.readSource D j = dst.readSource D j := by
        rw [Held.readSource, Held.readSource, before, after]
      rw [same]
      exact h.source j w mem' readJ
  · intro j d mem
    by_cases same : id = j
    · subst same
      rw [st, IdxState.docsOf_writeGranted h.sound] at mem
      obtain ⟨raw, -, rfl⟩ := Option.map_eq_some_iff.mp (Option.mem_toList.mp mem)
      show dst.st.routing[id]? = none
      rw [h.routing]
      exact Std.ExtTreeMap.getElem?_empty
    · rw [(made.leaves j same).docs h.sound.pinned] at mem
      exact h.unrouted j d mem

/-- All of them, by induction on the ids still to copy. -/
theorem Copied.run (lossless : Lossless D lifted) {ids : List String}
    (h : Copied D lifted S' src dst done)
    (ran : copyAll D S' K terms src dst ids = (y, none)) :
    ∃ all, Copied D lifted S' src y all ∧ ∀ id, id ∈ all ↔ id ∈ ids ∨ id ∈ done := by
  induction ids generalizing dst done with
  | nil =>
    cases ran
    exact ⟨done, h, by simp⟩
  | cons id ids ih =>
    have ends : ∀ {dst' : Held M}, Copied D lifted S' src dst' (id :: done) →
        copyAll D S' K terms src dst' ids = (y, none) →
        ∃ all, Copied D lifted S' src y all ∧ ∀ j, j ∈ all ↔ j ∈ id :: ids ∨ j ∈ done := by
      intro dst' h' ran'
      obtain ⟨all, copied, mem⟩ := ih h' ran'
      refine ⟨all, copied, fun j => ?_⟩
      rw [mem j, List.mem_cons, List.mem_cons]
      tauto
    rw [copyAll, sourceDoc_eq] at ran
    cases read : src.readSource D id with
    | none =>
      rw [read] at ran
      exact ends (h.skip read) ran
    | some v =>
      rw [read] at ran
      dsimp only at ran
      cases wrote : dst.writeDocUncounted S' K D terms id v .index none none with
      | mk x done' =>
        rw [wrote] at ran
        cases done' with
        | error r => cases ran
        | ok answer => exact ends (h.write lossless read wrote) ran

end Write

/-! ## The whole -/

section Whole

variable {V M : Type} {D : Mapper V M} {lifted : V → V}

/-- The finish changes no document. -/
theorem finished_leaves {S' : Settings} {q : Request} {src dst : Held M} (sound : dst.st.Sound S')
    (id : String) :
    (finished q src dst).st.isLive S' id = dst.st.isLive S' id ∧
      (dst.st.isLive S' id = true →
        (finished q src dst).readSource D id = dst.readSource D id) := by
  have same : dst.st.refresh.document S' id = dst.st.document S' id :=
    IdxState.refresh_leaves.document sound
  have live : dst.st.refresh.isLive S' id = dst.st.isLive S' id := by
    rw [Bool.eq_iff_iff, isLive_iff_document, isLive_iff_document, same]
  refine ⟨live, fun held => ?_⟩
  obtain ⟨d, hd⟩ := Option.isSome_iff_exists.mp (isLive_iff_document.mp held)
  have before := (document_iff hd).2
  have after := (document_iff (same.trans hd)).2
  show (dst.st.refresh.readSource id).bind D.read = (dst.st.readSource id).bind D.read
  rw [before, after]

theorem finished_routing {q : Request} {src dst : Held M} :
    (finished q src dst).st.routing = dst.st.routing := by
  show dst.st.refresh.routing = _
  rw [IdxState.refresh, IdxState.flushed, IdxState.commit_applyOps]

/-- Once it is refreshed, the target shows what it was given. -/
theorem finished_shown {S' : Settings} {q : Request} {src dst : Held M}
    (sound : dst.st.Sound S') (id : String) :
    docsOf (finished q src dst).st.realtime id = docsOf dst.st.settled id := by
  have leaves : IdxState.Leaves S' id dst.st dst.st.refresh := IdxState.refresh_leaves
  have idle : dst.st.refresh.pending[id]? = none := Std.ExtTreeMap.getElem?_empty
  exact ((leaves.agrees sound.pinned (sound.agrees id)).realtime idle).trans
    (leaves.docs sound.pinned)

/-- A `GET` finds a document whose routing and id its own agree with. -/
theorem got_eq_some {x : Index V M} {id : String} {p : Params} {v : V} :
    x.got D id p = some v ↔ x.held.st.readRoutingRefusal x.settings id p = none ∧
      x.held.st.routingMatches x.settings id p = true ∧ x.held.readSource D id = some v := by
  unfold Index.got
  cases x.held.st.readRoutingRefusal x.settings id p with
  | some r => simp
  | none =>
    cases x.held.st.routingMatches x.settings id p with
    | true => simp
    | false => simp

/-- A document without a routing is read under a routing that falls on its shard, and under none
where none is required. -/
theorem got_unrouted {x : Index V M} {id : String} {p : Params} {v : V}
    (unrouted : x.held.st.routing[id]? = none) :
    x.got D id p = some v ↔ (p.routing.filter (· != "") = none → x.routingRequired = false) ∧
      x.placed.shardOf id (p.routing.filter (· != "")) = x.placed.shardOf id none ∧
      x.held.readSource D id = some v := by
  rw [got_eq_some, IdxState.routingMatches, IdxState.shardOfDoc, unrouted]
  refine and_congr ?_ (and_congr_left' beq_iff_eq)
  unfold IdxState.readRoutingRefusal
  cases p.routing.filter (· != "") with
  | none => simp [Index.settings]
  | some r => simp

/-- The copy is one exactly where every get and every routed search finds what it found. -/
theorem copies_iff {src : Index V M} {made : Made V M} {q : Request} {dst : Held M}
    {all : List String} (sound : src.held.st.Sound src.settings)
    (copied : Copied D lifted (made.index src dst).settings src.held dst all)
    (mem : ∀ id, src.held.st.isLive src.settings id = true → id ∈ all) :
    Copies D lifted src (made.index src (finished q src.held dst)) ↔
      Copyable D src made.placed := by
  set S' := (made.index src dst).settings with S'_eq
  have none : ∀ id : String, (finished q src.held dst).st.routing[id]? = none := by
    intro id
    rw [finished_routing, copied.routing]
    exact Std.ExtTreeMap.getElem?_empty
  have live : ∀ id, (finished q src.held dst).st.isLive S' id = true ↔
      id ∈ all ∧ (src.held.readSource D id).isSome = true := by
    intro id
    rw [(finished_leaves (D := D) copied.sound id).1, copied.live id]
  constructor
  · intro copies
    have read : ∀ id, src.held.st.isLive src.settings id = true →
        (src.held.readSource D id).isSome = true :=
      fun id held => ((live id).mp ((copies.live id).trans held)).2
    have unrouted : ∀ id, src.held.st.isLive src.settings id = true →
        src.held.st.routing[id]? = Option.none :=
      fun id held => (copies.routing id held).symm.trans (none id)
    refine ⟨read, unrouted, ?_, ?_⟩
    · intro id held r full same
      obtain ⟨v, reads⟩ := Option.isSome_iff_exists.mp (read id held)
      have named : (some r).filter (· != "") = some r := by
        simp [Option.filter, full]
      have before : src.got D id { routing := some r } = some v := by
        refine (got_unrouted (unrouted id held)).mpr ⟨?_, ?_, reads⟩
        · rw [named]
          intro absent
          cases absent
        · rw [named]
          exact same
      have after := copies.got id _ v before
      obtain ⟨w, after, -⟩ := Option.map_eq_some_iff.mp after
      have both := ((got_unrouted (none id)).mp after).2.1
      rwa [named] at both
    · intro id held r askable asked
      have kept : src.placed.finds [r] id src.held.st.routing[id]? = true := by
        rw [unrouted id held, Routing.Settings.finds_iff]
        exact .inr ⟨r, List.mem_singleton_self r, asked⟩
      have one : ∀ r' ∈ [r], Askable r' := fun r' inside => List.mem_singleton.mp inside ▸ askable
      obtain ⟨d, shown, rfl, found⟩ := copies.searched id [r] held one kept
      have plain : d.routing = Option.none := by
        have here : d ∈ docsOf (finished q src.held dst).st.realtime d.id :=
          mem_docsOf.mpr ⟨shown, rfl⟩
        rw [finished_shown copied.sound] at here
        exact copied.unrouted d.id d here
      rw [plain, Routing.Settings.finds_iff] at found
      rcases found with empty | ⟨r', inside, found⟩
      · cases empty
      · rwa [List.mem_singleton.mp inside] at found
  · intro able
    have same : ∀ id, (finished q src.held dst).st.isLive S' id =
        src.held.st.isLive src.settings id := by
      intro id
      rw [Bool.eq_iff_iff, live id]
      constructor
      · intro both
        by_contra dead
        rw [readSource_dead (sound.agrees id) (Bool.eq_false_iff.mpr dead)] at both
        cases both.2
      · exact fun held => ⟨mem id held, able.read id held⟩
    have source : ∀ id v, src.held.st.isLive src.settings id = true →
        src.held.readSource D id = some v →
        ((finished q src.held dst).readSource D id).map lifted = some (lifted v) := by
      intro id v held read
      have here := (copied.live id).mpr ⟨mem id held, able.read id held⟩
      rw [(finished_leaves copied.sound id).2 here]
      exact copied.source id v (mem id held) read
    refine ⟨same, ?_, ?_, ?_, ?_⟩
    · intro id held
      obtain ⟨v, read⟩ := Option.isSome_iff_exists.mp (able.read id held)
      rw [read]
      exact source id v held read
    · intro id held
      rw [able.unrouted id held]
      exact none id
    · intro id p v reads
      have held : src.held.st.isLive src.settings id = true := by
        by_contra dead
        have gone := readSource_dead (D := D) (sound.agrees id) (Bool.eq_false_iff.mpr dead)
        rw [(got_eq_some.mp reads).2.2] at gone
        cases gone
      obtain ⟨required, falls, read⟩ := (got_unrouted (able.unrouted id held)).mp reads
      obtain ⟨w, there, lifts⟩ := Option.map_eq_some_iff.mp (source id v held read)
      refine Option.map_eq_some_iff.mpr ⟨w, ?_, lifts⟩
      refine (got_unrouted (none id)).mpr ⟨required, ?_, there⟩
      cases named : p.routing.filter (· != "") with
      | none => rfl
      | some r =>
        rw [named] at falls
        have full : r ≠ "" := by
          simpa using (Option.filter_eq_some_iff.mp named).2
        exact able.together id held r full falls
    · intro id values held askable kept
      have here : docsOf dst.st.settled id ≠ [] := by
        have alive := (copied.live id).mpr ⟨mem id held, able.read id held⟩
        rw [(copied.sound.agrees id).isLive] at alive
        simpa using alive
      obtain ⟨d, inside⟩ := List.exists_mem_of_ne_nil _ here
      have shown : d ∈ docsOf (finished q src.held dst).st.realtime id :=
        finished_shown copied.sound id ▸ inside
      refine ⟨d, (mem_docsOf.mp shown).1, (mem_docsOf.mp shown).2, ?_⟩
      rw [able.unrouted id held, Routing.Settings.finds_iff] at kept
      rw [copied.unrouted id d inside]
      refine (Routing.Settings.finds_iff _).mpr ?_
      rcases kept with empty | ⟨r, named, asked⟩
      · exact .inl empty
      · exact .inr ⟨r, named, able.asked id held r (askable r named) asked⟩

/-- Where the target's shards are whole parts of the source's, or the source's of the target's as
in a shrink and a clone that keep the routing shards, a routing value that named a document's
shard names it still. -/
theorem copyable_of_shrunk {src : Index V M} {placed : Routing.Settings} {k : ℕ} {rns : UInt64}
    (shrunk : Routing.SplitBy k placed src.placed) (recorded : placed.veloRoutingShards = some rns)
    (fits : Routing.Fits src.placed.shards rns)
    (read : ∀ id, src.held.st.isLive src.settings id = true →
      (src.held.readSource D id).isSome = true)
    (unrouted : ∀ id, src.held.st.isLive src.settings id = true →
      src.held.st.routing[id]? = none) : Copyable D src placed where
  read := read
  unrouted := unrouted
  together id held r full same := by
    rw [← shrunk.shardOf_div recorded fits, ← shrunk.shardOf_div recorded fits, same]
  asked id held r askable named := by
    rw [← shrunk.shardOf_div recorded fits]
    exact shrunk.mem_shardsForRouting recorded fits named

end Whole

/-! ## A document with a routing, and one without -/

theorem lossless_plain : Lossless plainMapper id where
  read_text _ := rfl
  lifted_withIgnored _ _ := rfl

theorem sound_blocked {S : Settings} {st : IdxState} (sound : st.Sound S) (blocked : Bool) :
    IdxState.Sound S { st with blocksWrite := blocked } where
  pinned := ⟨sound.pinned.queues, sound.pinned.resting⟩
  agrees id :=
    have agrees := sound.agrees id
    ⟨agrees.single, agrees.waiting, agrees.shown, agrees.versioned, agrees.unversioned,
      agrees.numbered, agrees.numbers⟩

def twoShards : Routing.Settings :=
  Routing.Settings.recorded ⟨some 2, none, none, none⟩

def blank : Index String Unit where
  held := { st := { name := "idx" }, mapping := () }
  placed := twoShards
  routingRequired := false
  idFingerprint := fun _ => 0
  knobs := {}
  terms := ∅

def oneDocument : Index String Unit :=
  { blank with
    held :=
      { st := { (blank.held.st.writeGranted blank.settings ∅ "1" "\x7b\x7d" none).1 with
          blocksWrite := true }
        mapping := () } }

def oneRouted : Index String Unit :=
  { blank with held := blockedIndex }

def madeAlike : Made String Unit where
  mapping := ()
  onDisk := false
  placed := twoShards
  knobs := {}
  terms := ∅

def onlyIndex (index : Index String Unit) : Indices String Unit :=
  (∅ : Indices String Unit).insert "idx" index

theorem oneDocument_made : IdxState.Made blank.settings blank.held.st
    (blank.held.st.writeGranted blank.settings ∅ "1" "\x7b\x7d" none).1
    (blank.held.st.granted blank.settings ∅ "1" "\x7b\x7d" none) :=
  IdxState.writeGranted_made (Pair.sound_empty _ _) ∅ "1" _ none

theorem live_oneDocument {id : String}
    (live : oneDocument.held.st.isLive oneDocument.settings id = true) : id = "1" := by
  by_contra other
  have before := (oneDocument_made.leaves id (Ne.symm other)).document (Pair.sound_empty _ _)
  have after := isLive_iff_document.mp live
  have absent : blank.held.st.document blank.settings id = none := by
    simp [IdxState.document, IdxState.isLive, IdxState.lookupId, blank]
  have same : oneDocument.held.st.document oneDocument.settings id =
      (blank.held.st.writeGranted blank.settings ∅ "1" "\x7b\x7d" none).1.document
        blank.settings id := rfl
  rw [same, before, absent] at after
  cases after

end Velosearch.Resize

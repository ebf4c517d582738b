import Velosearch.Index.Sound

/-!
# One operation, on either side

The primary makes a write and records an operation for it; a copy takes the operation.
Both leave the same thing behind: the document the operation carries, at its version,
with every other document as it was (`Made`). A copy is held to the primary's account
through that alone.
-/

set_option autoImplicit false

namespace Velosearch.Index

open Velosearch.Cluster (BTreeMap)

/-- A document as it can be read: source, routing, version, number. -/
structure Document where
  source : Option String
  version : Nat
  seqNo : Option Nat
  routing : Option String
deriving DecidableEq

/-- The document an operation leaves. -/
def ReplicaOp.document (op : ReplicaOp) : Option Document :=
  op.source.map fun raw =>
    { source := some raw, version := op.version, seqNo := some op.seq, routing := op.routing }

/-- The document a copy stores for an operation. -/
def ReplicaOp.doc (op : ReplicaOp) : Option Doc :=
  op.source.map fun raw => { id := op.id, source := raw, seq := op.seq, routing := op.routing }

/-- The translog record of it. -/
def ReplicaOp.record (op : ReplicaOp) : LogRecord :=
  { id := op.id, routing := if op.source.isSome then op.routing else none, version := op.version
    seq := op.seq, term := op.docTerm.getD op.term, source := op.source }

theorem ReplicaOp.mem_doc {op : ReplicaOp} {d : Doc} (h : d ∈ op.doc) :
    d.id = op.id ∧ d.seq = op.seq := by
  obtain ⟨raw, -, rfl⟩ := Option.map_eq_some_iff.mp h
  exact ⟨rfl, rfl⟩

theorem ReplicaOp.doc_source (op : ReplicaOp) : op.doc.map Doc.source = op.source := by
  rw [doc, Option.map_map]
  cases op.source <;> rfl

namespace IdxState

variable {S : Settings} {terms : BTreeMap Nat Nat} {st st' : IdxState} {id j : String}

/-- The document of an id, where there is one. -/
def document (S : Settings) (st : IdxState) (id : String) : Option Document :=
  if st.isLive S id then
    some { source := st.readSource id, version := st.versionOf id, seqNo := st.readSeq id
           routing := st.routing[id]? }
  else none

/-! ## What is read off sound tables -/

/-- A document is read from what is queued or written. -/
theorem Agrees.document (h : st.Agrees S id) :
    st.document S id = (docsOf st.settled id).head?.map fun d =>
      { source := some d.source, version := st.versionOf id, seqNo := some d.seq
        routing := st.routing[id]? } := by
  rw [IdxState.document, h.isLive, h.readSource]
  cases docs : docsOf st.settled id with
  | nil => rfl
  | cons d l => simp [h.readSeq docs]

/-- The version that is held of it. -/
theorem Agrees.heldVersion (h : st.Agrees S id) :
    st.heldVersion S id = match st.versions[id]? with
      | some m => some m.version
      | none => if (docsOf st.settled id).isEmpty then none else some 1 := by
  rw [IdxState.heldVersion, h.isLive]
  cases st.versions[id]? with
  | some m => rfl
  | none => cases (docsOf st.settled id).isEmpty <;> rfl

theorem Agrees.known (h : st.Agrees S id) :
    (st.isLive S id || st.versions.contains id) = (st.heldVersion S id).isSome := by
  rw [h.heldVersion, h.isLive, Std.ExtTreeMap.contains_eq_isSome_getElem?]
  cases st.versions[id]? with
  | some m => simp
  | none => cases (docsOf st.settled id).isEmpty <;> rfl

theorem versionOf_eq (S : Settings) (st : IdxState) (id : String) :
    st.versionOf id = (st.heldVersion S id).getD 1 := by
  rw [versionOf, IdxState.heldVersion]
  cases st.versions[id]? with
  | some m => rfl
  | none => by_cases h : st.isLive S id = true <;> simp [h]

/-- What leaves a document alone leaves what can be read of it. -/
theorem Leaves.document (h : Leaves S j st st') (sound : st.Sound S) :
    st'.document S j = st.document S j := by
  rw [(h.agrees sound.pinned (sound.agrees j)).document, (sound.agrees j).document,
    h.docs sound.pinned, h.routing, versionOf, versionOf, h.versions]

theorem Leaves.heldVersion (h : Leaves S j st st') (sound : st.Sound S) :
    st'.heldVersion S j = st.heldVersion S j := by
  rw [(h.agrees sound.pinned (sound.agrees j)).heldVersion, (sound.agrees j).heldVersion,
    h.docs sound.pinned, h.versions]

theorem Leaves.sound (h : ∀ j, Leaves S j st st') (sound : st.Sound S) : st'.Sound S :=
  ⟨(h "").pinned sound.pinned, fun j => (h j).agrees sound.pinned (sound.agrees j)⟩

/-! ## An operation made -/

/-- An index after an operation: the tables agree, the operation's document stands at the
operation's version, and every other is as it was. -/
structure Made (S : Settings) (st st' : IdxState) (op : ReplicaOp) : Prop where
  sound : st'.Sound S
  leaves : ∀ j, op.id ≠ j → Leaves S j st st'
  document : st'.document S op.id = op.document
  heldVersion : st'.heldVersion S op.id = some op.version

/-- Work for other documents after the write of one. -/
theorem Made.then {op : ReplicaOp} {st'' : IdxState} (h : Made S st st' op)
    (step : ∀ j, Leaves S j st' st'') : Made S st st'' op where
  sound := Leaves.sound step h.sound
  leaves j other := (h.leaves j other).trans (step j)
  document := ((step op.id).document h.sound).trans h.document
  heldVersion := ((step op.id).heldVersion h.sound).trans h.heldVersion

/-- An operation in place of those that wait for the document. -/
def requeue (st : IdxState) (id : String) (shard : Nat) (existed : Bool) (doc : Option Doc) :
    IdxState :=
  let st := if existed then st.queueOpFor id shard (.delete id) else st
  match doc with
  | some doc => st.queueOpFor id shard (.add doc)
  | none => st

/-- Queueing for one document leaves the others alone. -/
theorem requeue_leaves {doc : Option Doc} (own : ∀ d ∈ doc, d.id = id) (other : id ≠ j)
    (shard : Nat) (existed : Bool) : Leaves S j st (st.requeue id shard existed doc) := by
  have first : Leaves S j st (if existed then st.queueOpFor id shard (.delete id) else st) := by
    cases existed with
    | false => exact .refl
    | true => exact queueOpFor_leaves shard rfl other
  cases doc with
  | none => exact first
  | some doc => exact first.trans (queueOpFor_leaves shard (own doc rfl) other)

theorem requeue_requeues (st : IdxState) (id : String) (shard : Nat) (existed : Bool)
    (doc : Option Doc) :
    st.Requeues (st.requeue id shard existed doc) := by
  have first : st.Requeues (if existed then st.queueOpFor id shard (.delete id) else st) := by
    cases existed with
    | false => rfl
    | true => exact queueOpFor_requeues st id shard _
  cases doc with
  | none => exact first
  | some doc =>
    have second := queueOpFor_requeues
      (if existed then st.queueOpFor id shard (.delete id) else st) id shard (.add doc)
    rw [Requeues] at first second ⊢
    rw [requeue, second, first]

theorem requeue_pinned (hp : st.Pinned) {doc : Option Doc} (own : ∀ d ∈ doc, d.id = id)
    (shard : Nat) (existed : Bool) : (st.requeue id shard existed doc).Pinned := by
  have first : (if existed then st.queueOpFor id shard (.delete id) else st).Pinned := by
    cases existed with
    | false => exact hp
    | true => exact queueOpFor_pinned hp shard rfl
  cases doc with
  | none => exact first
  | some doc => exact queueOpFor_pinned first shard (own doc rfl)

/-- The one that is queued is what will be there. -/
theorem docsOf_requeue (hp : st.Pinned) {doc : Option Doc} (own : ∀ d ∈ doc, d.id = id)
    (shard : Nat) {existed : Bool} (h : existed = false → docsOf st.settled id = []) :
    docsOf (st.requeue id shard existed doc).settled id = doc.toList := by
  have first : (if existed then st.queueOpFor id shard (.delete id) else st).Pinned ∧
      docsOf (if existed then st.queueOpFor id shard (.delete id) else st).settled id = [] := by
    cases existed with
    | false => exact ⟨hp, h rfl⟩
    | true =>
      have own : (PendingOp.delete id).id = id := rfl
      exact ⟨queueOpFor_pinned hp shard own, by
        rw [if_pos rfl, docsOf_queueOpFor hp shard own, hand_delete]⟩
  cases doc with
  | none => exact first.2
  | some doc =>
    obtain rfl := own doc rfl
    have own : (PendingOp.add doc).id = doc.id := rfl
    rw [requeue, docsOf_queueOpFor first.1 shard own, hand_add, first.2]
    rfl

/-- Everything but the note is done: the operation's document stands in the queue, and
the versions, the live ids and the routing know it. -/
structure Ready (S : Settings) (st st' : IdxState) (op : ReplicaOp) (doc : Option Doc) : Prop where
  pinned : st'.Pinned
  leaves : ∀ j, op.id ≠ j → Leaves S j st st'
  source : doc.map Doc.source = op.source
  seq : ∀ d ∈ doc, d.seq = op.seq
  docs : docsOf st'.settled op.id = doc.toList
  versioned : ∀ m, st'.versions[op.id]? = some m → m = ⟨op.version, op.source.isSome⟩
  unversioned : st'.versions[op.id]? = none → op.version = 1 ∧ op.source.isSome ∧
    st'.liveIds.contains (S.idFingerprint op.id) = true
  routing : op.source.isSome → st'.routing[op.id]? = op.routing

theorem Ready.log {op : ReplicaOp} {doc : Option Doc} (h : Ready S st st' op doc)
    (r : LogRecord) : Ready S st (st'.logWrite r) op doc where
  pinned := (logWrite_leaves (S := S) (j := op.id) r).pinned h.pinned
  leaves j other := (h.leaves j other).trans (logWrite_leaves r)
  source := h.source
  seq := h.seq
  docs := ((logWrite_leaves (S := S) r).docs h.pinned).trans h.docs
  versioned := by rw [logWrite_eq]; exact h.versioned
  unversioned := by rw [logWrite_eq]; exact h.unversioned
  routing := by rw [logWrite_eq]; exact h.routing

/-- A document that is queued, with its version, has been made. -/
theorem Ready.made {op : ReplicaOp} {doc : Option Doc} (h : Ready S st st' op doc)
    (sound : st.Sound S) :
    Made S st ((st'.notePending op.id op.source).notePendingSeq op.id op.seq) op := by
  have docs : (docsOf st'.settled op.id).map Doc.source = op.source.toList := by
    rw [h.docs, ← h.source]
    cases doc <;> rfl
  have seqs : ∀ d ∈ docsOf st'.settled op.id, d.seq = op.seq := by
    intro d hd
    rw [h.docs] at hd
    exact h.seq d (Option.mem_toList.mp hd)
  have empty : (docsOf st'.settled op.id).isEmpty = !op.source.isSome := by
    rw [h.docs, ← h.source]
    cases doc <;> rfl
  have listed : st'.Listed S op.id := by
    refine ⟨fun m hm => ?_, fun hv _ _ => (h.unversioned hv).2.2⟩
    rw [h.versioned m hm, empty, Bool.not_not]
  have agrees := agrees_noted h.pinned docs seqs listed
  obtain ⟨versions, routing⟩ := notePending_frame st' op.id op.source
  have settled : docsOf ((st'.notePending op.id op.source).notePendingSeq op.id op.seq).settled
      op.id = doc.toList := (docsOf_notePending h.pinned op.source op.id).trans h.docs
  have versionsAt : ((st'.notePending op.id op.source).notePendingSeq op.id op.seq).versions =
      st'.versions := versions
  have routingAt : ((st'.notePending op.id op.source).notePendingSeq op.id op.seq).routing =
      st'.routing := routing
  have leaves : ∀ j, op.id ≠ j → Leaves S j st
      ((st'.notePending op.id op.source).notePendingSeq op.id op.seq) := fun j other =>
    (h.leaves j other).trans
      ((notePending_leaves other op.source).trans (notePendingSeq_leaves other op.seq))
  have held : ((st'.notePending op.id op.source).notePendingSeq op.id op.seq).heldVersion S op.id =
      some op.version := by
    rw [agrees.heldVersion, versionsAt, settled]
    cases hv : st'.versions[op.id]? with
    | some m => rw [h.versioned m hv]
    | none =>
      obtain ⟨one, live, -⟩ := h.unversioned hv
      rw [← h.source, Option.isSome_map] at live
      obtain ⟨d, rfl⟩ := Option.isSome_iff_exists.mp live
      rw [one]
      rfl
  refine ⟨⟨?_, fun j => ?_⟩, leaves, ?_, held⟩
  · have := notePending_pinned h.pinned op.id op.source
    exact ⟨this.queues, this.resting⟩
  · by_cases other : op.id = j
    · exact other ▸ agrees
    · exact (leaves j other).agrees sound.pinned (sound.agrees j)
  · rw [agrees.document, settled, versionOf_eq S, held, routingAt, ReplicaOp.document, ← h.source]
    cases doc with
    | none => rfl
    | some d =>
      have live : op.source.isSome := by rw [← h.source]; rfl
      rw [← h.routing live, ← h.seq d rfl]
      rfl

/-! ## The copy's side -/

theorem takeRouting_eq (st : IdxState) (op : ReplicaOp) : ∃ r, st.takeRouting op = { st with routing := r } ∧
    (∀ j, op.id ≠ j → r[j]? = st.routing[j]?) ∧ (op.source.isSome → r[op.id]? = op.routing) := by
  rw [takeRouting]
  cases hr : op.routing with
  | some r =>
    exact ⟨_, rfl, fun j other => by simp [Std.ExtTreeMap.getElem?_insert, other], fun _ => by simp⟩
  | none =>
    cases hs : op.source with
    | some raw =>
      exact ⟨_, rfl, fun j other => by simp [Std.ExtTreeMap.getElem?_erase, other], fun _ => by simp⟩
    | none => exact ⟨_, rfl, fun _ _ => rfl, fun h => absurd h nofun⟩

/-- What an operation from the primary finds when it is queued. -/
def prepared (S : Settings) (st : IdxState) (op : ReplicaOp) : IdxState :=
  ((st.takeRouting op).setReplicatedVersion S op.id op.version op.source.isSome op.seq).setTerm
    op.id (if op.source.isSome then op.docTerm.getD op.term else 1)

theorem take_eq (st : IdxState) (op : ReplicaOp) :
    st.take S op = ((((st.prepared S op).requeue op.id ((st.prepared S op).shardOfDoc S op.id)
      (st.isLive S op.id) op.doc).logWrite op.record).notePending op.id op.source).notePendingSeq
        op.id op.seq := by
  simp only [take, requeue, ReplicaOp.doc, ReplicaOp.record, prepared]
  cases op.source <;> rfl

/-- An operation that is taken makes its document. -/
theorem take_made (sound : st.Sound S) (op : ReplicaOp) : Made S st (st.take S op) op := by
  obtain ⟨routing, taken, elsewhere, here⟩ := takeRouting_eq st op
  have own : ∀ d ∈ op.doc, d.id = op.id := fun d hd => (ReplicaOp.mem_doc hd).1
  have prepared_eq : st.prepared S op = { st with
      versions := st.versions.insert op.id ⟨op.version, op.source.isSome⟩
      liveIds := (st.prepared S op).liveIds, seqNo := (st.prepared S op).seqNo
      terms := (st.prepared S op).terms, routing := routing } := by
    rw [prepared, taken]
    rfl
  have pinned : (st.prepared S op).Pinned := by
    rw [prepared_eq]
    exact ⟨sound.pinned.queues, sound.pinned.resting⟩
  have settled : (st.prepared S op).settled = st.settled := by
    rw [prepared_eq]
    rfl
  have leaves : ∀ j, op.id ≠ j → Leaves S j st (st.prepared S op) := by
    intro j other
    have routed : Leaves S j st (st.takeRouting op) := by
      rw [taken]
      exact ⟨fun h => ⟨h.queues, h.resting⟩, fun _ => rfl, rfl, elsewhere j other, Lingers.refl,
        fun _ h =>
        ⟨h.single, h.waiting, h.shown, h.versioned, h.unversioned, h.numbered, h.numbers⟩⟩
    exact (routed.trans (setReplicatedVersion_leaves other _ _ _)).trans (setTerm_leaves _)
  rw [take_eq]
  refine Ready.made (Ready.log ⟨requeue_pinned pinned own _ _, fun j other => ?_, op.doc_source,
    fun d hd => (ReplicaOp.mem_doc hd).2, ?_, ?_, ?_, ?_⟩ _) sound
  · exact (leaves j other).trans (requeue_leaves own other _ _)
  · refine docsOf_requeue pinned own _ fun dead => ?_
    rw [settled, (sound.agrees op.id).absent dead]
  · intro m hm
    rw [requeue_requeues, prepared_eq] at hm
    simpa using hm.symm
  · intro none
    rw [requeue_requeues, prepared_eq] at none
    simp at none
  · intro live
    rw [requeue_requeues, prepared_eq]
    exact here live

/-! ## The primary's side -/

/-- The version a write gets. -/
def nextVersion (S : Settings) (st : IdxState) (id : String) (forced : Option Nat) : Nat :=
  forced.getD (((st.heldVersion S id).map succ64).getD 1)

theorem bump_version (agrees : st.Agrees S id) (live : Bool) :
    (st.bump S id live (st.isLive S id)).2.1 = st.nextVersion S id none := by
  simp only [bump, agrees.known, nextVersion, Option.getD_none, versionOf_eq S]
  cases st.heldVersion S id <;> rfl

theorem bump_versions (agrees : st.Agrees S id) (live : Bool) :
    (st.bump S id live (st.isLive S id)).1.versions[id]? =
        some ⟨st.nextVersion S id none, live⟩ ∨
      (live = true ∧ st.heldVersion S id = none ∧ st.versions[id]? = none ∧
        (st.bump S id live (st.isLive S id)).1.versions = st.versions) := by
  have version := bump_version agrees live
  simp only [bump, agrees.known] at version ⊢
  rw [version]
  cases held : st.heldVersion S id with
  | some h => exact .inl (by simp)
  | none =>
    cases live with
    | false => exact .inl (by simp)
    | true =>
      refine .inr ⟨rfl, rfl, ?_, by simp⟩
      rw [agrees.heldVersion] at held
      cases hv : st.versions[id]? with
      | none => rfl
      | some m => simp [hv] at held

/-- The version a write gets. -/
theorem numbered_version (agrees : st.Agrees S id) (forced : Option Nat) :
    (st.numbered S id forced (st.isLive S id)).2 = (st.nextVersion S id forced, st.seqNo) := by
  cases forced with
  | some v => rfl
  | none => exact Prod.ext (bump_version agrees true) rfl

theorem numbered_eq (st : IdxState) (id : String) (forced : Option Nat) :
    (st.numbered S id forced (st.isLive S id)).1 = { st with
      versions := (st.numbered S id forced (st.isLive S id)).1.versions
      liveIds := st.liveIds.insert (S.idFingerprint id), seqNo := succ64 st.seqNo } := by
  cases forced <;> rfl

theorem numbered_leaves (other : id ≠ j) (forced : Option Nat) :
    Leaves S j st (st.numbered S id forced (st.isLive S id)).1 := by
  cases forced with
  | some v => exact bumpToSeq_leaves other _ _ _
  | none => exact bump_leaves other _ _

theorem numbered_versions (agrees : st.Agrees S id) (forced : Option Nat) :
    (st.numbered S id forced (st.isLive S id)).1.versions[id]? =
        some ⟨st.nextVersion S id forced, true⟩ ∨
      ((st.numbered S id forced (st.isLive S id)).1.versions[id]? = none ∧
        st.nextVersion S id forced = 1) := by
  cases forced with
  | some v =>
    refine .inl ?_
    simp [numbered, bumpToSeq, nextVersion]
  | none =>
    rcases bump_versions agrees true with h | ⟨-, held, none, same⟩
    · exact .inl h
    · refine .inr ⟨?_, by simp [nextVersion, held]⟩
      rw [numbered, same, none]

/-- A write that was granted, as it is sent on. -/
def granted (S : Settings) (terms : BTreeMap Nat Nat) (st : IdxState) (id raw : String)
    (forced : Option Nat) : ReplicaOp :=
  { index := st.name, id, routing := st.routing[id]?, version := st.nextVersion S id forced
    seq := st.seqNo, term := primaryTerm terms (st.shardOfDoc S id), shard := st.shardOfDoc S id
    source := some raw, docTerm := none }

/-- A write that is granted takes the operation it sends. -/
theorem writeGranted_eq (agrees : st.Agrees S id) (raw : String) (forced : Option Nat) :
    (st.writeGranted S terms id raw forced).2.1 = st.granted S terms id raw forced ∧
    (st.writeGranted S terms id raw forced).1 =
      (((((st.numbered S id forced (st.isLive S id)).1.requeue id (st.shardOfDoc S id)
        (st.isLive S id) (st.granted S terms id raw forced).doc).setTerm id
          (primaryTerm terms (st.shardOfDoc S id))).logWrite
            (st.granted S terms id raw forced).record).notePending id (some raw)).notePendingSeq id
              st.seqNo := by
  have eq : st.numbered S id forced (st.isLive S id) =
      ((st.numbered S id forced (st.isLive S id)).1, st.nextVersion S id forced, st.seqNo) :=
    Prod.ext rfl (numbered_version agrees forced)
  have routing : (st.numbered S id forced (st.isLive S id)).1.routing = st.routing := by
    rw [numbered_eq]
  simp only [writeGranted]
  rw [eq]
  simp only [routing]
  exact ⟨rfl, rfl⟩

theorem writeGranted_routing (agrees : st.Agrees S id) (raw : String) (forced : Option Nat) :
    (st.writeGranted S terms id raw forced).1.routing = st.routing := by
  rw [(writeGranted_eq agrees raw forced).2]
  simp only [notePendingSeq]
  rw [(notePending_frame _ _ _).2, logWrite_eq]
  simp only [setTerm]
  rw [requeue_requeues, numbered_eq]

/-- **A granted write** is made, and the operation it records says so. -/
theorem writeGranted_made (sound : st.Sound S) (terms : BTreeMap Nat Nat) (id raw : String)
    (forced : Option Nat) :
    Made S st (st.writeGranted S terms id raw forced).1 (st.granted S terms id raw forced) := by
  have own : ∀ d ∈ (st.granted S terms id raw forced).doc, d.id = id := fun d hd =>
    (ReplicaOp.mem_doc hd).1
  have agrees := sound.agrees id
  have pinned : (st.numbered S id forced (st.isLive S id)).1.Pinned := by
    rw [numbered_eq]
    exact ⟨sound.pinned.queues, sound.pinned.resting⟩
  have settled : (st.numbered S id forced (st.isLive S id)).1.settled = st.settled := by
    rw [numbered_eq]
    rfl
  rw [(writeGranted_eq agrees raw forced).2]
  have ready : Ready S st
      (((st.numbered S id forced (st.isLive S id)).1.requeue id (st.shardOfDoc S id)
        (st.isLive S id) (st.granted S terms id raw forced).doc).setTerm id (primaryTerm terms (st.shardOfDoc S id)))
      (st.granted S terms id raw forced) (st.granted S terms id raw forced).doc := by
    have queued := requeue_pinned pinned own (st.shardOfDoc S id) (st.isLive S id)
    refine ⟨⟨queued.queues, queued.resting⟩, fun j other => ?_, ReplicaOp.doc_source _,
      fun d hd => (ReplicaOp.mem_doc hd).2, ?_, ?_, ?_, ?_⟩
    · exact ((numbered_leaves other forced).trans (requeue_leaves own other _ _)).trans
        (setTerm_leaves _)
    · refine docsOf_requeue pinned own _ fun dead => ?_
      rw [settled, agrees.absent dead]
    · intro m hm
      simp only [setTerm] at hm
      rw [requeue_requeues] at hm
      rcases numbered_versions agrees forced with h | ⟨h, -⟩
      · exact Option.some.inj (hm.symm.trans h)
      · exact absurd (hm.symm.trans h) nofun
    · intro none
      simp only [setTerm] at none
      rw [requeue_requeues] at none
      rcases numbered_versions agrees forced with h | ⟨-, one⟩
      · exact absurd (none.symm.trans h) nofun
      · refine ⟨one, rfl, ?_⟩
        simp only [setTerm]
        rw [requeue_requeues, numbered_eq]
        exact Std.ExtTreeSet.contains_insert_self
    · intro _
      simp only [setTerm]
      rw [requeue_requeues, numbered_eq]
      rfl
  exact (ready.log _).made sound

/-- The document a granted write leaves in the queue is the one it records. -/
theorem docsOf_writeGranted (sound : st.Sound S) (terms : BTreeMap Nat Nat) (id raw : String)
    (forced : Option Nat) : docsOf (st.writeGranted S terms id raw forced).1.settled id =
      (st.granted S terms id raw forced).doc.toList := by
  have own : ∀ d ∈ (st.granted S terms id raw forced).doc, d.id = id := fun d hd =>
    (ReplicaOp.mem_doc hd).1
  have pinned : (st.numbered S id forced (st.isLive S id)).1.Pinned := by
    rw [numbered_eq]
    exact ⟨sound.pinned.queues, sound.pinned.resting⟩
  have settled : (st.numbered S id forced (st.isLive S id)).1.settled = st.settled := by
    rw [numbered_eq]
    rfl
  have queued := requeue_pinned pinned own (st.shardOfDoc S id) (st.isLive S id)
  have termed : (((st.numbered S id forced (st.isLive S id)).1.requeue id (st.shardOfDoc S id)
      (st.isLive S id) (st.granted S terms id raw forced).doc).setTerm id
        (primaryTerm terms (st.shardOfDoc S id))).Pinned := ⟨queued.queues, queued.resting⟩
  have logged (x : IdxState) : Leaves S id x
      (x.logWrite (st.granted S terms id raw forced).record) := logWrite_leaves _
  rw [(writeGranted_eq (sound.agrees id) raw forced).2]
  refine (docsOf_notePending ((logged _).pinned termed) (some raw) id).trans ?_
  refine ((logged _).docs termed).trans ?_
  refine docsOf_requeue pinned own _ fun dead => ?_
  rw [settled, (sound.agrees id).absent dead]

theorem Made.after {op : ReplicaOp} {st₁ : IdxState} (h : Made S st₁ st' op)
    (before : ∀ j, op.id ≠ j → Leaves S j st st₁) : Made S st st' op :=
  ⟨h.sound, fun j other => (before j other).trans (h.leaves j other), h.document, h.heldVersion⟩

theorem Sound.setRouting (sound : st.Sound S) (id : String) (routing : Option String) :
    (st.setRouting id routing).Sound S :=
  ⟨⟨sound.pinned.queues, sound.pinned.resting⟩, fun j =>
    have a := sound.agrees j
    ⟨a.single, a.waiting, a.shown, a.versioned, a.unversioned, a.numbered, a.numbers⟩⟩

theorem Sound.setRouting_heldVersion (sound : st.Sound S) (id : String) (routing : Option String)
    (j : String) : (st.setRouting id routing).heldVersion S j = st.heldVersion S j := by
  rw [((sound.setRouting id routing).agrees j).heldVersion, (sound.agrees j).heldVersion]
  rfl

/-- The routing of a deleted document may go. -/
theorem Made.forget {op : ReplicaOp} (h : Made S st st' op) (gone : op.source = none) :
    Made S st (st'.setRouting op.id none) op := by
  have sound : (st'.setRouting op.id none).Sound S := h.sound.setRouting op.id none
  refine ⟨sound, fun j other => (h.leaves j other).trans (setRouting_leaves other none), ?_, ?_⟩
  · have dead : op.document = none := by rw [ReplicaOp.document, gone]; rfl
    have before := h.document
    rw [dead, (h.sound.agrees op.id).document, Option.map_eq_none_iff] at before
    rw [dead, (sound.agrees op.id).document, Option.map_eq_none_iff]
    exact before
  · rw [h.sound.setRouting_heldVersion, h.heldVersion]

/-- A deletion, likewise. -/
def deleted (S : Settings) (terms : BTreeMap Nat Nat) (st : IdxState) (id : String) : ReplicaOp :=
  { index := st.name, id, routing := none, version := st.nextVersion S id none
    seq := st.seqNo, term := primaryTerm terms (st.shardOfDoc S id), shard := st.shardOfDoc S id
    source := none, docTerm := none }

/-- **A delete** of a live document is made, and recorded. -/
theorem deleteDoc_made (sound : st.Sound S) (terms : BTreeMap Nat Nat)
    (open_ : st.changeRefusal = none) (live : st.isLive S id = true) :
    (st.deleteDoc S terms id).2.1 = [st.deleted S terms id] ∧
      Made S st (st.deleteDoc S terms id).1 (st.deleted S terms id) := by
  have agrees := sound.agrees id
  have version := bump_version agrees false
  rw [live] at version
  have eq : (st.deleteDoc S terms id).1 =
      (((((st.bump S id false true).1.requeue id (st.shardOfDoc S id) true none).setTerm id 1)
        |>.logWrite (st.deleted S terms id).record).notePending id none).notePendingSeq
          id st.seqNo := by
    rw [deleteDoc, open_]
    simp only [live, if_true, deleted, ReplicaOp.record, ← version]
    rfl
  have ops : (st.deleteDoc S terms id).2.1 = [st.deleted S terms id] := by
    rw [deleteDoc, open_]
    simp only [live, if_true, deleted, ← version]
    rfl
  refine ⟨ops, ?_⟩
  rw [eq]
  have own : ∀ d ∈ (none : Option Doc), d.id = id := nofun
  have pinned : (st.bump S id false true).1.Pinned :=
    ⟨sound.pinned.queues, sound.pinned.resting⟩
  have entry : (st.bump S id false true).1.versions[id]? =
      some ⟨st.nextVersion S id none, false⟩ := by
    rcases bump_versions agrees false with h | ⟨h, -⟩
    · rwa [live] at h
    · exact absurd h nofun
  have ready : Ready S st
      (((st.bump S id false true).1.requeue id (st.shardOfDoc S id) true none).setTerm id 1)
      (st.deleted S terms id) none := by
    have queued := requeue_pinned pinned own (st.shardOfDoc S id) true
    refine ⟨⟨queued.queues, queued.resting⟩, fun j other => ?_, rfl, nofun, ?_, ?_, ?_, nofun⟩
    · exact ((bump_leaves other _ _).trans (requeue_leaves own other _ _)).trans (setTerm_leaves _)
    · exact docsOf_requeue pinned own _ nofun
    · intro m hm
      simp only [setTerm] at hm
      rw [requeue_requeues] at hm
      exact Option.some.inj (hm.symm.trans entry)
    · intro none
      simp only [setTerm] at none
      rw [requeue_requeues] at none
      exact absurd (none.symm.trans entry) nofun
  exact (ready.log _).made sound

/-! ## The queue of the document itself -/

/-- Where a document is pinned, it is to this shard. -/
def Under (shard : Nat) (id : String) (st : IdxState) : Prop :=
  ∀ q, st.queuedShard[id]? = some q → q = shard

variable {shard : Nat}

theorem Under.applyOps (h : Under shard id st) (only : Option Nat) :
    Under shard id (st.applyOps only) := by
  intro q hq
  rw [IdxState.applyOps] at hq
  split at hq
  · exact h q hq
  · rw [Std.ExtTreeMap.getElem?_filter'] at hq
    exact h q (Option.filter_eq_some_iff.mp hq).1

theorem Under.queueOpFor (h : Under shard id st) (op : PendingOp) :
    Under shard id (st.queueOpFor id shard op) := by
  have queued : Under shard id { st with
      deferred := st.deferred ++ [((st.queuedShard[id]?).getD shard, op)]
      queuedShard := st.queuedShard.insert id ((st.queuedShard[id]?).getD shard) } := by
    intro q hq
    rw [Std.ExtTreeMap.getElem?_insert_self] at hq
    rw [← Option.some.inj hq]
    cases pin : st.queuedShard[id]? with
    | none => rfl
    | some q' => exact h q' pin
  simp only [IdxState.queueOpFor, queueOp]
  split
  · exact queued.applyOps none
  · exact queued

/-- A document stays pinned to its shard as it is queued again. -/
theorem Under.requeue (h : Under shard id st) (existed : Bool) (doc : Option Doc) :
    Under shard id (st.requeue id shard existed doc) := by
  have first : Under shard id (if existed then st.queueOpFor id shard (.delete id) else st) := by
    cases existed with
    | false => exact h
    | true => exact h.queueOpFor _
  cases doc with
  | none => exact first
  | some doc => exact first.queueOpFor _

theorem Under.logWrite (h : Under shard id st) (r : LogRecord) :
    Under shard id (st.logWrite r) := by
  rw [IdxState.logWrite]
  split
  · exact h
  · have logged : ∀ log bytes,
        Under shard id { st with translog := log, translogBytes := bytes } := fun _ _ => h
    dsimp only
    split
    · split
      · have done := (logged (st.translog ++ [r])
          (st.translogBytes + (String.ofList r.line).utf8ByteSize)).applyOps none
        rw [Under, commit_requeued]
        exact done
      · exact (logged _ _).applyOps none
    · exact logged _ _

theorem Under.notePending (h : Under shard id st) (source : Option String) :
    Under shard id (st.notePending id source) := by
  have noted : Under shard id (st.noted id source) := h
  rcases notePending_cases st id source with e | e <;> rw [e]
  · exact noted
  · have done := noted.applyOps none
    rw [Under, flushed, commit_requeued]
    exact done

theorem Under.setTerm (h : Under shard id st) (term : Nat) : Under shard id (st.setTerm id term) :=
  h

theorem Under.notePendingSeq (h : Under shard id st) (seq : Nat) :
    Under shard id (st.notePendingSeq id seq) :=
  h

theorem Under.waits (h : Under shard id st) : st.Waits S shard id :=
  fun _ _ q hq => h q hq

/-- It is pinned to its shard when it is written. -/
theorem writeGranted_under (sound : st.Sound S) {id : String} (raw : String) (forced : Option Nat)
    (h : Under (st.shardOfDoc S id) id st) :
    Under (st.shardOfDoc S id) id (st.writeGranted S terms id raw forced).1 := by
  rw [(writeGranted_eq (sound.agrees id) raw forced).2]
  have numbered : Under (st.shardOfDoc S id) id (st.numbered S id forced (st.isLive S id)).1 := by
    rw [numbered_eq]
    exact h
  have queued := (numbered.requeue (st.isLive S id) (st.granted S terms id raw forced).doc).setTerm
    (primaryTerm terms (st.shardOfDoc S id))
  exact ((queued.logWrite _).notePending _).notePendingSeq _

/-- And when it is deleted. -/
theorem deleteDoc_under (terms : BTreeMap Nat Nat) (h : Under (st.shardOfDoc S id) id st) :
    Under (st.shardOfDoc S id) id (st.deleteDoc S terms id).1 := by
  rw [deleteDoc]
  split
  · exact h
  · dsimp only
    split
    · have bumped : Under (st.shardOfDoc S id) id (st.bump S id false (st.isLive S id)).1 := h
      have queued := (bumped.queueOpFor (.delete id)).setTerm 1
      exact ((queued.logWrite _).notePending _).notePendingSeq _
    · exact h

/-! ## An operation not made -/

/-- Every document reads as it did, and no version has gone back. -/
structure Still (S : Settings) (st st' : IdxState) : Prop where
  sound : st'.Sound S
  document : ∀ j, st'.document S j = st.document S j
  heldVersion : ∀ j v, st.heldVersion S j = some v → ∃ w, st'.heldVersion S j = some w ∧ v ≤ w

theorem Still.refl (sound : st.Sound S) : Still S st st :=
  ⟨sound, fun _ => rfl, fun _ v h => ⟨v, h, le_rfl⟩⟩

theorem Still.trans {st'' : IdxState} (h : Still S st st') (h' : Still S st' st'') :
    Still S st st'' := by
  refine ⟨h'.sound, fun j => (h'.document j).trans (h.document j), fun j v hv => ?_⟩
  obtain ⟨w, hw, le⟩ := h.heldVersion j v hv
  obtain ⟨u, hu, le'⟩ := h'.heldVersion j w hw
  exact ⟨u, hu, le.trans le'⟩

/-- What leaves every document alone stands still. -/
theorem Leaves.still (h : ∀ j, Leaves S j st st') (sound : st.Sound S) : Still S st st' :=
  ⟨Leaves.sound h sound, fun j => (h j).document sound, fun j v hv =>
    ⟨v, by rw [(h j).heldVersion sound, hv], le_rfl⟩⟩

theorem still_missed (sound : st.Sound S) (dead : st.isLive S id = false) {v : Nat}
    (eq : st' = { st with versions := st.versions.insert id ⟨v, false⟩, seqNo := st'.seqNo })
    (above : ∀ h, st.heldVersion S id = some h → h ≤ v) :
    Still S st (st'.setRouting id none) := by
  have gone : docsOf st.settled id = [] := by
    have := (sound.agrees id).isLive
    rw [dead] at this
    simpa using this
  have settled : st'.settled = st.settled := by rw [eq]; rfl
  have entry : st'.versions[id]? = some ⟨v, false⟩ := by rw [eq]; simp
  have leaves : ∀ j, id ≠ j → Leaves S j st st' := fun j other =>
    versions_leaves (by rw [eq]) (by rw [eq]; simp [Std.ExtTreeMap.getElem?_insert, other])
      (by rw [eq]; exact fun _ h => h)
  have agrees : st'.Agrees S id := by
    have a := sound.agrees id
    refine ⟨settled ▸ a.single, ?_, ?_, ?_, ?_, ?_, ?_⟩
    · rw [settled, eq]; exact a.waiting
    · rw [eq]; exact a.shown
    · intro m hm
      rw [entry] at hm
      rw [settled, gone, ← Option.some.inj hm]
      rfl
    · intro hv
      exact absurd (entry.symm.trans hv) nofun
    · rw [settled, eq]; exact a.numbered
    · rw [eq]; exact a.numbers
  have pinned : st'.Pinned := by
    rw [eq]
    exact ⟨sound.pinned.queues, sound.pinned.resting⟩
  have sound' : st'.Sound S := by
    refine ⟨pinned, fun j => ?_⟩
    by_cases other : id = j
    · exact other ▸ agrees
    · exact (leaves j other).agrees sound.pinned (sound.agrees j)
  have forgotten := sound'.setRouting id none
  refine ⟨forgotten, fun j => ?_, fun j w hw => ?_⟩
  · by_cases other : id = j
    · subst other
      rw [(forgotten.agrees id).document, (sound.agrees id).document, gone]
      have none : docsOf (st'.setRouting id none).settled id = [] :=
        (congrArg (docsOf · id) settled).trans gone
      rw [none]
      rfl
    · exact ((leaves j other).trans (setRouting_leaves other none)).document sound
  · rw [sound'.setRouting_heldVersion]
    by_cases other : id = j
    · subst other
      refine ⟨v, ?_, above w hw⟩
      rw [(sound'.agrees id).heldVersion, entry]
    · exact ⟨w, by rw [(leaves j other).heldVersion sound, hw], le_rfl⟩

end IdxState

end Velosearch.Index

import Velosearch.Api.Doc
import Velosearch.Index.Made

/-!
# A write that is refused

What a write leaves behind that is answered with an error. A write by a request of its own
puts the routing back where it is refused; the other routes do not, and a document that is
refused after the dynamic templates had their say has taught the mapping what they claim.
-/

set_option autoImplicit false

namespace Velosearch.Api

open Velosearch.Cluster (BTreeMap)
open Velosearch.Index

/-! ## The statement -/

/-- A write of one document, by itself or as an item of a bulk, which may ask for a refresh. -/
inductive Write (V : Type) where
  | index (id : Option String) (v : V) (opType : OpType) (p : Params)
  | update (id : String) (patch : Patch V) (p : Params)
  | delete (id : String) (p : Params)
  | bulkIndex (given : Bool) (id : Option String) (v : V) (raw : String) (opType : OpType)
      (routing : Option String) (ifSeqNo : Option Nat) (refreshing : Bool)
  | bulkSentOn (id : Option String) (v : V) (opType : OpType) (routing : Option String)
      (refreshing : Bool)
  | bulkUpdate (id : Option String) (patch : Patch V) (routing : Option String)
      (ifSeqNo : Option Nat) (refreshing : Bool)
  | bulkDelete (id : Option String) (routing : Option String) (refreshing : Bool)

namespace Write

variable {V M : Type} [DecidableEq V] (S : Settings) (K : Knobs V) (D : Mapper V M)
  (terms : BTreeMap Nat Nat) (x : Held M)

/-- An item with an empty id is refused before its index is noted down to be refreshed. -/
def touches (id : Option String) (refreshing : Bool) : Bool :=
  refreshing && id != some ""

/-- The write as the routes for single documents carry it out. -/
def done (synced : Bool) : Write V → Held M × Except Refusal Answer
  | .index id v opType p => x.doIndex S K D terms id v opType p synced
  | .update id patch p => x.updateDoc S K D terms id patch p synced
  | .delete id p => x.deleteDocRoute S terms id p synced
  | .bulkIndex given id v raw opType routing ifSeqNo refreshing =>
    Held.recorded (x.bulkIndex S K D terms given id v raw opType routing ifSeqNo)
      (Write.touches id refreshing) synced
  | .bulkSentOn id v opType routing refreshing =>
    Held.recorded (x.bulkSentOn S K D terms id v opType routing) refreshing synced
  | .bulkUpdate id patch routing ifSeqNo refreshing =>
    Held.recorded (x.bulkUpdate S K D terms id patch routing ifSeqNo)
      (Write.touches id refreshing) synced
  | .bulkDelete id routing refreshing =>
    Held.recorded (x.bulkDelete S terms id routing) (Write.touches id refreshing) synced

/-- The document it is about. -/
def id : Write V → String
  | .index id _ _ _ => (x.named id).2
  | .update id _ _ => id
  | .delete id _ => id
  | .bulkIndex _ id _ _ _ _ _ _ => (x.named id).2
  | .bulkSentOn id _ _ _ _ => (x.named id).2
  | .bulkUpdate id _ _ _ _ => (x.named id).2
  | .bulkDelete id _ _ => (x.named id).2

end Write

/-- The document is what it was: its life, its version, its text, its routing, its number. -/
structure Unmoved {M : Type} (S : Settings) (id : String) (x y : Held M) : Prop where
  live : y.st.isLive S id = x.st.isLive S id
  version : y.st.versionOf id = x.st.versionOf id
  seq : y.st.readSeq id = x.st.readSeq id
  seqNo : y.st.seqNo = x.st.seqNo
  routing : y.st.routing[id]? = x.st.routing[id]?
  deferred : y.st.deferred = x.st.deferred
  pending : y.st.pending = x.st.pending
  translog : y.st.translog = x.st.translog
  mapping : y.mapping = x.mapping

/-- Where the answer is an error, nothing has changed. -/
def Harmless {M : Type} (S : Settings) (id : String) (x : Held M)
    (done : Held M × Except Refusal Answer) : Prop :=
  ∀ refusal, done.2 = .error refusal → Unmoved S id x done.1

/-! ## Where a document is refused -/

/-- How far `write_doc_uncounted` gets with a document. -/
inductive Verdict where
  | early
  | late
  | granted
deriving DecidableEq

namespace Held

variable {V M : Type} (S : Settings) (K : Knobs V) (D : Mapper V M) (terms : BTreeMap Nat Nat)
  (x : Held M)

/-- `scan_malformed` refuses the document. -/
def malformed (id : String) (v : V) : Bool :=
  match D.scanMalformed x.mapping id v with
  | .error _ => true
  | .ok _ => false

/-- The mapping refuses the document once the dynamic templates are in. -/
def unmappable (v : V) : Bool :=
  let taught := D.applyDynamicTemplates x.mapping v
  (D.claimByTemplates x.mapping v).2.isSome || (D.percolatorComplaint taught v).isSome ||
    (K.totalFieldsLimit ≤ D.fieldCount taught && D.teachesAnything taught v)

/-- How a write ends, without carrying it out. -/
def verdict (id : String) (v : V) (opType : OpType) (forced : Option Nat) : Verdict :=
  if (writeRefusal S x.st id opType forced).isSome ||
      (D.documentComplaint x.mapping id v).isSome || x.malformed D id v then .early
  else if x.unmappable K D v then .late
  else .granted

/-- The index with the mapping that the document taught it. -/
def taught (v : V) : Held M :=
  { x with
    hasDocCount := x.hasDocCount || D.hasDocCount v
    mapping := D.applyDynamicTemplates x.mapping v }

/-- **One spec for a write**: refused with nothing done, refused with the mapping taught, or
granted. -/
theorem writeDocUncounted_cases (id : String) (v : V) (opType : OpType) (raw : Option String)
    (forced : Option Nat) :
    match x.verdict S K D id v opType forced with
    | .early => ∃ r, x.writeDocUncounted S K D terms id v opType raw forced = (x, .error r)
    | .late =>
      ∃ r, x.writeDocUncounted S K D terms id v opType raw forced = (x.taught D v, .error r)
    | .granted => ∃ stored mapping answer,
      x.writeDocUncounted S K D terms id v opType raw forced =
        ({ x.taught D v with st := (x.st.writeGranted S terms id stored forced).1, mapping },
          .ok answer) := by
  rw [verdict, writeDocUncounted]
  cases refused : writeRefusal S x.st id opType forced with
  | some r => exact ⟨r, rfl⟩
  | none =>
    cases complaint : D.documentComplaint x.mapping id v with
    | some r => exact ⟨r, rfl⟩
    | none =>
      rw [malformed]
      cases scanned : D.scanMalformed x.mapping id v with
      | error r => exact ⟨r, rfl⟩
      | ok ignored =>
        rw [unmappable]
        dsimp only [Option.isSome_none]
        cases strict : (D.claimByTemplates x.mapping v).2 with
        | some field => exact ⟨_, rfl⟩
        | none =>
          cases percolator :
              D.percolatorComplaint (D.applyDynamicTemplates x.mapping v) v with
          | some r => exact ⟨_, rfl⟩
          | none =>
            dsimp only [Option.isSome_none]
            simp only [Bool.false_or, Bool.false_eq_true, if_false]
            cases decide (K.totalFieldsLimit ≤ D.fieldCount (D.applyDynamicTemplates x.mapping v)) &&
                D.teachesAnything (D.applyDynamicTemplates x.mapping v) v with
            | true => exact ⟨_, rfl⟩
            | false => exact ⟨_, _, _, rfl⟩

end Held

end Velosearch.Api

namespace Velosearch.Index

open Velosearch.Cluster (BTreeMap)

/-! ## What a granted write moves -/

theorem succ64_ne (n : Nat) : succ64 n ≠ n := by
  rw [succ64]
  omega

namespace IdxState

variable (S : Settings) (terms : BTreeMap Nat Nat) (st : IdxState) (id : String)

theorem notePending_seqNo (source : Option String) :
    (st.notePending id source).seqNo = st.seqNo := by
  rcases notePending_cases st id source with e | e
  · rw [e]
    rfl
  · rw [e, flushed, commit_applyOps]
    rfl

theorem queueOpFor_seqNo (shard : Nat) (op : PendingOp) :
    (st.queueOpFor id shard op).seqNo = st.seqNo := by
  rw [queueOpFor_requeues st id shard op]

theorem logWrite_seqNo (r : LogRecord) : (st.logWrite r).seqNo = st.seqNo := by
  rw [logWrite_eq]

theorem numbered_seqNo (forced : Option Nat) (existed : Bool) :
    (st.numbered S id forced existed).1.seqNo = succ64 st.seqNo := by
  cases forced <;> rfl

theorem writeGranted_seqNo (raw : String) (forced : Option Nat) :
    (st.writeGranted S terms id raw forced).1.seqNo = succ64 st.seqNo := by
  rw [writeGranted]
  dsimp only [notePendingSeq]
  rw [notePending_seqNo, logWrite_seqNo]
  dsimp only [setTerm]
  rw [queueOpFor_seqNo]
  split
  · rw [queueOpFor_seqNo, numbered_seqNo]
  · rw [numbered_seqNo]

theorem deleteDoc_seqNo (open_ : st.changeRefusal = none) :
    (st.deleteDoc S terms id).1.seqNo = succ64 st.seqNo := by
  rw [deleteDoc, open_]
  dsimp only
  split
  · dsimp only [notePendingSeq]
    rw [notePending_seqNo, logWrite_seqNo]
    dsimp only [setTerm]
    rw [queueOpFor_seqNo]
    rfl
  · rfl

theorem deleteDoc_routing : (st.deleteDoc S terms id).1.routing = st.routing := by
  rw [deleteDoc]
  split
  · rfl
  · dsimp only
    split
    · dsimp only [notePendingSeq]
      rw [(notePending_frame _ _ _).2, logWrite_eq]
      dsimp only [setTerm]
      rw [queueOpFor_requeues]
      rfl
    · rfl

theorem refreshShard_routing (shard : Nat) : (st.refreshShard S shard).routing = st.routing := by
  unfold refreshShard
  dsimp only
  rw [commit_applyOps]

theorem deleteExternal_seqNo (v : Nat) :
    (st.deleteExternal S terms id v {}).1.seqNo = succ64 st.seqNo := by
  rw [deleteExternal]
  dsimp only [maybeRefresh, setRouting]
  split
  · contradiction
  · dsimp only
    split
    · rw [notePending_seqNo, logWrite_seqNo]
      dsimp only [setTerm]
      rw [queueOpFor_seqNo]
      rfl
    · rfl

/-! ## What a refresh moves -/

/-- The documents a reader shows once what the writer holds is committed. -/
def shown (writer : Bool) : List Doc :=
  if writer then st.written else st.realtime

/-- A reader over `docs` says of the document's life what the index says of it. -/
def Tells (docs : List Doc) : Prop :=
  st.pending[id]? = none → st.versions[id]? = none →
    (st.idsLoaded = true → st.liveIds.contains (S.idFingerprint id) = true) →
    docs.any (·.id == id) = st.realtime.any (·.id == id)

/-- There is nothing for a refresh of the index to do: nothing is queued, kept for realtime reads
or recorded, and a commit shows the document as it is. -/
structure Rests : Prop where
  queued : st.deferred = []
  waiting : st.pending = ∅
  logged : st.translog = []
  live : st.Tells S id (st.shown st.writer)
  seq : ((st.shown st.writer).find? (·.id == id)).map Doc.seq = st.readSeq id

/-- There is nothing for a refresh of a shard to do: nothing of it is queued or kept for realtime
reads, no record is spent, and a commit shows the document as it is. -/
structure RestsAt (shard : Nat) : Prop where
  queued : ∀ e ∈ st.deferred, e.1 ≠ shard
  waiting : ∀ i ∈ st.pending, st.shardOfDoc S i ≠ shard
  logged : st.deferred = [] → st.translog = []
  live : st.Tells S id (st.shown (st.writer || !st.deferred.isEmpty))
  seq : st.pendingSeq[id]? = none →
    ((st.shown (st.writer || !st.deferred.isEmpty)).find? (·.id == id)).map Doc.seq =
      (st.realtime.find? (·.id == id)).map Doc.seq

theorem isLive_shown (docs : List Doc) :
    ({ st with realtime := docs } : IdxState).isLive S id = st.isLive S id ↔
      st.Tells S id docs := by
  unfold Tells isLive lookupId
  dsimp only
  cases st.pending[id]? with
  | some source => cases source <;> simp
  | none =>
    cases st.versions[id]? with
    | some m => simp
    | none =>
      cases st.idsLoaded with
      | false => simp
      | true => cases st.liveIds.contains (S.idFingerprint id) <;> simp

theorem applyOps_shown (only : Option Nat)
    (kept : ∀ e ∈ st.deferred, only.all (· == e.1) = false) :
    (st.applyOps only).commit.realtime = st.shown (st.writer || !st.deferred.isEmpty) ∧
      (st.applyOps only).deferred = st.deferred := by
  unfold applyOps
  split
  case isTrue empty =>
    rw [empty]
    refine ⟨?_, rfl⟩
    unfold commit shown
    cases st.writer <;> rfl
  case isFalse busy =>
    have stays : (st.deferred.filter fun e => !only.all (· == e.1)) = st.deferred :=
      List.filter_eq_self.mpr fun e he => by rw [kept e he]; rfl
    have none : (st.deferred.filter fun e => only.all (· == e.1)) = [] :=
      List.filter_eq_nil_iff.mpr fun e he => by rw [kept e he]; exact Bool.false_ne_true
    refine ⟨?_, stays⟩
    have busy : st.deferred.isEmpty = false := by simpa using busy
    unfold commit shown
    rw [busy]
    simp [none]

/-- What `refresh` leaves besides the queue and the writer. -/
theorem refresh_fields : st.refresh.deferred = [] ∧ st.refresh.pending = ∅ ∧
    st.refresh.translog = [] := by
  refine ⟨?_, rfl, rfl⟩
  show (st.applyOps none).commit.deferred = []
  have kept : (st.applyOps none).commit.deferred = (st.applyOps none).deferred := by
    unfold commit
    split <;> rfl
  rw [kept]
  unfold applyOps
  split
  case isTrue empty => simpa using empty
  case isFalse => simp

/-- A document lives by what is pending, versioned and loaded, and by nothing else. -/
theorem isLive_congr {s t : IdxState} (pending : s.pending[id]? = t.pending[id]?)
    (versions : s.versions = t.versions) (liveIds : s.liveIds = t.liveIds)
    (idsLoaded : s.idsLoaded = t.idsLoaded) :
    s.isLive S id = ({ t with realtime := s.realtime } : IdxState).isLive S id := by
  unfold isLive lookupId
  rw [pending, versions, liveIds, idsLoaded]

theorem commit_applyOps_frame (only : Option Nat) :
    (st.applyOps only).commit.pending = st.pending ∧
      (st.applyOps only).commit.versions = st.versions ∧
      (st.applyOps only).commit.liveIds = st.liveIds ∧
      (st.applyOps only).commit.idsLoaded = st.idsLoaded ∧
      (st.applyOps only).commit.seqNo = st.seqNo ∧
      (st.applyOps only).commit.routing = st.routing ∧
      (st.applyOps only).commit.translog = st.translog ∧
      (st.applyOps only).commit.pendingSeq = st.pendingSeq ∧
      (st.applyOps only).commit.deferred = (st.applyOps only).deferred := by
  unfold commit applyOps
  split <;> split <;> exact ⟨rfl, rfl, rfl, rfl, rfl, rfl, rfl, rfl, rfl⟩

theorem refresh_setRouting (r : BTreeMap String String) :
    ({ st with routing := r } : IdxState).refresh = { st.refresh with routing := r } := by
  have handed : ({ st with routing := r } : IdxState).applyOps none =
      { st.applyOps none with routing := r } := by
    unfold applyOps
    dsimp only
    split <;> rfl
  have committed : ∀ s : IdxState,
      ({ s with routing := r } : IdxState).commit = { s.commit with routing := r } := by
    intro s
    unfold commit
    dsimp only
    split <;> rfl
  unfold refresh flushed
  rw [handed, committed]

/-- **A refresh of the index does nothing to a document** just where there is nothing to do. -/
theorem refresh_rests_iff :
    (st.refresh.isLive S id = st.isLive S id ∧ st.refresh.readSeq id = st.readSeq id ∧
      st.refresh.deferred = st.deferred ∧ st.refresh.pending = st.pending ∧
      st.refresh.translog = st.translog) ↔ st.Rests S id := by
  obtain ⟨deferred, pending, translog⟩ := st.refresh_fields
  obtain ⟨-, versions, liveIds, idsLoaded, -⟩ := st.commit_applyOps_frame none
  rw [deferred, pending, translog]
  -- what is shown, where nothing was queued
  have docs : st.deferred = [] → st.refresh.realtime = st.shown st.writer := by
    intro empty
    have shown := (st.applyOps_shown none (by simp [empty])).1
    have quiet : (st.writer || !st.deferred.isEmpty) = st.writer := by simp [empty]
    rw [quiet] at shown
    exact shown
  have live : st.deferred = [] → st.pending = ∅ →
      (st.refresh.isLive S id = st.isLive S id ↔ st.Tells S id (st.shown st.writer)) := by
    intro empty nothing
    have same : st.refresh.pending[id]? = st.pending[id]? := by rw [pending, nothing]
    rw [isLive_congr S id same versions liveIds idsLoaded, docs empty]
    exact st.isLive_shown S id _
  have seq : st.deferred = [] → st.refresh.readSeq id =
      ((st.shown st.writer).find? (·.id == id)).map Doc.seq := by
    intro empty
    have none : st.refresh.pendingSeq[id]? = none := by
      show (∅ : BTreeMap String Nat)[id]? = _
      simp
    unfold readSeq
    rw [none, docs empty]
  constructor
  · rintro ⟨hlive, hseq, hdeferred, hpending, htranslog⟩
    have empty := hdeferred.symm
    exact ⟨empty, hpending.symm, htranslog.symm, (live empty hpending.symm).mp hlive,
      (seq empty).symm.trans hseq⟩
  · intro h
    exact ⟨(live h.queued h.waiting).mpr h.live, (seq h.queued).trans h.seq, h.queued.symm,
      h.waiting.symm, h.logged.symm⟩

/-- **A refresh of a shard does nothing to a document** just where there is nothing to do. -/
theorem refreshShard_rests_iff (shard : Nat) :
    ((st.refreshShard S shard).isLive S id = st.isLive S id ∧
      (st.refreshShard S shard).readSeq id = st.readSeq id ∧
      (st.refreshShard S shard).deferred = st.deferred ∧
      (st.refreshShard S shard).pending = st.pending ∧
      (st.refreshShard S shard).translog = st.translog) ↔ st.RestsAt S id shard := by
  obtain ⟨hp, versions, liveIds, idsLoaded, -, hr, hlog, hps, hd⟩ :=
    st.commit_applyOps_frame (some shard)
  have mine : ∀ i, (st.applyOps (some shard)).commit.shardOfDoc S i = st.shardOfDoc S i := by
    intro i
    unfold shardOfDoc
    rw [hr]
  have pending : (st.refreshShard S shard).pending =
      st.pending.filter fun i _ => !(st.shardOfDoc S i == shard) := by
    unfold refreshShard
    simp only [mine, hp]
  have waiting : (st.refreshShard S shard).pending = st.pending ↔
      ∀ i ∈ st.pending, st.shardOfDoc S i ≠ shard := by
    rw [pending, Std.ExtTreeMap.filter_eq_self_iff]
    simp [Std.ExtTreeMap.getKey_eq]
  have queue : (st.refreshShard S shard).deferred = (st.applyOps (some shard)).deferred := hd
  have queued : (st.refreshShard S shard).deferred = st.deferred ↔
      ∀ e ∈ st.deferred, e.1 ≠ shard := by
    rw [queue]
    constructor
    · intro same e he here
      rw [← same] at he
      unfold applyOps at he
      split at he
      case isTrue empty =>
        rw [List.isEmpty_iff.mp empty] at he
        cases he
      case isFalse =>
        have := (List.mem_filter.mp he).2
        simp [here] at this
    · intro free
      refine (st.applyOps_shown (some shard) fun e he => ?_).2
      simpa using fun same => free e he same.symm
  have log : (st.refreshShard S shard).deferred = st.deferred →
      ((st.refreshShard S shard).translog = st.translog ↔ (st.deferred = [] → st.translog = [])) := by
    intro same
    have spent : (st.refreshShard S shard).translog =
        if st.deferred.isEmpty then [] else st.translog := by
      rw [← same]
      unfold refreshShard
      simp only [hlog]
    rw [spent]
    cases hq : st.deferred with
    | nil => simp [eq_comm]
    | cons e l => simp
  have docs : (∀ e ∈ st.deferred, e.1 ≠ shard) →
      (st.refreshShard S shard).realtime = st.shown (st.writer || !st.deferred.isEmpty) := by
    intro free
    refine (st.applyOps_shown (some shard) fun e he => ?_).1
    simpa using fun same => free e he same.symm
  have live : (∀ e ∈ st.deferred, e.1 ≠ shard) → (st.refreshShard S shard).pending = st.pending →
      ((st.refreshShard S shard).isLive S id = st.isLive S id ↔
        st.Tells S id (st.shown (st.writer || !st.deferred.isEmpty))) := by
    intro free same
    rw [isLive_congr (s := st.refreshShard S shard) (t := st) S id (by rw [same]) versions liveIds
      idsLoaded, docs free]
    exact st.isLive_shown S id _
  have seq : (∀ e ∈ st.deferred, e.1 ≠ shard) → (∀ i ∈ st.pending, st.shardOfDoc S i ≠ shard) →
      ((st.refreshShard S shard).readSeq id = st.readSeq id ↔ (st.pendingSeq[id]? = none →
        ((st.shown (st.writer || !st.deferred.isEmpty)).find? (·.id == id)).map Doc.seq =
          (st.realtime.find? (·.id == id)).map Doc.seq)) := by
    intro free other
    have kept : (st.refreshShard S shard).pendingSeq = st.pendingSeq := by
      unfold refreshShard
      simp only [mine, hp, hps]
      rw [Std.ExtTreeMap.filter_eq_self_iff]
      intro i hi
      simp only [Std.ExtTreeMap.getKey_eq, Bool.not_eq_true', Bool.and_eq_false_imp, beq_eq_false_iff_ne]
      exact fun here => other i here
    unfold readSeq
    rw [kept, docs free]
    cases st.pendingSeq[id]? <;> simp
  constructor
  · rintro ⟨hlive, hseq, hdeferred, hpending, htranslog⟩
    have free := queued.mp hdeferred
    have other := waiting.mp hpending
    exact ⟨free, other, (log hdeferred).mp htranslog, (live free hpending).mp hlive,
      (seq free other).mp hseq⟩
  · intro h
    have same := waiting.mpr h.waiting
    have whole := queued.mpr h.queued
    exact ⟨(live h.queued same).mpr h.live, (seq h.queued h.waiting).mpr h.seq, whole, same,
      (log whole).mpr h.logged⟩

end IdxState

end Velosearch.Index

namespace Velosearch.Api

open Velosearch.Cluster (BTreeMap)
open Velosearch.Index

/-! ## The condition -/

namespace Held

variable {V M : Type} [DecidableEq V] (S : Settings) (K : Knobs V) (D : Mapper V M)
  (terms : BTreeMap Nat Nat) (x : Held M)

/-- The same with the write's conditions before it. -/
def checkedVerdict (id : String) (v : V) (opType : OpType) (p : Params) : Verdict :=
  if (x.st.seqCheck S id p).isSome then .early
  else
    match x.st.versionCheck S id p with
    | .error _ => .early
    | .ok forced => x.verdict S K D id v opType forced

/-- A request gets as far as `write_doc_checked`. -/
def reachesWrite (id : String) (v : V) (p : Params) : Bool :=
  D.isObject v && (D.dottedOnlyField v).isNone && (K.streamDocumentRefusal v).isNone &&
    (x.st.routingRefusal S id (p.routing.filter (· != ""))).isNone

/-- The plan of an update, where it gets as far as one. -/
def planned (id : String) (patch : Patch V) (p : Params) : Option (Plan V) :=
  let found := x.existing S D id p
  let held := (x.st.readSeq id).getD 0
  if patch.unknownKey.isSome || (x.st.readRoutingRefusal S id p).isSome ||
      (p.ifSeqNo.filter fun want => found.isSome && held != want).isSome then none
  else (x.updatePlan D id found patch >>= patch.piped).toOption

/-- A bulk write gets as far as recording its routing. -/
def reachesRouting (given : Bool) (id : Option String) (routing : Option String)
    (ifSeqNo : Option Nat) : Bool :=
  (x.st.routingRefusal S (x.named id).2 (routing.filter (· != ""))).isNone &&
    !(given && K.appendOnly) && (x.bulkSeqCheck S (x.named id).2 ifSeqNo).isNone

/-- The routing a bulk write records, where it records any. -/
def rerouting (id : String) (routing : Option String) : Option String :=
  (routing.filter (· != "")).filter fun _ =>
    (x.existing S D id { routing := routing.filter (· != "") }).isSome || !x.st.isLive S id

/-- The plan of an update in a bulk, where it gets as far as one. -/
def bulkPlanned (id : String) (patch : Patch V) (routing : Option String) (ifSeqNo : Option Nat) :
    Option (Plan V) :=
  let found := x.existing S D id { routing := routing.filter (· != "") }
  let held := (x.st.readSeq id).getD 0
  if (ifSeqNo.filter fun want => found.isSome && held != want).isSome then none
  else (x.bulkPlan D id found patch).toOption

/-- A refresh, if there is one, has nothing to do. -/
def Rests (id : String) (refreshing : Bool) : Prop :=
  refreshing = true → x.st.Rests S id

/-- A document is written without harm, with `entry` for its routing: refused, it was routed
so before and a refresh that follows has nothing to do; refused late, the templates claim nothing
of it that is not mapped; granted, its record is on disk. -/
def WritesWell (id : String) (v : V) (opType : OpType) (forced : Option Nat)
    (entry : Option String) (refreshing synced : Bool) : Prop :=
  match x.verdict S K D id v opType forced with
  | .early => entry = x.st.routing[id]? ∧ x.Rests S id refreshing
  | .late => entry = x.st.routing[id]? ∧ D.applyDynamicTemplates x.mapping v = x.mapping ∧
      x.Rests S id refreshing
  | .granted => synced = true

end Held

def Write.Careful {V M : Type} [DecidableEq V] (S : Settings) (K : Knobs V) (D : Mapper V M)
    (x : Held M) (synced : Bool) : Write V → Prop
  | .index id v opType p =>
    let i := (x.named id).2
    x.reachesWrite S K D i v p = true →
      match x.checkedVerdict S K D i v opType p with
      | .early => True
      | .late => D.applyDynamicTemplates x.mapping v = x.mapping
      | .granted => synced = true
  | .update id patch p =>
    match x.planned S D id patch p with
    | some (.write v _) =>
      x.WritesWell S K D id v .index none ((p.routing.filter (· != "")).or x.st.routing[id]?) false
        synced
    | some .delete => x.st.changeRefusal = none → x.st.isLive S id = true → synced = true
    | _ => True
  | .delete id p =>
    x.st.readRoutingRefusal S id p = none → x.st.seqCheck S id p = none →
      match x.st.versionCheck S id p with
      | .error _ => True
      | .ok (some _) => synced = true
      | .ok none => x.st.routingMatches S id p = true →
        if x.st.changeRefusal.isSome then
          x.st.routing[id]? = none ∧ (synced = true → p.refresh = true →
            x.st.RestsAt S id (x.st.shardOfDoc S id))
        else synced = true
  | .bulkIndex given id v _ opType routing ifSeqNo refreshing =>
    let i := (x.named id).2
    let entry := routing.filter (· != "")
    id ≠ some "" →
      if x.reachesRouting S K given id routing ifSeqNo = true then
        if (K.streamDocumentRefusal v).isSome then
          entry = x.st.routing[i]? ∧ x.Rests S i refreshing
        else x.WritesWell S K D i v opType none entry refreshing synced
      else x.Rests S i refreshing
  | .bulkSentOn id v opType routing refreshing =>
    let i := (x.named id).2
    x.WritesWell S K D i v opType none (routing.or x.st.routing[i]?) refreshing synced
  | .bulkUpdate id patch routing ifSeqNo refreshing =>
    let i := (x.named id).2
    let entry := (x.rerouting S D i routing).or x.st.routing[i]?
    let stays := entry = x.st.routing[i]? ∧ x.Rests S i refreshing
    id ≠ some "" →
      if (x.st.readRoutingRefusal S i { routing := routing.filter (· != "") }).isSome then
        x.Rests S i refreshing
      else
        match x.bulkPlanned S D i patch routing ifSeqNo with
        | none => stays
        | some (.write v _) => x.WritesWell S K D i v .index none entry refreshing synced
        | some .delete => if x.st.changeRefusal.isSome then stays else synced = true
        | some _ => synced = false → stays
  | .bulkDelete id routing refreshing =>
    let i := (x.named id).2
    let p : Params := { routing := routing.filter (· != "") }
    id ≠ some "" →
      if (x.st.readRoutingRefusal S i p).isSome then x.Rests S i refreshing
      else if x.st.routingMatches S i p then
        if x.st.changeRefusal.isSome then x.Rests S i refreshing else synced = true
      else synced = false → x.Rests S i refreshing

/-! ## Each route -/

namespace Held

variable {V M : Type} {S : Settings} {K : Knobs V} {D : Mapper V M} {terms : BTreeMap Nat Nat}
  {x y : Held M} {id : String}

/-- Nothing but the routing of one document is different. -/
def Rerouted (x y : Held M) (id : String) (entry : Option String) : Prop :=
  y.st = { x.st with routing := y.st.routing } ∧ y.mapping = x.mapping ∧ y.st.routing[id]? = entry

/-- Recording a routing is a rerouting. -/
theorem rerouted_route (same : x.st = y.st) (mapping : y.mapping = x.mapping) (id : String)
    (entry : Option String) : Rerouted x (y.route id entry) id entry := by
  refine ⟨?_, mapping, ?_⟩
  · rw [same]
    rfl
  · cases entry <;> simp [route, IdxState.setRouting]

theorem Rerouted.route {entry : Option String} (h : Rerouted x y id entry) (entry' : Option String) :
    Rerouted x (y.route id entry') id entry' := by
  obtain ⟨st, mapping, -⟩ := h
  refine ⟨?_, mapping, (rerouted_route (y := y) rfl rfl id entry').2.2⟩
  have others : ∀ r, { y.st with routing := r } = { x.st with routing := r } := fun r => by
    have moved := congrArg (fun st : IdxState => { st with routing := r }) st
    exact moved
  exact others _

theorem rerouted_reroute (same : x.st = y.st) (mapping : y.mapping = x.mapping) (id : String)
    (entry : Option String) : Rerouted x (y.reroute id entry) id (entry.or x.st.routing[id]?) := by
  cases entry with
  | none => exact ⟨by rw [same]; rfl, mapping, by rw [same]; rfl⟩
  | some r => exact rerouted_route same mapping id (some r)

theorem Rerouted.unmoved_iff {entry : Option String} (h : Rerouted x y id entry) {m : M} {c : Bool}
    {a : Nat} :
    Unmoved S id x { y with mapping := m, hasDocCount := c, autoId := a } ↔
      entry = x.st.routing[id]? ∧ m = x.mapping := by
  obtain ⟨st, -, routing⟩ := h
  constructor
  · intro unmoved
    exact ⟨routing.symm.trans unmoved.routing, unmoved.mapping⟩
  · rintro ⟨same, mapped⟩
    have entry : y.st.routing[id]? = x.st.routing[id]? := routing.trans same
    have live := congrArg (IdxState.isLive S · id) st
    have version := congrArg (·.versionOf id) st
    have seq := congrArg (·.readSeq id) st
    have seqNo := congrArg (·.seqNo) st
    have deferred := congrArg (·.deferred) st
    have pending := congrArg (·.pending) st
    have translog := congrArg (·.translog) st
    exact ⟨live, version, seq, seqNo, entry, deferred, pending, translog, mapped⟩

/-- **A refused item and the refresh of its request**: the routing and the mapping are as they
were, and the refresh has nothing to do. -/
theorem Rerouted.unmoved_refreshed {entry : Option String} (h : Rerouted x y id entry) {m : M}
    {c : Bool} {a : Nat} (refreshing : Bool) :
    Unmoved S id x
        (refreshed refreshing { y with mapping := m, hasDocCount := c, autoId := a }) ↔
      entry = x.st.routing[id]? ∧ m = x.mapping ∧ x.Rests S id refreshing := by
  have still := h.unmoved_iff (S := S) (m := m) (c := c) (a := a)
  cases refreshing with
  | false => exact still.trans (by simp [Rests])
  | true =>
    obtain ⟨st, mapping, routing⟩ := h
    -- a refresh does not look at the routing
    have moved := congrArg IdxState.refresh st
    have fields : ∀ {β : Type} (f : IdxState → β),
        (∀ r, f { x.st with routing := r }.refresh = f x.st.refresh) →
        f y.st.refresh = f x.st.refresh := by
      intro β f same
      have eq := congrArg f moved
      exact eq.trans (same _)
    obtain ⟨-, versions, -, -, seqNo, routed, -⟩ := y.st.commit_applyOps_frame none
    have version : y.st.refresh.versionOf id = x.st.versionOf id := by
      have same := congrArg (fun st => IdxState.versionOf st id) st
      unfold IdxState.versionOf at same ⊢
      rw [show y.st.refresh.versions = y.st.versions from versions]
      exact same
    have counted : y.st.refresh.seqNo = x.st.seqNo := by
      have same := congrArg IdxState.seqNo st
      exact seqNo.trans same
    have entry_eq : y.st.refresh.routing[id]? = entry := by
      rw [show y.st.refresh.routing = y.st.routing from routed]
      exact routing
    have live := fields (IdxState.isLive S · id) fun r => by
      rw [IdxState.refresh_setRouting]
      rfl
    have seq := fields (IdxState.readSeq · id) fun r => by
      rw [IdxState.refresh_setRouting]
      rfl
    have rests := x.st.refresh_rests_iff S id
    obtain ⟨deferred, pending, translog⟩ := y.st.refresh_fields
    obtain ⟨deferred', pending', translog'⟩ := x.st.refresh_fields
    unfold Rests
    simp only [forall_const]
    rw [← rests]
    constructor
    · intro u
      refine ⟨entry_eq.symm.trans u.routing, u.mapping, live.symm.trans u.live,
        seq.symm.trans u.seq, ?_, ?_, ?_⟩
      · exact deferred'.trans (deferred.symm.trans u.deferred)
      · exact pending'.trans (pending.symm.trans u.pending)
      · exact translog'.trans (translog.symm.trans u.translog)
    · rintro ⟨same, mapped, hlive, hseq, hdeferred, hpending, htranslog⟩
      exact ⟨live.trans hlive, version, seq.trans hseq, counted, entry_eq.trans same,
        deferred.trans (deferred'.symm.trans hdeferred),
        pending.trans (pending'.symm.trans hpending),
        translog.trans (translog'.symm.trans htranslog), mapped⟩

theorem rerouted_self (x : Held M) (id : String) : Rerouted x x id x.st.routing[id]? :=
  ⟨rfl, rfl, rfl⟩

/-- An item refused with nothing done is harmless where the refresh has nothing to do. -/
theorem harmless_still {a : Nat} {refusal : Refusal} {refreshing synced : Bool} :
    Harmless S id x (recorded ({ x with autoId := a }, .error refusal) refreshing synced) ↔
      x.Rests S id refreshing := by
  have still := (rerouted_self x id).unmoved_refreshed (S := S) (m := x.mapping)
    (c := x.hasDocCount) (a := a) refreshing
  refine Iff.trans ?_ (still.trans (by simp))
  exact ⟨fun h => h refusal rfl, fun h _ _ => h⟩

/-- An item that was answered is harmed by nothing but a record that is lost. -/
theorem harmless_answered {answer : Answer} {refreshing synced : Bool} :
    Harmless S id x (recorded (y, .ok answer) refreshing synced) ↔
      (synced = false → Unmoved S id x (y.refreshed refreshing)) := by
  cases synced with
  | true => exact ⟨fun _ => by rintro ⟨⟩, fun _ refusal h => by cases h⟩
  | false => exact ⟨fun h _ => h translogException rfl, fun h _ _ => h rfl⟩

/-- A write that is answered does no harm by being refused. -/
theorem harmless_ok {answer : Answer} : Harmless S id x (y, .ok answer) :=
  fun _ h => absurd h nofun

theorem harmless_error {refusal : Refusal} :
    Harmless S id x (y, .error refusal) ↔ Unmoved S id x y :=
  ⟨fun h => h refusal rfl, fun h _ _ => h⟩

/-- A write that took a number did something. -/
theorem moved_of_seqNo (h : y.st.seqNo = succ64 x.st.seqNo) : ¬ Unmoved S id x y :=
  fun unmoved => succ64_ne _ (h.symm.trans unmoved.seqNo)

theorem Rerouted.verdict_eq {entry : Option String} (h : Rerouted x y id entry) (v : V)
    (opType : OpType) (forced : Option Nat) :
    y.verdict S K D id v opType forced = x.verdict S K D id v opType forced ∧
      D.applyDynamicTemplates y.mapping v = D.applyDynamicTemplates x.mapping v := by
  obtain ⟨st, mapping, -⟩ := h
  have refusal : writeRefusal S y.st id opType forced = writeRefusal S x.st id opType forced := by
    have moved := congrArg (writeRefusal S · id opType forced) st
    exact moved
  rw [verdict, verdict, malformed, malformed, unmappable, unmappable, refusal, mapping]
  exact ⟨rfl, rfl⟩

/-- **A document written**, after its routing was, and what follows a write: a refused one may be
followed by a refresh, one that is granted is answered if its record is on disk. -/
theorem Rerouted.harmless_write {entry : Option String} (h : Rerouted x y id entry) (v : V)
    (opType : OpType) (raw : Option String) (forced : Option Nat) {refreshing synced : Bool}
    {k : Held M × Except Refusal Answer → Held M × Except Refusal Answer}
    (refused : ∀ z r, ∃ r', k (z, .error r) = (z.refreshed refreshing, .error r'))
    (granted : ∀ z answer, (synced = true → ∃ z' answer', k (z, .ok answer) = (z', .ok answer')) ∧
      (synced = false → ∃ z' r, k (z, .ok answer) = (z', .error r) ∧ z'.st.seqNo = z.st.seqNo)) :
    Harmless S id x (k (y.writeDocUncounted S K D terms id v opType raw forced)) ↔
      x.WritesWell S K D id v opType forced entry refreshing synced := by
  obtain ⟨verdict, taught_eq⟩ := h.verdict_eq (S := S) (K := K) (D := D) v opType forced
  have spec := y.writeDocUncounted_cases S K D terms id v opType raw forced
  rw [WritesWell, ← verdict]
  cases found : y.verdict S K D id v opType forced with
  | early =>
    rw [found] at spec
    obtain ⟨r, eq⟩ := spec
    obtain ⟨r', next_eq⟩ := refused y r
    have same : y.mapping = x.mapping := h.2.1
    rw [eq, next_eq, harmless_error]
    have := h.unmoved_refreshed (S := S) (m := y.mapping) (c := y.hasDocCount) (a := y.autoId)
      refreshing
    rw [this]
    simp [same]
  | late =>
    rw [found] at spec
    obtain ⟨r, eq⟩ := spec
    obtain ⟨r', next_eq⟩ := refused (y.taught D v) r
    rw [eq, next_eq, harmless_error, ← taught_eq]
    exact h.unmoved_refreshed refreshing
  | granted =>
    rw [found] at spec
    obtain ⟨stored, mapping, answer, eq⟩ := spec
    obtain ⟨kept, lost⟩ := granted
      { y.taught D v with st := (y.st.writeGranted S terms id stored forced).1, mapping } answer
    rw [eq]
    cases synced with
    | true =>
      obtain ⟨z', answer', next_eq⟩ := kept rfl
      rw [next_eq]
      exact ⟨fun _ => rfl, fun _ => harmless_ok⟩
    | false =>
      obtain ⟨z', r, next_eq, counted⟩ := lost rfl
      rw [next_eq, harmless_error]
      refine ⟨fun unmoved => absurd unmoved (moved_of_seqNo ?_), by rintro ⟨⟩⟩
      rw [counted]
      show (y.st.writeGranted S terms id stored forced).1.seqNo = _
      rw [IdxState.writeGranted_seqNo]
      have same := congrArg (fun st => succ64 st.seqNo) h.1
      exact same

/-- What follows the write of an update. -/
def settling (S : Settings) (id : String) (p : Params) (synced : Bool) :
    Held M × Except Refusal Answer → Held M × Except Refusal Answer
  | (y, .error refusal) => (y, .error refusal)
  | (y, .ok answer) => y.settle S p (y.st.shardOfDoc S id) synced answer

/-- What follows the write of an `update` item. -/
def explaining : Held M × Except Refusal Answer → Held M × Except Refusal Answer
  | (y, .ok answer) => (y, .ok answer)
  | (y, .error _) => (y, .error (unexplained 500))

theorem settle_granted (S : Settings) (p : Params) (shard : Nat) (z : Held M) (answer : Answer)
    (synced : Bool) :
    (synced = true → ∃ z' answer', z.settle S p shard synced answer = (z', .ok answer')) ∧
      (synced = false → ∃ z' r, z.settle S p shard synced answer = (z', .error r) ∧
        z'.st.seqNo = z.st.seqNo) := by
  cases synced
  · exact ⟨by rintro ⟨⟩, fun _ => ⟨z, _, rfl, rfl⟩⟩
  · exact ⟨fun _ => ⟨_, _, rfl⟩, by rintro ⟨⟩⟩

/-- A write, by the verdict on it. -/
theorem writeDocChecked_cases (terms : BTreeMap Nat Nat) (id : String) (v : V) (opType : OpType)
    (p : Params) :
    match x.checkedVerdict S K D id v opType p with
    | .early => ∃ r, x.writeDocChecked S K D terms id v opType p = (x, .error r)
    | .late => ∃ r, x.writeDocChecked S K D terms id v opType p = (x.taught D v, .error r)
    | .granted => ∃ stored forced mapping answer, x.writeDocChecked S K D terms id v opType p =
        ({ x.taught D v with st := (x.st.writeGranted S terms id stored forced).1, mapping },
          .ok answer) := by
  rw [checkedVerdict, writeDocChecked]
  cases seq : x.st.seqCheck S id p with
  | some r => exact ⟨r, rfl⟩
  | none =>
    cases version : x.st.versionCheck S id p with
    | error r => exact ⟨r, rfl⟩
    | ok forced =>
      have spec := x.writeDocUncounted_cases S K D terms id v opType none forced
      dsimp only [Option.isSome_none]
      rw [if_neg Bool.false_ne_true]
      cases found : x.verdict S K D id v opType forced with
      | early => rwa [found] at spec
      | late => rwa [found] at spec
      | granted =>
        rw [found] at spec
        obtain ⟨stored, mapping, answer, eq⟩ := spec
        exact ⟨stored, forced, mapping, answer, eq⟩

theorem Rerouted.checkedVerdict_eq {entry : Option String} (h : Rerouted x y id entry) (v : V)
    (opType : OpType) (p : Params) :
    y.checkedVerdict S K D id v opType p = x.checkedVerdict S K D id v opType p := by
  have seq : y.st.seqCheck S id p = x.st.seqCheck S id p := by
    have moved := congrArg (IdxState.seqCheck S · id p) h.1
    exact moved
  have version : y.st.versionCheck S id p = x.st.versionCheck S id p := by
    have moved := congrArg (IdxState.versionCheck S · id p) h.1
    exact moved
  rw [checkedVerdict, checkedVerdict, seq, version]
  cases x.st.versionCheck S id p with
  | error r => rfl
  | ok forced =>
    dsimp only
    rw [(h.verdict_eq v opType forced).1]

/-- Naming a document moves the counter of names and nothing else. -/
theorem named_eq (x : Held M) (id : Option String) : ∃ a, (x.named id).1 = { x with autoId := a } := by
  cases id with
  | none => exact ⟨_, rfl⟩
  | some id => exact ⟨x.autoId, rfl⟩

theorem unmoved_autoId {a : Nat} :
    Unmoved S id x { x with autoId := a } :=
  ⟨rfl, rfl, rfl, rfl, rfl, rfl, rfl, rfl, rfl⟩

/-- The route for single writes, refused or not. -/
theorem doIndex_harmless (x : Held M) (id : Option String) (v : V) (opType : OpType) (p : Params)
    (synced : Bool) :
    Harmless S (x.named id).2 x (x.doIndex S K D terms id v opType p synced) ↔
      (x.reachesWrite S K D (x.named id).2 v p = true →
        match x.checkedVerdict S K D (x.named id).2 v opType p with
        | .early => True
        | .late => D.applyDynamicTemplates x.mapping v = x.mapping
        | .granted => synced = true) := by
  have still : ∀ r, Harmless S (x.named id).2 x (x, .error r) :=
    fun r => harmless_error.mpr (unmoved_autoId (a := x.autoId))
  rw [doIndex, reachesWrite]
  cases D.isObject v with
  | false => exact ⟨fun _ => nofun, fun _ => still _⟩
  | true =>
    cases D.dottedOnlyField v with
    | some bad => exact ⟨fun _ => nofun, fun _ => still _⟩
    | none =>
      cases K.streamDocumentRefusal v with
      | some r => exact ⟨fun _ => nofun, fun _ => still _⟩
      | none =>
        obtain ⟨a, named⟩ := x.named_eq id
        generalize hi : (x.named id).2 = i
        have pair : x.named id = ({ x with autoId := a }, i) := by rw [← named, ← hi]
        rw [pair]
        dsimp only
        cases x.st.routingRefusal S i (p.routing.filter (· != "")) with
        | some r => exact ⟨fun _ => nofun, fun _ => harmless_error.mpr unmoved_autoId⟩
        | none =>
          have routed : Rerouted x (route { x with autoId := a } i (p.routing.filter (· != ""))) i
              (p.routing.filter (· != "")) :=
            rerouted_route rfl rfl i _
          have spec := writeDocChecked_cases (S := S) (K := K) (D := D)
            (x := route { x with autoId := a } i (p.routing.filter (· != ""))) terms i v opType p
          -- the routing is put back, so only the mapping can have moved
          have back : ∀ (m : M) (c : Bool), Unmoved S i x
              (route { route { x with autoId := a } i (p.routing.filter (· != "")) with
                mapping := m, hasDocCount := c } i x.st.routing[i]?) ↔ m = x.mapping := by
            intro m c
            have again := (routed.route x.st.routing[i]?).unmoved_iff (S := S) (m := m) (c := c)
              (a := a)
            exact again.trans (and_iff_right rfl)
          simp only [Option.isNone_none, Bool.and_self, forall_const]
          rw [routed.checkedVerdict_eq] at spec
          cases found : x.checkedVerdict S K D i v opType p with
          | early =>
            rw [found] at spec
            obtain ⟨r, eq⟩ := spec
            rw [eq]
            refine ⟨fun _ => trivial, fun _ => harmless_error.mpr ?_⟩
            exact (back x.mapping x.hasDocCount).mpr rfl
          | late =>
            rw [found] at spec
            obtain ⟨r, eq⟩ := spec
            rw [eq]
            exact harmless_error.trans (back _ _)
          | granted =>
            rw [found] at spec
            obtain ⟨stored, forced, mapping, answer, eq⟩ := spec
            rw [eq]
            dsimp only
            cases synced with
            | true => exact ⟨fun _ => rfl, fun _ => harmless_ok⟩
            | false =>
              refine ⟨fun harmless => absurd (harmless_error.mp harmless) (moved_of_seqNo ?_), nofun⟩
              exact IdxState.writeGranted_seqNo S terms _ i stored forced

/-- A deletion is refused for what the index refuses. -/
theorem deleteDoc_refused {why : String × String} (refused : x.st.changeRefusal = some why) :
    x.deleteDoc S terms id =
      (x, .error { status := IdxState.refusalStatus why.1 why.2, kind := why.1, reason := why.2 }) := by
  rw [deleteDoc, IdxState.deleteDoc, refused]

theorem deleteDoc_granted (terms : BTreeMap Nat Nat) (id : String)
    (open_ : x.st.changeRefusal = none) :
    ∃ st answer, x.deleteDoc S terms id = ({ x with st }, .ok answer) ∧
      st.seqNo = succ64 x.st.seqNo ∧
      answer.status = if x.st.isLive S id then 200 else 404 := by
  obtain ⟨answer, eq, status⟩ : ∃ answer, (x.st.deleteDoc S terms id).2.2 = .ok answer ∧
      answer.status = if x.st.isLive S id then 200 else 404 := by
    rw [IdxState.deleteDoc, open_]
    dsimp only
    cases x.st.isLive S id <;> exact ⟨_, rfl, rfl⟩
  refine ⟨_, answer, ?_, IdxState.deleteDoc_seqNo S terms x.st id open_, status⟩
  rw [deleteDoc, eq]

theorem route_none (absent : x.st.routing[id]? = none) : x.route id none = x := by
  have same : x.st.routing.erase id = x.st.routing := by
    apply Std.ExtTreeMap.ext_getElem?
    intro k
    rw [Std.ExtTreeMap.getElem?_erase]
    split
    case isTrue eq =>
      obtain rfl : id = k := by simpa using eq
      exact absent.symm
    case isFalse => rfl
  rw [route, IdxState.setRouting, same]

theorem unmoved_refreshShard {shard : Nat} :
    Unmoved S id x { x with st := x.st.refreshShard S shard } ↔ x.st.RestsAt S id shard := by
  rw [← IdxState.refreshShard_rests_iff]
  obtain ⟨-, versions, -, -, seqNo, -⟩ := x.st.commit_applyOps_frame (some shard)
  constructor
  · exact fun u => ⟨u.live, u.seq, u.deferred, u.pending, u.translog⟩
  · rintro ⟨live, seq, deferred, pending, translog⟩
    refine ⟨live, ?_, seq, seqNo, ?_, deferred, pending, translog, rfl⟩
    · unfold IdxState.versionOf
      rw [show (x.st.refreshShard S shard).versions = x.st.versions from versions]
    · rw [IdxState.refreshShard_routing]

/-- The route for single deletions. -/
theorem deleteDocRoute_harmless (x : Held M) (id : String) (p : Params) (synced : Bool) :
    Harmless S id x (x.deleteDocRoute S terms id p synced) ↔
      (x.st.readRoutingRefusal S id p = none → x.st.seqCheck S id p = none →
        match x.st.versionCheck S id p with
        | .error _ => True
        | .ok (some _) => synced = true
        | .ok none => x.st.routingMatches S id p = true →
          if x.st.changeRefusal.isSome then
            x.st.routing[id]? = none ∧ (synced = true → p.refresh = true →
              x.st.RestsAt S id (x.st.shardOfDoc S id))
          else synced = true) := by
  have still : ∀ r, Harmless S id x (x, .error r) :=
    fun r => harmless_error.mpr (unmoved_autoId (a := x.autoId))
  rw [deleteDocRoute]
  cases x.st.readRoutingRefusal S id p with
  | some r => exact ⟨fun _ => by rintro ⟨⟩, fun _ => still r⟩
  | none =>
    cases x.st.seqCheck S id p with
    | some r => exact ⟨fun _ _ => by rintro ⟨⟩, fun _ => still r⟩
    | none =>
      simp only [forall_const]
      cases x.st.versionCheck S id p with
      | error r => exact ⟨fun _ => trivial, fun _ => still r⟩
      | ok forced =>
        cases forced with
        | some v =>
          have seqNo := IdxState.deleteExternal_seqNo S terms x.st id v
          obtain ⟨st, ops, answer, eq⟩ : ∃ st ops answer,
              x.st.deleteExternal S terms id v {} = (st, ops, .ok answer) := ⟨_, _, _, rfl⟩
          rw [eq] at seqNo
          dsimp only
          rw [eq]
          cases synced with
          | true => exact ⟨fun _ => rfl, fun _ => harmless_ok⟩
          | false =>
            exact ⟨fun harmless => absurd (harmless_error.mp harmless) (moved_of_seqNo seqNo),
              by rintro ⟨⟩⟩
        | none =>
          cases x.st.routingMatches S id p with
          | false => exact ⟨fun _ => by rintro ⟨⟩, fun _ => harmless_ok⟩
          | true =>
            simp only [forall_const, Bool.not_true, Bool.false_eq_true, if_false]
            cases refused : x.st.changeRefusal with
            | none =>
              obtain ⟨st, answer, eq, seqNo, -⟩ :=
                deleteDoc_granted (S := S) terms id refused
              rw [eq]
              cases synced with
              | true => exact ⟨fun _ => rfl, fun _ => harmless_ok⟩
              | false =>
                exact ⟨fun harmless => absurd (harmless_error.mp harmless) (moved_of_seqNo seqNo),
                  (by rintro ⟨⟩)⟩
            | some why =>
              rw [deleteDoc_refused refused]
              dsimp only [Option.isSome_some]
              rw [if_pos rfl]
              have forgotten : Rerouted x (x.route id none) id none := rerouted_route rfl rfl id none
              cases synced with
              | false =>
                refine harmless_error.trans ?_
                simp only [Bool.false_eq_true, false_implies, and_true]
                refine forgotten.unmoved_iff.trans ?_
                exact ⟨fun h => h.1.symm, fun h => ⟨h.symm, rfl⟩⟩
              | true =>
                rw [if_pos rfl]
                refine harmless_error.trans ?_
                simp only [forall_const]
                constructor
                · intro unmoved
                  have routing : none = x.st.routing[id]? := by
                    have entry := unmoved.routing
                    rw [IdxState.maybeRefresh] at entry
                    have gone := forgotten.2.2
                    split at entry
                    · rw [IdxState.refreshShard_routing] at entry
                      exact gone.symm.trans entry
                    · exact gone.symm.trans entry
                  refine ⟨routing.symm, fun refresh => ?_⟩
                  rw [route_none routing.symm, IdxState.maybeRefresh, if_pos refresh] at unmoved
                  exact unmoved_refreshShard.mp unmoved
                · rintro ⟨routing, rests⟩
                  rw [route_none routing, IdxState.maybeRefresh]
                  split
                  case isTrue refresh => exact unmoved_refreshShard.mpr (rests refresh)
                  case isFalse => exact unmoved_autoId (a := x.autoId)

theorem refreshed_seqNo (refreshing : Bool) (z : Held M) :
    (z.refreshed refreshing).st.seqNo = z.st.seqNo := by
  unfold refreshed
  split
  · exact (z.st.commit_applyOps_frame none).2.2.2.2.1
  · rfl

/-- A refused write is answered as it was refused, refreshed or not. -/
theorem recorded_refused (refreshing synced : Bool) (z : Held M) (r : Refusal) :
    ∃ r', recorded (z, .error r) refreshing synced = (z.refreshed refreshing, .error r') :=
  ⟨r, rfl⟩

theorem recorded_granted (refreshing synced : Bool) (z : Held M) (answer : Answer) :
    (synced = true → ∃ z' answer', recorded (z, .ok answer) refreshing synced = (z', .ok answer')) ∧
      (synced = false → ∃ z' r, recorded (z, .ok answer) refreshing synced = (z', .error r) ∧
        z'.st.seqNo = z.st.seqNo) := by
  cases synced
  · exact ⟨by rintro ⟨⟩, fun _ => ⟨_, _, rfl, refreshed_seqNo refreshing z⟩⟩
  · exact ⟨fun _ => ⟨_, _, rfl⟩, by rintro ⟨⟩⟩

/-- An item refused behind its routing. -/
theorem Rerouted.harmless_refused {entry : Option String} (h : Rerouted x y id entry)
    (refusal : Refusal) (refreshing synced : Bool) :
    Harmless S id x (recorded (y, .error refusal) refreshing synced) ↔
      entry = x.st.routing[id]? ∧ x.Rests S id refreshing := by
  have same : y.mapping = x.mapping := h.2.1
  have moved := h.unmoved_refreshed (S := S) (m := y.mapping) (c := y.hasDocCount) (a := y.autoId)
    refreshing
  refine harmless_error.trans (moved.trans ?_)
  simp [same]

/-- A write or a delete that was made, and counted, is harmed where its record is lost. -/
theorem harmless_counted {answer : Answer} {refreshing synced : Bool}
    (counted : y.st.seqNo = succ64 x.st.seqNo) :
    Harmless S id x (recorded (y, .ok answer) refreshing synced) ↔ synced = true := by
  rw [harmless_answered]
  cases synced with
  | true => exact ⟨fun _ => rfl, fun _ => by rintro ⟨⟩⟩
  | false =>
    refine ⟨fun h => absurd (h rfl) (moved_of_seqNo ?_), by rintro ⟨⟩⟩
    rw [refreshed_seqNo, counted]

theorem touches_filled {id : Option String} (filled : id ≠ some "") (refreshing : Bool) :
    Write.touches id refreshing = refreshing := by
  unfold Write.touches
  rw [bne_iff_ne.mpr filled, Bool.and_true]

theorem touches_empty (refreshing : Bool) : Write.touches (some "") refreshing = false := by
  unfold Write.touches
  rw [bne_self_eq_false, Bool.and_false]

/-- A write in a bulk. -/
theorem bulkIndex_harmless (x : Held M) (given : Bool) (id : Option String) (v : V) (raw : String)
    (opType : OpType) (routing : Option String) (ifSeqNo : Option Nat) (refreshing synced : Bool) :
    Harmless S (x.named id).2 x
        (recorded (x.bulkIndex S K D terms given id v raw opType routing ifSeqNo)
          (Write.touches id refreshing) synced) ↔
      (id ≠ some "" →
        if x.reachesRouting S K given id routing ifSeqNo = true then
          if (K.streamDocumentRefusal v).isSome then
            routing.filter (· != "") = x.st.routing[(x.named id).2]? ∧
              x.Rests S (x.named id).2 refreshing
          else x.WritesWell S K D (x.named id).2 v opType none (routing.filter (· != "")) refreshing
            synced
        else x.Rests S (x.named id).2 refreshing) := by
  unfold bulkIndex
  by_cases empty : id = some ""
  · subst empty
    rw [if_pos rfl, touches_empty]
    refine ⟨fun _ filled => absurd rfl filled, fun _ => ?_⟩
    exact (harmless_still (x := x) (a := x.autoId)).mpr (by rintro ⟨⟩)
  · rw [if_neg empty, touches_filled empty, reachesRouting]
    obtain ⟨a, named⟩ := x.named_eq id
    generalize hi : (x.named id).2 = i
    have pair : x.named id = ({ x with autoId := a }, i) := by rw [← named, ← hi]
    rw [pair]
    simp only [ne_eq, empty, not_false_eq_true, forall_const]
    cases x.st.routingRefusal S i (routing.filter (· != "")) with
    | some r => exact harmless_still
    | none =>
      cases appended : given && K.appendOnly with
      | true => exact harmless_still
      | false =>
        have seq : bulkSeqCheck S { x with autoId := a } i ifSeqNo = x.bulkSeqCheck S i ifSeqNo := rfl
        rw [seq, if_neg Bool.false_ne_true]
        cases x.bulkSeqCheck S i ifSeqNo with
        | some r => exact harmless_still
        | none =>
          have routed : Rerouted x (route { x with autoId := a } i (routing.filter (· != ""))) i
              (routing.filter (· != "")) :=
            rerouted_route rfl rfl i _
          simp only [Option.isNone_none, Bool.not_false, Bool.and_self, if_true]
          cases K.streamDocumentRefusal v with
          | some r => exact routed.harmless_refused r refreshing synced
          | none =>
            dsimp only [Option.isSome_none]
            rw [if_neg Bool.false_ne_true]
            cases complaint : D.documentComplaint x.mapping i v with
            | some r =>
              -- the write would have refused it for the same
              have early : x.verdict S K D i v opType none = .early := by
                rw [verdict, complaint]
                simp
              have complaint : D.documentComplaint
                  (route { x with autoId := a } i (routing.filter (· != ""))).mapping i v = some r :=
                complaint
              rw [complaint, WritesWell, early]
              exact routed.harmless_refused r refreshing synced
            | none =>
              have complaint : D.documentComplaint
                  (route { x with autoId := a } i (routing.filter (· != ""))).mapping i v = none :=
                complaint
              rw [complaint]
              exact routed.harmless_write v opType (some raw) none
                (k := fun done => recorded done refreshing synced)
                (recorded_refused refreshing synced) (recorded_granted refreshing synced)

theorem bulkSentOn_harmless (x : Held M) (id : Option String) (v : V) (opType : OpType)
    (routing : Option String) (refreshing synced : Bool) :
    Harmless S (x.named id).2 x
        (recorded (x.bulkSentOn S K D terms id v opType routing) refreshing synced) ↔
      x.WritesWell S K D (x.named id).2 v opType none (routing.or x.st.routing[(x.named id).2]?)
        refreshing synced := by
  obtain ⟨a, named⟩ := x.named_eq id
  generalize hi : (x.named id).2 = i
  have pair : x.named id = ({ x with autoId := a }, i) := by rw [← named, ← hi]
  rw [bulkSentOn, pair]
  dsimp only
  have routed : Rerouted x (reroute { x with autoId := a } i routing) i
      (routing.or x.st.routing[i]?) :=
    rerouted_reroute rfl rfl i routing
  exact routed.harmless_write v opType none none
    (k := fun done => recorded done refreshing synced) (recorded_refused refreshing synced)
    (recorded_granted refreshing synced)

/-- A deletion in a bulk. -/
theorem bulkDelete_harmless (x : Held M) (id : Option String) (routing : Option String)
    (refreshing synced : Bool) :
    Harmless S (x.named id).2 x
        (recorded (x.bulkDelete S terms id routing) (Write.touches id refreshing) synced) ↔
      (id ≠ some "" →
        if (x.st.readRoutingRefusal S (x.named id).2
            { routing := routing.filter (· != "") }).isSome then
          x.Rests S (x.named id).2 refreshing
        else if x.st.routingMatches S (x.named id).2 { routing := routing.filter (· != "") } then
          if x.st.changeRefusal.isSome then x.Rests S (x.named id).2 refreshing else synced = true
        else synced = false → x.Rests S (x.named id).2 refreshing) := by
  rw [bulkDelete]
  by_cases empty : id = some ""
  · subst empty
    rw [if_pos rfl, touches_empty]
    refine ⟨fun _ filled => absurd rfl filled, fun _ => ?_⟩
    exact (harmless_still (x := x) (a := x.autoId)).mpr (by rintro ⟨⟩)
  · rw [if_neg empty, touches_filled empty]
    obtain ⟨a, named⟩ := x.named_eq id
    generalize hi : (x.named id).2 = i
    have pair : x.named id = ({ x with autoId := a }, i) := by rw [← named, ← hi]
    rw [pair]
    simp only [ne_eq, empty, not_false_eq_true, forall_const]
    cases x.st.readRoutingRefusal S i { routing := routing.filter (· != "") } with
    | some r => exact harmless_still
    | none =>
      dsimp only [Option.isSome_none]
      rw [if_neg Bool.false_ne_true]
      cases x.st.routingMatches S i { routing := routing.filter (· != "") } with
      | false =>
        rw [if_neg Bool.false_ne_true]
        have still := (rerouted_self x i).unmoved_refreshed (S := S) (m := x.mapping)
          (c := x.hasDocCount) (a := a) refreshing
        exact harmless_answered.trans (imp_congr_right fun _ => still.trans (by simp))
      | true =>
        simp only [if_true, Bool.not_true, Bool.false_eq_true, if_false]
        cases refused : x.st.changeRefusal with
        | some why =>
          rw [deleteDoc_refused (x := { x with autoId := a }) refused]
          exact harmless_still
        | none =>
          obtain ⟨st, answer, eq, seqNo, -⟩ :=
            deleteDoc_granted (S := S) (x := { x with autoId := a }) terms i refused
          rw [eq]
          exact harmless_counted seqNo

/-- The route for single updates. -/
theorem updateDoc_harmless [DecidableEq V] (x : Held M) (id : String) (patch : Patch V) (p : Params)
    (synced : Bool) :
    Harmless S id x (x.updateDoc S K D terms id patch p synced) ↔
      match x.planned S D id patch p with
      | some (.write v _) =>
        x.WritesWell S K D id v .index none ((p.routing.filter (· != "")).or x.st.routing[id]?)
          false synced
      | some .delete => x.st.changeRefusal = none → x.st.isLive S id = true → synced = true
      | _ => True := by
  have still : ∀ r, Harmless S id x (x, .error r) :=
    fun r => harmless_error.mpr (unmoved_autoId (a := x.autoId))
  rw [updateDoc, planned]
  cases patch.unknownKey with
  | some key => exact ⟨fun _ => trivial, fun _ => still _⟩
  | none =>
    cases x.st.readRoutingRefusal S id p with
    | some r => exact ⟨fun _ => trivial, fun _ => still r⟩
    | none =>
      dsimp only [Option.isSome_none, Bool.false_or]
      cases p.ifSeqNo.filter fun want =>
          (x.existing S D id p).isSome && (x.st.readSeq id).getD 0 != want with
      | some want => exact ⟨fun _ => trivial, fun _ => still _⟩
      | none =>
        dsimp only [Option.isSome_none]
        rw [if_neg (by simp)]
        cases x.updatePlan D id (x.existing S D id p) patch >>= patch.piped with
        | error r => exact ⟨fun _ => trivial, fun _ => still r⟩
        | ok plan =>
          cases plan with
          | noop =>
            refine ⟨fun _ => trivial, fun _ => ?_⟩
            cases synced with
            | true => exact harmless_ok
            | false => exact still _
          | dropped => exact ⟨fun _ => trivial, fun _ => harmless_ok⟩
          | delete =>
            dsimp only [Except.toOption]
            cases refused : x.st.changeRefusal with
            | some why =>
              rw [deleteDoc_refused refused]
              exact ⟨fun _ => by rintro ⟨⟩, fun _ => still _⟩
            | none =>
              obtain ⟨st, answer, eq, seqNo, status⟩ :=
                deleteDoc_granted (S := S) terms id refused
              rw [eq]
              dsimp only
              rw [status]
              cases x.st.isLive S id with
              | false => exact ⟨fun _ _ => by rintro ⟨⟩, fun _ => harmless_ok⟩
              | true =>
                have low : ¬ 400 ≤ if True then 200 else 404 := by decide
                simp only [forall_const]
                rw [if_neg low]
                cases synced with
                | true => exact ⟨fun _ => rfl, fun _ => harmless_ok⟩
                | false =>
                  exact ⟨fun harmless => absurd (harmless_error.mp harmless) (moved_of_seqNo seqNo),
                    (by rintro ⟨⟩)⟩
          | write v created =>
            have routed := rerouted_reroute (x := x) rfl rfl id (p.routing.filter (· != ""))
            exact routed.harmless_write v .index none none (k := settling S id p synced)
              (fun z r => ⟨r, rfl⟩) fun z answer => settle_granted S p _ z answer synced

theorem Rerouted.bulkPlan_eq {entry : Option String} (h : Rerouted x y id entry)
    (found : Option V) (patch : Patch V) :
    y.bulkPlan D id found patch = x.bulkPlan D id found patch := by
  have name : y.st.name = x.st.name := by
    have moved := congrArg IdxState.name h.1
    exact moved
  have version : y.st.versionOf id = x.st.versionOf id := by
    have moved := congrArg (fun st => IdxState.versionOf st id) h.1
    exact moved
  unfold bulkPlan bulkUpsert
  rw [name, version]

/-- An update in a bulk. -/
theorem bulkUpdate_harmless [DecidableEq V] (x : Held M) (id : Option String) (patch : Patch V)
    (routing : Option String) (ifSeqNo : Option Nat) (refreshing synced : Bool) :
    Harmless S (x.named id).2 x
        (recorded (x.bulkUpdate S K D terms id patch routing ifSeqNo)
          (Write.touches id refreshing) synced) ↔
      (Write.bulkUpdate id patch routing ifSeqNo refreshing).Careful S K D x synced := by
  rw [bulkUpdate, Write.Careful]
  by_cases empty : id = some ""
  · subst empty
    rw [if_pos rfl, touches_empty]
    refine ⟨fun _ filled => absurd rfl filled, fun _ => ?_⟩
    exact (harmless_still (x := x) (a := x.autoId)).mpr (by rintro ⟨⟩)
  · rw [if_neg empty, touches_filled empty]
    obtain ⟨a, named⟩ := x.named_eq id
    generalize hi : (x.named id).2 = i
    have pair : x.named id = ({ x with autoId := a }, i) := by rw [← named, ← hi]
    rw [pair]
    simp only [ne_eq, empty, not_false_eq_true, forall_const]
    cases x.st.readRoutingRefusal S i { routing := routing.filter (· != "") } with
    | some r => exact harmless_still
    | none =>
      dsimp only [Option.isSome_none]
      rw [if_neg Bool.false_ne_true]
      -- what the item leaves of the routing, and what it is judged by, which is not that
      have routed : Rerouted x (reroute { x with autoId := a } i (x.rerouting S D i routing)) i
          ((x.rerouting S D i routing).or x.st.routing[i]?) :=
        rerouted_reroute rfl rfl i _
      obtain ⟨y, hy⟩ : ∃ y, y = reroute { x with autoId := a } i (x.rerouting S D i routing) :=
        ⟨_, rfl⟩
      rw [← hy] at routed
      have seq : (y.st.readSeq i).getD 0 = (x.st.readSeq i).getD 0 := by
        have moved := congrArg (fun st => (IdxState.readSeq st i).getD 0) routed.1
        exact moved
      have plan : ∀ found, y.bulkPlan D i found patch = x.bulkPlan D i found patch :=
        fun found => routed.bulkPlan_eq found patch
      have found : existing S D { x with autoId := a } i { routing := routing.filter (· != "") } =
          x.existing S D i { routing := routing.filter (· != "") } := rfl
      rw [rerouting] at hy
      rw [found, ← hy, seq, bulkPlanned]
      cases ifSeqNo.filter fun want =>
          (x.existing S D i { routing := routing.filter (· != "") }).isSome &&
            (x.st.readSeq i).getD 0 != want with
      | some want => exact routed.harmless_refused _ refreshing synced
      | none =>
        dsimp only [Option.isSome_none]
        rw [if_neg Bool.false_ne_true, plan]
        cases x.bulkPlan D i (x.existing S D i { routing := routing.filter (· != "") }) patch with
        | error r => exact routed.harmless_refused r refreshing synced
        | ok plan =>
          have same : y.mapping = x.mapping := routed.2.1
          have idle : ∀ answer, Harmless S i x (recorded (y, .ok answer) refreshing synced) ↔
              (synced = false → (x.rerouting S D i routing).or x.st.routing[i]? = x.st.routing[i]? ∧
                x.Rests S i refreshing) := by
            intro answer
            have moved := routed.unmoved_refreshed (S := S) (m := y.mapping) (c := y.hasDocCount)
              (a := y.autoId) refreshing
            exact harmless_answered.trans (imp_congr_right fun _ => moved.trans (by simp [same]))
          cases plan with
          | noop => exact idle _
          | dropped => exact idle _
          | delete =>
            have refusal : y.st.changeRefusal = x.st.changeRefusal := by
              have moved := congrArg IdxState.changeRefusal routed.1
              exact moved
            dsimp only [Except.toOption]
            cases refused : x.st.changeRefusal with
            | some why =>
              rw [deleteDoc_refused (refusal.trans refused)]
              exact routed.harmless_refused _ refreshing synced
            | none =>
              obtain ⟨st, answer, eq, seqNo, -⟩ :=
                deleteDoc_granted (S := S) terms i (refusal.trans refused)
              have counted : st.seqNo = succ64 x.st.seqNo := by
                rw [seqNo]
                have moved := congrArg (fun st => succ64 (IdxState.seqNo st)) routed.1
                exact moved
              rw [eq]
              exact harmless_counted counted
          | write v created =>
            refine routed.harmless_write v .index none none
              (k := fun done => recorded (explaining done) refreshing synced) ?_ ?_
            · exact fun z r => ⟨unexplained 500, rfl⟩
            · exact recorded_granted refreshing synced

end Held

def plainMapper : Mapper String Unit where
  text := fun v => v
  read := some
  merge := fun _ d => d
  isObject := fun _ => true
  isNull := fun _ => false
  dottedOnlyField := fun _ => none
  hasDocCount := fun _ => false
  documentComplaint := fun _ _ _ => none
  scanMalformed := fun _ _ _ => .ok []
  withIgnored := fun v _ => v
  claimByTemplates := fun _ _ => ([], none)
  insertPath := fun m _ _ => m
  strictMode := fun _ => "strict"
  percolatorComplaint := fun _ _ => none
  fieldCount := fun _ => 0
  teachesAnything := fun _ _ => false
  learnDynamic := fun m _ => m

def oneShard : Settings where
  shardOf := fun _ _ => 0
  idFingerprint := fun _ => 0
  routingRequired := false
  partitionSize := 1

def blockedIndex : Held Unit where
  st := { name := "idx", routing := .ofList [("1", "a")], liveIds := .ofList [0]
          written := [{ id := "1", source := "\x7b\x7d", seq := 0, routing := some "a" }]
          realtime := [{ id := "1", source := "\x7b\x7d", seq := 0, routing := some "a" }]
          seqNo := 1, blocksWrite := true }
  mapping := ()

end Velosearch.Api

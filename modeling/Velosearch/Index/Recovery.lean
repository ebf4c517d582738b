import Velosearch.Index.Made
import Velosearch.Lib.Redo

/-!
# A crash while recovering

`recover` of `src/api/doc/mod.rs` makes the writes of a translog again through the ordinary
write path, which appends each document to the very log it is replayed from, and which
throws that log away when it has grown too large. `open_index` of `src/store/registry.rs`
gives what a restart begins with; `clear_translog`, and `append_doc_meta_log` of
`src/store/writer.rs`, what is on disk at each moment in between.

A commit of the writer is atomic, `_meta.json` and a line of the record of versions are
written whole, and what was appended to the translog may be on disk or not, from the first
record that is not on.

* What a replay makes of a document is given (`Boot`): it is read and written again by
  `serde_json`, and passes through the mapping of that moment, which may refuse it. So are
  the primary terms the restarted node reads.
* A record the crash cut short is dropped by the next recovery (`Translog`). One that was
  cut inside a character leaves a file that cannot be read, and nothing is replayed.
* The table of live ids is filled in behind a restart; until then a document without a
  version of its own is looked up.
-/

set_option autoImplicit false

namespace Velosearch.Index

open Velosearch.Cluster (BTreeMap BTreeSet)

/-- What an index keeps in its directory. -/
structure Disk where
  name : String := ""
  docs : List Doc := []
  versions : BTreeMap String DocMeta := ∅
  terms : BTreeMap String Nat := ∅
  seqNo : Nat := 0
  log : List LogRecord := []
  readable : Bool := true

namespace Disk

/-- `load_routing`: the routing of the documents is in them. -/
def routing (d : Disk) : BTreeMap String String :=
  d.docs.foldl (fun routing doc => doc.routing.elim routing (routing.insert doc.id ·)) ∅

/-- `open_index`, after a restart. -/
def openIndex (d : Disk) : IdxState :=
  { name := d.name, versions := d.versions, terms := d.terms, routing := d.routing
    idsLoaded := false, written := d.docs, realtime := d.docs, seqNo := d.seqNo
    onDisk := true, translog := d.log }

/-- One line of `append_doc_meta_log`, as it is read back. -/
def note (st : IdxState) (d : Disk) (id : String) : Disk :=
  let m := (st.versions[id]?).getD ⟨1, true⟩
  { d with
    versions := if 1 < m.version || !m.live then d.versions.insert id m else d.versions.erase id
    terms := if 1 < st.termOf id then d.terms.insert id (st.termOf id) else d.terms.erase id }

end Disk

/-- What is on disk, with the records this recovery has put there. -/
structure Scene where
  disk : Disk
  fresh : List LogRecord := []

namespace Scene

/-- The scenes of a save, one for each file. -/
def notes (st : IdxState) (s : Scene) : List String → List Scene
  | [] => []
  | id :: ids =>
    let s := { s with disk := s.disk.note st id }
    s :: s.notes st ids

/-- The queued documents are committed. -/
def committed (st : IdxState) (s : Scene) : Scene :=
  if st.writer then { s with disk := { s.disk with docs := st.written } } else s

/-- `save_meta`, as far as a recovery reads it. -/
def saved (st : IdxState) (s : Scene) : Scene :=
  { s with disk := { s.disk with seqNo := st.seqNo } }

/-- `clear_translog`, once the versions that moved are written down. -/
def cleared (s : Scene) : Scene :=
  { disk := { s.disk with log := [] } }

/-- The scenes of a flush. -/
def spent (st : IdxState) (dirty : BTreeSet String) (s : Scene) : List Scene × Scene :=
  let committed := s.committed st
  let saved := committed.saved st
  let notes := saved.notes st dirty.toList
  (committed :: saved :: notes, (notes.getLast?.getD saved).cleared)

end Scene

/-- What a restart meets: what the mapping keeps of a record's document, and the primary
terms the cluster has. -/
structure Boot where
  keeps : LogRecord → Option String
  terms : BTreeMap Nat Nat := ∅

/-- An index at work, and what a crash would find of it at each moment. -/
structure Work where
  st : IdxState
  dirty : BTreeSet String := ∅
  scene : Scene
  cut : Option (List LogRecord) := none
  past : List (Scene × Option (List LogRecord))

namespace IdxState

variable (S : Settings) (terms : BTreeMap Nat Nat) (st : IdxState)

/-- A record is in the log. -/
def recorded (r : LogRecord) : IdxState :=
  { st with
    translog := st.translog ++ [r]
    translogBytes := st.translogBytes + (String.ofList r.line).utf8ByteSize }

/-- It is one too many for the log. -/
def fillsLog (r : LogRecord) : Bool :=
  translogFlushBytes < (st.recorded r).translogBytes && (st.applyOps none).writer

/-- The document is one too many for those that wait. -/
def fillsPending (id : String) (source : Option String) : Bool :=
  pendingBudgetBytes < (st.noted id source).pendingBytes && (st.applyOps none).writer

/-- A write that is replayed. -/
def replayedWrite (r : LogRecord) (raw : String) : IdxState :=
  let existed := st.isLive S r.id
  let shard := st.shardOfDoc S r.id
  let (st, _, seq) := st.bumpToSeq S r.id true r.version (some r.seq)
  let doc : Doc := { id := r.id, source := raw, seq, routing := st.routing[r.id]? }
  (st.requeue r.id shard existed (some doc)).setTerm r.id (primaryTerm terms shard)

/-- The record it leaves. -/
def replayedRecord (r : LogRecord) (raw : String) : LogRecord :=
  { id := r.id, routing := st.routing[r.id]?, version := r.version, seq := r.seq
    term := primaryTerm terms (st.shardOfDoc S r.id), source := some raw }

/-- A deletion that is replayed. -/
def replayedDelete (r : LogRecord) : IdxState :=
  let (st, _, _) := st.bumpToSeq S r.id false r.version (some r.seq)
  st.queueOpFor r.id (st.shardOfDoc S r.id) (.delete r.id)

end IdxState

namespace Work

variable (S : Settings) (boot : Boot) (x : Work)

/-- Everything is committed and the log thrown away, with `left` still to be replayed. -/
def spend (st : IdxState) (left : List LogRecord) : Work :=
  let (scenes, cleared) := x.scene.spent st x.dirty
  { st, scene := cleared, cut := some left
    past := x.past ++ scenes.map (·, x.cut) ++ [(cleared, some left)] }

/-- A record is written, and the log flushed where it is full. -/
def logWrite (r : LogRecord) (left : List LogRecord) : Work :=
  let scene := { x.scene with fresh := x.scene.fresh ++ [r] }
  let x' := { x with scene, past := x.past ++ [(scene, x.cut)] }
  let st := x.st.logWrite r
  if x.st.fillsLog r then x'.spend st left else { x' with st }

/-- A document waits, and all are flushed where it is too many. -/
def notePending (id : String) (source : Option String) (left : List LogRecord) : Work :=
  let st := x.st.notePending id source
  if x.st.fillsPending id source then x.spend st left else { x with st }

/-- `write_doc_replayed`, of a document the mapping keeps as `raw`. -/
def writeDocReplayed (r : LogRecord) (raw : String) (left : List LogRecord) : Work :=
  let record := x.st.replayedRecord S boot.terms r raw
  let x := { x with st := x.st.replayedWrite S boot.terms r raw, dirty := x.dirty.insert r.id }
  let x := (x.logWrite record left).notePending r.id (some raw) left
  { x with st := x.st.notePendingSeq r.id r.seq }

/-- One record replayed, with `left` behind it. -/
def replay (r : LogRecord) (left : List LogRecord) : Work :=
  let st := { x.st with seqNo := max x.st.seqNo r.seq }
  match r.source with
  | some _ =>
    let x := { x with st := st.setRouting r.id r.routing }
    let x :=
      match boot.keeps r with
      | some raw => x.writeDocReplayed S boot r raw left
      | none => x
    -- the term it was written in, not the one the restarted node reads
    { x with st := x.st.setTerm r.id (max 1 r.term), dirty := x.dirty.insert r.id }
  | none =>
    { x with st := st.replayedDelete S r, dirty := x.dirty.insert r.id }.notePending r.id none left

/-- Records one after another. -/
def replayAll : Work → List LogRecord → Work
  | x, [] => x
  | x, r :: left => (x.replay S boot r left).replayAll left

/-- The flush that ends a replay. -/
def refresh : Work :=
  x.spend x.st.refresh []

end Work

namespace Disk

/-- `recover`, of one index. -/
def recover (S : Settings) (boot : Boot) (d : Disk) : Work :=
  let scene : Scene := { disk := d }
  let x : Work := { st := d.openIndex, scene, past := [(scene, none)] }
  if !d.readable || d.log.isEmpty then x else (x.replayAll S boot d.log).refresh

/-- The disk a recovery leaves. -/
def recovered (S : Settings) (boot : Boot) (d : Disk) : Disk :=
  (d.recover S boot).scene.disk

end Disk

/-- A stop: at which scene, how many of the records appended there are kept whole, and
whether one was cut inside a character. -/
structure Stop where
  at_ : Nat
  kept : Nat
  torn : Bool := false

/-- Where a recovery that dies had got to. -/
def Work.stopped (x : Work) (stop : Stop) : Scene × Option (List LogRecord) :=
  (x.past[stop.at_]?).getD (x.scene, x.cut)

/-- The disk it leaves. -/
def Scene.left (s : Scene) (stop : Stop) : Disk :=
  { s.disk with
    log := s.disk.log ++ s.fresh.take stop.kept
    readable := s.disk.readable && !stop.torn }

/-- A recovery that does not complete. -/
structure Crash extends Stop where
  boot : Boot

namespace Disk

variable (S : Settings)

/-- Where a crash stops a recovery. -/
def stopped (d : Disk) (c : Crash) : Scene × Option (List LogRecord) :=
  (d.recover S c.boot).stopped c.toStop

/-- What the next recovery begins with. -/
def crash (d : Disk) (c : Crash) : Disk :=
  (d.stopped S c).1.left c.toStop

end Disk

/-! ## What a log says -/

/-- What a record says of its document. -/
def LogRecord.said (keeps : LogRecord → Option String) (r : LogRecord) : Option (Option Doc) :=
  match r.source with
  | none => some none
  | some _ =>
    (keeps r).map fun raw => some { id := r.id, source := raw, seq := r.seq, routing := r.routing }

/-- What the last record says. -/
def lastSaid (keeps : LogRecord → Option String) (log : List LogRecord) (id : String) :
    Option (Option Doc) :=
  Redo.last LogRecord.id (LogRecord.said keeps) id log

/-- The documents once a record has been applied. -/
def LogRecord.apply (keeps : LogRecord → Option String) (docs : List Doc) (r : LogRecord) :
    List Doc :=
  match r.said keeps with
  | some doc => IdxState.hand docs (.delete r.id) ++ doc.toList
  | none => docs

/-- Once all of them have. -/
def applied (keeps : LogRecord → Option String) (docs : List Doc) (log : List LogRecord) :
    List Doc :=
  log.foldl (LogRecord.apply keeps) docs

section Said

variable {keeps : LogRecord → Option String} {docs : List Doc} {r : LogRecord} {j : String}

theorem LogRecord.said_id {doc : Doc} (h : r.said keeps = some (some doc)) : doc.id = r.id := by
  rw [said] at h
  split at h
  · exact absurd h nofun
  · obtain ⟨raw, -, eq⟩ := Option.map_eq_some_iff.mp h
    obtain rfl := Option.some.inj eq
    rfl

/-- A record is about its document. -/
theorem docsOf_apply (keeps : LogRecord → Option String) (docs : List Doc) (r : LogRecord)
    (j : String) :
    docsOf (r.apply keeps docs) j =
      (if r.id = j then r.said keeps else none).elim (docsOf docs j) Option.toList := by
  rw [LogRecord.apply]
  cases said : r.said keeps with
  | none => simp
  | some doc =>
    have docId : ∀ d ∈ doc, d.id = r.id := by
      rintro d rfl
      exact LogRecord.said_id said
    dsimp only
    rw [docsOf_append]
    by_cases own : r.id = j
    · subst own
      rw [hand_delete, if_pos rfl]
      cases doc with
      | none => rfl
      | some d => simp [docsOf, docId d rfl]
    · have elsewhere : docsOf (IdxState.hand docs (.delete r.id)) j = docsOf docs j :=
        hand_other own
      rw [elsewhere, if_neg own]
      cases doc with
      | none => simp [docsOf]
      | some d => simp [docsOf, docId d rfl, own]

/-- After some records a document is what the last of them says. -/
theorem docsOf_applied (keeps : LogRecord → Option String) (docs : List Doc)
    (log : List LogRecord) (j : String) :
    docsOf (applied keeps docs log) j =
      (lastSaid keeps log j).elim (docsOf docs j) Option.toList := by
  induction log using List.reverseRecOn with
  | nil => rfl
  | append_singleton log r ih =>
    rw [applied, List.foldl_concat, docsOf_apply, lastSaid, Redo.last_concat]
    rw [applied, lastSaid] at ih
    split
    · cases r.said keeps with
      | none => simpa using ih
      | some doc => rfl
    · simpa using ih

/-- **A log applied again**: after a beginning of it was applied, and with records at its
end that it says already, a log leaves every document as it does once. -/
theorem docsOf_applied_again {log done again : List LogRecord} {docs' : List Doc}
    (begun : done <+: log) (committed : ∀ j, docsOf docs' j = docsOf (applied keeps docs done) j)
    (same : ∀ r ∈ again, lastSaid keeps log r.id = r.said keeps) (j : String) :
    docsOf (applied keeps docs' (log ++ again)) j = docsOf (applied keeps docs log) j := by
  rw [docsOf_applied, docsOf_applied, lastSaid, Redo.last_again same]
  cases last : Redo.last LogRecord.id (LogRecord.said keeps) j log with
  | some doc => rw [lastSaid, last]; rfl
  | none =>
    rw [lastSaid, last, Option.elim_none, Option.elim_none, committed, docsOf_applied, lastSaid,
      Redo.last_prefix begun last, Option.elim_none]

end Said

/-! ## Recoveries that are safe -/

namespace Disk

variable (S : Settings) (keeps : LogRecord → Option String)

/-- A document on disk is none that was deleted. -/
def Undead (d : Disk) : Prop :=
  ∀ doc ∈ d.docs, ∀ m, d.versions[doc.id]? = some m → m.live = true

/-- A restart finds a log it can read, versions that hide no document, and keeps of each
record what is kept of it otherwise. -/
structure Sober (boot : Boot) (d : Disk) : Prop where
  readable : d.readable = true
  undead : d.Undead
  keeps : ∀ r ∈ d.log, boot.keeps r = keeps r

/-- A recovery stops where nothing is lost: before the log was thrown away, and with no
record in the log again that a later one of its document in the log unsays; or after the
log was thrown away with nothing left of it to replay. -/
def Harmless (d : Disk) (c : Crash) : Prop :=
  (d.stopped S c).2 = none ∧
      (∀ r ∈ (d.stopped S c).1.fresh.take c.kept, lastSaid keeps d.log r.id = r.said keeps) ∨
    (d.stopped S c).2 = some []

/-- Recoveries that stop, one after the other, each where nothing is lost. -/
def AllHarmless (d : Disk) : List Crash → Prop
  | [] => True
  | c :: crashes => d.Sober keeps c.boot ∧ d.Harmless S keeps c ∧ (d.crash S c).AllHarmless crashes

end Disk

namespace IdxState

variable {S : Settings} {st st' : IdxState} {id j : String}

/-! ## A document that is not live is not there -/

/-- Nothing waits for the document, and it reads as it was written. -/
def Quiet (st : IdxState) (id : String) : Prop :=
  st.Idle id ∧ docsOf st.realtime id = docsOf st.written id

/-- Where the tables say a document is not live, it is not there. -/
structure Covers (st : IdxState) (id : String) : Prop where
  gone : st.pending[id]? = some none → docsOf st.settled id = []
  dead : ∀ m, st.versions[id]? = some m → m.live = false → docsOf st.settled id = []
  shown : st.pending[id]? = none → st.versions[id]? = none → st.Quiet id

theorem Covers.absent (h : st.Covers id) (unloaded : st.idsLoaded = false)
    (dead : st.isLive S id = false) : docsOf st.settled id = [] := by
  rw [IdxState.isLive] at dead
  split at dead
  case h_1 => cases dead
  case h_2 waits => exact h.gone waits
  case h_3 waits =>
    split at dead
    case h_1 m hm => exact h.dead m hm dead
    case h_2 unversioned =>
      obtain ⟨idle, shown⟩ := h.shown waits unversioned
      rw [unloaded, lookupId, any_docsOf, shown] at dead
      rw [docsOf_settled_of_idle idle]
      simpa using dead

/-- What is done for another document leaves this one alone. -/
structure Stays (S : Settings) (j : String) (st st' : IdxState) : Prop where
  leaves : Leaves S j st st'
  loaded : st'.idsLoaded = st.idsLoaded
  rests : st.Pinned → st'.pending[j]? = st.pending[j]? ∧ (st.Quiet j → st'.Quiet j) ∨
    st'.pending[j]? = none ∧ st'.Quiet j

theorem Stays.refl : Stays S j st st :=
  ⟨.refl, rfl, fun _ => .inl ⟨rfl, id⟩⟩

/-- Work for other documents, and more. -/
theorem Stays.trans {st₁ st₂ st₃ : IdxState} (h : Stays S j st₁ st₂) (h' : Stays S j st₂ st₃) :
    Stays S j st₁ st₃ := by
  refine ⟨h.leaves.trans h'.leaves, h'.loaded.trans h.loaded, fun pinned => ?_⟩
  rcases h'.rests (h.leaves.pinned pinned) with ⟨same', quiet'⟩ | shown
  · rcases h.rests pinned with ⟨same, quiet⟩ | ⟨none, quiet⟩
    · exact .inl ⟨same'.trans same, fun q => quiet' (quiet q)⟩
    · exact .inr ⟨same'.trans none, quiet' quiet⟩
  · exact .inr shown

/-- What covers a document still does. -/
theorem Stays.covers (h : Stays S j st st') (pinned : st.Pinned) (covers : st.Covers j) :
    st'.Covers j := by
  have docs := h.leaves.docs pinned
  have rests := h.rests pinned
  refine ⟨fun waits => ?_, fun m hm live => ?_, fun waits unversioned => ?_⟩
  · rw [docs]
    rcases rests with ⟨same, -⟩ | ⟨none, -⟩
    · exact covers.gone (same ▸ waits)
    · rw [none] at waits
      exact absurd waits nofun
  · rw [h.leaves.versions] at hm
    rw [docs]
    exact covers.dead m hm live
  · rw [h.leaves.versions] at unversioned
    rcases rests with ⟨same, quiet⟩ | ⟨-, quiet⟩
    · exact quiet (covers.shown (same ▸ waits) unversioned)
    · exact quiet

theorem setTerm_stays (id : String) (term : Nat) : Stays S j st (st.setTerm id term) :=
  ⟨setTerm_leaves term, rfl, fun _ => .inl ⟨rfl, fun q => q⟩⟩

theorem bumpToSeq_stays (other : id ≠ j) (live : Bool) (version seq : Nat) :
    Stays S j st (st.bumpToSeq S id live version (some seq)).1 :=
  ⟨bumpToSeq_leaves other live version _, rfl, fun _ => .inl ⟨rfl, fun q => q⟩⟩

theorem queueOpFor_stays (shard : Nat) {op : PendingOp} (own : op.id = id) (other : id ≠ j) :
    Stays S j st (st.queueOpFor id shard op) := by
  have requeued := queueOpFor_requeues st id shard op
  refine ⟨queueOpFor_leaves shard own other, by rw [requeued], fun pinned => .inl ⟨?_, ?_⟩⟩
  · rw [requeued]
  · exact queueOpFor_shown pinned shard own other

theorem requeue_stays {doc : Option Doc} (own : ∀ d ∈ doc, d.id = id) (other : id ≠ j)
    (shard : Nat) (existed : Bool) : Stays S j st (st.requeue id shard existed doc) := by
  have first : Stays S j st (if existed then st.queueOpFor id shard (.delete id) else st) := by
    cases existed with
    | false => exact .refl
    | true => exact queueOpFor_stays shard rfl other
  cases doc with
  | none => exact first
  | some doc => exact first.trans (queueOpFor_stays shard (own doc rfl) other)

theorem committed_written (st : IdxState) : (st.applyOps none).commit.written = st.settled := by
  rw [commit_requeued]
  exact applyOps_none_written st

theorem applyOps_writer (st : IdxState) (only : Option Nat) :
    (st.applyOps only).writer = (st.writer || !st.deferred.isEmpty) := by
  rw [applyOps]
  split
  case isTrue empty => simp [empty]
  case isFalse busy => simp [busy]

theorem committed_writer (opened : (st.applyOps none).writer = true) :
    (st.applyOps none).commit.writer = true := by
  rw [commit_requeued]
  exact opened

theorem committed_realtime (opened : (st.applyOps none).writer = true) :
    (st.applyOps none).commit.realtime = st.settled := by
  rw [commit, if_pos opened]
  exact applyOps_none_written st

/-- A log that is full is flushed with everything that waits. -/
theorem logWrite_flushes {r : LogRecord} (onDisk : st.onDisk = true)
    (full : st.fillsLog r = true) :
    ((st.recorded r).applyOps none).writer = true ∧ st.logWrite r =
      { ((st.recorded r).applyOps none).commit with translog := [], translogBytes := 0 } := by
  rw [fillsLog, Bool.and_eq_true, decide_eq_true_eq] at full
  have opened : ((st.recorded r).applyOps none).writer = true := by
    rw [applyOps_writer] at full ⊢
    exact full.2
  have present : ¬((!st.onDisk) = true) := by simp [onDisk]
  refine ⟨opened, ?_⟩
  rw [logWrite, if_neg present]
  exact (if_pos full.1).trans (if_pos opened)

/-- Then everything is written and can be read. -/
theorem logWrite_full {r : LogRecord} (onDisk : st.onDisk = true) (full : st.fillsLog r = true) :
    (st.logWrite r).writer = true ∧ (st.logWrite r).written = st.settled ∧
      (st.logWrite r).realtime = st.settled := by
  obtain ⟨opened, eq⟩ := logWrite_flushes onDisk full
  rw [eq]
  exact ⟨committed_writer opened, committed_written _, committed_realtime opened⟩

/-- One that is not leaves what can be read. -/
theorem logWrite_room {r : LogRecord} (room : st.fillsLog r = false) :
    (st.logWrite r).realtime = st.realtime := by
  rw [logWrite]
  split
  · rfl
  dsimp only
  split
  case isTrue large =>
    have unopened : ((st.recorded r).applyOps none).writer = false := by
      rw [fillsLog, recorded, decide_eq_true large, Bool.true_and, applyOps_writer] at room
      rw [applyOps_writer]
      exact room
    have unopened' : ¬((st.recorded r).applyOps none).writer = true := by simp [unopened]
    have shown : ((st.recorded r).applyOps none).realtime = st.realtime := by
      rw [applyOps_unopened unopened]
      rfl
    exact (congrArg realtime (if_neg unopened')).trans shown
  case isFalse => rfl

/-- The same for what waits. -/
theorem notePending_flushes {source : Option String} (full : st.fillsPending id source = true) :
    ((st.noted id source).applyOps none).writer = true ∧
      st.notePending id source = (st.noted id source).flushed := by
  rw [fillsPending, Bool.and_eq_true, decide_eq_true_eq] at full
  have opened : ((st.noted id source).applyOps none).writer = true := by
    rw [applyOps_writer] at full ⊢
    exact full.2
  refine ⟨opened, ?_⟩
  rw [notePending]
  exact (if_pos full.1).trans (if_pos opened)

theorem notePending_full {source : Option String} (full : st.fillsPending id source = true) :
    (st.notePending id source).writer = true ∧ (st.notePending id source).written = st.settled ∧
      (st.notePending id source).realtime = st.settled := by
  obtain ⟨opened, eq⟩ := notePending_flushes full
  rw [eq]
  exact ⟨committed_writer opened, committed_written _, committed_realtime opened⟩

theorem notePending_room {source : Option String} (room : st.fillsPending id source = false) :
    (st.notePending id source).realtime = st.realtime := by
  rw [notePending]
  dsimp only
  split
  case isTrue large =>
    have unopened : ((st.noted id source).applyOps none).writer = false := by
      rw [fillsPending, noted, decide_eq_true large, Bool.true_and, applyOps_writer] at room
      rw [applyOps_writer]
      exact room
    have unopened' : ¬((st.noted id source).applyOps none).writer = true := by simp [unopened]
    have shown : ((st.noted id source).applyOps none).realtime = st.realtime := by
      rw [applyOps_unopened unopened]
      rfl
    exact (congrArg realtime (if_neg unopened')).trans shown
  case isFalse => rfl

theorem committed_quiet (pinned : st.Pinned) (j : String) : (st.applyOps none).commit.Quiet j := by
  refine ⟨?_, commit_shown pinned none⟩
  rw [Idle, commit_applyOps, applyOps_none_deferred]
  rintro _ ⟨⟩

/-- A record leaves every other document alone. -/
theorem logWrite_stays (r : LogRecord) : Stays S j st (st.logWrite r) := by
  refine ⟨logWrite_leaves r, by rw [logWrite_eq], fun pinned => .inl ⟨by rw [logWrite_eq], ?_⟩⟩
  intro quiet
  rw [logWrite]
  split
  · exact quiet
  dsimp only
  split
  · split
    · have logged : ∀ log bytes,
          ({ st with translog := log, translogBytes := bytes } : IdxState).Pinned :=
        fun _ _ => ⟨pinned.queues, pinned.resting⟩
      exact committed_quiet (logged _ _) j
    case isFalse unopened =>
      rw [applyOps_unopened (by simpa using unopened)]
      exact quiet
  · exact quiet

theorem notePending_loaded (st : IdxState) (id : String) (source : Option String) :
    (st.notePending id source).idsLoaded = st.idsLoaded := by
  rcases notePending_cases st id source with h | h <;> rw [h]
  · rfl
  · rw [flushed, commit_applyOps]
    rfl

/-- So does a document that waits. -/
theorem notePending_stays (other : id ≠ j) (source : Option String) :
    Stays S j st (st.notePending id source) := by
  have same : (st.pending.insert id source)[j]? = st.pending[j]? := by
    simp [Std.ExtTreeMap.getElem?_insert, other]
  refine ⟨notePending_leaves other source, notePending_loaded st id source, fun pinned => ?_⟩
  rcases notePending_cases st id source with h | h <;> rw [h]
  · exact .inl ⟨same, fun q => q⟩
  · have noted : (st.noted id source).Pinned := ⟨pinned.queues, pinned.resting⟩
    exact .inr ⟨by simp [flushed], committed_quiet noted j⟩

/-- The document that was replayed is covered. -/
theorem covers_noted {source : Option String} (pinned : st.Pinned) (covers : ∀ j, st.Covers j)
    (stays : ∀ j, id ≠ j → Stays S j st st') (pinned' : st'.Pinned) {m : DocMeta}
    (version : st'.versions[id]? = some m) (dead : m.live = false → docsOf st'.settled id = [])
    (gone : source = none → docsOf st'.settled id = []) (j : String) :
    (st'.notePending id source).Covers j := by
  by_cases other : id = j
  · subst other
    have docs : docsOf (st'.notePending id source).settled id = docsOf st'.settled id :=
      docsOf_notePending pinned' source id
    have version : (st'.notePending id source).versions[id]? = some m := by
      rw [(notePending_frame st' id source).1, version]
    refine ⟨fun waits => ?_, fun m' hm' live => ?_, fun _ unversioned => ?_⟩
    · rw [docs]
      refine gone ?_
      rcases notePending_cases st' id source with h | h
      · have noted : (st'.notePending id source).pending[id]? = some source := by
          rw [h, noted]
          simp
        exact Option.some.inj (noted.symm.trans waits)
      · have empty : (st'.notePending id source).pending[id]? = none := by
          rw [h, flushed]
          simp
        cases empty.symm.trans waits
    · obtain rfl := Option.some.inj (version.symm.trans hm')
      rw [docs]
      exact dead live
    · cases version.symm.trans unversioned
  · have both := (stays j other).trans (notePending_stays other source)
    exact both.covers pinned (covers j)

end IdxState

/-! ## One recovery -/

/-- A scene of a recovery that keeps its word: while the log stands it is the one that was
found, over a commit of a beginning of it; once it was thrown away with nothing left to
replay, all of it is committed. -/
structure Faithful (keeps : LogRecord → Option String) (d : Disk)
    (p : Scene × Option (List LogRecord)) : Prop where
  standing : p.2 = none → p.1.disk.log = d.log ∧ ∃ done, done <+: d.log ∧
    ∀ j, docsOf p.1.disk.docs j = docsOf (applied keeps d.docs done) j
  spent : p.2 = some [] → p.1.disk.log = [] ∧ p.1.fresh = [] ∧
    ∀ j, docsOf p.1.disk.docs j = docsOf (applied keeps d.docs d.log) j

/-- A scene of a flush is faithful. -/
theorem Faithful.commit {keeps : LogRecord → Option String} {d : Disk}
    {p : Scene × Option (List LogRecord)} (h : Faithful keeps d p) {s : Scene} {done : List LogRecord}
    (log : s.disk.log = p.1.disk.log) (fresh : s.fresh = p.1.fresh)
    (begun : done <+: d.log) (whole : p.2 = some [] → done = d.log)
    (docs : ∀ j, docsOf s.disk.docs j = docsOf (applied keeps d.docs done) j) :
    Faithful keeps d (s, p.2) := by
  refine ⟨fun uncut => ⟨log.trans (h.standing uncut).1, done, begun, docs⟩, fun cut => ?_⟩
  obtain ⟨log', fresh', -⟩ := h.spent cut
  rw [← whole cut]
  exact ⟨log.trans log', fresh.trans fresh', docs⟩

namespace Work

variable {S : Settings} {boot : Boot} {keeps : LogRecord → Option String} {d : Disk}
  {x : Work} {done left : List LogRecord} {r : LogRecord} {j : String}

/-- What is held is what the records done so far say. -/
structure Stands (keeps : LogRecord → Option String) (d : Disk) (done : List LogRecord)
    (st : IdxState) : Prop where
  pinned : st.Pinned
  onDisk : st.onDisk = true
  docs : ∀ j, docsOf st.settled j = docsOf (applied keeps d.docs done) j

/-- Every scene of the work stands. -/
structure Traced (keeps : LogRecord → Option String) (d : Disk) (x : Work) : Prop where
  shown : x.scene.disk.docs = x.st.realtime
  now : Faithful keeps d (x.scene, x.cut)
  past : ∀ p ∈ x.past, Faithful keeps d p

theorem mem_notes {st : IdxState} {s s' : Scene} {ids : List String} (h : s' ∈ s.notes st ids) :
    s'.disk.docs = s.disk.docs ∧ s'.disk.log = s.disk.log ∧ s'.fresh = s.fresh := by
  induction ids generalizing s with
  | nil => exact absurd h List.not_mem_nil
  | cons id ids ih =>
    rcases List.mem_cons.mp h with rfl | h
    · exact ⟨rfl, rfl, rfl⟩
    · have later := ih h
      exact later

theorem getLast_notes (st : IdxState) (s : Scene) (ids : List String) :
    ((s.notes st ids).getLast?.getD s).disk.docs = s.disk.docs := by
  cases last : (s.notes st ids).getLast? with
  | none => rfl
  | some s' => exact (mem_notes (List.mem_of_getLast? last)).1

/-- Every scene of a flush has the documents that were written. -/
theorem spent_scenes {st : IdxState} (dirty : BTreeSet String) {s : Scene}
    (commit : st.writer = true ∨ s.disk.docs = st.written) :
    (∀ s' ∈ (s.spent st dirty).1,
      s'.disk.docs = st.written ∧ s'.disk.log = s.disk.log ∧ s'.fresh = s.fresh) ∧
    (s.spent st dirty).2.disk.docs = st.written := by
  have committed : (s.committed st).disk.docs = st.written ∧
      (s.committed st).disk.log = s.disk.log ∧ (s.committed st).fresh = s.fresh := by
    rw [Scene.committed]
    split
    · exact ⟨rfl, rfl, rfl⟩
    case isFalse unopened => exact ⟨commit.resolve_left unopened, rfl, rfl⟩
  refine ⟨fun s' hs' => ?_, (getLast_notes st ((s.committed st).saved st) _).trans committed.1⟩
  rcases List.mem_cons.mp hs' with rfl | hs'
  · exact committed
  rcases List.mem_cons.mp hs' with rfl | hs'
  · exact committed
  · obtain ⟨docs, log, fresh⟩ := mem_notes hs'
    exact ⟨docs.trans committed.1, log.trans committed.2.1, fresh.trans committed.2.2⟩

/-- **The log is thrown away** only after a commit of all that was replayed. -/
theorem Traced.spend (h : x.Traced keeps d) {st : IdxState} (split : done ++ left = d.log)
    (commit : st.writer = true ∨ x.st.realtime = st.written) (shown : st.realtime = st.written)
    (docs : ∀ j, docsOf st.written j = docsOf (applied keeps d.docs done) j)
    (whole : x.cut = some [] → left = []) : (x.spend st left).Traced keeps d := by
  obtain ⟨scenes, cleared⟩ := spent_scenes x.dirty (commit.imp_right h.shown.trans)
  have begun : done <+: d.log := ⟨left, split⟩
  have all : left = [] → done = d.log := by
    rintro rfl
    rw [← split, List.append_nil]
  have thrown : Faithful keeps d ((x.scene.spent st x.dirty).2, some left) := by
    refine ⟨nofun, fun cut => ⟨rfl, rfl, fun j => ?_⟩⟩
    rw [cleared, docs, all (Option.some.inj cut)]
  refine ⟨cleared.trans shown.symm, thrown, fun p hp => ?_⟩
  have hp : p ∈ x.past ++ (x.scene.spent st x.dirty).1.map (·, x.cut) ++
      [((x.scene.spent st x.dirty).2, some left)] := hp
  rcases List.mem_append.mp hp with hp | hp
  · rcases List.mem_append.mp hp with hp | hp
    · exact h.past p hp
    · obtain ⟨s, hs, rfl⟩ := List.mem_map.mp hp
      obtain ⟨committed, log, fresh⟩ := scenes s hs
      exact h.now.commit log fresh begun (fun cut => all (whole cut)) (committed ▸ docs)
  · rw [List.mem_singleton.mp hp]
    exact thrown

/-- Every scene of a record that is written is faithful. -/
theorem Traced.logWrite (h : x.Traced keeps d) (stands : Stands keeps d done x.st)
    (split : done ++ left = d.log) (uncut : x.cut ≠ some []) (r : LogRecord) :
    (x.logWrite r left).Traced keeps d ∧ (x.logWrite r left).st = x.st.logWrite r ∧
      ((x.logWrite r left).cut = x.cut ∨ (x.logWrite r left).cut = some left) := by
  have appended : Faithful keeps d ({ x.scene with fresh := x.scene.fresh ++ [r] }, x.cut) :=
    ⟨h.now.standing, fun cut => absurd cut uncut⟩
  have past : ∀ p ∈ x.past ++ [({ x.scene with fresh := x.scene.fresh ++ [r] }, x.cut)],
      Faithful keeps d p := by
    intro p hp
    rcases List.mem_append.mp hp with hp | hp
    · exact h.past p hp
    · rw [List.mem_singleton.mp hp]
      exact appended
  have before : Traced keeps d { x with
      scene := { x.scene with fresh := x.scene.fresh ++ [r] }
      past := x.past ++ [({ x.scene with fresh := x.scene.fresh ++ [r] }, x.cut)] } :=
    ⟨h.shown, appended, past⟩
  rw [Work.logWrite]
  cases full : x.st.fillsLog r with
  | true =>
    obtain ⟨opened, written, shown⟩ := IdxState.logWrite_full stands.onDisk full
    generalize x.st.logWrite r = st at opened written shown ⊢
    exact ⟨before.spend split (.inl opened) (shown.trans written.symm)
      (fun j => by rw [written, stands.docs]) (fun cut => absurd cut uncut), rfl, .inr rfl⟩
  | false =>
    have shown := IdxState.logWrite_room full
    exact ⟨⟨h.shown.trans shown.symm, appended, past⟩, rfl, .inl rfl⟩

/-- And of a document that waits. -/
theorem Traced.notePending (h : x.Traced keeps d) (stands : Stands keeps d done x.st)
    (split : done ++ left = d.log) (whole : x.cut = some [] → left = []) (id : String)
    (source : Option String) :
    (x.notePending id source left).Traced keeps d ∧
      (x.notePending id source left).st = x.st.notePending id source ∧
      ((x.notePending id source left).cut = x.cut ∨
        (x.notePending id source left).cut = some left) := by
  rw [Work.notePending]
  cases full : x.st.fillsPending id source with
  | true =>
    obtain ⟨opened, written, shown⟩ := IdxState.notePending_full full
    generalize x.st.notePending id source = st at opened written shown ⊢
    exact ⟨h.spend split (.inl opened) (shown.trans written.symm)
      (fun j => by rw [written, stands.docs]) whole, rfl, .inr rfl⟩
  | false =>
    have shown := IdxState.notePending_room full
    exact ⟨⟨h.shown.trans shown.symm, h.now, h.past⟩, rfl, .inl rfl⟩

/-- A recovery that has come as far as `done`, with `left` to go. -/
structure Follows (keeps : LogRecord → Option String) (d : Disk) (done left : List LogRecord)
    (x : Work) : Prop where
  split : done ++ left = d.log
  stands : Stands keeps d done x.st
  unloaded : x.st.idsLoaded = false
  covers : ∀ j, x.st.Covers j
  traced : x.Traced keeps d
  cut : ∀ l, x.cut = some l → left <:+ l

theorem Follows.cutAfter (h : Follows keeps d done (r :: left) x)
    {cut : Option (List LogRecord)} (same : cut = x.cut ∨ cut = some left) (l : List LogRecord)
    (at_ : cut = some l) : left <:+ l := by
  rcases same with same | here
  · exact (List.suffix_cons r left).trans (h.cut l (same.symm.trans at_))
  · rw [Option.some.inj (here.symm.trans at_)]

/-- One record more. -/
theorem applied_concat (keeps : LogRecord → Option String) (docs : List Doc)
    (done : List LogRecord) (r : LogRecord) (j : String) :
    docsOf (applied keeps docs (done ++ [r])) j =
      (if r.id = j then r.said keeps else none).elim (docsOf (applied keeps docs done) j)
        Option.toList := by
  rw [applied, List.foldl_concat, docsOf_apply]
  rfl

/-- A record that is queued stands. -/
theorem Stands.queued {st st' : IdxState} (h : Stands keeps d done st) {doc : Option Doc}
    (said : r.said keeps = some doc) (pinned : st'.Pinned) (onDisk : st'.onDisk = st.onDisk)
    (stays : ∀ j, r.id ≠ j → IdxState.Stays S j st st')
    (docs : docsOf st'.settled r.id = doc.toList) : Stands keeps d (done ++ [r]) st' := by
  refine ⟨pinned, onDisk.trans h.onDisk, fun j => ?_⟩
  rw [applied_concat]
  split
  case isTrue own => rw [← own, docs, said, Option.elim_some]
  case isFalse other => rw [(stays j other).leaves.docs h.pinned, h.docs, Option.elim_none]

theorem Stands.logWrite {st : IdxState} (h : Stands keeps d done st) (r : LogRecord) :
    Stands keeps d done (st.logWrite r) := by
  have leaves : ∀ j, IdxState.Leaves ⟨fun _ _ => 0, fun _ => 0, false, 0⟩ j st (st.logWrite r) :=
    fun _ => IdxState.logWrite_leaves r
  refine ⟨(leaves "").pinned h.pinned, ?_, fun j => ?_⟩
  · rw [IdxState.logWrite_eq]
    exact h.onDisk
  · rw [(leaves j).docs h.pinned, h.docs]

theorem Stands.notePending {st : IdxState} (h : Stands keeps d done st) (id : String)
    (source : Option String) : Stands keeps d done (st.notePending id source) := by
  refine ⟨IdxState.notePending_pinned h.pinned id source, ?_, fun j => ?_⟩
  · rcases IdxState.notePending_cases st id source with e | e <;> rw [e]
    · exact h.onDisk
    · rw [IdxState.flushed, IdxState.commit_applyOps]
      exact h.onDisk
  · rw [IdxState.docsOf_notePending h.pinned, h.docs]

/-- A write that is replayed, step by step. -/
theorem replayedWrite_eq (st : IdxState) (terms : BTreeMap Nat Nat) (r : LogRecord)
    (raw : String) : st.replayedWrite S terms r raw = { st with
      versions := st.versions.insert r.id ⟨r.version, true⟩
      liveIds := (st.replayedWrite S terms r raw).liveIds
      terms := (st.replayedWrite S terms r raw).terms
      seqNo := (st.replayedWrite S terms r raw).seqNo
      deferred := (st.replayedWrite S terms r raw).deferred
      queuedShard := (st.replayedWrite S terms r raw).queuedShard
      writer := (st.replayedWrite S terms r raw).writer
      written := (st.replayedWrite S terms r raw).written } := by
  have requeues := IdxState.requeue_requeues
    (st.bumpToSeq S r.id true r.version (some r.seq)).1 r.id (st.shardOfDoc S r.id)
    (st.isLive S r.id)
    (some { id := r.id, source := raw, seq := r.seq, routing := st.routing[r.id]? })
  rw [IdxState.Requeues] at requeues
  have eq : st.replayedWrite S terms r raw =
      ((st.bumpToSeq S r.id true r.version (some r.seq)).1.requeue r.id (st.shardOfDoc S r.id)
        (st.isLive S r.id)
        (some { id := r.id, source := raw, seq := r.seq, routing := st.routing[r.id]? })).setTerm
          r.id (primaryTerm terms (st.shardOfDoc S r.id)) := rfl
  rw [eq, requeues]
  rfl

/-- It stands. -/
theorem replayedWrite_stands {st : IdxState} (h : Stands keeps d done st)
    (unloaded : st.idsLoaded = false) (covers : st.Covers r.id) {source raw : String}
    (write : r.source = some source) (kept : keeps r = some raw)
    (routing : st.routing[r.id]? = r.routing) (terms : BTreeMap Nat Nat) :
    Stands keeps d (done ++ [r]) (st.replayedWrite S terms r raw) ∧
      (∀ j, r.id ≠ j → IdxState.Stays S j st (st.replayedWrite S terms r raw)) ∧
      (st.replayedWrite S terms r raw).versions[r.id]? = some ⟨r.version, true⟩ ∧
      (st.replayedWrite S terms r raw).idsLoaded = st.idsLoaded ∧
      (st.replayedWrite S terms r raw).realtime = st.realtime := by
  have bumped : (st.bumpToSeq S r.id true r.version (some r.seq)).1.Pinned :=
    ⟨h.pinned.queues, h.pinned.resting⟩
  have own : ∀ e ∈ some
      ({ id := r.id, source := raw, seq := r.seq, routing := st.routing[r.id]? } : Doc),
      e.id = r.id := by
    rintro e ⟨⟩
    rfl
  have stays : ∀ j, r.id ≠ j → IdxState.Stays S j st (st.replayedWrite S terms r raw) := fun j other =>
    ((IdxState.bumpToSeq_stays other true r.version r.seq).trans
      (IdxState.requeue_stays own other _ _)).trans (IdxState.setTerm_stays r.id _)
  have said : r.said keeps =
      some (some { id := r.id, source := raw, seq := r.seq, routing := st.routing[r.id]? }) := by
    rw [LogRecord.said, write]
    simp [kept, routing]
  refine ⟨h.queued said ?_ ?_ stays ?_, stays, ?_, ?_, ?_⟩
  · have pinned := IdxState.requeue_pinned bumped own (st.shardOfDoc S r.id) (st.isLive S r.id)
    exact ⟨pinned.queues, pinned.resting⟩
  · rw [replayedWrite_eq]
  · exact IdxState.docsOf_requeue bumped own _ fun dead => covers.absent unloaded dead
  · rw [replayedWrite_eq]
    simp
  · rw [replayedWrite_eq]
  · rw [replayedWrite_eq]

theorem Traced.recorded (h : x.Traced keeps d) (stands : Stands keeps d done x.st)
    (split : done ++ left = d.log) (uncut : x.cut ≠ some []) (r : LogRecord) (id : String)
    (source : Option String) :
    let y := (x.logWrite r left).notePending id source left
    y.Traced keeps d ∧ Stands keeps d done y.st ∧
      y.st = (x.st.logWrite r).notePending id source ∧ (y.cut = x.cut ∨ y.cut = some left) := by
  obtain ⟨logged, logSt, logCut⟩ := h.logWrite stands split uncut r
  generalize x.logWrite r left = y at logged logSt logCut
  have whole : y.cut = some [] → left = [] := by
    intro cut
    rcases logCut with same | here
    · exact absurd (same.symm.trans cut) uncut
    · exact Option.some.inj (here.symm.trans cut)
  have stands : Stands keeps d done y.st := by
    rw [logSt]
    exact stands.logWrite r
  obtain ⟨noted, noteSt, noteCut⟩ := logged.notePending stands split whole id source
  refine ⟨noted, ?_, by rw [noteSt, logSt], ?_⟩
  · rw [noteSt]
    exact stands.notePending id source
  · rcases noteCut with same | here
    · rw [same]
      exact logCut
    · exact .inr here

/-- The replay of a write. -/
theorem Follows.writeDocReplayed (h : Follows keeps d done (r :: left) x) {source raw : String}
    (write : r.source = some source) (kept : keeps r = some raw)
    (routing : x.st.routing[r.id]? = r.routing) :
    Follows keeps d (done ++ [r]) left (x.writeDocReplayed S boot r raw left) := by
  have split : (done ++ [r]) ++ left = d.log := by
    rw [List.append_assoc]
    exact h.split
  have uncut : x.cut ≠ some [] := fun cut => by simpa using h.cut [] cut
  obtain ⟨stands, stays, version, loaded, shown⟩ := replayedWrite_stands (S := S) h.stands h.unloaded
    (h.covers r.id) write kept routing boot.terms
  rw [Work.writeDocReplayed]
  generalize x.st.replayedRecord S boot.terms r raw = record
  have queued : Traced keeps d { x with
      st := x.st.replayedWrite S boot.terms r raw, dirty := x.dirty.insert r.id } :=
    ⟨h.traced.shown.trans shown.symm, h.traced.now, h.traced.past⟩
  obtain ⟨traced, stands', st', cut⟩ := queued.recorded stands split uncut record r.id (some raw)
  -- what the state stands for is only in the way
  generalize Work.notePending (Work.logWrite { x with
    st := x.st.replayedWrite S boot.terms r raw, dirty := x.dirty.insert r.id } record left)
      r.id (some raw) left = y at traced stands' st' cut
  generalize x.st.replayedWrite S boot.terms r raw = q at stands stays version loaded st'
  have logged : ∀ j, IdxState.Stays S j q (q.logWrite record) :=
    fun _ => IdxState.logWrite_stays record
  have version : (q.logWrite record).versions[r.id]? = some ⟨r.version, true⟩ := by
    rw [(logged r.id).leaves.versions, version]
  have covers : ∀ j, y.st.Covers j := by
    intro j
    have noted : ((q.logWrite record).notePending r.id (some raw)).Covers j :=
      IdxState.covers_noted h.stands.pinned h.covers
        (fun j other => (stays j other).trans (logged j)) ((logged j).leaves.pinned stands.pinned)
        version (fun dead => absurd dead nofun) (fun gone : some raw = none => absurd gone nofun) j
    rw [st']
    exact noted
  refine ⟨split, ⟨⟨stands'.pinned.queues, stands'.pinned.resting⟩, stands'.onDisk, stands'.docs⟩,
    ?_, fun j => ⟨(covers j).gone, (covers j).dead, (covers j).shown⟩,
    ⟨traced.shown, traced.now, traced.past⟩, ?_⟩
  · have unloaded : y.st.idsLoaded = false := by
      rw [st', IdxState.notePending_loaded, (logged r.id).loaded, loaded, h.unloaded]
    exact unloaded
  · exact h.cutAfter cut

theorem Follows.relabel (h : Follows keeps d done left x) (terms : BTreeMap String Nat)
    (routing : BTreeMap String String) (seqNo : Nat) (dirty : BTreeSet String) :
    Follows keeps d done left { x with st := { x.st with terms, routing, seqNo }, dirty } :=
  ⟨h.split, ⟨⟨h.stands.pinned.queues, h.stands.pinned.resting⟩, h.stands.onDisk, h.stands.docs⟩,
    h.unloaded, fun j => ⟨(h.covers j).gone, (h.covers j).dead, (h.covers j).shown⟩,
    ⟨h.traced.shown, h.traced.now, h.traced.past⟩, h.cut⟩

/-- That of a deletion. -/
theorem Follows.deleteReplayed (h : Follows keeps d done (r :: left) x) (gone : r.source = none)
    (dirty : BTreeSet String) :
    Follows keeps d (done ++ [r]) left
      (Work.notePending { x with st := x.st.replayedDelete S r, dirty } r.id none left) := by
  have split : (done ++ [r]) ++ left = d.log := by
    rw [List.append_assoc]
    exact h.split
  have uncut : x.cut ≠ some [] := fun cut => by simpa using h.cut [] cut
  have bumped : (x.st.bumpToSeq S r.id false r.version (some r.seq)).1.Pinned :=
    ⟨h.stands.pinned.queues, h.stands.pinned.resting⟩
  have own : (PendingOp.delete r.id).id = r.id := rfl
  have stays : ∀ j, r.id ≠ j → IdxState.Stays S j x.st (x.st.replayedDelete S r) := fun j other =>
    (IdxState.bumpToSeq_stays other false r.version r.seq).trans
      (IdxState.queueOpFor_stays _ own other)
  have pinned : (x.st.replayedDelete S r).Pinned := IdxState.queueOpFor_pinned bumped _ own
  have docs : docsOf (x.st.replayedDelete S r).settled r.id = [] := by
    rw [IdxState.replayedDelete, IdxState.docsOf_queueOpFor bumped _ own, hand_delete]
  have requeues : (x.st.bumpToSeq S r.id false r.version (some r.seq)).1.Requeues
      (x.st.replayedDelete S r) := IdxState.queueOpFor_requeues _ _ _ _
  have version : (x.st.replayedDelete S r).versions[r.id]? = some ⟨r.version, false⟩ := by
    rw [requeues]
    simp [IdxState.bumpToSeq]
  have loaded : (x.st.replayedDelete S r).idsLoaded = false := by
    rw [requeues]
    exact h.unloaded
  have stands : Stands keeps d (done ++ [r]) (x.st.replayedDelete S r) := by
    have said : r.said keeps = some none := by rw [LogRecord.said, gone]
    refine h.stands.queued said pinned ?_ stays docs
    rw [requeues]
    rfl
  have shown : (x.st.replayedDelete S r).realtime = x.st.realtime := by
    rw [requeues]
    rfl
  generalize x.st.replayedDelete S r = q at stays pinned docs version loaded stands shown
  have queued : Traced keeps d { x with st := q, dirty } :=
    ⟨h.traced.shown.trans shown.symm, h.traced.now, h.traced.past⟩
  obtain ⟨traced, st', cut⟩ :=
    queued.notePending stands split (fun cut => absurd cut uncut) r.id none
  have stands' := stands.notePending r.id none
  have covers : ∀ j, (q.notePending r.id none).Covers j :=
    IdxState.covers_noted h.stands.pinned h.covers stays pinned version (fun _ => docs)
      (fun _ => docs)
  exact ⟨split, st' ▸ stands', by rw [st', IdxState.notePending_loaded, loaded], st' ▸ covers,
    traced, h.cutAfter cut⟩

/-- That of a record. -/
theorem Follows.replay (h : Follows keeps d done (r :: left) x) (kept : boot.keeps r = keeps r) :
    Follows keeps d (done ++ [r]) left (x.replay S boot r left) := by
  cases write : r.source with
  | none =>
    have renumbered := h.relabel x.st.terms x.st.routing (max x.st.seqNo r.seq) x.dirty
    rw [Work.replay, write]
    exact renumbered.deleteReplayed write _
  | some source =>
    -- the routing and the sequence number are taken back first
    have routed := h.relabel x.st.terms
      ({ x.st with seqNo := max x.st.seqNo r.seq }.setRouting r.id r.routing).routing
      (max x.st.seqNo r.seq) x.dirty
    have routing : ({ x.st with seqNo := max x.st.seqNo r.seq }.setRouting r.id
        r.routing).routing[r.id]? = r.routing := by
      cases hr : r.routing <;> simp [IdxState.setRouting]
    rw [Work.replay, write, kept]
    dsimp only
    cases keep : keeps r with
    | some raw =>
      have written : Follows keeps d (done ++ [r]) left
          (Work.writeDocReplayed S boot _ r raw left) :=
        routed.writeDocReplayed write keep routing
      exact written.relabel _ _ _ _
    | none =>
      have refused : Follows keeps d (done ++ [r]) left _ :=
        ⟨by rw [List.append_assoc]; exact h.split,
          ⟨routed.stands.pinned, routed.stands.onDisk, fun j => ?_⟩, routed.unloaded, routed.covers, routed.traced, routed.cutAfter (.inl rfl)⟩
      · exact refused.relabel _ _ _ _
      · rw [routed.stands.docs, applied_concat, LogRecord.said, write]
        simp [keep]

/-- That of a log, by induction on what is left of it. -/
theorem Follows.replayAll (h : Follows keeps d done left x)
    (kept : ∀ r ∈ left, boot.keeps r = keeps r) :
    Follows keeps d d.log [] (x.replayAll S boot left) := by
  induction left generalizing done x with
  | nil =>
    have whole : done = d.log := by simpa using h.split
    rw [Work.replayAll, ← whole]
    exact whole ▸ h
  | cons r left ih =>
    rw [Work.replayAll]
    exact ih (h.replay (kept r List.mem_cons_self))
      fun r' hr' => kept r' (List.mem_cons_of_mem _ hr')

/-- The flush at its end. -/
theorem Follows.refresh (h : Follows keeps d d.log [] x) :
    x.refresh.Traced keeps d ∧ x.refresh.cut = some [] := by
  have written : x.st.refresh.written = x.st.settled := IdxState.committed_written x.st
  have shown : x.st.refresh.realtime = x.st.settled := by
    refine (IdxState.commit_realtime (IdxState.applyOps_pinned h.stands.pinned none)).trans ?_
    exact IdxState.applyOps_none_written x.st
  refine ⟨h.traced.spend h.split ?_ (shown.trans written.symm)
    (fun j => by rw [written, h.stands.docs]) (fun _ => rfl), rfl⟩
  cases opened : (x.st.applyOps none).writer with
  | true => exact .inl (IdxState.committed_writer opened)
  | false =>
    -- no writer was opened: what is committed is all there is
    have unmoved : x.st.applyOps none = x.st := IdxState.applyOps_unopened opened
    refine .inr ?_
    rw [written, ← IdxState.applyOps_none_written, unmoved]
    exact h.stands.pinned.resting (unmoved ▸ opened)

end Work

/-! ## Recoveries, one after the other -/

namespace Disk

variable {S : Settings} {keeps : LogRecord → Option String} {d : Disk} {boot : Boot} {c : Crash}

theorem openIndex_follows (keeps : LogRecord → Option String) (undead : d.Undead) :
    Work.Follows keeps d [] d.log
      { st := d.openIndex, scene := { disk := d }, past := [({ disk := d }, none)] } := by
  have begun : Faithful keeps d ({ disk := d }, none) :=
    ⟨fun _ => ⟨rfl, [], List.nil_prefix, fun _ => rfl⟩, nofun⟩
  refine ⟨rfl, ⟨⟨nofun, fun _ => rfl⟩, rfl, fun _ => rfl⟩, rfl, fun j => ⟨?_, ?_, ?_⟩,
    ⟨rfl, begun, ?_⟩, nofun⟩
  · simp [openIndex]
  · intro m hm dead
    refine List.filter_eq_nil_iff.mpr fun doc hdoc own => ?_
    obtain rfl : doc.id = j := by simpa using own
    rw [undead doc hdoc m hm] at dead
    exact absurd dead nofun
  · exact fun _ _ => ⟨nofun, rfl⟩
  · intro p hp
    rw [List.mem_singleton.mp hp]
    exact begun

/-- **One recovery**: every scene of it keeps its word, and at its end the log is applied. -/
theorem recover_faithful (sober : d.Sober keeps boot) :
    (∀ p ∈ (d.recover S boot).past, Faithful keeps d p) ∧
      Faithful keeps d ((d.recover S boot).scene, (d.recover S boot).cut) ∧
      ∀ j, docsOf (d.recovered S boot).docs j = docsOf (applied keeps d.docs d.log) j := by
  have start := openIndex_follows keeps sober.undead
  rw [recovered, recover, sober.readable]
  cases empty : d.log.isEmpty with
  | true =>
    refine ⟨start.traced.past, start.traced.now, fun j => ?_⟩
    rw [List.isEmpty_iff.mp empty]
    rfl
  | false =>
    obtain ⟨traced, cut⟩ := (start.replayAll (S := S) sober.keeps).refresh
    exact ⟨traced.past, traced.now, (traced.now.spent cut).2.2⟩

/-- **A recovery that stops** where nothing is lost leaves a log that says the same. -/
theorem crash_says (sober : d.Sober keeps c.boot) (harmless : d.Harmless S keeps c) (j : String) :
    docsOf (applied keeps (d.crash S c).docs (d.crash S c).log) j =
      docsOf (applied keeps d.docs d.log) j := by
  obtain ⟨past, now, -⟩ := recover_faithful (S := S) sober
  have faithful : Faithful keeps d (d.stopped S c) := by
    rw [stopped, Work.stopped]
    cases scene : (d.recover S c.boot).past[c.at_]? with
    | none => exact now
    | some p => exact past p (List.mem_of_getElem? scene)
  rcases harmless with ⟨standing, same⟩ | spent
  · obtain ⟨log, done, begun, docs⟩ := faithful.standing standing
    have eq : (d.crash S c).log = d.log ++ (d.stopped S c).1.fresh.take c.kept := by
      rw [← log]
      rfl
    rw [eq]
    exact docsOf_applied_again begun docs same j
  · obtain ⟨log, fresh, docs⟩ := faithful.spent spent
    have eq : (d.crash S c).log = [] := by
      rw [crash, Scene.left, log, fresh]
      simp
    rw [eq]
    exact docs j

/-- **Recovery survives a crash during recovery**: however often a recovery is stopped, each
time where nothing is lost, the one that completes leaves the documents of the original
records applied once over the committed index. -/
theorem recovered_once (S : Settings) (keeps : LogRecord → Option String) (d : Disk)
    (crashes : List Crash) (boot : Boot) (harmless : d.AllHarmless S keeps crashes)
    (sober : (crashes.foldl (crash S) d).Sober keeps boot) (j : String) :
    docsOf ((crashes.foldl (crash S) d).recovered S boot).docs j =
      docsOf (applied keeps d.docs d.log) j := by
  induction crashes generalizing d with
  | nil => exact (recover_faithful sober).2.2 j
  | cons c crashes ih =>
    obtain ⟨soberNow, harmlessNow, later⟩ := harmless
    rw [List.foldl_cons] at sober ⊢
    rw [ih (d.crash S c) later sober, crash_says soberNow harmlessNow]

def oneShard : Settings where
  shardOf := fun _ _ => 0
  idFingerprint := fun _ => 0
  routingRequired := false
  partitionSize := 1

def plainBoot : Boot where
  keeps := LogRecord.source

def written (version : Nat) : LogRecord :=
  { id := "1", routing := none, version, seq := version - 1, term := 1
    source := some "\x7b\x7d" }

def stoppedAt (scene kept : Nat) : Crash where
  boot := plainBoot
  at_ := scene
  kept

theorem recovered_once_again :
    ((({ log := [written 1] } : Disk).crash oneShard (stoppedAt 1 1)).recovered oneShard
      plainBoot).docs = [{ id := "1", source := "\x7b\x7d", seq := 0, routing := none }] ∧
    docsOf ((({ log := [written 1] } : Disk).crash oneShard (stoppedAt 1 1)).recovered oneShard
      plainBoot).docs "1" = docsOf (applied LogRecord.source [] [written 1]) "1" := by
  have none : (({ log := [written 1] } : Disk).crash oneShard (stoppedAt 1 1)).docs = [] := by
    decide +kernel
  refine ⟨by decide +kernel, recovered_once oneShard LogRecord.source { log := [written 1] }
    [stoppedAt 1 1] plainBoot ⟨⟨rfl, nofun, fun _ _ => rfl⟩, .inl ?_, trivial⟩
    ⟨by decide +kernel, ?_, fun _ _ => rfl⟩ "1"⟩
  · decide +kernel
  · rw [List.foldl_cons, List.foldl_nil, Undead, none]
    exact nofun

/-- A document deleted and written again, whose delete is the last that was written down of
its version: a recovery that stops after its commit, and before that, leaves it in the
index, and the next adds it once more. -/
theorem recovered_twice :
    let d : Disk := { versions := (∅ : BTreeMap String DocMeta).insert "1" ⟨2, false⟩
                      log := [written 3] }
    docsOf ((d.crash oneShard (stoppedAt 2 0)).recovered oneShard plainBoot).docs "1" ≠
      docsOf (applied LogRecord.source d.docs d.log) "1" := by
  decide +kernel

end Disk

end Velosearch.Index

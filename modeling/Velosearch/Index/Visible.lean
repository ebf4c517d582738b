import Velosearch.Index.Queue

/-!
# What a realtime read sees

A write is queued for the writer and kept beside the queue (`pending`), where a realtime
read finds it. The two are kept by different code: the queue is filed under the shard a
document's work is pinned to, what waits is cleared by the shard its routing names now.
A refresh of one shard therefore forgets a document whose routing names that shard while
its work is queued under another: a document written again with another routing, or one
deleted, since a delete forgets the routing and leaves the queue.

The steps of a request are taken here with a writer that may fail (`Fate`); where nothing
fails they are those of `serve`.
-/

set_option autoImplicit false

namespace Velosearch.Index

open Velosearch.Cluster (BTreeMap u64Max)

namespace IdxState

/-! ## The write path, with a writer that may fail -/

variable (S : Settings) (terms : BTreeMap Nat Nat) (st : IdxState)

/-- A record in the translog, if it can be written. -/
def tryLogWrite (f : Fate) (r : LogRecord) : IdxState :=
  if !st.onDisk || !f.records then st
  else
    let st := { st with
      translog := st.translog ++ [r]
      translogBytes := st.translogBytes + (String.ofList r.line).utf8ByteSize }
    if translogFlushBytes < st.translogBytes then
      let (st, applied) := st.tryApplyOps f none
      if applied && st.writer && f.commits then
        { st with
          realtime := if f.reloads then st.written else st.realtime
          translog := [], translogBytes := 0 }
      else st
    else st

/-- A document waits, if the flush it may ask for works. -/
def tryNotePending (f : Fate) (id : String) (source : Option String) : IdxState :=
  let st := st.noted id source
  if pendingBudgetBytes < st.pendingBytes then
    let (st, applied) := st.tryApplyOps f none
    if applied && st.writer && f.commits then
      { st with
        realtime := if f.reloads then st.written else st.realtime
        pending := ∅, pendingSeq := ∅, pendingBytes := 0, translog := [], translogBytes := 0 }
    else st
  else st

/-- `refresh_one_shard`, and whether it went through. -/
def tryRefreshShard (f : Fate) (shard : Nat) : IdxState × Bool :=
  let (st, applied) := st.tryApplyOps f (some shard)
  if !applied || st.writer && !f.commits || !f.reloads then (st, false)
  else
    let st := st.commit
    let mine := fun id => st.shardOfDoc S id == shard
    let pending := st.pending.filter fun id _ => !mine id
    ({ st with
      pending
      pendingSeq := st.pendingSeq.filter fun id _ => !(st.pending.contains id && mine id)
      pendingBytes := pending.foldl (fun sum id source => sum + pendingSize id source) 0
      translog := if st.deferred.isEmpty then [] else st.translog
      translogBytes := if st.deferred.isEmpty then 0 else st.translogBytes }, true)

/-- `refresh_everything`, and whether it went through. -/
def tryRefresh (f : Fate) : IdxState × Bool :=
  let (st, applied) := st.tryApplyOps f none
  if !applied || st.writer && !f.commits || !f.reloads then (st, false)
  else
    ({ st.commit with
      pending := ∅, pendingSeq := ∅, pendingBytes := 0, translog := [], translogBytes := 0 }, true)

/-- An operation in place of those that wait, likewise. -/
def tryRequeue (fates : Nat → Fate) (id : String) (shard : Nat) (existed : Bool)
    (doc : Option Doc) : IdxState :=
  let st := if existed then st.tryQueueOpFor (fates 0) id shard (.delete id) else st
  match doc with
  | some doc => st.tryQueueOpFor (fates 1) id shard (.add doc)
  | none => st

/-- The write of `writeGranted`. -/
def tryWrite (fates : Nat → Fate) (id raw : String) (forced : Option Nat) : IdxState :=
  let existed := st.isLive S id
  let shard := st.shardOfDoc S id
  let (st, version, seq) := st.numbered S id forced existed
  let routing := st.routing[id]?
  let st := st.tryRequeue fates id shard existed (some { id, source := raw, seq, routing })
  let term := primaryTerm terms shard
  let st := st.setTerm id term
  let st := st.tryLogWrite (fates 2) { id, routing, version, seq, term, source := some raw }
  (st.tryNotePending (fates 3) id (some raw)).notePendingSeq id seq

/-- A deletion's version. -/
def buried (id : String) (forced : Option Nat) (existed : Bool) : IdxState × Nat × Nat :=
  match forced with
  | some v => st.bumpTo S id false v
  | none => st.bump S id false existed

/-- The delete of `deleteDoc`, or the one an external version numbers. -/
def tryDelete (fates : Nat → Fate) (id : String) (forced : Option Nat) : IdxState :=
  let existed := st.isLive S id
  let (st, version, seq) := st.buried S id forced existed
  let shard := st.shardOfDoc S id
  if existed then
    let st := (st.tryRequeue fates id shard true none).setTerm id 1
    let st := st.tryLogWrite (fates 2)
      { id, routing := none, version, seq, term := primaryTerm terms shard, source := none }
    let st := st.tryNotePending (fates 3) id none
    if forced.isNone then st.notePendingSeq id seq else st
  else st

/-- The operation of `take`. -/
def tryTake (fates : Nat → Fate) (op : ReplicaOp) : IdxState :=
  let existed := st.isLive S op.id
  let st := st.prepared S op
  let st := st.tryRequeue fates op.id (st.shardOfDoc S op.id) existed op.doc
  let st := st.tryLogWrite (fates 2) op.record
  (st.tryNotePending (fates 3) op.id op.source).notePendingSeq op.id op.seq

end IdxState

/-! ## Runs -/

/-- What happens to an index, a request being one or more of these. -/
inductive Act where
  | route (id : String) (routing : Option String)
  | write (id raw : String) (forced : Option Nat) (fates : Nat → Fate)
  | delete (id : String) (forced : Option Nat) (fates : Nat → Fate)
  | take (op : ReplicaOp) (term : Nat) (fates : Nat → Fate)
  | refreshShard (shard : Nat) (f : Fate)
  | refresh (f : Fate)
  | release (f : Fate)

/-- The index, with what was last asked for of each document. -/
structure Seen where
  st : IdxState
  last : BTreeMap String (Option String) := ∅

namespace Seen

/-- One act. -/
def step (S : Settings) (terms : BTreeMap Nat Nat) (x : Seen) : Act → Seen
  | .route id routing => { x with st := x.st.setRouting id routing }
  | .write id raw forced fates =>
    { st := x.st.tryWrite S terms fates id raw forced, last := x.last.insert id (some raw) }
  | .delete id forced fates =>
    { st := x.st.tryDelete S terms fates id forced
      last := if x.st.isLive S id then x.last.insert id none else x.last }
  | .take op term fates =>
    { st := { x.st with appliedTerm := term }.tryTake S fates op
      last := x.last.insert op.id op.source }
  | .refreshShard shard f => { x with st := (x.st.tryRefreshShard S f shard).1 }
  | .refresh f => { x with st := (x.st.tryRefresh f).1 }
  | .release f => { x with st := x.st.tryRelease f }

/-- Several. -/
def run (S : Settings) (terms : BTreeMap Nat Nat) (x : Seen) (acts : List Act) : Seen :=
  acts.foldl (step S terms) x

/-- A refresh of one shard that goes through finds in its queue all that is queued of the
documents whose routing names the shard. -/
def Gathers (S : Settings) (st : IdxState) : Act → Prop
  | .refreshShard shard f =>
    st.Takes f (some shard) → f.commits = true → f.reloads = true →
      ∀ e ∈ st.deferred, st.shardOfDoc S e.2.id = shard → e.1 = shard
  | _ => True

/-- Every refresh of one shard along a run does. -/
def AllGather (S : Settings) (terms : BTreeMap Nat Nat) (x : Seen) : List Act → Prop
  | [] => True
  | a :: acts => Gathers S x.st a ∧ (x.step S terms a).AllGather S terms acts

/-- What is queued is held, and what is held of a document is what was last asked for. -/
structure Shows (x : Seen) : Prop where
  waiting : ∀ e ∈ x.st.deferred, x.st.pending.contains e.2.id = true
  latest : ∀ (id : String) (source : Option String),
    x.st.pending[id]? = some source → x.last[id]? = some source

end Seen

namespace IdxState

variable {S : Settings} {terms : BTreeMap Nat Nat} {st : IdxState} {id : String} {f : Fate}

/-! ## What is queued waits -/

/-- Everything queued is held, but for one document. -/
def WaitsBut (st : IdxState) (id : String) : Prop :=
  ∀ e ∈ st.deferred, e.2.id = id ∨ st.pending.contains e.2.id = true

theorem tryApplyOps_pending (only : Option Nat) :
    (st.tryApplyOps f only).1.pending = st.pending := by
  by_cases busy : st.deferred = []
  · rw [tryApplyOps_empty busy]
  cases reached : st.reachable f with
  | true => rw [tryApplyOps_reached busy reached]
  | false => rw [tryApplyOps_unreached busy reached]

theorem tryApplyOps_routing (only : Option Nat) :
    (st.tryApplyOps f only).1.routing = st.routing := by
  by_cases busy : st.deferred = []
  · rw [tryApplyOps_empty busy]
  cases reached : st.reachable f with
  | true => rw [tryApplyOps_reached busy reached]
  | false => rw [tryApplyOps_unreached busy reached]

theorem tryApplyOps_none_deferred (ok : (st.tryApplyOps f none).2 = true) :
    (st.tryApplyOps f none).1.deferred = [] := by
  rw [tryApplyOps_takes (tryApplyOps_ok_iff.mp ok)]
  exact applyOps_none_deferred

/-- A flush, whatever becomes of it, keeps what is queued held. -/
theorem WaitsBut.applyOps (h : st.WaitsBut id) (only : Option Nat) :
    (st.tryApplyOps f only).1.WaitsBut id := by
  intro e he
  rw [tryApplyOps_pending]
  exact h e (mem_tryApplyOps he)

theorem WaitsBut.queueOpFor (h : st.WaitsBut id) {shard : Nat} {op : PendingOp}
    (own : op.id = id) : (st.tryQueueOpFor f id shard op).WaitsBut id := by
  have queued : (st.pinnedOp shard op).WaitsBut id := by
    intro e he
    rcases List.mem_append.mp he with he | he
    · exact h e he
    · rw [List.mem_singleton.mp he]
      exact .inl own
  subst own
  rw [tryQueueOpFor_eq]
  split
  · exact queued.applyOps none
  · exact queued

theorem tryQueueOpFor_pending {shard : Nat} {op : PendingOp} (own : op.id = id) :
    (st.tryQueueOpFor f id shard op).pending = st.pending := by
  subst own
  rw [tryQueueOpFor_eq]
  split
  · exact tryApplyOps_pending none
  · rfl

/-- So does an operation that takes the place of others. -/
theorem WaitsBut.requeue (h : st.WaitsBut id) (fates : Nat → Fate) (shard : Nat) (existed : Bool)
    (doc : Option Doc) (own : ∀ d ∈ doc, d.id = id) :
    (st.tryRequeue fates id shard existed doc).WaitsBut id ∧
      (st.tryRequeue fates id shard existed doc).pending = st.pending := by
  have first : (if existed then st.tryQueueOpFor (fates 0) id shard (.delete id) else st).WaitsBut id ∧
      (if existed then st.tryQueueOpFor (fates 0) id shard (.delete id) else st).pending =
        st.pending := by
    cases existed with
    | false => exact ⟨h, rfl⟩
    | true => exact ⟨h.queueOpFor rfl, tryQueueOpFor_pending rfl⟩
  cases doc with
  | none => exact first
  | some d =>
    have own : (PendingOp.add d).id = id := own d rfl
    exact ⟨first.1.queueOpFor own, (tryQueueOpFor_pending own).trans first.2⟩

theorem WaitsBut.logWrite (h : st.WaitsBut id) (r : LogRecord) :
    (st.tryLogWrite f r).WaitsBut id ∧ (st.tryLogWrite f r).pending = st.pending := by
  rw [tryLogWrite]
  split
  · exact ⟨h, rfl⟩
  dsimp only
  split
  · have logged : ∀ log bytes,
        ({ st with translog := log, translogBytes := bytes } : IdxState).WaitsBut id :=
      fun _ _ => h
    split
    · exact ⟨(logged _ _).applyOps none, tryApplyOps_pending none⟩
    · exact ⟨(logged _ _).applyOps none, tryApplyOps_pending none⟩
  · exact ⟨h, rfl⟩

/-- And a document that waits. -/
theorem WaitsBut.notePending (h : st.WaitsBut id) (source : Option String) :
    (∀ e ∈ (st.tryNotePending f id source).deferred,
      (st.tryNotePending f id source).pending.contains e.2.id = true) ∧
    ((st.tryNotePending f id source).pending = st.pending.insert id source ∨
      (st.tryNotePending f id source).pending = ∅) := by
  have noted : ∀ e ∈ (st.noted id source).deferred,
      (st.noted id source).pending.contains e.2.id = true := by
    intro e he
    simp only [IdxState.noted, Std.ExtTreeMap.contains_insert, Bool.or_eq_true, beq_iff_eq,
      compare_eq_iff_eq]
    rcases h e he with own | waits
    · exact .inl own.symm
    · exact .inr waits
  have handed : ∀ e ∈ ((st.noted id source).tryApplyOps f none).1.deferred,
      ((st.noted id source).tryApplyOps f none).1.pending.contains e.2.id = true := by
    intro e he
    rw [tryApplyOps_pending]
    exact noted e (mem_tryApplyOps he)
  rw [tryNotePending]
  dsimp only
  split
  · split
    case isTrue committed =>
      -- the table starts again where the queue was handed over whole
      have ok : ((st.noted id source).tryApplyOps f none).2 = true := by
        simp only [Bool.and_eq_true] at committed
        exact committed.1.1
      refine ⟨fun e he => ?_, .inr rfl⟩
      have he : e ∈ ((st.noted id source).tryApplyOps f none).1.deferred := he
      rw [tryApplyOps_none_deferred ok] at he
      exact absurd he List.not_mem_nil
    case isFalse => exact ⟨handed, .inl (tryApplyOps_pending none)⟩
  · exact ⟨noted, .inl rfl⟩

end IdxState

namespace Seen

variable {S : Settings} {terms : BTreeMap Nat Nat} {x : Seen}

theorem Shows.noted (h : x.Shows) {st st' : IdxState} {id : String} {source : Option String}
    (pending : st.pending = x.st.pending) (waits : st.WaitsBut id)
    {f : Fate} (eqDeferred : st'.deferred = (st.tryNotePending f id source).deferred)
    (eqPending : st'.pending = (st.tryNotePending f id source).pending) :
    Shows { st := st', last := x.last.insert id source } := by
  obtain ⟨waiting, table⟩ := waits.notePending (f := f) source
  refine ⟨fun e he => ?_, fun j said hj => ?_⟩
  · have he : e ∈ st'.deferred := he
    show st'.pending.contains e.2.id = true
    rw [eqDeferred] at he
    rw [eqPending]
    exact waiting e he
  · have hj : st'.pending[j]? = some said := hj
    show (x.last.insert id source)[j]? = some said
    rw [eqPending] at hj
    rcases table with table | table
    · rw [table, pending, Std.ExtTreeMap.getElem?_insert] at hj
      rw [Std.ExtTreeMap.getElem?_insert]
      split
      case isTrue here => rwa [if_pos here] at hj
      case isFalse other =>
        rw [if_neg other] at hj
        exact h.latest j said hj
    · rw [table] at hj
      simp at hj

theorem Shows.waitsBut (h : x.Shows) {st : IdxState} (deferred : st.deferred = x.st.deferred)
    (pending : st.pending = x.st.pending) (id : String) : st.WaitsBut id := by
  intro e he
  rw [deferred] at he
  rw [pending]
  exact .inr (h.waiting e he)

/-- A write, whatever fails of it. -/
theorem Shows.write (h : x.Shows) (id raw : String) (forced : Option Nat) (fates : Nat → Fate) :
    (x.step S terms (.write id raw forced fates)).Shows := by
  have numbered := IdxState.numbered_eq (S := S) x.st id forced
  have waits : (x.st.numbered S id forced (x.st.isLive S id)).1.WaitsBut id :=
    h.waitsBut (by rw [numbered]) (by rw [numbered]) id
  have pending : (x.st.numbered S id forced (x.st.isLive S id)).1.pending = x.st.pending := by
    rw [numbered]
  generalize hn : x.st.numbered S id forced (x.st.isLive S id) = n at waits pending
  obtain ⟨st, version, seq⟩ := n
  have queued := waits.requeue fates (x.st.shardOfDoc S id) (x.st.isLive S id)
    (some { id, source := raw, seq, routing := st.routing[id]? })
    (fun d hd => by obtain rfl := Option.some.inj hd; rfl)
  have termed : ∀ {st' : IdxState} (term : Nat), st'.WaitsBut id → (st'.setTerm id term).WaitsBut id :=
    fun _ h => h
  have logged := (termed (primaryTerm terms (x.st.shardOfDoc S id)) queued.1).logWrite (f := fates 2)
    { id, routing := st.routing[id]?, version, seq
      term := primaryTerm terms (x.st.shardOfDoc S id), source := some raw }
  refine h.noted (logged.2.trans (queued.2.trans pending)) logged.1 (f := fates 3) ?_ ?_
  · rw [IdxState.tryWrite, hn]
    rfl
  · rw [IdxState.tryWrite, hn]
    rfl

/-- A deletion. -/
theorem Shows.delete (h : x.Shows) (id : String) (forced : Option Nat) (fates : Nat → Fate) :
    (x.step S terms (.delete id forced fates)).Shows := by
  have numbered : ∀ existed, ∃ st version seq,
      x.st.buried S id forced existed = (st, version, seq) ∧
        st.deferred = x.st.deferred ∧ st.pending = x.st.pending := by
    intro existed
    cases forced with
    | none => exact ⟨_, _, _, rfl, rfl, rfl⟩
    | some v => exact ⟨_, _, _, rfl, rfl, rfl⟩
  obtain ⟨st, version, seq, eq, deferred, pending⟩ := numbered (x.st.isLive S id)
  rw [step, IdxState.tryDelete, eq]
  cases live : x.st.isLive S id with
  | false =>
    refine ⟨fun e he => ?_, fun j said hj => ?_⟩
    · have he : e ∈ st.deferred := he
      show st.pending.contains e.2.id = true
      rw [deferred] at he
      rw [pending]
      exact h.waiting e he
    · have hj : st.pending[j]? = some said := hj
      rw [pending] at hj
      exact h.latest j said hj
  | true =>
    have waits : st.WaitsBut id := h.waitsBut deferred pending id
    have queued := waits.requeue fates (st.shardOfDoc S id) true none nofun
    have termed : ((st.tryRequeue fates id (st.shardOfDoc S id) true none).setTerm id 1).WaitsBut id :=
      queued.1
    have logged := termed.logWrite (f := fates 2)
      { id, routing := none, version, seq, term := primaryTerm terms (st.shardOfDoc S id)
        source := none }
    have told : ∀ st', st'.deferred = (IdxState.tryNotePending _ (fates 3) id none).deferred →
        st'.pending = (IdxState.tryNotePending _ (fates 3) id none).pending →
        Shows { st := st', last := x.last.insert id none } :=
      fun _ => h.noted (logged.2.trans (queued.2.trans pending)) logged.1 (f := fates 3)
    cases forced with
    | none => exact told _ rfl rfl
    | some v => exact told _ rfl rfl

/-- An operation from the primary. -/
theorem Shows.take (h : x.Shows) (op : ReplicaOp) (term : Nat) (fates : Nat → Fate) :
    (x.step S terms (.take op term fates)).Shows := by
  have prepared : ∀ st : IdxState, (st.prepared S op).deferred = st.deferred ∧
      (st.prepared S op).pending = st.pending := by
    intro st
    obtain ⟨r, eq, -, -⟩ := IdxState.takeRouting_eq st op
    rw [IdxState.prepared, eq]
    exact ⟨rfl, rfl⟩
  obtain ⟨deferred, pending⟩ := prepared { x.st with appliedTerm := term }
  have waits := h.waitsBut deferred pending op.id
  have queued := waits.requeue fates
    (({ x.st with appliedTerm := term }.prepared S op).shardOfDoc S op.id)
    ({ x.st with appliedTerm := term }.isLive S op.id) op.doc (fun d hd => (ReplicaOp.mem_doc hd).1)
  have logged := queued.1.logWrite (f := fates 2) op.record
  exact h.noted (logged.2.trans (queued.2.trans pending)) logged.1 (f := fates 3) rfl rfl

/-- Any flush. -/
theorem Shows.handOver (h : x.Shows) (f : Fate) (only : Option Nat) :
    Shows { x with st := (x.st.tryApplyOps f only).1 } := by
  refine ⟨fun e he => ?_, fun j said hj => ?_⟩
  · show (x.st.tryApplyOps f only).1.pending.contains e.2.id = true
    rw [IdxState.tryApplyOps_pending]
    exact h.waiting e (IdxState.mem_tryApplyOps he)
  · have hj : (x.st.tryApplyOps f only).1.pending[j]? = some said := hj
    rw [IdxState.tryApplyOps_pending] at hj
    exact h.latest j said hj

theorem Shows.cleared {st : IdxState} (deferred : st.deferred = []) (pending : st.pending = ∅)
    (last : BTreeMap String (Option String)) : Shows { st, last } := by
  refine ⟨fun e he => ?_, fun j said hj => ?_⟩
  · have he : e ∈ st.deferred := he
    rw [deferred] at he
    exact absurd he List.not_mem_nil
  · have hj : st.pending[j]? = some said := hj
    rw [pending] at hj
    simp at hj

/-- The refresh of a shard. -/
theorem Shows.refreshShard (h : x.Shows) {shard : Nat} {f : Fate}
    (gathers : Gathers S x.st (.refreshShard shard f)) :
    (x.step S terms (.refreshShard shard f)).Shows := by
  have handed := h.handOver f (some shard)
  rw [step, IdxState.tryRefreshShard]
  dsimp only
  split
  · exact handed
  case isFalse through =>
    have ok : (x.st.tryApplyOps f (some shard)).2 = true := by
      cases applied : (x.st.tryApplyOps f (some shard)).2 with
      | true => rfl
      | false => simp [applied] at through
    have takes := IdxState.tryApplyOps_ok_iff.mp ok
    have reloads : f.reloads = true := by
      cases reloads : f.reloads with
      | true => rfl
      | false => simp [reloads] at through
    have eq : (x.st.tryApplyOps f (some shard)).1 = x.st.applyOps (some shard) := by
      rw [IdxState.tryApplyOps_takes takes]
    rw [eq] at handed through ⊢
    have frame := IdxState.commit_applyOps x.st (some shard)
    refine ⟨fun e he => ?_, fun j said hj => ?_⟩
    · have he : e ∈ (x.st.applyOps (some shard)).commit.deferred := he
      have queued : e ∈ (x.st.applyOps (some shard)).deferred := by rwa [frame] at he
      have left : e ∈ (x.st.tryApplyOps f (some shard)).1.deferred := by rwa [eq]
      have waits := h.waiting e (IdxState.mem_tryApplyOps left)
      -- what is still queued is queued for another shard, and so is its document's routing
      have other : x.st.shardOfDoc S e.2.id ≠ shard := by
        intro here
        rw [IdxState.applyOps] at queued
        split at queued
        case isTrue empty =>
          rw [List.isEmpty_iff.mp empty] at queued
          exact absurd queued List.not_mem_nil
        case isFalse busy =>
          obtain ⟨queued, stays⟩ := List.mem_filter.mp queued
          have commits : f.commits = true := by
            cases commits : f.commits with
            | true => rfl
            | false => simp [IdxState.applyOps, busy, commits] at through
          have := gathers takes commits reloads e queued here
          simp [this] at stays
      show (((x.st.applyOps (some shard)).commit.pending).filter _).contains e.2.id = true
      rw [Std.ExtTreeMap.contains_eq_isSome_getElem?, Std.ExtTreeMap.getElem?_filter']
      rw [Std.ExtTreeMap.contains_eq_isSome_getElem?] at waits
      obtain ⟨source, hs⟩ := Option.isSome_iff_exists.mp waits
      have shard : (x.st.applyOps (some shard)).commit.shardOfDoc S e.2.id =
          x.st.shardOfDoc S e.2.id := by
        rw [frame]
        rfl
      rw [frame] at shard ⊢
      simp [hs, shard, other, Option.filter]
    · have hj : ((x.st.applyOps (some shard)).commit.pending.filter _)[j]? = some said := hj
      rw [Std.ExtTreeMap.getElem?_filter'] at hj
      have hj := (Option.filter_eq_some_iff.mp hj).1
      rw [frame] at hj
      exact h.latest j said hj

/-- **A step keeps what is queued in sight**, where a refresh of one shard finds its work. -/
theorem Shows.step (h : x.Shows) {a : Act} (gathers : Gathers S x.st a) :
    (x.step S terms a).Shows := by
  cases a with
  | route id routing => exact ⟨h.waiting, h.latest⟩
  | write id raw forced fates => exact h.write id raw forced fates
  | delete id forced fates => exact h.delete id forced fates
  | take op term fates => exact h.take op term fates
  | refreshShard shard f => exact h.refreshShard gathers
  | refresh f =>
    rw [Seen.step, IdxState.tryRefresh]
    dsimp only
    split
    · exact h.handOver f none
    case isFalse through =>
      have ok : (x.st.tryApplyOps f none).2 = true := by
        cases applied : (x.st.tryApplyOps f none).2 with
        | true => rfl
        | false => simp [applied] at through
      refine .cleared ?_ rfl _
      rw [IdxState.tryApplyOps_takes (IdxState.tryApplyOps_ok_iff.mp ok)]
      show (x.st.applyOps none).commit.deferred = []
      rw [IdxState.commit_applyOps]
      exact IdxState.applyOps_none_deferred
  | release f =>
    rw [Seen.step, IdxState.tryRelease]
    split
    · exact h
    · split
      case isTrue through =>
        have ok : (x.st.tryApplyOps f none).2 = true := by
          simp only [Bool.and_eq_true] at through
          exact through.1
        refine .cleared ?_ rfl _
        exact IdxState.tryApplyOps_none_deferred ok
      case isFalse => exact h.handOver f none

/-- Any run, by induction. -/
theorem Shows.run (h : x.Shows) {acts : List Act} (gathers : x.AllGather S terms acts) :
    (x.run S terms acts).Shows := by
  induction acts generalizing x with
  | nil => exact h
  | cons a acts ih => exact ih (h.step gathers.1) gathers.2

/-- **Realtime visibility**: from an index with nothing queued and nothing waiting, through
any writes, deletes, operations of a primary, refreshes and failures of the writer, a
document with queued work is waiting with what its last write said, and that is what a
realtime read finds. -/
theorem queued_is_visible (S : Settings) (terms : BTreeMap Nat Nat) (st : IdxState)
    (queue : st.deferred = []) (quiet : st.pending = ∅) (acts : List Act)
    (gathers : AllGather S terms { st } acts) :
    ∀ e ∈ (run S terms { st } acts).st.deferred, ∃ source,
      (run S terms { st } acts).last[e.2.id]? = some source ∧
        (run S terms { st } acts).st.pending[e.2.id]? = some source ∧
          (run S terms { st } acts).st.readSource e.2.id = source := by
  have shows : (run S terms { st } acts).Shows := (Shows.cleared queue quiet ∅).run gathers
  intro e he
  have waits := shows.waiting e he
  rw [Std.ExtTreeMap.contains_eq_isSome_getElem?] at waits
  obtain ⟨source, hs⟩ := Option.isSome_iff_exists.mp waits
  refine ⟨source, shows.latest _ _ hs, hs, ?_⟩
  rw [IdxState.readSource, hs]

def twoShards : Settings :=
  { shardOf := fun _ routing => if routing = some "r" then 0 else 1
    idFingerprint := fun _ => 0, routingRequired := false, partitionSize := 1 }

def besideRouted : List Act :=
  [.route "1" (some "r"), .write "1" "a" none fun _ => {}, .write "2" "b" none fun _ => {},
    .refreshShard 1 {}]

theorem queued_is_visible_beside :
    (run twoShards ∅ { st := { name := "books" } } besideRouted).st.deferred.length = 1 ∧
    ∀ e ∈ (run twoShards ∅ { st := { name := "books" } } besideRouted).st.deferred, ∃ source,
      (run twoShards ∅ { st := { name := "books" } } besideRouted).last[e.2.id]? = some source ∧
        (run twoShards ∅ { st := { name := "books" } } besideRouted).st.pending[e.2.id]? =
            some source ∧
          (run twoShards ∅ { st := { name := "books" } } besideRouted).st.readSource e.2.id =
            source := by
  refine ⟨by decide +kernel, queued_is_visible twoShards ∅ _ rfl rfl besideRouted
    ⟨trivial, trivial, trivial, ?_, trivial⟩⟩
  intro _ _ _
  decide +kernel

def deletedRouted : List Request :=
  [.index "1" (.ok "a") .index { routing := some "r", refresh := true },
    .delete "1" { routing := some "r" }, .index "2" (.ok "b") .index { refresh := true }]

/-- A delete forgets the routing and stays queued for the shard it named: a refresh of the
other shard forgets that it waits, and a realtime read finds the document again. -/
theorem refresh_forgets_delete :
    let st : IdxState :=
      deletedRouted.foldl (fun st r => (st.serve twoShards ∅ r).1) { name := "books" }
    (0, PendingOp.delete "1") ∈ st.deferred ∧ st.pending["1"]? = none ∧ st.readSource "1" = some "a" := by
  decide +kernel

end Seen

/-! ## Requests are runs -/

namespace IdxState

variable {S : Settings} {terms : BTreeMap Nat Nat} {st : IdxState} {id : String}

theorem takes_unfailing (only : Option Nat) : st.Takes {} only := by
  refine .inr ⟨by simp [reachable], ?_⟩
  rw [handingOver, if_pos (by simp [reachable])]
  exact handing_accepts _ _

@[simp] theorem tryApplyOps_unfailing (only : Option Nat) :
    st.tryApplyOps {} only = (st.applyOps only, true) :=
  tryApplyOps_takes (takes_unfailing only)

@[simp] theorem tryQueueOpFor_unfailing (shard : Nat) (op : PendingOp) :
    st.tryQueueOpFor {} id shard op = st.queueOpFor id shard op := by
  simp only [tryQueueOpFor, tryQueueOp, tryApplyOps_unfailing]
  rfl

@[simp] theorem tryLogWrite_unfailing (r : LogRecord) : st.tryLogWrite {} r = st.logWrite r := by
  simp only [tryLogWrite, logWrite, tryApplyOps_unfailing, Bool.not_true, Bool.or_false,
    Bool.true_and, Bool.and_true, if_true]
  split
  · rfl
  · split
    · split
      case isTrue writer => rw [commit, if_pos writer]
      case isFalse => rfl
    · rfl

@[simp] theorem tryNotePending_unfailing (source : Option String) :
    st.tryNotePending {} id source = st.notePending id source := by
  simp only [tryNotePending, notePending, noted, flushed, tryApplyOps_unfailing, Bool.true_and,
    Bool.and_true, if_true]
  split
  · split
    case isTrue writer => rw [commit, if_pos writer]
    case isFalse => rfl
  · rfl

@[simp] theorem tryRefreshShard_unfailing (shard : Nat) :
    st.tryRefreshShard S {} shard = (st.refreshShard S shard, true) := by
  simp [tryRefreshShard, refreshShard]

@[simp] theorem tryRefresh_unfailing : st.tryRefresh {} = (st.refresh, true) := by
  simp [tryRefresh, refresh, flushed]

/-- A write nothing fails of is the write. -/
theorem tryWrite_unfailing (raw : String) (forced : Option Nat) :
    st.tryWrite S terms (fun _ => {}) id raw forced =
      (st.writeGranted S terms id raw forced).1 := by
  simp only [tryWrite, writeGranted, tryRequeue, tryQueueOpFor_unfailing, tryLogWrite_unfailing,
    tryNotePending_unfailing]

/-- And a deletion is the deletion. -/
theorem tryDelete_unfailing (open_ : st.changeRefusal = none) :
    st.tryDelete S terms (fun _ => {}) id none = (st.deleteDoc S terms id).1 := by
  rw [deleteDoc, open_]
  simp only [tryDelete, buried, tryRequeue, tryQueueOpFor_unfailing, tryLogWrite_unfailing,
    tryNotePending_unfailing, if_true, Option.isNone_none]
  cases st.isLive S id <;> rfl

theorem tryDelete_external (v : Nat) (p : Params) :
    (st.deleteExternal S terms id v p).1 =
      ((st.tryDelete S terms (fun _ => {}) id (some v)).setRouting id none).maybeRefresh S p
        (st.shardOfDoc S id) := by
  simp only [deleteExternal, tryDelete, buried, tryRequeue, tryQueueOpFor_unfailing,
    tryLogWrite_unfailing, tryNotePending_unfailing, if_true, Option.isNone_some]
  rfl

end IdxState

namespace Seen

variable {S : Settings} {terms : BTreeMap Nat Nat} {st st' : IdxState}

/-- The refresh that a request asks for of its shard. -/
def refreshing (p : Params) (shard : Nat) : List Act :=
  if p.refresh then [.refreshShard shard {}] else []

/-- The acts a request comes to, in the order the code makes them and with nothing failing: the
routing is put before the write and put back where that is refused, and forgotten after the
delete; the shard is refreshed last. -/
def actsOf (S : Settings) (terms : BTreeMap Nat Nat) (st : IdxState) : Request → List Act
  | .index id kept opType p =>
    let routed := p.routing.filter (· != "")
    match st.routingRefusal S id routed with
    | some _ => []
    | none =>
      .route id routed ::
        match kept, (st.setRouting id routed).writeDocChecked S terms id kept opType p with
        | .ok raw, .ok (after, _, _) =>
          .write id raw p.external (fun _ => {}) :: refreshing p (after.shardOfDoc S id)
        | _, _ => [.route id st.routing[id]?]
  | .delete id p =>
    match st.readRoutingRefusal S id p, st.seqCheck S id p, st.versionCheck S id p with
    | none, none, .ok (some v) =>
      .delete id (some v) (fun _ => {}) :: .route id none :: refreshing p (st.shardOfDoc S id)
    | none, none, .ok none =>
      if !st.routingMatches S id p then []
      else
        -- an index that takes no change is not written to, and forgets the routing all the same
        (if st.changeRefusal.isSome then [] else [.delete id none fun _ => {}]) ++
          .route id none :: refreshing p (st.shardOfDoc S id)
    | _, _, _ => []
  | .refresh => [.refresh {}]

/-- A refresh that is asked for comes last. -/
theorem run_refreshing (x : Seen) (p : Params) (shard : Nat) :
    (run S terms x (refreshing p shard)).st = x.st.maybeRefresh S p shard := by
  rw [refreshing, IdxState.maybeRefresh]
  split
  · show (x.st.tryRefreshShard S {} shard).1 = _
    rw [IdxState.tryRefreshShard_unfailing]
  · rfl

/-- **A request is a run** of the machine whose steps may each fail, with nothing failing in it. -/
theorem serve_leads (S : Settings) (terms : BTreeMap Nat Nat) (st : IdxState)
    (last : BTreeMap String (Option String)) (r : Request) :
    (run S terms { st, last } (actsOf S terms st r)).st = (st.serve S terms r).1 := by
  cases r with
  | index id kept opType p =>
    rw [IdxState.serve, IdxState.doIndex]
    unfold actsOf
    dsimp only
    cases st.routingRefusal S id (p.routing.filter (· != "")) with
    | some refusal => rfl
    | none =>
      dsimp only
      cases written : (st.setRouting id (p.routing.filter (· != ""))).writeDocChecked S terms id
          kept opType p with
      | ok done =>
        obtain ⟨raw, rfl, rfl⟩ := IdxState.writeDocChecked_granted written
        refine (run_refreshing _ p _).trans ?_
        refine congrArg (IdxState.maybeRefresh S · p _) ?_
        exact IdxState.tryWrite_unfailing raw p.external
      | error refusal => cases kept <;> rfl
  | delete id p =>
    rw [IdxState.serve, IdxState.deleteDocRoute]
    unfold actsOf
    dsimp only
    cases st.readRoutingRefusal S id p with
    | some refusal => rfl
    | none =>
      cases st.seqCheck S id p with
      | some refusal => rfl
      | none =>
        cases st.versionCheck S id p with
        | error refusal => rfl
        | ok forced =>
          cases forced with
          | some v =>
            refine (run_refreshing _ p _).trans ?_
            exact (IdxState.tryDelete_external v p).symm
          | none =>
            dsimp only
            cases st.routingMatches S id p with
            | false => rfl
            | true =>
              rw [Bool.not_true, if_neg Bool.false_ne_true, if_neg Bool.false_ne_true]
              cases open_ : st.changeRefusal with
              | some why =>
                rw [IdxState.deleteDoc, open_]
                exact run_refreshing _ p _
              | none =>
                refine (run_refreshing _ p _).trans ?_
                refine congrArg (fun st => (IdxState.setRouting st id none).maybeRefresh S p _) ?_
                exact IdxState.tryDelete_unfailing open_
  | refresh =>
    show (st.tryRefresh {}).1 = st.refresh
    rw [IdxState.tryRefresh_unfailing]

end Seen

end Velosearch.Index

import Velosearch.Index.Replica

/-!
# What the tables of an index agree on

A document is named in several tables: the queue, the writer, the realtime reader, the
pending table, the versions, the table of live ids. What is said of it is read off the
queue: the documents an index holds are those the writer will hold once everything
queued is handed over (`settled`), and every other table agrees with that (`Sound`).

An operation moves the tables one at a time, so between its steps they agree on every
document but its own. What is proved of a step is therefore said of one document at a
time: `Leaves` for those the step is not about.
-/

set_option autoImplicit false

namespace Velosearch.Index

open Velosearch.Cluster (BTreeMap BTreeSet u64Max)

/-! ## Documents by id -/

section Docs

/-- The documents under an id. -/
def docsOf (docs : List Doc) (id : String) : List Doc :=
  docs.filter (·.id == id)

variable {docs : List Doc} {id j : String}

@[simp] theorem docsOf_append (l l' : List Doc) (id : String) :
    docsOf (l ++ l') id = docsOf l id ++ docsOf l' id :=
  List.filter_append ..

theorem mem_docsOf {d : Doc} : d ∈ docsOf docs id ↔ d ∈ docs ∧ d.id = id := by
  simp [docsOf]

theorem find_docsOf : docs.find? (·.id == id) = (docsOf docs id).head? :=
  List.head?_filter.symm

theorem any_docsOf : docs.any (·.id == id) = !(docsOf docs id).isEmpty := by
  rw [Bool.eq_iff_iff]
  simp [docsOf, List.filter_eq_nil_iff]

/-- A document that is handed over is there. -/
theorem hand_add (doc : Doc) : docsOf (IdxState.hand docs (.add doc)) doc.id =
    docsOf docs doc.id ++ [doc] := by
  simp [IdxState.hand, docsOf]

/-- One that is deleted is gone. -/
theorem hand_delete : docsOf (IdxState.hand docs (.delete id)) id = [] := by
  simp only [IdxState.hand, docsOf, List.filter_filter, List.filter_eq_nil_iff]
  intro d _
  simp

/-- Others are as they were. -/
theorem hand_other {op : PendingOp} (h : op.id ≠ j) :
    docsOf (IdxState.hand docs op) j = docsOf docs j := by
  cases op with
  | add doc => simpa [IdxState.hand, docsOf, PendingOp.id] using h
  | delete id =>
    simp only [IdxState.hand, docsOf, List.filter_filter]
    refine List.filter_congr fun d _ => ?_
    have : j ≠ id := fun e => h e.symm
    by_cases hd : d.id = j
    · simp [hd, this]
    · simp [hd]

theorem docsOf_foldl (ops : List PendingOp) (docs : List Doc) (j : String) :
    docsOf (ops.foldl IdxState.hand docs) j =
      (ops.filter (·.id == j)).foldl (fun l op => docsOf (IdxState.hand l op) j)
        (docsOf docs j) := by
  induction ops generalizing docs with
  | nil => rfl
  | cons op ops ih =>
    rw [List.foldl_cons, ih]
    by_cases h : op.id = j
    · have once : docsOf (IdxState.hand docs op) j =
          docsOf (IdxState.hand (docsOf docs j) op) j := by
        subst h
        cases op with
        | add doc =>
          rw [PendingOp.id, hand_add, hand_add]
          simp [docsOf]
        | delete id => rw [PendingOp.id, hand_delete, hand_delete]
      rw [List.filter_cons_of_pos (by simpa using h), List.foldl_cons, once]
    · rw [List.filter_cons_of_neg (by simpa using h), hand_other h]

end Docs

namespace IdxState

variable {S : Settings} {st : IdxState} {id j : String}

/-! ## Agreement -/

/-- The documents of the index once everything queued is handed over. -/
def settled (st : IdxState) : List Doc :=
  (st.deferred.map Prod.snd).foldl hand st.written

/-- A flush writes everything that waits. -/
theorem applyOps_none_written (st : IdxState) : (st.applyOps none).written = st.settled := by
  rw [applyOps]
  split
  case isTrue empty =>
    rw [settled, List.isEmpty_iff.mp empty]
    rfl
  case isFalse => simp [settled]

/-- Nothing in the queue is for the document. -/
def Idle (st : IdxState) (id : String) : Prop :=
  ∀ e ∈ st.deferred, e.2.id ≠ id

/-- Everything queued for a document waits in one queue, and without a writer the
realtime reader shows all that is written. -/
structure Pinned (st : IdxState) : Prop where
  queues : ∀ e ∈ st.deferred, st.queuedShard[e.2.id]? = some e.1
  resting : st.writer = false → st.realtime = st.written

/-- The tables agree on one document. -/
structure Agrees (S : Settings) (st : IdxState) (id : String) : Prop where
  single : (docsOf st.settled id).length ≤ 1
  waiting : ∀ source, st.pending[id]? = some source →
    (docsOf st.settled id).map Doc.source = source.toList
  shown : st.pending[id]? = none →
    st.Idle id ∧ docsOf st.realtime id = docsOf st.written id
  versioned : ∀ m, st.versions[id]? = some m → m.live = !(docsOf st.settled id).isEmpty
  unversioned : st.versions[id]? = none → docsOf st.settled id ≠ [] → st.idsLoaded = true →
    st.liveIds.contains (S.idFingerprint id) = true
  numbered : ∀ seq, st.pendingSeq[id]? = some seq → ∀ d ∈ docsOf st.settled id, d.seq = seq
  numbers : ∀ raw, st.pending[id]? = some (some raw) → (st.pendingSeq[id]?).isSome

/-- The tables agree on every document. -/
structure Sound (S : Settings) (st : IdxState) : Prop where
  pinned : st.Pinned
  agrees : ∀ id, st.Agrees S id

/-- A document nothing waits for is what is written of it. -/
theorem docsOf_settled_of_idle (h : st.Idle id) :
    docsOf st.settled id = docsOf st.written id := by
  have none : (st.deferred.map Prod.snd).filter (·.id == id) = [] := by
    rw [List.filter_eq_nil_iff]
    intro op hop
    obtain ⟨e, he, rfl⟩ := List.mem_map.mp hop
    simpa using h e he
  rw [settled, docsOf_foldl, none, List.foldl_nil]

/-- A document that is not held waits nowhere. -/
theorem Agrees.realtime (h : st.Agrees S id) (hp : st.pending[id]? = none) :
    docsOf st.realtime id = docsOf st.settled id := by
  rw [docsOf_settled_of_idle (h.shown hp).1, (h.shown hp).2]

/-- **Liveness**: a document is live where the index holds it. -/
theorem Agrees.isLive (h : st.Agrees S id) :
    st.isLive S id = !(docsOf st.settled id).isEmpty := by
  rw [IdxState.isLive]
  split
  case h_1 raw hp =>
    have := h.waiting _ hp
    cases hd : docsOf st.settled id with
    | nil => simp [hd] at this
    | cons => rfl
  case h_2 hp =>
    have := h.waiting _ hp
    simp_all
  case h_3 hp =>
    split
    case h_1 m hv => exact h.versioned m hv
    case h_2 hv =>
      rw [lookupId, any_docsOf, h.realtime hp]
      cases hl : st.idsLoaded with
      | false => rfl
      | true =>
        cases hd : docsOf st.settled id with
        | nil => simp
        | cons d l => simp [h.unversioned hv (by simp [hd]) hl]

theorem Agrees.absent (h : st.Agrees S id) (dead : st.isLive S id = false) :
    docsOf st.settled id = [] := by
  rw [h.isLive] at dead
  simpa using dead

/-- What a read finds is what will be there. -/
theorem Agrees.readSource (h : st.Agrees S id) :
    st.readSource id = (docsOf st.settled id).head?.map Doc.source := by
  rw [IdxState.readSource]
  split
  case h_1 source hp =>
    have := congrArg List.head? (h.waiting _ hp)
    rw [List.head?_map] at this
    rw [this]
    cases source <;> rfl
  case h_2 hp => rw [find_docsOf, h.realtime hp]

theorem Agrees.readSeq (h : st.Agrees S id) {d : Doc} {l : List Doc}
    (live : docsOf st.settled id = d :: l) : st.readSeq id = some d.seq := by
  rw [IdxState.readSeq]
  split
  case h_1 seq hs => rw [h.numbered seq hs d (by simp [live])]
  case h_2 hs =>
    cases hp : st.pending[id]? with
    | none => rw [find_docsOf, h.realtime hp, live]; rfl
    | some source =>
      cases source with
      | none =>
        have := h.waiting _ hp
        simp [live] at this
      | some raw =>
        have := h.numbers raw hp
        simp [hs] at this

/-! ## Handing over -/

/-- A flush takes everything of a document, or nothing. -/
theorem applyOps_one (hp : st.Pinned) (only : Option Nat) (j : String) :
    ((st.applyOps only).Idle j ∧ docsOf (st.applyOps only).written j = docsOf st.settled j) ∨
    ((st.applyOps only).deferred.filter (·.2.id == j) = st.deferred.filter (·.2.id == j) ∧
      docsOf (st.applyOps only).written j = docsOf st.written j) := by
  by_cases idle : st.Idle j
  · refine .inl ?_
    rw [applyOps]
    split
    · exact ⟨idle, (docsOf_settled_of_idle idle).symm⟩
    · refine ⟨fun e he => idle e (List.mem_of_mem_filter he), ?_⟩
      have none : (((st.deferred.filter fun e => only.all (· == e.1)).map Prod.snd).filter
          (·.id == j)) = [] := by
        rw [List.filter_eq_nil_iff]
        intro op hop
        obtain ⟨e, he, rfl⟩ := List.mem_map.mp hop
        simpa using idle e (List.mem_of_mem_filter he)
      rw [docsOf_foldl, none, List.foldl_nil, docsOf_settled_of_idle idle]
  · obtain ⟨⟨shard, op⟩, he, hj⟩ : ∃ e ∈ st.deferred, e.2.id = j := by
      simpa [Idle] using idle
    have busy : st.deferred.isEmpty = false := by
      cases hd : st.deferred with
      | nil => simp [hd] at he
      | cons => rfl
    -- all of the document's work is in the queue of `shard`
    have queue : ∀ e ∈ st.deferred, e.2.id = j → e.1 = shard := by
      intro e he' hj'
      have first := hp.queues _ he
      have second := hp.queues e he'
      rw [hj'] at second
      rw [hj, second] at first
      exact Option.some.inj first
    rw [applyOps, busy]
    simp only [Bool.false_eq_true, if_false]
    cases goes : only.all (· == shard) with
    | true =>
      refine .inl ⟨?_, ?_⟩
      · intro e he' hj'
        have kept := List.mem_filter.mp he'
        rw [queue e kept.1 hj', goes] at kept
        simp at kept
      · rw [docsOf_foldl, settled, docsOf_foldl, List.filter_map, List.filter_map,
          List.filter_filter]
        congr 2
        refine List.filter_congr fun e he' => ?_
        by_cases hj' : e.2.id = j
        · simp [hj', queue e he' hj', goes]
        · simp [hj']
    | false =>
      refine .inr ⟨?_, ?_⟩
      · rw [List.filter_filter]
        refine List.filter_congr fun e he' => ?_
        by_cases hj' : e.2.id = j
        · simp [hj', queue e he' hj', goes]
        · simp [hj']
      · have none : (((st.deferred.filter fun e => only.all (· == e.1)).map Prod.snd).filter
            (·.id == j)) = [] := by
          rw [List.filter_eq_nil_iff]
          intro op' hop
          obtain ⟨e, he', rfl⟩ := List.mem_map.mp hop
          have gone := List.mem_filter.mp he'
          intro hj'
          rw [queue e gone.1 (by simpa using hj'), goes] at gone
          simp at gone
        rw [docsOf_foldl, none, List.foldl_nil]

/-- It does not change what will be there. -/
theorem docsOf_applyOps (hp : st.Pinned) (only : Option Nat) (j : String) :
    docsOf (st.applyOps only).settled j = docsOf st.settled j := by
  rcases applyOps_one hp only j with ⟨idle, gone⟩ | ⟨same, kept⟩
  · rw [docsOf_settled_of_idle idle, gone]
  · rw [settled, docsOf_foldl, settled, docsOf_foldl, List.filter_map, List.filter_map]
    have same : (st.applyOps only).deferred.filter ((·.id == j) ∘ Prod.snd) =
      st.deferred.filter ((·.id == j) ∘ Prod.snd) := same
    rw [same, kept]

/-- What stays is pinned as it was. -/
theorem applyOps_pinned (hp : st.Pinned) (only : Option Nat) : (st.applyOps only).Pinned := by
  rw [applyOps]
  split
  · exact hp
  · refine ⟨fun e he => ?_, nofun⟩
    have kept := List.mem_filter.mp he
    rw [Std.ExtTreeMap.getElem?_filter', hp.queues e kept.1]
    simpa [Option.filter] using kept.2

theorem applyOps_none_deferred : (st.applyOps none).deferred = [] := by
  rw [applyOps]
  split
  case isTrue h => simpa using h
  case isFalse => simp

theorem applyOps_idle (idle : st.Idle j) (only : Option Nat) : (st.applyOps only).Idle j := by
  rw [applyOps]
  split
  · exact idle
  · exact fun e he => idle e (List.mem_of_mem_filter he)

/-! ## A step that is not about a document -/

/-- Only the queue and what is written has moved. -/
def Requeues (st st' : IdxState) : Prop :=
  st' = { st with
    deferred := st'.deferred, queuedShard := st'.queuedShard
    writer := st'.writer, written := st'.written }

theorem applyOps_requeues (st : IdxState) (only : Option Nat) :
    st.Requeues (st.applyOps only) := by
  rw [applyOps]
  split <;> rfl

theorem queueOp_requeues (st : IdxState) (shard : Nat) (op : PendingOp) :
    st.Requeues (st.queueOp shard op) := by
  simp only [queueOp]
  split
  · have := applyOps_requeues { st with deferred := st.deferred ++ [(shard, op)] } none
    rw [Requeues] at this ⊢
    rw [this]
  · rfl

theorem queueOpFor_requeues (st : IdxState) (id : String) (shard : Nat) (op : PendingOp) :
    st.Requeues (st.queueOpFor id shard op) := by
  have := queueOp_requeues
    { st with queuedShard := st.queuedShard.insert id ((st.queuedShard[id]?).getD shard) }
    ((st.queuedShard[id]?).getD shard) op
  rw [Requeues] at this ⊢
  rw [queueOpFor, this]

/-- What waits afterwards waited before. -/
def Lingers (j : String) (st st' : IdxState) : Prop :=
  st'.pending.contains j = true →
    st.pending.contains j = true ∧ ∀ q, st'.queuedShard[j]? = some q → st.queuedShard[j]? = some q

theorem Lingers.refl : Lingers j st st :=
  fun h => ⟨h, fun _ hq => hq⟩

theorem Lingers.trans {st₁ st₂ st₃ : IdxState} (h : Lingers j st₁ st₂) (h' : Lingers j st₂ st₃) :
    Lingers j st₁ st₃ := by
  intro waits
  obtain ⟨waits, queue⟩ := h' waits
  obtain ⟨waits, queue'⟩ := h waits
  exact ⟨waits, fun q hq => queue' q (queue q hq)⟩

theorem applyOps_lingers (only : Option Nat) : Lingers j st (st.applyOps only) := by
  intro waits
  rw [applyOps_requeues] at waits
  refine ⟨waits, fun q hq => ?_⟩
  rw [applyOps] at hq
  split at hq
  · exact hq
  · rw [Std.ExtTreeMap.getElem?_filter'] at hq
    exact (Option.filter_eq_some_iff.mp hq).1

/-- A step leaves a document as it was: what the index holds of it, its version and its
routing, and that the tables agree on it. -/
structure Leaves (S : Settings) (j : String) (st st' : IdxState) : Prop where
  pinned : st.Pinned → st'.Pinned
  docs : st.Pinned → docsOf st'.settled j = docsOf st.settled j
  versions : st'.versions[j]? = st.versions[j]?
  routing : st'.routing[j]? = st.routing[j]?
  lingers : Lingers j st st'
  agrees : st.Pinned → st.Agrees S j → st'.Agrees S j

theorem Leaves.trans {st₁ st₂ st₃ : IdxState} (h : Leaves S j st₁ st₂) (h' : Leaves S j st₂ st₃) :
    Leaves S j st₁ st₃ where
  pinned hp := h'.pinned (h.pinned hp)
  docs hp := (h'.docs (h.pinned hp)).trans (h.docs hp)
  versions := h'.versions.trans h.versions
  routing := h'.routing.trans h.routing
  lingers := h.lingers.trans h'.lingers
  agrees hp ha := h'.agrees (h.pinned hp) (h.agrees hp ha)

theorem Leaves.refl : Leaves S j st st :=
  ⟨id, fun _ => rfl, rfl, rfl, .refl, fun _ h => h⟩

theorem setTerm_leaves (term : Nat) : Leaves S j st (st.setTerm id term) :=
  ⟨fun h => ⟨h.queues, h.resting⟩, fun _ => rfl, rfl, rfl, Lingers.refl, fun _ h =>
    ⟨h.single, h.waiting, h.shown, h.versioned, h.unversioned, h.numbered, h.numbers⟩⟩

theorem setRouting_leaves (other : id ≠ j) (routing : Option String) :
    Leaves S j st (st.setRouting id routing) where
  pinned h := ⟨h.queues, h.resting⟩
  docs _ := rfl
  versions := rfl
  routing := by
    cases routing with
    | none => simp [setRouting, Std.ExtTreeMap.getElem?_erase, other]
    | some r => simp [setRouting, Std.ExtTreeMap.getElem?_insert, other]
  lingers := Lingers.refl
  agrees _ h :=
    ⟨h.single, h.waiting, h.shown, h.versioned, h.unversioned, h.numbered, h.numbers⟩

theorem versions_leaves {st' : IdxState}
    (eq : st' = { st with
      versions := st'.versions, liveIds := st'.liveIds, seqNo := st'.seqNo })
    (same : st'.versions[j]? = st.versions[j]?)
    (liveIds : ∀ fp, st.liveIds.contains fp = true → st'.liveIds.contains fp = true) :
    Leaves S j st st' := by
  have settled : st'.settled = st.settled := by rw [eq]; rfl
  have hd : st'.deferred = st.deferred := by rw [eq]
  have hq : st'.queuedShard = st.queuedShard := by rw [eq]
  refine ⟨?_, fun _ => by rw [settled], same, by rw [eq], ?_, ?_⟩
  · intro h
    refine ⟨by rw [hd, hq]; exact h.queues, ?_⟩
    rw [eq]
    exact h.resting
  · rw [eq]
    exact Lingers.refl
  · intro _ h
    have hp : st'.pending = st.pending := by rw [eq]
    have hs : st'.pendingSeq = st.pendingSeq := by rw [eq]
    refine ⟨by rw [settled]; exact h.single, ?_, ?_, ?_, ?_, ?_, ?_⟩
    · rw [hp, settled]; exact h.waiting
    · rw [hp, Idle, hd, eq]; exact h.shown
    · rw [same, settled]; exact h.versioned
    · intro hv hne hl
      rw [same] at hv
      rw [settled] at hne
      exact liveIds _ (h.unversioned hv hne (by rw [eq] at hl; exact hl))
    · rw [hs, settled]; exact h.numbered
    · rw [hp, hs]; exact h.numbers

theorem contains_liveIds (live : Bool) (ids : BTreeSet Nat) (fp' : Nat) (fp : Nat)
    (h : ids.contains fp = true) : (if live then ids.insert fp' else ids).contains fp = true := by
  cases live with
  | false => exact h
  | true => simp [Std.ExtTreeSet.contains_insert, h]

theorem bumpToSeq_leaves (other : id ≠ j) (live : Bool) (version : Nat) (seq : Option Nat) :
    Leaves S j st (st.bumpToSeq S id live version seq).1 := by
  refine versions_leaves ?_ ?_ ?_
  · cases seq <;> rfl
  · cases seq <;> simp [bumpToSeq, Std.ExtTreeMap.getElem?_insert, other]
  · cases seq <;> exact contains_liveIds live _ _

/-- A version moves its own document. -/
theorem bump_leaves (other : id ≠ j) (live existed : Bool) :
    Leaves S j st (st.bump S id live existed).1 := by
  refine versions_leaves rfl ?_ (contains_liveIds live _ _)
  simp only [bump]
  split <;> simp [Std.ExtTreeMap.getElem?_insert, other]

theorem setReplicatedVersion_leaves (other : id ≠ j) (version : Nat) (live : Bool) (seq : Nat) :
    Leaves S j st (st.setReplicatedVersion S id version live seq) :=
  versions_leaves rfl (by simp [setReplicatedVersion, Std.ExtTreeMap.getElem?_insert, other])
    (contains_liveIds live _ _)

/-- An operation is queued, and may flush the queue. -/
theorem queueOpFor_cases (hp : st.Pinned) (shard : Nat) {op : PendingOp} (own : op.id = id) :
    ∃ q : IdxState, q.Pinned ∧ q.written = st.written ∧
      (∃ s, q.deferred = st.deferred ++ [(s, op)]) ∧
      (st.queueOpFor id shard op = q ∨ st.queueOpFor id shard op = q.applyOps none) := by
  refine ⟨{ st with
    deferred := st.deferred ++ [((st.queuedShard[id]?).getD shard, op)]
    queuedShard := st.queuedShard.insert id ((st.queuedShard[id]?).getD shard) },
    ?_, rfl, ⟨_, rfl⟩, ?_⟩
  · refine ⟨fun e he => ?_, hp.resting⟩
    rcases List.mem_append.mp he with he | he
    · simp only [Std.ExtTreeMap.getElem?_insert]
      split
      case isTrue same =>
        have := hp.queues e he
        rw [← compare_eq_iff_eq.mp same] at this
        rw [this]
        rfl
      case isFalse => exact hp.queues e he
    · obtain rfl := List.mem_singleton.mp he
      simp [own]
  · simp only [queueOpFor, queueOp]
    split
    · exact .inr rfl
    · exact .inl rfl

theorem queueOpFor_pinned (hp : st.Pinned) (shard : Nat) {op : PendingOp} (own : op.id = id) :
    (st.queueOpFor id shard op).Pinned := by
  obtain ⟨q, pinned, -, -, h | h⟩ := queueOpFor_cases hp shard own <;> rw [h]
  · exact pinned
  · exact applyOps_pinned pinned none

/-- The document is as the operation says. -/
theorem docsOf_queueOpFor (hp : st.Pinned) (shard : Nat) {op : PendingOp} {id : String}
    (own : op.id = id) (j : String) :
    docsOf (st.queueOpFor id shard op).settled j = docsOf (hand st.settled op) j := by
  obtain ⟨q, pinned, written, ⟨s, queued⟩, h⟩ := queueOpFor_cases hp shard own
  have settled : q.settled = hand st.settled op := by
    simp [IdxState.settled, queued, written]
  rcases h with h | h
  · rw [h, settled]
  · rw [h, ← settled, docsOf_applyOps pinned none]

theorem queueOpFor_lingers (shard : Nat) (op : PendingOp) (other : id ≠ j) :
    Lingers j st (st.queueOpFor id shard op) := by
  have queued : Lingers j st { st with
      deferred := st.deferred ++ [((st.queuedShard[id]?).getD shard, op)]
      queuedShard := st.queuedShard.insert id ((st.queuedShard[id]?).getD shard) } := by
    intro waits
    refine ⟨waits, fun q hq => ?_⟩
    simpa [Std.ExtTreeMap.getElem?_insert, other] using hq
  simp only [queueOpFor, queueOp]
  split
  · exact queued.trans (applyOps_lingers none)
  · exact queued

theorem queueOpFor_shown (hp : st.Pinned) (shard : Nat) {op : PendingOp} (own : op.id = id)
    (other : id ≠ j) (h : st.Idle j ∧ docsOf st.realtime j = docsOf st.written j) :
    (st.queueOpFor id shard op).Idle j ∧
      docsOf (st.queueOpFor id shard op).realtime j =
        docsOf (st.queueOpFor id shard op).written j := by
  obtain ⟨idle, shown⟩ := h
  obtain ⟨q, pinned, written, ⟨s, queued⟩, cases⟩ := queueOpFor_cases hp shard own
  have idle : q.Idle j := by
    intro e he
    rw [queued] at he
    rcases List.mem_append.mp he with he | he
    · exact idle e he
    · obtain rfl := List.mem_singleton.mp he
      exact own ▸ other
  have realtime : (st.queueOpFor id shard op).realtime = st.realtime := by
    rw [queueOpFor_requeues st id shard op]
  rw [realtime, shown, ← written]
  rcases cases with h | h <;> rw [h]
  · exact ⟨idle, rfl⟩
  · refine ⟨applyOps_idle idle none, ?_⟩
    rcases applyOps_one pinned none j with ⟨-, gone⟩ | ⟨-, kept⟩
    · rw [gone, docsOf_settled_of_idle idle]
    · rw [kept]

/-- Every other is left alone. -/
theorem queueOpFor_leaves (shard : Nat) {op : PendingOp} (own : op.id = id) (other : id ≠ j) :
    Leaves S j st (st.queueOpFor id shard op) where
  pinned hp := queueOpFor_pinned hp shard own
  docs hp := by rw [docsOf_queueOpFor hp shard own, hand_other (own ▸ other)]
  versions := by rw [queueOpFor_requeues st id shard op]
  routing := by rw [queueOpFor_requeues st id shard op]
  lingers := queueOpFor_lingers shard op other
  agrees hp h := by
    have docs := docsOf_queueOpFor hp shard own j
    rw [hand_other (own ▸ other)] at docs
    have frame := queueOpFor_requeues st id shard op
    refine ⟨docs ▸ h.single, ?_, ?_, ?_, ?_, ?_, ?_⟩
    · rw [docs, frame]; exact h.waiting
    · intro waits
      rw [frame] at waits
      exact queueOpFor_shown hp shard own other (h.shown waits)
    · rw [docs, frame]; exact h.versioned
    · rw [docs, frame]; exact h.unversioned
    · rw [docs, frame]; exact h.numbered
    · rw [frame]; exact h.numbers

theorem notePendingSeq_leaves (other : id ≠ j) (seq : Nat) :
    Leaves S j st (st.notePendingSeq id seq) where
  pinned h := ⟨h.queues, h.resting⟩
  docs _ := rfl
  versions := rfl
  routing := rfl
  lingers := Lingers.refl
  agrees _ h := by
    have same : (st.notePendingSeq id seq).pendingSeq[j]? = st.pendingSeq[j]? := by
      simp [notePendingSeq, Std.ExtTreeMap.getElem?_insert, other]
    exact ⟨h.single, h.waiting, h.shown, h.versioned, h.unversioned,
      same ▸ h.numbered, same ▸ h.numbers⟩

/-! ## Refreshing -/

theorem commit_requeued : st.commit = { st with realtime := st.commit.realtime } := by
  rw [commit]
  split <;> rfl

theorem commit_realtime (hp : st.Pinned) : st.commit.realtime = st.written := by
  rw [commit]
  split
  · rfl
  case isFalse h => exact hp.resting (by simpa using h)

theorem commit_pinned (hp : st.Pinned) : st.commit.Pinned := by
  refine ⟨?_, fun _ => ?_⟩
  · rw [commit_requeued]; exact hp.queues
  · rw [commit_realtime hp, commit_requeued]

/-- A commit shows what was written. -/
theorem commit_shown (hp : st.Pinned) (only : Option Nat) :
    docsOf (st.applyOps only).commit.realtime j = docsOf (st.applyOps only).commit.written j := by
  rw [commit_realtime (applyOps_pinned hp only), commit_requeued]

theorem docsOf_commit (hp : st.Pinned) (only : Option Nat) :
    docsOf (st.applyOps only).commit.settled j = docsOf st.settled j := by
  rw [← docsOf_applyOps hp only, settled, commit_requeued]
  rfl

theorem commit_applyOps (st : IdxState) (only : Option Nat) : (st.applyOps only).commit = { st with
    deferred := (st.applyOps only).deferred, queuedShard := (st.applyOps only).queuedShard
    writer := (st.applyOps only).writer, written := (st.applyOps only).written
    realtime := (st.applyOps only).commit.realtime } := by
  rw [commit_requeued, applyOps_requeues st only]

/-- What is held of the document's life is what is queued or written of it. -/
structure Listed (S : Settings) (st : IdxState) (id : String) : Prop where
  versioned : ∀ m, st.versions[id]? = some m → m.live = !(docsOf st.settled id).isEmpty
  unversioned : st.versions[id]? = none → docsOf st.settled id ≠ [] → st.idsLoaded = true →
    st.liveIds.contains (S.idFingerprint id) = true

theorem Agrees.listed (h : st.Agrees S id) : st.Listed S id :=
  ⟨h.versioned, h.unversioned⟩

/-- After a flush everything can be read. -/
theorem agrees_flushed (hp : st.Pinned) (single : (docsOf st.settled j).length ≤ 1)
    (listed : st.Listed S j) : st.flushed.Agrees S j := by
  have docs : docsOf st.flushed.settled j = docsOf st.settled j := docsOf_commit hp none
  have idle : (st.applyOps none).commit.Idle j := by
    rw [Idle, commit_applyOps, applyOps_none_deferred]
    exact nofun
  refine ⟨docs.symm ▸ single, ?_, fun _ => ⟨idle, commit_shown hp none⟩, ?_, ?_, ?_, ?_⟩
  · simp [flushed]
  · intro m hm
    rw [flushed, commit_applyOps] at hm
    rw [docs]
    exact listed.versioned m hm
  · intro hv hne hl
    rw [docs] at hne
    rw [flushed, commit_applyOps] at hv hl ⊢
    exact listed.unversioned hv hne hl
  · simp [flushed]
  · simp [flushed]

/-- A flush leaves every document alone. -/
theorem flushed_leaves : Leaves S j st st.flushed where
  pinned hp :=
    have := commit_pinned (applyOps_pinned hp none)
    ⟨this.queues, this.resting⟩
  docs hp := docsOf_commit hp none
  versions := by rw [flushed, commit_applyOps]
  routing := by rw [flushed, commit_applyOps]
  lingers := by simp [Lingers, flushed]
  agrees hp h := agrees_flushed hp h.single h.listed

theorem committed_leaves : Leaves S j st { (st.applyOps none).commit with
    translog := [], translogBytes := 0 } := by
  refine ⟨fun hp => ?_, fun hp => docsOf_commit hp none, ?_, ?_, ?_, fun hp h => ?_⟩
  · have := commit_pinned (applyOps_pinned hp none)
    exact ⟨this.queues, this.resting⟩
  · rw [commit_applyOps]
  · rw [commit_applyOps]
  · refine (applyOps_lingers none).trans ?_
    rw [commit_requeued]
    exact Lingers.refl
  · have docs : docsOf (st.applyOps none).commit.settled j = docsOf st.settled j :=
      docsOf_commit hp none
    have idle : (st.applyOps none).commit.Idle j := by
      rw [Idle, commit_applyOps, applyOps_none_deferred]
      exact nofun
    have shown := commit_shown hp none (j := j)
    have frame := commit_applyOps st none
    refine ⟨docs.symm ▸ h.single, fun source waits => ?_, fun _ => ⟨idle, shown⟩, ?_, ?_, ?_, ?_⟩
    · rw [frame] at waits
      exact docs.symm ▸ h.waiting source waits
    · intro m hm
      rw [frame] at hm
      exact (h.versioned m hm).trans (by rw [← docs]; rfl)
    · intro hv hne hl
      rw [frame] at hv hl ⊢
      exact h.unversioned hv (docs ▸ hne) hl
    · intro seq hs
      rw [frame] at hs
      exact docs.symm ▸ h.numbered seq hs
    · intro raw hs
      rw [frame] at hs ⊢
      exact h.numbers raw hs

theorem refresh_leaves : Leaves S j st st.refresh :=
  flushed_leaves

/-- What is held of the document has its operation in the queue of the shard. -/
def Waits (S : Settings) (st : IdxState) (shard : Nat) (id : String) : Prop :=
  st.pending.contains id = true → st.shardOfDoc S id = shard →
    ∀ q, st.queuedShard[id]? = some q → q = shard

theorem Leaves.waits {st' : IdxState} (h : Leaves S j st st') {shard : Nat}
    (own : st.Waits S shard j) : st'.Waits S shard j := by
  intro waits here q hq
  obtain ⟨waits, queue⟩ := h.lingers waits
  rw [shardOfDoc, h.routing] at here
  exact own waits here q (queue q hq)

/-- So does the refresh of a shard. -/
theorem refreshShard_leaves (shard : Nat) (own : st.Waits S shard j) :
    Leaves S j st (st.refreshShard S shard) := by
  refine ⟨fun hp => ?_, fun hp => docsOf_commit hp (some shard), ?_, ?_, ?_, fun hp h => ?_⟩
  · have := commit_pinned (applyOps_pinned hp (some shard))
    exact ⟨this.queues, this.resting⟩
  · rw [refreshShard, commit_applyOps]
  · rw [refreshShard, commit_applyOps]
  · refine (applyOps_lingers (some shard)).trans fun waits => ?_
    simp only [refreshShard, Std.ExtTreeMap.contains_eq_isSome_getElem?,
      Std.ExtTreeMap.getElem?_filter'] at waits ⊢
    rw [commit_requeued] at waits ⊢
    obtain ⟨source, hs⟩ := Option.isSome_iff_exists.mp waits
    exact ⟨Option.isSome_of_mem (Option.filter_eq_some_iff.mp hs).1, fun _ hq => hq⟩
  · have docs : docsOf (st.refreshShard S shard).settled j = docsOf st.settled j :=
      docsOf_commit hp (some shard)
    have versions : (st.refreshShard S shard).versions = st.versions := by
      rw [refreshShard, commit_applyOps]
    -- the document leaves the table of what waits exactly where it is the shard's
    have pending : (st.refreshShard S shard).pending[j]? =
        if st.shardOfDoc S j = shard then none else st.pending[j]? := by
      have : (st.refreshShard S shard).pending[j]? =
          (st.pending[j]?).filter fun _ => !(st.shardOfDoc S j == shard) := by
        simp only [refreshShard, Std.ExtTreeMap.getElem?_filter', shardOfDoc]
        rw [commit_applyOps]
      rw [this]
      by_cases here : st.shardOfDoc S j = shard <;>
        cases st.pending[j]? <;> simp [Option.filter, here]
    have pendingSeq : (st.refreshShard S shard).pendingSeq[j]? =
        if st.pending.contains j = true ∧ st.shardOfDoc S j = shard then none
        else st.pendingSeq[j]? := by
      have : (st.refreshShard S shard).pendingSeq[j]? = (st.pendingSeq[j]?).filter fun _ =>
          !(st.pending.contains j && st.shardOfDoc S j == shard) := by
        simp only [refreshShard, Std.ExtTreeMap.getElem?_filter', shardOfDoc]
        rw [commit_applyOps]
      rw [this]
      by_cases here : st.pending.contains j = true ∧ st.shardOfDoc S j = shard
      · rw [if_pos here]
        cases st.pendingSeq[j]? <;> simp [Option.filter, here]
      · rw [if_neg here]
        have stays : (!(st.pending.contains j && st.shardOfDoc S j == shard)) = true := by
          rw [Bool.not_eq_true', Bool.and_eq_false_iff]
          by_cases waits : st.pending.contains j = true
          · exact .inr (by simpa using fun e => here ⟨waits, e⟩)
          · exact .inl (eq_false_of_ne_true waits)
        simp only [stays]
        cases st.pendingSeq[j]? <;> rfl
    refine ⟨docs.symm ▸ h.single, ?_, ?_, ?_, ?_, ?_, ?_⟩
    · intro source
      rw [pending, docs]
      split
      · exact nofun
      · exact h.waiting source
    · intro waits
      refine ⟨?_, commit_shown hp (some shard)⟩
      have idle : (st.applyOps (some shard)).Idle j := by
        cases hj : st.pending[j]? with
        | none => exact applyOps_idle (h.shown hj).1 _
        | some source =>
          intro e he hid
          have here : st.shardOfDoc S j = shard := by
            by_contra away
            rw [pending, if_neg away, hj] at waits
            simp at waits
          rw [applyOps] at he
          split at he
          case isTrue empty => simp_all
          case isFalse =>
            obtain ⟨he, stays⟩ := List.mem_filter.mp he
            have queue := hp.queues e he
            rw [hid] at queue
            have := own (by simp [Std.ExtTreeMap.contains_eq_isSome_getElem?, hj]) here _ queue
            simp [this] at stays
      intro e he
      refine idle e ?_
      simp only [refreshShard] at he
      rwa [commit_applyOps] at he
    · intro m hm
      rw [versions] at hm
      rw [docs]
      exact h.versioned m hm
    · intro hv hne hl
      rw [versions] at hv
      rw [docs] at hne
      simp only [refreshShard] at hl ⊢
      rw [commit_applyOps] at hl ⊢
      exact h.unversioned hv hne hl
    · intro seq
      rw [pendingSeq, docs]
      split
      · exact nofun
      · exact h.numbered seq
    · intro raw
      rw [pending, pendingSeq]
      split
      · exact nofun
      case isFalse away =>
        intro hj
        rw [if_neg (fun both => away both.2)]
        exact h.numbers raw hj

theorem applyOps_unopened {only : Option Nat} (h : (st.applyOps only).writer = false) :
    st.applyOps only = st := by
  rw [applyOps] at h ⊢
  split
  · rfl
  case isFalse busy => simp [busy] at h

/-! ## A write kept for realtime reads -/

/-- The document waits with its text. -/
def noted (st : IdxState) (id : String) (source : Option String) : IdxState :=
  { st with
    pendingBytes := st.pendingBytes + pendingSize id source
    pending := st.pending.insert id source }

/-- A document waits, and may flush what waits. -/
theorem notePending_cases (st : IdxState) (id : String) (source : Option String) :
    st.notePending id source = st.noted id source ∨
      st.notePending id source = (st.noted id source).flushed := by
  rw [notePending]
  dsimp only
  split
  · split
    · exact .inr rfl
    case isFalse unopened => exact .inl (applyOps_unopened (by simpa using unopened))
  · exact .inl rfl

theorem notePending_frame (st : IdxState) (id : String) (source : Option String) :
    (st.notePending id source).versions = st.versions ∧
      (st.notePending id source).routing = st.routing := by
  rcases notePending_cases st id source with e | e <;> rw [e]
  · exact ⟨rfl, rfl⟩
  · rw [flushed, commit_applyOps]
    exact ⟨rfl, rfl⟩

/-- A record leaves the documents alone. -/
theorem logWrite_leaves (r : LogRecord) : Leaves S j st (st.logWrite r) := by
  have logged : ∀ log bytes, Leaves S j st { st with translog := log, translogBytes := bytes } :=
    fun _ _ => ⟨fun h => ⟨h.queues, h.resting⟩, fun _ => rfl, rfl, rfl, Lingers.refl, fun _ h =>
      ⟨h.single, h.waiting, h.shown, h.versioned, h.unversioned, h.numbered, h.numbers⟩⟩
  rw [logWrite]
  split
  · exact .refl
  · dsimp only
    split
    · split
      · exact (logged _ _).trans committed_leaves
      case isFalse unopened =>
        rw [applyOps_unopened (by simpa using unopened)]
        exact logged _ _
    · exact logged _ _

theorem logWrite_eq (st : IdxState) (r : LogRecord) : st.logWrite r = { st with
    deferred := (st.logWrite r).deferred, queuedShard := (st.logWrite r).queuedShard
    writer := (st.logWrite r).writer, written := (st.logWrite r).written
    realtime := (st.logWrite r).realtime, translog := (st.logWrite r).translog
    translogBytes := (st.logWrite r).translogBytes } := by
  rw [logWrite]
  split
  · rfl
  · dsimp only
    split
    · split
      · rw [commit_applyOps]
      · rw [applyOps_requeues]
    · rfl

/-- A document that waits leaves the others alone. -/
theorem notePending_leaves (other : id ≠ j) (source : Option String) :
    Leaves S j st (st.notePending id source) := by
  have noted : Leaves S j st (st.noted id source) := by
    have same : (st.pending.insert id source)[j]? = st.pending[j]? := by
      simp [Std.ExtTreeMap.getElem?_insert, other]
    have lingers : Lingers j st (st.noted id source) := by
      intro waits
      rw [noted, Std.ExtTreeMap.contains_eq_isSome_getElem?, same] at waits
      exact ⟨by rwa [Std.ExtTreeMap.contains_eq_isSome_getElem?], fun _ hq => hq⟩
    exact ⟨fun h => ⟨h.queues, h.resting⟩, fun _ => rfl, rfl, rfl, lingers, fun _ h =>
      ⟨h.single, fun s hs => h.waiting s (same ▸ hs), fun hs => h.shown (same ▸ hs), h.versioned,
        h.unversioned, h.numbered, fun raw hs => h.numbers raw (same ▸ hs)⟩⟩
  rcases notePending_cases st id source with h | h <;> rw [h]
  · exact noted
  · exact noted.trans flushed_leaves

theorem notePending_pinned (hp : st.Pinned) (id : String) (source : Option String) :
    (st.notePending id source).Pinned := by
  have noted : (st.noted id source).Pinned := ⟨hp.queues, hp.resting⟩
  rcases notePending_cases st id source with h | h <;> rw [h]
  · exact noted
  · exact (flushed_leaves (S := ⟨fun _ _ => 0, fun _ => 0, false, 0⟩) (j := id)).pinned noted

theorem docsOf_notePending (hp : st.Pinned) (source : Option String) (j : String) :
    docsOf (st.notePending id source).settled j = docsOf st.settled j := by
  rcases notePending_cases st id source with h | h <;> rw [h]
  · rfl
  · have pinned : (st.noted id source).Pinned := ⟨hp.queues, hp.resting⟩
    exact docsOf_commit pinned none

theorem Agrees.renumber (h : st.Agrees S id) {seq : Nat}
    (seqs : ∀ d ∈ docsOf st.settled id, d.seq = seq) : (st.notePendingSeq id seq).Agrees S id := by
  have now : (st.pendingSeq.insert id seq)[id]? = some seq := by simp
  refine ⟨h.single, h.waiting, h.shown, h.versioned, h.unversioned, ?_, ?_⟩
  · intro seq' hs
    obtain rfl := Option.some.inj (now.symm.trans hs)
    exact seqs
  · intro raw _
    exact Option.isSome_of_mem now

/-- It can be read. -/
theorem agrees_noted (hp : st.Pinned) {source : Option String} {seq : Nat}
    (docs : (docsOf st.settled id).map Doc.source = source.toList)
    (seqs : ∀ d ∈ docsOf st.settled id, d.seq = seq) (listed : st.Listed S id) :
    ((st.notePending id source).notePendingSeq id seq).Agrees S id := by
  have single : (docsOf st.settled id).length ≤ 1 := by
    have := congrArg List.length docs
    rw [List.length_map] at this
    rw [this]
    cases source <;> simp
  have pinned : (st.noted id source).Pinned := ⟨hp.queues, hp.resting⟩
  rcases notePending_cases st id source with h | h <;> rw [h]
  · have now : (st.pending.insert id source)[id]? = some source := by simp
    have number : (st.pendingSeq.insert id seq)[id]? = some seq := by simp
    refine ⟨single, ?_, ?_, listed.versioned, listed.unversioned, ?_, ?_⟩
    · intro s hs
      obtain rfl := Option.some.inj (now.symm.trans hs)
      exact docs
    · intro hs
      exact absurd (now.symm.trans hs) nofun
    · intro seq' hs
      obtain rfl := Option.some.inj (number.symm.trans hs)
      exact seqs
    · intro raw _
      exact Option.isSome_of_mem number
  · refine Agrees.renumber (agrees_flushed pinned single ⟨listed.versioned, listed.unversioned⟩) ?_
    have same : docsOf (st.noted id source).flushed.settled id = docsOf st.settled id :=
      docsOf_commit pinned none
    rw [same]
    exact seqs

end IdxState

end Velosearch.Index

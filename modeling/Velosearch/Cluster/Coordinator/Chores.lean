import Velosearch.Cluster.Coordinator.Moves
import Velosearch.Cluster.Coordinator.Desk

/-!
# Every handler comes down to chores

The functions that leave the desk alone first, then those that do not, from the
innermost out, as `Moves` does it for acts. The main results are **`handle_chores`**
and, for the start, **`onStart_chores`**.
-/

set_option autoImplicit false

namespace Velosearch.Cluster

open Allocation Relation

namespace Coordinator

variable {E : Env} {I : Option Envelope} {r : RoutingTable}

/-! ## Functions that leave the desk alone -/

/-- Output that answers no report leaves the desk alone. -/
theorem desk_emits {c : Coordinator} {l : List Output} (h : ∀ o ∈ l, o.reply = none) :
    (c.emits l).desk = c.desk := by
  have : l.filterMap Output.reply = [] := List.filterMap_eq_nil_iff.mpr h
  simp [emits, desk, this]

theorem desk_emit {c : Coordinator} {o : Output} (h : o.reply = none) :
    (c.emit o).desk = c.desk := by
  simp [emit, desk, h]

/-- What no step of a loop touches the loop does not touch. -/
theorem desk_foldl {α : Type} {f : Coordinator → α → Coordinator}
    (h : ∀ c a, (f c a).desk = c.desk) (l : List α) (c : Coordinator) :
    (l.foldl f c).desk = c.desk := by
  induction l generalizing c with
  | nil => rfl
  | cons a l ih => rw [List.foldl_cons, ih, h]

@[simp] theorem desk_timer (c : Coordinator) (id : TimerId) (after : Millis) :
    (c.emit (.timer id after)).desk = c.desk := desk_emit rfl

@[simp] theorem desk_told (c : Coordinator) (w : Told) : (c.emit (.told w)).desk = c.desk :=
  desk_emit rfl

@[simp] theorem desk_remark (c : Coordinator) (n : Note) : (c.remark n).desk = c.desk := by
  unfold remark
  split
  · exact desk_emit rfl
  · rfl

@[simp] theorem desk_tell (c : Coordinator) (w : Told) : (c.tell E w).desk = c.desk := by
  unfold tell
  split
  · exact desk_emit rfl
  · rfl

/-- An event nobody is shown is no mark on the desk. -/
theorem desk_record {c : Coordinator} {e : Event} (h : e.shown = false) :
    (c.record e).desk = c.desk := by
  simp [record, desk, h]

/-- Sending anything but an answer leaves the desk alone. -/
theorem desk_send {c : Coordinator} {dest : NodeId} {e : Envelope}
    (h : (Output.send dest e).reply = none) : (c.send dest e).desk = c.desk := desk_emit h

/-- A request is not an answer. -/
theorem request_reply (dest : NodeId) (a : Action) (me : NodeId) (rid : Nat) (b : Body) :
    (Output.send dest (.request a me rid b)).reply = none := by
  cases a <;> rfl

@[simp] theorem desk_request (c : Coordinator) (dest : NodeId) (a : Action) (b : Body) :
    (c.request dest a b).desk = c.desk :=
  (desk_send (c := c.rid) (request_reply _ _ _ _ _)).trans rfl

@[simp] theorem desk_joinError (c : Coordinator) (dest : NodeId) (b : Body) :
    (c.joinError dest b).desk = c.desk :=
  (desk_send (c := c.rid) rfl).trans rfl

/-- An answer to anything but a report is nothing the desk keeps. -/
theorem desk_respond {c : Coordinator} {e : Envelope} {b : Body} (h : e.action.report = none) :
    (c.respond e b).desk = c.desk :=
  desk_send (by simp [Output.reply, Envelope.response, h])

/-- Neither is a refusal. -/
theorem desk_refuse {c : Coordinator} {e : Envelope} {b : Body} (h : e.action.report = none) :
    (c.refuse e b).desk = c.desk :=
  desk_send (by simp [Output.reply, Envelope.error, h])

theorem desk_refuseStranger {c : Coordinator} {e : Envelope} (h : e.action.report = none) :
    (c.refuseStranger e).desk = c.desk := desk_refuse h

/-- Nodes that are heard of are not desk business. -/
@[simp] theorem desk_learn (c : Coordinator) (n : DiscoveryNode) : (c.learn n).desk = c.desk := by
  unfold learn
  split
  · rfl
  · split
    · rfl
    · exact desk_emit (c := c) (o := .peer n.id n.transportAddress) rfl

@[simp] theorem desk_scheduleElection (c : Coordinator) : c.scheduleElection.desk = c.desk := by
  unfold scheduleElection
  exact desk_emit (c := c) rfl

@[simp] theorem desk_dialSeeds (c : Coordinator) : c.dialSeeds.desk = c.desk := by
  unfold dialSeeds
  apply desk_emits
  intro o ho
  obtain ⟨h, _, rfl⟩ := List.mem_map.mp ho
  rfl

@[simp] theorem desk_join (c : Coordinator) (dest : NodeId) : (c.join E dest).desk = c.desk :=
  desk_request _ _ _ _

@[simp] theorem desk_joinHint (c : Coordinator) : (c.joinHint E).desk = c.desk := by
  unfold joinHint
  split
  · exact desk_join _ _
  · rfl

@[simp] theorem desk_prevote (c : Coordinator) : c.prevote.desk = c.desk := by
  unfold prevote
  rw [desk_emits]
  · rfl
  · intro o ho
    obtain ⟨t, _, rfl⟩ := List.mem_map.mp ho
    exact request_reply _ _ _ _ _

@[simp] theorem desk_noteHeld (c : Coordinator) (b : Body) : (c.noteHeld b).desk = c.desk := by
  unfold noteHeld
  split <;> rfl

@[simp] theorem desk_discover (c : Coordinator) : (c.discover E).desk = c.desk := by
  unfold discover
  split
  · rfl
  · dsimp only
    rw [desk_timer]
    have asked : ((c.dialSeeds.everyone.toList.foldl (fun c t =>
        c.request t .peers { node := some c.me, nodeId := some c.me.id }) c.dialSeeds).joinHint
          E).desk = c.desk := by
      rw [desk_joinHint, desk_foldl (fun c t => desk_request _ _ _ _), desk_dialSeeds]
    split
    · rw [desk_scheduleElection, asked]
    · exact asked

@[simp] theorem desk_reportMetadata (c : Coordinator) : (c.reportMetadata E).desk = c.desk := by
  unfold reportMetadata
  split
  · dsimp only
    split
    · rfl
    · exact (desk_request _ _ _ _).trans rfl
  · rfl

@[simp] theorem desk_pollMetadata (c : Coordinator) : (c.pollMetadata E).desk = c.desk := by
  unfold pollMetadata
  split
  · exact desk_timer _ _ _
  · rfl

@[simp] theorem desk_beginFollowing (c : Coordinator) : c.beginFollowing.desk = c.desk :=
  desk_timer _ _ _

/-! ### Applying what was committed -/

@[simp] theorem desk_takeCustoms (c : Coordinator) : (c.takeCustoms E).desk = c.desk := by
  unfold takeCustoms
  dsimp only
  split
  · exact (desk_tell _ _).trans rfl
  · rfl

theorem desk_dropLocal (c : Coordinator) (x : String × IndexMetadata) :
    (c.dropLocal E x).desk = c.desk := by
  unfold dropLocal
  split <;> simp

/-- Metadata that is put in force here is not desk business either. -/
@[simp] theorem desk_applyMetadata (c : Coordinator) : (c.applyMetadata E).desk = c.desk := by
  unfold applyMetadata
  split
  · rfl
  · rw [desk_foldl desk_dropLocal, desk_takeCustoms, desk_emits]
    · split <;> simp
    · intro o ho
      obtain ⟨n, _, rfl⟩ := List.mem_map.mp ho
      rfl

theorem desk_noteCopy (c : Coordinator) (x : ShardRouting) : (c.noteCopy E x).desk = c.desk := by
  unfold noteCopy
  split
  · split <;> simp
  · rfl

theorem desk_resyncCopy (c : Coordinator) (x : ShardRouting) :
    (c.resyncCopy E x).desk = c.desk := by
  unfold resyncCopy
  dsimp only
  split
  · rfl
  · split
    · rfl
    · rw [desk_remark]
      split
      · exact desk_told _ _
      · rfl

theorem desk_releaseCopy (c : Coordinator) (x : String × String × Nat) :
    (c.releaseCopy E x).desk = c.desk := by
  unfold releaseCopy
  dsimp only
  split
  · rfl
  · split
    · exact desk_remark _ _
    · split
      · exact desk_told _ _
      · rfl

/-! ## Telling the manager about copies -/

/-- A chore that only notes what happened to copies, and only while leading. -/
def Notes (d d' : Desk) : Prop :=
  ∃ evs, (d.mode ≠ .leader → evs = []) ∧ d' = { d with shardEvents := d.shardEvents ++ evs }

/-- Nothing noted is a note of nothing. -/
theorem notes_refl (d : Desk) : Notes d d := ⟨[], fun _ => rfl, by simp⟩

/-- Notes one after another are notes. -/
theorem Notes.trans {d d' d'' : Desk} (h : Notes d d') (h' : Notes d' d'') : Notes d d'' := by
  obtain ⟨evs, quiet, rfl⟩ := h
  obtain ⟨evs', quiet', rfl⟩ := h'
  refine ⟨evs ++ evs', fun other => ?_, by simp⟩
  rw [quiet other, quiet' other]
  rfl

/-- Noting shard events is among the chores. -/
theorem Notes.chores {d d' : Desk} (h : Notes d d') : Chores E I r d d' := by
  obtain ⟨evs, quiet, rfl⟩ := h
  exact .single (Chore.note d evs quiet)

/-- A loop of notes notes, by induction on what it walks. -/
theorem notes_foldl {α : Type} {f : Coordinator → α → Coordinator}
    (h : ∀ c a, Notes c.desk (f c a).desk) (l : List α) (c : Coordinator) :
    Notes c.desk (l.foldl f c).desk := by
  induction l generalizing c with
  | nil => exact notes_refl _
  | cons a l ih => exact (h c a).trans (ih (f c a))

/-- A leader that reports to itself notes the event; anyone else sends it. -/
theorem report_notes (c : Coordinator) (ev : ShardEvent) : Notes c.desk (c.report ev).desk := by
  unfold report
  split
  · rename_i leads
    exact ⟨[ev], fun other => absurd leads other, rfl⟩
  · cases ev <;> (dsimp only; rw [desk_request]; exact notes_refl _)
  · exact notes_refl _

theorem reportAgain_notes (c : Coordinator) (x : ShardRouting) :
    Notes c.desk (c.reportAgain x).desk := by
  unfold reportAgain
  split
  · exact report_notes _ _
  · exact notes_refl _

/-- A copy found started is reported. -/
theorem startCopy_notes (c : Coordinator) (x : ShardRouting) :
    Notes c.desk (c.startCopy E x).desk := by
  unfold startCopy
  split
  · exact notes_refl _
  · split
    · exact notes_refl _
    · rename_i aid _ _
      have told : ∀ (d : Coordinator) ev, d.desk = c.desk → Notes c.desk (d.report ev).desk :=
        fun d ev hd => hd ▸ report_notes d ev
      dsimp only
      split
      · exact notes_refl _
      · exact told _ _ rfl
      · exact told _ _ rfl

/-- Looking at the copies placed here reports some and touches nothing else. -/
theorem applyShards_notes (c : Coordinator) : Notes c.desk (c.applyShards E).desk := by
  unfold applyShards
  dsimp only
  rw [desk_foldl desk_releaseCopy]
  refine Notes.trans ?_ (notes_foldl startCopy_notes _ _)
  rw [desk_foldl desk_resyncCopy]
  refine Notes.trans ?_ (notes_foldl reportAgain_notes _ _)
  have quiet : (c.mine.foldl (noteCopy E) (c.applyMetadata E)).desk = c.desk := by
    rw [desk_foldl desk_noteCopy, desk_applyMetadata]
  exact quiet ▸ notes_refl _

/-! ## Stepping down, and the first configuration -/

@[simp] theorem report_action (kind : ReportKind) : kind.action.report = some kind := by
  cases kind <;> rfl

/-- Who becomes a candidate puts the desk down: what was waiting is refused. -/
theorem desk_becomeCandidate (c : Coordinator) : (c.becomeCandidate E).desk = c.desk.stepDown := by
  have told : (c.eventReplies.map fun w => Output.send w.dest (w.envelope.error c.me.id
      { term := some c.currentTerm, reason := some "no longer the manager" })).filterMap
        Output.reply = c.eventReplies.map (·.reply false) := by
    simp [List.filterMap_map, Function.comp_def, Output.reply, Waiting.envelope, Envelope.request,
      Envelope.error, Waiting.reply]
  unfold becomeCandidate
  dsimp only
  rw [desk_discover]
  unfold tell
  split <;>
    simp [desk, Desk.stepDown, disappointReplies, emits, emit, List.filterMap_append, told,
      Output.reply]

/-- Becoming a candidate is a step down as far as the desk goes. -/
theorem becomeCandidate_chores (c : Coordinator) : Chores E I r c.desk (c.becomeCandidate E).desk := by
  rw [desk_becomeCandidate]
  exact .single (Chore.stepDown c.desk)

/-- A later term makes a leader step down; any other changes nothing. -/
theorem desk_sawTerm (t : Nat) (c : Coordinator) :
    (c.sawTerm E t).desk = c.desk ∨ (c.sawTerm E t).desk = c.desk.stepDown := by
  unfold sawTerm
  dsimp only
  split
  · exact Or.inl rfl
  · split
    · right
      rw [desk_becomeCandidate, desk_remark]
      rfl
    · exact Or.inl rfl

theorem sawTerm_chores (t : Nat) (c : Coordinator) : Chores E I r c.desk (c.sawTerm E t).desk := by
  rcases desk_sawTerm (E := E) t c with h | h <;> rw [h]
  exact .single (Chore.stepDown c.desk)

theorem sawTermIn_chores (c : Coordinator) (b : Body) : Chores E I r c.desk (c.sawTermIn E b).desk := by
  unfold sawTermIn
  split
  · exact sawTerm_chores _ _
  · exact .refl

/-- The first cluster of a new node is nothing the desk keeps. -/
theorem bootstrap_chores (c : Coordinator) : Chores E I r c.desk c.bootstrap.desk := by
  unfold bootstrap
  split
  · exact .refl
  · split
    · exact .refl
    · split
      · exact .refl
      · rename_i found _
        dsimp only
        rw [desk_remark]
        exact .single (Chore.boot c.desk (sortDedup found))

/-- A committed state reaches the desk as what it last saw decided. -/
theorem desk_applyCommitted (c : Coordinator) (s : ClusterState) :
    (c.applyCommitted s).desk = c.desk.applyCommitted s := by
  have committed : c.desk.committed = c.committed := rfl
  have accepted : c.desk.accepted = c.accepted := rfl
  unfold applyCommitted Desk.applyCommitted
  rw [committed, accepted]
  dsimp only
  cases fresher s.term s.version c.committed.term c.committed.version with
  | false => rfl
  | true =>
    cases fresher (settled s).term (settled s).version c.accepted.term c.accepted.version with
    | false => simp [desk, record, persistCommitted, Event.shown]
    | true => simp [desk, record, persistCommitted, persistAccepted, Event.shown]

/-! ## Rounds -/

/-- Taking the pending shard events into a state moves their answers along with it. -/
theorem desk_place {look : Nat → Source} (h : E.metadata = some look) (c : Coordinator)
    (s : ClusterState) : (c.place E s).1.desk = { c.desk with
      eventReplies := c.eventReplies.map fun w =>
        if w.carriedAt = notCarried then { w with carriedAt := s.version } else w
      commandTable := none
      shardEvents := []
      terms := (c.placing E (look c.drawn) s).terms } := by
  have placeNotes : ∀ (d : Coordinator) (ch : Changes), (d.placeNotes ch).desk = d.desk := by
    intro d ch
    have noted : ∀ f : Coordinator → String × Nat × String → Coordinator,
        (∀ e x, (f e x).desk = e.desk) →
          (ch.notes.foldl (fun c n => c.remark (.allocation n)) (ch.retired.foldl f d)).desk =
            d.desk := by
      intro f plain
      rw [desk_foldl (fun c n => desk_remark c _), desk_foldl plain]
    unfold Coordinator.placeNotes
    split <;> split <;> simp [noted]
  have inSyncNotes : ∀ (d : Coordinator) (a b : BTreeMap String IndexMetadata),
      (d.inSyncNotes a b).desk = d.desk := by
    intro d a b
    unfold Coordinator.inSyncNotes
    apply desk_foldl
    intro c n
    dsimp only
    split <;> simp
  unfold place
  rw [h]
  dsimp only
  unfold afterPlacing
  rw [desk_tell, inSyncNotes, placeNotes]
  rfl

/-- Without metadata to place by, a state is published as it stands. -/
theorem place_none (h : E.metadata = none) (c : Coordinator) (s : ClusterState) :
    c.place E s = (c, s) := by
  unfold place
  rw [h]

/-- Admitting nodes changes no index, and of the routing at most forgets. -/
theorem forgets_admitNode (now : Millis) (l : List (NodeId × DiscoveryNode)) (s : ClusterState) :
    (l.foldl (admitNode now) s).indices = s.indices ∧
      Forgets s.routing (l.foldl (admitNode now) s).routing := by
  induction l generalizing s with
  | nil => exact ⟨rfl, .refl⟩
  | cons x l ih =>
    obtain ⟨indices, routing⟩ := ih (admitNode now s x)
    refine ⟨indices, ReflTransGen.trans ?_ routing⟩
    unfold admitNode
    dsimp only
    split
    · exact .single ⟨now, x.1, rfl⟩
    · exact .refl

theorem admitNode_versions (now : Millis) (l : List (NodeId × DiscoveryNode)) (s : ClusterState) :
    (l.foldl (admitNode now) s).version = s.version := by
  induction l generalizing s with
  | nil => rfl
  | cons x l ih => exact ih _

/-- Placing copies is not a new version. -/
theorem place_version (c : Coordinator) (s : ClusterState) : (c.place E s).2.version = s.version := by
  unfold place
  split <;> rfl

/-- The state a leader publishes next, with what has been made of the events it took. -/
theorem round_nextState (c d : Coordinator) {m : Nat} {k : NodeId} {x : List (String × String)} :
    Round E d c.committed (c.nextState E).1 { (d.place E (c.nextState E).1).2 with
      term := m, clusterManager := some k, votingConfigExclusions := x } := by
  obtain ⟨indices, routing⟩ := forgets_admitNode c.lastWall c.waitingJoins.toList
    (c.committed.next (E.random c.drawn))
  refine ⟨indices, routing, ?_, place_version d _, rfl, rfl⟩
  exact admitNode_versions c.lastWall c.waitingJoins.toList (c.committed.next (E.random c.drawn))

/-- The first state of a new leader, likewise. -/
theorem round_firstState (c d : Coordinator) {m : Nat} {k : NodeId} {x : List (String × String)} :
    Round E d c.accepted (c.firstState E) { (d.place E (c.firstState E)).2 with
      term := m, clusterManager := some k, votingConfigExclusions := x } :=
  ⟨rfl, .refl, rfl, place_version d _, rfl, rfl⟩

/-! ## Publications -/

/-- A decided publication leaves the desk, and leaves its mark. -/
theorem desk_announceCommit (c : Coordinator) (p : Publication) :
    (c.announceCommit p).desk =
      { c.desk with inFlight := none, marks := c.desk.marks ++ [.decided p.state] } := by
  unfold announceCommit
  simp [desk, record, emits, rid, request_reply, Event.shown, List.filter_append]

/-- The answers that were waiting for a publication go out with it. -/
theorem desk_answerReplies (c : Coordinator) : c.answerReplies.desk = c.desk.answer := by
  have told : ∀ l : List Waiting, (l.map fun w => Output.send w.dest
      (w.envelope.response c.me.id {})).filterMap Output.reply = l.map (·.reply true) := by
    intro l
    simp [List.filterMap_map, Function.comp_def, Output.reply, Waiting.envelope, Envelope.request,
      Envelope.response, Waiting.reply]
  unfold answerReplies Desk.answer
  simp only [desk, emits, List.filterMap_append, told]
  rfl

theorem applyCommitted_mode (d : Desk) (s : ClusterState) : (d.applyCommitted s).mode = d.mode := by
  unfold Desk.applyCommitted
  dsimp only
  split
  · rfl
  · split <;> rfl

theorem applyCommitted_inFlight (d : Desk) (s : ClusterState) :
    (d.applyCommitted s).inFlight = d.inFlight := by
  unfold Desk.applyCommitted
  dsimp only
  split
  · rfl
  · split <;> rfl

/-- Committing, whatever is done next, given that what is done next is chores. -/
theorem commitWith_chores {next : Coordinator → Coordinator}
    (hnext : ∀ d, Chores E I r d.desk (next d).desk) {c : Coordinator} (leads : c.mode = .leader) :
    Chores E I r c.desk (commitWith E next c).desk := by
  unfold commitWith
  split
  · exact .refl
  · rename_i p inFlight
    dsimp only
    have decided : ((c.announceCommit p).applyCommitted p.state).desk = c.desk.decide p.state := by
      rw [desk_applyCommitted, desk_announceCommit]
      rfl
    have flew : c.desk.inFlight = some p.state := by
      unfold desk
      rw [inFlight]
      rfl
    refine ReflTransGen.head (Chore.decide c.desk p.state leads flew) ?_
    rw [← decided]
    generalize hd : (c.announceCommit p).applyCommitted p.state = d at decided ⊢
    obtain ⟨evs, quiet, applied⟩ := applyShards_notes (E := E) d
    refine ReflTransGen.trans (Notes.chores ⟨evs, quiet, applied⟩) ?_
    refine ReflTransGen.head (b := (d.applyShards E).desk.answer) (Chore.answer _ ?_ ?_) ?_
    · rw [applied, decided]
      exact (applyCommitted_mode _ _).trans leads
    · rw [applied, decided]
      exact applyCommitted_inFlight _ _
    · rw [← desk_answerReplies, ← desk_remark (d.applyShards E).answerReplies
        (.committed p.state.term p.state.version p.state.nodes.size p.state.lastAcceptedConfig.length)]
      exact hnext _

/-- A publication is put on the desk with the answers that wait for it. -/
theorem desk_launch (base s : ClusterState) (c : Coordinator) :
    (c.launch base s).desk = c.desk.publish base s := by
  unfold launch putInFlight
  dsimp only
  rw [desk_timer]
  simp [desk, Desk.publish, record, persistAccepted, emits, rid, request_reply,
    List.filter_append]
  rfl

/-- Publishing, given the same of what comes after. -/
theorem publishWith_chores {next : Coordinator → Coordinator}
    (hnext : ∀ d, Chores E I r d.desk (next d).desk) (base s : ClusterState) {c : Coordinator}
    (leads : c.mode = .leader) :
    Chores E I r (c.desk.publish base (c.stamp s)) (publishWith E next base s c).desk := by
  unfold publishWith
  dsimp only
  rw [← desk_launch]
  split
  · refine commitWith_chores hnext ?_
    exact congrArg Desk.mode (desk_launch base (c.stamp s) c) |>.trans leads
  · exact .refl

/-- The next publication, given the same of how it is published. -/
theorem nextWith_chores {next : Coordinator → Coordinator}
    (hnext : ∀ d, Chores E I r d.desk (next d).desk) (c : Coordinator) :
    Chores E I r c.desk (nextWith E (publishWith E next) c).desk := by
  unfold nextWith
  split
  · exact .refl
  · rename_i hidle
    simp only [not_or, not_not, Bool.not_eq_true, Option.isSome_eq_false_iff,
      Option.isNone_iff_eq_none] at hidle
    obtain ⟨leads, idle⟩ := hidle
    dsimp only
    split
    · exact .refl
    · have flew : c.desk.inFlight = none := by
        unfold desk
        rw [idle]
        rfl
      have kept : ((c.takeUp.place E (c.nextState E).1).1.followAll
          (c.takeUp.place E (c.nextState E).1).2).desk =
            (c.takeUp.place E (c.nextState E).1).1.desk := rfl
      generalize hd : (c.takeUp.place E (c.nextState E).1).1.followAll
        (c.takeUp.place E (c.nextState E).1).2 = d at kept ⊢
      have mode : d.mode = .leader := by
        have : d.desk.mode = c.takeUp.desk.mode := by
          rw [kept]
          cases h : E.metadata with
          | none => rw [place_none h]
          | some look => rw [desk_place h]
        exact this.trans leads
      refine ReflTransGen.head (Chore.round c.desk c.takeUp (c.nextState E).1
        (d.stamp (c.takeUp.place E (c.nextState E).1).2) rfl leads flew
          (round_nextState c c.takeUp)) ?_
      rw [← kept]
      exact publishWith_chores hnext c.committed _ mode

/-- The mutual recursion of publishing and committing, by induction on its fuel. -/
theorem nextPublication_chores (n : Nat) (c : Coordinator) :
    Chores E I r c.desk (nextPublication E n c).desk := by
  induction n generalizing c with
  | zero => exact .refl
  | succ n ih => exact nextWith_chores ih c

theorem next_chores {c d : Coordinator} (n : Nat) (h : d.desk = c.desk) :
    Chores E I r c.desk (nextPublication E n d).desk :=
  h ▸ nextPublication_chores n d

/-! ## Elections -/

/-- A candidate that wins begins with a publication of its own. -/
theorem becomeLeader_chores {c : Coordinator} (stood : c.mode = .candidate)
    (other : ∀ e, I = some e → e.action ≠ .reroute) :
    Chores E I r c.desk (c.becomeLeader E).desk := by
  have led : (c.takeLead E).desk = { c.desk with
      mode := .leader, marks := c.desk.marks ++ [.led c.currentTerm c.accepted] } := by
    unfold takeLead
    dsimp only
    rw [desk_remark]
    simp [desk, record, Event.shown]
  have rest : ∀ d : Coordinator, d.desk = ((c.takeLead E).place E (c.firstState E)).1.desk →
      Chores E I r c.desk (d.publish E c.accepted ((c.takeLead E).place E (c.firstState E)).2).desk := by
    intro d hd
    have mode : d.mode = .leader := by
      have : d.desk.mode = (c.takeLead E).desk.mode := by
        rw [hd]
        cases h : E.metadata with
        | none => rw [place_none h]
        | some look => rw [desk_place h]
      rw [led] at this
      exact this
    refine ReflTransGen.head (Chore.lead c.desk (c.takeLead E) (c.firstState E)
      (d.stamp ((c.takeLead E).place E (c.firstState E)).2) c.currentTerm stood led
        (round_firstState c _) other) ?_
    rw [← hd]
    exact publishWith_chores (nextPublication_chores E.rounds) c.accepted _ mode
  unfold becomeLeader
  dsimp only
  split
  · rw [desk_timer, desk_timer]
    exact rest _ rfl
  · rw [desk_timer]
    exact rest _ rfl

/-- A vote counts until it is the one that makes a leader. -/
theorem countVote_chores {c : Coordinator} (node : DiscoveryNode) (stood : c.mode = .candidate)
    (other : ∀ e, I = some e → e.action ≠ .reroute) :
    Chores E I r c.desk (c.countVote E node).desk := by
  unfold countVote
  dsimp only
  split
  · exact becomeLeader_chores (c := { c with joinVotes := c.joinVotes.insert node.id node })
      stood other
  · exact .refl

/-- A node that joins is taken in, and published. -/
theorem welcome_chores (c : Coordinator) (node : DiscoveryNode) (sender : NodeId) :
    Chores E I r c.desk (c.welcome E node sender).desk := by
  unfold welcome
  split
  · exact .refl
  · dsimp only
    split
    · rw [desk_send rfl]
      exact .refl
    · exact next_chores _ rfl

theorem desk_behind (c : Coordinator) (sender : NodeId) : (c.behind sender).desk = c.desk := by
  unfold behind
  split
  · exact desk_request _ _ _ _
  · exact desk_joinError _ _ _

/-- A JOIN is a vote, a node to take in, or an error. -/
theorem onJoin_chores (c : Coordinator) (body : Body) (sender : NodeId)
    (other : ∀ e, I = some e → e.action ≠ .reroute) :
    Chores E I r c.desk (c.onJoin E body sender).desk := by
  unfold onJoin
  dsimp only
  split
  · rw [desk_noteHeld]
  · rename_i node _
    have seen : Chores E I r c.desk
        (((c.noteHeld body).sawTerm E (body.term.getD 0)).learn node).desk := by
      rw [desk_learn, ← desk_noteHeld c body]
      exact sawTerm_chores _ _
    refine seen.trans ?_
    generalize ((c.noteHeld body).sawTerm E (body.term.getD 0)).learn node = d
    split
    · rw [desk_behind]
    · split
      · rw [desk_joinError]
      · split
        · rename_i stood
          split
          · exact countVote_chores node stood other
          · exact .refl
        · exact welcome_chores _ _ _
        · rw [desk_joinError]

/-- A START_JOIN steps down, then votes. -/
theorem onStartJoin_chores (c : Coordinator) (t : Nat) (sender : NodeId)
    (other : ∀ e, I = some e → e.action ≠ .reroute) :
    Chores E I r c.desk (c.onStartJoin E t sender).desk := by
  unfold onStartJoin
  split
  · exact .refl
  · dsimp only
    have voted : ({ c.sawTerm E t with lastJoin := some (t, sender) }.record
        (.voted t sender)).desk = (c.sawTerm E t).desk := desk_record rfl
    refine (sawTerm_chores t c).trans ?_
    rw [← voted]
    generalize ({ c.sawTerm E t with lastJoin := some (t, sender) } : Coordinator).record
      (.voted t sender) = d
    split
    · exact onJoin_chores _ _ _ other
    · rw [desk_join]

/-- Standing for election is voting for oneself. -/
theorem startElection_chores (c : Coordinator) (other : ∀ e, I = some e → e.action ≠ .reroute) :
    Chores E I r c.desk (c.startElection E).desk := by
  unfold startElection
  dsimp only
  have begun : ({ c with prevoteRid := 0, prevotes := ∅ }.remark
      (.election c.electionTerm)).desk = c.desk := desk_remark _ _
  generalize ({ c with prevoteRid := 0, prevotes := ∅ } : Coordinator).remark
    (.election c.electionTerm) = d at begun ⊢
  have asked := desk_foldl (f := fun (x : Coordinator) (t : NodeId) =>
    x.request t .startJoin { term := some c.electionTerm }) (fun c t => desk_request _ _ _ _)
      d.everyone.toList d
  rw [← begun, ← asked]
  exact onStartJoin_chores _ _ _ other

/-! ## The arms of `on_message` -/

theorem desk_onPeersRequest {c : Coordinator} {e : Envelope} (h : e.action.report = none) :
    (c.onPeersRequest e).desk = c.desk := by
  unfold onPeersRequest
  dsimp only
  rw [desk_respond h]
  split
  · split <;> simp
  · rfl

theorem desk_onPeersResponse (c : Coordinator) (e : Envelope) :
    (c.onPeersResponse E e).desk = c.desk := by
  unfold onPeersResponse followHint
  rw [← desk_foldl desk_learn e.body.peers c]
  split
  · split
    · exact (desk_join _ _).trans rfl
    · rfl
  · rfl

theorem desk_onPreVoteRequest {c : Coordinator} {e : Envelope} (h : e.action.report = none) :
    (c.onPreVoteRequest e).desk = c.desk := by
  unfold onPreVoteRequest
  split
  · exact desk_refuseStranger h
  · dsimp only
    split
    · exact (desk_refuse h).trans rfl
    · exact (desk_respond h).trans rfl

/-- Enough pre-votes start an election. -/
theorem onPreVoteResponse_chores (c : Coordinator) (e : Envelope)
    (other : ∀ e, I = some e → e.action ≠ .reroute) :
    Chores E I r c.desk (c.onPreVoteResponse E e).desk := by
  unfold onPreVoteResponse
  split
  · exact .refl
  · dsimp only
    split
    · exact .refl
    · split
      · exact startElection_chores { c with
          maxTermSeen := max c.maxTermSeen (e.body.term.getD 0), prevotes := ∅ } other
      · exact .refl

theorem desk_onPreVoteError (c : Coordinator) (e : Envelope) :
    (c.onPreVoteError E e).desk = c.desk := by
  have hint : ∀ (d : Coordinator) (l : NodeId), d.desk = c.desk →
      (if l ≠ d.me.id ∧ d.mode = Mode.candidate then
        { d with leaderHint := some l }.join E l else d).desk = c.desk := by
    intro d l hd
    split
    · exact (desk_join _ _).trans hd
    · exact hd
  unfold onPreVoteError
  cases e.body.leader with
  | none => cases e.body.term <;> rfl
  | some l =>
    cases e.body.term with
    | none => exact hint c l rfl
    | some t => exact hint { c with maxTermSeen := max c.maxTermSeen t } l rfl

theorem onStartJoinRequest_chores {c : Coordinator} {e : Envelope} (h : e.action.report = none)
    (other : ∀ e, I = some e → e.action ≠ .reroute) :
    Chores E I r c.desk (c.onStartJoinRequest E e).desk := by
  unfold onStartJoinRequest
  split
  · rw [desk_refuseStranger h]
  · rw [← desk_respond (c := c) (b := {}) h]
    exact onStartJoin_chores _ _ _ other

theorem onJoinError_chores (c : Coordinator) (e : Envelope) :
    Chores E I r c.desk (c.onJoinError E e).desk := by
  unfold onJoinError
  refine (sawTermIn_chores c e.body).trans ?_
  generalize c.sawTermIn E e.body = d
  have forget : (if d.leaderHint = some e.sender then { d with leaderHint := none }
      else d : Coordinator).desk = d.desk := by
    split <;> rfl
  dsimp only
  split
  · split
    · rw [forget]
    · split
      · rw [desk_join]
        exact .refl
      · exact .refl
  · rw [forget]

theorem onJoinResponse_chores (c : Coordinator) (e : Envelope) :
    Chores E I r c.desk (c.onJoinResponse E e).desk := by
  unfold onJoinResponse
  split
  · rename_i s _
    split
    · dsimp only
      have joined : ({ c.applyCommitted s with
          mode := .follower e.sender, leaderHint := some e.sender } : Coordinator).desk =
          { c.desk.applyCommitted s with mode := .follower e.sender } := by
        rw [← desk_applyCommitted]
        rfl
      have rest : Chores E I r c.desk ({ c.applyCommitted s with
          mode := .follower e.sender, leaderHint := some e.sender }.applyShards E).desk := by
        refine ReflTransGen.head (Chore.joined c.desk s e.sender) ?_
        rw [← joined]
        exact (applyShards_notes _).chores
      split
      · rw [desk_beginFollowing]
        exact rest
      · exact rest
    · exact .refl
  · exact .refl

/-- A follower that takes a publication steps down from whatever it was. -/
theorem onPublishRequest_chores {c : Coordinator} {e : Envelope} (h : e.action.report = none) :
    Chores E I r c.desk (c.onPublishRequest e).desk := by
  unfold onPublishRequest
  split
  · rw [desk_refuseStranger h]
  · split
    · exact .refl
    · rename_i s _
      split
      · rw [refusePublish, desk_refuse h]
      · have accepted : (c.accept e s).desk = { c.desk with
            accepted := s, mode := .follower (s.clusterManager.getD e.sender) } := by
          have made : ∀ d : Coordinator, d.desk = { c.desk with
              accepted := s, mode := .follower (s.clusterManager.getD e.sender) } →
              (d.respond e { term := some s.term, version := some s.version }).desk =
                { c.desk with
                  accepted := s, mode := .follower (s.clusterManager.getD e.sender) } :=
            fun d hd => (desk_respond h).trans hd
          unfold accept
          dsimp only
          split
          · exact made _ (by simp [desk, record, persistAccepted, Event.shown])
          · rw [desk_beginFollowing]
            exact made _ (by simp [desk, record, persistAccepted, Event.shown])
        rw [accepted]
        exact .single (Chore.accept c.desk s _)

theorem desk_lateCommit (c : Coordinator) (e : Envelope) : (c.lateCommit e).desk = c.desk := by
  unfold lateCommit
  dsimp only
  split
  · exact (desk_request _ _ _ _).trans rfl
  · rfl

/-- An acknowledgement may be the one that decides a publication. -/
theorem onPublishResponse_chores (c : Coordinator) (e : Envelope) :
    Chores E I r c.desk (c.onPublishResponse E e).desk := by
  unfold onPublishResponse
  split
  · exact .refl
  · rename_i leads
    have leads := not_not.mp leads
    split
    · rename_i p hp
      have counted : ({ c with publishing := some p } : Coordinator).desk = c.desk := by
        unfold acknowledged at hp
        split at hp
        · rename_i q hq
          split at hp
          · obtain rfl := Option.some.inj hp
            simp [desk, hq]
          · exact absurd hp nofun
        · exact absurd hp nofun
      dsimp only
      rw [← counted]
      split
      · exact commitWith_chores (nextPublication_chores E.rounds) leads
      · rw [desk_lateCommit]
    · rw [desk_lateCommit]

/-- A commit puts a state in force. -/
theorem onCommitRequest_chores {c : Coordinator} {e : Envelope} (h : e.action.report = none) :
    Chores E I r c.desk (c.onCommitRequest E e).desk := by
  unfold onCommitRequest
  split
  · rw [desk_refuseStranger h]
  · dsimp only
    split
    · rw [desk_remark]
      refine ReflTransGen.head (Chore.adopt c.desk) ?_
      have adopted : ∀ d : Coordinator, d.desk = (c.applyCommitted c.accepted).desk →
          Chores E I r (c.desk.applyCommitted c.desk.accepted)
            ((d.respond e {}).applyShards E).desk := by
        intro d hd
        have same : (d.respond e {}).desk = c.desk.applyCommitted c.desk.accepted :=
          (desk_respond h).trans (hd.trans (desk_applyCommitted c c.accepted))
        rw [← same]
        exact (applyShards_notes _).chores
      exact adopted _ rfl
    · exact .refl

/-! ### Checks -/

theorem onFollowerCheckRequest_chores {c : Coordinator} {e : Envelope}
    (h : e.action.report = none) : Chores E I r c.desk (c.onFollowerCheckRequest E e).desk := by
  unfold onFollowerCheckRequest
  split
  · rw [desk_refuseStranger h]
  · dsimp only
    split
    · rw [desk_refuse h]
    · refine (sawTerm_chores (E := E) (e.body.term.getD 0) c).trans ?_
      generalize c.sawTerm E (e.body.term.getD 0) = d
      split
      · rename_i stood
        rw [desk_beginFollowing, desk_respond h]
        exact .single (Chore.follow d.desk e.sender stood)
      · split
        · rw [desk_respond h]
        · rw [desk_refuse h]
      · rw [desk_refuse h]

theorem desk_onFollowerCheckResponse (c : Coordinator) (e : Envelope) :
    (c.onFollowerCheckResponse e).desk = c.desk := by
  unfold onFollowerCheckResponse
  split
  · rfl
  · dsimp only
    split <;> rfl

theorem onFollowerCheckError_chores (c : Coordinator) (e : Envelope) :
    Chores E I r c.desk (c.onFollowerCheckError E e).desk := by
  have seen : ∀ d : Coordinator, d.desk = c.desk →
      Chores E I r c.desk (d.sawTermIn E e.body).desk := fun d hd => hd ▸ sawTermIn_chores d e.body
  unfold onFollowerCheckError
  dsimp only
  split
  · exact seen _ rfl
  · exact seen _ rfl

theorem desk_onLeaderCheckRequest {c : Coordinator} {e : Envelope} (h : e.action.report = none) :
    (c.onLeaderCheckRequest e).desk = c.desk := by
  unfold onLeaderCheckRequest
  split
  · exact desk_respond h
  · exact desk_refuse h

theorem desk_onLeaderCheckResponse (c : Coordinator) (e : Envelope) :
    (c.onLeaderCheckResponse e).desk = c.desk := by
  unfold onLeaderCheckResponse
  split <;> rfl

theorem onLeaderCheckError_chores (c : Coordinator) (e : Envelope) :
    Chores E I r c.desk (c.onLeaderCheckError E e).desk := by
  unfold onLeaderCheckError
  refine (sawTermIn_chores c e.body).trans ?_
  dsimp only
  split
  · exact becomeCandidate_chores _
  · exact .refl

/-! ### Reports, commands, departures -/

/-- A report that is answered at once leaves its answer on the desk. -/
theorem desk_respond_report {c : Coordinator} {e : Envelope} {b : Body} {kind : ReportKind}
    (h : e.action = kind.action) : (c.respond e b).desk = { c.desk with
      replies := c.desk.replies ++ [⟨e.sender, kind, e.requestId, true⟩] } := by
  simp [respond, send, emit, desk, Output.reply, Envelope.response, h]

/-- So does one that is refused. -/
theorem desk_refuse_report {c : Coordinator} {e : Envelope} {b : Body} {kind : ReportKind}
    (h : e.action = kind.action) : (c.refuse e b).desk = { c.desk with
      replies := c.desk.replies ++ [⟨e.sender, kind, e.requestId, false⟩] } := by
  simp [refuse, send, emit, desk, Output.reply, Envelope.error, h]

theorem refuse_chores {c : Coordinator} {e : Envelope} {b : Body} {kind : ReportKind}
    (got : I = some e) (h : e.action = kind.action) : Chores E I r c.desk (c.refuse e b).desk := by
  rw [desk_refuse_report h]
  exact .single (Chore.refuse c.desk e kind got)

/-- A report taken in waits for the publication its event goes into. -/
theorem takeReport_chores {c : Coordinator} {e : Envelope} {kind : ReportKind} {ev : ShardEvent}
    (got : I = some e) (leads : c.mode = .leader) (about : ev.About kind e) :
    Chores E I r c.desk (c.takeReport E kind e ev).desk := by
  unfold takeReport
  dsimp only
  exact ReflTransGen.head (Chore.take c.desk e kind ev got leads about)
    (nextPublication_chores (E := E) E.rounds { c with
      shardEvents := c.shardEvents ++ [ev]
      republishWanted := true
      eventReplies := c.eventReplies ++ [⟨notCarried, e.sender, kind, e.requestId⟩] })

/-- The id a report is about is the one it names, except where only a node is named. -/
theorem reportedId_eq (c : Coordinator) (kind : ReportKind) (e : Envelope) (index : String)
    (shard : Nat) : c.reportedId kind e index shard = e.body.allocationId.getD "" ∨
      kind = .failed ∧ e.body.nodeText.isSome = true := by
  unfold reportedId
  dsimp only
  split
  · rename_i failed
    cases node : e.body.nodeText with
    | none => exact Or.inl rfl
    | some n => exact Or.inr ⟨failed, rfl⟩
  · exact Or.inl rfl

/-- A report from a data node: refused, answered, or taken in to wait. -/
theorem onShardReport_chores {c : Coordinator} {e : Envelope} (kind : ReportKind)
    (got : I = some e) (h : e.action = kind.action) (hk : e.kind = .request) :
    Chores E I c.committed.routing c.desk (c.onShardReport E kind e).desk := by
  unfold onShardReport
  split
  · exact refuse_chores got h
  · rename_i leads
    have leads : c.mode = .leader := not_not.mp leads
    split
    · exact refuse_chores got h
    · dsimp only
      have id := reportedId_eq c kind e (e.body.index.getD "") (e.body.shard.getD 0 % 2 ^ 32)
      split
      · rename_i started
        split
        · exact takeReport_chores got leads ⟨hk, h, started.symm, rfl, rfl, id⟩
        · exact refuse_chores got h
      · rename_i late
        split
        · rename_i primary
          have answered := desk_respond_report (c := c) (b := {}) h
          refine ReflTransGen.head (Chore.outdated c.desk e kind
            (match kind with
              | .failed => .failed (e.body.index.getD "") (e.body.shard.getD 0 % 2 ^ 32)
                  (c.reportedId kind e (e.body.index.getD "") (e.body.shard.getD 0 % 2 ^ 32)) ""
              | _ => .stale (e.body.index.getD "") (e.body.shard.getD 0 % 2 ^ 32)
                  (c.reportedId kind e (e.body.index.getD "") (e.body.shard.getD 0 % 2 ^ 32)))
            got leads ?_ late ?_) ?_
          · cases kind with
            | started => exact absurd rfl late
            | failed => exact ⟨hk, h, rfl, rfl, rfl, id⟩
            | stale => exact ⟨hk, h, rfl, rfl, rfl, id⟩
          · cases kind with
            | started => exact absurd rfl late
            | failed => exact primary
            | stale => exact primary
          · rw [← answered]
            exact nextPublication_chores _ _
        · split
          · exact refuse_chores got h
          · split
            · rename_i stale
              exact takeReport_chores got leads ⟨hk, h, stale.symm, rfl, rfl, id⟩
            · rename_i other
              have failed : kind = .failed := by
                cases kind with
                | started => exact absurd rfl late
                | failed => rfl
                | stale => exact absurd rfl other
              exact takeReport_chores got leads ⟨hk, h, failed.symm, rfl, rfl, id⟩

theorem onMetadataReport_chores {c : Coordinator} {e : Envelope} (h : e.action.report = none) :
    Chores E I r c.desk (c.onMetadataReport E e).desk := by
  unfold onMetadataReport
  split
  · rw [desk_refuse h]
  · dsimp only
    exact next_chores _ ((desk_respond h).trans rfl)

/-- A REROUTE is carried out on what is published next. -/
theorem onReroute_chores {c : Coordinator} {e : Envelope} (got : I = some e)
    (action : e.action = .reroute) : Chores E I r c.desk (c.onReroute E e).desk := by
  have h : e.action.report = none := by rw [action]; rfl
  unfold onReroute
  split
  · rw [refuseNotManager, desk_refuse h]
  · rename_i leads
    have leads : c.mode = .leader := not_not.mp leads
    split
    · rw [desk_refuse h]
    · rename_i look _
      dsimp only
      split
      · rw [desk_refuse h]
      · rename_i w said applied
        generalize Allocation.reroute _ _ _ _ = after
        generalize hd : respond { c with drawn := after.drawn } e _ = d
        have answered : d.desk = c.desk := by
          rw [← hd]
          exact (desk_respond h).trans rfl
        split
        · rw [answered]
        · rename_i wet
          refine ReflTransGen.head (Chore.command c.desk e w.table got action leads
            (Bool.eq_false_iff.mpr wet) ⟨_, _, w, said, applied, rfl⟩) ?_
          rw [← answered]
          exact nextPublication_chores (E := E) E.rounds
            { d with commandTable := some w.table, republishWanted := true }

theorem onLeave_chores {c : Coordinator} {e : Envelope} (h : e.action.report = none) :
    Chores E I r c.desk (c.onLeave E e).desk := by
  unfold onLeave
  split
  · exact next_chores _ ((desk_respond h).trans rfl)
  · exact .refl

/-! ## `handle` -/

/-- **Every message is chores**: whatever arrives, the desk changes in one of the ways `Chores`
lists. -/
theorem onMessage_chores (c : Coordinator) (e : Envelope) :
    Chores E (some e) c.committed.routing c.desk (c.onMessage E e).desk := by
  have other : ∀ {a : Action}, e.action = a → a ≠ .reroute →
      ∀ x, some e = some x → x.action ≠ .reroute := by
    rintro a rfl ha x hx
    rwa [← Option.some.inj hx]
  unfold onMessage
  split <;> rename_i ha hk
  · rw [desk_onPeersRequest (by rw [ha]; rfl)]
  · rw [desk_onPeersResponse]
  · rw [desk_onPreVoteRequest (by rw [ha]; rfl)]
  · exact onPreVoteResponse_chores _ _ (other ha nofun)
  · rw [desk_onPreVoteError]
  · exact onStartJoinRequest_chores (by rw [ha]; rfl) (other ha nofun)
  · exact onJoin_chores _ _ _ (other ha nofun)
  · exact onJoinError_chores _ _
  · exact onJoinResponse_chores _ _
  · exact onPublishRequest_chores (by rw [ha]; rfl)
  · exact onPublishResponse_chores _ _
  · exact sawTermIn_chores c e.body
  · exact onCommitRequest_chores (by rw [ha]; rfl)
  · exact onFollowerCheckRequest_chores (by rw [ha]; rfl)
  · rw [desk_onFollowerCheckResponse]
  · exact onFollowerCheckError_chores _ _
  · rw [desk_onLeaderCheckRequest (by rw [ha]; rfl)]
  · rw [desk_onLeaderCheckResponse]
  · exact onLeaderCheckError_chores _ _
  · exact onShardReport_chores .started rfl ha hk
  · exact onShardReport_chores .failed rfl ha hk
  · exact onShardReport_chores .stale rfl ha hk
  · exact onMetadataReport_chores (by rw [ha]; rfl)
  · exact onReroute_chores rfl ha
  · exact onLeave_chores (by rw [ha]; rfl)
  · exact .refl

theorem onElectionTimer_chores (c : Coordinator) (other : ∀ e, I = some e → e.action ≠ .reroute) :
    Chores E I r c.desk (c.onElectionTimer E).desk := by
  have calendar : ∀ d : Coordinator, Chores E I r c.desk d.desk → Chores E I r c.desk
      (if d.mode = Mode.candidate then d.scheduleElection else d).desk := by
    intro d hd
    split
    · rwa [desk_scheduleElection]
    · exact hd
  unfold onElectionTimer
  dsimp only
  split
  · exact .refl
  · apply calendar
    have joined : ({ c with electionScheduled := false }.joinHint E).desk = c.desk :=
      (desk_joinHint _).trans rfl
    generalize ({ c with electionScheduled := false } : Coordinator).joinHint E = d at joined ⊢
    rw [← joined]
    split
    · exact .refl
    · split
      · rw [← desk_prevote d]
        exact startElection_chores _ other
      · rw [desk_prevote]

/-- A publication that takes too long is given up, and its answers with it. -/
theorem onPublishTimer_chores (c : Coordinator) :
    Chores E I r c.desk (c.onPublishTimer E).desk := by
  unfold onPublishTimer
  split
  · rename_i p _
    split
    · rw [← desk_remark c (.publicationTimedOut p.state.version)]
      exact becomeCandidate_chores _
    · exact .refl
  · exact .refl

theorem desk_missed (c : Coordinator) (n : NodeId) : (c.missed n).desk = c.desk := by
  unfold missed
  dsimp only
  split
  · exact (desk_remark _ _).trans rfl
  · rfl

theorem desk_checkFollower (c : Coordinator) (n : NodeId) : (c.checkFollower n).desk = c.desk := by
  unfold checkFollower
  split
  · rfl
  · exact (desk_send (request_reply _ _ _ _ _)).trans rfl

theorem onFollowerCheckTimer_chores (c : Coordinator) :
    Chores E I r c.desk (c.onFollowerCheckTimer E).desk := by
  unfold onFollowerCheckTimer
  split
  · exact .refl
  · dsimp only
    rw [desk_timer, desk_foldl desk_checkFollower]
    exact next_chores _ (desk_foldl desk_missed _ _)

theorem onMetadataTimer_chores (c : Coordinator) :
    Chores E I r c.desk (c.onMetadataTimer E).desk := by
  have noticed : ∀ d : Coordinator, d.desk = c.desk → Chores E I r c.desk
      ((if d.republishWanted && d.publishing.isNone then
        d.remark .metadataChanged else d).nextPublication E E.rounds).desk := by
    intro d hd
    refine next_chores _ ?_
    split
    · rw [desk_remark, hd]
    · exact hd
  unfold onMetadataTimer
  rw [desk_pollMetadata]
  split
  · dsimp only
    split
    · exact noticed _ rfl
    · exact noticed c rfl
  · rw [desk_reportMetadata]

theorem onAllocateTimer_chores (c : Coordinator) :
    Chores E I r c.desk (c.onAllocateTimer E).desk := by
  unfold onAllocateTimer
  split
  · exact .refl
  · exact next_chores _ rfl

theorem onLeaderCheckTimer_chores (c : Coordinator) :
    Chores E I r c.desk (c.onLeaderCheckTimer E).desk := by
  unfold onLeaderCheckTimer
  split
  · rename_i leader _
    dsimp only
    generalize (if c.leaderCheckOutstanding.isSome then (c.leaderMisses + 1) % 2 ^ 32
      else c.leaderMisses) = misses
    split
    · have missed : ({ c with leaderMisses := misses }.remark (.lostManager leader)).desk =
          c.desk := (desk_remark _ _).trans rfl
      rw [← missed]
      exact becomeCandidate_chores _
    · rw [desk_timer, desk_send (request_reply _ _ _ _ _)]
      exact .refl
  · exact .refl

/-- **So is every timer.** -/
theorem onTimer_chores (c : Coordinator) (id : TimerId) :
    Chores E none r c.desk (c.onTimer E id).desk := by
  unfold onTimer
  split
  · unfold onDiscoverTimer
    rw [desk_discover]
    exact bootstrap_chores { c with leaderHint := none }
  · exact onElectionTimer_chores c fun _ none => nomatch none
  · exact onPublishTimer_chores c
  · exact onFollowerCheckTimer_chores c
  · exact onMetadataTimer_chores c
  · exact onAllocateTimer_chores c
  · exact onLeaderCheckTimer_chores c
  · exact .refl

/-- A copy that finished, or failed to, is reported. -/
theorem onShardDone_chores (c : Coordinator) (id : String) (result : Except String Unit) :
    Chores E I r c.desk (c.onShardDone E id result).desk := by
  have told : ∀ (d : Coordinator) (ev : ShardEvent), d.desk = c.desk →
      Chores E I r c.desk ((d.report ev).nextPublication E E.rounds).desk := by
    intro d ev hd
    rw [← hd]
    exact (report_notes d ev).chores.trans (nextPublication_chores _ _)
  unfold onShardDone
  split
  · exact .refl
  · rename_i index shard _
    cases result with
    | ok _ => exact told _ _ rfl
    | error message => exact told _ _ ((desk_remark c (.shardFailedHere index shard message)).symm ▸ rfl)

/-- A desk at the beginning of an input: nothing answered or shown yet. -/
def cleared (c : Coordinator) : Desk := { c.desk with replies := [], marks := [] }

/-- **Whatever is handled comes down to chores.** The start is apart: it looks at the
disk first. -/
theorem handle_chores (c : Coordinator) {input : Input} (running : input ≠ .start) :
    Chores E input.envelope c.committed.routing c.cleared (c.handle E input).desk := by
  have begun : (c.clear E.wall).desk = c.cleared := rfl
  rw [← begun]
  cases input with
  | start => exact absurd rfl running
  | message e => exact onMessage_chores (c.clear E.wall) e
  | timer id => exact onTimer_chores (c.clear E.wall) id
  | peer node =>
    rw [← desk_learn (c.clear E.wall) node]
    exact bootstrap_chores _
  | shardDone id result => exact onShardDone_chores (c.clear E.wall) id result

/-- A node that starts has an empty desk. -/
theorem desk_start (c : Coordinator) : ∃ committed accepted, (c.handle E .start).desk =
    { c.cleared.stepDown with committed := committed, accepted := accepted } := by
  have booted : ∀ d : Coordinator, ∃ committed accepted, d.bootstrap.desk =
      { d.desk with committed := committed, accepted := accepted } := by
    intro d
    unfold bootstrap
    split
    · exact ⟨d.committed, d.accepted, rfl⟩
    · split
      · exact ⟨d.committed, d.accepted, rfl⟩
      · split
        · exact ⟨d.committed, d.accepted, rfl⟩
        · dsimp only
          rw [desk_remark]
          exact ⟨_, _, rfl⟩
  have learned : ((c.clear E.wall).restore.accepted.nodes.values.foldl learn
      (c.clear E.wall).restore).desk = (c.clear E.wall).restore.desk := desk_foldl desk_learn _ _
  obtain ⟨committed, accepted, heq⟩ := booted ((c.clear E.wall).restore.accepted.nodes.values.foldl
    learn (c.clear E.wall).restore)
  refine ⟨committed, accepted, ?_⟩
  show (((c.clear E.wall).restore.accepted.nodes.values.foldl learn
    (c.clear E.wall).restore).bootstrap.becomeCandidate E |>.pollMetadata E).desk = _
  rw [desk_pollMetadata, desk_becomeCandidate, heq, learned]
  rfl

end Coordinator

end Velosearch.Cluster

import Velosearch.Cluster.Coordinator.Lives

/-!
# What a stranger can do

`on_message` refuses requests of nodes this one does not know, arm by arm. The arms
without the guard are the rest of this file's subject: errors and responses, which
are taken from anyone, the requests that make a manager publish, and discovery and
joining, where a stranger is meant to be heard.

**`stranger_disturbs_iff`** says exactly what a stranger's message moves, over every
life of the node: `Disturbs` is the list. A stranger's answer to a publication is not
on it, though it is counted: a publication in flight never has its quorum already
(`Waits`), and a stranger is in none of the configurations its quorum is sought in
(`Votes`).
-/

set_option autoImplicit false

namespace Velosearch.Cluster

open Coordinator

/-! ## A publication in flight waits for a quorum

A manager that has the quorum commits before it is done with the input. No act says
so, since committing is an act of its own; it is said here function by function. -/

namespace Coordinator

variable {E : Env} {c d : Coordinator}

/-- A leader's publication still waits for its quorum. -/
def Waits (c : Coordinator) : Prop :=
  c.mode = .leader → ∀ p ∈ c.publishing, electionQuorum p.state p.acked = false

theorem Waits.of_eq (h : c.Waits) (mode : d.mode = c.mode)
    (publishing : d.publishing = c.publishing) : d.Waits := by
  unfold Waits
  rw [mode, publishing]
  exact h

theorem Waits.of_view (h : c.Waits) (view : d.view = c.view) : d.Waits :=
  h.of_eq (congrArg (·.core.mode) view) (congrArg (·.core.publishing) view)

theorem waits_of_mode (h : c.mode ≠ .leader) : c.Waits := fun hl => absurd hl h

theorem waits_of_idle (h : c.publishing = none) : c.Waits := by
  intro _ p hp
  rw [h] at hp
  exact absurd hp (by simp)

/-- Committing leaves no publication that has its quorum, if what comes after leaves none. -/
theorem commitWith_waits {next : Coordinator → Coordinator}
    (hnext : ∀ d : Coordinator, d.Waits → (next d).Waits) {p : Publication}
    (inFlight : c.publishing = some p) : (commitWith E next c).Waits := by
  unfold commitWith
  rw [inFlight]
  dsimp only
  refine hnext _ (waits_of_idle ?_)
  obtain ⟨dests, rid, hview⟩ := view_announceCommit c p
  have hcore : ∀ e : Coordinator, (((((c.announceCommit p).applyCommitted p.state).applyShards
      E).answerReplies).remark (.committed p.state.term p.state.version p.state.nodes.size
        p.state.lastAcceptedConfig.length)).view = e.view → e.publishing = none := by
    intro e he
    rw [view_remark, view_answerReplies, view_applyShards, view_applyCommitted, hview] at he
    obtain ⟨_, _, _, _, _, h⟩ := (c.view.announce p dests rid).applyCommitted_frame p.state
    have := (congrArg View.core he).symm.trans h
    exact congrArg Core.publishing this
  exact hcore _ rfl

/-- Neither does publishing, which commits at once what needs no other vote. -/
theorem publishWith_waits {next : Coordinator → Coordinator}
    (hnext : ∀ d : Coordinator, d.Waits → (next d).Waits) (base s : ClusterState) :
    (publishWith E next base s c).Waits := by
  unfold publishWith
  dsimp only
  have hcore := launch_core base (c.stamp s) c
  have inFlight : (c.launch base (c.stamp s)).publishing = some ⟨c.stamp s, c.rid.nextRequest,
      (c.publishSeq + 1) % 2 ^ 64, (∅ : BTreeSet NodeId).insert c.me.id⟩ := by
    rw [hcore]
    rfl
  split
  · exact commitWith_waits hnext inFlight
  · rename_i short
    intro _ p hp
    rw [inFlight] at hp
    obtain rfl := Option.some.inj hp
    have hme : (c.launch base (c.stamp s)).me = c.me := by rw [hcore]; rfl
    rw [hme] at short
    exact Bool.eq_false_iff.mpr short

/-- Both together, by induction on their fuel. -/
theorem nextPublication_waits (n : Nat) (h : c.Waits) : (nextPublication E n c).Waits := by
  induction n generalizing c with
  | zero => exact h
  | succ n ih =>
    unfold nextPublication nextWith
    split
    · exact h
    · dsimp only
      split
      · exact h.of_view rfl
      · exact publishWith_waits (fun d hd => ih hd) _ _

/-- A new leader's publication waits, or is decided. -/
theorem becomeLeader_waits : (c.becomeLeader E).Waits := by
  unfold becomeLeader
  dsimp only
  have := publishWith_waits (E := E) (c := ((c.takeLead E).place E (c.firstState E)).1)
    (fun d hd => nextPublication_waits (E := E) E.rounds hd) c.accepted
    ((c.takeLead E).place E (c.firstState E)).2
  split
  · exact this.of_view (by rw [view_timer, view_timer]; rfl)
  · exact this.of_view (by rw [view_timer]; rfl)

theorem sawTerm_waits (t : Nat) (h : c.Waits) : (c.sawTerm E t).Waits := by
  have hview := view_sawTerm E t c
  split at hview
  · exact h.of_view hview
  · have : (c.sawTerm E t).mode = .candidate := congrArg (·.core.mode) hview
    exact waits_of_mode (by rw [this]; exact nofun)

theorem onJoin_waits (body : Body) (sender : NodeId) (h : c.Waits) :
    (c.onJoin E body sender).Waits := by
  unfold onJoin
  dsimp only
  split
  · exact h.of_view (view_noteHeld _ _)
  · rename_i node _
    have hd : (((c.noteHeld body).sawTerm E (body.term.getD 0)).learn node).Waits :=
      (sawTerm_waits _ (h.of_view (view_noteHeld c body))).of_view (view_learn _ _)
    generalize ((c.noteHeld body).sawTerm E (body.term.getD 0)).learn node = d at hd ⊢
    split
    · unfold behind
      split
      · exact hd.of_eq rfl rfl
      · exact hd.of_view (view_joinError _ _ _)
    · split
      · exact hd.of_view (view_joinError _ _ _)
      · split
        · split
          · unfold countVote
            dsimp only
            split
            · exact becomeLeader_waits
            · exact hd.of_eq rfl rfl
          · exact hd
        · unfold welcome
          split
          · exact hd
          · dsimp only
            split
            · exact hd.of_eq rfl rfl
            · exact nextPublication_waits _ (hd.of_eq rfl rfl)
        · exact hd.of_view (view_joinError _ _ _)

theorem onStartJoin_waits (t : Nat) (sender : NodeId) (h : c.Waits) :
    (c.onStartJoin E t sender).Waits := by
  unfold onStartJoin
  split
  · exact h
  · have hd := (sawTerm_waits (E := E) t h)
    dsimp only
    split
    · exact onJoin_waits _ _ (hd.of_eq rfl rfl)
    · exact hd.of_eq rfl rfl

theorem startElection_waits (h : c.Waits) : (c.startElection E).Waits := by
  unfold startElection
  dsimp only
  apply onStartJoin_waits
  obtain ⟨msgs, hview, _⟩ := foldl_startJoin_view c.electionTerm
    ({ c with prevoteRid := 0, prevotes := ∅ }.remark (.election c.electionTerm)).everyone.toList
    ({ c with prevoteRid := 0, prevotes := ∅ }.remark (.election c.electionTerm))
  have hb := view_remark { c with prevoteRid := 0, prevotes := ∅ } (.election c.electionTerm)
  exact h.of_eq ((congrArg (·.core.mode) hview).trans (congrArg (·.core.mode) hb))
    ((congrArg (·.core.publishing) hview).trans (congrArg (·.core.publishing) hb))

theorem becomeCandidate_waits : (c.becomeCandidate E).Waits := by
  have : (c.becomeCandidate E).mode = .candidate :=
    congrArg (·.core.mode) (view_becomeCandidate E c)
  exact waits_of_mode (by rw [this]; exact nofun)

theorem sawTermIn_waits (b : Body) (h : c.Waits) : (c.sawTermIn E b).Waits := by
  unfold sawTermIn
  split
  · exact sawTerm_waits _ h
  · exact h

theorem lateCommit_waits (e : Envelope) (h : c.Waits) : (c.lateCommit e).Waits := by
  unfold lateCommit
  dsimp only
  split
  · exact h.of_eq rfl rfl
  · exact h

theorem applyCommitted_waits (s : ClusterState) (h : c.Waits) : (c.applyCommitted s).Waits := by
  have hview := view_applyCommitted c s
  obtain ⟨_, _, _, _, _, hcore⟩ := c.view.applyCommitted_frame s
  have this : (c.applyCommitted s).toCore = _ := (congrArg View.core hview).trans hcore
  exact h.of_eq (by rw [this]; rfl) (by rw [this]; rfl)

/-- An acknowledgement that makes the quorum decides. -/
theorem onPublishResponse_waits (e : Envelope) (h : c.Waits) :
    (c.onPublishResponse E e).Waits := by
  unfold onPublishResponse
  split
  · exact h
  · split
    · rename_i p _
      dsimp only
      split
      · exact commitWith_waits (c := { c with publishing := some p })
          (fun d hd => nextPublication_waits E.rounds hd) rfl
      · rename_i short
        refine lateCommit_waits e ?_
        intro _ q hq
        obtain rfl := Option.some.inj hq
        exact Bool.eq_false_iff.mpr short
    · exact lateCommit_waits e h

theorem onFollowerCheckRequest_waits (e : Envelope) (h : c.Waits) :
    (c.onFollowerCheckRequest E e).Waits := by
  unfold onFollowerCheckRequest
  split
  · exact h.of_eq rfl rfl
  · dsimp only
    split
    · exact h.of_eq rfl rfl
    · have hd := sawTerm_waits (E := E) (e.body.term.getD 0) h
      split
      · exact waits_of_mode nofun
      · split <;> exact hd.of_eq rfl rfl
      · exact hd.of_eq rfl rfl

theorem onShardReport_waits (kind : ReportKind) (e : Envelope) (h : c.Waits) :
    (c.onShardReport E kind e).Waits := by
  have took : ∀ ev, (c.takeReport E kind e ev).Waits := fun ev =>
    nextPublication_waits _ (h.of_eq rfl rfl)
  unfold onShardReport
  split
  · exact h.of_eq rfl rfl
  · split
    · exact h.of_eq rfl rfl
    · dsimp only
      split
      · split
        · exact took _
        · exact h.of_eq rfl rfl
      · split
        · exact nextPublication_waits _ (h.of_eq rfl rfl)
        · split
          · exact h.of_eq rfl rfl
          · split <;> exact took _

theorem onReroute_waits (e : Envelope) (h : c.Waits) : (c.onReroute E e).Waits := by
  unfold onReroute
  split
  · exact h.of_eq rfl rfl
  · split
    · exact h.of_eq rfl rfl
    · dsimp only
      split
      · exact h.of_eq rfl rfl
      · generalize Allocation.reroute _ _ _ _ = after
        split
        · exact h.of_eq rfl rfl
        · exact nextPublication_waits _ (h.of_eq rfl rfl)

theorem foldl_learn_waits (l : List DiscoveryNode) (h : c.Waits) : (l.foldl learn c).Waits :=
  h.of_view (view_foldl view_learn _ _)

theorem followHint_waits (l : Option String) (h : c.Waits) : (c.followHint E l).Waits := by
  unfold followHint
  split
  · split
    · exact h.of_eq rfl rfl
    · exact h
  · exact h

theorem onPreVoteError_waits (e : Envelope) (h : c.Waits) : (c.onPreVoteError E e).Waits := by
  unfold onPreVoteError
  cases e.body.term <;> dsimp only <;> split
  · split
    · exact h.of_eq rfl rfl
    · exact h
  · exact h
  · split
    · exact h.of_eq rfl rfl
    · exact h.of_eq rfl rfl
  · exact h.of_eq rfl rfl

theorem onJoinError_waits (e : Envelope) (h : c.Waits) : (c.onJoinError E e).Waits := by
  unfold onJoinError
  have hd := sawTermIn_waits (E := E) e.body h
  generalize c.sawTermIn E e.body = d at hd ⊢
  have forget : (if d.leaderHint = some e.sender then { d with leaderHint := none }
      else d : Coordinator).Waits := by
    split
    · exact hd.of_eq rfl rfl
    · exact hd
  dsimp only
  split
  · split
    · exact forget
    · split
      · exact hd.of_eq rfl rfl
      · exact hd
  · exact forget

theorem onFollowerCheckError_waits (e : Envelope) (h : c.Waits) :
    (c.onFollowerCheckError E e).Waits := by
  unfold onFollowerCheckError
  apply sawTermIn_waits
  dsimp only
  split <;> exact h.of_eq rfl rfl

/-- No message leaves a publication undecided that has its quorum. -/
theorem onMessage_waits (e : Envelope) (h : c.Waits) : (c.onMessage E e).Waits := by
  unfold onMessage
  split <;> rename_i ha hk
  · exact h.of_view (onPeersRequest_view ha)
  · exact followHint_waits _ (foldl_learn_waits _ h)
  · exact h.of_view (onPreVoteRequest_view ha)
  · unfold onPreVoteResponse
    split
    · exact h
    · dsimp only
      split
      · exact h.of_eq rfl rfl
      · split
        · exact startElection_waits (h.of_eq rfl rfl)
        · exact h.of_eq rfl rfl
  · exact onPreVoteError_waits e h
  · unfold onStartJoinRequest
    split
    · exact h.of_eq rfl rfl
    · exact onStartJoin_waits _ _ (h.of_eq rfl rfl)
  · exact onJoin_waits _ _ h
  · exact onJoinError_waits e h
  · unfold onJoinResponse
    split
    · split
      · refine waits_of_mode ?_
        have hcore : ∀ d : Coordinator, d.mode = .follower e.sender →
            (d.applyShards E).mode = .follower e.sender ∧
            (d.applyShards E).beginFollowing.mode = .follower e.sender := fun d hd =>
          ⟨(congrArg (·.core.mode) (view_applyShards E d)).trans hd,
            (congrArg (·.core.mode) (view_applyShards E d)).trans hd⟩
        dsimp only
        split
        · rw [(hcore _ rfl).2]; exact nofun
        · rw [(hcore _ rfl).1]; exact nofun
      · exact h
    · exact h
  · unfold onPublishRequest
    split
    · exact h.of_eq rfl rfl
    · split
      · exact h
      · rename_i s _
        split
        · exact h.of_eq rfl rfl
        · have hmode := congrArg (·.core.mode) (accept_view (c := c) (s := s)
            (I := some e) ⟨rfl, ha, hk⟩)
          refine waits_of_mode fun hl => ?_
          have : Mode.follower (s.clusterManager.getD e.sender) = .leader := hmode.symm.trans hl
          exact absurd this nofun
  · exact onPublishResponse_waits e h
  · exact (sawTermIn_waits _ h).of_eq rfl rfl
  · unfold onCommitRequest
    split
    · exact h.of_eq rfl rfl
    · dsimp only
      split
      · have answered : (({ c.applyCommitted c.accepted with
            lastLeaderOk := c.lastWall } : Coordinator).respond e {}).Waits :=
          (applyCommitted_waits c.accepted h).of_eq rfl rfl
        exact answered.of_view ((view_remark _ _).trans (view_applyShards E _))
      · exact h
  · exact onFollowerCheckRequest_waits e h
  · exact h.of_view (onFollowerCheckResponse_view _ _)
  · exact onFollowerCheckError_waits e h
  · exact h.of_view (onLeaderCheckRequest_view ha)
  · exact h.of_view (onLeaderCheckResponse_view _ _)
  · unfold onLeaderCheckError
    dsimp only
    split
    · exact becomeCandidate_waits
    · exact sawTermIn_waits _ h
  · exact onShardReport_waits _ e h
  · exact onShardReport_waits _ e h
  · exact onShardReport_waits _ e h
  · unfold onMetadataReport
    split
    · exact h.of_eq rfl rfl
    · exact nextPublication_waits _ (h.of_eq rfl rfl)
  · exact onReroute_waits e h
  · unfold onLeave
    split
    · exact nextPublication_waits _ (h.of_eq rfl rfl)
    · exact h
  · exact h

theorem bootstrap_waits (h : c.Waits) : c.bootstrap.Waits := by
  rcases view_bootstrap c with hview | ⟨_, _, config, hview⟩
  · exact h.of_view hview
  · exact h.of_eq (congrArg (·.core.mode) hview) (congrArg (·.core.publishing) hview)

/-- No timer does. -/
theorem onTimer_waits (id : TimerId) (h : c.Waits) : (c.onTimer E id).Waits := by
  unfold onTimer
  split
  · unfold onDiscoverTimer
    have hb := bootstrap_waits (c := { c with leaderHint := none }) (h.of_eq rfl rfl)
    exact hb.of_view (view_discover E (bootstrap_leaderHint rfl))
  · unfold onElectionTimer
    dsimp only
    split
    · exact h.of_eq rfl rfl
    · have calendar : ∀ d : Coordinator, d.Waits →
          (if d.mode = Mode.candidate then d.scheduleElection else d).Waits := by
        intro d hd
        split
        · exact hd.of_view (view_scheduleElection d)
        · exact hd
      apply calendar
      have hj : ({ c with electionScheduled := false }.joinHint E).Waits := by
        unfold joinHint
        split <;> exact h.of_eq rfl rfl
      split
      · exact hj
      · split
        · exact startElection_waits (hj.of_view (view_prevote _))
        · exact hj.of_view (view_prevote _)
  · unfold onPublishTimer
    split
    · split
      · exact becomeCandidate_waits
      · exact h
    · exact h
  · unfold onFollowerCheckTimer
    split
    · exact h
    · dsimp only
      refine Waits.of_view (nextPublication_waits (E := E) E.rounds (c := c.pendingChecks.values.foldl
        missed { c with pendingChecks := ∅ }) ?_) ?_
      · exact Waits.of_view (c := { c with pendingChecks := ∅ }) (h.of_eq rfl rfl)
          (view_foldl view_missed _ _)
      · rw [view_timer, view_foldl view_checkFollower]
  · unfold onMetadataTimer
    refine Waits.of_view ?_ (view_pollMetadata _)
    have noticed : ∀ d : Coordinator, d.Waits → ((if d.republishWanted && d.publishing.isNone then
        d.remark .metadataChanged else d).nextPublication E E.rounds).Waits := by
      intro d hd
      apply nextPublication_waits
      split
      · exact hd.of_view (view_remark _ _)
      · exact hd
    split
    · dsimp only
      split
      · exact noticed _ (h.of_eq rfl rfl)
      · exact noticed c h
    · exact h.of_view (view_reportMetadata E c)
  · unfold onAllocateTimer
    split
    · exact h
    · exact nextPublication_waits _ (h.of_eq rfl rfl)
  · unfold onLeaderCheckTimer
    split
    · dsimp only
      generalize (if c.leaderCheckOutstanding.isSome then (c.leaderMisses + 1) % 2 ^ 32
        else c.leaderMisses) = misses
      split
      · exact becomeCandidate_waits
      · exact h.of_eq rfl rfl
    · exact h
  · exact h

/-- Nothing a node is handed does. -/
theorem handle_waits (input : Input) (h : c.Waits) : (c.handle E input).Waits := by
  have hc : (c.clear E.wall).Waits := h.of_eq rfl rfl
  unfold handle
  cases input with
  | start =>
    change (onStart E (c.clear E.wall)).Waits
    unfold onStart
    exact becomeCandidate_waits.of_view (view_pollMetadata _)
  | message e => exact onMessage_waits e hc
  | timer id => exact onTimer_waits id hc
  | peer node => exact bootstrap_waits (hc.of_view (view_learn _ _))
  | shardDone id result =>
    change (onShardDone E (c.clear E.wall) id result).Waits
    unfold onShardDone
    split
    · exact hc
    · apply nextPublication_waits
      split
      · exact Waits.of_view (c := { c.clear E.wall with startedHere := _ })
          (hc.of_eq rfl rfl) (view_report _ _)
      · refine Waits.of_view (c := { (c.clear E.wall).remark _ with
          reported := _, startedHere := _ }) ?_ (view_report _ _)
        exact (hc.of_view (view_remark _ _)).of_eq rfl rfl

end Coordinator

/-! ## Its quorum is sought among nodes that are known -/

/-- The voters of a publication are those of the accepted state, or there are none in
one of its configurations and it will have no quorum. -/
def Votes (s accepted : ClusterState) : Prop :=
  (s.lastAcceptedConfig = accepted.lastAcceptedConfig ∧
    s.lastCommittedConfig = accepted.lastCommittedConfig) ∨
  s.lastAcceptedConfig = [] ∨ s.lastCommittedConfig = []

/-- What a leader publishes is voted on as what it accepted is. -/
def Core.Seeks (k : Core) : Prop :=
  k.mode = .leader → ∀ p ∈ k.publishing, Votes p.state k.accepted

/-- An act leaves what is published on the configurations of what was accepted. -/
theorem Act.seeks {M O : Prop} {I : Option Envelope} {v v' : View}
    (act : Act M O I v v') (h : v.core.Seeks) : v'.core.Seeks := by
  have here : ∀ {k : Core} {s : ClusterState} {rid seq : Nat} {acked : BTreeSet NodeId},
      k.accepted = s → k.publishing = some ⟨s, rid, seq, acked⟩ → k.Seeks := by
    rintro k s rid seq acked rfl hk _ p hp
    rw [hk] at hp
    obtain rfl := Option.some.inj hp
    exact Or.inl ⟨rfl, rfl⟩
  have idle : ∀ {k : Core}, k.publishing = none → k.Seeks := by
    intro k hk _ p hp
    rw [hk] at hp
    exact absurd hp (by simp)
  cases act with
  | term | vote | candidacy | stepDown | follow | accept => exact fun hl => absurd hl nofun
  | count node vote => exact fun hl => absurd (vote.candidate.symm.trans hl) nofun
  | lead => exact here rfl rfl
  | next => exact here rfl rfl
  | ack e p got leads inFlight =>
    rintro _ q hq
    obtain rfl := Option.some.inj hq
    exact h leads p inFlight
  | decide p dests rid =>
    obtain ⟨_, _, _, _, _, hcore⟩ := (v.announce p dests rid).applyCommitted_frame p.state
    refine idle ?_
    unfold View.decide
    rw [hcore]
    rfl
  | commit =>
    rcases applyCommitted_cases v v.core.accepted with ⟨_, hv⟩ | ⟨_, _, hv⟩ | ⟨_, ha, _⟩
    · rw [hv]
      exact h
    · rw [hv]
      exact h
    · exact absurd ha (lt_irrefl _)
  | joined => exact fun hl => absurd hl nofun
  | boot config named blank =>
    intro hl p hp
    rcases h hl p hp with ⟨ha, _⟩ | hnone
    · exact Or.inr (Or.inl (ha.trans blank))
    · exact Or.inr hnone
  | _ => exact h

theorem Moves.seeks {M O : Prop} {I : Option Envelope} {v v' : View}
    (moves : Moves M O I v v') (h : v.core.Seeks) : v'.core.Seeks := by
  induction moves with
  | refl => exact h
  | tail _ act ih => exact act.seeks ih

theorem meets_waits {c : Coordinator} (h : Happening) (waits : c.Waits)
    (seeks : c.toCore.Seeks) :
    (Life.meets c h).Waits ∧ (Life.meets c h).toCore.Seeks := by
  refine ⟨?_, ?_⟩
  · cases h with
    | input E i => exact handle_waits i waits
    | restart E g uuid => exact handle_waits _ (waits_of_idle rfl)
  · rcases meets_moves c h with ⟨_, moves⟩ | ⟨d, _, moves⟩
    · exact moves.seeks seeks
    · exact moves.seeks fun hl => absurd hl nofun

/-- Nor does anything in a life. -/
theorem run_waits (l : Life) (hs : List Happening) (waits : l.now.Waits)
    (seeks : l.now.toCore.Seeks) :
    (l.run hs).now.Waits ∧ (l.run hs).now.toCore.Seeks := by
  induction hs generalizing l with
  | nil => exact ⟨waits, seeks⟩
  | cons h hs ih =>
    obtain ⟨waits', seeks'⟩ := meets_waits h waits seeks
    exact ih (l.step h) waits' seeks'

/-- A vote from outside a configuration is no vote in it. -/
theorem hasQuorum_insert {config : List NodeId} {V : BTreeSet NodeId} {x : NodeId}
    (h : x ∉ config) : hasQuorum config (V.insert x) = hasQuorum config V := by
  have : config.countP (fun n => (V.insert x).contains n) = config.countP V.contains := by
    refine List.countP_congr fun n hn => ?_
    have hne : x ≠ n := fun heq => h (heq ▸ hn)
    simp [Std.ExtTreeSet.contains_insert, hne]
  unfold hasQuorum
  rw [this]

/-- Who has a vote is one of those a node asks. -/
theorem mem_everyone {c : Coordinator} {x : NodeId} (other : x ≠ c.me.id)
    (h : x ∈ c.accepted.lastCommittedConfig ∨ x ∈ c.accepted.lastAcceptedConfig) :
    c.everyone.contains x = true := by
  unfold everyone
  rw [Std.ExtTreeSet.contains_erase, Std.ExtTreeSet.contains_ofList]
  have hne : ¬ c.me.id = x := fun heq => other heq.symm
  rcases h with h | h <;> simp [hne, h]

/-- Who is not known has no vote. -/
theorem not_voter {c : Coordinator} {x : NodeId} (h : c.knows x = false) :
    x ∉ c.accepted.lastCommittedConfig ∧ x ∉ c.accepted.lastAcceptedConfig := by
  unfold knows at h
  rw [Bool.or_eq_false_iff, beq_eq_false_iff_ne] at h
  obtain ⟨other, unknown⟩ := h
  refine ⟨fun hx => ?_, fun hx => ?_⟩
  · rw [mem_everyone other (Or.inl hx)] at unknown
    exact absurd unknown nofun
  · rw [mem_everyone other (Or.inr hx)] at unknown
    exact absurd unknown nofun

/-- A stranger's acknowledgement does not decide. -/
theorem stranger_no_quorum {c : Coordinator} (waits : c.Waits) (seeks : c.toCore.Seeks)
    {x : NodeId} (stranger : c.knows x = false) (leads : c.mode = .leader) {p : Publication}
    (inFlight : c.publishing = some p) :
    electionQuorum p.state (p.acked.insert x) = false := by
  obtain ⟨hc, ha⟩ := not_voter stranger
  rcases seeks leads p inFlight with ⟨hacc, hcom⟩ | hnone | hnone
  · unfold electionQuorum
    rw [hasQuorum_insert (by rw [hcom]; exact hc), hasQuorum_insert (by rw [hacc]; exact ha)]
    exact waits leads p inFlight
  · simp [electionQuorum, hasQuorum, hnone]
  · simp [electionQuorum, hasQuorum, hnone]

/-! ## What a stranger moves -/

namespace Coordinator

variable {E : Env} {c d : Coordinator} {e : Envelope}

/-- What a stranger is not to touch. -/
structure Unchanged (c d : Coordinator) : Prop where
  term : d.currentTerm = c.currentTerm
  mode : d.mode = c.mode
  accepted : d.accepted = c.accepted
  committed : d.committed = c.committed
  peers : d.peers = c.peers
  durable : d.durable = c.durable

/-- The message comes with a higher term. -/
def Outdone (c : Coordinator) (body : Body) : Prop := ∃ t ∈ body.term, c.currentTerm < t

instance (c : Coordinator) (body : Body) : Decidable (c.Outdone body) :=
  inferInstanceAs (Decidable (∃ t ∈ body.term, c.currentTerm < t))

/-- A leader that is publishing nothing. -/
def Free (c : Coordinator) : Prop := c.mode = .leader ∧ c.publishing = none

instance (c : Coordinator) : Decidable c.Free :=
  inferInstanceAs (Decidable (c.mode = .leader ∧ c.publishing = none))

/-- The commands of a REROUTE can be carried out. -/
def Obeys (E : Env) (c : Coordinator) (body : Body) : Prop :=
  ∃ look ∈ E.metadata,
    (Allocation.applyCommands (c.rerouteContext (look c.drawn)) E.random
      (body.explain.getD false)
      { table := if body.retryFailed.getD false then Allocation.retryFailed c.committed.routing
          else c.committed.routing
        drawn := c.drawn } body.commands []).isOk = true

/-- A node `learn` writes down: another one, not yet in the book as it says it is. -/
def Unmet (c : Coordinator) (node : DiscoveryNode) : Prop :=
  node.id ≠ c.me.id ∧ c.peers[node.id]? ≠ some node

/-- Of the entries with one id, the last is the one that stays in the book. -/
def Teaches (c : Coordinator) (peers : List DiscoveryNode) : Prop :=
  ∃ before node after, peers = before ++ node :: after ∧ (∀ m ∈ after, m.id ≠ node.id) ∧
    c.Unmet node

/-- A node with this manager already, which is only told so. -/
def Present (c : Coordinator) (node : DiscoveryNode) : Prop :=
  c.committed.nodes[node.id]? = some node ∧ ¬ c.lagging.contains node.id

/-- A join of this node's term, from one that has not accepted more: it may elect a
candidate, and a manager with nothing in flight takes its node in. -/
def Admits (c : Coordinator) (body : Body) (node : DiscoveryNode) : Prop :=
  body.term.getD 0 = c.currentTerm ∧
  fresher (body.lastAcceptedTerm.getD 0) (body.lastAcceptedVersion.getD 0)
    c.accepted.term c.accepted.version = false ∧
  (c.WouldElect body ∨ c.Free ∧ ¬ c.Present node)

/-- The messages of a stranger that move anything, by the arm that takes each. -/
def Disturbs (E : Env) (c : Coordinator) (e : Envelope) : Prop :=
  match e.action, e.kind with
  | .peers, .request => ∃ node ∈ e.body.node, c.knows node.id = true ∧ c.Unmet node
  | .peers, .response => c.Teaches e.body.peers
  | .preVote, .response =>
    c.mode = .candidate ∧ e.requestId = c.prevoteRid ∧ c.prevoteQuorum = true ∧
      fresher (e.body.lastAcceptedTerm.getD 0) (e.body.lastAcceptedVersion.getD 0)
        c.accepted.term c.accepted.version = false ∧ c.currentTerm < u64Max
  | .join, .request => ∃ node ∈ e.body.node,
    c.currentTerm < e.body.term.getD 0 ∨ c.Unmet node ∨ c.Admits e.body node
  | .join, .response => ∃ s ∈ e.body.state, s.term = c.currentTerm ∧
    (c.mode ≠ .follower e.sender ∨ c.committed.rank < s.rank)
  | .join, .error | .publish, .error | .followerCheck, .error => c.Outdone e.body
  | .leaderCheck, .error => c.Outdone e.body ∨ c.mode = .follower e.sender
  | .metadataReport, .request => c.Free
  | .reroute, .request =>
    c.Free ∧ (c.clear E.wall).Obeys E e.body ∧ e.body.dryRun.getD false = false
  | .leave, .request =>
    c.Free ∧ (({ c.clear E.wall with
      pendingRemovals := c.pendingRemovals.insert e.sender } : Coordinator).nextState E).2 = true
  | _, _ => False

theorem Unchanged.of_core (core : d.toCore = c.toCore) (peers : d.peers = c.peers) :
    Unchanged c d := by
  refine ⟨?_, ?_, ?_, ?_, peers, ?_⟩ <;> rw [core]

theorem Unchanged.refl (c : Coordinator) : Unchanged c c := ⟨rfl, rfl, rfl, rfl, rfl, rfl⟩

/-- A term that is no higher changes nothing. -/
theorem sawTermIn_unchanged {b : Body} (h : ¬ c.Outdone b) : Unchanged c (c.sawTermIn E b) := by
  unfold sawTermIn
  split
  · rename_i t ht
    have low : t ≤ c.currentTerm := Nat.le_of_not_lt fun hlt => h ⟨t, ht, hlt⟩
    unfold sawTerm
    dsimp only
    rw [if_pos low]
    exact ⟨rfl, rfl, rfl, rfl, rfl, rfl⟩
  · exact Unchanged.refl c

/-- A higher one is taken up. -/
theorem sawTermIn_raises {b : Body} (h : c.Outdone b) :
    c.currentTerm < (c.sawTermIn E b).currentTerm := by
  obtain ⟨t, ht, higher⟩ := h
  unfold sawTermIn
  rw [Option.mem_def.mp ht]
  have hview := view_sawTerm E t c
  rw [if_neg (Nat.not_le.mpr higher)] at hview
  have := congrArg (·.core.currentTerm) hview
  exact lt_of_lt_of_eq higher this.symm

theorem changed_of_term (h : c.currentTerm < d.currentTerm) : ¬ Unchanged c d :=
  fun same => absurd same.term (Nat.ne_of_gt h)

/-- A leader with something to publish publishes it. -/
theorem nextPublication_raises {n : Nat} (ordered : c.toCore.Ordered) (view : d.view = c.view)
    (free : c.Free) (asked : (d.nextState E).2 = true)
    (fits : ∀ e ∈ (nextPublication E (n + 1) d).history, ¬ e.Wraps) :
    c.accepted.rank < (nextPublication E (n + 1) d).accepted.rank := by
  have core : d.toCore = c.toCore := congrArg View.core view
  have leads : d.mode = .leader := by rw [core]; exact free.1
  have idle : d.publishing = none := by rw [core]; exact free.2
  obtain ⟨s, rid, seq, made, config, moves⟩ := nextWith_publishes (E := E) (M := False)
    (O := False) (I := none) (fun d => nextPublication_moves n d) leads idle asked
  have act : Act False False none d.view (d.view.publish d.committed s rid seq) :=
    Act.next d.view s rid seq leads idle made config
  have fits' : ∀ e ∈ (d.view.publish d.committed s rid seq).marks, ¬ e.Wraps := fun e he =>
    fits e (moves.marks_prefix.subset he)
  have ordered' : d.view.core.Ordered := by
    change d.toCore.Ordered
    rw [core]
    exact ordered
  obtain ⟨later, _⟩ := act.ordered fits' ordered'
  obtain ⟨_, rises⟩ := moves.ordered fits later
  have settles := ordered'.reigns leads |>.idle idle
  have outranks : d.committed.rank < s.rank := made.outranks
    ((term_le_of_rank_le ordered'.committed_le).trans ordered'.accepted_le)
    (fits' _ (by simp [View.publish, View.mark]))
  have hrank : c.accepted.rank = d.committed.rank := by
    have : d.committed = settled d.accepted := settles
    rw [this, core]
    rfl
  exact hrank ▸ lt_of_lt_of_le outranks rises.accepted

theorem changed_of_rank (h : c.accepted.rank < d.accepted.rank) : ¬ Unchanged c d :=
  fun same => absurd (same.accepted ▸ h) (lt_irrefl _)

theorem nextPublication_changes {n : Nat} (ordered : c.toCore.Ordered) (view : d.view = c.view)
    (free : c.Free) (asked : (d.nextState E).2 = true)
    (fits : ∀ e ∈ (nextPublication E (n + 1) d).history, ¬ e.Wraps) :
    ¬ Unchanged c (nextPublication E (n + 1) d) :=
  changed_of_rank (nextPublication_raises ordered view free asked fits)

/-! ### Elections -/

theorem applyCommitted_term (v : View) (s : ClusterState) :
    (v.applyCommitted s).core.currentTerm = v.core.currentTerm := by
  obtain ⟨_, _, _, _, _, h⟩ := v.applyCommitted_frame s
  rw [h]

/-- No act lowers the term. -/
theorem act_term_le {M O : Prop} {I : Option Envelope} {v v' : View}
    (act : Act M O I v v') : v.core.currentTerm ≤ v'.core.currentTerm := by
  cases act with
  | term t higher => exact higher.le
  | vote e t got named higher => exact higher.le
  | candidacy t msgs higher => exact higher.le
  | decide p dests rid => exact (applyCommitted_term (v.announce p dests rid) p.state).ge
  | commit => exact (applyCommitted_term v _).ge
  | joined e s => exact (applyCommitted_term v s).ge
  | _ => exact le_rfl

theorem moves_term_le {M O : Prop} {I : Option Envelope} {v v' : View}
    (moves : Moves M O I v v') : v.core.currentTerm ≤ v'.core.currentTerm := by
  induction moves with
  | refl => exact le_rfl
  | tail _ act ih => exact ih.trans (act_term_le act)

/-- Standing raises the term, up to the last there is. -/
theorem startElection_raises (low : c.currentTerm < u64Max) :
    c.currentTerm < (c.startElection E).currentTerm := by
  have higher : c.currentTerm < c.electionTerm := by
    unfold electionTerm
    omega
  unfold startElection
  dsimp only
  have hb : ({ c with prevoteRid := 0, prevotes := ∅ }.remark
      (.election c.electionTerm)).view = c.view := view_remark _ _
  generalize ({ c with prevoteRid := 0, prevotes := ∅ } : Coordinator).remark
    (.election c.electionTerm) = b at hb ⊢
  obtain ⟨msgs, hview, _⟩ := foldl_startJoin_view c.electionTerm b.everyone.toList b
  rw [hb] at hview
  generalize b.everyone.toList.foldl
    (fun x n => x.request n .startJoin { term := some c.electionTerm }) b = d at hview ⊢
  have core : d.toCore = c.toCore := congrArg View.core hview
  have voted := onStartJoin_view (E := E) d c.electionTerm d.me.id (by rw [core]; exact higher)
  unfold onStartJoin
  rw [if_neg (by rw [core]; exact Nat.not_le_of_lt higher)]
  dsimp only
  generalize ({ d.sawTerm E c.electionTerm with
    lastJoin := some (c.electionTerm, d.me.id) } : Coordinator).record
      (.voted c.electionTerm d.me.id) = a at voted ⊢
  have acore : a.toCore = { d.toCore.toTerm c.electionTerm with
    lastJoin := some (c.electionTerm, d.me.id) } := congrArg View.core voted
  rw [if_pos (by rw [acore]; rfl)]
  have rest : Moves False False none a.view (a.onJoin E (a.joinBody E d.me.id) d.me.id).view :=
    onJoin_moves (Or.inr ⟨rfl, rfl, by rw [acore]; rfl⟩) nofun
  have hterm : a.view.core.currentTerm = c.electionTerm := by
    change a.toCore.currentTerm = _
    rw [acore]
    rfl
  exact lt_of_lt_of_le (hterm.symm ▸ higher) (moves_term_le rest)

theorem foldl_request_peers (a : Action) (b : Coordinator → Body) (l : List NodeId)
    (c : Coordinator) : (l.foldl (fun c t => c.request t a (b c)) c).peers = c.peers := by
  induction l generalizing c with
  | nil => rfl
  | cons t l ih => exact (ih _).trans rfl

theorem startElection_unchanged (last : ¬ c.currentTerm < u64Max) :
    Unchanged c (c.startElection E) := by
  unfold startElection
  dsimp only
  have hb : ({ c with prevoteRid := 0, prevotes := ∅ }.remark
      (.election c.electionTerm)).view = c.view := view_remark _ _
  have hp : ({ c with prevoteRid := 0, prevotes := ∅ }.remark
      (.election c.electionTerm)).peers = c.peers := by
    unfold remark
    split <;> rfl
  generalize ({ c with prevoteRid := 0, prevotes := ∅ } : Coordinator).remark
    (.election c.electionTerm) = b at hb hp ⊢
  obtain ⟨msgs, hview, _⟩ := foldl_startJoin_view c.electionTerm b.everyone.toList b
  have peers := foldl_request_peers .startJoin (fun _ => { term := some c.electionTerm })
    b.everyone.toList b
  rw [hb] at hview
  generalize b.everyone.toList.foldl
    (fun x n => x.request n .startJoin { term := some c.electionTerm }) b = d at hview peers ⊢
  have core : d.toCore = c.toCore := congrArg View.core hview
  unfold onStartJoin
  rw [if_pos (by rw [core]; unfold electionTerm; omega)]
  exact .of_core core (peers.trans hp)

theorem prevoteQuorum_insert (stranger : c.knows e.sender = false) (w : Nat × Nat × Nat) :
    ({ c with prevotes := c.prevotes.insert e.sender w } : Coordinator).prevoteQuorum =
      c.prevoteQuorum := by
  have votes : votesWith c.me.id (c.prevotes.insert e.sender w) =
      (votesWith c.me.id c.prevotes).insert e.sender := by
    apply Std.ExtTreeSet.ext_mem
    intro n
    simp [votesWith, Std.ExtTreeSet.mem_insert, Std.ExtTreeSet.mem_ofList,
      Std.ExtTreeMap.mem_keys]
    tauto
  obtain ⟨hc, ha⟩ := not_voter stranger
  change electionQuorum c.accepted (votesWith c.me.id (c.prevotes.insert e.sender w)) = _
  rw [votes]
  unfold prevoteQuorum electionQuorum
  rw [hasQuorum_insert hc, hasQuorum_insert ha]

/-! ### The arms -/

/-- A stranger's pre-vote is counted for nothing that was not there without it. -/
theorem onPreVoteResponse_unchanged (stranger : c.knows e.sender = false)
    (quiet : ¬ (c.mode = .candidate ∧ e.requestId = c.prevoteRid ∧ c.prevoteQuorum = true ∧
      fresher (e.body.lastAcceptedTerm.getD 0) (e.body.lastAcceptedVersion.getD 0)
        c.accepted.term c.accepted.version = false ∧ c.currentTerm < u64Max)) :
    Unchanged c (c.onPreVoteResponse E e) := by
  unfold onPreVoteResponse
  split
  · exact .refl c
  · rename_i awaited
    rw [not_or, not_not, not_not] at awaited
    dsimp only
    split
    · exact .of_core rfl rfl
    · rename_i stale
      split
      · rename_i quorum
        have quorum : c.prevoteQuorum = true := by
          rw [← prevoteQuorum_insert stranger]
          exact quorum
        have last : ¬ c.currentTerm < u64Max := fun low => quiet
          ⟨awaited.1, awaited.2, quorum, Bool.eq_false_iff.mpr stale, low⟩
        obtain ⟨ht, hm, ha, hc, hp, hd⟩ := startElection_unchanged (E := E)
          (c := { c with
            maxTermSeen := max c.maxTermSeen (e.body.term.getD 0), prevotes := ∅ }) last
        exact ⟨ht, hm, ha, hc, hp, hd⟩
      · exact .of_core rfl rfl

theorem onPreVoteResponse_raises (stranger : c.knows e.sender = false)
    (candidate : c.mode = .candidate) (awaited : e.requestId = c.prevoteRid)
    (quorum : c.prevoteQuorum = true)
    (stale : fresher (e.body.lastAcceptedTerm.getD 0) (e.body.lastAcceptedVersion.getD 0)
      c.accepted.term c.accepted.version = false)
    (low : c.currentTerm < u64Max) :
    c.currentTerm < (c.onPreVoteResponse E e).currentTerm := by
  unfold onPreVoteResponse
  rw [if_neg (by simp [candidate, awaited])]
  dsimp only
  rw [if_neg (by rw [stale]; exact nofun)]
  split
  · exact startElection_raises (E := E) (c := { c with
      maxTermSeen := max c.maxTermSeen (e.body.term.getD 0), prevotes := ∅ }) low
  · rename_i short
    exact absurd ((prevoteQuorum_insert stranger _).trans quorum) short

theorem onPreVoteError_unchanged : Unchanged c (c.onPreVoteError E e) := by
  unfold onPreVoteError
  cases e.body.term <;> dsimp only <;> split
  · split
    · exact .of_core rfl rfl
    · exact .refl c
  · exact .refl c
  · split <;> exact .of_core rfl rfl
  · exact .of_core rfl rfl

/-- Sending a commit again changes nothing here. -/
theorem lateCommit_unchanged (same : Unchanged c d) : Unchanged c (d.lateCommit e) := by
  unfold lateCommit
  dsimp only
  split
  · exact ⟨same.term, same.mode, same.accepted, same.committed, same.peers, same.durable⟩
  · exact same

/-- A stranger's acknowledgement changes nothing. -/
theorem onPublishResponse_unchanged (waits : c.Waits) (seeks : c.toCore.Seeks)
    (stranger : c.knows e.sender = false) : Unchanged c (c.onPublishResponse E e) := by
  unfold onPublishResponse
  split
  · exact .refl c
  · rename_i leads
    split
    · rename_i p hp
      obtain ⟨q, inFlight, _, rfl⟩ := acknowledged_some hp
      have short := stranger_no_quorum waits seeks stranger (not_not.mp leads) inFlight
      dsimp only
      rw [if_neg (by rw [short]; exact nofun)]
      exact lateCommit_unchanged ⟨rfl, rfl, rfl, rfl, rfl, rfl⟩
    · exact lateCommit_unchanged (.refl c)

/-- A check that is answered changes nothing. -/
theorem onFollowerCheckResponse_unchanged : Unchanged c (c.onFollowerCheckResponse e) := by
  unfold onFollowerCheckResponse
  split
  · exact .refl c
  · dsimp only
    split <;> exact .of_core rfl rfl

theorem onFollowerCheckError_eq :
    ∃ pending followers, c.onFollowerCheckError E e = ({ c with
      pendingChecks := pending, followers := followers } : Coordinator).sawTermIn E e.body := by
  unfold onFollowerCheckError
  dsimp only
  split
  · exact ⟨_, _, rfl⟩
  · exact ⟨_, _, rfl⟩

theorem onLeaderCheckError_unchanged (low : ¬ c.Outdone e.body)
    (other : c.mode ≠ .follower e.sender) : Unchanged c (c.onLeaderCheckError E e) := by
  have same := sawTermIn_unchanged (E := E) low
  unfold onLeaderCheckError
  dsimp only
  rw [if_neg (by rw [same.mode]; exact other)]
  exact same

/-- A leader that says it leads no more is not followed. -/
theorem onLeaderCheckError_changes (h : c.Outdone e.body ∨ c.mode = .follower e.sender) :
    ¬ Unchanged c (c.onLeaderCheckError E e) := by
  have down : ∀ d : Coordinator, (d.becomeCandidate E).toCore = d.toCore.stepDown := fun d =>
    congrArg View.core (view_becomeCandidate E d)
  by_cases outdone : c.Outdone e.body
  · apply changed_of_term
    have raised := sawTermIn_raises (E := E) outdone
    unfold onLeaderCheckError
    dsimp only
    split
    · rw [down]
      exact raised
    · exact raised
  · have followed := h.resolve_left outdone
    have same := sawTermIn_unchanged (E := E) outdone
    intro still
    have hm := still.mode
    unfold onLeaderCheckError at hm
    dsimp only at hm
    rw [if_pos (by rw [same.mode]; exact followed), down, followed] at hm
    exact absurd hm nofun

theorem onShardReport_unchanged (kind : ReportKind) (stranger : c.knows e.sender = false) :
    Unchanged c (c.onShardReport E kind e) := by
  unfold onShardReport
  split
  · exact .of_core rfl rfl
  · rw [if_pos (by simp [stranger])]
    exact .of_core rfl rfl

theorem nextPublication_unchanged {n : Nat} (core : d.toCore = c.toCore) (peers : d.peers = c.peers)
    (h : ¬ (c.Free ∧ (d.nextState E).2 = true)) :
    Unchanged c (nextPublication E (n + 1) d) := by
  unfold nextPublication nextWith
  split
  · exact .of_core core peers
  · rename_i free
    have free : c.Free := by
      rw [not_or, not_not, Option.not_isSome_iff_eq_none, core] at free
      exact free
    dsimp only
    rw [if_pos (by simpa using fun asked => h ⟨free, asked⟩)]
    exact .of_core core peers

/-- What was asked to be published is published. -/
theorem nextState_asked (h : d.republishWanted = true) : (d.nextState E).2 = true := by
  simp [nextState, h]

/-- Whether anything moves is decided by `P`, as long as no publication runs out of
versions. -/
structure Decides (c d : Coordinator) (P : Prop) : Prop where
  quiet : ¬ P → Unchanged c d
  loud : c.toCore.Ordered → (∀ e ∈ d.history, ¬ e.Wraps) → P → ¬ Unchanged c d

theorem onMetadataReport_decides (h : e.action = .metadataReport) :
    Decides c (c.onMetadataReport E e) c.Free := by
  unfold onMetadataReport
  split
  · rename_i leads
    exact ⟨fun _ => .of_core rfl rfl, fun _ _ free => absurd free.1 leads⟩
  · dsimp only
    refine ⟨fun busy => ?_, fun ordered fits free => ?_⟩
    · exact nextPublication_unchanged rfl rfl fun ⟨free, _⟩ => busy free
    · exact nextPublication_changes ordered
        (view_respond (by rw [h]; decide) (by rw [h]; decide)) free (nextState_asked rfl) fits

theorem onReroute_decides (h : e.action = .reroute) :
    Decides c (c.onReroute E e)
      (c.Free ∧ c.Obeys E e.body ∧ e.body.dryRun.getD false = false) := by
  have answered : ∀ (d : Coordinator) (b : Body), (d.respond e b).view = d.view := fun d b =>
    view_respond (by rw [h]; decide) (by rw [h]; decide)
  unfold onReroute
  split
  · rename_i leads
    exact ⟨fun _ => .of_core rfl rfl, fun _ _ disturbs => absurd disturbs.1.1 leads⟩
  · split
    · rename_i bare
      refine ⟨fun _ => .of_core rfl rfl, fun _ _ disturbs => ?_⟩
      obtain ⟨_, ⟨look, hlook, _⟩, _⟩ := disturbs
      rw [bare] at hlook
      exact absurd hlook nofun
    · rename_i look hlook
      dsimp only
      split
      · rename_i why refused
        refine ⟨fun _ => .of_core rfl rfl, fun _ _ disturbs => ?_⟩
        obtain ⟨_, ⟨look', hlook', obeyed⟩, _⟩ := disturbs
        obtain rfl : look = look' := Option.some.inj (hlook.symm.trans hlook')
        rw [refused] at obeyed
        exact absurd obeyed nofun
      · rename_i w explanations done
        have obeys : c.Obeys E e.body := ⟨look, hlook, by rw [done]; rfl⟩
        generalize Allocation.reroute _ _ _ _ = after
        split
        · rename_i dry
          refine ⟨fun _ => .of_core rfl rfl, fun _ _ disturbs => ?_⟩
          rw [disturbs.2.2] at dry
          exact absurd dry nofun
        · rename_i wet
          refine ⟨fun quiet => ?_, fun ordered fits disturbs => ?_⟩
          · refine nextPublication_unchanged rfl rfl fun ⟨free, _⟩ => quiet ⟨free, obeys, ?_⟩
            exact Bool.eq_false_iff.mpr wet
          · exact nextPublication_changes ordered (answered { c with drawn := after.drawn } _)
              disturbs.1 (nextState_asked rfl) fits

theorem onLeave_decides (h : e.action = .leave) :
    Decides c (c.onLeave E e) (c.Free ∧ (({ c with
      pendingRemovals := c.pendingRemovals.insert e.sender } : Coordinator).nextState E).2 =
        true) := by
  unfold onLeave
  split
  · exact ⟨fun quiet => nextPublication_unchanged rfl rfl quiet, fun ordered fits disturbs =>
      nextPublication_changes ordered (view_respond (by rw [h]; decide) (by rw [h]; decide))
        disturbs.1 disturbs.2 fits⟩
  · rename_i leads
    exact ⟨fun _ => .refl c, fun _ _ disturbs => absurd disturbs.1.1 leads⟩

/-- Where nothing can change, nothing does. -/
theorem Decides.never (same : Unchanged c d) : Decides c d False := ⟨fun _ => same, fun _ _ => nofun⟩

theorem sawTermIn_decides {b : Body} (core : d.toCore = c.toCore) (peers : d.peers = c.peers) :
    Decides c (d.sawTermIn E b) (c.Outdone b) := by
  have outdone : d.Outdone b ↔ c.Outdone b := by
    unfold Outdone
    rw [core]
  refine ⟨fun low => ?_, fun _ _ raised => changed_of_term ?_⟩
  · obtain ⟨ht, hm, ha, hc, hp, hd⟩ := sawTermIn_unchanged (E := E) (mt outdone.mp low)
    rw [core] at ht hm ha hc hd
    exact ⟨ht, hm, ha, hc, hp.trans peers, hd⟩
  · have := sawTermIn_raises (E := E) (outdone.mpr raised)
    rwa [core] at this

/-! ### Discovery and joining -/

/-- A node that is in the book as it says it is, is not written down again. -/
theorem learn_met {node : DiscoveryNode} (h : ¬ c.Unmet node) : c.learn node = c := by
  unfold learn
  split
  · rfl
  · rename_i other
    rw [if_pos (Classical.not_not.mp fun unlike => h ⟨other, unlike⟩)]

/-- One that is not, is. -/
theorem learn_unmet {node : DiscoveryNode} (h : c.Unmet node) :
    (c.learn node).peers = c.peers.insert node.id node := by
  unfold learn
  rw [if_neg h.1, if_neg h.2]

theorem learn_at {node : DiscoveryNode} (other : node.id ≠ c.me.id) :
    (c.learn node).peers[node.id]? = some node := by
  by_cases unmet : c.Unmet node
  · rw [learn_unmet unmet]
    simp
  · rw [learn_met unmet]
    exact Classical.not_not.mp fun unlike => unmet ⟨other, unlike⟩

theorem learn_elsewhere {node : DiscoveryNode} {id : NodeId} (h : node.id ≠ id) :
    (c.learn node).peers[id]? = c.peers[id]? := by
  by_cases unmet : c.Unmet node
  · rw [learn_unmet unmet, Std.ExtTreeMap.getElem?_insert]
    simp [h]
  · rw [learn_met unmet]

theorem learn_core (c : Coordinator) (node : DiscoveryNode) :
    (c.learn node).toCore = c.toCore :=
  congrArg View.core (view_learn c node)

theorem foldl_learn_core (l : List DiscoveryNode) (c : Coordinator) :
    (l.foldl learn c).toCore = c.toCore :=
  congrArg View.core (view_foldl view_learn l c)

theorem foldl_learn_elsewhere {id : NodeId} (l : List DiscoveryNode) (c : Coordinator)
    (h : ∀ m ∈ l, m.id ≠ id) : (l.foldl learn c).peers[id]? = c.peers[id]? := by
  induction l generalizing c with
  | nil => rfl
  | cons n l ih =>
    rw [List.foldl_cons, ih _ fun m hm => h m (List.mem_cons_of_mem _ hm),
      learn_elsewhere (h n List.mem_cons_self)]

theorem foldl_learn_self (l : List DiscoveryNode) (c : Coordinator) :
    (l.foldl learn c).peers[c.me.id]? = c.peers[c.me.id]? := by
  induction l generalizing c with
  | nil => rfl
  | cons n l ih =>
    have hme : (c.learn n).me = c.me := by rw [learn_core]
    rw [List.foldl_cons, ← hme, ih, hme]
    by_cases self : n.id = c.me.id
    · rw [learn_met fun unmet => unmet.1 self]
    · exact learn_elsewhere self

theorem foldl_learn_at {before after : List DiscoveryNode} {node : DiscoveryNode}
    (last : ∀ m ∈ after, m.id ≠ node.id) (other : node.id ≠ c.me.id) :
    ((before ++ node :: after).foldl learn c).peers[node.id]? = some node := by
  have hme : (before.foldl learn c).me = c.me := by
    rw [foldl_learn_core]
  rw [List.foldl_append, List.foldl_cons, foldl_learn_elsewhere _ _ last,
    learn_at (by rw [hme]; exact other)]

/-- The entry of an id that comes last, where the list has one. -/
theorem last_entry {l : List DiscoveryNode} {id : NodeId} (h : ¬ ∀ m ∈ l, m.id ≠ id) :
    ∃ before node after, l = before ++ node :: after ∧ node.id = id ∧
      ∀ m ∈ after, m.id ≠ id := by
  induction l with
  | nil => exact absurd (by simp) h
  | cons n l ih =>
    by_cases later : ∀ m ∈ l, m.id ≠ id
    · refine ⟨[], n, l, rfl, ?_, later⟩
      by_contra hn
      refine h fun m hm => ?_
      rcases List.mem_cons.mp hm with rfl | hm
      · exact hn
      · exact later m hm
    · obtain ⟨before, node, after, rfl, hid, last⟩ := ih later
      exact ⟨n :: before, node, after, rfl, hid, last⟩

theorem foldl_learn_peers (l : List DiscoveryNode) :
    (l.foldl learn c).peers = c.peers ↔ ¬ c.Teaches l := by
  constructor
  · rintro same ⟨before, node, after, rfl, last, other, unlike⟩
    rw [← same, foldl_learn_at last other] at unlike
    exact unlike rfl
  · intro dull
    apply Std.ExtTreeMap.ext_getElem?
    intro id
    by_cases named : ∀ m ∈ l, m.id ≠ id
    · exact foldl_learn_elsewhere l c named
    · obtain ⟨before, node, after, rfl, rfl, last⟩ := last_entry named
      have met : ¬ c.Unmet node := fun unmet => dull ⟨before, node, after, rfl, last, unmet⟩
      by_cases other : node.id = c.me.id
      · rw [other]
        exact foldl_learn_self _ c
      · rw [foldl_learn_at last other]
        exact (Classical.not_not.mp fun unlike => met ⟨other, unlike⟩).symm

theorem onPeersRequest_decides (h : e.action = .peers) :
    Decides c (c.onPeersRequest e) (∃ node ∈ e.body.node, c.knows node.id = true ∧ c.Unmet node) := by
  have core : (c.onPeersRequest e).toCore = c.toCore := congrArg View.core (onPeersRequest_view h)
  cases hnode : e.body.node with
  | none =>
    have peers : (c.onPeersRequest e).peers = c.peers := by
      unfold onPeersRequest
      rw [hnode]
      rfl
    refine ⟨fun _ => .of_core core peers, fun _ _ => ?_⟩
    rintro ⟨_, hn, _⟩
    cases hn
  | some n =>
    have peers : (c.onPeersRequest e).peers = (if c.knows n.id then c.learn n else c).peers := by
      unfold onPeersRequest
      rw [hnode]
      rfl
    constructor
    · intro dull
      refine .of_core core ?_
      rw [peers]
      split
      · rename_i known
        rw [learn_met fun unmet => dull ⟨n, rfl, known, unmet⟩]
      · rfl
    · rintro _ _ ⟨_, hn, known, unmet⟩ same
      obtain rfl := Option.some.inj hn
      rw [if_pos known] at peers
      refine unmet.2 ?_
      rw [← same.peers, peers, learn_at unmet.1]

theorem onPeersResponse_decides :
    Decides c (c.onPeersResponse E e) (c.Teaches e.body.peers) := by
  have peers : (c.onPeersResponse E e).peers = (e.body.peers.foldl learn c).peers := by
    unfold onPeersResponse followHint
    split
    · split <;> rfl
    · rfl
  have core : (c.onPeersResponse E e).toCore = c.toCore := by
    unfold onPeersResponse followHint
    split
    · split <;> exact foldl_learn_core _ _
    · exact foldl_learn_core _ _
  exact ⟨fun dull => .of_core core (peers.trans (foldl_learn_peers _ |>.mpr dull)),
    fun _ _ teaches same => foldl_learn_peers _ |>.mp (peers.symm.trans same.peers) teaches⟩

theorem onJoinError_unchanged (low : ¬ c.Outdone e.body) : Unchanged c (c.onJoinError E e) := by
  obtain ⟨ht, hm, ha, hc, hp, hd⟩ := sawTermIn_unchanged (E := E) low
  unfold onJoinError
  generalize c.sawTermIn E e.body = d at ht hm ha hc hp hd ⊢
  dsimp only
  split
  · split
    · split <;> exact ⟨ht, hm, ha, hc, hp, hd⟩
    · split <;> exact ⟨ht, hm, ha, hc, hp, hd⟩
  · split <;> exact ⟨ht, hm, ha, hc, hp, hd⟩

theorem onJoinError_raises (raised : c.Outdone e.body) :
    c.currentTerm < (c.onJoinError E e).currentTerm := by
  have := sawTermIn_raises (E := E) raised
  unfold onJoinError
  generalize c.sawTermIn E e.body = d at this ⊢
  dsimp only
  split
  · split
    · split <;> exact this
    · split <;> exact this
  · split <;> exact this

/-! What a copy's host is told does not touch the book of peers. -/

theorem peers_foldl {α : Type} {f : Coordinator → α → Coordinator}
    (h : ∀ c a, (f c a).peers = c.peers) (l : List α) (c : Coordinator) :
    (l.foldl f c).peers = c.peers := by
  induction l generalizing c with
  | nil => rfl
  | cons a l ih => rw [List.foldl_cons, ih, h]

@[simp] theorem peers_remark (c : Coordinator) (n : Note) : (c.remark n).peers = c.peers := by
  unfold remark
  split <;> rfl

@[simp] theorem peers_tell (c : Coordinator) (w : Told) : (c.tell E w).peers = c.peers := by
  unfold tell
  split <;> rfl

theorem peers_report (c : Coordinator) (ev : ShardEvent) : (c.report ev).peers = c.peers := by
  unfold report
  split
  · rfl
  · cases ev <;> rfl
  · rfl

theorem peers_applyMetadata (c : Coordinator) : (c.applyMetadata E).peers = c.peers := by
  have dropped : ∀ (d : Coordinator) x, (d.dropLocal E x).peers = d.peers := by
    intro d x
    unfold dropLocal
    split <;> simp
  unfold applyMetadata
  split
  · rfl
  · rw [peers_foldl dropped]
    unfold takeCustoms emits
    dsimp only
    split <;> split <;> simp

theorem peers_applyShards (c : Coordinator) : (c.applyShards E).peers = c.peers := by
  have released : ∀ (d : Coordinator) x, (d.releaseCopy E x).peers = d.peers := by
    intro d x
    unfold releaseCopy
    dsimp only
    split
    · rfl
    · split
      · exact peers_remark _ _
      · split <;> rfl
  have started : ∀ (d : Coordinator) x, (d.startCopy E x).peers = d.peers := by
    intro d x
    unfold startCopy
    split
    · rfl
    · split
      · rfl
      · dsimp only
        split
        · rfl
        · exact peers_report _ _
        · exact peers_report _ _
  have resynced : ∀ (d : Coordinator) x, (d.resyncCopy E x).peers = d.peers := by
    intro d x
    unfold resyncCopy
    dsimp only
    split
    · rfl
    · split
      · rfl
      · rw [peers_remark]
        split <;> rfl
  have again : ∀ (d : Coordinator) x, (d.reportAgain x).peers = d.peers := by
    intro d x
    unfold reportAgain
    split
    · exact peers_report _ _
    · rfl
  have noted : ∀ (d : Coordinator) x, (d.noteCopy E x).peers = d.peers := by
    intro d x
    unfold noteCopy
    split
    · split <;> simp
    · rfl
  unfold applyShards
  rw [peers_foldl released, peers_foldl started, peers_foldl resynced, peers_foldl again]
  exact (peers_foldl noted _ _).trans (peers_applyMetadata c)

theorem onJoinResponse_some {s : ClusterState} (hs : e.body.state = some s)
    (current : s.term = c.currentTerm) :
    (c.onJoinResponse E e).toCore =
        { (c.applyCommitted s).toCore with mode := .follower e.sender } ∧
      (c.onJoinResponse E e).peers = c.peers := by
  have peers : (c.applyCommitted s).peers = c.peers := by
    unfold applyCommitted
    split
    · rfl
    · dsimp only
      split <;> rfl
  unfold onJoinResponse
  rw [hs]
  dsimp only
  rw [if_pos current]
  generalize c.applyCommitted s = d at peers ⊢
  have shards : ∀ a : Coordinator, (a.applyShards E).toCore = a.toCore := fun a =>
    congrArg View.core (view_applyShards E a)
  split
  · exact ⟨shards { d with mode := .follower e.sender, leaderHint := some e.sender },
      (peers_applyShards _).trans peers⟩
  · exact ⟨shards { d with mode := .follower e.sender, leaderHint := some e.sender },
      (peers_applyShards _).trans peers⟩

theorem onJoinResponse_decides :
    Decides c (c.onJoinResponse E e) (∃ s ∈ e.body.state, s.term = c.currentTerm ∧
      (c.mode ≠ .follower e.sender ∨ c.committed.rank < s.rank)) := by
  cases hs : e.body.state with
  | none =>
    have idle : c.onJoinResponse E e = c := by
      unfold onJoinResponse
      rw [hs]
    rw [idle]
    exact ⟨fun _ => .refl c, fun _ _ ⟨_, hn, _⟩ => absurd hn nofun⟩
  | some s =>
    by_cases current : s.term = c.currentTerm
    · obtain ⟨core, peers⟩ := onJoinResponse_some (E := E) hs current
      have applied : (c.applyCommitted s).toCore = (c.view.applyCommitted s).core :=
        congrArg View.core (view_applyCommitted c s)
      have cases := applyCommitted_cases c.view s
      have mode : (c.onJoinResponse E e).mode = .follower e.sender := by rw [core]
      refine ⟨fun dull => ?_, fun _ _ ⟨t, ht, _, moved⟩ same => ?_⟩
      · have follows : c.mode = .follower e.sender :=
          Classical.not_not.mp fun strays => dull ⟨s, rfl, current, Or.inl strays⟩
        have old : ¬ c.committed.rank < s.rank := fun new =>
          dull ⟨s, rfl, current, Or.inr new⟩
        have kept : (c.applyCommitted s).toCore = c.toCore := by
          rcases cases with ⟨_, hv⟩ | ⟨new, _⟩ | ⟨new, _⟩
          · rw [applied, hv]
            rfl
          · exact absurd new old
          · exact absurd new old
        rw [kept, ← follows] at core
        exact .of_core core peers
      · obtain rfl := Option.some.inj ht
        rcases moved with strays | new
        · exact strays (same.mode.symm.trans mode)
        · have rank : (c.onJoinResponse E e).committed.rank = s.rank := by
            rw [core]
            change (c.applyCommitted s).toCore.committed.rank = _
            rw [applied]
            rcases cases with ⟨old, _⟩ | ⟨_, _, hv⟩ | ⟨_, _, hv⟩
            · exact absurd new (not_lt_of_ge old)
            · rw [hv]
              rfl
            · rw [hv]
              rfl
          rw [same.committed] at rank
          exact absurd new (rank ▸ lt_irrefl _)
    · have idle : c.onJoinResponse E e = c := by
        unfold onJoinResponse
        rw [hs]
        exact if_neg current
      rw [idle]
      refine ⟨fun _ => .refl c, fun _ _ ⟨t, ht, same, _⟩ => ?_⟩
      obtain rfl := Option.some.inj ht
      exact absurd same current

theorem countVote_raises {node : DiscoveryNode} (ordered : c.toCore.Ordered)
    (vote : VoteFor (some e) c.toCore node) (eligible : c.eligible = true)
    (quorum : electionQuorum c.accepted (c.votesAfter node) = true)
    (fits : ∀ ev ∈ (c.countVote E node).history, ¬ ev.Wraps) :
    c.accepted.rank < (c.countVote E node).accepted.rank := by
  obtain ⟨s, rid, seq, made, config, moves⟩ := becomeLeader_moves (E := E) (M := False)
    (O := False) (I := some e)
    (view_takeLead { c with joinVotes := c.joinVotes.insert node.id node }) rfl
  have won : c.countVote E node =
      { c with joinVotes := c.joinVotes.insert node.id node }.becomeLeader E := by
    unfold countVote
    dsimp only
    rw [if_pos (by rw [eligible, quorum]; rfl)]
  rw [won] at fits ⊢
  have act := Act.lead (M := False) (O := False) c.view node s rid seq vote quorum nofun
    ⟨made.term, made.manager, made.version, made.committedConfig⟩ config
  obtain ⟨later, _⟩ := act.ordered (fun ev hev => fits ev (moves.marks_prefix.subset hev)) ordered
  obtain ⟨_, rises⟩ := moves.ordered fits later
  have outranks : c.accepted.rank < s.rank := made.outranks ordered.accepted_le
    (fits _ (moves.marks_prefix.subset (by simp [View.publish, View.mark])))
  exact lt_of_lt_of_le outranks rises.accepted

theorem countVote_term_le (c : Coordinator) (node : DiscoveryNode) :
    c.currentTerm ≤ (c.countVote E node).currentTerm := by
  unfold countVote
  dsimp only
  split
  · obtain ⟨s, rid, seq, _, _, moves⟩ := becomeLeader_moves (E := E) (M := False) (O := False)
      (I := none) (view_takeLead { c with joinVotes := c.joinVotes.insert node.id node }) rfl
    exact moves_term_le moves
  · exact le_rfl

/-- What is left of a join once its term and its node have been seen. -/
def answerJoin (E : Env) (c : Coordinator) (body : Body) (node : DiscoveryNode)
    (sender : NodeId) : Coordinator :=
  if body.term.getD 0 < c.currentTerm then c.behind sender
  else if fresher (body.lastAcceptedTerm.getD 0) (body.lastAcceptedVersion.getD 0)
      c.accepted.term c.accepted.version then
    c.joinError sender { term := some c.currentTerm, reason := some "fresher" }
  else match c.mode with
    | .candidate => if body.vote.getD false then c.countVote E node else c
    | .leader => c.welcome E node sender
    | .follower l => c.joinError sender { term := some c.currentTerm, leader := some l }

theorem onJoin_eq {body : Body} {node : DiscoveryNode} (h : body.node = some node)
    (sender : NodeId) : c.onJoin E body sender =
      (((c.noteHeld body).sawTerm E (body.term.getD 0)).learn node).answerJoin E body node
        sender := by
  cases body
  cases h
  rfl

theorem answerJoin_term_le (c : Coordinator) (body : Body) (node : DiscoveryNode)
    (sender : NodeId) : c.currentTerm ≤ (c.answerJoin E body node sender).currentTerm := by
  unfold answerJoin
  split
  · exact moves_term_le (behind_moves (M := False) (O := False) (I := none) c sender)
  · split
    · exact le_rfl
    · split
      · split
        · exact countVote_term_le c node
        · exact le_rfl
      · rename_i leads
        exact moves_term_le (welcome_moves (E := E) (M := False) (O := False) (I := none) node
          sender leads)
      · exact le_rfl

/-- As `Decides`, where what moves is the accepted state: a publication. -/
structure Lifts (c d : Coordinator) (P : Prop) : Prop where
  quiet : ¬ P → Unchanged c d
  loud : c.toCore.Ordered → (∀ e ∈ d.history, ¬ e.Wraps) → P → c.accepted.rank < d.accepted.rank

theorem welcome_lifts {node : DiscoveryNode} {sender : NodeId} (other : sender ≠ c.me.id) :
    Lifts c (c.welcome E node sender) (c.Free ∧ ¬ c.Present node) := by
  unfold welcome
  rw [if_neg other]
  dsimp only
  split
  · rename_i present
    exact ⟨fun _ => .of_core rfl rfl, fun _ _ h => absurd present h.2⟩
  · rename_i present
    refine ⟨fun busy => ?_, fun ordered fits h => ?_⟩
    · exact nextPublication_unchanged rfl rfl fun ⟨free, _⟩ => busy ⟨free, present⟩
    · refine nextPublication_raises ordered rfl h.1 ?_ fits
      simp [nextState]

theorem answerJoin_lifts {node : DiscoveryNode} (asked : Got (some e) e .join .request)
    (hnode : e.body.node = some node) (other : e.sender ≠ c.me.id)
    (low : e.body.term.getD 0 ≤ c.currentTerm) :
    Lifts c (c.answerJoin E e.body node e.sender) (c.Admits e.body node) := by
  unfold answerJoin
  split
  · rename_i behind
    have still : Unchanged c (c.behind e.sender) := by
      unfold Coordinator.behind
      split <;> exact .of_core rfl rfl
    exact ⟨fun _ => still, fun _ _ admits => absurd admits.1 (Nat.ne_of_lt behind)⟩
  · rename_i caught
    have current : e.body.term.getD 0 = c.currentTerm :=
      Nat.le_antisymm low (Nat.le_of_not_lt caught)
    split
    · rename_i fresh
      refine ⟨fun _ => .of_core rfl rfl, fun _ _ admits => ?_⟩
      rw [admits.2.1] at fresh
      exact absurd fresh nofun
    · rename_i stale
      have stale := Bool.eq_false_iff.mpr stale
      split
      · rename_i candidate
        have free : ¬ c.Free := fun h => absurd (candidate.symm.trans h.1) nofun
        by_cases elects : c.WouldElect e.body
        · obtain ⟨_, _, vote, eligible, node', hn, quorum⟩ := elects
          obtain rfl := Option.some.inj (hnode.symm.trans hn)
          rw [vote]
          change Lifts c (c.countVote E node) _
          refine ⟨fun dull => ?_, fun ordered fits _ => ?_⟩
          · exact absurd ⟨current, stale, Or.inl ⟨candidate, current, vote, eligible, node, hn,
              quorum⟩⟩ dull
          · exact countVote_raises ordered
              ⟨candidate, Or.inl ⟨e, asked, current, vote, hn, stale⟩⟩ eligible quorum fits
        · refine ⟨fun _ => ?_, fun _ _ admits => ?_⟩
          · split
            · rename_i vote
              have vote : e.body.vote = some true := by
                cases hv : e.body.vote with
                | none => rw [hv] at vote; exact absurd vote nofun
                | some v => rw [hv] at vote; exact congrArg some vote
              unfold countVote
              dsimp only
              rw [if_neg]
              · exact ⟨rfl, rfl, rfl, rfl, rfl, rfl⟩
              · rw [Bool.and_eq_true]
                exact fun won => elects ⟨candidate, current, vote, won.1, node, hnode, won.2⟩
            · exact .refl c
          · exact absurd admits.2.2 (not_or.mpr ⟨elects, fun h => free h.1⟩)
      · rename_i leads
        have lone : Lifts c (c.welcome E node e.sender) (c.Free ∧ ¬ c.Present node) :=
          welcome_lifts other
        have elects : ¬ c.WouldElect e.body := fun h => absurd (leads.symm.trans h.1) nofun
        exact ⟨fun dull => lone.quiet fun h => dull ⟨current, stale, Or.inr h⟩,
          fun ordered fits admits => lone.loud ordered fits (admits.2.2.resolve_left elects)⟩
      · rename_i l follows
        refine ⟨fun _ => .of_core rfl rfl, fun _ _ admits => ?_⟩
        rcases admits.2.2 with elects | ⟨free, _⟩
        · exact absurd (follows.symm.trans elects.1) nofun
        · exact absurd (follows.symm.trans free.1) nofun

theorem onJoin_decides (asked : Got (some e) e .join .request)
    (stranger : c.knows e.sender = false) :
    Decides c (c.onJoin E e.body e.sender) (∃ node ∈ e.body.node,
      c.currentTerm < e.body.term.getD 0 ∨ c.Unmet node ∨ c.Admits e.body node) := by
  have other : e.sender ≠ c.me.id := by
    unfold knows at stranger
    rw [Bool.or_eq_false_iff, beq_eq_false_iff_ne] at stranger
    exact stranger.1
  cases hnode : e.body.node with
  | none =>
    have : c.onJoin E e.body e.sender = c.noteHeld e.body := by
      unfold onJoin
      rw [hnode]
    rw [this]
    refine ⟨fun _ => ?_, fun _ _ ⟨_, hn, _⟩ => absurd hn nofun⟩
    unfold noteHeld
    split <;> exact .of_core rfl rfl
  | some node =>
    rw [onJoin_eq hnode]
    by_cases raised : c.currentTerm < e.body.term.getD 0
    · refine ⟨fun dull => absurd ⟨node, rfl, Or.inl raised⟩ dull, fun _ _ _ => ?_⟩
      apply changed_of_term
      refine lt_of_lt_of_le ?_ (answerJoin_term_le _ _ _ _)
      have hview := sawTerm_learn_view (E := E) (c.noteHeld e.body) (e.body.term.getD 0) node
      have core : (c.noteHeld e.body).toCore = c.toCore :=
        congrArg View.core (view_noteHeld c e.body)
      rw [core, if_neg (Nat.not_le_of_lt raised)] at hview
      have : (((c.noteHeld e.body).sawTerm E (e.body.term.getD 0)).learn node).currentTerm =
        e.body.term.getD 0 := congrArg (·.core.currentTerm) hview
      rw [this]
      exact raised
    · -- nothing has moved yet but the book of peers, and that only by an unmet node
      have low := Nat.le_of_not_lt raised
      obtain ⟨held, seen, peers, out, hd⟩ : ∃ held seen peers out,
          ((c.noteHeld e.body).sawTerm E (e.body.term.getD 0)).learn node =
            { c with heldBy := held, maxTermSeen := seen, peers := peers, out := out } ∧
          (peers = c.peers ↔ ¬ c.Unmet node) := by
        obtain ⟨held, seen, hs⟩ : ∃ held seen,
            (c.noteHeld e.body).sawTerm E (e.body.term.getD 0) =
              { c with heldBy := held, maxTermSeen := seen } := by
          unfold sawTerm noteHeld
          dsimp only
          split
          · exact ⟨_, _, if_pos low⟩
          · exact ⟨_, _, if_pos low⟩
        rw [hs]
        by_cases unmet : c.Unmet node
        · refine ⟨held, seen, c.peers.insert node.id node,
            c.out ++ [.peer node.id node.transportAddress], ?_, iff_of_false ?_ (not_not.mpr unmet)⟩
          · unfold learn
            rw [if_neg unmet.1, if_neg unmet.2]
            rfl
          · intro same
            refine unmet.2 ?_
            rw [← same]
            simp
        · refine ⟨held, seen, c.peers, c.out, ?_, iff_of_true rfl unmet⟩
          exact learn_met (c := { c with heldBy := held, maxTermSeen := seen }) unmet
      obtain ⟨hd, book⟩ := hd
      rw [hd]
      have answer := answerJoin_lifts (E := E) (c := { c with
        heldBy := held, maxTermSeen := seen, peers := peers, out := out }) asked hnode other low
      refine ⟨fun dull => ?_, fun ordered fits moved same => ?_⟩
      · have met : peers = c.peers := book.mpr fun unmet => dull ⟨node, rfl, Or.inr (Or.inl unmet)⟩
        have still := answer.quiet fun admits => dull ⟨node, rfl, Or.inr (Or.inr admits)⟩
        exact ⟨still.term, still.mode, still.accepted, still.committed, still.peers.trans met,
          still.durable⟩
      · by_cases admits : c.Admits e.body node
        · exact changed_of_rank (c := c) (answer.loud ordered fits admits) same
        · obtain ⟨_, hn, moved⟩ := moved
          obtain rfl := Option.some.inj hn
          have unmet := (moved.resolve_left raised).resolve_right admits
          exact book.mp ((answer.quiet admits).peers.symm.trans same.peers) unmet

theorem onMessage_decides (waits : c.Waits) (seeks : c.toCore.Seeks)
    (clean : c.clear E.wall = c) (stranger : c.knows e.sender = false) :
    Decides c (c.onMessage E e) (c.Disturbs E e) := by
  have unknown : (!c.knows e.sender) = true := by rw [stranger]; rfl
  obtain ⟨kind, rid, action, sender, body⟩ := e
  unfold onMessage Disturbs
  rw [clean]
  cases action with
  | peers =>
    cases kind with
    | request => exact onPeersRequest_decides rfl
    | response => exact onPeersResponse_decides
    | error => exact .never (.refl c)
  | join =>
    cases kind with
    | request =>
      exact onJoin_decides (e := ⟨.request, rid, .join, sender, body⟩) ⟨rfl, rfl, rfl⟩ stranger
    | response => exact onJoinResponse_decides
    | error =>
      exact ⟨onJoinError_unchanged, fun _ _ raised => changed_of_term (onJoinError_raises raised)⟩
  | preVote =>
    cases kind with
    | request =>
      refine .never ?_
      simp only [onPreVoteRequest, unknown, if_true]
      exact .of_core rfl rfl
    | response =>
      exact ⟨onPreVoteResponse_unchanged stranger, fun _ _ ⟨candidate, awaited, quorum, stale, low⟩ =>
        changed_of_term (onPreVoteResponse_raises stranger candidate awaited quorum stale low)⟩
    | error => exact .never onPreVoteError_unchanged
  | startJoin =>
    cases kind with
    | request =>
      refine .never ?_
      simp only [onStartJoinRequest, unknown, if_true]
      exact .of_core rfl rfl
    | response | error => exact .never (.refl c)
  | publish =>
    cases kind with
    | request =>
      refine .never ?_
      simp only [onPublishRequest, unknown, if_true]
      exact .of_core rfl rfl
    | response => exact .never (onPublishResponse_unchanged waits seeks stranger)
    | error =>
      have := sawTermIn_decides (E := E) (b := body) (c := c) rfl rfl
      exact ⟨fun low => let ⟨ht, hm, ha, hc, hp, hd⟩ := this.quiet low
          ⟨ht, hm, ha, hc, hp, hd⟩,
        fun ordered fits raised same => this.loud ordered fits raised
          ⟨same.term, same.mode, same.accepted, same.committed, same.peers, same.durable⟩⟩
  | commit =>
    cases kind with
    | request =>
      refine .never ?_
      simp only [onCommitRequest, unknown, if_true]
      exact .of_core rfl rfl
    | response | error => exact .never (.refl c)
  | followerCheck =>
    cases kind with
    | request =>
      refine .never ?_
      simp only [onFollowerCheckRequest, unknown, if_true]
      exact .of_core rfl rfl
    | response => exact .never onFollowerCheckResponse_unchanged
    | error =>
      obtain ⟨pending, followers, heq⟩ := onFollowerCheckError_eq (E := E) (c := c)
        (e := ⟨.error, rid, .followerCheck, sender, body⟩)
      dsimp only
      rw [heq]
      exact sawTermIn_decides rfl rfl
  | leaderCheck =>
    cases kind with
    | request =>
      refine .never ?_
      simp only [onLeaderCheckRequest]
      split <;> exact .of_core rfl rfl
    | response =>
      refine .never ?_
      simp only [onLeaderCheckResponse]
      split
      · exact .of_core rfl rfl
      · exact .refl c
    | error =>
      exact ⟨fun quiet => onLeaderCheckError_unchanged (fun h => quiet (Or.inl h))
        (fun h => quiet (Or.inr h)), fun _ _ => onLeaderCheckError_changes⟩
  | shardStarted | shardFailed | shardStale =>
    cases kind with
    | request => exact .never (onShardReport_unchanged _ stranger)
    | response | error => exact .never (.refl c)
  | metadataReport =>
    cases kind with
    | request => exact onMetadataReport_decides rfl
    | response | error => exact .never (.refl c)
  | reroute =>
    cases kind with
    | request => exact onReroute_decides rfl
    | response | error => exact .never (.refl c)
  | leave =>
    cases kind with
    | request => exact onLeave_decides rfl
    | response | error => exact .never (.refl c)
  | other name => exact .never (.refl c)

/-- **What a stranger's message moves**, in any state a node can come to: where it
is not on the list, nothing; where it is, something. -/
theorem stranger_disturbs_iff (E₀ : Env) (g : Config) (uuid : String) (hs : List Happening)
    (E : Env) (e : Envelope)
    (stranger : ((Life.born E₀ g uuid).run hs).now.knows e.sender = false) :
    let c := ((Life.born E₀ g uuid).run hs).now
    let d := c.handle E (.message e)
    (¬ c.Disturbs E e → Unchanged c d) ∧
    ((∀ ev ∈ ((Life.born E₀ g uuid).run hs).past ++ d.history, ¬ ev.Wraps) →
      c.Disturbs E e → ¬ Unchanged c d) := by
  intro c d
  obtain ⟨waits, seeks⟩ := run_waits (Life.born E₀ g uuid) hs
    (handle_waits _ (waits_of_mode nofun))
    (meets_waits (c := g.process uuid {}) (.input E₀ .start) (waits_of_mode nofun)
      fun hl => absurd hl nofun).2
  have decides : Decides (c.clear E.wall) d ((c.clear E.wall).Disturbs E e) :=
    onMessage_decides (c := c.clear E.wall) waits seeks rfl stranger
  refine ⟨fun quiet => ?_, fun fits loud same => ?_⟩
  · obtain ⟨ht, hm, ha, hc, hp, hd⟩ := decides.quiet quiet
    exact ⟨ht, hm, ha, hc, hp, hd⟩
  · have past : ∀ ev ∈ ((Life.born E₀ g uuid).run hs).past, ¬ ev.Wraps := fun ev hev =>
      fits ev (List.mem_append_left _ hev)
    obtain ⟨kept, ordered⟩ := born_ordered fun ev hev => past ev ((Life.past_run _ hs).subset hev)
    obtain ⟨_, ordered, _⟩ := run_ordered _ hs kept ordered past
    exact decides.loud ordered (fun ev hev => fits ev (List.mem_append_right _ hev)) loud
      ⟨same.term, same.mode, same.accepted, same.committed, same.peers, same.durable⟩

def alone : Coordinator :=
  ((Life.born .still (.plain "a" ["a"] []) "blank").run [.input .still (.timer .election)]).now

/-- A stranger's publication is refused, and its refusal of one deposes the manager. -/
theorem alone_refuses_and_yields :
    (alone.mode = .leader ∧ alone.knows "x" = false) ∧
    Unchanged alone (alone.handle .still
      (.message (.request .publish "x" 1 { term := some 9 }))) ∧
    ¬ Unchanged alone (alone.handle .still
      (.message ⟨.error, 1, .publish, "x", { term := some 9 }⟩)) := by
  refine ⟨by decide +kernel, ?_, ?_⟩
  · exact (stranger_disturbs_iff .still (.plain "a" ["a"] []) "blank"
      [.input .still (.timer .election)] .still (.request .publish "x" 1 { term := some 9 })
      (by decide +kernel)).1 id
  · exact (stranger_disturbs_iff .still (.plain "a" ["a"] []) "blank"
      [.input .still (.timer .election)] .still ⟨.error, 1, .publish, "x", { term := some 9 }⟩
      (by decide +kernel)).2 (by decide +kernel) ⟨9, rfl, by decide +kernel⟩

/-- Not every message of a stranger leaves a node as it was. -/
theorem stranger_deposes_manager :
    ¬ ∀ (E₀ : Env) (g : Config) (uuid : String) (hs : List Happening) (E : Env) (e : Envelope),
      ((Life.born E₀ g uuid).run hs).now.knows e.sender = false → e.action ≠ .peers →
      e.action ≠ .join → Unchanged ((Life.born E₀ g uuid).run hs).now
        (((Life.born E₀ g uuid).run hs).now.handle E (.message e)) := by
  intro h
  have same := h .still (.plain "a" ["a"] []) "blank" [.input .still (.timer .election)] .still
    ⟨.error, 1, .publish, "x", { term := some 9 }⟩ (by decide +kernel) nofun nofun
  have raised : ¬ (alone.handle .still (.message ⟨.error, 1, .publish, "x",
      { term := some 9 }⟩)).currentTerm = alone.currentTerm := by
    decide +kernel
  exact raised same.term

end Coordinator

end Velosearch.Cluster

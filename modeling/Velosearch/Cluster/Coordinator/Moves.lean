import Velosearch.Cluster.Coordinator.Acts

/-!
# Every handler comes down to acts

One lemma for each function of the coordinator that touches its view, from the
innermost out: joins, publications, elections, then the arms of `on_message` and
`handle`. The main result is `handle_moves`.
-/

set_option autoImplicit false

namespace Velosearch.Cluster

open Relation

namespace Coordinator

variable {E : Env} {M O : Prop} {I : Option Envelope}

/-! ## Joins and the first configuration -/

/-- Sending a JOIN moves nothing but the messages. -/
theorem join_moves (c : Coordinator) (dest : NodeId) :
    Moves M O I c.view (c.join E dest).view := by
  have : (c.join E dest).view = c.view.send [(dest, .request .join c.me.id
      c.rid.nextRequest (c.toCore.joinBody dest
        ((E.metadata.map fun m => (m c.drawn).held).getD [])))] := by
    unfold join request
    exact view_send_binding rfl
  rw [this]
  exact .single (.join _ _ _ _)

theorem joinHint_moves (c : Coordinator) : Moves M O I c.view (c.joinHint E).view := by
  unfold joinHint
  split
  · exact join_moves _ _
  · exact .refl

theorem view_bootstrap (c : Coordinator) :
    c.bootstrap.view = c.view ∨
    c.toCore.Named ∧
      c.accepted.lastAcceptedConfig = [] ∧
      ∃ config, c.bootstrap.view = c.view.withCore (c.toCore.boot config) := by
  unfold bootstrap
  split
  · exact Or.inl rfl
  · rename_i hblank
    split
    · exact Or.inl rfl
    · rename_i hnamed
      split
      · exact Or.inl rfl
      · rename_i found _
        simp only [Bool.or_eq_true, Bool.not_eq_true', not_or, Bool.not_eq_false,
          List.isEmpty_eq_false_iff] at hblank hnamed
        refine Or.inr ⟨hnamed, not_not.mp hblank.1, sortDedup found, ?_⟩
        rw [view_remark]
        rfl

/-- The first configuration is written, or nothing is. -/
theorem bootstrap_moves (c : Coordinator) :
    Moves M O I c.view c.bootstrap.view := by
  rcases view_bootstrap c with h | ⟨named, blank, config, h⟩ <;> rw [h]
  exact .single (Act.boot c.view config named blank)

/-! ## Publications -/

theorem view_announceCommit (c : Coordinator) (p : Publication) :
    ∃ dests rid, (c.announceCommit p).view = c.view.announce p dests rid := by
  refine ⟨p.state.nodes.keys.filter fun n => n != c.me.id && p.acked.contains n,
    c.rid.nextRequest, ?_⟩
  unfold announceCommit View.announce
  rw [view_record]
  congr 1
  exact view_emits_send (c := { c with publishing := none }.rid) (e := .request .commit c.me.id
    c.rid.nextRequest { term := some p.state.term, version := some p.state.version }) rfl

/-- Committing, given that what comes after moves as it should. -/
theorem commitWith_moves {next : Coordinator → Coordinator}
    (hnext : ∀ d, Moves M O I d.view (next d).view) {c : Coordinator} {p : Publication}
    (leads : c.mode = .leader) (inFlight : c.publishing = some p)
    (quorum : electionQuorum p.state p.acked = true) :
    Moves M O I c.view (commitWith E next c).view := by
  unfold commitWith
  rw [inFlight]
  dsimp only
  obtain ⟨dests, rid, hview⟩ := view_announceCommit c p
  refine ReflTransGen.head (Act.decide c.view p dests rid leads inFlight quorum) ?_
  refine ReflTransGen.trans (Eq.subst ?_ ReflTransGen.refl) (hnext _)
  rw [view_remark, view_answerReplies, view_applyShards, view_applyCommitted, hview]
  rfl

theorem view_putInFlight (base s : ClusterState) (c : Coordinator) :
    (c.putInFlight base s).view = (c.view.withCore { c.toCore.accept s with
      publishing := some ⟨s, c.nextRequest, (c.publishSeq + 1) % 2 ^ 64,
        (∅ : BTreeSet NodeId).insert c.me.id⟩ }).mark [.published base s, .accepted s] := by
  unfold putInFlight
  rw [view_timer]
  simp [view, View.withCore, View.mark, record, persistAccepted, Core.accept]

theorem view_launch (base s : ClusterState) (c : Coordinator) :
    (c.launch base s).view =
      c.view.publish base s c.rid.nextRequest ((c.publishSeq + 1) % 2 ^ 64) := by
  unfold launch
  rw [view_putInFlight, view_emits_send rfl]
  rfl

theorem launch_core (base s : ClusterState) (c : Coordinator) :
    (c.launch base s).toCore = (c.view.publish base s c.rid.nextRequest
      ((c.publishSeq + 1) % 2 ^ 64)).core :=
  congrArg View.core (view_launch base s c)

/-- Publishing, given the same. -/
theorem publishWith_moves {next : Coordinator → Coordinator}
    (hnext : ∀ d, Moves M O I d.view (next d).view) (base s : ClusterState)
    {c : Coordinator} (leads : c.mode = .leader) :
    Moves M O I (c.view.publish base (c.stamp s) c.rid.nextRequest
      ((c.publishSeq + 1) % 2 ^ 64)) (publishWith E next base s c).view := by
  unfold publishWith
  dsimp only
  rw [← view_launch]
  have hcore := launch_core base (c.stamp s) c
  split
  · rename_i quorum
    refine commitWith_moves hnext (p := ⟨c.stamp s, c.rid.nextRequest,
      (c.publishSeq + 1) % 2 ^ 64, (∅ : BTreeSet NodeId).insert c.me.id⟩) ?_ ?_ ?_
    · rw [hcore]; exact leads
    · rw [hcore]; rfl
    · rw [hcore] at quorum; exact quorum
  · exact .refl

/-! ### The next state -/

/-- Placing the shards changes neither a state's version nor its configurations. -/
theorem place_state (c : Coordinator) (s : ClusterState) :
    (c.place E s).2.version = s.version ∧
    (c.place E s).2.lastCommittedConfig = s.lastCommittedConfig ∧
    (c.place E s).2.lastAcceptedConfig = s.lastAcceptedConfig := by
  unfold place
  split <;> exact ⟨rfl, rfl, rfl⟩

/-- A configuration that carries a vote has somebody in it. -/
theorem hasQuorum_ne_nil {config : List NodeId} {votes : BTreeSet NodeId}
    (h : hasQuorum config votes = true) : config ≠ [] := by
  rintro rfl
  exact absurd h (by simp [hasQuorum])

/-- A new configuration has somebody in it where the old one had. -/
theorem reconfigure_ne_nil (c : Coordinator) {s : ClusterState}
    (h : s.lastCommittedConfig ≠ []) : c.reconfigure s ≠ [] := by
  unfold reconfigure
  split
  · rename_i hq
    exact hasQuorum_ne_nil hq
  · exact h

theorem admitNode_version (now : Millis) (l : List (NodeId × DiscoveryNode)) (s : ClusterState) :
    (l.foldl (admitNode now) s).version = s.version ∧
      (l.foldl (admitNode now) s).lastCommittedConfig = s.lastCommittedConfig := by
  induction l generalizing s with
  | nil => exact ⟨rfl, rfl⟩
  | cons a l ih => exact ih _

/-- The state that is published next, so far as elections look at it. -/
theorem nextState_spec (c : Coordinator) :
    (c.nextState E).1.version = (c.committed.version + 1) % 2 ^ 64 ∧
    (c.nextState E).1.lastCommittedConfig = c.committed.lastCommittedConfig ∧
    (c.committed.lastCommittedConfig ≠ [] → (c.nextState E).1.lastAcceptedConfig ≠ []) := by
  obtain ⟨hv, hl⟩ := admitNode_version c.lastWall c.waitingJoins.toList
    (c.committed.next (E.random c.drawn))
  refine ⟨hv, hl, fun h => ?_⟩
  apply reconfigure_ne_nil
  dsimp only
  rw [hl]
  exact h

/-- A state that is stamped was made from the one below it. -/
theorem madeFrom_stamp {c d : Coordinator} {base s : ClusterState}
    (core : d.toCore = c.toCore) (hv : s.version = (base.version + 1) % 2 ^ 64)
    (hl : s.lastCommittedConfig = base.lastCommittedConfig) :
    MadeFrom c.toCore base (d.stamp s) := by
  refine ⟨?_, ?_, hv, hl⟩
  · exact congrArg Core.currentTerm core
  · exact congrArg (fun k : Core => some k.me.id) core

theorem nextWith_publishes {next : Coordinator → Coordinator}
    (hnext : ∀ d, Moves M O I d.view (next d).view) {c : Coordinator}
    (leads : c.mode = .leader) (idle : c.publishing = none)
    (changed : (c.nextState E).2 = true) :
    ∃ s rid seq, MadeFrom c.toCore c.committed s ∧
      (c.committed.lastCommittedConfig ≠ [] → s.lastAcceptedConfig ≠ []) ∧
      Moves M O I (c.view.publish c.committed s rid seq)
        (nextWith E (publishWith E next) c).view := by
  obtain ⟨hv, hl, hc⟩ := nextState_spec (E := E) c
  obtain ⟨pv, pl, pa⟩ := place_state (E := E) c.takeUp (c.nextState E).1
  have hd : ((c.takeUp.place E (c.nextState E).1).1.followAll
      (c.takeUp.place E (c.nextState E).1).2).view = c.view :=
    view_place E c.takeUp (c.nextState E).1
  unfold nextWith
  rw [if_neg (by simp [leads, idle])]
  dsimp only
  rw [if_neg (by simp [changed])]
  generalize (c.takeUp.place E (c.nextState E).1).1.followAll
    (c.takeUp.place E (c.nextState E).1).2 = d at hd ⊢
  generalize (c.takeUp.place E (c.nextState E).1).2 = s at pv pl pa ⊢
  have core : d.toCore = c.toCore := congrArg View.core hd
  have rest := publishWith_moves (E := E) hnext c.committed s
    (c := d) (by rw [core]; exact leads)
  rw [hd] at rest
  exact ⟨d.stamp s, _, _, madeFrom_stamp core (pv.trans hv) (pl.trans hl),
    fun h => pa ▸ hc h, rest⟩

/-- The next publication, given how it is published. -/
theorem nextWith_moves {next : Coordinator → Coordinator}
    (hnext : ∀ d, Moves M O I d.view (next d).view) (c : Coordinator) :
    Moves M O I c.view (nextWith E (publishWith E next) c).view := by
  by_cases hidle : c.mode ≠ .leader ∨ c.publishing.isSome
  · unfold nextWith
    rw [if_pos hidle]
  · by_cases changed : (c.nextState E).2 = true
    · simp only [not_or, not_not, Bool.not_eq_true, Option.isSome_eq_false_iff,
        Option.isNone_iff_eq_none] at hidle
      obtain ⟨s, rid, seq, made, config, rest⟩ :=
        nextWith_publishes hnext hidle.1 hidle.2 changed
      exact ReflTransGen.head (Act.next c.view s rid seq hidle.1 hidle.2 made config) rest
    · unfold nextWith
      rw [if_neg hidle]
      dsimp only
      rw [if_pos (by simp [changed])]
      exact .refl

/-- Publishing and committing, by induction on the fuel they share. -/
theorem nextPublication_moves (n : Nat) (c : Coordinator) :
    Moves M O I c.view (nextPublication E n c).view := by
  induction n generalizing c with
  | zero => exact .refl
  | succ n ih => exact nextWith_moves ih c

theorem next_from {c d : Coordinator} (n : Nat) (h : d.view = c.view) :
    Moves M O I c.view (nextPublication E n d).view :=
  h ▸ nextPublication_moves n d

/-! ## Elections -/

/-- Taking the lead is a matter of the mode. -/
theorem view_takeLead (c : Coordinator) :
    (c.takeLead E).view =
      (c.view.withCore { c.toCore with mode := .leader, joinVotes := ∅ }).mark
        [.led c.currentTerm c.accepted] := by
  unfold takeLead
  rw [view_remark, view_record]
  rfl

/-- A new leader publishes. -/
theorem becomeLeader_moves {c : Coordinator} {v : View} (hv : (c.takeLead E).view = v)
    (leads : v.core.mode = .leader) :
    ∃ s rid seq, MadeFrom v.core c.accepted s ∧
      s.lastAcceptedConfig = c.accepted.lastAcceptedConfig ∧
      Moves M O I (v.publish c.accepted s rid seq) (c.becomeLeader E).view := by
  have hview := (view_place E (c.takeLead E) (c.firstState E)).trans hv
  obtain ⟨pv, pl, pa⟩ := place_state (E := E) (c.takeLead E) (c.firstState E)
  unfold becomeLeader
  dsimp only
  generalize (c.takeLead E).place E (c.firstState E) = placed at hview pv pl pa ⊢
  obtain ⟨d, s⟩ := placed
  dsimp only at hview pv pl pa ⊢
  have core : d.toCore = v.core := congrArg View.core hview
  have rest := publishWith_moves (E := E) (M := M) (O := O) (I := I)
    (nextPublication_moves (E := E) E.rounds) c.accepted s (c := d)
    (by rw [core]; exact leads)
  rw [hview] at rest
  refine ⟨d.stamp s, d.rid.nextRequest, (d.publishSeq + 1) % 2 ^ 64,
    ⟨?_, ?_, pv, pl⟩, pa, ?_⟩
  · exact congrArg Core.currentTerm core
  · exact congrArg (fun k : Core => some k.me.id) core
  · split
    · rw [view_timer, view_timer]
      exact rest
    · rw [view_timer]
      exact rest

/-- A vote that is counted may be the one that makes the leader. -/
theorem countVote_moves {c : Coordinator} {node : DiscoveryNode}
    (vote : VoteFor I c.toCore node)
    (own : O → c.eligible = true → electionQuorum c.accepted (c.votesAfter node) = true →
      c.toCore.OwnBase) :
    Moves M O I c.view (c.countVote E node).view := by
  unfold countVote
  dsimp only
  split
  · rename_i won
    rw [Bool.and_eq_true] at won
    obtain ⟨s, rid, seq, made, config, rest⟩ := becomeLeader_moves (E := E) (M := M) (O := O) (I := I)
      (view_takeLead { c with joinVotes := c.joinVotes.insert node.id node }) rfl
    refine ReflTransGen.head ?_ rest
    exact Act.lead c.view node s rid seq vote won.2 (fun o => own o won.1 won.2)
      ⟨made.term, made.manager, made.version, made.committedConfig⟩ config
  · exact .single (Act.count c.view node vote)

theorem welcome_moves {c : Coordinator} (node : DiscoveryNode) (sender : NodeId)
    (leads : c.mode = .leader) :
    Moves M O I c.view (c.welcome E node sender).view := by
  unfold welcome
  split
  · exact .refl
  · dsimp only
    split
    · rename_i hin
      rw [view_send_binding rfl]
      refine .single (Act.welcome c.view sender _ leads ?_)
      intro hempty
      have : c.committed.nodes = ∅ := hempty
      rw [this] at hin
      exact absurd hin.1 (by simp)
    · exact next_from _ rfl

theorem behind_moves (c : Coordinator) (sender : NodeId) :
    Moves M O I c.view (c.behind sender).view := by
  unfold behind
  split
  · rename_i leads
    unfold request
    rw [view_send_binding rfl]
    exact .single (Act.summon c.view sender _ leads)
  · rw [view_joinError]

/-- The vote is one that could make the node leader. -/
def WouldElect (c : Coordinator) (body : Body) : Prop :=
  c.mode = .candidate ∧ body.term.getD 0 = c.currentTerm ∧ body.vote = some true ∧
    c.eligible = true ∧ ∃ node ∈ body.node,
      electionQuorum c.accepted (c.votesAfter node) = true

instance (c : Coordinator) (body : Body) : Decidable (c.WouldElect body) :=
  inferInstanceAs (Decidable (_ ∧ _))

theorem sawTerm_learn_view (c : Coordinator) (t : Nat) (n : DiscoveryNode) :
    ((c.sawTerm E t).learn n).view =
      if t ≤ c.currentTerm then c.view else c.view.withCore (c.toCore.toTerm t) := by
  rw [view_learn, view_sawTerm]

theorem sawTerm_moves (c : Coordinator) (t : Nat) :
    Moves M O I c.view (c.sawTerm E t).view := by
  rw [view_sawTerm]
  split
  · exact .refl
  · rename_i h
    exact .single (Act.term c.view t (Nat.lt_of_not_le h))

/-- The vote came in a JOIN, or is the node's own. -/
def JoinFrom (I : Option Envelope) (k : Core) (body : Body) : Prop :=
  (∃ e, Got I e .join .request ∧ e.body = body) ∨
    (body.node = some k.me ∧ body.term = some k.currentTerm ∧
      k.lastJoin = some (k.currentTerm, k.me.id))

/-- A JOIN, where its vote was given for this term. -/
theorem onJoin_moves {c : Coordinator} {body : Body} {sender : NodeId}
    (source : JoinFrom I c.toCore body)
    (own : O → c.accepted.term ≤ c.currentTerm ∧ (c.WouldElect body → c.toCore.OwnBase)) :
    Moves M O I c.view (c.onJoin E body sender).view := by
  unfold onJoin
  dsimp only
  split
  · rw [view_noteHeld]
  · rename_i node hnode
    have hview := sawTerm_learn_view (E := E) (c.noteHeld body) (body.term.getD 0) node
    have hheld : (c.noteHeld body).toCore = c.toCore := congrArg View.core (view_noteHeld c body)
    rw [view_noteHeld, hheld] at hview
    generalize ((c.noteHeld body).sawTerm E (body.term.getD 0)).learn node = d at hview ⊢
    have moved : Moves M O I c.view d.view := by
      rw [hview]
      split
      · exact .refl
      · rename_i h
        exact .single (Act.term c.view _ (Nat.lt_of_not_le h))
    refine moved.trans ?_
    split
    · exact behind_moves _ _
    · rename_i hterm
      split
      · rw [view_joinError]
      · rename_i hfresh
        split
        · rename_i hcand
          split
          · rename_i hvote
            have hvote : body.vote = some true := by
              cases hb : body.vote with
              | none => rw [hb] at hvote; exact absurd hvote (by simp)
              | some b => rw [hb] at hvote; exact congrArg some hvote
            have hfresh := Bool.eq_false_iff.mpr hfresh
            by_cases h : body.term.getD 0 ≤ c.currentTerm
            · -- the node was in the term already: nothing about it has changed
              rw [if_pos h] at hview
              have core : d.toCore = c.toCore := congrArg View.core hview
              have hnow : body.term.getD 0 = d.currentTerm := by
                rw [core] at hterm ⊢
                omega
              apply countVote_moves
              · refine ⟨hcand, ?_⟩
                rcases source with ⟨e, got, rfl⟩ | ⟨hme, _, hjoin⟩
                · exact Or.inl ⟨e, got, hnow, hvote, hnode, hfresh⟩
                · rw [hnode] at hme
                  rw [core]
                  exact Or.inr ⟨Option.some.inj hme, hjoin⟩
              · intro o elig won
                rw [core]
                refine (own o).2 ⟨by rw [← core]; exact hcand, by rw [← core]; exact hnow,
                  hvote, ?_, node, hnode, ?_⟩
                · unfold eligible at elig ⊢
                  rw [← core]; exact elig
                · unfold votesAfter at won ⊢
                  rw [← core]; exact won
            · -- the join brought the node up to its term, above that of its base
              rw [if_neg h] at hview
              have core : d.toCore = c.toCore.toTerm (body.term.getD 0) :=
                congrArg View.core hview
              apply countVote_moves
              · refine ⟨hcand, ?_⟩
                rcases source with ⟨e, got, rfl⟩ | ⟨_, hnow, _⟩
                · exact Or.inl ⟨e, got, by rw [core]; rfl, hvote, hnode, hfresh⟩
                · exact absurd (by rw [hnow]; exact le_rfl) h
              · intro o _ _
                refine Or.inl ?_
                rw [core]
                exact Nat.lt_of_le_of_lt (own o).1 (Nat.lt_of_not_le h)
          · exact .refl
        · rename_i leads
          exact welcome_moves _ _ leads
        · rw [view_joinError]

theorem onStartJoin_view (c : Coordinator) (t : Nat) (dest : NodeId)
    (h : c.currentTerm < t) :
    ({ c.sawTerm E t with lastJoin := some (t, dest) }.record (.voted t dest)).view =
      (c.view.withCore { c.toCore.toTerm t with lastJoin := some (t, dest) }).mark
        [.voted t dest] := by
  rw [view_record]
  have hview := view_sawTerm E t c
  rw [if_neg (Nat.not_le_of_lt h)] at hview
  exact congrArg (fun v : View => v.mark [.voted t dest])
    (view_of_core hview (fun k => { k with lastJoin := some (t, dest) }) rfl rfl rfl)

theorem onStartJoin_self_moves {c d : Coordinator} {t : Nat} {msgs : List (NodeId × Envelope)}
    (hd : d.view = c.view.send msgs) (higher : c.currentTerm < t)
    (told : ∀ m ∈ msgs, IsStartJoin c.me.id t m.2)
    (own : O → c.accepted.term ≤ c.currentTerm) :
    Moves M O I c.view (d.onStartJoin E t d.me.id).view := by
  have core : d.toCore = c.toCore := congrArg View.core hd
  have hme : d.me.id = c.me.id := congrArg (fun k : Core => k.me.id) core
  have hview := onStartJoin_view (E := E) d t c.me.id (by rw [core]; exact higher)
  unfold onStartJoin
  rw [if_neg (by rw [core]; exact Nat.not_le_of_lt higher), hme]
  dsimp only
  generalize ({ d.sawTerm E t with lastJoin := some (t, c.me.id) } : Coordinator).record
    (.voted t c.me.id) = b at hview ⊢
  have bcore : b.toCore = { c.toCore.toTerm t with lastJoin := some (t, c.me.id) } := by
    have := congrArg View.core hview
    rw [core] at this
    exact this
  rw [if_pos (by rw [bcore]; rfl)]
  rw [hd, core] at hview
  have rest : Moves M O I b.view (b.onJoin E (b.joinBody E c.me.id) c.me.id).view := by
    apply onJoin_moves
    · refine Or.inr ⟨rfl, rfl, ?_⟩
      rw [bcore]
      rfl
    · intro o
      have low : b.accepted.term < b.currentTerm := by
        rw [bcore]
        exact Nat.lt_of_le_of_lt (own o) higher
      exact ⟨low.le, fun _ => Or.inl low⟩
  rw [hview] at rest
  exact ReflTransGen.head (Act.candidacy c.view t msgs higher told) rest

/-- A START_JOIN binds the node to a term, and then its vote to a candidate. -/
theorem onStartJoin_moves {c : Coordinator} {e : Envelope} (got : Got I e .startJoin .request)
    (own : O → c.accepted.term ≤ c.currentTerm) :
    Moves M O I c.view (c.onStartJoin E (e.body.term.getD 0) e.sender).view := by
  by_cases higher : c.currentTerm < e.body.term.getD 0
  · by_cases hme : e.sender = c.me.id
    · rw [hme]
      have quiet : c.view = c.view.send [] := by simp [View.send]
      exact onStartJoin_self_moves quiet higher (by simp) own
    · have named : e.body.term = some (e.body.term.getD 0) := by
        cases hb : e.body.term with
        | none => rw [hb] at higher; exact absurd higher (Nat.not_lt_zero _)
        | some t => rfl
      have hview := onStartJoin_view (E := E) c _ e.sender higher
      unfold onStartJoin
      rw [if_neg (Nat.not_le_of_lt higher)]
      dsimp only
      generalize ({ c.sawTerm E (e.body.term.getD 0) with
        lastJoin := some (e.body.term.getD 0, e.sender) } : Coordinator).record
          (.voted (e.body.term.getD 0) e.sender) = d at hview ⊢
      have hdme : d.me = c.me := congrArg (fun v : View => v.core.me) hview
      rw [if_neg (by rw [hdme]; exact hme)]
      have rest := join_moves (E := E) (M := M) (O := O) (I := I) d e.sender
      rw [hview] at rest
      exact ReflTransGen.head (Act.vote c.view e _ got named higher hme) rest
  · unfold onStartJoin
    rw [if_pos (Nat.le_of_not_lt higher)]

theorem foldl_startJoin_view (t : Nat) (l : List NodeId) (c : Coordinator) :
    ∃ msgs, (l.foldl (fun c n => c.request n .startJoin { term := some t }) c).view =
      c.view.send msgs ∧ ∀ m ∈ msgs, IsStartJoin c.me.id t m.2 := by
  induction l generalizing c with
  | nil => exact ⟨[], by simp [View.send], by simp⟩
  | cons n l ih =>
    obtain ⟨msgs, hview, told⟩ := ih (c.request n .startJoin { term := some t })
    refine ⟨(n, .request .startJoin c.me.id c.rid.nextRequest { term := some t }) :: msgs, ?_, ?_⟩
    · rw [List.foldl_cons, hview]
      unfold request
      rw [view_send_binding rfl]
      simp only [View.send, List.append_assoc, List.singleton_append]
      rfl
    · intro m hm
      rcases List.mem_cons.mp hm with rfl | hm
      · exact ⟨_, rfl⟩
      · exact told m hm

/-- So does standing for election, to itself. -/
theorem startElection_moves {c : Coordinator} (own : O → c.accepted.term ≤ c.currentTerm) :
    Moves M O I c.view (c.startElection E).view := by
  unfold startElection
  dsimp only
  have hb : ({ c with prevoteRid := 0, prevotes := ∅ }.remark
      (.election c.electionTerm)).view = c.view := view_remark _ _
  generalize ({ c with prevoteRid := 0, prevotes := ∅ } : Coordinator).remark
    (.election c.electionTerm) = b at hb ⊢
  have bcore : b.toCore = c.toCore := congrArg View.core hb
  obtain ⟨msgs, hview, told⟩ := foldl_startJoin_view c.electionTerm b.everyone.toList b
  rw [hb] at hview
  rw [bcore] at told
  generalize b.everyone.toList.foldl
    (fun x n => x.request n .startJoin { term := some c.electionTerm }) b = d at hview ⊢
  by_cases higher : c.currentTerm < c.electionTerm
  · exact onStartJoin_self_moves hview higher told own
  · -- there is no higher term: everyone is told, and nothing moves here
    have core : d.toCore = c.toCore := congrArg View.core hview
    unfold onStartJoin
    rw [if_pos (by rw [core]; exact Nat.le_of_not_lt higher), hview]
    refine .single (Act.vain c.view c.electionTerm msgs ?_ told)
    unfold electionTerm at higher ⊢
    omega

/-! ## The arms of `on_message` -/

theorem view_respond {c : Coordinator} {e : Envelope} {b : Body} (hj : e.action ≠ .join)
    (hp : e.action ≠ .publish) : (c.respond e b).view = c.view := by
  apply view_send
  unfold Envelope.binding Envelope.response
  cases h : e.action <;> first | rfl | exact absurd h hj | exact absurd h hp

theorem onPeersRequest_view {c : Coordinator} {e : Envelope} (h : e.action = .peers) :
    (c.onPeersRequest e).view = c.view := by
  unfold onPeersRequest
  dsimp only
  rw [view_respond (by rw [h]; decide) (by rw [h]; decide)]
  split
  · split <;> simp
  · rfl

theorem followHint_moves (c : Coordinator) (leader : Option String) :
    Moves M O I c.view (c.followHint E leader).view := by
  unfold followHint
  split
  · split
    · exact join_moves (E := E) { c with leaderHint := some _ } _
    · exact .refl
  · exact .refl

theorem onPeersResponse_moves (c : Coordinator) (e : Envelope) :
    Moves M O I c.view (c.onPeersResponse E e).view := by
  unfold onPeersResponse
  have := followHint_moves (E := E) (M := M) (O := O) (I := I)
    (e.body.peers.foldl learn c) e.body.leader
  rwa [view_foldl view_learn] at this

theorem onPreVoteRequest_view {c : Coordinator} {e : Envelope} (h : e.action = .preVote) :
    (c.onPreVoteRequest e).view = c.view := by
  unfold onPreVoteRequest
  split
  · exact view_refuseStranger _ _
  · dsimp only
    split
    · exact view_refuse _ _ _
    · exact view_respond (by rw [h]; decide) (by rw [h]; decide)

theorem onPreVoteResponse_moves {c : Coordinator} (e : Envelope)
    (own : O → c.accepted.term ≤ c.currentTerm) :
    Moves M O I c.view (c.onPreVoteResponse E e).view := by
  unfold onPreVoteResponse
  split
  · exact .refl
  · dsimp only
    split
    · exact .refl
    · split
      · exact startElection_moves (E := E) (c := { c with
          maxTermSeen := max c.maxTermSeen (e.body.term.getD 0), prevotes := ∅ }) own
      · exact .refl

theorem onPreVoteError_moves (c : Coordinator) (e : Envelope) :
    Moves M O I c.view (c.onPreVoteError E e).view := by
  have hint : ∀ (d : Coordinator) (l : NodeId), d.view = c.view → Moves M O I c.view
      (if l ≠ d.me.id ∧ d.mode = Mode.candidate then
        { d with leaderHint := some l }.join E l else d).view := by
    intro d l hd
    rw [← hd]
    split
    · exact join_moves (E := E) { d with leaderHint := some _ } _
    · exact .refl
  unfold onPreVoteError
  cases e.body.leader with
  | none => cases e.body.term <;> exact .refl
  | some l =>
    cases e.body.term with
    | none => exact hint c l rfl
    | some t => exact hint { c with maxTermSeen := max c.maxTermSeen t } l rfl

theorem onStartJoinRequest_moves {c : Coordinator} {e : Envelope}
    (got : Got I e .startJoin .request) (own : O → c.accepted.term ≤ c.currentTerm) :
    Moves M O I c.view (c.onStartJoinRequest E e).view := by
  unfold onStartJoinRequest
  split
  · rw [view_refuseStranger]
  · have hview : (c.respond e {}).view = c.view :=
      view_respond (by rw [got.action_eq]; decide) (by rw [got.action_eq]; decide)
    have core : (c.respond e {}).toCore = c.toCore := congrArg View.core hview
    rw [← hview]
    exact onStartJoin_moves got (fun o => by rw [core]; exact own o)

theorem sawTermIn_moves (c : Coordinator) (b : Body) :
    Moves M O I c.view (c.sawTermIn E b).view := by
  unfold sawTermIn
  split
  · exact sawTerm_moves _ _
  · exact .refl

theorem onJoinError_moves (c : Coordinator) (e : Envelope) :
    Moves M O I c.view (c.onJoinError E e).view := by
  unfold onJoinError
  refine (sawTermIn_moves (E := E) c e.body).trans ?_
  generalize c.sawTermIn E e.body = d
  have forget : (if d.leaderHint = some e.sender then { d with leaderHint := none }
      else d : Coordinator).view = d.view := by
    split <;> rfl
  dsimp only
  split
  · split
    · rw [forget]
    · split
      · exact join_moves (E := E) { d with leaderHint := some _ } _
      · exact .refl
  · rw [forget]

@[simp] theorem view_beginFollowing (c : Coordinator) :
    c.beginFollowing.view = c.view := view_timer _ _ _

theorem onJoinResponse_moves {c : Coordinator} {e : Envelope} (got : Got I e .join .response) :
    Moves M O I c.view (c.onJoinResponse E e).view := by
  unfold onJoinResponse
  split
  · rename_i s carries
    split
    · rename_i hterm
      have hview : ({ c.applyCommitted s with
          mode := .follower e.sender, leaderHint := some e.sender } : Coordinator).view =
          (c.view.applyCommitted s).withCore
            { (c.view.applyCommitted s).core with mode := .follower e.sender } :=
        view_of_core (view_applyCommitted c s) (fun k => { k with mode := .follower e.sender })
          rfl rfl rfl
      have act := Act.joined (M := M) (O := O) c.view e s got carries hterm
      rw [← hview] at act
      refine .single ?_
      dsimp only
      split
      · rw [view_beginFollowing, view_applyShards]
        exact act
      · rw [view_applyShards]
        exact act
    · exact .refl
  · exact .refl

theorem publishRefusal_none {c : Coordinator} {s : ClusterState}
    (h : c.publishRefusal s = none) :
    s.term = c.currentTerm ∧ ¬ (s.term = c.accepted.term ∧ s.version ≤ c.accepted.version) := by
  unfold publishRefusal at h
  split at h
  · exact absurd h (by simp)
  · rename_i hterm
    split at h
    · exact absurd h (by simp)
    · rename_i hstale
      exact ⟨not_not.mp hterm, hstale⟩

/-- Accepting a state is acknowledged. -/
theorem accept_view {c : Coordinator} {e : Envelope} {s : ClusterState}
    (got : Got I e .publish .request) :
    (c.accept e s).view =
      ((c.view.withCore { c.toCore.accept s with
        mode := .follower (s.clusterManager.getD e.sender) }).send
          [(e.sender, e.response c.me.id
            { term := some s.term, version := some s.version })]).mark [.accepted s] := by
  have binding : (e.response c.me.id
      { term := some s.term, version := some s.version }).binding = true := by
    simp [Envelope.response, Envelope.binding, got.action_eq]
  unfold accept
  dsimp only
  have hsend : ∀ d : Coordinator, d.me = c.me → (d.respond e
      { term := some s.term, version := some s.version }).view =
        d.view.send [(e.sender, e.response c.me.id
          { term := some s.term, version := some s.version })] := by
    intro d hme
    unfold respond
    rw [hme]
    exact view_send_binding binding
  split
  · refine (hsend _ ?_).trans ?_ <;> rfl
  · rw [view_beginFollowing]
    refine (hsend _ ?_).trans ?_ <;> rfl

/-- A publication is accepted, or refused. -/
theorem onPublishRequest_moves {c : Coordinator} {e : Envelope}
    (got : Got I e .publish .request) :
    Moves M O I c.view (c.onPublishRequest e).view := by
  unfold onPublishRequest
  split
  · rw [view_refuseStranger]
  · split
    · exact .refl
    · rename_i s carries
      split
      · rw [refusePublish, view_refuse]
      · rename_i h
        obtain ⟨hterm, newer⟩ := publishRefusal_none h
        rw [accept_view got]
        exact .single (Act.accept c.view e s _ got carries hterm newer)

/-- An acknowledgement is one of what is being published. -/
theorem acknowledged_some {c : Coordinator} {e : Envelope} {p : Publication}
    (h : c.acknowledged e = some p) :
    ∃ q, c.publishing = some q ∧ q.rid = e.requestId ∧
      p = { q with acked := q.acked.insert e.sender } := by
  unfold acknowledged at h
  split at h
  · rename_i q hq
    split at h
    · rename_i hrid
      exact ⟨q, hq, hrid, (Option.some.inj h).symm⟩
    · exact absurd h (by simp)
  · exact absurd h (by simp)

theorem lateCommit_moves {c : Coordinator} (e : Envelope) (leads : c.mode = .leader) :
    Moves M O I c.view (c.lateCommit e).view := by
  unfold lateCommit
  dsimp only
  split
  · rename_i h
    obtain ⟨idle, hterm, hversion, -⟩ := h
    rw [hterm, hversion]
    unfold request
    rw [view_send_binding rfl]
    exact .single (Act.late c.view e.sender _ leads (Option.isNone_iff_eq_none.mp idle))
  · exact .refl

/-- An answer to a publication carries the term and version it answers. -/
def Matched (c : Coordinator) (e : Envelope) : Prop :=
  c.mode = .leader → ∀ p ∈ c.publishing, p.rid = e.requestId →
    e.body.term = some p.state.term ∧ e.body.version = some p.state.version

instance (c : Coordinator) (e : Envelope) : Decidable (c.Matched e) :=
  inferInstanceAs (Decidable (_ → _))

/-- An acknowledgement, which may decide a publication. -/
theorem onPublishResponse_moves {c : Coordinator} {e : Envelope}
    (got : Got I e .publish .response) (matched : M → c.Matched e) :
    Moves M O I c.view (c.onPublishResponse E e).view := by
  unfold onPublishResponse
  split
  · exact .refl
  · rename_i leads
    have leads := not_not.mp leads
    split
    · rename_i p hp
      obtain ⟨q, hq, hrid, rfl⟩ := acknowledged_some hp
      refine ReflTransGen.head (Act.ack c.view e q got leads hq hrid
        fun m => matched m leads q hq hrid) ?_
      dsimp only
      split
      · rename_i quorum
        exact commitWith_moves (nextPublication_moves E.rounds) (c := { c with
          publishing := some { q with acked := q.acked.insert e.sender } }) leads rfl quorum
      · exact lateCommit_moves (c := { c with
          publishing := some { q with acked := q.acked.insert e.sender } }) e leads
    · exact lateCommit_moves e leads

theorem onPublishError_moves (c : Coordinator) (e : Envelope) :
    Moves M O I c.view (c.onPublishError E e).view :=
  sawTermIn_moves c e.body

/-- A commit puts what was accepted in force. -/
theorem onCommitRequest_moves {c : Coordinator} {e : Envelope}
    (got : Got I e .commit .request) :
    Moves M O I c.view (c.onCommitRequest E e).view := by
  unfold onCommitRequest
  split
  · rw [view_refuseStranger]
  · dsimp only
    split
    · rename_i h
      obtain ⟨now, hterm, hversion⟩ := h
      rw [view_remark, view_applyShards,
        view_respond (by rw [got.action_eq]; decide) (by rw [got.action_eq]; decide)]
      have act := Act.commit (M := M) (O := O) c.view e got now hterm hversion
      have hview : (c.applyCommitted c.accepted).view =
          c.view.applyCommitted c.view.core.accepted := view_applyCommitted c c.accepted
      rw [← hview] at act
      exact .single act
    · exact .refl

/-! ### Checks -/

theorem onFollowerCheckRequest_moves {c : Coordinator} {e : Envelope}
    (h : e.action = .followerCheck) :
    Moves M O I c.view (c.onFollowerCheckRequest E e).view := by
  have quiet : ∀ d : Coordinator, (d.respond e {}).view = d.view := fun d =>
    view_respond (by rw [h]; decide) (by rw [h]; decide)
  unfold onFollowerCheckRequest
  split
  · rw [view_refuseStranger]
  · dsimp only
    split
    · rw [view_refuse]
    · refine (sawTerm_moves (E := E) c (e.body.term.getD 0)).trans ?_
      generalize c.sawTerm E (e.body.term.getD 0) = d
      split
      · rw [view_beginFollowing, quiet]
        exact .single (Act.follow d.view e.sender)
      · split
        · rw [quiet]
        · rw [view_refuse]
      · rw [view_refuse]

theorem onFollowerCheckResponse_view (c : Coordinator) (e : Envelope) :
    (c.onFollowerCheckResponse e).view = c.view := by
  unfold onFollowerCheckResponse
  split
  · rfl
  · dsimp only
    split <;> rfl

theorem onFollowerCheckError_moves (c : Coordinator) (e : Envelope) :
    Moves M O I c.view (c.onFollowerCheckError E e).view := by
  have seen : ∀ d : Coordinator, d.view = c.view →
      Moves M O I c.view (d.sawTermIn E e.body).view :=
    fun d hd => hd ▸ sawTermIn_moves d e.body
  unfold onFollowerCheckError
  dsimp only
  split
  · exact seen _ rfl
  · exact seen _ rfl

theorem onLeaderCheckRequest_view {c : Coordinator} {e : Envelope}
    (h : e.action = .leaderCheck) : (c.onLeaderCheckRequest e).view = c.view := by
  unfold onLeaderCheckRequest
  split
  · exact view_respond (by rw [h]; decide) (by rw [h]; decide)
  · exact view_refuse _ _ _

theorem onLeaderCheckResponse_view (c : Coordinator) (e : Envelope) :
    (c.onLeaderCheckResponse e).view = c.view := by
  unfold onLeaderCheckResponse
  split <;> rfl

theorem becomeCandidate_moves (c : Coordinator) :
    Moves M O I c.view (c.becomeCandidate E).view := by
  rw [view_becomeCandidate]
  exact .single (Act.stepDown c.view)

theorem onLeaderCheckError_moves (c : Coordinator) (e : Envelope) :
    Moves M O I c.view (c.onLeaderCheckError E e).view := by
  unfold onLeaderCheckError
  refine (sawTermIn_moves (E := E) c e.body).trans ?_
  dsimp only
  split
  · exact becomeCandidate_moves _
  · exact .refl

/-! ### Reports, commands, departures -/

theorem takeReport_moves (c : Coordinator) (kind : ReportKind) (e : Envelope)
    (ev : ShardEvent) : Moves M O I c.view (c.takeReport E kind e ev).view :=
  next_from _ rfl

theorem onShardReport_moves {c : Coordinator} {e : Envelope} (kind : ReportKind)
    (h : e.action = kind.action) :
    Moves M O I c.view (c.onShardReport E kind e).view := by
  have quiet : (c.respond e {}).view = c.view :=
    view_respond (by rw [h]; cases kind <;> decide) (by rw [h]; cases kind <;> decide)
  unfold onShardReport
  split
  · rw [refuseNotManager, view_refuse]
  · split
    · rw [view_refuseStranger]
    · dsimp only
      split
      · split
        · exact takeReport_moves _ _ _ _
        · rw [view_refuse]
      · split
        · exact next_from _ quiet
        · split
          · rw [view_refuse]
          · split
            · exact takeReport_moves _ _ _ _
            · exact takeReport_moves _ _ _ _

theorem onMetadataReport_moves {c : Coordinator} {e : Envelope}
    (h : e.action = .metadataReport) :
    Moves M O I c.view (c.onMetadataReport E e).view := by
  unfold onMetadataReport
  split
  · rw [view_refuse]
  · dsimp only
    exact next_from _ (view_respond (by rw [h]; decide) (by rw [h]; decide))

theorem onReroute_moves {c : Coordinator} {e : Envelope} (h : e.action = .reroute) :
    Moves M O I c.view (c.onReroute E e).view := by
  have quiet : ∀ (d : Coordinator) (b : Body), (d.respond e b).view = d.view := fun d b =>
    view_respond (by rw [h]; decide) (by rw [h]; decide)
  unfold onReroute
  split
  · rw [refuseNotManager, view_refuse]
  · split
    · rw [view_refuse]
    · dsimp only
      split
      · rw [view_refuse]
      · generalize Allocation.reroute _ _ _ _ = after
        generalize hd : respond { c with drawn := after.drawn } e _ = d
        have answered : d.view = c.view := by
          rw [← hd]
          exact quiet _ _
        split
        · rw [answered]
        · exact next_from _ answered

theorem onLeave_moves {c : Coordinator} {e : Envelope} (h : e.action = .leave) :
    Moves M O I c.view (c.onLeave E e).view := by
  unfold onLeave
  split
  · exact next_from _ (view_respond (by rw [h]; decide) (by rw [h]; decide))
  · exact .refl

/-! ## `handle` -/

/-- What is asked of a message and of the state it finds. -/
structure Fair (M O : Prop) (c : Coordinator) (e : Envelope) : Prop where
  matched : M → e.action = .publish → e.kind = .response → c.Matched e
  own : O → e.action = .join → e.kind = .request → c.WouldElect e.body → c.toCore.OwnBase

instance [Decidable M] [Decidable O] (c : Coordinator) (e : Envelope) :
    Decidable (c.Fair M O e) :=
  have : Decidable c.toCore.OwnBase := inferInstanceAs (Decidable (_ ∨ _))
  decidable_of_iff ((M → e.action = .publish → e.kind = .response → c.Matched e) ∧
    (O → e.action = .join → e.kind = .request → c.WouldElect e.body → c.toCore.OwnBase))
    ⟨fun ⟨m, o⟩ => ⟨m, o⟩, fun ⟨m, o⟩ => ⟨m, o⟩⟩

/-- **A message moves a node by the acts of its election and its publications.** -/
theorem onMessage_moves {c : Coordinator} {e : Envelope} (fair : c.Fair M O e)
    (low : O → c.accepted.term ≤ c.currentTerm) :
    Moves M O (some e) c.view (c.onMessage E e).view := by
  unfold onMessage
  split <;> rename_i ha hk
  · rw [onPeersRequest_view ha]
  · exact onPeersResponse_moves _ _
  · rw [onPreVoteRequest_view ha]
  · exact onPreVoteResponse_moves _ low
  · exact onPreVoteError_moves _ _
  · exact onStartJoinRequest_moves ⟨rfl, ha, hk⟩ low
  · exact onJoin_moves (.inl ⟨e, ⟨rfl, ha, hk⟩, rfl⟩) fun o => ⟨low o, fair.own o ha hk⟩
  · exact onJoinError_moves _ _
  · exact onJoinResponse_moves ⟨rfl, ha, hk⟩
  · exact onPublishRequest_moves ⟨rfl, ha, hk⟩
  · exact onPublishResponse_moves ⟨rfl, ha, hk⟩ fun m => fair.matched m ha hk
  · exact onPublishError_moves _ _
  · exact onCommitRequest_moves ⟨rfl, ha, hk⟩
  · exact onFollowerCheckRequest_moves ha
  · rw [onFollowerCheckResponse_view]
  · exact onFollowerCheckError_moves _ _
  · rw [onLeaderCheckRequest_view ha]
  · rw [onLeaderCheckResponse_view]
  · exact onLeaderCheckError_moves _ _
  · exact onShardReport_moves .started ha
  · exact onShardReport_moves .failed ha
  · exact onShardReport_moves .stale ha
  · exact onMetadataReport_moves ha
  · exact onReroute_moves ha
  · exact onLeave_moves ha
  · exact .refl

@[simp] theorem view_pollMetadata (c : Coordinator) : (c.pollMetadata E).view = c.view := by
  unfold pollMetadata
  split
  · exact view_timer _ _ _
  · rfl

/-- And a start, from what is on disk. -/
theorem onStart_moves (c : Coordinator) :
    Moves M O none (c.restore.view.withCore c.restore.toCore.stepDown)
      (c.onStart E).view := by
  unfold onStart
  have hview : (c.restore.accepted.nodes.values.foldl learn c.restore).view = c.restore.view :=
    view_foldl view_learn _ _
  rw [view_pollMetadata, view_becomeCandidate]
  generalize c.restore.accepted.nodes.values.foldl learn c.restore = d at hview ⊢
  have core : d.toCore = c.restore.toCore := congrArg View.core hview
  rcases view_bootstrap d with h | ⟨named, blank, config, h⟩
  · have hcore : d.bootstrap.toCore = c.restore.toCore := (congrArg View.core h).trans core
    rw [h, hview, hcore]
  · have hcore : d.bootstrap.toCore = c.restore.toCore.boot config :=
      (congrArg View.core h).trans (by rw [← core]; rfl)
    rw [h, hview, hcore]
    rw [core] at named blank
    exact .single (Act.boot (c.restore.view.withCore c.restore.toCore.stepDown) config
      named blank)

theorem bootstrap_leaderHint {c : Coordinator} (h : c.leaderHint = none) :
    c.bootstrap.leaderHint = none := by
  unfold bootstrap
  split
  · exact h
  · split
    · exact h
    · split
      · exact h
      · dsimp only
        unfold remark
        split <;> exact h

theorem onDiscoverTimer_moves (c : Coordinator) :
    Moves M O I c.view (c.onDiscoverTimer E).view := by
  unfold onDiscoverTimer
  refine (bootstrap_moves { c with leaderHint := none }).trans ?_
  rw [view_discover E (bootstrap_leaderHint rfl)]

theorem onElectionTimer_moves {c : Coordinator} (low : O → c.accepted.term ≤ c.currentTerm) :
    Moves M O I c.view (c.onElectionTimer E).view := by
  have calendar : ∀ d : Coordinator, Moves M O I c.view d.view → Moves M O I c.view
      (if d.mode = Mode.candidate then d.scheduleElection else d).view := by
    intro d hd
    split
    · rwa [view_scheduleElection]
    · exact hd
  unfold onElectionTimer
  dsimp only
  split
  · exact .refl
  · apply calendar
    have hjoin := joinHint_moves (E := E) (M := M) (O := O) (I := I)
      { c with electionScheduled := false }
    have hcore : ({ c with electionScheduled := false }.joinHint E).toCore = c.toCore := by
      unfold joinHint
      split <;> rfl
    generalize ({ c with electionScheduled := false } : Coordinator).joinHint E = d
      at hjoin hcore ⊢
    refine ReflTransGen.trans (b := d.view) hjoin ?_
    split
    · exact .refl
    · split
      · have asked := view_prevote d
        have core : d.prevote.toCore = d.toCore := congrArg View.core asked
        rw [← asked]
        refine startElection_moves fun o => ?_
        rw [core, hcore]
        exact low o
      · rw [view_prevote]

theorem onPublishTimer_moves (c : Coordinator) :
    Moves M O I c.view (c.onPublishTimer E).view := by
  unfold onPublishTimer
  split
  · rename_i p _
    split
    · rw [← view_remark c (.publicationTimedOut p.state.version)]
      exact becomeCandidate_moves _
    · exact .refl
  · exact .refl

theorem view_missed (c : Coordinator) (n : NodeId) : (c.missed n).view = c.view := by
  unfold missed
  dsimp only
  split
  · exact view_remark _ _
  · rfl

theorem view_checkFollower (c : Coordinator) (n : NodeId) :
    (c.checkFollower n).view = c.view := by
  unfold checkFollower
  split
  · rfl
  · exact view_send rfl

theorem onFollowerCheckTimer_moves (c : Coordinator) :
    Moves M O I c.view (c.onFollowerCheckTimer E).view := by
  unfold onFollowerCheckTimer
  split
  · exact .refl
  · dsimp only
    rw [view_timer, view_foldl view_checkFollower]
    exact next_from _ (view_foldl view_missed _ _)

theorem onMetadataTimer_moves (c : Coordinator) :
    Moves M O I c.view (c.onMetadataTimer E).view := by
  have noticed : ∀ d : Coordinator, d.view = c.view → Moves M O I c.view
      ((if d.republishWanted && d.publishing.isNone then
        d.remark .metadataChanged else d).nextPublication E E.rounds).view := by
    intro d hd
    refine next_from _ ?_
    split
    · rw [view_remark, hd]
    · exact hd
  unfold onMetadataTimer
  rw [view_pollMetadata]
  split
  · dsimp only
    split
    · exact noticed _ rfl
    · exact noticed c rfl
  · rw [view_reportMetadata]

theorem onAllocateTimer_moves (c : Coordinator) :
    Moves M O I c.view (c.onAllocateTimer E).view := by
  unfold onAllocateTimer
  split
  · exact .refl
  · exact next_from _ rfl

theorem onLeaderCheckTimer_moves (c : Coordinator) :
    Moves M O I c.view (c.onLeaderCheckTimer E).view := by
  have lost : ∀ (d : Coordinator) (n : Note), d.view = c.view →
      Moves M O I c.view ((d.remark n).becomeCandidate E).view := by
    intro d n hd
    rw [← hd, ← view_remark d n]
    exact becomeCandidate_moves _
  unfold onLeaderCheckTimer
  split
  · dsimp only
    generalize (if c.leaderCheckOutstanding.isSome then (c.leaderMisses + 1) % 2 ^ 32
      else c.leaderMisses) = misses
    split
    · exact lost _ _ rfl
    · rw [view_timer, view_send rfl]
      exact .refl
  · exact .refl

/-- **So does a timer.** -/
theorem onTimer_moves {c : Coordinator} (id : TimerId)
    (low : O → c.accepted.term ≤ c.currentTerm) :
    Moves M O I c.view (c.onTimer E id).view := by
  unfold onTimer
  split
  · exact onDiscoverTimer_moves c
  · exact onElectionTimer_moves low
  · exact onPublishTimer_moves c
  · exact onFollowerCheckTimer_moves c
  · exact onMetadataTimer_moves c
  · exact onAllocateTimer_moves c
  · exact onLeaderCheckTimer_moves c
  · exact .refl

theorem onShardDone_moves (c : Coordinator) (id : String) (result : Except String Unit) :
    Moves M O I c.view (c.onShardDone E id result).view := by
  unfold onShardDone
  split
  · exact .refl
  · refine next_from _ ?_
    split
    · exact view_report _ _
    · rw [view_report]
      exact view_remark _ _

/-- The state a message finds, with the last one's output gone. -/
def clear (c : Coordinator) (wall : Millis) : Coordinator :=
  { c with lastWall := wall, out := [], history := [] }

/-- **Whatever is handled comes down to acts.** The start is apart: it acts on what
was on disk (`onStart_moves`). -/
theorem handle_moves {c : Coordinator} {input : Input} (running : input ≠ .start)
    (fair : ∀ e, input = .message e → c.Fair M O e)
    (low : O → c.accepted.term ≤ c.currentTerm) :
    Moves M O input.envelope ⟨c.toCore, [], []⟩ (c.handle E input).view := by
  have hview : (c.clear E.wall).view = ⟨c.toCore, [], []⟩ := rfl
  unfold handle
  rw [← hview]
  cases input with
  | start => exact absurd rfl running
  | message e =>
    have ⟨matched, own⟩ := fair e rfl
    exact onMessage_moves ⟨matched, own⟩ low
  | timer id => exact onTimer_moves id low
  | peer node =>
    rw [← view_learn (c.clear E.wall) node]
    exact bootstrap_moves _
  | shardDone id result => exact onShardDone_moves _ _ _

end Coordinator

end Velosearch.Cluster

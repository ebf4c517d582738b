import Velosearch.Cluster.Sim
import Velosearch.Lib.Succession

/-!
# What a cluster's past and its wire say

A `Scene` is everything sent and everything recorded so far. `Mark` says what stands
behind each event and `Msg` what stands behind each binding message: a vote behind
every start-join, an accepted state behind every answer to a publication, a quorum
behind every decision. Both only speak of what is already in the scene, so a scene
that grows keeps them; `Global` is that all of a scene's events and messages are so
backed, and `Local` is what a node's core adds.

**`Global.lawful`** is the bridge to the abstract development: the past of a scene
is a `Lib.Record` that is `Lawful`, below the last term there is.

The parameter `O` is whether managers are elected over their own or older states
only. What needs it is asked of terms in `Speaks`; the rest holds without.
-/

set_option autoImplicit false

namespace Velosearch.Cluster

open Coordinator

/-- The messages on the wire and what each node did. -/
structure Scene where
  wire : List (NodeId × Envelope)
  past : List (NodeId × Event)

namespace Scene

variable {O : Prop} {first : List NodeId} {sc sc' : Scene} {n m : NodeId}

/-- The node did it. -/
def Did (sc : Scene) (n : NodeId) (e : Event) : Prop := (n, e) ∈ sc.past

/-- Somebody published the state. -/
def Published (sc : Scene) (s : ClusterState) : Prop :=
  ∃ n base, sc.Did n (.published base s)

/-- Somebody decided it. -/
def Decided (sc : Scene) (s : ClusterState) : Prop := ∃ n, sc.Did n (.decided s)

/-- A term other than the last, where terms wrap around. -/
def Speaks (O : Prop) (t : Nat) : Prop := O ∧ t < u64Max

/-! ## What a state is -/

/-- An accepted state is one that was published, or the root. -/
def Stands (first : List NodeId) (sc : Scene) (a : ClusterState) : Option ClusterState → Prop
  | none => Sim.IsRoot first a
  | some p => sc.Published p ∧ (a = p ∨ a = settled p ∧ sc.Decided p)

/-- It is the root of a node that knows no cluster, or stands. -/
def Standing (first : List NodeId) (sc : Scene) (a : ClusterState) : Prop :=
  Sim.IsRoot [] a ∨ ∃ b, Stands first sc a b

/-- A state that was committed: a root, or a decided one with its configuration in force. -/
def Settles (first : List NodeId) (sc : Scene) (a : ClusterState) : Prop :=
  Sim.IsRoot [] a ∨ Sim.IsRoot first a ∨ ∃ p, a = settled p ∧ sc.Decided p

/-- A vote, with what the voter had accepted when it was given. -/
structure Ballot (sc : Scene) (id : NodeId) (t : Nat) (m : NodeId) (r : ℕ ×ₗ ℕ) : Prop where
  voted : sc.Did id (.voted t m)
  fresh : ∀ s, sc.Did id (.accepted s) → s.term < t → s.rank ≤ r

/-! ## What stands behind a message and an event -/

/-- The rank of what a voter says it accepted. -/
def heldRank (b : Body) : ℕ ×ₗ ℕ :=
  toLex (b.lastAcceptedTerm.getD 0, b.lastAcceptedVersion.getD 0)

/-- Somebody is in the configuration, or there is no state yet. -/
def Peopled (s : ClusterState) : Prop :=
  s.lastAcceptedConfig ≠ [] ∨ s.term = 0 ∧ s.version = 0

/-- What each message that binds says of what has happened. -/
def Msg (O : Prop) (first : List NodeId) (sc : Scene) (dest : NodeId) (e : Envelope) : Prop :=
  match e.action, e.kind with
  | .startJoin, .request =>
    ∀ t, e.body.term = some t → t < u64Max → sc.Did e.sender (.voted t e.sender)
  | .join, .request => e.body.vote = some true →
    ∃ node, e.body.node = some node ∧
      sc.Ballot node.id (e.body.term.getD 0) dest (heldRank e.body)
  | .join, .response => ∀ s, e.body.state = some s →
    Peopled s ∧ (Speaks O s.term → Settles first sc s)
  | .publish, .request => ∀ s, e.body.state = some s →
    ∃ base, sc.Did e.sender (.published base s)
  | .publish, .response => ∃ s base, sc.Did e.sender (.accepted s) ∧
    sc.Did dest (.published base s) ∧
    e.body.term = some s.term ∧ e.body.version = some s.version
  | .commit, .request => ∃ s, sc.Did e.sender (.decided s) ∧
    e.body.term = some s.term ∧ e.body.version = some s.version
  | _, _ => True

/-- How a leader came to lead. -/
structure Election (O : Prop) (first : List NodeId) (sc : Scene) (n : NodeId) (t : Nat)
    (base : ClusterState) : Prop where
  votes : ∃ V : BTreeSet NodeId, electionQuorum base V = true ∧
    ∀ id, V.contains id = true → sc.Ballot id t n base.rank
  own : O → base.term < t ∨ base.term = t ∧ base.clusterManager = some n
  stands : O → ∃ b, Stands first sc base b

/-- The configurations of a publication, from those it was made over. -/
def Built (sc : Scene) (n : NodeId) (base s : ClusterState) : Prop :=
  (s.lastAcceptedConfig = base.lastAcceptedConfig ∧ sc.Did n (.led s.term base)) ∨
  ∃ p b, base = settled p ∧ p.term = s.term ∧ sc.Did n (.decided p) ∧
    sc.Did n (.published b p)

/-- How a publication was made. -/
structure Publishing (O : Prop) (first : List NodeId) (sc : Scene) (n : NodeId)
    (base s : ClusterState) : Prop where
  manager : s.clusterManager = some n
  outranks : base.rank < s.rank
  voters : s.lastAcceptedConfig ≠ []
  committedConfig : s.lastCommittedConfig = base.lastCommittedConfig
  built : sc.Built n base s
  stands : Speaks O s.term → ∃ b, Stands first sc base b

/-- Enough nodes accepted it. -/
def Agreed (sc : Scene) (s : ClusterState) : Prop :=
  ∃ V : BTreeSet NodeId, electionQuorum s V = true ∧
    ∀ id, V.contains id = true → sc.Did id (.accepted s)

/-- What each event says of what happened before it. -/
def Mark (O : Prop) (first : List NodeId) (sc : Scene) (n : NodeId) : Event → Prop
  | .voted t m => 0 < t ∧ (t < u64Max → sc.Did m (.voted t m))
  | .led t base => t < u64Max → Election O first sc n t base
  | .published base s => Publishing O first sc n base s
  | .accepted _ => True
  | .committed s => Speaks O s.term → ∃ p, s = settled p ∧ sc.Decided p
  | .decided s => (∃ base, sc.Did n (.published base s)) ∧ sc.Agreed s

/-- Everything that was sent and done is borne out. -/
structure Global (O : Prop) (first : List NodeId) (sc : Scene) : Prop where
  wire : ∀ m ∈ sc.wire, Msg O first sc m.1 m.2
  past : ∀ n e, sc.Did n e → Mark O first sc n e
  once : ∀ {n t m m'}, sc.Did n (.voted t m) → sc.Did n (.voted t m') → m = m'
  unique : ∀ {n b s b' s'}, sc.Did n (.published b s) → sc.Did n (.published b' s') →
    s.rank = s'.rank → s = s'
  chain : ∀ {n b s b' s'}, sc.Did n (.published b s) → sc.Did n (.published b' s') →
    s.rank < s'.rank → s.rank ≤ b'.rank

/-! ## The past as a record -/

/-- A quorum in a configuration is a majority of it. -/
theorem majority_of_hasQuorum {config : List NodeId} {V : BTreeSet NodeId}
    (h : hasQuorum config V = true) : Lib.Majority config {n | V.contains n = true} := by
  unfold hasQuorum at h
  unfold Lib.Majority
  simp only [Bool.and_eq_true, decide_eq_true_eq] at h
  have : ∀ l : List NodeId, l.countP (fun n => V.contains n) =
      @List.countP NodeId (fun n => @decide (n ∈ {n | V.contains n = true})
        (Classical.propDecidable _)) l := by
    intro l
    refine List.countP_congr fun n _ => ?_
    simp
  rw [this] at h
  omega

/-- A vote that carries has a majority of both configurations. -/
theorem majorities_of_electionQuorum {s : ClusterState} {V : BTreeSet NodeId}
    (h : electionQuorum s V = true) :
    Lib.Majority s.lastCommittedConfig {n | V.contains n = true} ∧
    Lib.Majority s.lastAcceptedConfig {n | V.contains n = true} := by
  unfold electionQuorum at h
  rw [Bool.and_eq_true] at h
  exact ⟨majority_of_hasQuorum h.1, majority_of_hasQuorum h.2⟩

/-- The run as the general argument sees it. -/
def record (first : List NodeId) (sc : Scene) : Lib.Record NodeId ClusterState where
  term := ClusterState.term
  version := ClusterState.version
  oldConfig := ClusterState.lastCommittedConfig
  newConfig := ClusterState.lastAcceptedConfig
  owner s := s.clusterManager.getD ""
  firstConfig := first
  Published := sc.Published
  BuiltOn s b := ∃ n base, sc.Did n (.published base s) ∧ Stands first sc base b
  Committed := sc.Decided
  Accepted n s := sc.Did n (.accepted s)
  Voted n t m := sc.Did n (.voted t m)
  Elected n t b := ∃ base, sc.Did n (.led t base) ∧ Stands first sc base b

/-- A state stands where its publication does. -/
theorem Stands.rank_eq {a : ClusterState} {b : Option ClusterState}
    (h : Stands first sc a b) : (sc.record first).rank b = a.rank := by
  cases b with
  | none =>
    have h : Sim.IsRoot first a := h
    simp [Lib.Record.rank, ClusterState.rank, h.term, h.version]
  | some p =>
    obtain ⟨_, rfl | ⟨rfl, _⟩⟩ := h <;> rfl

theorem Stands.newConfig_eq {a : ClusterState} {b : Option ClusterState}
    (h : Stands first sc a b) : (sc.record first).newOf b = a.lastAcceptedConfig := by
  cases b with
  | none =>
    have h : Sim.IsRoot first a := h
    exact h.acceptedConfig.symm
  | some p =>
    obtain ⟨_, rfl | ⟨rfl, _⟩⟩ := h <;> rfl

theorem Stands.manager_eq {a p : ClusterState} (h : Stands first sc a (some p)) :
    p.clusterManager = a.clusterManager ∧ p.term = a.term := by
  obtain ⟨_, rfl | ⟨rfl, _⟩⟩ := h <;> exact ⟨rfl, rfl⟩

theorem Stands.oldConfig_eq {a : ClusterState} {b : Option ClusterState}
    (h : Stands first sc a b) :
    (sc.record first).oldOf b = a.lastCommittedConfig ∨
      ∃ p, b = some p ∧ sc.Decided p ∧ a = settled p := by
  cases b with
  | none =>
    have h : Sim.IsRoot first a := h
    exact Or.inl h.committedConfig.symm
  | some p =>
    obtain ⟨_, rfl | ⟨rfl, hd⟩⟩ := h
    · exact Or.inl rfl
    · exact Or.inr ⟨p, rfl, hd, rfl⟩

/-- A publication was made by who it names. -/
theorem Global.owner (g : Global O first sc) {s base : ClusterState}
    (h : sc.Did n (.published base s)) : (sc.record first).owner s = n := by
  have := (g.past n _ h).manager
  change s.clusterManager.getD "" = n
  rw [this]
  rfl

/-- A decided state with its configuration in force stands on its own publication. -/
theorem Global.stands_decided (g : Global O first sc) {p b : ClusterState}
    {x : Option ClusterState} (hp : sc.Did n (.published b p)) (hd : sc.Did n (.decided p))
    (h : Stands first sc (settled p) x) :
    x = some p ∧ (settled p).rank = p.rank := by
  refine ⟨?_, rfl⟩
  cases x with
  | none =>
    -- nothing published has the rank of the first state
    have h : Sim.IsRoot first (settled p) := h
    have hout := (g.past n _ hp).outranks
    rw [rank_lt_iff] at hout
    have ht : p.term = 0 := h.term
    have hv : p.version = 0 := h.version
    omega
  | some q =>
    obtain ⟨⟨m, b', hq⟩, hor⟩ := h
    have hman : q.clusterManager = p.clusterManager ∧ q.rank = p.rank := by
      rcases hor with heq | ⟨heq, _⟩
      · rw [← heq]
        exact ⟨rfl, rfl⟩
      · exact ⟨(congrArg ClusterState.clusterManager heq).symm,
          (congrArg ClusterState.rank heq).symm⟩
    have hm : m = n := by
      have h₁ := (g.past m _ hq).manager
      have h₂ := (g.past n _ hp).manager
      rw [hman.1, h₂] at h₁
      exact (Option.some.inj h₁).symm
    subst hm
    rw [g.unique hq hp hman.2]

theorem record_rank_some (p : ClusterState) : (sc.record first).rank (some p) = p.rank := rfl

/-- **The past of a scene keeps the laws**, below the last term. -/
theorem Global.lawful (g : Global True first sc) : (sc.record first).Lawful u64Max where
  voted_once _ h h' := g.once h h'
  elected := by
    rintro m t b ht ⟨base, hled, hst⟩
    obtain ⟨V, hq, hV⟩ := (g.past m _ hled ht).votes
    obtain ⟨hold, hnew⟩ := majorities_of_electionQuorum hq
    refine ⟨{n | V.contains n = true}, fun n hn => ⟨(hV n hn).voted, ?_⟩, ?_, ?_⟩
    · intro s hs hlt
      rw [hst.rank_eq]
      exact (hV n hn).fresh s hs hlt
    · rw [hst.newConfig_eq]
      exact hnew
    · rcases hst.oldConfig_eq with heq | ⟨p, rfl, hd, _⟩
      · rw [heq]
        exact Or.inl hold
      · exact Or.inr ⟨p, rfl, hd⟩
  base := by
    rintro m t b ht ⟨base, hled, hst⟩
    have el := g.past m _ hled ht
    refine ⟨?_, ?_⟩
    · rintro s rfl
      exact hst.1
    · have htb : (sc.record first).termOf b = base.term := by
        cases b with
        | none =>
          have hst : Sim.IsRoot first base := hst
          exact hst.term.symm
        | some p => exact hst.manager_eq.2
      rcases el.own trivial with hlt | ⟨heq, hman⟩
      · exact Or.inl (htb ▸ hlt)
      · cases b with
        | none =>
          -- the first state is of term 0, in which nobody votes
          have hst : Sim.IsRoot first base := hst
          obtain ⟨V, hq, hV⟩ := el.votes
          obtain ⟨n, _, hn, _⟩ := (majorities_of_electionQuorum hq).2.meet
            (majorities_of_electionQuorum hq).2
          have := (g.past n _ (hV n hn).voted).1
          rw [← heq, hst.term] at this
          exact absurd this (lt_irrefl 0)
        | some p =>
          obtain ⟨hm, hterm⟩ := hst.manager_eq
          refine Or.inr ⟨p, rfl, hterm.trans heq, ?_⟩
          change p.clusterManager.getD "" = m
          rw [hm, hman]
          rfl
  built := by
    rintro s ⟨n, base, hp⟩ ht
    obtain ⟨b, hb⟩ := (g.past n _ hp).stands ⟨trivial, ht⟩
    exact ⟨b, n, base, hp, hb⟩
  step := by
    rintro s b ⟨n, base, hp, hst⟩ ht
    have pub := g.past n _ hp
    refine ⟨?_, ?_, ?_⟩
    · rw [hst.rank_eq, record_rank_some]
      exact pub.outranks
    · rcases pub.built with ⟨hnew, _⟩ | ⟨p, b', rfl, _, hd, hpp⟩
      · rcases hst.oldConfig_eq with hold | ⟨p, rfl, hd, rfl⟩
        · exact Or.inl ⟨pub.committedConfig.trans hold.symm, hnew.trans hst.newConfig_eq.symm⟩
        · exact Or.inr ⟨⟨p, rfl, hd⟩, pub.committedConfig⟩
      · obtain ⟨rfl, _⟩ := g.stands_decided hpp hd hst
        exact Or.inr ⟨⟨p, rfl, n, hd⟩, pub.committedConfig⟩
    · rw [g.owner hp]
      rcases pub.built with ⟨_, hled⟩ | ⟨p, b', rfl, hterm, hd, hpp⟩
      · exact Or.inl ⟨base, hled, hst⟩
      · obtain ⟨rfl, _⟩ := g.stands_decided hpp hd hst
        exact Or.inr ⟨p, rfl, ⟨n, b', hpp⟩, hterm, g.owner hpp⟩
  chain := by
    rintro s s' b ⟨n, b₀, hs⟩ _ _ how hterm hlt ⟨n', base, hs', hst⟩
    rw [g.owner hs, g.owner hs'] at how
    subst how
    rw [hst.rank_eq, record_rank_some]
    refine g.chain hs hs' ?_
    rw [rank_lt_iff]
    exact Or.inr ⟨hterm, hlt⟩
  unique := by
    rintro s s' ⟨n, b, hs⟩ ⟨n', b', hs'⟩ _ how hterm hv
    rw [g.owner hs, g.owner hs'] at how
    subst how
    refine g.unique hs hs' ?_
    have hterm : s.term = s'.term := hterm
    have hv : s.version = s'.version := hv
    simp [ClusterState.rank, hterm, hv]
  committed := by
    rintro s ⟨n, hd⟩ _
    obtain ⟨⟨base, hp⟩, V, hq, hV⟩ := g.past n _ hd
    obtain ⟨hold, hnew⟩ := majorities_of_electionQuorum hq
    exact ⟨⟨n, base, hp⟩, hold.mono fun id _ h => hV id h, hnew.mono fun id _ h => hV id h⟩
  finite := by
    refine ((List.finite_toSet (sc.past.map Prod.snd)).preimage
      fun _ _ _ _ => Event.decided.inj).subset ?_
    rintro s ⟨n, hd⟩
    exact List.mem_map.mpr ⟨_, hd, rfl⟩

/-! ## Scenes that grow -/

/-- A scene after a node did and sent something: the marks are its own, and what it
accepted is of no term below its votes. -/
structure Grows (sc sc' : Scene) (n : NodeId) : Prop where
  wire : ∀ m ∈ sc.wire, m ∈ sc'.wire
  past : ∀ {m e}, sc.Did m e → sc'.Did m e
  own : ∀ {m e}, sc'.Did m e → m ≠ n → sc.Did m e
  later : ∀ {s t m}, sc'.Did n (.accepted s) → sc.Did n (.voted t m) →
    sc.Did n (.accepted s) ∨ t ≤ s.term

/-- What grows twice has grown. -/
theorem Grows.trans {sc'' : Scene} (h : Grows sc sc' n) (h' : Grows sc' sc'' n) :
    Grows sc sc'' n where
  wire m hm := h'.wire m (h.wire m hm)
  past hd := h'.past (h.past hd)
  own hd hm := h.own (h'.own hd hm) hm
  later ha hv := (h'.later ha (h.past hv)).elim (fun ha => h.later ha hv) Or.inr

section Growing

variable (grows : Grows sc sc' n)

include grows

theorem Published.grow {s : ClusterState} (h : sc.Published s) : sc'.Published s := by
  obtain ⟨m, base, h⟩ := h
  exact ⟨m, base, grows.past h⟩

theorem Decided.grow {s : ClusterState} (h : sc.Decided s) : sc'.Decided s := by
  obtain ⟨m, h⟩ := h
  exact ⟨m, grows.past h⟩

theorem Stands.grow {a : ClusterState} {b : Option ClusterState} (h : Stands first sc a b) :
    Stands first sc' a b := by
  cases b with
  | none => exact h
  | some p =>
    obtain ⟨hp, hor⟩ := h
    exact ⟨hp.grow grows, hor.imp_right fun ⟨heq, hd⟩ => ⟨heq, hd.grow grows⟩⟩

theorem Standing.grow {a : ClusterState} (h : Standing first sc a) : Standing first sc' a :=
  h.imp_right fun ⟨b, hb⟩ => ⟨b, hb.grow grows⟩

theorem Settles.grow {a : ClusterState} (h : Settles first sc a) : Settles first sc' a :=
  h.imp_right (Or.imp_right fun ⟨p, heq, hd⟩ => ⟨p, heq, hd.grow grows⟩)

theorem Ballot.grow {id : NodeId} {t : Nat} {m : NodeId} {r : ℕ ×ₗ ℕ}
    (h : sc.Ballot id t m r) : sc'.Ballot id t m r := by
  refine ⟨grows.past h.voted, fun s hs hlt => ?_⟩
  by_cases hid : id = n
  · subst hid
    rcases grows.later hs h.voted with hold | hle
    · exact h.fresh s hold hlt
    · exact absurd hlt (Nat.not_lt_of_le hle)
  · exact h.fresh s (grows.own hs hid) hlt

/-- What a message says stays true as more happens. -/
theorem Msg.grow {dest : NodeId} {e : Envelope} (h : Msg O first sc dest e) :
    Msg O first sc' dest e := by
  revert h
  unfold Msg
  split <;> intro h
  · exact fun t ht hlt => grows.past (h t ht hlt)
  · intro hv
    obtain ⟨node, hn, hb⟩ := h hv
    exact ⟨node, hn, hb.grow grows⟩
  · intro s hs
    obtain ⟨hp, hset⟩ := h s hs
    exact ⟨hp, fun speaks => (hset speaks).grow grows⟩
  · intro s hs
    obtain ⟨base, hd⟩ := h s hs
    exact ⟨base, grows.past hd⟩
  · obtain ⟨s, base, ha, hp, hbody⟩ := h
    exact ⟨s, base, grows.past ha, grows.past hp, hbody⟩
  · obtain ⟨s, hd, hbody⟩ := h
    exact ⟨s, grows.past hd, hbody⟩
  · trivial

theorem Built.grow {base s : ClusterState} (h : sc.Built m base s) : sc'.Built m base s := by
  rcases h with ⟨hc, hled⟩ | ⟨p, b, heq, ht, hd, hp⟩
  · exact Or.inl ⟨hc, grows.past hled⟩
  · exact Or.inr ⟨p, b, heq, ht, grows.past hd, grows.past hp⟩

theorem Mark.grow {e : Event} (h : Mark O first sc m e) : Mark O first sc' m e := by
  cases e with
  | voted t d => exact ⟨h.1, fun hlt => grows.past (h.2 hlt)⟩
  | led t base =>
    intro hlt
    obtain ⟨⟨V, hq, hV⟩, hown, hst⟩ := h hlt
    exact ⟨⟨V, hq, fun id hid => (hV id hid).grow grows⟩, hown,
      fun o => (hst o).imp fun b hb => hb.grow grows⟩
  | published base s =>
    obtain ⟨hm, ho, hv, hc, hb, hst⟩ := h
    exact ⟨hm, ho, hv, hc, hb.grow grows, fun sp => (hst sp).imp fun b hb => hb.grow grows⟩
  | accepted s => trivial
  | committed s =>
    intro speaks
    obtain ⟨p, heq, hd⟩ := h speaks
    exact ⟨p, heq, hd.grow grows⟩
  | decided s =>
    obtain ⟨⟨base, hp⟩, V, hq, hV⟩ := h
    exact ⟨⟨base, grows.past hp⟩, V, hq, fun id hid => grows.past (hV id hid)⟩

end Growing

/-! ## What a node's core adds -/

/-- A manager: elected in its term, its last publication decided or in flight. -/
structure Leads (sc : Scene) (n : NodeId) (k : Core) : Prop where
  elected : ∃ base, sc.Did n (.led k.currentTerm base)
  voted : k.currentTerm < u64Max → sc.Did n (.voted k.currentTerm n)
  published : ∃ base, sc.Did n (.published base k.accepted)
  acked : ∀ p, k.publishing = some p → ∀ id, p.acked.contains id = true →
    sc.Did id (.accepted p.state)
  idle : k.publishing = none → sc.Did n (.decided k.accepted)

/-- What a node holds is borne out. -/
structure Local (O : Prop) (first : List NodeId) (sc : Scene) (n : NodeId) (k : Core) :
    Prop where
  id : k.me.id = n
  voted : ∀ {t m}, sc.Did n (.voted t m) → t ≤ k.currentTerm
  last : ∀ {t m}, k.lastJoin = some (t, m) → sc.Did n (.voted t m)
  accepts : ∀ {s}, sc.Did n (.accepted s) → s.rank ≤ k.accepted.rank
  publishes : ∀ {b s}, sc.Did n (.published b s) → s.rank ≤ k.accepted.rank
  votes : ∀ id, k.joinVotes.contains id = true → sc.Ballot id k.currentTerm n k.accepted.rank
  standing : Speaks O k.accepted.term → Standing first sc k.accepted
  settles : Speaks O k.committed.term → Settles first sc k.committed
  marked : k.committed.term ≠ 0 ∨ k.committed.version ≠ 0 → sc.Did n (.committed k.committed)
  peopled : Peopled k.accepted ∧ Peopled k.committed
  booted : k.Named → k.accepted.lastAcceptedConfig ≠ [] ∧ k.committed.lastAcceptedConfig ≠ [] ∧
    k.durable.committed ≠ none
  leads : k.mode = .leader → sc.Leads n k

variable {k : Core}

theorem Leads.grow (grows : Grows sc sc' n) (h : sc.Leads m k) : sc'.Leads m k where
  elected := h.elected.imp fun _ hb => grows.past hb
  voted hlt := grows.past (h.voted hlt)
  published := h.published.imp fun _ hb => grows.past hb
  acked p hp id hid := grows.past (h.acked p hp id hid)
  idle hp := grows.past (h.idle hp)

/-- So does what another node holds. -/
theorem Local.grow_other (grows : Grows sc sc' n) (hm : m ≠ n)
    (h : Local O first sc m k) : Local O first sc' m k where
  id := h.id
  voted hd := h.voted (grows.own hd hm)
  last hj := grows.past (h.last hj)
  accepts hd := h.accepts (grows.own hd hm)
  publishes hd := h.publishes (grows.own hd hm)
  votes id hid := (h.votes id hid).grow grows
  standing sp := (h.standing sp).grow grows
  settles sp := (h.settles sp).grow grows
  marked hne := grows.past (h.marked hne)
  peopled := h.peopled
  booted := h.booted
  leads hl := (h.leads hl).grow grows

/-! ## Adding to a scene -/

/-- A node sends and does something more. -/
def add (sc : Scene) (n : NodeId) (ms : List (NodeId × Envelope)) (es : List Event) : Scene where
  wire := sc.wire ++ ms
  past := sc.past ++ es.map (n, ·)

theorem add_add (sc : Scene) (n : NodeId) (ms ms' : List (NodeId × Envelope))
    (es es' : List Event) :
    (sc.add n ms es).add n ms' es' = sc.add n (ms ++ ms') (es ++ es') := by
  simp [add]

theorem add_did {ms : List (NodeId × Envelope)} {es : List Event} {e : Event} :
    (sc.add n ms es).Did m e ↔ sc.Did m e ∨ m = n ∧ e ∈ es := by
  simp only [Did, add, List.mem_append, List.mem_map, Prod.mk.injEq]
  constructor
  · rintro (h | ⟨e', he, rfl, rfl⟩)
    · exact Or.inl h
    · exact Or.inr ⟨rfl, he⟩
  · rintro (h | ⟨rfl, he⟩)
    · exact Or.inl h
    · exact Or.inr ⟨e, he, rfl, rfl⟩

theorem did_new {ms : List (NodeId × Envelope)} {es : List Event} {e : Event} (h : e ∈ es) :
    (sc.add n ms es).Did n e := add_did.mpr (Or.inr ⟨rfl, h⟩)

theorem grows_add {ms : List (NodeId × Envelope)} {es : List Event}
    (later : ∀ s t m, .accepted s ∈ es → sc.Did n (.voted t m) → t ≤ s.term) :
    Grows sc (sc.add n ms es) n where
  wire _ hm := List.mem_append_left _ hm
  past hd := add_did.mpr (Or.inl hd)
  own hd hm := (add_did.mp hd).resolve_right fun h => hm h.1
  later ha hv := (add_did.mp ha).imp_right fun h => later _ _ _ h.2 hv

/-- What a node adds, if each of it is true where it is added. -/
theorem Global.add (g : Global O first sc) {ms : List (NodeId × Envelope)} {es : List Event}
    (grows : Grows sc (sc.add n ms es) n)
    (msgs : ∀ x ∈ ms, Msg O first (sc.add n ms es) x.1 x.2)
    (marks : ∀ e ∈ es, Mark O first (sc.add n ms es) n e)
    (votes : ∀ {t m}, .voted t m ∈ es → ∀ {t' m'}, (sc.add n ms es).Did n (.voted t' m') →
      t' = t → m' = m)
    (above : ∀ {b s}, .published b s ∈ es → ∀ {b' s'}, sc.Did n (.published b' s') →
      s'.rank < s.rank ∧ s'.rank ≤ b.rank)
    (single : ∀ {b s b' s'}, .published b s ∈ es → .published b' s' ∈ es → s = s') :
    Global O first (sc.add n ms es) where
  wire x hx := by
    rcases List.mem_append.mp hx with hx | hx
    · exact (g.wire x hx).grow grows
    · exact msgs x hx
  past m e hd := by
    rcases add_did.mp hd with hd | ⟨rfl, he⟩
    · exact (g.past m e hd).grow grows
    · exact marks e he
  once {m t d d'} h h' := by
    rcases add_did.mp h with hold | ⟨rfl, he⟩
    · rcases add_did.mp h' with hold' | ⟨rfl, he'⟩
      · exact g.once hold hold'
      · exact votes he' h rfl
    · exact (votes he h' rfl).symm
  unique {m b s b' s'} h h' heq := by
    rcases add_did.mp h with hold | ⟨rfl, he⟩ <;> rcases add_did.mp h' with hold' | ⟨hm, he'⟩
    · exact g.unique hold hold' heq
    · subst hm
      exact absurd heq (above he' hold).1.ne
    · exact absurd heq.symm (above he hold').1.ne
    · exact single he he'
  chain {m b s b' s'} h h' hlt := by
    rcases add_did.mp h with hold | ⟨rfl, he⟩ <;> rcases add_did.mp h' with hold' | ⟨hm, he'⟩
    · exact g.chain hold hold' hlt
    · subst hm
      exact (above he' hold).2
    · exact absurd (hlt.trans (above he hold').1) (lt_irrefl _)
    · rw [single he he'] at hlt
      exact absurd hlt (lt_irrefl _)

end Scene

end Velosearch.Cluster

import Velosearch.Cluster.Safety.Scene

/-!
# Every act is backed

One lemma for each group of acts: what an act sends and records is backed by the
scene it is added to, and the node's core keeps what `Local` says of it. `Act.backed`
puts them together, and `Moves.backed` is what a whole input comes to.

The one act that needs the laws themselves is `Act.commit`: a commit names a term
and a version only, and that the state accepted under them is the one that was
decided is `Lawful.published_unique`.
-/

set_option autoImplicit false

namespace Velosearch.Cluster

open Coordinator Scene

namespace Scene

variable {O : Prop} {first : List NodeId} {sc : Scene} {n : NodeId} {k k' : Core}
  {ms : List (NodeId × Envelope)} {es : List Event}

/-- An event that votes for nothing, accepts nothing and publishes nothing. -/
def Quiet : Event → Prop
  | .voted .. | .accepted _ | .published .. => False
  | _ => True

theorem grows_quiet (quiet : ∀ e ∈ es, Quiet e) : Grows sc (sc.add n ms es) n :=
  grows_add fun _ _ _ h _ => absurd (quiet _ h) id

theorem Local.grow_own (quiet : ∀ e ∈ es, Quiet e) (l : Local O first sc n k) :
    Local O first (sc.add n ms es) n k where
  id := l.id
  voted hd := l.voted ((add_did.mp hd).resolve_right fun h => quiet _ h.2)
  last hj := (grows_quiet quiet).past (l.last hj)
  accepts hd := l.accepts ((add_did.mp hd).resolve_right fun h => quiet _ h.2)
  publishes hd := l.publishes ((add_did.mp hd).resolve_right fun h => quiet _ h.2)
  votes id hid := (l.votes id hid).grow (grows_quiet quiet)
  standing sp := (l.standing sp).grow (grows_quiet quiet)
  settles sp := (l.settles sp).grow (grows_quiet quiet)
  marked hne := (grows_quiet quiet).past (l.marked hne)
  peopled := l.peopled
  booted := l.booted
  leads hl := (l.leads hl).grow (grows_quiet quiet)

theorem Global.add_quiet (g : Global O first sc) (quiet : ∀ e ∈ es, Quiet e)
    (msgs : ∀ x ∈ ms, Msg O first (sc.add n ms es) x.1 x.2)
    (marks : ∀ e ∈ es, Mark O first (sc.add n ms es) n e) :
    Global O first (sc.add n ms es) :=
  g.add (grows_quiet quiet) msgs marks (fun h => absurd (quiet _ h) id)
    (fun h => absurd (quiet _ h) id) (fun h => absurd (quiet _ h) id)

theorem Local.congr (l : Local O first sc n k) (me : k'.me = k.me)
    (names : k'.initialNames = k.initialNames)
    (term : k'.currentTerm = k.currentTerm) (accepted : k'.accepted = k.accepted)
    (committed : k'.committed = k.committed) (durable : k'.durable = k.durable)
    (lastJoin : k'.lastJoin = k.lastJoin) (joinVotes : k'.joinVotes = k.joinVotes)
    (leads : k'.mode = .leader → sc.Leads n k') : Local O first sc n k' where
  id := me ▸ l.id
  voted hd := term ▸ l.voted hd
  last hj := l.last (lastJoin ▸ hj)
  accepts hd := accepted ▸ l.accepts hd
  publishes hd := accepted ▸ l.publishes hd
  votes id hid := by
    rw [term, accepted]
    exact l.votes id (joinVotes ▸ hid)
  standing sp := accepted ▸ l.standing (accepted ▸ sp)
  settles sp := committed ▸ l.settles (committed ▸ sp)
  marked hne := committed ▸ l.marked (committed ▸ hne)
  peopled := by rw [accepted, committed]; exact l.peopled
  booted b := by
    rw [accepted, committed, durable]
    exact l.booted (by unfold Core.Named at b ⊢; rwa [me, names] at b)
  leads := leads

/-- What an act adds to a run is borne out by it. -/
structure Backed (O : Prop) (first : List NodeId) (sc : Scene) (n : NodeId) (v v' : View)
    (ms : List (NodeId × Envelope)) (es : List Event) : Prop where
  sent : v'.sent = v.sent ++ ms
  marks : v'.marks = v.marks ++ es
  grows : Grows sc (sc.add n ms es) n
  all : Global O first (sc.add n ms es)
  node : Local O first (sc.add n ms es) n v'.core

variable {v v' : View}

theorem Backed.trans {u : View} {ms' : List (NodeId × Envelope)} {es' : List Event}
    (h : Backed O first sc n v u ms es)
    (h' : Backed O first (sc.add n ms es) n u v' ms' es') :
    Backed O first sc n v v' (ms ++ ms') (es ++ es') where
  sent := by rw [h'.sent, h.sent, List.append_assoc]
  marks := by rw [h'.marks, h.marks, List.append_assoc]
  grows := by
    rw [← add_add]
    exact h.grows.trans h'.grows
  all := by
    rw [← add_add]
    exact h'.all
  node := by
    rw [← add_add]
    exact h'.node

theorem backed_send (g : Global O first sc) (l : Local O first sc n v.core)
    (msgs : ∀ x ∈ ms, Msg O first (sc.add n ms []) x.1 x.2) :
    Backed O first sc n v (v.send ms) ms [] :=
  ⟨rfl, (List.append_nil _).symm, grows_quiet (by simp), g.add_quiet (by simp) msgs (by simp),
    l.grow_own (by simp)⟩

theorem backed_core (g : Global O first sc) (l : Local O first sc n k) :
    Backed O first sc n v (v.withCore k) [] [] :=
  ⟨(List.append_nil _).symm, (List.append_nil _).symm, grows_quiet (by simp),
    g.add_quiet (by simp) (by simp) (by simp), l.grow_own (by simp)⟩

/-! ## Votes -/

theorem backed_join (g : Global O first sc) (l : Local O first sc n v.core) (dest : NodeId)
    (rid : Nat) (held : List Held) :
    Backed O first sc n v
      (v.send [(dest, .request .join v.core.me.id rid (v.core.joinBody dest held))])
      [(dest, .request .join v.core.me.id rid (v.core.joinBody dest held))] [] := by
  apply backed_send g l
  intro x hx
  obtain rfl := List.mem_singleton.mp hx
  intro hv
  have hj : v.core.lastJoin = some (v.core.currentTerm, dest) :=
    beq_iff_eq.mp (Option.some.inj hv)
  refine ⟨v.core.me, rfl, ?_⟩
  have ballot : sc.Ballot v.core.me.id v.core.currentTerm dest v.core.accepted.rank := by
    rw [l.id]
    exact ⟨l.last hj, fun s hs _ => l.accepts hs⟩
  exact ballot.grow (grows_quiet (by simp))

theorem Local.raise (l : Local O first sc n k) {t : Nat} (higher : k.currentTerm < t) :
    Local O first sc n (k.toTerm t) where
  id := l.id
  voted hd := (l.voted hd).trans higher.le
  last hj := l.last hj
  accepts hd := l.accepts hd
  publishes hd := l.publishes hd
  votes id hid := absurd hid (by simp [Core.toTerm])
  standing sp := l.standing sp
  settles sp := l.settles sp
  marked hne := l.marked hne
  peopled := l.peopled
  booted := l.booted
  leads := nofun

theorem backed_vote (g : Global O first sc) (l : Local O first sc n v.core) {t : Nat}
    {dest : NodeId} (higher : v.core.currentTerm < t)
    (msgs : ∀ x ∈ ms, IsStartJoin n t x.2)
    (self : dest = n ∨ ms = [] ∧ (t < u64Max → sc.Did dest (.voted t dest))) :
    Backed O first sc n v (((v.send ms).withCore
      { v.core.toTerm t with lastJoin := some (t, dest) }).mark [.voted t dest])
      ms [.voted t dest] := by
  have grows : Grows sc (sc.add n ms [.voted t dest]) n :=
    grows_add fun _ _ _ h => absurd h (by simp)
  have raised := l.raise higher
  have new : ∀ {t' d'}, (sc.add n ms [.voted t dest]).Did n (.voted t' d') →
      sc.Did n (.voted t' d') ∨ t' = t ∧ d' = dest := by
    intro t' d' h
    refine (add_did.mp h).imp_right fun h => ?_
    simpa using h.2
  refine ⟨rfl, rfl, grows, ?_, ?_⟩
  · refine g.add grows ?_ ?_ ?_ (fun h => absurd h (by simp)) (fun h => absurd h (by simp))
    · intro x hx
      obtain ⟨rid, he⟩ := msgs x hx
      rw [he]
      intro t' ht' _
      cases ht'
      rcases self with rfl | ⟨rfl, _⟩
      · exact did_new (List.mem_singleton.mpr rfl)
      · exact absurd hx (by simp)
    · intro e he
      obtain rfl := List.mem_singleton.mp he
      refine ⟨Nat.zero_lt_of_lt higher, fun hlt => ?_⟩
      rcases self with rfl | ⟨_, hself⟩
      · exact did_new (by simp)
      · exact grows.past (hself hlt)
    · intro t' d he t'' d' hd heq
      obtain ⟨rfl, rfl⟩ : t' = t ∧ d = dest := by simpa using he
      subst heq
      rcases new hd with hd | ⟨_, hd⟩
      · exact absurd (l.voted hd) (Nat.not_le_of_lt higher)
      · exact hd
  · exact {
      id := raised.id
      voted := by
        intro t' d' hd
        rcases new hd with hd | ⟨rfl, _⟩
        · exact raised.voted hd
        · exact le_rfl
      last := by
        rintro t' d' hj
        cases hj
        exact did_new (by simp)
      accepts := fun hd => raised.accepts ((add_did.mp hd).resolve_right (by simp))
      publishes := fun hd => raised.publishes ((add_did.mp hd).resolve_right (by simp))
      votes := fun id hid => absurd hid (by simp [View.mark, View.withCore, Core.toTerm])
      standing := fun sp => (raised.standing sp).grow grows
      settles := fun sp => (raised.settles sp).grow grows
      marked := fun hne => grows.past (raised.marked hne)
      peopled := raised.peopled
      booted := raised.booted
      leads := nofun }

/-! ## Elections -/

theorem Local.ballot (g : Global O first sc) (l : Local O first sc n k)
    {inp : Option Envelope} {node : DiscoveryNode}
    (heard : ∀ e, inp = some e → e.binding = true → (n, e) ∈ sc.wire)
    (vote : VoteFor inp k node) : sc.Ballot node.id k.currentTerm n k.accepted.rank := by
  rcases vote.cast with ⟨e, got, hterm, hvote, hnode, hfresh⟩ | ⟨rfl, hj⟩
  · have binding : e.binding = true := by
      simp [Envelope.binding, got.action_eq, got.kind_eq]
    have msg := g.wire _ (heard e got.handled binding)
    simp only [Msg, got.action_eq, got.kind_eq] at msg
    obtain ⟨node', hnode', hb⟩ := msg hvote
    obtain rfl : node' = node := Option.some.inj (hnode'.symm.trans hnode)
    rw [hterm] at hb
    refine ⟨hb.voted, fun s hs hlt => (hb.fresh s hs hlt).trans ?_⟩
    unfold heldRank ClusterState.rank
    rw [Prod.Lex.toLex_le_toLex]
    unfold fresher at hfresh
    simp only [Bool.or_eq_false_iff, Bool.and_eq_false_iff, decide_eq_false_iff_not] at hfresh
    omega
  · rw [l.id] at hj ⊢
    exact ⟨l.last hj, fun s hs _ => l.accepts hs⟩

theorem Local.ballots (g : Global O first sc) (l : Local O first sc n k)
    {node : DiscoveryNode} (ballot : sc.Ballot node.id k.currentTerm n k.accepted.rank)
    (hlt : k.currentTerm < u64Max) (id : NodeId)
    (hid : (k.votesAfter node).contains id = true) :
    sc.Ballot id k.currentTerm n k.accepted.rank := by
  have self : sc.Did n (.voted k.currentTerm n) := (g.past _ _ ballot.voted).2 hlt
  unfold Core.votesAfter votesWith at hid
  simp only [Std.ExtTreeSet.contains_insert, Std.ExtTreeSet.contains_ofList, Bool.or_eq_true,
    beq_iff_eq, compare_eq_iff_eq, List.contains_iff_mem, Std.ExtTreeMap.mem_keys,
    Std.ExtTreeMap.mem_insert] at hid
  rcases hid with rfl | rfl | hid
  · rw [l.id]
    exact ⟨self, fun s hs _ => l.accepts hs⟩
  · exact ballot
  · exact l.votes id (Std.ExtTreeMap.contains_iff_mem.mpr hid)

theorem backed_count (g : Global O first sc) (l : Local O first sc n v.core)
    {node : DiscoveryNode} (hcand : v.core.mode = .candidate)
    (ballot : sc.Ballot node.id v.core.currentTerm n v.core.accepted.rank) :
    Backed O first sc n v (v.withCore
      { v.core with joinVotes := v.core.joinVotes.insert node.id node }) [] [] := by
  refine backed_core g { l with
    votes := fun id hid => ?_
    leads := fun hl => absurd (hcand.symm.trans hl) nofun }
  simp only [Std.ExtTreeMap.contains_insert, Bool.or_eq_true, beq_iff_eq,
    compare_eq_iff_eq] at hid
  rcases hid with rfl | hid
  · exact ballot
  · exact l.votes id hid

/-! ## Publications -/

theorem Local.accept (l : Local O first sc n k) {s : ClusterState} {es : List Event}
    {ms : List (NodeId × Envelope)} (grows : Grows sc (sc.add n ms es) n)
    (voted : ∀ t m, .voted t m ∉ es) (accepted : ∀ s', .accepted s' ∈ es → s' = s)
    (published : ∀ b s', .published b s' ∈ es → s' = s)
    (higher : k.accepted.rank ≤ s.rank) (voters : s.lastAcceptedConfig ≠ [])
    (standing : Speaks O s.term → Standing first (sc.add n ms es) s) {k' : Core}
    (me : k'.me = k.me) (names : k'.initialNames = k.initialNames)
    (term : k'.currentTerm = k.currentTerm) (acc : k'.accepted = s)
    (committed : k'.committed = k.committed)
    (durable : k'.durable.committed = k.durable.committed)
    (lastJoin : k'.lastJoin = k.lastJoin)
    (joinVotes : k'.joinVotes = k.joinVotes ∨ k'.joinVotes = ∅)
    (leads : k'.mode = .leader → (sc.add n ms es).Leads n k') :
    Local O first (sc.add n ms es) n k' where
  id := me ▸ l.id
  voted hd := term ▸ l.voted ((add_did.mp hd).resolve_right fun h => voted _ _ h.2)
  last hj := grows.past (l.last (lastJoin ▸ hj))
  accepts hd := by
    rw [acc]
    rcases add_did.mp hd with hd | ⟨_, he⟩
    · exact (l.accepts hd).trans higher
    · rw [accepted _ he]
  publishes hd := by
    rw [acc]
    rcases add_did.mp hd with hd | ⟨_, he⟩
    · exact (l.publishes hd).trans higher
    · rw [published _ _ he]
  votes id hid := by
    rw [term, acc]
    rcases joinVotes with h | h
    · obtain ⟨hv, hf⟩ := (l.votes id (h ▸ hid)).grow grows
      exact ⟨hv, fun s' hs' hlt => (hf s' hs' hlt).trans higher⟩
    · rw [h] at hid
      exact absurd hid (by simp)
  standing sp := acc ▸ standing (acc ▸ sp)
  settles sp := committed ▸ (l.settles (committed ▸ sp)).grow grows
  marked hne := committed ▸ grows.past (l.marked (committed ▸ hne))
  peopled := by
    rw [acc, committed]
    exact ⟨Or.inl voters, l.peopled.2⟩
  booted b := by
    rw [acc, committed, durable]
    exact ⟨voters, (l.booted (by unfold Core.Named at b ⊢; rwa [me, names] at b)).2⟩
  leads := leads

theorem backed_publish (g : Global O first sc) (l : Local O first sc n k)
    {base s : ClusterState} {es₀ : List Event} {rid seq : Nat} {jv : BTreeMap NodeId DiscoveryNode}
    {u : View} (hu : u.core = { k with mode := .leader, joinVotes := jv })
    (hjv : jv = k.joinVotes ∨ jv = ∅) (usent : u.sent = v.sent) (umarks : u.marks = v.marks ++ es₀)
    (quiet : ∀ e ∈ es₀, Quiet e)
    (early : ∀ {sc' : Scene}, Grows sc sc' n → ∀ e ∈ es₀, Mark O first sc' n e)
    (term : s.term = k.currentTerm) (manager : s.clusterManager = some n)
    (rank : base.rank = k.accepted.rank) (outranks : base.rank < s.rank)
    (voters : s.lastAcceptedConfig ≠ [])
    (config : s.lastCommittedConfig = base.lastCommittedConfig)
    (stands : Speaks O s.term → ∃ b, Stands first sc base b)
    (built : ∀ {sc' : Scene}, (∀ e ∈ es₀, sc'.Did n e) → Grows sc sc' n → sc'.Built n base s)
    (elected : ∃ b, .led k.currentTerm b ∈ es₀ ∨ sc.Did n (.led k.currentTerm b))
    (self : k.currentTerm < u64Max → sc.Did n (.voted k.currentTerm n)) :
    Backed O first sc n v (u.publish base s rid seq)
      ((s.nodes.keys.filter (· != u.core.me.id)).map fun m =>
        (m, .request .publish u.core.me.id rid (Body.ofState s)))
      (es₀ ++ [.published base s, .accepted s]) := by
  generalize hms : ((s.nodes.keys.filter (· != u.core.me.id)).map fun m =>
    (m, Envelope.request .publish u.core.me.id rid (Body.ofState s))) = ms
  have ume : u.core.me.id = n := by rw [hu]; exact l.id
  -- the new events, by kind
  have hvoted : ∀ t m, .voted t m ∉ es₀ ++ [.published base s, .accepted s] := by
    intro t m h
    rcases List.mem_append.mp h with h | h
    · exact quiet _ h
    · simp at h
  have haccepted : ∀ s', .accepted s' ∈ es₀ ++ [.published base s, .accepted s] → s' = s := by
    intro s' h
    rcases List.mem_append.mp h with h | h
    · exact (quiet _ h).elim
    · simpa using h
  have hpublished : ∀ b' s', .published b' s' ∈ es₀ ++ [.published base s, .accepted s] →
      b' = base ∧ s' = s := by
    intro b' s' h
    rcases List.mem_append.mp h with h | h
    · exact (quiet _ h).elim
    · simpa using h
  have grows : Grows sc (sc.add n ms (es₀ ++ [.published base s, .accepted s])) n :=
    grows_add fun s' t m h hv => by
      rw [haccepted s' h, term]
      exact l.voted hv
  have pub : (sc.add n ms (es₀ ++ [.published base s, .accepted s])).Did n (.published base s) :=
    did_new (by simp)
  have acc : (sc.add n ms (es₀ ++ [.published base s, .accepted s])).Did n (.accepted s) :=
    did_new (by simp)
  refine ⟨?_, ?_, grows, ?_, ?_⟩
  · rw [← hms]
    simp [View.publish, View.send, View.mark, View.withCore, usent]
  · simp [View.publish, View.send, View.mark, View.withCore, umarks]
  · refine g.add grows ?_ ?_ (fun h => absurd h (hvoted _ _)) ?_ ?_
    · intro x hx
      rw [← hms] at hx
      obtain ⟨m, _, rfl⟩ := List.mem_map.mp hx
      intro s' hs'
      obtain rfl : s = s' := Option.some.inj hs'
      exact ⟨base, ume ▸ pub⟩
    · intro e he
      rcases List.mem_append.mp he with h | h
      · exact early grows e h
      · simp only [List.mem_cons, List.not_mem_nil, or_false] at h
        rcases h with rfl | rfl
        · exact ⟨manager, outranks, voters, config, built
            (fun e he => did_new (List.mem_append_left _ he)) grows,
            fun sp => (stands sp).imp fun b hb => hb.grow grows⟩
        · trivial
    · intro b' s' h b'' s'' hold
      obtain ⟨rfl, rfl⟩ := hpublished b' s' h
      have := l.publishes hold
      rw [← rank] at this
      exact ⟨lt_of_le_of_lt this outranks, this⟩
    · intro b₁ s₁ b₂ s₂ h₁ h₂
      rw [(hpublished _ _ h₁).2, (hpublished _ _ h₂).2]
  · have hcore : (u.publish base s rid seq).core = { k with
        mode := .leader, joinVotes := jv, accepted := s
        durable := { k.durable with accepted := some s }
        publishing := some ⟨s, rid, seq, (∅ : BTreeSet NodeId).insert n⟩ } := by
      simp [View.publish, View.send, View.mark, View.withCore, Core.accept, hu, l.id]
    refine l.accept grows hvoted haccepted (fun b' s' h => (hpublished b' s' h).2)
      (rank ▸ outranks.le) voters ?_ ?_ ?_ ?_ ?_ ?_ ?_ ?_ ?_ ?_
    · exact fun _ => Or.inr ⟨some s, ⟨n, base, pub⟩, Or.inl rfl⟩
    all_goals rw [hcore]
    · exact hjv
    · intro _
      refine ⟨?_, fun hlt => grows.past (self hlt), ⟨base, pub⟩, ?_, by rintro ⟨⟩⟩
      · obtain ⟨b, h | h⟩ := elected
        · exact ⟨b, did_new (List.mem_append_left _ h)⟩
        · exact ⟨b, grows.past h⟩
      · rintro p hp id hid
        cases hp
        simp only [Std.ExtTreeSet.contains_insert, Bool.or_eq_true, beq_iff_eq,
          compare_eq_iff_eq, Std.ExtTreeSet.contains_empty, Bool.false_eq_true, or_false] at hid
        rw [← hid]
        exact acc

theorem backed_lead (g : Global O first sc) (l : Local O first sc n v.core)
    (ordered : v.core.Ordered) {node : DiscoveryNode} {s : ClusterState} {rid seq : Nat}
    (ballot : sc.Ballot node.id v.core.currentTerm n v.core.accepted.rank)
    (won : electionQuorum v.core.accepted (v.core.votesAfter node) = true)
    (own : O → v.core.OwnBase) (made : MadeFrom v.core v.core.accepted s)
    (config : s.lastAcceptedConfig = v.core.accepted.lastAcceptedConfig)
    (fits : ¬ (Event.published v.core.accepted s).Wraps) :
    ∃ ms, Backed O first sc n v (((v.withCore { v.core with
        mode := .leader, joinVotes := ∅ }).mark
          [.led v.core.currentTerm v.core.accepted]).publish v.core.accepted s rid seq)
      ms ([.led v.core.currentTerm v.core.accepted] ++
        [.published v.core.accepted s, .accepted s]) := by
  have voters : v.core.accepted.lastAcceptedConfig ≠ [] :=
    hasQuorum_ne_nil ((Bool.and_eq_true _ _).mp won).2
  have low := ordered.accepted_le
  have stands : v.core.currentTerm < u64Max → O → ∃ b, Stands first sc v.core.accepted b := by
    intro hlt o
    rcases l.standing ⟨o, Nat.lt_of_le_of_lt low hlt⟩ with blank | h
    · exact absurd blank.acceptedConfig voters
    · exact h
  have election : v.core.currentTerm < u64Max →
      Election O first sc n v.core.currentTerm v.core.accepted := by
    intro hlt
    refine ⟨⟨_, won, fun id hid => l.ballots g ballot hlt id hid⟩, fun o => ?_, stands hlt⟩
    rcases own o with h | h
    · exact Or.inl h
    · rw [l.id] at h
      exact (Nat.lt_or_eq_of_le low).imp_right fun heq => ⟨heq, h⟩
  have term := made.term
  refine ⟨_, backed_publish g l (k := v.core) rfl (Or.inr rfl) rfl rfl ?_ ?_ term
    (l.id ▸ made.manager) rfl (made.outranks low fits) (config ▸ voters)
    made.committedConfig ?_ ?_ ⟨_, Or.inl (List.mem_singleton.mpr rfl)⟩
    fun hlt => (g.past _ _ ballot.voted).2 hlt⟩
  · intro e he
    obtain rfl := List.mem_singleton.mp he
    trivial
  · intro sc' grows e he
    obtain rfl := List.mem_singleton.mp he
    exact Mark.grow grows (e := .led _ _) election
  · exact fun sp => stands (term ▸ sp.2) sp.1
  · intro sc' did _
    exact Or.inl ⟨config, term ▸ did _ (List.mem_singleton.mpr rfl)⟩

theorem backed_next (g : Global O first sc) (l : Local O first sc n v.core)
    (ordered : v.core.Ordered) {s : ClusterState} {rid seq : Nat}
    (leads : v.core.mode = .leader) (idle : v.core.publishing = none)
    (made : MadeFrom v.core v.core.committed s)
    (config : v.core.committed.lastCommittedConfig ≠ [] → s.lastAcceptedConfig ≠ [])
    (fits : ¬ (Event.published v.core.committed s).Wraps) :
    ∃ ms, Backed O first sc n v (v.publish v.core.committed s rid seq)
      ms ([] ++ [.published v.core.committed s, .accepted s]) := by
  have r := ordered.reigns leads
  have lead := l.leads leads
  have settles := r.idle idle
  have hrank : v.core.committed.rank = v.core.accepted.rank := by rw [settles]; rfl
  have low : v.core.committed.term ≤ v.core.currentTerm :=
    (term_le_of_rank_le hrank.le).trans ordered.accepted_le
  obtain ⟨b, hpub⟩ := lead.published
  have hdec := lead.idle idle
  refine ⟨_, backed_publish g l (k := v.core) ?_ (Or.inl rfl) rfl
    (List.append_nil _).symm (by simp) (by simp) made.term (l.id ▸ made.manager) hrank
    (made.outranks low fits) (config (by rw [settles]; exact r.voters)) made.committedConfig
    ?_ ?_ (lead.elected.imp fun b hb => Or.inr hb) lead.voted⟩
  · rw [← leads]
  · intro _
    exact ⟨some v.core.accepted, ⟨n, b, hpub⟩, Or.inr ⟨settles, n, hdec⟩⟩
  · intro sc' _ grows
    exact Or.inr ⟨v.core.accepted, b, settles, r.term.trans made.term.symm, grows.past hdec,
      grows.past hpub⟩

theorem backed_ack (g : Global O first sc) (l : Local O first sc n v.core)
    (ordered : v.core.Ordered) {e : Envelope} {p : Publication} (leads : v.core.mode = .leader)
    (inFlight : v.core.publishing = some p) (heard : (n, e) ∈ sc.wire)
    (haction : e.action = .publish) (hkind : e.kind = .response)
    (matched : e.body.term = some p.state.term ∧ e.body.version = some p.state.version) :
    Backed O first sc n v (v.withCore { v.core with
      publishing := some { p with acked := p.acked.insert e.sender } }) [] [] := by
  have lead := l.leads leads
  have hstate := ((ordered.reigns leads).inFlight p inFlight).1
  have accepted : sc.Did e.sender (.accepted p.state) := by
    have msg := g.wire _ heard
    simp only [Msg, haction, hkind] at msg
    obtain ⟨s, base, hacc, hpub, hterm, hversion⟩ := msg
    obtain ⟨b, hmine⟩ := lead.published
    -- the answer names a state of this manager's, and this term and version have one
    have : s = p.state := by
      rw [hstate]
      refine g.unique hpub hmine ?_
      rw [matched.1, hstate] at hterm
      rw [matched.2, hstate] at hversion
      simp [ClusterState.rank, Option.some.inj hterm, Option.some.inj hversion]
    rw [← this]
    exact hacc
  refine backed_core g (l.congr rfl rfl rfl rfl rfl rfl rfl rfl fun _ => ⟨lead.elected,
    lead.voted, lead.published, ?_, by rintro ⟨⟩⟩)
  rintro q hq id hid
  cases hq
  simp only [Std.ExtTreeSet.contains_insert, Bool.or_eq_true, beq_iff_eq,
    compare_eq_iff_eq] at hid
  rcases hid with rfl | hid
  · exact accepted
  · exact lead.acked p inFlight id hid

theorem backed_accept (g : Global O first sc) (l : Local O first sc n v.core) {e : Envelope}
    {s : ClusterState} {leader : NodeId} (heard : (n, e) ∈ sc.wire)
    (haction : e.action = .publish) (hkind : e.kind = .request)
    (carries : e.body.state = some s) (term : s.term = v.core.currentTerm)
    (higher : v.core.accepted.rank ≤ s.rank) :
    Backed O first sc n v (((v.withCore { v.core.accept s with
      mode := .follower leader }).send [(e.sender, e.response v.core.me.id
        { term := some s.term, version := some s.version })]).mark [.accepted s])
      [(e.sender, e.response v.core.me.id { term := some s.term, version := some s.version })]
      [.accepted s] := by
  obtain ⟨base, hpub⟩ : ∃ base, sc.Did e.sender (.published base s) := by
    have msg := g.wire _ heard
    simp only [Msg, haction, hkind] at msg
    exact msg s carries
  have hvoters := (g.past _ _ hpub).voters
  have grows : ∀ ms, Grows sc (sc.add n ms [.accepted s]) n := fun ms =>
    grows_add fun s' t m h hv => by
      obtain rfl : s' = s := by simpa using h
      rw [term]
      exact l.voted hv
  refine ⟨rfl, rfl, grows _, ?_, ?_⟩
  · refine g.add (grows _) ?_ ?_ (fun h => absurd h (by simp)) (fun h => absurd h (by simp))
      (fun h => absurd h (by simp))
    · intro x hx
      obtain rfl := List.mem_singleton.mp hx
      simp only [Msg, Envelope.response, haction]
      refine ⟨s, base, ?_, (grows _).past hpub, rfl, rfl⟩
      rw [l.id]
      exact did_new (by simp)
    · intro e' he'
      obtain rfl := List.mem_singleton.mp he'
      trivial
  · refine l.accept (grows _) (by simp) (by simp) (by simp) higher hvoters ?_ rfl rfl rfl rfl rfl rfl
      rfl (Or.inl rfl) (by rintro ⟨⟩)
    exact fun _ => Or.inr ⟨some s, ⟨e.sender, base, (grows _).past hpub⟩, Or.inl rfl⟩

/-! ## Decisions and commits -/

theorem backed_announce (g : Global O first sc) (l : Local O first sc n v.core)
    (ordered : v.core.Ordered) {p : Publication} {dests : List NodeId} {rid : Nat}
    (leads : v.core.mode = .leader) (inFlight : v.core.publishing = some p)
    (quorum : electionQuorum p.state p.acked = true) :
    ∃ ms, Backed O first sc n v (v.announce p dests rid) ms [.decided p.state] := by
  have lead := l.leads leads
  have hstate := ((ordered.reigns leads).inFlight p inFlight).1
  obtain ⟨b, hpub⟩ := lead.published
  have quiet : ∀ e ∈ [Event.decided p.state], Quiet e := by
    intro e he
    obtain rfl := List.mem_singleton.mp he
    trivial
  obtain ⟨ms, hms⟩ : ∃ ms, ms = dests.map fun m => (m, Envelope.request .commit v.core.me.id rid
      { term := some p.state.term, version := some p.state.version }) := ⟨_, rfl⟩
  have grows : Grows sc (sc.add n ms [.decided p.state]) n := grows_quiet quiet
  have decided : (sc.add n ms [.decided p.state]).Did n (.decided p.state) := did_new (by simp)
  refine ⟨ms, by rw [hms]; rfl, rfl, grows, g.add_quiet quiet ?_ ?_, ?_⟩
  · intro x hx
    rw [hms] at hx
    obtain ⟨m, _, rfl⟩ := List.mem_map.mp hx
    refine ⟨p.state, ?_, rfl, rfl⟩
    change Did _ v.core.me.id _
    rw [l.id]
    exact decided
  · intro e he
    obtain rfl := List.mem_singleton.mp he
    refine ⟨⟨b, grows.past (hstate ▸ hpub)⟩, p.acked, quorum, fun id hid => ?_⟩
    exact grows.past (lead.acked p inFlight id hid)
  · refine (l.grow_own quiet).congr rfl rfl rfl rfl rfl rfl rfl rfl fun _ => ?_
    have lead' := lead.grow grows
    refine ⟨lead'.elected, lead'.voted, lead'.published, nofun, fun _ => ?_⟩
    change Did _ n (.decided v.core.accepted)
    rw [← hstate]
    exact decided

theorem backed_applyCommitted (g : Global O first sc) (l : Local O first sc n v.core)
    {s : ClusterState} (term : s.term = v.core.currentTerm)
    (known : v.core.committed.rank < s.rank → Speaks O s.term →
      ∃ p, settled s = settled p ∧ sc.Decided p)
    (voters : v.core.committed.rank < s.rank → s.lastAcceptedConfig ≠ [])
    (leads : v.core.mode = .leader → s.rank ≤ v.core.accepted.rank) :
    ∃ es, Backed O first sc n v (v.applyCommitted s) [] es := by
  rcases applyCommitted_cases v s with ⟨_, hv⟩ | ⟨hc, ha, hv⟩ | ⟨hc, ha, hv⟩ <;> rw [hv]
  · exact ⟨[], backed_core g l⟩
  · have quiet : ∀ e ∈ [Event.committed (settled s)], Quiet e := by
      intro e he
      obtain rfl := List.mem_singleton.mp he
      trivial
    have grows : Grows sc (sc.add n [] [.committed (settled s)]) n := grows_quiet quiet
    have own : Local O first (sc.add n [] [.committed (settled s)]) n v.core := l.grow_own quiet
    refine ⟨[.committed (settled s)], (List.append_nil _).symm, rfl, grows,
      g.add_quiet quiet (by simp) ?_, ?_⟩
    · intro e he
      obtain rfl := List.mem_singleton.mp he
      intro sp
      obtain ⟨p, heq, hd⟩ := known hc sp
      exact ⟨p, heq, hd.grow grows⟩
    · exact { own with
        settles := fun sp => by
          obtain ⟨p, heq, hd⟩ := known hc sp
          exact Or.inr (Or.inr ⟨p, heq, hd.grow grows⟩)
        marked := fun _ => did_new (List.mem_singleton.mpr rfl)
        peopled := ⟨own.peopled.1, Or.inl (voters hc)⟩
        booted := fun b => ⟨(own.booted b).1, voters hc, nofun⟩
        leads := fun hl =>
          have lead := own.leads hl
          ⟨lead.elected, lead.voted, lead.published, lead.acked, lead.idle⟩ }
  · have grows : Grows sc (sc.add n [] [.accepted (settled s), .committed (settled s)]) n :=
      grows_add fun s' t m h hvote => by
        obtain rfl : s' = settled s := by simpa using h
        exact (l.voted hvote).trans term.ge
    have standing : Speaks O (settled s).term → ∃ p, settled s = settled p ∧
        (sc.add n [] [.accepted (settled s), .committed (settled s)]).Decided p := by
      intro sp
      obtain ⟨p, heq, hd⟩ := known hc sp
      exact ⟨p, heq, hd.grow grows⟩
    have marked : (sc.add n [] [.accepted (settled s), .committed (settled s)]).Did n
        (.committed (settled s)) := did_new (by simp)
    have acc : Local O first (sc.add n [] [.accepted (settled s), .committed (settled s)]) n
        (v.core.accept (settled s)) := l.accept (s := settled s) grows (by simp) (by simp) (by simp)
      ha.le (voters hc)
      (fun sp => by
        obtain ⟨p, heq, m, hd⟩ := known hc sp
        obtain ⟨b, hp⟩ := (g.past m _ hd).1
        refine Or.inr ⟨some p, ⟨m, b, grows.past hp⟩, Or.inr ⟨heq, m, grows.past hd⟩⟩)
      rfl rfl rfl rfl rfl rfl rfl (Or.inl rfl)
      (fun hl => absurd (leads hl) (not_le.mpr ha))
    refine ⟨_, (List.append_nil _).symm, rfl, grows, ?_, ?_⟩
    · refine g.add grows (by simp) ?_ (fun h => absurd h (by simp)) (fun h => absurd h (by simp))
        (fun h => absurd h (by simp))
      intro e he
      simp only [List.mem_cons, List.not_mem_nil, or_false] at he
      rcases he with rfl | rfl
      · trivial
      · exact standing
    · exact { acc with
        settles := fun sp => Or.inr (Or.inr (standing sp))
        marked := fun _ => marked
        peopled := ⟨acc.peopled.1, Or.inl (voters hc)⟩
        booted := fun b => ⟨(acc.booted b).1, voters hc, nofun⟩
        leads := fun hl => absurd (leads hl) (not_le.mpr ha) }

theorem applyCommitted_follow (v : View) (s : ClusterState) (mode : Mode) :
    (v.applyCommitted s).withCore { (v.applyCommitted s).core with mode := mode } =
      (v.withCore { v.core with mode := mode }).applyCommitted s := by
  unfold View.applyCommitted View.withCore
  dsimp only
  cases fresher s.term s.version v.core.committed.term v.core.committed.version <;>
    cases fresher (settled s).term (settled s).version v.core.accepted.term
      v.core.accepted.version <;> rfl

theorem Local.decided_of_rank (g : Global O first sc) (l : Local O first sc n k)
    {q : ClusterState} {m : NodeId} (hq : sc.Did m (.decided q))
    (hrank : k.accepted.rank = q.rank) (sp : Speaks O k.accepted.term) :
    ∃ p, settled k.accepted = settled p ∧ sc.Decided p := by
  obtain ⟨⟨b, hpub⟩, _⟩ := g.past m _ hq
  have hpos := (g.past m _ hpub).outranks
  have notRoot : ∀ config, ¬ Sim.IsRoot config k.accepted := by
    intro config root
    rw [← hrank, rank_lt_iff, root.term, root.version] at hpos
    omega
  rcases l.standing sp with root | ⟨b, hst⟩
  · exact absurd root (notRoot [])
  · cases b with
    | none => exact absurd hst (notRoot first)
    | some p =>
      obtain ⟨hp, hor⟩ := hst
      have hsettled : settled k.accepted = settled p := by
        rcases hor with h | ⟨h, _⟩ <;> rw [h]
        rfl
      have hpq : p.rank = q.rank := by
        have : (settled p).rank = (settled k.accepted).rank := by rw [hsettled]
        exact this.trans hrank
      have o : O := sp.1
      have g' : Global True first sc := by
        have : O = True := eq_true o
        rwa [this] at g
      have hterm : p.term = q.term ∧ p.version = q.version := by
        simpa [ClusterState.rank] using hpq
      have hlow : p.term < u64Max := by
        have : (settled p).term = (settled k.accepted).term := by rw [hsettled]
        exact this.trans_lt sp.2
      have : p = q := g'.lawful.published_unique hp ⟨m, _, hpub⟩ hlow
        hterm.1 hterm.2
      exact ⟨p, hsettled, m, this ▸ hq⟩

end Scene

variable {O : Prop} {first : List NodeId} {sc : Scene} {n : NodeId} {v v' : View}

/-- **Every act is backed by the scene it is added to.** -/
theorem Act.backed {inp : Option Envelope} (act : Act True O inp v v')
    (fits : ∀ e ∈ v'.marks, ¬ e.Wraps) (ordered : v.core.Ordered)
    (heard : ∀ e, inp = some e → e.binding = true → (n, e) ∈ sc.wire)
    (g : Global O first sc) (l : Local O first sc n v.core) :
    ∃ ms es, Backed O first sc n v v' ms es := by
  have wire : ∀ {e action kind}, Got inp e action kind →
      Envelope.binding ⟨kind, e.requestId, action, e.sender, e.body⟩ = true →
      (n, e) ∈ sc.wire := by
    intro e action kind got binding
    refine heard e got.handled ?_
    rw [← got.action_eq, ← got.kind_eq] at binding
    exact binding
  cases act with
  | join dest rid held => exact ⟨_, _, backed_join g l dest rid held⟩
  | term t higher => exact ⟨_, _, backed_core g (l.raise higher)⟩
  | stepDown => exact ⟨_, _, backed_core g (l.congr rfl rfl rfl rfl rfl rfl rfl rfl (by rintro ⟨⟩))⟩
  | follow m => exact ⟨_, _, backed_core g (l.congr rfl rfl rfl rfl rfl rfl rfl rfl (by rintro ⟨⟩))⟩
  | vote e t got named higher other =>
    have msg := g.wire _ (wire got rfl)
    simp only [Msg, got.action_eq, got.kind_eq] at msg
    have h := backed_vote g l higher (by simp) (Or.inr ⟨rfl, msg t named⟩)
    have none_sent : v.send [] = v := by simp [View.send]
    rw [none_sent] at h
    exact ⟨_, _, h⟩
  | candidacy t msgs higher told =>
    rw [l.id] at told ⊢
    exact ⟨_, _, backed_vote g l higher told (Or.inl rfl)⟩
  | vain t msgs last told =>
    refine ⟨_, _, backed_send g l fun x hx => ?_⟩
    obtain ⟨rid, he⟩ := told x hx
    rw [he]
    intro t' ht' hlt
    cases ht'
    exact absurd hlt (Nat.not_lt_of_le last)
  | count node vote =>
    exact ⟨_, _, backed_count g l vote.candidate (l.ballot g heard vote)⟩
  | lead node s rid seq vote won own made config =>
    obtain ⟨ms, h⟩ := backed_lead g l ordered (l.ballot g heard vote)
      won own made config (fits _ (by simp [View.publish, View.mark]))
    exact ⟨_, _, h⟩
  | next s rid seq leads idle made config =>
    obtain ⟨ms, h⟩ := backed_next g l ordered leads idle made config
      (fits _ (by simp [View.publish, View.mark]))
    exact ⟨_, _, h⟩
  | ack e p got leads inFlight rid matched =>
    exact ⟨_, _, backed_ack g l ordered leads inFlight (wire got rfl) got.action_eq
      got.kind_eq (matched trivial)⟩
  | decide p dests rid leads inFlight quorum =>
    have r := ordered.reigns leads
    have hstate := (r.inFlight p inFlight).1
    obtain ⟨ms, told⟩ := backed_announce g l ordered leads
      inFlight quorum
    obtain ⟨es, h⟩ := backed_applyCommitted (s := p.state) told.all told.node
      (hstate ▸ r.term) (fun _ _ => ⟨p.state, rfl, n, did_new (by simp)⟩)
      (fun _ => hstate ▸ r.voters) (fun _ => (congrArg ClusterState.rank hstate).le)
    exact ⟨_, _, told.trans h⟩
  | accept e s leader got carries term newer =>
    refine ⟨_, _, backed_accept g l (wire got rfl) got.action_eq got.kind_eq carries term ?_⟩
    have low := ordered.accepted_le
    rw [rank_le_iff]
    omega
  | commit e got now hterm hversion =>
    have msg := g.wire _ (wire got rfl)
    simp only [Msg, got.action_eq, got.kind_eq] at msg
    obtain ⟨q, hq, hqt, hqv⟩ := msg
    have hrank : v.core.accepted.rank = q.rank := by
      rw [hqt] at hterm
      rw [hqv] at hversion
      have ht : v.core.accepted.term = q.term := hterm
      have hv : v.core.accepted.version = q.version := hversion
      simp [ClusterState.rank, ht, hv]
    obtain ⟨es, h⟩ := backed_applyCommitted (s := v.core.accepted) g l (hterm.trans now)
      (fun _ sp => l.decided_of_rank g hq hrank sp)
      (fun hc => l.peopled.1.resolve_right fun h => by
        rw [rank_lt_iff, h.1, h.2] at hc
        omega)
      (fun _ => le_rfl)
    exact ⟨_, _, h⟩
  | joined e s got carries term =>
    have msg := g.wire _ (wire got rfl)
    simp only [Msg, got.action_eq, got.kind_eq] at msg
    obtain ⟨peopled, settles⟩ := msg s carries
    have notRoot : v.core.committed.rank < s.rank → ¬ (s.term = 0 ∧ s.version = 0) := by
      rintro hc ⟨ht, hv⟩
      rw [rank_lt_iff, ht, hv] at hc
      omega
    rw [applyCommitted_follow]
    have follower : Local O first sc n { v.core with mode := .follower e.sender } :=
      l.congr rfl rfl rfl rfl rfl rfl rfl rfl (by rintro ⟨⟩)
    have follows := backed_core (v := v) g follower
    obtain ⟨es, h⟩ := backed_applyCommitted (s := s) follows.all follows.node term
      (fun hc sp => by
        rcases settles sp with root | root | ⟨p, rfl, hd⟩
        · exact absurd ⟨root.term, root.version⟩ (notRoot hc)
        · exact absurd ⟨root.term, root.version⟩ (notRoot hc)
        · exact ⟨p, rfl, hd.grow follows.grows⟩)
      (fun hc => peopled.resolve_right (notRoot hc)) (by rintro ⟨⟩)
    exact ⟨_, _, follows.trans h⟩
  | late dest rid leads idle =>
    refine ⟨_, _, backed_send g l fun x hx => ?_⟩
    obtain rfl := List.mem_singleton.mp hx
    refine ⟨v.core.accepted, ?_, ?_, ?_⟩
    · change Did _ v.core.me.id _
      rw [l.id]
      exact (grows_quiet (by simp)).past ((l.leads leads).idle idle)
    · rw [(ordered.reigns leads).idle idle]; rfl
    · rw [(ordered.reigns leads).idle idle]; rfl
  | welcome dest rid leads nodes =>
    refine ⟨_, _, backed_send g l fun x hx => ?_⟩
    obtain rfl := List.mem_singleton.mp hx
    intro s hs
    obtain rfl : v.core.committed = s := Option.some.inj hs
    exact ⟨l.peopled.2, fun sp => (l.settles sp).grow (grows_quiet (by simp))⟩
  | summon dest rid leads =>
    refine ⟨_, _, backed_send g l fun x hx => ?_⟩
    obtain rfl := List.mem_singleton.mp hx
    intro t ht hlt
    cases ht
    change Did _ v.core.me.id (.voted _ v.core.me.id)
    rw [l.id]
    exact (grows_quiet (by simp)).past ((l.leads leads).voted hlt)
  | boot config named blank => exact absurd blank (l.booted named).1

theorem Moves.backed {inp : Option Envelope} (moves : Moves True O inp v v')
    (fits : ∀ e ∈ v'.marks, ¬ e.Wraps) (ordered : v.core.Ordered)
    (heard : ∀ e, inp = some e → e.binding = true → (n, e) ∈ sc.wire)
    (g : Global O first sc) (l : Local O first sc n v.core) :
    ∃ ms es, Backed O first sc n v v' ms es := by
  induction moves with
  | refl => exact ⟨[], [], backed_core g l⟩
  | @tail b c moves act ih =>
    have fits' : ∀ e ∈ b.marks, ¬ e.Wraps := fun e he => fits e (act.marks_prefix.subset he)
    obtain ⟨ms, es, h⟩ := ih fits'
    obtain ⟨ms', es', h'⟩ := act.backed fits (Moves.ordered moves fits' ordered).1
      (fun e he hb => h.grows.wire _ (heard e he hb)) h.all h.node
    exact ⟨_, _, h.trans h'⟩

end Velosearch.Cluster

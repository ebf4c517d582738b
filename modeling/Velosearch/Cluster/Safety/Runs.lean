import Velosearch.Cluster.Safety.Steps

/-!
# Whole runs

`Sound` is the invariant of a cluster: its scene is `Global`, and every node, up or
down, has a core that is `Local`, in order and kept by its disk. A node that is down
keeps the core it went down with, since that is what its disk brings back.
`run_sound` takes it through a run, and the four results are read off the scene at
the end:

* **`one_leader_per_term`**, **`committed_agree`** and **`committed_survives`**, for
  runs in which no node is elected over a state of the vote's own term that another
  manager published;
* **`decided_by_quorum`**, without that;

all for runs in which the answer that is counted for a publication names it, and no
publication runs out of versions. Each is followed by a run the code allows in which
it fails: `rid` counts from 1 in every process, so an answer to a publication of an
earlier one can carry the request id of a later one, and a restarted node counts
votes of its term against a configuration committed since they were cast.
-/

set_option autoImplicit false

namespace Velosearch.Cluster

open Coordinator Scene

variable {O : Prop} {first : List NodeId}

/-! ## A node through its restarts -/

theorem Act.names {M O : Prop} {inp : Option Envelope} {v v' : View} (act : Act M O inp v v') :
    v'.core.initialNames = v.core.initialNames ∧ v'.core.me = v.core.me := by
  cases act with
  | decide p dests rid =>
    obtain ⟨_, _, _, _, _, h⟩ := (v.announce p dests rid).applyCommitted_frame p.state
    unfold View.decide
    rw [h]
    exact ⟨rfl, rfl⟩
  | commit =>
    obtain ⟨_, _, _, _, _, h⟩ := v.applyCommitted_frame v.core.accepted
    rw [h]
    exact ⟨rfl, rfl⟩
  | joined e s =>
    obtain ⟨_, _, _, _, _, h⟩ := v.applyCommitted_frame s
    change (v.applyCommitted s).core.initialNames = _ ∧ (v.applyCommitted s).core.me = _
    rw [h]
    exact ⟨rfl, rfl⟩
  | _ => exact ⟨rfl, rfl⟩

theorem Moves.names {M O : Prop} {inp : Option Envelope} {v v' : View}
    (moves : Moves M O inp v v') :
    v'.core.initialNames = v.core.initialNames ∧ v'.core.me = v.core.me := by
  induction moves with
  | refl => exact ⟨rfl, rfl⟩
  | tail _ act ih => exact ⟨act.names.1.trans ih.1, act.names.2.trans ih.2⟩

theorem restore_committed {k : Core} {c : Coordinator} (rev : Revives k c) (kept : k.Kept) :
    c.restore.committed = k.committed ∨
      k.durable.committed = none ∧ c.restore.committed = c.committed := by
  have hdef : c.restore.committed = k.durable.committed.getD c.committed := by
    rw [← rev.disk]
    rfl
  rw [hdef]
  rcases kept.committed with h | ⟨h, _⟩
  · exact Or.inl (by rw [h]; rfl)
  · exact Or.inr ⟨h, by rw [h]; rfl⟩

theorem Scene.Settles.standing {sc : Scene} (g : Global O first sc) {a : ClusterState}
    (h : Settles first sc a) : Standing first sc a := by
  rcases h with h | h | ⟨p, rfl, m, hd⟩
  · exact Or.inl h
  · exact Or.inr ⟨none, h⟩
  · obtain ⟨⟨b, hp⟩, _⟩ := g.past m _ hd
    exact Or.inr ⟨some p, ⟨m, b, hp⟩, Or.inr ⟨rfl, m, hd⟩⟩

theorem Scene.Local.revive {sc : Scene} {n : NodeId} {k : Core} {c : Coordinator}
    (g : Global O first sc) (l : Local O first sc n k) (kept : k.Kept) (ordered : k.Ordered)
    (rev : Revives k c) (me : c.me.id = n) (name : c.me.name = k.me.name)
    (names : c.initialNames = k.initialNames) (blank : Sim.IsRoot [] c.committed)
    (last : c.lastJoin = none) (votes : c.joinVotes = ∅) :
    Local O first sc n c.restore.toCore.stepDown := by
  obtain ⟨_, _, rises⟩ := restore_back rev kept ordered
  have hcommitted := restore_committed rev kept
  have haccepted : c.restore.accepted = k.accepted ∨ c.restore.accepted = c.restore.committed :=
    (restore_accepted rev kept ordered.committed_le).imp And.left And.left
  have settles : Speaks O c.restore.committed.term → Settles first sc c.restore.committed := by
    intro sp
    rcases hcommitted with h | ⟨_, h⟩ <;> rw [h] at sp ⊢
    · exact l.settles sp
    · exact Or.inl blank
  have peopled : Peopled c.restore.committed := by
    rcases hcommitted with h | ⟨_, h⟩ <;> rw [h]
    · exact l.peopled.2
    · exact Or.inr ⟨blank.term, blank.version⟩
  refine {
    id := me
    voted := fun hd => (l.voted hd).trans rises.term
    last := fun hj => absurd (last.symm.trans hj) nofun
    accepts := fun hd => (l.accepts hd).trans rises.accepted
    publishes := fun hd => (l.publishes hd).trans rises.accepted
    votes := fun id hid => ?_
    standing := fun sp => ?_
    settles := settles
    marked := fun hne => ?_
    peopled := ⟨?_, peopled⟩
    booted := fun b => ?_
    leads := nofun }
  · have : c.joinVotes.contains id = true := hid
    rw [votes] at this
    exact absurd this (by simp)
  · change Standing first sc c.restore.accepted
    have sp : Speaks O c.restore.accepted.term := sp
    rcases haccepted with h | h <;> rw [h] at sp ⊢
    · exact l.standing sp
    · exact (settles sp).standing g
  · change sc.Did n (.committed c.restore.committed)
    have hne : c.restore.committed.term ≠ 0 ∨ c.restore.committed.version ≠ 0 := hne
    rcases hcommitted with h | ⟨_, h⟩ <;> rw [h] at hne ⊢
    · exact l.marked hne
    · exact absurd hne (by simp [blank.term, blank.version])
  · change Peopled c.restore.accepted
    rcases haccepted with h | h <;> rw [h]
    · exact l.peopled.1
    · exact peopled
  · have named : k.Named := by
      have : (c.initialNames.any fun x => x == c.me.name || x == c.me.id) = true := b
      unfold Core.Named
      rwa [l.id, ← me, ← name, ← names]
    obtain ⟨hacc, hcom, hdisk⟩ := l.booted named
    have hsame : c.restore.committed = k.committed := hcommitted.resolve_right fun h =>
      hdisk h.1
    have hdur : c.restore.durable = k.durable := rev.disk
    refine ⟨?_, ?_, ?_⟩
    · change c.restore.accepted.lastAcceptedConfig ≠ []
      rcases haccepted with h | h <;> rw [h]
      · exact hacc
      · rw [hsame]
        exact hcom
    · change c.restore.committed.lastAcceptedConfig ≠ []
      rw [hsame]
      exact hcom
    · change c.restore.durable.committed ≠ none
      rw [hdur]
      exact hdisk

/-! ## The invariant -/

namespace Sim

/-- What can be seen of a run: the messages that bind, and what happened. -/
def scene (w : Sim) : Scene := ⟨w.wire.filter fun m => m.2.binding, w.past⟩

/-- What a node holds is borne out by the run. -/
structure NodeSound (O : Prop) (first : List NodeId) (sc : Scene) (n : NodeId) (node : SimNode)
    (k : Core) : Prop where
  id : node.config.node.id = n
  inScene : Local O first sc n k
  kept : k.Kept
  ordered : k.Ordered
  disk : k.durable = node.durable
  names : k.initialNames = node.config.initialNames
  name : k.me.name = node.config.node.name
  up : ∀ c, node.logic = some c → c.toCore = k

/-- The invariant of a run. -/
structure Sound (O : Prop) (first : List NodeId) (w : Sim) : Prop where
  all : Global O first w.scene
  node : ∀ n node, w.nodes[n]? = some node → ∃ k, NodeSound O first w.scene n node k

theorem apply_scene (w : Sim) (n : NodeId) (node : SimNode) (c : Coordinator) :
    (w.apply n node c).scene = w.scene.add n c.view.sent c.view.marks := by
  have : ∀ os : List Output, (os.filterMap Output.sent).filter (fun m => m.2.binding) =
      os.filterMap Output.bound := by
    intro os
    induction os with
    | nil => rfl
    | cons o os ih =>
      cases o with
      | send dest e =>
        by_cases hb : e.binding = true <;>
          simp [Output.sent, Output.bound, hb, ih]
      | _ => simpa [List.filterMap_cons, Output.sent, Output.bound] using ih
  simp [scene, apply, Scene.add, view, List.filter_append, this]

theorem apply_sound {w : Sim} {n : NodeId} {node : SimNode} {k : Core} {c : Coordinator}
    {inp : Option Envelope} (sound : w.Sound O first) (id : node.config.node.id = n)
    (inScene : Local O first w.scene n k) (kept : k.Kept) (ordered : k.Ordered)
    (names : k.initialNames = node.config.initialNames)
    (name : k.me.name = node.config.node.name)
    (moves : Moves True O inp ⟨k, [], []⟩ c.view) (fits : ∀ e ∈ c.history, ¬ e.Wraps)
    (heard : ∀ e, inp = some e → e.binding = true → (n, e) ∈ w.scene.wire) :
    (w.apply n node c).Sound O first := by
  obtain ⟨ms, es, hsent, hmarks, grows, all, inScene'⟩ :=
    moves.backed fits ordered heard sound.all inScene
  have hscene : w.scene.add n ms es = (w.apply n node c).scene := by
    have hsent : c.view.sent = ms := hsent
    have hmarks : c.view.marks = es := hmarks
    rw [apply_scene, hsent, hmarks]
  rw [hscene] at grows all inScene'
  refine ⟨all, fun m node' hm => ?_⟩
  change (w.nodes.insert n _)[m]? = some node' at hm
  rw [Std.ExtTreeMap.getElem?_insert] at hm
  split at hm
  · rename_i heq
    obtain rfl := compare_eq_iff_eq.mp heq
    obtain rfl := Option.some.inj hm
    refine ⟨c.toCore, id, inScene', moves.kept kept, (moves.ordered fits ordered).1, rfl,
      moves.names.1.trans names, ?_, fun d hd => congrArg _ (Option.some.inj hd).symm⟩
    have : c.toCore.me = k.me := moves.names.2
    rw [this]
    exact name
  · rename_i hne
    have hne : m ≠ n := fun h => hne (compare_eq_iff_eq.mpr h.symm)
    obtain ⟨k', ok⟩ := sound.node m node' hm
    exact ⟨k', { ok with inScene := ok.inScene.grow_other grows hne }⟩

theorem feed_sound {w : Sim} {env : Env} {n : NodeId} {input : Input}
    (sound : w.Sound O first) (running : input ≠ .start)
    (fair : ∀ e, input = .message e → ∀ c ∈ w.up n, c.Fair True O e)
    (heard : ∀ e, input = .message e → e.binding = true → (n, e) ∈ w.wire)
    (fits : ∀ x ∈ (w.feed env n input).past, ¬ x.2.Wraps) :
    (w.feed env n input).Sound O first := by
  unfold feed at fits ⊢
  split
  · rename_i node hnode
    split
    · rename_i c hc
      rw [hnode] at fits
      simp only [hc] at fits
      obtain ⟨k, ok⟩ := sound.node n node hnode
      obtain rfl := ok.up c hc
      have hup : c ∈ w.up n := by simp [up, hnode, hc]
      refine apply_sound sound ok.id ok.inScene ok.kept ok.ordered ok.names ok.name
        (handle_moves running (fun e he => fair e he c hup) fun _ => ok.ordered.accepted_le)
        ?_ ?_
      · intro e he
        exact fits (n, e) (List.mem_append_right _ (List.mem_map_of_mem he))
      · intro e he hb
        refine List.mem_filter.mpr ⟨heard e ?_ hb, hb⟩
        cases input with
        | message e' => exact congrArg Input.message (Option.some.inj he)
        | _ => exact (Option.some_ne_none e he.symm).elim
    · exact sound
  · exact sound

theorem crash_sound {w : Sim} (sound : w.Sound O first) (n : NodeId) :
    (w.crash n).Sound O first := by
  unfold crash
  split
  · rename_i node hnode
    refine ⟨sound.all, fun m node' hm => ?_⟩
    change (w.nodes.insert n _)[m]? = some node' at hm
    rw [Std.ExtTreeMap.getElem?_insert] at hm
    split at hm
    · rename_i heq
      obtain rfl := compare_eq_iff_eq.mp heq
      obtain rfl := Option.some.inj hm
      obtain ⟨k, ok⟩ := sound.node n node hnode
      exact ⟨k, { ok with up := fun c h => (Option.some_ne_none c h.symm).elim }⟩
    · exact sound.node m node' hm
  · exact sound

theorem restart_sound {w : Sim} {env : Env} {n : NodeId} {ephemeralId uuid : String}
    (sound : w.Sound O first)
    (fits : ∀ x ∈ (w.restart env n ephemeralId uuid).past, ¬ x.2.Wraps) :
    (w.restart env n ephemeralId uuid).Sound O first := by
  unfold restart at fits ⊢
  split
  · rename_i node hnode
    split
    · exact sound
    · rename_i hdown
      rw [hnode] at fits
      simp only [hdown] at fits
      obtain ⟨k, ok⟩ := sound.node n node hnode
      have rev : Revives k ((node.process ephemeralId uuid).clear env.wall) :=
        ⟨ok.disk.symm, fun _ => rfl, fun _ => ⟨rfl, rfl⟩⟩
      obtain ⟨kept, ordered, _⟩ := restore_back rev ok.kept ok.ordered
      refine apply_sound sound ok.id
        (ok.inScene.revive sound.all ok.kept ok.ordered rev ok.id ok.name.symm ok.names.symm
          ⟨rfl, rfl, rfl, rfl⟩ rfl rfl)
        kept ordered rfl rfl (onStart_moves _) ?_
        fun e h => (Option.some_ne_none e h.symm).elim
      intro e he
      exact fits (n, e) (List.mem_append_right _ (List.mem_map_of_mem he))
  · exact sound

theorem past_step (w : Sim) (m : Move) : w.past <+: (w.step m).past := by
  have feeds : ∀ env n input, w.past <+: (w.feed env n input).past := by
    intro env n input
    unfold feed
    split
    · split
      · exact List.prefix_append _ _
      · exact List.prefix_rfl
    · exact List.prefix_rfl
  cases m with
  | deliver env i =>
    simp only [step]
    split
    · exact feeds _ _ _
    · exact List.prefix_rfl
  | inject env n e =>
    simp only [step]
    split
    · exact List.prefix_rfl
    · exact feeds _ _ _
  | crash n =>
    change w.past <+: (w.crash n).past
    unfold crash
    split <;> exact List.prefix_rfl
  | restart env n ephemeralId uuid =>
    change w.past <+: (w.restart env n ephemeralId uuid).past
    unfold restart
    split
    · split
      · exact List.prefix_rfl
      · exact List.prefix_append _ _
    · exact List.prefix_rfl
  | timer env n id => exact feeds _ _ _
  | peer env n node => exact feeds _ _ _
  | shardDone env n id result => exact feeds _ _ _

theorem past_run (w : Sim) (ms : List Move) : w.past <+: (w.run ms).past := by
  induction ms generalizing w with
  | nil => exact List.prefix_rfl
  | cons m ms ih => exact (past_step w m).trans (ih (w.step m))

theorem step_sound {w : Sim} {m : Move} (sound : w.Sound O first) (fair : w.Fair True O m)
    (fits : ∀ x ∈ (w.step m).past, ¬ x.2.Wraps) : (w.step m).Sound O first := by
  cases m with
  | deliver env i =>
    simp only [step] at fits ⊢
    split
    · rename_i n e hi
      rw [hi] at fits
      refine feed_sound sound (by simp) ?_ ?_ fits
      · rintro _ ⟨⟩ c hc
        exact fair (n, e) hi c hc
      · rintro _ ⟨⟩ _
        exact List.mem_of_getElem? hi
    · exact sound
  | inject env n e =>
    simp only [step] at fits ⊢
    split
    · exact sound
    · rename_i hb
      rw [if_neg hb] at fits
      refine feed_sound sound (by simp) ?_ ?_ fits
      · rintro _ ⟨⟩ c _
        refine ⟨fun _ ha hk => ?_, fun _ ha hk => ?_⟩
        · exact absurd (by simp [Envelope.binding, ha, hk]) hb
        · exact absurd (by simp [Envelope.binding, ha, hk]) hb
      · rintro _ ⟨⟩ hb'
        exact absurd hb' hb
  | timer env n id => exact feed_sound sound (by simp) (by simp) (by simp) fits
  | peer env n node => exact feed_sound sound (by simp) (by simp) (by simp) fits
  | shardDone env n id result => exact feed_sound sound (by simp) (by simp) (by simp) fits
  | crash n => exact crash_sound sound n
  | restart env n ephemeralId uuid => exact restart_sound sound fits

theorem begins_sound {w : Sim} (begins : w.Begins first) : w.Sound O first := by
  have nothing : ∀ n e, ¬ w.scene.Did n e := by
    intro n e h
    have : (n, e) ∈ w.past := h
    rw [begins.past] at this
    exact absurd this (by simp)
  refine ⟨⟨?_, fun n e h => absurd h (nothing n e), fun h => absurd h (nothing _ _),
    fun h => absurd h (nothing _ _), fun h => absurd h (nothing _ _)⟩, fun n node hn => ?_⟩
  · intro m hm
    have : w.scene.wire = [] := by simp [scene, begins.wire]
    rw [this] at hm
    exact absurd hm (by simp)
  · obtain ⟨id, down, ready⟩ := begins.node n node hn
    rcases ready with ⟨hterm, s, root, hc, ha⟩ | ⟨hdisk, hnames⟩
    · let k : Core :=
        { me := node.config.node
          initialNames := node.config.initialNames
          committed := s
          accepted := s
          durable := node.durable }
      refine ⟨k, id, ?_,
        ⟨hterm, Or.inl hc, Or.inl ha⟩, ⟨le_rfl, ?_, nofun⟩, rfl, rfl, rfl, ?_⟩
      · exact {
          id := id
          voted := fun h => absurd h (nothing _ _)
          last := nofun
          accepts := fun h => absurd h (nothing _ _)
          publishes := fun h => absurd h (nothing _ _)
          votes := fun _ h => absurd h (by simp [k])
          standing := fun _ => Or.inr ⟨none, root⟩
          settles := fun _ => Or.inr (Or.inl root)
          marked := fun h => absurd h (by simp [k, root.term, root.version])
          peopled := ⟨Or.inr ⟨root.term, root.version⟩, Or.inr ⟨root.term, root.version⟩⟩
          booted := fun _ => by
            refine ⟨?_, ?_, ?_⟩
            · rw [root.acceptedConfig]; exact begins.nonempty
            · rw [root.acceptedConfig]; exact begins.nonempty
            · change node.durable.committed ≠ none
              rw [hc]
              exact nofun
          leads := nofun }
      · exact root.term.le
      · intro c hc
        rw [down] at hc
        exact (Option.some_ne_none c hc.symm).elim
    · obtain ⟨kept, ordered⟩ := blank_ordered node.config ""
      refine ⟨(node.config.process "" {}).toCore, id, ?_, kept, ordered, hdisk.symm, rfl, rfl, ?_⟩
      · have blank : IsRoot [] (node.config.process "" {}).committed := ⟨rfl, rfl, rfl, rfl⟩
        exact {
          id := id
          voted := fun h => absurd h (nothing _ _)
          last := nofun
          accepts := fun h => absurd h (nothing _ _)
          publishes := fun h => absurd h (nothing _ _)
          votes := fun _ h => absurd h (by simp [Config.process, Coordinator.new])
          standing := fun _ => Or.inl blank
          settles := fun _ => Or.inl blank
          marked := fun h => absurd h (by simp [blank.term, blank.version])
          peopled := ⟨Or.inr ⟨rfl, rfl⟩, Or.inr ⟨rfl, rfl⟩⟩
          booted := fun b => by
            have : (node.config.initialNames.any fun n =>
              n == node.config.node.name || n == node.config.node.id) = true := b
            rw [hnames] at this
            exact absurd this nofun
          leads := nofun }
      · intro c hc
        rw [down] at hc
        exact (Option.some_ne_none c hc.symm).elim

theorem run_sound {w : Sim} (ms : List Move) (sound : w.Sound O first)
    (fair : w.FairRun True O ms) (fits : ∀ x ∈ (w.run ms).past, ¬ x.2.Wraps) :
    (w.run ms).Sound O first := by
  induction ms generalizing w with
  | nil => exact sound
  | cons m ms ih =>
    refine ih (step_sound sound fair.1 fun x hx => ?_) fair.2 fits
    exact fits x ((past_run (w.step m) ms).subset hx)

theorem fair_run_sound {w : Sim} (begins : w.Begins first) {ms : List Move}
    (fair : w.FairRun True O ms) (fits : ∀ x ∈ (w.run ms).past, ¬ x.2.Wraps) :
    (w.run ms).Sound O first := run_sound ms (begins_sound begins) fair fits

theorem exists_event {w : Sim} {n : NodeId} {p : Event → Bool}
    (h : (w.past.any fun x => x.1 == n && p x.2) = true) :
    ∃ e, (n, e) ∈ w.past ∧ p e = true := by
  obtain ⟨⟨m, e⟩, hmem, hx⟩ := List.any_eq_true.mp h
  rw [Bool.and_eq_true, beq_iff_eq] at hx
  obtain ⟨rfl, he⟩ := hx
  exact ⟨e, hmem, he⟩

/-! ### Clusters and moves for the runs below -/

/-- Every node starts. -/
def starts (ids : List NodeId) : List Move := ids.map fun n => .restart .still n n "blank"

/-- Messages are delivered, by their place on the wire. -/
def delivers (places : List Nat) : List Move := places.map (.deliver .still)

/-- Three nodes that start a cluster. -/
def three : Sim := ofNodes (["a", "b", "c"].map (.member ["a", "b", "c"] ["a", "b", "c"]))

theorem three_begins : three.Begins ["a", "b", "c"] := by
  apply ofNodes_begins (by simp)
  intro node hn
  obtain ⟨id, _, rfl⟩ := List.mem_map.mp hn
  exact ⟨rfl, Or.inl ⟨rfl, _, ⟨rfl, rfl, rfl, rfl⟩, rfl, rfl⟩⟩

/-- One of them is elected. -/
def election : List Move :=
  starts ["a", "b", "c"] ++ [.timer .still "a" .election] ++ delivers [6, 8, 9, 12, 13]

/-! ## Quorums behind decisions -/

/-- Whatever a manager decided, majorities of the configuration that was committed and
of the one it brought in had accepted. -/
def Quorate (w : Sim) : Prop :=
  ∀ n s, (n, .decided s) ∈ w.past → ∃ V : BTreeSet NodeId,
    hasQuorum s.lastCommittedConfig V = true ∧ hasQuorum s.lastAcceptedConfig V = true ∧
    ∀ id, V.contains id = true → (id, .accepted s) ∈ w.past

/-- **A quorum stands behind every decision.** -/
theorem decided_by_quorum (w : Sim) (begins : w.Begins first) (ms : List Move)
    (matched : w.FairRun True False ms) (fits : ∀ x ∈ (w.run ms).past, ¬ x.2.Wraps) :
    (w.run ms).Quorate := by
  have sound := fair_run_sound begins matched fits
  intro n s hd
  obtain ⟨_, V, hq, hV⟩ := sound.all.past n _ hd
  rw [electionQuorum, Bool.and_eq_true] at hq
  exact ⟨V, hq.1, hq.2, hV⟩

/-- `b`'s answer decides the first state. -/
theorem election_decided_by_quorum :
    (three.run (election ++ delivers [14])).Quorate ∧
      ((three.run (election ++ delivers [14])).past.any fun x => x.1 == "a" && match x.2 with
        | .decided s => s.term == 1 && s.version == 1
        | _ => false) = true :=
  ⟨decided_by_quorum _ three_begins _ (by decide +kernel) (by decide +kernel),
    by decide +kernel⟩

/-- An answer comes when its publication is long decided. -/
def lateAnswer : List Move :=
  election ++ [.crash "a"] ++ starts ["a"] ++ [.timer .still "a" .election] ++
    delivers [17, 19, 20, 25, 14]

/-- A decision nobody but the manager accepted. -/
theorem decided_by_old_answer :
    three.Begins ["a", "b", "c"] ∧ ¬ (three.run lateAnswer).Quorate := by
  refine ⟨three_begins, fun quorate => ?_⟩
  obtain ⟨e, he, hp⟩ := exists_event (w := three.run lateAnswer) (n := "a")
    (p := fun e => match e with
      | .decided s => decide (s.lastAcceptedConfig = ["a", "b", "c"] ∧
          ("b", .accepted s) ∉ (three.run lateAnswer).past ∧
          ("c", .accepted s) ∉ (three.run lateAnswer).past)
      | _ => false) (by decide +kernel)
  split at hp
  · rename_i s
    obtain ⟨hconfig, hb, hc⟩ := of_decide_eq_true hp
    obtain ⟨V, _, hq, hV⟩ := quorate "a" s he
    have nb : V.contains "b" = false := by
      rw [Bool.eq_false_iff]
      exact fun h => hb (hV "b" h)
    have nc : V.contains "c" = false := by
      rw [Bool.eq_false_iff]
      exact fun h => hc (hV "c" h)
    rw [hconfig] at hq
    cases ha : V.contains "a" <;> simp [hasQuorum, ha, nb, nc] at hq
  · cases hp

/-! ## One leader -/

/-- No two nodes entered `Mode::Leader` in one term. -/
def OneLeader (w : Sim) : Prop :=
  ∀ t n m b b', t < u64Max → (n, .led t b) ∈ w.past → (m, .led t b') ∈ w.past → n = m

/-- **A term has one leader.** -/
theorem one_leader_per_term (w : Sim) (begins : w.Begins first) (ms : List Move)
    (fair : w.FairRun True True ms) (fits : ∀ x ∈ (w.run ms).past, ¬ x.2.Wraps) :
    (w.run ms).OneLeader := by
  have sound := fair_run_sound begins fair fits
  intro t n m b b' ht h h'
  obtain ⟨x, hx⟩ := (sound.all.past n _ h ht).stands trivial
  obtain ⟨x', hx'⟩ := (sound.all.past m _ h' ht).stands trivial
  exact sound.all.lawful.leader_unique ht ⟨b, h, hx⟩ ⟨b', h', hx'⟩

/-- Two leaders, one after the other. -/
def twoTerms : List Move :=
  election ++ delivers [14] ++ [.crash "a"] ++ starts ["a"] ++ [.timer .still "a" .election] ++
    delivers [18, 20, 21, 26]

theorem twoTerms_one_leader :
    (three.run twoTerms).OneLeader ∧
      ((three.run twoTerms).up "a").map (fun c => (c.mode, c.currentTerm)) = some (.leader, 2) :=
  ⟨one_leader_per_term _ three_begins _ (by decide +kernel) (by decide +kernel),
    by decide +kernel⟩

/-- Three nodes and a newcomer. -/
def four : Sim := ofNodes (["a", "b", "c"].map (.member ["a", "b", "c"] ["a", "b", "c", "d"]) ++
  [.newcomer ["a", "b", "c"] "d"])

theorem four_begins : four.Begins ["a", "b", "c"] := by
  apply ofNodes_begins (by simp)
  intro node hn
  rcases List.mem_append.mp hn with hn | hn
  · obtain ⟨id, _, rfl⟩ := List.mem_map.mp hn
    exact ⟨rfl, Or.inl ⟨rfl, _, ⟨rfl, rfl, rfl, rfl⟩, rfl, rfl⟩⟩
  · obtain rfl := List.mem_singleton.mp hn
    exact ⟨rfl, Or.inr ⟨rfl, by decide⟩⟩

/-- Two nodes that stand for election at once. -/
def rivals : List Move :=
  starts ["a", "b", "c", "d"] ++
  [.timer .still "a" .election, .timer .still "c" .election] ++
  delivers [12, 18, 16, 22, 19, 25, 27, 30, 31, 6, 33, 34, 9, 37, 38, 36, 39, 42, 44] ++
  [.inject .still "a" (.request .leave "b" 1 {})] ++ delivers [47] ++
  [.inject .still "a" (.request .leave "c" 1 {})] ++ delivers [27, 49, 51] ++
  [.crash "c"] ++ starts ["c"] ++ delivers [29]

/-- Two nodes lead in term 1. -/
theorem rivals_two_leaders :
    four.Begins ["a", "b", "c"] ∧ ¬ (four.run rivals).OneLeader := by
  refine ⟨four_begins, fun one => ?_⟩
  have led : ∀ {n : NodeId}, ((four.run rivals).past.any fun x => x.1 == n && match x.2 with
      | .led t _ => t == 1
      | _ => false) = true → ∃ b, (n, .led 1 b) ∈ (four.run rivals).past := by
    intro n h
    obtain ⟨e, he, hp⟩ := exists_event (p := fun e => match e with
      | .led t _ => t == 1
      | _ => false) h
    split at hp
    · rename_i t b
      obtain rfl := beq_iff_eq.mp hp
      exact ⟨b, he⟩
    · exact absurd hp nofun
  obtain ⟨b, ha⟩ := led (n := "a") (by decide +kernel)
  obtain ⟨b', hc⟩ := led (n := "c") (by decide +kernel)
  exact absurd (one 1 "a" "c" b b' (by decide) ha hc) (by decide)

/-! ## Agreement -/

/-- A node committed the state, or holds it as committed. -/
def Committed (w : Sim) (n : NodeId) (s : ClusterState) : Prop :=
  (n, .committed s) ∈ w.past ∨ ∃ c ∈ w.up n, c.committed = s

theorem Committed.recorded {w : Sim} (sound : w.Sound O first) {n : NodeId} {s : ClusterState}
    (h : w.Committed n s) (hv : 0 < s.version) : (n, .committed s) ∈ w.past := by
  rcases h with h | ⟨c, up, rfl⟩
  · exact h
  · unfold Sim.up at up
    cases hn : w.nodes[n]? with
    | none => rw [hn] at up; exact absurd up (by simp)
    | some node =>
      rw [hn] at up
      obtain ⟨k, ok⟩ := sound.node n node hn
      obtain rfl := ok.up c up
      exact ok.inScene.marked (Or.inr (Nat.ne_of_gt hv))

/-- States committed under one term and version are one state. -/
def Agrees (w : Sim) : Prop :=
  ∀ n m s s', w.Committed n s → w.Committed m s' → s.term < u64Max → s.term = s'.term →
    s.version = s'.version → 0 < s.version → s = s'

/-- **Committed states agree.** -/
theorem committed_agree (w : Sim) (begins : w.Begins first) (ms : List Move)
    (fair : w.FairRun True True ms) (fits : ∀ x ∈ (w.run ms).past, ¬ x.2.Wraps) :
    (w.run ms).Agrees := by
  have sound := fair_run_sound begins fair fits
  intro n m s s' h h' hlow hterm hversion hpos
  obtain ⟨p, rfl, k, hp⟩ := sound.all.past n _ (h.recorded sound hpos) ⟨trivial, hlow⟩
  obtain ⟨q, rfl, k', hq⟩ := sound.all.past m _ (h'.recorded sound (hversion ▸ hpos))
    ⟨trivial, hterm ▸ hlow⟩
  obtain ⟨b, hpb⟩ := (sound.all.past k _ hp).1
  obtain ⟨b', hqb⟩ := (sound.all.past k' _ hq).1
  rw [sound.all.lawful.published_unique ⟨k, b, hpb⟩ ⟨k', b', hqb⟩ hlow hterm
    hversion]

theorem twoTerms_agree :
    (three.run (election ++ delivers [14, 15])).Agrees ∧
      ((three.run (election ++ delivers [14, 15])).up "b").map
        (fun c => (c.committed.term, c.committed.version)) = some (1, 1) :=
  ⟨committed_agree _ three_begins _ (by decide +kernel) (by decide +kernel),
    by decide +kernel⟩

/-- A run in which they come to commit different states. -/
def diverging : List Move :=
  rivals ++ delivers [53, 60] ++ [.timer .still "a" .allocate] ++ delivers [62, 64, 65] ++
  [.timer .still "c" .publish] ++ delivers [29, 71, 72, 73]

/-- One term and version, two committed states. -/
theorem diverging_disagree :
    four.Begins ["a", "b", "c"] ∧ ¬ (four.run diverging).Agrees := by
  refine ⟨four_begins, fun agrees => ?_⟩
  have committed : ∀ {n : NodeId} {m : NodeId}, ((four.run diverging).up n).map (fun c =>
      (c.committed.term, c.committed.version, c.committed.clusterManager)) = some (1, 6, some m) →
      ∃ s, (four.run diverging).Committed n s ∧ s.term = 1 ∧ s.version = 6 ∧
        s.clusterManager = some m := by
    intro n m h
    obtain ⟨c, hc, heq⟩ := Option.map_eq_some_iff.mp h
    simp only [Prod.mk.injEq] at heq
    exact ⟨c.committed, Or.inr ⟨c, hc, rfl⟩, heq⟩
  obtain ⟨s, hs, ht, hv, hm⟩ := committed (n := "b") (m := "a") (by decide +kernel)
  obtain ⟨s', hs', ht', hv', hm'⟩ := committed (n := "d") (m := "c") (by decide +kernel)
  have := agrees "b" "d" s s' hs hs' (by rw [ht]; decide) (ht.trans ht'.symm)
    (hv.trans hv'.symm) (by rw [hv]; decide)
  rw [this, hm'] at hm
  exact absurd hm (by decide)

/-! ## Nothing committed is lost -/

/-- A publication was made over another. -/
def PublishedOver (w : Sim) (p q : ClusterState) : Prop :=
  ∃ n base, (n, .published base q) ∈ w.past ∧ (base = p ∨ base = settled p)

/-- A decided state that a publication was made over. -/
def OnTop (w : Sim) (s base : ClusterState) : Prop :=
  ∃ p b, s = settled p ∧ (base = b ∨ base = settled b) ∧
    Relation.ReflTransGen w.PublishedOver p b

/-- Whoever is elected above the term of a committed state has it, or what came of
it. -/
def Survives (w : Sim) : Prop :=
  ∀ n m s t base, (n, .committed s) ∈ w.past → (m, .led t base) ∈ w.past → s.term < t →
    t < u64Max → s.rank ≤ base.rank ∧ w.OnTop s base

theorem publishedOver_of_below {w : Sim} {p : ClusterState} {x : Option ClusterState}
    (h : (w.scene.record first).Below (some p) x) :
    ∃ b, x = some b ∧ Relation.ReflTransGen w.PublishedOver p b := by
  induction h with
  | refl => exact ⟨p, rfl, .refl⟩
  | tail _ step ih =>
    obtain ⟨b, rfl, hb⟩ := ih
    obtain ⟨s, rfl, n, base, hp, hst⟩ := step
    exact ⟨s, rfl, hb.tail ⟨n, base, hp, hst.2.imp_right And.left⟩⟩

/-- **What was committed survives every election.** -/
theorem committed_survives (w : Sim) (begins : w.Begins first) (ms : List Move)
    (fair : w.FairRun True True ms) (fits : ∀ x ∈ (w.run ms).past, ¬ x.2.Wraps) :
    (w.run ms).Survives := by
  have sound := fair_run_sound begins fair fits
  intro n m s t base hs hled hlt hlow
  obtain ⟨p, rfl, k, hp⟩ := sound.all.past n _ hs ⟨trivial, hlt.trans hlow⟩
  obtain ⟨x, hx⟩ := (sound.all.past m _ hled hlow).stands trivial
  have below := sound.all.lawful.base_above hlow ⟨base, hled, hx⟩ ⟨k, hp⟩ hlt
  obtain ⟨b, rfl, chain⟩ := publishedOver_of_below below
  refine ⟨?_, p, b, rfl, hx.2.imp_right And.left, chain⟩
  have hbase : base.term ≤ t := by
    rcases (sound.all.past m _ hled hlow).own trivial with h | ⟨h, _⟩
    · exact h.le
    · exact h.le
  have hterm : b.term < u64Max :=
    Nat.lt_of_le_of_lt (hx.manager_eq.2.le.trans hbase) hlow
  have hrank : b.rank = base.rank := hx.rank_eq
  rw [← hrank]
  rcases sound.all.lawful.below_rank below hterm with h | h
  · exact (congrArg ClusterState.rank (Option.some.inj h)).le
  · exact h.le

theorem twoTerms_survives :
    (three.run twoTerms).Survives ∧
      ((three.run twoTerms).up "a").map (fun c => (c.committed.term, c.accepted.term)) =
        some (1, 2) :=
  ⟨committed_survives _ three_begins _ (by decide +kernel) (by decide +kernel),
    by decide +kernel⟩

/-- A run in which a decided state is lost. -/
def forgetting : List Move :=
  lateAnswer ++ [.crash "b"] ++ starts ["b"] ++ [.timer .still "b" .election] ++
    delivers [31, 32, 34, 36]

/-- A committed state a later leader has never seen. -/
theorem forgetting_loses_committed :
    three.Begins ["a", "b", "c"] ∧ ¬ (three.run forgetting).Survives := by
  refine ⟨three_begins, fun survives => ?_⟩
  obtain ⟨e, he, hp⟩ := exists_event (w := three.run forgetting) (n := "a")
    (p := fun e => match e with
      | .committed s => s.term == 2
      | _ => false) (by decide +kernel)
  obtain ⟨e', he', hp'⟩ := exists_event (w := three.run forgetting) (n := "b")
    (p := fun e => match e with
      | .led t base => t == 3 && base.term == 1
      | _ => false) (by decide +kernel)
  split at hp
  · split at hp'
    · rename_i s _ t base
      have hs : s.term = 2 := beq_iff_eq.mp hp
      simp only [Bool.and_eq_true, beq_iff_eq] at hp'
      obtain ⟨rfl, hbase⟩ := hp'
      obtain ⟨hrank, _⟩ := survives "a" "b" s 3 base he he' (by omega) (by decide)
      have := term_le_of_rank_le hrank
      omega
    · exact absurd hp' nofun
  · exact absurd hp nofun

end Sim

end Velosearch.Cluster

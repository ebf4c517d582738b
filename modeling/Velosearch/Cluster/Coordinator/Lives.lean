import Velosearch.Cluster.Coordinator.Orders

/-!
# One node, over all it lives through

A node is handed inputs of any kind in any order, from any outside; at any point its
process may be gone and another one started on the same disk. A `Life` is such a
run, with everything the node ever put out and recorded.

* **`life_rises`**: its term and the ranks of its accepted and committed states
  never fall, and stay in order, over every life in which no publication runs out
  of versions.
* **`life_votes_once`**: over every life, the joins that carry a vote for a term go
  to one node. The record of the vote is in memory only, but the term is on disk
  before the vote goes out, and a node back from its disk votes only above it.
-/

set_option autoImplicit false

namespace Velosearch.Cluster

open Coordinator

/-! ## Lives -/

/-- How a node is set up: what `Coordinator::new` is given, and what its caller
changes before the node runs. -/
structure Config extends Setup where
  node : DiscoveryNode
  initialNames : List String := []
  clusterName : String
  clusterUuid : String

namespace Config

/-- The same configuration for another node. -/
def ofNode (g : Config) (id : NodeId) : Config := { g with node := { g.node with id := id } }

/-- The process that starts with what is on disk. -/
def process (g : Config) (uuid : String) (disk : Durable) : Coordinator :=
  { Coordinator.new g.node g.clusterName g.clusterUuid uuid g.initialNames g.seeds with
    toSetup := g.toSetup
    durable := disk }

end Config

/-- What may happen to a node: an input, or a restart. -/
inductive Happening where
  | input (env : Env) (input : Input)
  | restart (env : Env) (config : Config) (uuid : String)

/-- A node over its restarts: the process, and everything it ever sent. -/
structure Life where
  now : Coordinator
  outs : List Output
  past : List Event

namespace Life

/-- A node's first process, started on an empty disk. -/
def born (env : Env) (config : Config) (uuid : String) : Life :=
  let c := (config.process uuid {}).handle env .start
  ⟨c, c.out, c.history⟩

/-- What a happening makes of the process. -/
def meets (c : Coordinator) : Happening → Coordinator
  | .input env i => c.handle env i
  | .restart env config uuid =>
    ((config.ofNode c.me.id).process uuid c.durable).handle env .start

/-- One happening. -/
def step (l : Life) (h : Happening) : Life :=
  let c := meets l.now h
  ⟨c, l.outs ++ c.out, l.past ++ c.history⟩

/-- Several. -/
def run (l : Life) (hs : List Happening) : Life := hs.foldl step l

@[simp] theorem run_nil (l : Life) : l.run [] = l := rfl

@[simp] theorem run_cons (l : Life) (h : Happening) (hs : List Happening) :
    l.run (h :: hs) = (l.step h).run hs := rfl

@[simp] theorem run_append (l : Life) (hs hs' : List Happening) :
    l.run (hs ++ hs') = (l.run hs).run hs' := List.foldl_append

/-- The messages that bind whoever sent them. -/
def sent (l : Life) : List (NodeId × Envelope) := l.outs.filterMap Output.bound

theorem past_run (l : Life) (hs : List Happening) : l.past <+: (l.run hs).past := by
  induction hs generalizing l with
  | nil => exact List.prefix_rfl
  | cons h hs ih => exact (List.prefix_append _ _).trans (ih (l.step h))

end Life

theorem fair_any (c : Coordinator) (e : Envelope) : c.Fair False False e := ⟨nofun, nofun⟩

theorem start_moves (env : Env) (c : Coordinator) :
    Moves False False none ⟨c.restore.toCore.stepDown, [], []⟩
      (c.handle env .start).view :=
  onStart_moves (c.clear env.wall)

theorem meets_moves (c : Coordinator) (h : Happening) :
    (∃ inp, Moves False False inp ⟨c.toCore, [], []⟩ (Life.meets c h).view) ∨
    ∃ d : Coordinator, (d = c ∨ ∃ (g : Config) (uuid : String), d = g.process uuid c.durable) ∧
      Moves False False none ⟨d.restore.toCore.stepDown, [], []⟩
        (Life.meets c h).view := by
  cases h with
  | input env i =>
    by_cases hi : i = .start
    · subst hi
      exact Or.inr ⟨c, Or.inl rfl, start_moves env c⟩
    · exact Or.inl ⟨_, handle_moves hi (fun e _ => fair_any c e) nofun⟩
  | restart env g uuid => exact Or.inr ⟨_, Or.inr ⟨_, uuid, rfl⟩, start_moves env _⟩

/-! ## Terms and ranks -/

theorem revives_self {c : Coordinator} (kept : c.toCore.Kept) : Revives c.toCore c := by
  refine ⟨rfl, fun h => ?_, fun h => ?_⟩
  · rw [← kept.term, h]
    rfl
  · rcases kept.committed with hc | ⟨_, hc⟩
    · rw [h] at hc
      exact absurd hc nofun
    · exact hc

theorem revives_process (k : Core) (g : Config) (uuid : String) :
    Revives k (g.process uuid k.durable) := ⟨rfl, fun _ => rfl, fun _ => ⟨rfl, rfl⟩⟩

theorem blank_ordered (g : Config) (uuid : String) :
    (g.process uuid {}).toCore.Kept ∧ (g.process uuid {}).toCore.Ordered :=
  ⟨⟨rfl, Or.inr ⟨rfl, rfl, rfl⟩, Or.inr ⟨rfl, nofun⟩⟩, ⟨le_rfl, le_rfl, nofun⟩⟩

theorem meets_ordered {c : Coordinator} {h : Happening} (kept : c.toCore.Kept)
    (ordered : c.toCore.Ordered) (fits : ∀ e ∈ (Life.meets c h).history, ¬ e.Wraps) :
    (Life.meets c h).toCore.Kept ∧ (Life.meets c h).toCore.Ordered ∧
      c.toCore.Rises (Life.meets c h).toCore := by
  rcases meets_moves c h with ⟨inp, moves⟩ | ⟨d, hd, moves⟩
  · exact ⟨moves.kept kept, moves.ordered fits ordered⟩
  · have rev : Revives c.toCore d := by
      rcases hd with rfl | ⟨g, uuid, rfl⟩
      · exact revives_self kept
      · exact revives_process _ g uuid
    obtain ⟨kept', ordered', rises⟩ := restore_back rev kept ordered
    obtain ⟨hord, hrise⟩ := moves.ordered fits ordered'
    exact ⟨moves.kept kept', hord, rises.trans hrise⟩

theorem born_ordered {env : Env} {g : Config} {uuid : String}
    (fits : ∀ e ∈ (Life.born env g uuid).past, ¬ e.Wraps) :
    (Life.born env g uuid).now.toCore.Kept ∧ (Life.born env g uuid).now.toCore.Ordered := by
  obtain ⟨kept, ordered⟩ := blank_ordered g uuid
  obtain ⟨kept, ordered, _⟩ :=
    meets_ordered (c := g.process uuid {}) (h := .input env .start) kept ordered fits
  exact ⟨kept, ordered⟩

theorem run_ordered (l : Life) (hs : List Happening) (kept : l.now.toCore.Kept)
    (ordered : l.now.toCore.Ordered) (fits : ∀ e ∈ (l.run hs).past, ¬ e.Wraps) :
    (l.run hs).now.toCore.Kept ∧ (l.run hs).now.toCore.Ordered ∧
      l.now.toCore.Rises (l.run hs).now.toCore := by
  induction hs generalizing l with
  | nil => exact ⟨kept, ordered, Core.Rises.refl _⟩
  | cons h hs ih =>
    have here : ∀ e ∈ (l.step h).past, ¬ e.Wraps := fun e he =>
      fits e ((l.step h).past_run hs |>.subset he)
    obtain ⟨kept', ordered', rises⟩ := meets_ordered (h := h) kept ordered
      fun e he => here e (List.mem_append_right _ he)
    obtain ⟨hk, ho, hr⟩ := ih (l.step h) kept' ordered' fits
    exact ⟨hk, ho, rises.trans hr⟩

/-- **Nothing of a node's terms and ranks ever falls**, from any point of its life to
any later one, and they stay in order. -/
theorem life_rises (env : Env) (g : Config) (uuid : String) (hs hs' : List Happening)
    (fits : ∀ e ∈ ((Life.born env g uuid).run (hs ++ hs')).past, ¬ e.Wraps) :
    let c := ((Life.born env g uuid).run hs).now
    let d := ((Life.born env g uuid).run (hs ++ hs')).now
    c.toCore.Rises d.toCore ∧ d.committed.rank ≤ d.accepted.rank ∧
      d.accepted.term ≤ d.currentTerm := by
  rw [Life.run_append] at fits ⊢
  have fits₁ : ∀ e ∈ ((Life.born env g uuid).run hs).past, ¬ e.Wraps := fun e he =>
    fits e ((Life.past_run _ hs').subset he)
  have fits₀ : ∀ e ∈ (Life.born env g uuid).past, ¬ e.Wraps := fun e he =>
    fits₁ e ((Life.past_run _ hs).subset he)
  obtain ⟨kept, ordered⟩ := born_ordered fits₀
  obtain ⟨kept, ordered, _⟩ := run_ordered _ hs kept ordered fits₁
  obtain ⟨_, ordered, rises⟩ := run_ordered _ hs' kept ordered fits
  exact ⟨rises, ordered.committed_le, ordered.accepted_le⟩

/-- A configuration with nothing in it but names and seeds. -/
def Config.plain (id : NodeId) (initialNames : List String) (seeds : List NodeId) : Config where
  node := ⟨id, id, id, id, ["cluster_manager", "data"], ∅, id⟩
  clusterName := "cluster"
  clusterUuid := "uuid"
  initialNames := initialNames
  seeds := seeds

/-- A world in which nothing is drawn twice and nothing is stored. -/
def Env.still : Env := { random := fun n => (n.repr) }

/-- A node elected on its own, restarted, and elected again. -/
theorem life_rises_alone :
    let life := Life.born .still (.plain "a" ["a"] []) "blank"
    let first := [Happening.input .still (.timer .election)]
    let second := [.restart .still (.plain "a" ["a"] []) "blank",
      Happening.input .still (.timer .election)]
    ((life.run first).now.currentTerm = 1 ∧ (life.run (first ++ second)).now.currentTerm = 2) ∧
      (life.run first).now.toCore.Rises (life.run (first ++ second)).now.toCore := by
  intro life first second
  exact ⟨by decide +kernel, (life_rises _ _ _ _ _ (by decide +kernel)).1⟩

def lastVersion : List Happening :=
  let s : ClusterState := { ClusterState.empty "cluster" "uuid" "last" with
    term := 1, version := u64Max, clusterManager := some "b",
    lastCommittedConfig := ["a"], lastAcceptedConfig := ["a"] }
  [.input .still (.timer .election),
    .input .still (.message (.request .publish "b" 1 (Body.ofState s))),
    .input .still (.message ⟨.error, 2, .leaderCheck, "b", {}⟩)]

/-- A manager elected over the last version of its own term publishes version 0. -/
theorem life_falls_after_last_version :
    let life := Life.born .still (.plain "a" ["a"] ["b"]) "blank"
    let vote : Body :=
      { term := some 1, vote := some true, node := some (Config.plain "b" [] []).node }
    let c := (life.run lastVersion).now
    let d := (life.run (lastVersion ++ [.input .still (.message (.request .join "b" 3 vote))])).now
    ¬ (c.toCore.Rises d.toCore ∧ d.committed.rank ≤ d.accepted.rank ∧
      d.accepted.term ≤ d.currentTerm) := by
  intro life vote c d
  rintro ⟨rises, -⟩
  have fell : ¬ (c.accepted.term < d.accepted.term ∨
      c.accepted.term = d.accepted.term ∧ c.accepted.version ≤ d.accepted.version) := by
    decide +kernel
  exact fell (rank_le_iff.mp rises.accepted)

/-! ## Votes -/

/-- A join that carries a vote for a term. -/
structure IsVote (t : Nat) (e : Envelope) : Prop where
  action : e.action = .join
  kind : e.kind = .request
  vote : e.body.vote = some true
  term : e.body.term = some t

instance (t : Nat) (e : Envelope) : Decidable (IsVote t e) :=
  decidable_of_iff (e.action = .join ∧ e.kind = .request ∧ e.body.vote = some true ∧
    e.body.term = some t)
    ⟨fun ⟨a, k, v, t⟩ => ⟨a, k, v, t⟩, fun ⟨a, k, v, t⟩ => ⟨a, k, v, t⟩⟩

/-- The node keeps to what it has sent. -/
structure Core.Loyal (k : Core) (sent : List (NodeId × Envelope)) : Prop where
  now : k.durable.term.getD 0 ≤ k.currentTerm
  kept : ∀ m ∈ sent, ∀ t, IsVote t m.2 → t ≤ k.durable.term.getD 0
  once : ∀ m ∈ sent, ∀ m' ∈ sent, ∀ t, IsVote t m.2 → IsVote t m'.2 → m.1 = m'.1
  remembered : ∀ t d, k.lastJoin = some (t, d) → t ≤ k.durable.term.getD 0 ∧
    ∀ m ∈ sent, IsVote t m.2 → m.1 = d

theorem Core.Loyal.send {k : Core} {sent ms : List (NodeId × Envelope)} (h : k.Loyal sent)
    (quiet : ∀ m ∈ ms, ∀ t, ¬ IsVote t m.2) : k.Loyal (sent ++ ms) := by
  have old : ∀ m ∈ sent ++ ms, ∀ t, IsVote t m.2 → m ∈ sent := by
    intro m hm t hv
    rcases List.mem_append.mp hm with hm | hm
    · exact hm
    · exact absurd hv (quiet m hm t)
  refine ⟨h.now, fun m hm t hv => h.kept m (old m hm t hv) t hv, ?_, ?_⟩
  · intro m hm m' hm' t hv hv'
    exact h.once m (old m hm t hv) m' (old m' hm' t hv') t hv hv'
  · intro t d hj
    obtain ⟨ht, hd⟩ := h.remembered t d hj
    exact ⟨ht, fun m hm hv => hd m (old m hm t hv) hv⟩

theorem Core.Loyal.congr {k k' : Core} {sent : List (NodeId × Envelope)} (h : k.Loyal sent)
    (disk : k'.durable.term = k.durable.term) (now : k'.currentTerm = k.currentTerm)
    (last : k'.lastJoin = k.lastJoin) : k'.Loyal sent := by
  obtain ⟨hnow, hkept, honce, hrem⟩ := h
  rw [← disk, ← now] at hnow
  rw [← disk] at hkept
  rw [← disk, ← last] at hrem
  exact ⟨hnow, hkept, honce, hrem⟩

theorem Core.Loyal.raise {k : Core} {sent : List (NodeId × Envelope)} (h : k.Loyal sent)
    {t : Nat} (higher : k.currentTerm < t) {last : Option (Nat × NodeId)}
    (hlast : last = k.lastJoin ∨ ∃ d, last = some (t, d)) :
    ({ k.toTerm t with lastJoin := last } : Core).Loyal sent := by
  have hup : k.durable.term.getD 0 ≤ t := h.now.trans higher.le
  refine ⟨le_rfl, fun m hm t' hv => (h.kept m hm t' hv).trans hup, h.once, ?_⟩
  rintro t' d' (hj : last = some (t', d'))
  rcases hlast with rfl | ⟨d, rfl⟩
  · obtain ⟨ht, hd⟩ := h.remembered t' d' hj
    exact ⟨ht.trans hup, hd⟩
  · cases hj
    refine ⟨le_rfl, fun m hm hv => ?_⟩
    exact absurd ((h.kept m hm t hv).trans h.now) (Nat.not_le_of_lt higher)

theorem Core.Loyal.join {k : Core} {sent : List (NodeId × Envelope)} (h : k.Loyal sent)
    (dest : NodeId) (rid : Nat) (held : List Held) :
    k.Loyal (sent ++ [(dest, .request .join k.me.id rid (k.joinBody dest held))]) := by
  by_cases hj : k.lastJoin = some (k.currentTerm, dest)
  · obtain ⟨hterm, hdest⟩ := h.remembered _ _ hj
    have new : ∀ {m : NodeId × Envelope} {t : Nat}, m = (dest, .request .join k.me.id rid
        (k.joinBody dest held)) → IsVote t m.2 → t = k.currentTerm ∧ m.1 = dest := by
      rintro m t rfl hv
      exact ⟨(Option.some.inj hv.term).symm, rfl⟩
    have each : ∀ m ∈ sent ++ [(dest, Envelope.request .join k.me.id rid
        (k.joinBody dest held))], ∀ t, IsVote t m.2 →
          m ∈ sent ∨ t = k.currentTerm ∧ m.1 = dest := by
      intro m hm t hv
      rcases List.mem_append.mp hm with hm | hm
      · exact Or.inl hm
      · exact Or.inr (new (List.mem_singleton.mp hm) hv)
    refine ⟨h.now, ?_, ?_, ?_⟩
    · intro m hm t hv
      rcases each m hm t hv with hm | ⟨rfl, _⟩
      · exact h.kept m hm t hv
      · exact hterm
    · intro m hm m' hm' t hv hv'
      rcases each m hm t hv with hm | ⟨ht, hd⟩ <;>
        rcases each m' hm' t hv' with hm' | ⟨ht', hd'⟩
      · exact h.once m hm m' hm' t hv hv'
      · rw [hd']
        exact hdest m hm (ht' ▸ hv)
      · rw [hd]
        exact (hdest m' hm' (ht ▸ hv')).symm
      · rw [hd, hd']
    · intro t d hlast
      rw [hj] at hlast
      cases hlast
      refine ⟨hterm, fun m hm hv => ?_⟩
      rcases each m hm _ hv with hm | ⟨_, hd⟩
      · exact hdest m hm hv
      · exact hd
  · refine h.send fun m hm t hv => ?_
    rw [List.mem_singleton.mp hm] at hv
    have : (k.lastJoin == some (k.currentTerm, dest)) = true := Option.some.inj hv.vote
    exact hj (beq_iff_eq.mp this)

section

variable {M O : Prop} {inp : Option Envelope} {v v' : View}

theorem Act.loyal (act : Act M O inp v v') (before : List (NodeId × Envelope))
    (h : v.core.Loyal (before ++ v.sent)) : v'.core.Loyal (before ++ v'.sent) := by
  -- a message of another action, sent while term and vote stay
  have aside : ∀ {k : Core} {ms : List (NodeId × Envelope)},
      (∀ m ∈ ms, m.2.action ≠ .join ∨ m.2.kind ≠ .request) →
      k.durable.term = v.core.durable.term → k.currentTerm = v.core.currentTerm →
      k.lastJoin = v.core.lastJoin → k.Loyal (before ++ (v.sent ++ ms)) := by
    intro k ms other disk now last
    rw [← List.append_assoc]
    refine (h.send fun m hm t hv => ?_).congr disk now last
    exact (other m hm).elim (fun ha => ha hv.action) fun hk => hk hv.kind
  have several : ∀ {e : Envelope} (l : List NodeId), e.action ≠ .join →
      ∀ m ∈ l.map fun n => (n, e), m.2.action ≠ .join ∨ m.2.kind ≠ .request := by
    intro e l he m hm
    obtain ⟨n, _, rfl⟩ := List.mem_map.mp hm
    exact Or.inl he
  have told : ∀ {t : Nat} {msgs : List (NodeId × Envelope)},
      (∀ m ∈ msgs, IsStartJoin v.core.me.id t m.2) →
      ∀ m ∈ msgs, m.2.action ≠ .join ∨ m.2.kind ≠ .request := by
    rintro t msgs hall m hm
    obtain ⟨rid, he⟩ := hall m hm
    exact Or.inl (by rw [he]; exact nofun)
  cases act with
  | join dest rid held =>
    have := h.join dest rid held
    rwa [List.append_assoc] at this
  | term t higher => exact h.raise higher (Or.inl rfl)
  | vote e t _ _ higher => exact h.raise higher (Or.inr ⟨_, rfl⟩)
  | candidacy t msgs higher all =>
    exact (aside (told all) rfl rfl rfl).raise higher (Or.inr ⟨v.core.me.id, rfl⟩)
  | vain t msgs last all => exact aside (told all) rfl rfl rfl
  | lead => exact aside (several _ nofun) rfl rfl rfl
  | next => exact aside (several _ nofun) rfl rfl rfl
  | decide p dests rid =>
    obtain ⟨hsent, _, _, _, hterm, hcore⟩ := (v.announce p dests rid).applyCommitted_frame p.state
    unfold View.decide
    rw [hsent, hcore]
    exact aside (several _ nofun) hterm rfl rfl
  | accept e s l got =>
    exact aside (by simp [Envelope.response, got.action_eq]) rfl rfl rfl
  | commit =>
    obtain ⟨hsent, _, _, _, hterm, hcore⟩ := v.applyCommitted_frame v.core.accepted
    rw [hsent, hcore]
    exact h.congr hterm rfl rfl
  | joined e s =>
    obtain ⟨hsent, _, _, _, hterm, hcore⟩ := v.applyCommitted_frame s
    change Core.Loyal _ (before ++ (v.applyCommitted s).sent)
    rw [hsent, hcore]
    exact h.congr hterm rfl rfl
  | late => exact aside (by simp [Envelope.request]) rfl rfl rfl
  | welcome => exact aside (by simp [Envelope.response]) rfl rfl rfl
  | summon => exact aside (by simp [Envelope.request]) rfl rfl rfl
  | _ => exact h.congr rfl rfl rfl

theorem Moves.loyal (moves : Moves M O inp v v') (before : List (NodeId × Envelope))
    (h : v.core.Loyal (before ++ v.sent)) : v'.core.Loyal (before ++ v'.sent) := by
  induction moves with
  | refl => exact h
  | tail _ act ih => exact act.loyal before ih

end

theorem Core.Loyal.restore {c d : Coordinator} {sent : List (NodeId × Envelope)}
    (h : c.toCore.Loyal sent)
    (hd : d = c ∨ ∃ (g : Config) (uuid : String), d = g.process uuid c.durable) :
    d.restore.toCore.stepDown.Loyal sent := by
  have disk : d.durable = c.durable := by rcases hd with rfl | ⟨_, _, rfl⟩ <;> rfl
  have low : d.durable.term.getD 0 ≤ d.restore.currentTerm := by
    refine le_trans ?_ (le_max_left (d.durable.term.getD d.currentTerm) _)
    cases d.durable.term with
    | none => exact Nat.zero_le _
    | some t => exact le_rfl
  have hdisk : d.restore.toCore.stepDown.durable = c.durable := disk
  refine ⟨low, ?_, h.once, ?_⟩
  · rw [hdisk]
    exact h.kept
  · intro t dest hj
    rw [hdisk]
    rcases hd with rfl | ⟨g, uuid, rfl⟩
    · exact h.remembered t dest hj
    · exact absurd hj nofun

theorem meets_loyal {c : Coordinator} {h : Happening} {sent : List (NodeId × Envelope)}
    (loyal : c.toCore.Loyal sent) :
    (Life.meets c h).toCore.Loyal (sent ++ (Life.meets c h).out.filterMap Output.bound) := by
  rcases meets_moves c h with ⟨inp, moves⟩ | ⟨d, hd, moves⟩
  · exact moves.loyal sent (by rw [List.append_nil]; exact loyal)
  · exact moves.loyal sent (by rw [List.append_nil]; exact loyal.restore hd)

theorem run_loyal (l : Life) (hs : List Happening) (loyal : l.now.toCore.Loyal l.sent) :
    (l.run hs).now.toCore.Loyal (l.run hs).sent := by
  induction hs generalizing l with
  | nil => exact loyal
  | cons h hs ih =>
    apply ih (l.step h)
    have : (l.step h).sent = l.sent ++ (Life.meets l.now h).out.filterMap Output.bound :=
      List.filterMap_append
    rw [this]
    exact meets_loyal loyal

/-- **One vote per term**: of all the joins a node ever sends, those that carry a vote
for a term go to one node. -/
theorem life_votes_once (env : Env) (g : Config) (uuid : String) (hs : List Happening)
    (t : Nat) (dest dest' : NodeId) (e e' : Envelope)
    (sent : .send dest e ∈ ((Life.born env g uuid).run hs).outs) (vote : IsVote t e)
    (sent' : .send dest' e' ∈ ((Life.born env g uuid).run hs).outs) (vote' : IsVote t e') :
    dest = dest' := by
  have blank : (g.process uuid {}).toCore.Loyal [] := by
    refine ⟨le_rfl, fun m hm => absurd hm List.not_mem_nil,
      fun m hm => absurd hm List.not_mem_nil, fun t d hj => ?_⟩
    have : (g.process uuid {}).lastJoin = none := rfl
    rw [this] at hj
    exact absurd hj nofun
  have first := meets_loyal (h := .input env .start) blank
  rw [List.nil_append] at first
  have loyal := run_loyal (Life.born env g uuid) hs first
  have bound : ∀ {dest : NodeId} {e : Envelope}, IsVote t e →
      Output.send dest e ∈ ((Life.born env g uuid).run hs).outs →
      (dest, e) ∈ ((Life.born env g uuid).run hs).sent := by
    intro dest e hv hm
    refine List.mem_filterMap.mpr ⟨_, hm, ?_⟩
    simp [Output.bound, Envelope.binding, hv.action, hv.kind]
  exact loyal.once _ (bound vote sent) _ (bound vote' sent') t vote vote'

/-- A node that votes, is told by another that the node it voted for is the manager,
and asks it again to be let in: two votes, to one node. -/
theorem life_votes_once_asking_twice :
    let life := (Life.born .still (.plain "b" [] ["a"]) "blank").run
      [.input .still (.message (.request .startJoin "a" 7 { term := some 1 })),
        .input .still (.message ⟨.response, 9, .peers, "c", { leader := some "a" }⟩)]
    let vote : Body :=
      { term := some 1, lastAcceptedTerm := some 0, lastAcceptedVersion := some 0,
        nodeId := some "b", node := some (Config.plain "b" [] []).node, vote := some true,
        held := some [] }
    ∃ dest dest', .send dest (.request .join "b" 3 vote) ∈ life.outs ∧
      .send dest' (.request .join "b" 4 vote) ∈ life.outs ∧ dest = dest' := by
  intro life vote
  have first : .send "a" (.request .join "b" 3 vote) ∈ life.outs := by decide +kernel
  have second : .send "a" (.request .join "b" 4 vote) ∈ life.outs := by decide +kernel
  exact ⟨"a", "a", first, second, life_votes_once _ _ _ _ 1 _ _ _ _
    first (by decide +kernel) second (by decide +kernel)⟩

end Velosearch.Cluster

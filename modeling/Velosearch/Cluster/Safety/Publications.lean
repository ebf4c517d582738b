import Velosearch.Cluster.Safety.Runs

/-!
# Everything published

The results of `Runs` are about what was committed and about who leads. These are about every
state a manager ever published, decided or not: the past of a cluster is one line of states, and
those of a majority hold on to what was decided.
-/

set_option autoImplicit false

namespace Velosearch.Cluster.Sim

variable {O : Prop} {first : List NodeId}

/-- States published under one term and version are one state, whoever published them. -/
def OneHistory (w : Sim) : Prop :=
  ∀ n m b b' s s', (n, .published b s) ∈ w.past → (m, .published b' s') ∈ w.past →
    s.term < u64Max → s.term = s'.term → s.version = s'.version → s = s'

/-- **One state for a term and a version**, among all that were published. -/
theorem one_history (w : Sim) (begins : w.Begins first) (ms : List Move)
    (fair : w.FairRun True True ms) (fits : ∀ x ∈ (w.run ms).past, ¬ x.2.Wraps) :
    (w.run ms).OneHistory := by
  have sound := fair_run_sound begins fair fits
  intro n m b b' s s' h h' low term version
  exact sound.all.lawful.published_unique ⟨n, b, h⟩ ⟨m, b', h'⟩ low term version

theorem twoTerms_one_history :
    (three.run twoTerms).OneHistory ∧
      ((three.run twoTerms).past.countP fun x => x.2 matches .published _ _) = 2 :=
  ⟨one_history _ three_begins _ (by decide +kernel) (by decide +kernel), by decide +kernel⟩

/-- A decided state lies under every state that is published and not ranked below it. -/
def Underlies (w : Sim) : Prop :=
  ∀ n m d b p, (n, .decided d) ∈ w.past → (m, .published b p) ∈ w.past → p.term < u64Max →
    d.rank ≤ p.rank → Relation.ReflTransGen w.PublishedOver d p

/-- **What is published is built on what was decided.** -/
theorem decided_underlies (w : Sim) (begins : w.Begins first) (ms : List Move)
    (fair : w.FairRun True True ms) (fits : ∀ x ∈ (w.run ms).past, ¬ x.2.Wraps) :
    (w.run ms).Underlies := by
  have sound := fair_run_sound begins fair fits
  intro n m d b p hd hp low le
  have lawful := sound.all.lawful
  have below : ((w.run ms).scene.record first).Below (some d) (some p) := by
    refine lawful.committed_below (t := p.term + 1) ?_ low ⟨n, hd⟩ ?_ (Nat.lt_succ_self p.term) le
    · exact fun t ht => lawful.above_and_sole t (ht.trans_le low)
    · intro s same
      cases same
      exact ⟨m, b, hp⟩
  obtain ⟨s, same, chain⟩ := publishedOver_of_below below
  cases same
  exact chain

theorem twoTerms_underlies :
    (three.run twoTerms).Underlies ∧
      ((three.run twoTerms).past.any fun x => x.2 matches .decided _) = true :=
  ⟨decided_underlies _ three_begins _ (by decide +kernel) (by decide +kernel), by decide +kernel⟩

/-- Majorities of the configuration that was committed and of the one it brought in accepted a
decided state, and whoever of them is up has accepted nothing of a lower rank in its place. -/
def Remembered (w : Sim) : Prop :=
  ∀ n s, (n, .decided s) ∈ w.past → ∃ V : BTreeSet NodeId,
    hasQuorum s.lastCommittedConfig V = true ∧ hasQuorum s.lastAcceptedConfig V = true ∧
    ∀ id, V.contains id = true → (id, .accepted s) ∈ w.past ∧
      ∀ c, w.up id = some c → s.rank ≤ c.accepted.rank

/-- **A majority holds on to what was decided**, through crashes and restarts. -/
theorem decided_remembered (w : Sim) (begins : w.Begins first) (ms : List Move)
    (matched : w.FairRun True False ms) (fits : ∀ x ∈ (w.run ms).past, ¬ x.2.Wraps) :
    (w.run ms).Remembered := by
  have sound := fair_run_sound begins matched fits
  intro n s hd
  obtain ⟨-, V, quorum, took⟩ := sound.all.past n _ hd
  rw [electionQuorum, Bool.and_eq_true] at quorum
  refine ⟨V, quorum.1, quorum.2, fun id member => ⟨took id member, fun c up => ?_⟩⟩
  obtain ⟨node, there, logic⟩ := Option.bind_eq_some_iff.mp up
  obtain ⟨k, sane⟩ := sound.node id node there
  have core : c.toCore = k := sane.up c logic
  show s.rank ≤ c.toCore.accepted.rank
  rw [core]
  exact sane.inScene.accepts (took id member)

theorem twoTerms_remembered :
    (three.run twoTerms).Remembered ∧
      ((three.run twoTerms).up "a").map (fun c => c.accepted.rank) = some (toLex (2, 2)) :=
  ⟨decided_remembered _ three_begins _ (by decide +kernel) (by decide +kernel), by decide +kernel⟩

end Velosearch.Cluster.Sim

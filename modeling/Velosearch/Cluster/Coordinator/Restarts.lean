import Velosearch.Cluster.Coordinator.Lives

/-!
# What a node comes back to, and how a manager stands

Two more results about the lives of `Lives`, of the disk and of the memory of a node: the state a
new process restores is the one the old process was in, and a manager's accepted state is its own.
-/

set_option autoImplicit false

namespace Velosearch.Cluster

open Coordinator

theorem life_ordered {env : Env} {g : Config} {uuid : String} {hs : List Happening}
    (fits : ∀ e ∈ ((Life.born env g uuid).run hs).past, ¬ e.Wraps) :
    ((Life.born env g uuid).run hs).now.toCore.Kept ∧
      ((Life.born env g uuid).run hs).now.toCore.Ordered := by
  have first : ∀ e ∈ (Life.born env g uuid).past, ¬ e.Wraps := fun e he =>
    fits e ((Life.past_run _ hs).subset he)
  obtain ⟨kept, ordered⟩ := born_ordered first
  obtain ⟨kept, ordered, -⟩ := run_ordered _ hs kept ordered fits
  exact ⟨kept, ordered⟩

/-- Nothing was committed yet. -/
def ClusterState.Unborn (s : ClusterState) : Prop := s.term = 0 ∧ s.version = 0

/-- **A restart loses nothing**: wherever in its life a node is stopped, and whatever settings the
next process is given, `restore` brings back the term, the committed state unless there is none
yet, and the accepted state, or the committed one where that is of the same rank. -/
theorem restart_loses_nothing (env : Env) (g : Config) (uuid : String) (hs : List Happening)
    (fits : ∀ e ∈ ((Life.born env g uuid).run hs).past, ¬ e.Wraps) (g' : Config)
    (uuid' : String) :
    let c := ((Life.born env g uuid).run hs).now
    let d := (g'.process uuid' c.durable).restore
    d.currentTerm = c.currentTerm ∧
      (d.committed = c.committed ∨ c.committed.Unborn ∧ d.committed.Unborn) ∧
      (d.accepted = c.accepted ∨
        d.accepted = d.committed ∧ d.accepted.rank = c.accepted.rank) := by
  intro c d
  obtain ⟨kept, ordered⟩ := life_ordered fits
  have rev : Revives c.toCore (g'.process uuid' c.durable) := revives_process _ g' uuid'
  obtain ⟨kept', -, -⟩ := restore_back rev kept ordered
  refine ⟨?_, ?_, ?_⟩
  · exact kept'.term.symm.trans kept.term
  · rcases kept.committed with disk | ⟨disk, term, version⟩
    · refine Or.inl ?_
      show c.durable.committed.getD _ = c.committed
      rw [show c.durable.committed = some c.committed from disk]
      rfl
    · refine Or.inr ⟨⟨term, version⟩, ?_⟩
      have fresh : d.committed = (g'.process uuid' c.durable).committed := by
        show c.durable.committed.getD _ = _
        rw [show c.durable.committed = none from disk]
        rfl
      rw [fresh]
      exact rev.committed disk
  · rcases restore_accepted rev kept ordered.committed_le with ⟨same, -⟩ | ⟨same, rank, -⟩
    · exact Or.inl same
    · refine Or.inr ⟨same, ?_⟩
      have committed := restore_committed_rank rev kept
      exact (congrArg ClusterState.rank same).trans (committed.trans rank)

/-- A node elected on its own and started again under another name and with other settings. -/
theorem restart_loses_nothing_renamed :
    let c := ((Life.born .still (.plain "a" ["a"] []) "blank").run
      [.input .still (.timer .election)]).now
    let d := ((Config.plain "b" [] ["a"]).process "other" c.durable).restore
    d.currentTerm = c.currentTerm ∧ c.currentTerm = 1 ∧
      (d.committed = c.committed ∨ c.committed.Unborn ∧ d.committed.Unborn) := by
  intro c d
  obtain ⟨term, committed, -⟩ := restart_loses_nothing .still (.plain "a" ["a"] []) "blank"
    [.input .still (.timer .election)] (by decide +kernel) (.plain "b" [] ["a"]) "other"
  exact ⟨term, by decide +kernel, committed⟩

/-- **A manager stands on its own publication** at every point of its life: the state it accepted
is of its own term and names who votes; it is the one being published, over what is committed or
the committed one taken up anew; and with nothing in flight it is the committed one. -/
theorem leader_stands (env : Env) (g : Config) (uuid : String) (hs : List Happening)
    (fits : ∀ e ∈ ((Life.born env g uuid).run hs).past, ¬ e.Wraps) :
    let c := ((Life.born env g uuid).run hs).now
    c.mode = .leader → c.accepted.term = c.currentTerm ∧ c.accepted.lastAcceptedConfig ≠ [] ∧
      (∀ p, c.publishing = some p → p.state = c.accepted ∧
        (c.committed.rank < c.accepted.rank ∨ c.committed = settled c.accepted)) ∧
      (c.publishing = none → c.committed = settled c.accepted) := by
  intro c leads
  have reigns := (life_ordered fits).2.reigns leads
  exact ⟨reigns.term, reigns.voters, reigns.inFlight, reigns.idle⟩

theorem leader_stands_alone :
    let c := ((Life.born .still (.plain "a" ["a"] []) "blank").run
      [.input .still (.timer .election)]).now
    c.mode = .leader ∧ c.accepted.term = c.currentTerm ∧ c.accepted.lastAcceptedConfig ≠ [] := by
  intro c
  have leads : c.mode = .leader := by decide +kernel
  obtain ⟨term, voters, -⟩ := leader_stands .still (.plain "a" ["a"] []) "blank"
    [.input .still (.timer .election)] (by decide +kernel) leads
  exact ⟨leads, term, voters⟩

end Velosearch.Cluster

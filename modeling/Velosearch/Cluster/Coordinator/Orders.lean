import Mathlib.Data.Prod.Lex
import Velosearch.Cluster.Coordinator.Moves

/-!
# Terms and ranks through an act

A state's rank is its term and version. `Core.Ordered` is how the ranks of a node
stand to each other and to its term, and `Core.Kept` that its disk would bring it
back where it is. Every act keeps both and lowers nothing, **as long as no
publication runs out of versions**: `ClusterState.next` adds one to a `u64` the
release build does not check, and a manager that publishes over a state of its own
term with the last version there is would publish version 0.
-/

set_option autoImplicit false

namespace Velosearch.Cluster

open Coordinator

/-! ## Ranks -/

/-- A state's place in the order of publications. -/
def ClusterState.rank (s : ClusterState) : ℕ ×ₗ ℕ := toLex (s.term, s.version)

theorem rank_le_iff {a b : ClusterState} :
    a.rank ≤ b.rank ↔ a.term < b.term ∨ a.term = b.term ∧ a.version ≤ b.version := by
  unfold ClusterState.rank
  rw [Prod.Lex.toLex_le_toLex]

theorem rank_lt_iff {a b : ClusterState} :
    a.rank < b.rank ↔ a.term < b.term ∨ a.term = b.term ∧ a.version < b.version := by
  unfold ClusterState.rank
  rw [Prod.Lex.toLex_lt_toLex]

theorem fresher_iff {a b : ClusterState} :
    fresher a.term a.version b.term b.version = true ↔ b.rank < a.rank := by
  rw [rank_lt_iff]
  unfold fresher
  simp only [Bool.or_eq_true, Bool.and_eq_true, decide_eq_true_eq]
  omega

theorem not_fresher_iff {a b : ClusterState} :
    fresher a.term a.version b.term b.version = false ↔ a.rank ≤ b.rank := by
  rw [← not_lt, ← fresher_iff, Bool.not_eq_true]

theorem term_le_of_rank_le {a b : ClusterState} (h : a.rank ≤ b.rank) : a.term ≤ b.term := by
  rw [rank_le_iff] at h
  omega

/-- A publication that ran out of versions: made over a state of its own term. -/
def Event.Wraps : Event → Prop
  | .published base s => base.term = s.term ∧ u64Max ≤ base.version
  | _ => False

instance : DecidablePred Event.Wraps
  | .published base s => inferInstanceAs (Decidable (base.term = s.term ∧ u64Max ≤ base.version))
  | .voted .. | .led .. | .accepted _ | .committed _ | .decided _ => .isFalse id

theorem MadeFrom.outranks {k : Core} {base s : ClusterState} (made : MadeFrom k base s)
    (low : base.term ≤ k.currentTerm) (fits : ¬ (Event.published base s).Wraps) :
    base.rank < s.rank := by
  rw [rank_lt_iff]
  rcases Nat.lt_or_eq_of_le low with hlt | heq
  · exact Or.inl (made.term ▸ hlt)
  · refine Or.inr ⟨made.term ▸ heq, ?_⟩
    have hv : ¬ u64Max ≤ base.version := fun h => fits ⟨made.term ▸ heq, h⟩
    have hs := made.version
    unfold u64Max at hv
    omega

/-! ## Committing -/

theorem applyCommitted_cases (v : View) (s : ClusterState) :
    (s.rank ≤ v.core.committed.rank ∧ v.applyCommitted s = v) ∨
    (v.core.committed.rank < s.rank ∧ s.rank ≤ v.core.accepted.rank ∧
      v.applyCommitted s =
        (v.withCore (v.core.commit (settled s))).mark [.committed (settled s)]) ∨
    (v.core.committed.rank < s.rank ∧ v.core.accepted.rank < s.rank ∧
      v.applyCommitted s = (v.withCore ((v.core.accept (settled s)).commit (settled s))).mark
        [.accepted (settled s), .committed (settled s)]) := by
  unfold View.applyCommitted
  cases hc : fresher s.term s.version v.core.committed.term v.core.committed.version with
  | false => exact Or.inl ⟨not_fresher_iff.mp hc, rfl⟩
  | true =>
    have hc := fresher_iff.mp hc
    have hs : ∀ b : ClusterState, fresher (settled s).term (settled s).version b.term b.version =
        fresher s.term s.version b.term b.version := fun b => rfl
    simp only [hs, Bool.not_true, Bool.false_eq_true, if_false]
    cases ha : fresher s.term s.version v.core.accepted.term v.core.accepted.version with
    | false => exact Or.inr (Or.inl ⟨hc, not_fresher_iff.mp ha, rfl⟩)
    | true =>
      refine Or.inr (Or.inr ⟨hc, fresher_iff.mp ha, ?_⟩)
      simp [View.withCore, View.mark]

/-! ## What a core keeps -/

namespace Core

/-- Nothing the node holds goes back. -/
structure Rises (k k' : Core) : Prop where
  term : k.currentTerm ≤ k'.currentTerm
  accepted : k.accepted.rank ≤ k'.accepted.rank
  committed : k.committed.rank ≤ k'.committed.rank

theorem Rises.refl (k : Core) : k.Rises k := ⟨le_rfl, le_rfl, le_rfl⟩

theorem Rises.trans {a b c : Core} (h : a.Rises b) (h' : b.Rises c) : a.Rises c :=
  ⟨h.term.trans h'.term, h.accepted.trans h'.accepted, h.committed.trans h'.committed⟩

/-- A leader's accepted state is of its own term. -/
structure Reigns (k : Core) : Prop where
  term : k.accepted.term = k.currentTerm
  voters : k.accepted.lastAcceptedConfig ≠ []
  inFlight : ∀ p, k.publishing = some p → p.state = k.accepted ∧
    (k.committed.rank < k.accepted.rank ∨ k.committed = settled k.accepted)
  idle : k.publishing = none → k.committed = settled k.accepted

/-- What is committed was accepted, and no later than the term. -/
structure Ordered (k : Core) : Prop where
  committed_le : k.committed.rank ≤ k.accepted.rank
  accepted_le : k.accepted.term ≤ k.currentTerm
  reigns : k.mode = .leader → k.Reigns

/-- The disk would bring the node back where it is. -/
structure Kept (k : Core) : Prop where
  term : k.durable.term.getD 0 = k.currentTerm
  committed : k.durable.committed = some k.committed ∨
    k.durable.committed = none ∧ k.committed.term = 0 ∧ k.committed.version = 0
  accepted : k.durable.accepted = some k.accepted ∨
    k.accepted = k.committed ∧ ∀ s, k.durable.accepted = some s → s.rank ≤ k.committed.rank

end Core

namespace View

theorem applyCommitted_ordered {v : View} {s : ClusterState}
    (hle : v.core.committed.rank ≤ v.core.accepted.rank)
    (low : v.core.accepted.term ≤ v.core.currentTerm) (hs : s.term ≤ v.core.currentTerm) :
    (v.applyCommitted s).core.committed.rank ≤ (v.applyCommitted s).core.accepted.rank ∧
    (v.applyCommitted s).core.accepted.term ≤ (v.applyCommitted s).core.currentTerm ∧
    v.core.Rises (v.applyCommitted s).core := by
  rcases applyCommitted_cases v s with ⟨_, h⟩ | ⟨hc, ha, h⟩ | ⟨hc, ha, h⟩ <;> rw [h]
  · exact ⟨hle, low, Core.Rises.refl _⟩
  · exact ⟨ha, low, le_rfl, le_rfl, hc.le⟩
  · exact ⟨le_rfl, hs, le_rfl, ha.le, hc.le⟩

theorem applyCommitted_kept {v : View} (h : v.core.Kept) (s : ClusterState) :
    (v.applyCommitted s).core.Kept := by
  rcases applyCommitted_cases v s with ⟨_, hv⟩ | ⟨hc, ha, hv⟩ | ⟨hc, ha, hv⟩ <;> rw [hv]
  · exact h
  · refine ⟨h.term, Or.inl rfl, Or.inl ?_⟩
    rcases h.accepted with hacc | ⟨heq, _⟩
    · exact hacc
    · -- what is committed but not newly accepted is below an accepted state of its own
      rw [heq] at ha
      exact absurd ha (not_le.mpr hc)
  · exact ⟨h.term, Or.inl rfl, Or.inl rfl⟩

theorem applyCommitted_frame (v : View) (s : ClusterState) :
    (v.applyCommitted s).sent = v.sent ∧ ∃ accepted committed durable,
      durable.term = v.core.durable.term ∧ (v.applyCommitted s).core =
        { v.core with accepted := accepted, committed := committed, durable := durable } := by
  rcases applyCommitted_cases v s with ⟨_, h⟩ | ⟨_, _, h⟩ | ⟨_, _, h⟩ <;> rw [h]
  · exact ⟨rfl, v.core.accepted, v.core.committed, v.core.durable, rfl, rfl⟩
  · exact ⟨rfl, v.core.accepted, settled s, (v.core.commit (settled s)).durable, rfl, rfl⟩
  · exact ⟨rfl, settled s, settled s,
      ((v.core.accept (settled s)).commit (settled s)).durable, rfl, rfl⟩

theorem applyCommitted_mode (v : View) (s : ClusterState) :
    (v.applyCommitted s).core.mode = v.core.mode := by
  obtain ⟨_, _, _, _, _, h⟩ := v.applyCommitted_frame s
  rw [h]

theorem applyCommitted_reigns {v : View} (term : v.core.accepted.term = v.core.currentTerm)
    (voters : v.core.accepted.lastAcceptedConfig ≠ [])
    (stands : v.core.committed.rank < v.core.accepted.rank ∨
      v.core.committed = settled v.core.accepted)
    (inFlight : ∀ p, v.core.publishing = some p → p.state = v.core.accepted) :
    (v.applyCommitted v.core.accepted).core.Reigns := by
  rcases applyCommitted_cases v v.core.accepted with ⟨hle, hv⟩ | ⟨_, _, hv⟩ | ⟨_, ha, _⟩
  · rw [hv]
    have settles := stands.resolve_left (not_lt.mpr hle)
    exact ⟨term, voters, fun p hp => ⟨inFlight p hp, Or.inr settles⟩, fun _ => settles⟩
  · rw [hv]
    exact ⟨term, voters, fun p hp => ⟨inFlight p hp, Or.inr rfl⟩, fun _ => rfl⟩
  · exact absurd ha (lt_irrefl _)

end View

/-! ## Acts -/

variable {M O : Prop} {inp : Option Envelope} {v v' : View}

theorem View.applyCommitted_marks (v : View) (s : ClusterState) :
    v.marks <+: (v.applyCommitted s).marks := by
  rcases applyCommitted_cases v s with ⟨_, h⟩ | ⟨_, _, h⟩ | ⟨_, _, h⟩
  · exact ⟨[], by rw [h, List.append_nil]⟩
  · exact ⟨_, congrArg View.marks h.symm⟩
  · exact ⟨_, congrArg View.marks h.symm⟩

theorem Act.marks_prefix (act : Act M O inp v v') : v.marks <+: v'.marks := by
  cases act with
  | lead =>
    exact (List.prefix_append _ _).trans (List.prefix_append _ _)
  | decide p dests rid =>
    exact (List.prefix_append v.marks [.decided p.state]).trans
      (View.applyCommitted_marks (v.announce p dests rid) p.state)
  | commit => exact View.applyCommitted_marks _ _
  | joined => exact View.applyCommitted_marks _ _
  | _ => first | exact List.prefix_rfl | exact List.prefix_append _ _

theorem Moves.marks_prefix (moves : Moves M O inp v v') : v.marks <+: v'.marks := by
  induction moves with
  | refl => exact List.prefix_rfl
  | tail _ act ih => exact ih.trans act.marks_prefix

theorem Act.kept (act : Act M O inp v v') (h : v.core.Kept) : v'.core.Kept := by
  cases act with
  | term t higher => exact ⟨rfl, h.committed, h.accepted⟩
  | vote e t => exact ⟨rfl, h.committed, h.accepted⟩
  | candidacy t => exact ⟨rfl, h.committed, h.accepted⟩
  | lead => exact ⟨h.term, h.committed, Or.inl rfl⟩
  | next => exact ⟨h.term, h.committed, Or.inl rfl⟩
  | accept => exact ⟨h.term, h.committed, Or.inl rfl⟩
  | boot => exact ⟨h.term, Or.inl rfl, Or.inl rfl⟩
  | decide p dests rid =>
    refine View.applyCommitted_kept (v := v.announce p dests rid) ?_ p.state
    exact ⟨h.term, h.committed, h.accepted⟩
  | commit => exact View.applyCommitted_kept h _
  | joined e s =>
    obtain ⟨ht, hc, ha⟩ := View.applyCommitted_kept h s
    exact ⟨ht, hc, ha⟩
  | _ => exact ⟨h.term, h.committed, h.accepted⟩

/-- **An act lowers nothing**, and keeps the order of what it leaves. -/
theorem Act.ordered (act : Act M O inp v v') (fits : ∀ e ∈ v'.marks, ¬ e.Wraps)
    (h : v.core.Ordered) : v'.core.Ordered ∧ v.core.Rises v'.core := by
  obtain ⟨hle, low, reigns⟩ := h
  cases act with
  | term t higher =>
    exact ⟨⟨hle, low.trans higher.le, by rintro ⟨⟩⟩, higher.le, le_rfl, le_rfl⟩
  | vote e t _ _ higher =>
    exact ⟨⟨hle, low.trans higher.le, by rintro ⟨⟩⟩, higher.le, le_rfl, le_rfl⟩
  | candidacy t _ higher =>
    exact ⟨⟨hle, low.trans higher.le, by rintro ⟨⟩⟩, higher.le, le_rfl, le_rfl⟩
  | stepDown => exact ⟨⟨hle, low, by rintro ⟨⟩⟩, le_rfl, le_rfl, le_rfl⟩
  | follow => exact ⟨⟨hle, low, by rintro ⟨⟩⟩, le_rfl, le_rfl, le_rfl⟩
  | count node vote =>
    refine ⟨⟨hle, low, fun hm => ?_⟩, le_rfl, le_rfl, le_rfl⟩
    cases vote.candidate.symm.trans hm
  | lead node s rid seq vote won own made config =>
    have outranks := made.outranks low (fits _ (by simp [View.publish, View.mark]))
    have voters : s.lastAcceptedConfig ≠ [] := by
      rw [config]
      exact hasQuorum_ne_nil ((Bool.and_eq_true _ _).mp won).2
    refine ⟨⟨hle.trans outranks.le, made.term.le, fun _ => ⟨made.term, voters, ?_, by rintro ⟨⟩⟩⟩,
      le_rfl, outranks.le, le_rfl⟩
    rintro p hp
    cases hp
    exact ⟨rfl, Or.inl (lt_of_le_of_lt hle outranks)⟩
  | next s rid seq leads idle made config =>
    have r := reigns leads
    have settles := r.idle idle
    have hrank : v.core.committed.rank = v.core.accepted.rank := by rw [settles]; rfl
    have outranks := made.outranks ((term_le_of_rank_le hle).trans low)
      (fits _ (by simp [View.publish, View.mark]))
    have voters := config (by rw [settles]; exact r.voters)
    refine ⟨⟨outranks.le, made.term.le, fun _ => ⟨made.term, voters, ?_, by rintro ⟨⟩⟩⟩,
      le_rfl, hrank ▸ outranks.le, le_rfl⟩
    rintro p hp
    cases hp
    exact ⟨rfl, Or.inl outranks⟩
  | ack e p _ leads inFlight =>
    have r := reigns leads
    refine ⟨⟨hle, low, fun _ => ⟨r.term, r.voters, ?_, by rintro ⟨⟩⟩⟩, le_rfl, le_rfl, le_rfl⟩
    rintro q hq
    cases hq
    exact r.inFlight p inFlight
  | decide p dests rid leads inFlight =>
    have r := reigns leads
    obtain ⟨hp, hstands⟩ := r.inFlight p inFlight
    have hp : p.state = (v.announce p dests rid).core.accepted := hp
    unfold View.decide
    rw [hp]
    obtain ⟨hle', low', rises⟩ := View.applyCommitted_ordered (v := v.announce p dests rid)
      hle low low
    refine ⟨⟨hle', low', fun _ => ?_⟩, rises.term, rises.accepted, rises.committed⟩
    exact View.applyCommitted_reigns (v := v.announce p dests rid) r.term r.voters hstands
      (by rintro _ ⟨⟩)
  | accept e s l got carries term newer =>
    have higher : v.core.accepted.rank ≤ s.rank := by
      rw [rank_le_iff]
      omega
    exact ⟨⟨hle.trans higher, term.le, by rintro ⟨⟩⟩, le_rfl, higher, le_rfl⟩
  | commit e got now term version =>
    obtain ⟨hle', low', rises⟩ := View.applyCommitted_ordered hle low low
    refine ⟨⟨hle', low', fun hm => ?_⟩, rises⟩
    have r := reigns ((View.applyCommitted_mode v v.core.accepted).symm.trans hm)
    refine View.applyCommitted_reigns r.term r.voters ?_ fun p hp => (r.inFlight p hp).1
    cases hp : v.core.publishing with
    | none => exact Or.inr (r.idle hp)
    | some p => exact (r.inFlight p hp).2
  | joined e s got carries term =>
    obtain ⟨hle', low', rises⟩ := View.applyCommitted_ordered hle low term.le
    exact ⟨⟨hle', low', by rintro ⟨⟩⟩, rises.term, rises.accepted, rises.committed⟩
  | boot config may blank =>
    refine ⟨⟨hle, low, fun hm => ?_⟩, le_rfl, le_rfl, le_rfl⟩
    exact absurd blank (reigns hm).voters
  | _ => exact ⟨⟨hle, low, reigns⟩, le_rfl, le_rfl, le_rfl⟩

theorem Moves.kept (moves : Moves M O inp v v') (h : v.core.Kept) : v'.core.Kept := by
  induction moves with
  | refl => exact h
  | tail _ act ih => exact act.kept ih

theorem Moves.ordered (moves : Moves M O inp v v') (fits : ∀ e ∈ v'.marks, ¬ e.Wraps)
    (h : v.core.Ordered) : v'.core.Ordered ∧ v.core.Rises v'.core := by
  induction moves with
  | refl => exact ⟨h, Core.Rises.refl _⟩
  | tail _ act ih =>
    obtain ⟨hb, rises⟩ := ih fun e he => fits e (act.marks_prefix.subset he)
    obtain ⟨hc, rises'⟩ := act.ordered fits hb
    exact ⟨hc, rises.trans rises'⟩

/-! ## Coming back -/

/-- The process that starts is the one the disk describes. -/
structure Revives (k : Core) (c : Coordinator) : Prop where
  disk : c.durable = k.durable
  term : k.durable.term = none → c.currentTerm = 0
  committed : k.durable.committed = none → c.committed.term = 0 ∧ c.committed.version = 0

theorem restore_committed_rank {k : Core} {c : Coordinator} (rev : Revives k c)
    (kept : k.Kept) : c.restore.committed.rank = k.committed.rank := by
  have : c.restore.committed = k.durable.committed.getD c.committed := by rw [← rev.disk]; rfl
  rw [this]
  rcases kept.committed with h | ⟨h, ht, hv⟩
  · rw [h]; rfl
  · obtain ⟨ct, cv⟩ := rev.committed h
    simp [h, ClusterState.rank, ht, hv, ct, cv]

theorem restore_accepted {k : Core} {c : Coordinator} (rev : Revives k c) (kept : k.Kept)
    (hle : k.committed.rank ≤ k.accepted.rank) :
    (c.restore.accepted = k.accepted ∧ k.durable.accepted = some k.accepted) ∨
    (c.restore.accepted = c.restore.committed ∧ k.committed.rank = k.accepted.rank ∧
      ∀ s, k.durable.accepted = some s → s.rank ≤ k.committed.rank) := by
  have hrank := restore_committed_rank rev kept
  have hsome : ∀ s, k.durable.accepted = some s → c.restore.accepted =
      if fresher s.term s.version c.restore.committed.term c.restore.committed.version then s
      else c.restore.committed := by
    intro s hs
    rw [← rev.disk] at hs
    simp only [Coordinator.restore, hs]
  have hnone : k.durable.accepted = none → c.restore.accepted = c.restore.committed := by
    intro hs
    rw [← rev.disk] at hs
    simp only [Coordinator.restore, hs]
  rcases kept.accepted with h | ⟨heq, hold⟩
  · have hdef := hsome _ h
    by_cases hf : k.committed.rank < k.accepted.rank
    · refine Or.inl ⟨?_, h⟩
      rw [hdef, if_pos (fresher_iff.mpr (by rw [hrank]; exact hf))]
    · have hge := not_lt.mp hf
      refine Or.inr ⟨?_, le_antisymm hle hge, ?_⟩
      · rw [hdef, if_neg]
        rw [fresher_iff, hrank]
        exact hf
      · intro s hs
        rw [h] at hs
        cases hs
        exact hge
  · refine Or.inr ⟨?_, by rw [heq], hold⟩
    cases hs : k.durable.accepted with
    | none => exact hnone hs
    | some s =>
      rw [hsome s hs, if_neg]
      rw [fresher_iff, hrank]
      exact not_lt.mpr (hold s hs)

theorem restore_back {k : Core} {c : Coordinator} (rev : Revives k c) (kept : k.Kept)
    (ordered : k.Ordered) :
    c.restore.toCore.stepDown.Kept ∧ c.restore.toCore.stepDown.Ordered ∧
      k.Rises c.restore.toCore.stepDown := by
  have hc := restore_committed_rank rev kept
  have hacc := restore_accepted rev kept ordered.committed_le
  have ha : c.restore.accepted.rank = k.accepted.rank := by
    rcases hacc with ⟨h, _⟩ | ⟨h, heq, _⟩
    · rw [h]
    · rw [h, hc, heq]
  have hterm : c.restore.accepted.term ≤ k.currentTerm :=
    (term_le_of_rank_le ha.le).trans ordered.accepted_le
  have hnow : c.restore.currentTerm = k.currentTerm := by
    have hdef : c.restore.currentTerm =
        max (k.durable.term.getD c.currentTerm) c.restore.accepted.term := by
      rw [← rev.disk]
      rfl
    have hdisk : k.durable.term.getD c.currentTerm = k.currentTerm := by
      rw [← kept.term]
      cases h : k.durable.term with
      | none => exact rev.term h
      | some t => rfl
    rw [hdef, hdisk]
    exact max_eq_left hterm
  have hdur : c.restore.toCore.stepDown.durable = k.durable := rev.disk
  refine ⟨⟨?_, ?_, ?_⟩, ⟨?_, ?_, nofun⟩, hnow.ge, ha.ge, hc.ge⟩
  · rw [hdur, kept.term]
    exact hnow.symm
  · have hdef : c.restore.committed = k.durable.committed.getD c.committed := by
      rw [← rev.disk]
      rfl
    change c.restore.toCore.stepDown.durable.committed = some c.restore.committed ∨
      _ ∧ c.restore.committed.term = 0 ∧ c.restore.committed.version = 0
    rw [hdur, hdef]
    cases h : k.durable.committed with
    | none => exact Or.inr ⟨rfl, rev.committed h⟩
    | some s => exact Or.inl rfl
  · change _ = some c.restore.accepted ∨
      c.restore.accepted = c.restore.committed ∧
        ∀ s : ClusterState, _ → s.rank ≤ c.restore.committed.rank
    rw [hdur, hc]
    rcases hacc with ⟨h, hd⟩ | ⟨h, _, hold⟩
    · exact Or.inl (by rw [h, hd])
    · exact Or.inr ⟨h, hold⟩
  · change c.restore.committed.rank ≤ c.restore.accepted.rank
    rw [hc, ha]
    exact ordered.committed_le
  · change c.restore.accepted.term ≤ c.restore.currentTerm
    rw [hnow]
    exact hterm

end Velosearch.Cluster

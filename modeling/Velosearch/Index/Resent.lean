import Velosearch.Index.Following

/-!
# What was recorded

The operations a primary records are its history: what they say of a document is what the document
is, and their versions rise. A copy that has taken them knows them again: sent once more, in any
order and any number of times, they change nothing.
-/

set_option autoImplicit false

namespace Velosearch.Index

open Velosearch.Cluster (BTreeMap)

namespace IdxState

variable {S : Settings} {terms : BTreeMap Nat Nat} {st st' : IdxState}

/-! ## A primary's history -/

/-- Requests one after another, and all they recorded. -/
def serveAll (S : Settings) (terms : BTreeMap Nat Nat) (st : IdxState) :
    List Request → IdxState × List ReplicaOp
  | [] => (st, [])
  | r :: rs => ((serveAll S terms (st.serve S terms r).1 rs).1,
      (st.serve S terms r).2 ++ (serveAll S terms (st.serve S terms r).1 rs).2)

def AllClimb (S : Settings) (terms : BTreeMap Nat Nat) (st : IdxState) : List Request → Prop
  | [] => True
  | r :: rs => st.Climbs S r ∧ AllClimb S terms (st.serve S terms r).1 rs

/-- What a list of operations makes of a document that was `before`. -/
def lastWritten (ops : List ReplicaOp) (id : String) (before : Option Document) :
    Option Document :=
  ops.foldl (fun doc op => if op.id = id then op.document else doc) before

/-- The operations lead from one state to the other. -/
structure History (S : Settings) (st st' : IdxState) (ops : List ReplicaOp) : Prop where
  sound : st'.Sound S
  documents : ∀ id, st'.document S id = lastWritten ops id (st.document S id)
  above : ∀ op ∈ ops, ∀ h, st.heldVersion S op.id = some h → h < op.version
  rising : ops.Pairwise fun op op' => op.id = op'.id → op.version < op'.version
  /-- no version that was given is forgotten -/
  held : ∀ id h, st.heldVersion S id = some h →
    ∃ h', st'.heldVersion S id = some h' ∧ h ≤ h'

/-- No write lowers the version that is held. -/
theorem Made.held {op : ReplicaOp} (sound : st.Sound S) (made : Made S st st' op)
    (above : ∀ h, st.heldVersion S op.id = some h → h < op.version) {id : String} {h : Nat}
    (was : st.heldVersion S id = some h) : ∃ h', st'.heldVersion S id = some h' ∧ h ≤ h' := by
  by_cases own : op.id = id
  · subst own
    exact ⟨_, made.heldVersion, (above h was).le⟩
  · exact ⟨h, ((made.leaves id own).heldVersion sound).trans was, le_rfl⟩

/-- A run of requests is a history of writes. -/
theorem serveAll_history (sound : st.Sound S) {rs : List Request}
    (climb : st.AllClimb S terms rs) :
    History S st (st.serveAll S terms rs).1 (st.serveAll S terms rs).2 := by
  induction rs generalizing st with
  | nil => exact ⟨sound, fun _ => rfl, nofun, .nil, fun _ h was => ⟨h, was, le_rfl⟩⟩
  | cons r rs ih =>
    rw [serveAll]
    have outcome : Outcome S st (st.serve S terms r) := serve_outcome sound climb.1
    obtain ⟨climbs, climb⟩ := climb
    generalize st.serve S terms r = served at outcome climb
    obtain ⟨next, ops⟩ := served
    rcases outcome with ⟨silent, still⟩ | ⟨op, recorded, made, above⟩
    · obtain rfl : ops = [] := silent
      have rest := ih still.sound climb
      refine ⟨rest.sound, fun id => ?_, fun op mem h was => ?_, rest.rising, fun id h was => ?_⟩
      · exact (rest.documents id).trans (congrArg _ (still.document id))
      · obtain ⟨h', is, le⟩ := still.heldVersion op.id h was
        exact le.trans_lt (rest.above op mem h' is)
      · obtain ⟨h', is, le⟩ := still.heldVersion id h was
        obtain ⟨h'', is, le'⟩ := rest.held id h' is
        exact ⟨h'', is, le.trans le'⟩
    · obtain rfl : ops = [op] := recorded
      have rest := ih made.sound climb
      refine ⟨rest.sound, fun id => ?_, ?_, ?_, fun id h was => ?_⟩
      · refine (rest.documents id).trans ?_
        by_cases own : op.id = id
        · subst own
          have told : (if op.id = op.id then op.document else st.document S op.id) =
            next.document S op.id := (if_pos rfl).trans made.document.symm
          exact congrArg (lastWritten _ op.id) told.symm
        · have told : (if op.id = id then op.document else st.document S id) =
            next.document S id := (if_neg own).trans ((made.leaves id own).document sound).symm
          exact congrArg (lastWritten _ id) told.symm
      · intro op' mem h was
        rcases List.mem_cons.mp mem with rfl | mem
        · exact above h was
        · obtain ⟨h', is, le⟩ := Made.held sound made above was
          exact le.trans_lt (rest.above op' mem h' is)
      · refine List.pairwise_cons.mpr ⟨fun op' mem same => ?_, rest.rising⟩
        exact rest.above op' mem op.version (same ▸ made.heldVersion)
      · obtain ⟨h', is, le⟩ := Made.held sound made above was
        obtain ⟨h'', is, le'⟩ := rest.held id h' is
        exact ⟨h'', is, le.trans le'⟩

/-- **A document is what was last recorded of it**, and what is recorded of one document rises in
version, through any requests whose versions climb. -/
theorem recorded_in_order (sound : st.Sound S) (rs : List Request)
    (climb : st.AllClimb S terms rs) :
    (∀ id, (st.serveAll S terms rs).1.document S id =
      lastWritten (st.serveAll S terms rs).2 id (st.document S id)) ∧
      (st.serveAll S terms rs).2.Pairwise fun op op' => op.id = op'.id → op.version < op'.version :=
  have history := serveAll_history sound climb
  ⟨history.documents, history.rising⟩

/-- A document written, written again under a version of the caller's, and deleted. -/
theorem recorded_in_order_written :
    let rs := Pair.written.map Prod.fst
    let served := serveAll Pair.oneShard ∅ { name := "books" } rs
    served.2.map ReplicaOp.version = [1, 5, 6] ∧
      (∀ id, served.1.document Pair.oneShard id = lastWritten served.2 id none) ∧
        served.2.Pairwise fun op op' => op.id = op'.id → op.version < op'.version := by
  intro rs served
  have climb : AllClimb Pair.oneShard ∅ { name := "books" } rs :=
    ⟨⟨by decide +kernel, nofun⟩, ⟨by decide +kernel, nofun⟩, ⟨⟨rfl, by decide +kernel⟩, nofun⟩,
      trivial⟩
  obtain ⟨documents, rising⟩ := recorded_in_order (Pair.sound_empty _ _) rs climb
  exact ⟨by decide +kernel, documents, rising⟩

/-! ## Which term a copy has seen -/

theorem applyOps_appliedTerm (only : Option Nat) :
    (st.applyOps only).appliedTerm = st.appliedTerm := by
  unfold applyOps
  split <;> rfl

theorem flushed_appliedTerm : st.flushed.appliedTerm = st.appliedTerm := by
  show (st.applyOps none).commit.appliedTerm = _
  unfold commit
  split <;> exact applyOps_appliedTerm none

theorem queueOpFor_appliedTerm (id : String) (shard : Nat) (op : PendingOp) :
    (st.queueOpFor id shard op).appliedTerm = st.appliedTerm := by
  unfold queueOpFor queueOp
  dsimp only
  split
  · exact applyOps_appliedTerm none
  · rfl

theorem logWrite_appliedTerm (r : LogRecord) : (st.logWrite r).appliedTerm = st.appliedTerm := by
  unfold logWrite
  dsimp only
  split
  · rfl
  · split
    · split
      · show (IdxState.commit _).appliedTerm = _
        unfold commit
        split <;> exact applyOps_appliedTerm none
      · exact applyOps_appliedTerm none
    · rfl

theorem notePending_appliedTerm (id : String) (source : Option String) :
    (st.notePending id source).appliedTerm = st.appliedTerm := by
  unfold notePending
  dsimp only
  split
  · split
    · exact flushed_appliedTerm
    · exact applyOps_appliedTerm none
  · rfl

theorem take_appliedTerm (op : ReplicaOp) : (st.take S op).appliedTerm = st.appliedTerm := by
  have routed : (st.takeRouting op).appliedTerm = st.appliedTerm := by
    unfold takeRouting
    split <;> rfl
  unfold take
  dsimp only
  show (IdxState.notePending _ _ _).appliedTerm = _
  rw [notePending_appliedTerm, logWrite_appliedTerm]
  cases op.source <;> cases st.isLive S op.id <;>
    simp only [queueOpFor_appliedTerm, Bool.false_eq_true, if_false, if_true] <;> exact routed

/-- An operation raises the term that is remembered, and nothing else does. -/
theorem applyReplicated_appliedTerm (op : ReplicaOp) :
    (st.applyReplicated S op).1.appliedTerm = max st.appliedTerm op.term := by
  rw [applyReplicated, applyReplicatedInner]
  simp only [Bool.false_eq_true, if_false]
  split
  case isTrue newer => exact (take_appliedTerm op).trans (max_eq_right newer.le).symm
  case isFalse older =>
    have same : max st.appliedTerm op.term = st.appliedTerm := max_eq_left (not_lt.mp older)
    rw [same]
    split
    · rfl
    · exact take_appliedTerm op

/-- A copy that knows an operation: it has seen the term, and holds no lower version. -/
def Knows (S : Settings) (st : IdxState) (op : ReplicaOp) : Prop :=
  op.term ≤ st.appliedTerm ∧ ∃ h, st.heldVersion S op.id = some h ∧ op.version ≤ h

/-- What is known already is not taken again. -/
theorem Knows.unchanged {op : ReplicaOp} (knows : st.Knows S op) :
    st.applyReplicated S op = (st, false) := by
  obtain ⟨term, h, held, le⟩ := knows
  rw [applyReplicated, applyReplicatedInner]
  simp only [Bool.false_eq_true, if_false]
  rw [if_neg (not_lt.mpr term), if_pos]
  simp [held, le]

end IdxState

namespace Pair

variable {S : Settings} {terms : BTreeMap Nat Nat} {x : Pair}

/-- All the primary recorded along a run. -/
def recorded (S : Settings) (terms : BTreeMap Nat Nat) (x : Pair) :
    List (Request × Bool) → List ReplicaOp
  | [] => []
  | r :: rs => (x.primary.serve S terms r.1).2 ++ recorded S terms (x.step S terms r.1 r.2) rs

/-- What a copy knows it goes on knowing. -/
theorem Level.knows_step (h : Level S x) {r : Request} (climbs : x.primary.Climbs S r)
    (refresh : Bool) :
    (∀ op, x.copy.Knows S op → (x.step S terms r refresh).copy.Knows S op) ∧
      ∀ op ∈ (x.primary.serve S terms r).2, (x.step S terms r refresh).copy.Knows S op := by
  -- a refresh changes neither the term nor a version that is held
  have refreshed : ∀ {copy : IdxState} {op : ReplicaOp}, copy.Sound S → copy.Knows S op →
      (if refresh then copy.refresh else copy).Knows S op := by
    intro copy op sound knows
    cases refresh with
    | false => exact knows
    | true =>
      obtain ⟨term, v, held, le⟩ := knows
      have leaves : IdxState.Leaves S op.id copy copy.refresh := IdxState.refresh_leaves
      exact ⟨term.trans_eq IdxState.flushed_appliedTerm.symm, v,
        (leaves.heldVersion sound).trans held, le⟩
  have outcome : IdxState.Outcome S x.primary (x.primary.serve S terms r) :=
    IdxState.serve_outcome h.primary climbs
  have told : (x.step S terms r refresh).copy = if refresh
      then IdxState.refresh ((x.primary.serve S terms r).2.foldl
        (fun st op => (st.applyReplicated S op).1) x.copy)
      else (x.primary.serve S terms r).2.foldl (fun st op => (st.applyReplicated S op).1) x.copy :=
    rfl
  rw [told]
  rcases outcome with ⟨silent, -⟩ | ⟨op, recorded, -, above⟩
  · rw [silent]
    exact ⟨fun op knows => refreshed h.copy knows, nofun⟩
  · rw [recorded]
    have higher : ∀ v, x.copy.heldVersion S op.id = some v → v < op.version := by
      intro v hv
      obtain ⟨w, hw, le⟩ := h.behind op.id v hv
      exact le.trans_lt (above w hw)
    have taken := applyReplicated_above h.copy higher
    have term : (x.copy.applyReplicated S op).1.appliedTerm = max x.copy.appliedTerm op.term :=
      IdxState.applyReplicated_appliedTerm op
    constructor
    · rintro op' ⟨seen, v, held, le⟩
      obtain ⟨w, hw, le'⟩ := IdxState.Made.held h.copy taken higher held
      exact refreshed taken.sound ⟨term ▸ seen.trans (le_max_left _ _), w, hw, le.trans le'⟩
    · intro op' mem
      obtain rfl := List.mem_singleton.mp mem
      exact refreshed taken.sound
        ⟨term ▸ le_max_right _ _, op'.version, taken.heldVersion, le_rfl⟩

/-- Through any run. -/
theorem Level.knows (h : Level S x) {rs : List (Request × Bool)} (climbs : x.Climbs S terms rs) :
    (∀ op, x.copy.Knows S op → (x.run S terms rs).copy.Knows S op) ∧
      ∀ op ∈ x.recorded S terms rs, (x.run S terms rs).copy.Knows S op := by
  induction rs generalizing x with
  | nil => exact ⟨fun _ knows => knows, nofun⟩
  | cons r rs ih =>
    obtain ⟨kept, told⟩ : (∀ op, x.copy.Knows S op → (x.step S terms r.1 r.2).copy.Knows S op) ∧
      ∀ op ∈ (x.primary.serve S terms r.1).2, (x.step S terms r.1 r.2).copy.Knows S op :=
        h.knows_step climbs.1 r.2
    obtain ⟨kept', told'⟩ := ih (h.step climbs.1 r.2) climbs.2
    refine ⟨fun op knows => kept' op (kept op knows), fun op mem => ?_⟩
    rcases List.mem_append.mp mem with mem | mem
    · exact kept' op (told op mem)
    · exact told' op mem

/-- **What a copy has taken it may be sent again**: after any requests whose versions climb, the
operations recorded on the way, in any order and any number, leave the copy as it is. -/
theorem resent_changes_nothing (S : Settings) (terms : BTreeMap Nat Nat) (x : Pair)
    (level : Level S x) (rs : List (Request × Bool)) (climbs : x.Climbs S terms rs)
    (ops : List ReplicaOp) (known : ∀ op ∈ ops, op ∈ x.recorded S terms rs) :
    ops.foldl (fun st op => (st.applyReplicated S op).1) (x.run S terms rs).copy =
      (x.run S terms rs).copy := by
  have knows := (level.knows climbs).2
  induction ops with
  | nil => rfl
  | cons op ops ih =>
    rw [List.foldl_cons, (knows op (known op List.mem_cons_self)).unchanged]
    exact ih fun op' mem => known op' (List.mem_cons_of_mem _ mem)

/-- The first write sent again after the delete, and the delete after it. -/
theorem resent_changes_nothing_written :
    let ops := fresh.recorded oneShard ∅ written
    let again := [ops[0]?, ops[2]?, ops[0]?].reduceOption
    let copy := (fresh.run oneShard ∅ written).copy
    again.map ReplicaOp.version = [1, 6, 1] ∧
      again.foldl (fun st op => (st.applyReplicated oneShard op).1) copy = copy := by
  intro ops again copy
  refine ⟨by decide +kernel, ?_⟩
  refine resent_changes_nothing oneShard ∅ fresh (level_fresh oneShard) written ?_ again ?_
  · exact ⟨⟨by decide +kernel, nofun⟩, ⟨by decide +kernel, nofun⟩,
      ⟨⟨rfl, by decide +kernel⟩, nofun⟩, trivial⟩
  · decide +kernel

end Pair

end Velosearch.Index

import Velosearch.Api.ByQuery
import Mathlib.Algebra.BigOperators.Group.Finset.Piecewise

/-!
# What a walk over a query's documents keeps

A walk is told of a change made since it read by the sequence number the index reads for the
document. The numbers an index gives out grow, so that any number given out since is another one
than the walk read; but a document that was deleted and refreshed out has none, a delete under a
version of the caller's leaves the one before it to be read, and an index made again under the name
counts from where it likes.
-/

set_option autoImplicit false

namespace Velosearch.ByQuery

open Velosearch.Cluster (BTreeMap)
open Velosearch.Index Velosearch.Api

variable {V M : Type}

/-! ## The numbers an index gives out -/

theorem succ64_of_lt {n : Nat} (roomy : n + 1 < 2 ^ 64) : succ64 n = n + 1 := by
  rw [succ64]
  exact Nat.mod_eq_of_lt roomy

theorem writeGranted_answer (S : Settings) (terms : BTreeMap Nat Nat) (st : IdxState)
    (id raw : String) (forced : Option Nat) :
    (st.writeGranted S terms id raw forced).2.2.seqNo = st.seqNo := by
  cases forced <;> rfl

theorem writeDocUncounted_ok {S : Settings} {K : Knobs V} {D : Mapper V M}
    {terms : BTreeMap Nat Nat} {x y : Held M} {id : String} {v : V} {opType : OpType}
    {raw : Option String} {forced : Option Nat} {answer : Answer}
    (wrote : x.writeDocUncounted S K D terms id v opType raw forced = (y, .ok answer)) :
    ∃ stored, y.st = (x.st.writeGranted S terms id stored forced).1 ∧
      answer = (x.st.writeGranted S terms id stored forced).2.2 := by
  rw [Held.writeDocUncounted] at wrote
  cases refused : writeRefusal S x.st id opType forced with
  | some r =>
    rw [refused] at wrote
    cases wrote
  | none =>
    cases complaint : D.documentComplaint x.mapping id v with
    | some r =>
      rw [refused, complaint] at wrote
      cases wrote
    | none =>
      cases scanned : D.scanMalformed x.mapping id v with
      | error r =>
        rw [refused, complaint, scanned] at wrote
        cases wrote
      | ok ignored =>
        rw [refused, complaint, scanned] at wrote
        dsimp only at wrote
        split at wrote
        · cases wrote
        · split at wrote
          · cases wrote
          · split at wrote
            · cases wrote
            · cases wrote
              exact ⟨_, rfl, rfl⟩

theorem writeDocUncounted_error {S : Settings} {K : Knobs V} {D : Mapper V M}
    {terms : BTreeMap Nat Nat} {x y : Held M} {id : String} {v : V} {opType : OpType}
    {raw : Option String} {forced : Option Nat} {refusal : Refusal}
    (wrote : x.writeDocUncounted S K D terms id v opType raw forced = (y, .error refusal)) :
    (x.verdict S K D id v opType forced = .early ∧ y = x) ∨
      (x.verdict S K D id v opType forced = .late ∧ y = x.taught D v) := by
  have stages := x.writeDocUncounted_cases (S := S) (K := K) (D := D) terms id v opType raw forced
  cases found : x.verdict S K D id v opType forced with
  | early =>
    rw [found] at stages
    obtain ⟨r, eq⟩ := stages
    rw [eq] at wrote
    cases wrote
    exact .inl ⟨rfl, rfl⟩
  | late =>
    rw [found] at stages
    obtain ⟨r, eq⟩ := stages
    rw [eq] at wrote
    cases wrote
    exact .inr ⟨rfl, rfl⟩
  | granted =>
    rw [found] at stages
    obtain ⟨stored, mapping, answer, eq⟩ := stages
    rw [eq] at wrote
    cases wrote

theorem deleteDoc_answer (S : Settings) (terms : BTreeMap Nat Nat) (st : IdxState) (id : String)
    (answer : Answer) (done : (st.deleteDoc S terms id).2.2 = .ok answer) :
    answer.seqNo = st.seqNo := by
  rw [IdxState.deleteDoc] at done
  split at done
  · cases done
  · dsimp only at done
    split at done <;> cases done <;> rfl

theorem refresh_seqNo (st : IdxState) : st.refresh.seqNo = st.seqNo := by
  rw [IdxState.refresh, IdxState.flushed, IdxState.commit_applyOps]

theorem refreshShard_seqNo (S : Settings) (st : IdxState) (shard : Nat) :
    (st.refreshShard S shard).seqNo = st.seqNo := by
  unfold IdxState.refreshShard
  dsimp only
  rw [IdxState.commit_applyOps]

theorem Change.run_seqNo (E : Env V M) (h : Nat) {x : Held M} (c : Change V M)
    (roomy : x.st.seqNo + 1 < 2 ^ 64) :
    x.st.seqNo ≤ (c.run E h x).1.st.seqNo ∧
      ∀ id n, (c.run E h x).2 = some (id, n) → x.st.seqNo ≤ n := by
  have grows : x.st.seqNo ≤ succ64 x.st.seqNo := by
    rw [succ64_of_lt roomy]
    exact Nat.le_succ _
  cases c with
  | write id v opType raw forced =>
    rw [run]
    split
    next y answer wrote =>
      obtain ⟨stored, st, rfl⟩ := writeDocUncounted_ok wrote
      refine ⟨?_, fun id n changed => ?_⟩
      · show x.st.seqNo ≤ y.st.seqNo
        rw [st, IdxState.writeGranted_seqNo]
        exact grows
      · cases changed
        rw [writeGranted_answer]
    next y refusal wrote =>
      refine ⟨?_, by rintro _ _ ⟨⟩⟩
      obtain ⟨-, rfl⟩ | ⟨-, rfl⟩ := writeDocUncounted_error wrote <;> exact Nat.le_refl _
  | delete id =>
    rw [run, Held.deleteDoc]
    cases refused : x.st.changeRefusal with
    | some why =>
      rw [IdxState.deleteDoc, refused]
      exact ⟨Nat.le_refl _, by rintro _ _ ⟨⟩⟩
    | none =>
      have counted := IdxState.deleteDoc_seqNo (E.shape h).settings (E.shape h).terms x.st id refused
      cases done : (x.st.deleteDoc (E.shape h).settings (E.shape h).terms id).2.2 with
      | error why => exact ⟨grows.trans_eq counted.symm, by rintro _ _ ⟨⟩⟩
      | ok answer =>
        refine ⟨grows.trans_eq counted.symm, fun id' n changed => ?_⟩
        dsimp only at changed
        split at changed
        · cases changed
          exact Nat.le_of_eq (deleteDoc_answer _ _ _ _ answer done).symm
        · cases changed
  | deleteExternal id version =>
    have counted := IdxState.deleteExternal_seqNo (E.shape h).settings (E.shape h).terms x.st id version
    have numbered : ∀ answer,
        (x.st.deleteExternal (E.shape h).settings (E.shape h).terms id version {}).2.2 = .ok answer →
          answer.seqNo = x.st.seqNo := by
      intro answer done
      cases done
      rfl
    rw [run]
    generalize x.st.deleteExternal (E.shape h).settings (E.shape h).terms id version {} = gone at *
    obtain ⟨st, ops, done⟩ := gone
    cases done with
    | error why => exact ⟨grows.trans_eq counted.symm, by rintro _ _ ⟨⟩⟩
    | ok answer =>
      refine ⟨grows.trans_eq counted.symm, fun id' n changed => ?_⟩
      dsimp only at changed
      split at changed
      · cases changed
        exact Nat.le_of_eq (numbered answer rfl).symm
      · cases changed
  | setRouting id routing => exact ⟨Nat.le_refl _, by rintro _ _ ⟨⟩⟩
  | refresh => exact ⟨Nat.le_of_eq (refresh_seqNo x.st).symm, by rintro _ _ ⟨⟩⟩
  | refreshShard shard =>
    exact ⟨Nat.le_of_eq (refreshShard_seqNo _ x.st shard).symm, by rintro _ _ ⟨⟩⟩
  | hold closed readOnly readOnlyAllowDelete writes => exact ⟨Nat.le_refl _, by rintro _ _ ⟨⟩⟩
  | learn mapping => exact ⟨Nat.le_refl _, by rintro _ _ ⟨⟩⟩

/-! ## Changes since the read -/

/-- There are numbers left for the act. -/
def Act.Roomy (w : World M) : Act V M → Prop
  | .on h _ => (w.node.heap h).st.seqNo + 1 < 2 ^ 64
  | _ => True

/-- For all of them. -/
def World.Roomy (E : Env V M) (w : World M) : List (Act V M) → Prop
  | [] => True
  | a :: rest => a.Roomy w ∧ Roomy E (w.act E a) rest

/-- The document was changed since it was seen. -/
def ChangedSince (n₀ : Node M) (w : World M) (seen : Seen V) : Prop :=
  w.node.names[seen.index]? ≠ n₀.names[seen.index]? ∨
    ∃ h n, n₀.names[seen.index]? = some h ∧ (h, seen.id, n) ∈ w.changes

/-- The document stood in an index, at a number the index had given out, when the walk read it. -/
def Placed (n₀ : Node M) (seen : Seen V) : Prop :=
  ∃ h n, n₀.names[seen.index]? = some h ∧ h < n₀.next ∧ seen.seqNo = some n ∧
    n < (n₀.heap h).st.seqNo

/-- Nothing has happened that the walk does not know of. -/
structure Fresh (n₀ : Node M) (w : World M) : Prop where
  bound : n₀.next ≤ w.node.next
  counts : ∀ h, h < n₀.next → (n₀.heap h).st.seqNo ≤ (w.node.heap h).st.seqNo
  changes : ∀ h id n, (h, id, n) ∈ w.changes → h < n₀.next → (n₀.heap h).st.seqNo ≤ n

namespace Fresh

variable {n₀ : Node M} {w : World M}

theorem start (n₀ : Node M) : Fresh n₀ { node := n₀, changes := [] } :=
  ⟨Nat.le_refl _, fun _ _ => Nat.le_refl _, nofun⟩

theorem put (fresh : Fresh n₀ w) {h : Nat} {y : Held M}
    (grows : (w.node.heap h).st.seqNo ≤ y.st.seqNo) :
    Fresh n₀ { w with node := w.node.put h y } := by
  refine ⟨fresh.bound, fun k hk => ?_, fresh.changes⟩
  show (n₀.heap k).st.seqNo ≤ (Function.update w.node.heap h y k).st.seqNo
  by_cases same : k = h
  · subst same
    rw [Function.update_self]
    exact (fresh.counts k hk).trans grows
  · rw [Function.update_of_ne same]
    exact fresh.counts k hk

theorem act (E : Env V M) (fresh : Fresh n₀ w) {a : Act V M} (roomy : a.Roomy w) :
    Fresh n₀ (w.act E a) := by
  cases a with
  | on h c =>
    obtain ⟨grows, numbered⟩ := c.run_seqNo E h roomy
    have moved := fresh.put grows
    refine ⟨moved.bound, moved.counts, fun k id n there hk => ?_⟩
    rw [World.act] at there
    dsimp only at there
    cases changed : (c.run E h (w.node.heap h)).2 with
    | none =>
      rw [changed] at there
      exact fresh.changes k id n there hk
    | some c' =>
      rw [changed] at there
      cases there with
      | head => exact (fresh.counts _ hk).trans (numbered _ _ changed)
      | tail _ there => exact fresh.changes k id n there hk
  | drop name => exact ⟨fresh.bound, fresh.counts, fresh.changes⟩
  | make name x =>
    refine ⟨fresh.bound.trans (Nat.le_succ _), fun k hk => ?_, fresh.changes⟩
    show (n₀.heap k).st.seqNo ≤ (Function.update w.node.heap w.node.next x k).st.seqNo
    rw [Function.update_of_ne (Nat.ne_of_lt (Nat.lt_of_lt_of_le hk fresh.bound))]
    exact fresh.counts k hk

theorem await (E : Env V M) (fresh : Fresh n₀ w) {acts : List (Act V M)}
    (roomy : w.Roomy E acts) : Fresh n₀ (w.await E acts) := by
  induction acts generalizing w with
  | nil => exact fresh
  | cons a rest ih => exact ih (fresh.act E roomy.1) roomy.2

end Fresh

theorem lastChange_of_mem {w : World M} {h : Nat} {id : String} {n : Nat}
    (there : (h, id, n) ∈ w.changes) :
    ∃ last, w.lastChange h id = some last ∧ (h, id, last) ∈ w.changes := by
  have found : ((w.changes.find? fun c => c.1 == h && c.2.1 == id)).isSome = true := by
    rw [List.find?_isSome]
    exact ⟨_, there, by simp⟩
  obtain ⟨⟨k, i, last⟩, eq⟩ := Option.isSome_iff_exists.mp found
  have this := List.find?_some eq
  simp only [Bool.and_eq_true, beq_iff_eq] at this
  obtain ⟨rfl, rfl⟩ := this
  refine ⟨last, ?_, List.mem_of_find?_eq_some eq⟩
  rw [World.lastChange, eq]
  rfl

/-! ## The property -/

namespace Tally

/-- Every way a document is accounted for. -/
def counted (t : Tally) : Nat :=
  t.created + t.updated + t.deleted + t.noops + t.versionConflicts + t.failures.length

/-- How many were written. -/
def written (t : Tally) : Nat :=
  t.created + t.updated + t.deleted

/-- How many were not. -/
def unwritten (t : Tally) : Nat :=
  t.versionConflicts + t.failures.length

end Tally

/-- What a document's turn finds. -/
def lockedAt (E : Env V M) (g : Going M) (d : Doc V M) : World M :=
  (g.world.await E d.turn.before).await E d.turn.meanwhile

/-- The index it goes to. -/
def takenAt (E : Env V M) (g : Going M) (d : Doc V M) : Option Nat :=
  (g.world.await E d.turn.before).node.names[d.seen.index]?

/-- A document is dealt with as it should be. -/
structure Right (E : Env V M) (W : Walk V) (n₀ : Node M) (g : Going M) (d : Doc V M) : Prop where
  kept : W.kind ≠ .reindex → ChangedSince n₀ (lockedAt E g d) d.seen →
    (one E W g d).world.node = (lockedAt E g d).node
  counted : (one E W g d).after = .go →
    g.after = .go ∧ (one E W g d).tally.counted = g.tally.counted + 1
  truthful : (one E W g d).world.node = (lockedAt E g d).node →
    (one E W g d).tally.written = g.tally.written
  idle : W.kind = .delete → g.tally.noops < (one E W g d).tally.noops →
    ∀ h, takenAt E g d = some h →
      ((lockedAt E g d).node.heap h).st.isLive (E.shape h).settings d.seen.id = false
  clean : g.tally.unwritten < (one E W g d).tally.unwritten →
    (one E W g d).world.node = (lockedAt E g d).node

/-! ## The condition -/

/-- An index tells of a change to a document: what it reads of it is the number of its last change. -/
structure Told (n₀ : Node M) (w : World M) (h : Nat) (seen : Seen V) : Prop where
  same : n₀.names[seen.index]? = some h → w.node.names[seen.index]? = some h ∧
    ∀ n, w.lastChange h seen.id = some n → (w.node.heap h).st.readSeq seen.id = some n
  other : n₀.names[seen.index]? ≠ some h →
    ∃ n, (w.node.heap h).st.readSeq seen.id = some n ∧ seen.seqNo ≠ some n

/-- What a deletion comes to. -/
structure Deletes (n₀ : Node M) (w : World M) (h : Nat) (seen : Seen V) : Prop where
  told : Told n₀ w h seen
  open_ : writtenSince (w.node.heap h) seen = none → (w.node.heap h).st.changeRefusal = none

/-- A write that teaches the mapping nothing. -/
def Unlearnt (E : Env V M) (h : Nat) (x : Held M) (id : String) (v : V) (op : OpType) : Prop :=
  x.verdict (E.shape h).settings (E.shape h).knobs E.mapper id v op none = .late →
    x.taught E.mapper v = x

/-- The condition on a document that is deleted or updated, in the index `h`. -/
def Meets.held (E : Env V M) (n₀ : Node M) (w : World M) (h : Nat) (seen : Seen V) :
    Asked V → Prop
  | .delete => Deletes n₀ w h seen
  | .write source => Told n₀ w h seen ∧
      (writtenSince (w.node.heap h) seen = none →
        Unlearnt E h (w.node.heap h) seen.id source .index)
  | _ => True

/-- The condition on a document that is copied: what is deleted is there, and what is refused has
its routing and its id already, in an index that was not made for it. -/
def Meets.sent (E : Env V M) (W : Walk V) (w : World M) (taken : Option Nat) (d : Doc V M) :
    Sent V → Prop
  | .delete _ target => ∃ h, taken = some h ∧ (w.node.heap h).st.changeRefusal = none ∧
      (w.node.heap h).st.isLive (E.shape h).settings target = true
  | .write dest id source scripted op => ∃ node h,
      ensured w.node taken dest d.turn.makes = some (node, h) ∧
        let (x, id) := given (node.heap h) id
        let x := routed W x id scripted
        let op := if W.createOnly then OpType.create else op
        x.verdict (E.shape h).settings (E.shape h).knobs E.mapper id source op none ≠ .granted →
          node = w.node ∧ x = node.heap h ∧ Unlearnt E h x id source op
  | _ => True

/-- The condition on a document. -/
structure Meets (E : Env V M) (W : Walk V) (n₀ : Node M) (g : Going M) (d : Doc V M) : Prop where
  before : g.world.Roomy E d.turn.before
  meanwhile : (g.world.await E d.turn.before).Roomy E d.turn.meanwhile
  there : W.kind ≠ .reindex → ∃ h, takenAt E g d = some h ∧
    ((lockedAt E g d).node.heap h).st.seqNo + 1 < 2 ^ 64
  deletes : W.kind = .delete → ∀ h, takenAt E g d = some h → Deletes n₀ (lockedAt E g d) h d.seen
  updates : W.kind = .update → ∀ h, takenAt E g d = some h → ∀ asked,
    updateAsked ((g.world.await E d.turn.before).node.heap h) d = .ok asked →
      Meets.held E n₀ (lockedAt E g d) h d.seen asked
  reindexes : W.kind = .reindex → ∀ dest, W.dest = some dest → ∀ judged sent,
    reindexSent W (dest :: g.judged) dest d = .ok (judged, sent) →
      Meets.sent E W (lockedAt E g d)
        ((g.world.await E d.turn.before).node.names[sent.dest]?) d sent

/-! ## One document -/

theorem put_ne {n : Node M} {h : Nat} {y : Held M} (moved : y.st.seqNo ≠ (n.heap h).st.seqNo) :
    n.put h y ≠ n := by
  intro same
  have at_ := congrArg (fun n => (Node.heap n h).st.seqNo) same
  dsimp only [Node.put] at at_
  rw [Function.update_self] at at_
  exact moved at_

theorem put_self (n : Node M) (h : Nat) : n.put h (n.heap h) = n := by
  rw [Node.put, Function.update_eq_self]

/-- What a turn adds to the counts. -/
structure Dealt (g g' : Going M) : Prop where
  counted : g'.after = .go → g.after = .go ∧ g'.tally.counted = g.tally.counted + 1
  truthful : g'.world.node = g.world.node → g'.tally.written = g.tally.written
  clean : g.tally.unwritten < g'.tally.unwritten → g'.world.node = g.world.node

namespace Dealt

variable (g : Going M)

theorem noop (w : World M) : Dealt g ({ g with world := w } : Going M).noop where
  counted := fun go => ⟨go, by simp only [Going.noop, Tally.counted]; omega⟩
  truthful := fun _ => rfl
  clean := fun grown => absurd grown (Nat.lt_irrefl _)

theorem updated {w : World M} (wrote : w.node ≠ g.world.node) :
    Dealt g ({ g with world := w } : Going M).updated where
  counted := fun go => ⟨go, by simp only [Going.updated, Tally.counted]; omega⟩
  truthful := fun same => absurd same wrote
  clean := fun grown => absurd grown (Nat.lt_irrefl _)

theorem created {w : World M} (wrote : w.node ≠ g.world.node) :
    Dealt g ({ g with world := w } : Going M).created where
  counted := fun go => ⟨go, by simp only [Going.created, Tally.counted]; omega⟩
  truthful := fun same => absurd same wrote
  clean := fun grown => absurd grown (Nat.lt_irrefl _)

theorem deleted {w : World M} (wrote : w.node ≠ g.world.node) :
    Dealt g ({ g with world := w } : Going M).deleted where
  counted := fun go => ⟨go, by simp only [Going.deleted, Tally.counted]; omega⟩
  truthful := fun same => absurd same wrote
  clean := fun grown => absurd grown (Nat.lt_irrefl _)

theorem failed (f : Failure) : Dealt g (g.failed f) where
  counted := fun go => ⟨go, by
    simp only [Going.failed, Tally.counted, List.length_append, List.length_singleton]
    omega⟩
  truthful := fun _ => rfl
  clean := fun _ => rfl

theorem stopped (f : Failure) : Dealt g (g.failed f).stopped where
  counted := nofun
  truthful := fun _ => rfl
  clean := fun _ => rfl

theorem fail (why : Refusal) : Dealt g (g.fail why) where
  counted := nofun
  truthful := fun _ => rfl
  clean := fun _ => rfl

theorem conflicted (W : Walk V) (seen : Seen V) (now : Nat) :
    Dealt g (ByQuery.conflicted W g seen now) := by
  rw [ByQuery.conflicted]
  cases W.proceed with
  | true => exact ⟨fun go => ⟨go, by simp only [if_true, Tally.counted]; omega⟩, fun _ => rfl,
      fun _ => rfl⟩
  | false => exact ⟨nofun, fun _ => rfl, fun _ => rfl⟩

theorem refused (index id : String) (refusal : Refusal) (proceeding : Bool) :
    Dealt g (g.refused index id refusal proceeding) := by
  rw [Going.refused, Tally.noteRefusal]
  cases refusal.kind == "version_conflict_engine_exception" with
  | true =>
    cases proceeding with
    | true =>
      refine ⟨fun go => ?_, fun _ => rfl, fun _ => rfl⟩
      simp only [Bool.and_true, if_true, Nat.lt_irrefl, if_false] at go
      exact ⟨go, by simp only [Bool.and_true, if_true, Tally.counted]; omega⟩
    | false =>
      refine ⟨fun go => ?_, fun _ => rfl, fun _ => rfl⟩
      simp at go
  | false =>
    refine ⟨fun go => ?_, fun _ => rfl, fun _ => rfl⟩
    simp at go

end Dealt

theorem conflicted_world (W : Walk V) (g : Going M) (seen : Seen V) (now : Nat) :
    (conflicted W g seen now).world = g.world := by
  rw [conflicted]
  cases W.proceed <;> rfl

/-- **Numbers tell.** A document that changed since it was read, in an index that tells of it, is
found at another number than the walk saw. -/
theorem Told.conflicts {n₀ : Node M} {w : World M} {h : Nat} {seen : Seen V}
    (told : Told n₀ w h seen) (fresh : Fresh n₀ w) (placed : Placed n₀ seen)
    (changed : ChangedSince n₀ w seen) :
    ∃ now, writtenSince (w.node.heap h) seen = some now := by
  obtain ⟨h₀, saw, name, known, seqNo, before⟩ := placed
  have differs : ∀ now, (w.node.heap h).st.readSeq seen.id = some now → saw ≠ now →
      writtenSince (w.node.heap h) seen = some now := by
    intro now read ne
    rw [writtenSince, seqNo, read]
    exact if_pos ne
  by_cases same : n₀.names[seen.index]? = some h
  · obtain ⟨stands, reads⟩ := told.same same
    obtain rfl : h = h₀ := by simpa using same.symm.trans name
    cases changed with
    | inl dropped => exact absurd (stands.trans same.symm) dropped
    | inr changed =>
      obtain ⟨k, n, name', there⟩ := changed
      obtain rfl : h = k := by simpa using same.symm.trans name'
      obtain ⟨last, found, there⟩ := lastChange_of_mem there
      have after := fresh.changes h seen.id last there known
      exact ⟨last, differs last (reads last found) (by omega)⟩
  · obtain ⟨now, read, ne⟩ := told.other same
    refine ⟨now, differs now read ?_⟩
    rintro rfl
    exact ne seqNo

/-! ## Deleting and updating -/

section Held

variable {E : Env V M} {W : Walk V} {n₀ : Node M} {g : Going M} {h : Nat} {seen : Seen V}

theorem deleteHeld_conflict {now : Nat}
    (since : writtenSince (g.world.node.heap h) seen = some now) :
    deleteHeld E W g h seen = conflicted W g seen now := by
  rw [deleteHeld, since]

theorem deleteHeld_granted (since : writtenSince (g.world.node.heap h) seen = none)
    (open_ : (g.world.node.heap h).st.changeRefusal = none) :
    ∃ y : Held M, y.st.seqNo = succ64 (g.world.node.heap h).st.seqNo ∧
      deleteHeld E W g h seen =
        if (g.world.node.heap h).st.isLive (E.shape h).settings seen.id then (g.put h y).deleted
        else (g.put h y).noop := by
  obtain ⟨st, answer, eq, seqNo, status⟩ :=
    Held.deleteDoc_granted (x := g.world.node.heap h) (E.shape h).terms seen.id open_
  refine ⟨{ g.world.node.heap h with st }, seqNo, ?_⟩
  rw [deleteHeld, since]
  dsimp only
  rw [eq]
  dsimp only
  rw [status]
  cases (g.world.node.heap h).st.isLive (E.shape h).settings seen.id with
  | true => rfl
  | false => rfl

theorem deleteHeld_dealt (asks : Deletes n₀ g.world h seen) :
    Dealt g (deleteHeld E W g h seen) := by
  cases since : writtenSince (g.world.node.heap h) seen with
  | some now =>
    rw [deleteHeld_conflict since]
    exact Dealt.conflicted g W seen now
  | none =>
    obtain ⟨y, seqNo, eq⟩ := deleteHeld_granted (E := E) (W := W) since (asks.open_ since)
    rw [eq]
    split
    · exact Dealt.deleted g (put_ne (by rw [seqNo]; exact succ64_ne _))
    · exact Dealt.noop g _

theorem deleteHeld_fresh (asks : Deletes n₀ g.world h seen) (fresh : Fresh n₀ g.world)
    (roomy : (g.world.node.heap h).st.seqNo + 1 < 2 ^ 64) :
    Fresh n₀ (deleteHeld E W g h seen).world := by
  cases since : writtenSince (g.world.node.heap h) seen with
  | some now =>
    rw [deleteHeld_conflict since, conflicted_world]
    exact fresh
  | none =>
    obtain ⟨y, seqNo, eq⟩ := deleteHeld_granted (E := E) (W := W) since (asks.open_ since)
    have moved : Fresh n₀ { g.world with node := g.world.node.put h y } :=
      fresh.put (by rw [seqNo, succ64_of_lt roomy]; exact Nat.le_succ _)
    rw [eq]
    split <;> exact moved

theorem deleteHeld_idle (asks : Deletes n₀ g.world h seen)
    (grown : g.tally.noops < (deleteHeld E W g h seen).tally.noops) :
    (g.world.node.heap h).st.isLive (E.shape h).settings seen.id = false := by
  cases since : writtenSince (g.world.node.heap h) seen with
  | some now =>
    rw [deleteHeld_conflict since, conflicted] at grown
    cases proceed : W.proceed <;> rw [proceed] at grown <;> exact absurd grown (Nat.lt_irrefl _)
  | none =>
    obtain ⟨y, seqNo, eq⟩ := deleteHeld_granted (E := E) (W := W) since (asks.open_ since)
    rw [eq] at grown
    cases live : (g.world.node.heap h).st.isLive (E.shape h).settings seen.id with
    | false => rfl
    | true =>
      rw [live] at grown
      exact absurd grown (Nat.lt_irrefl _)

theorem updateHeld_kept {asked : Asked V} (meets : Meets.held E n₀ g.world h seen asked)
    (fresh : Fresh n₀ g.world) (placed : Placed n₀ seen) (changed : ChangedSince n₀ g.world seen) :
    (updateHeld E W g h seen asked).world = g.world := by
  cases asked with
  | noop => rfl
  | refused why => rfl
  | delete =>
    obtain ⟨now, since⟩ := meets.told.conflicts fresh placed changed
    rw [updateHeld]
    rw [since]
    exact conflicted_world W g seen now
  | write source =>
    obtain ⟨now, since⟩ := meets.1.conflicts fresh placed changed
    rw [updateHeld]
    rw [since]
    exact conflicted_world W g seen now

theorem refused_same {x y : Held M} {id : String} {v : V} {op : OpType} {refusal : Refusal}
    (unlearnt : Unlearnt E h x id v op)
    (wrote : x.writeDocUncounted (E.shape h).settings (E.shape h).knobs E.mapper (E.shape h).terms
      id v op none none = (y, .error refusal)) : y = x := by
  obtain ⟨-, rfl⟩ | ⟨late, rfl⟩ := writeDocUncounted_error wrote
  · rfl
  · exact unlearnt late

theorem updateHeld_dealt {asked : Asked V} (meets : Meets.held E n₀ g.world h seen asked) :
    Dealt g (updateHeld E W g h seen asked) := by
  cases asked with
  | noop => exact Dealt.noop g g.world
  | refused why => exact Dealt.stopped g _
  | delete =>
    rw [updateHeld]
    cases since : writtenSince (g.world.node.heap h) seen with
    | some now => exact Dealt.conflicted g W seen now
    | none =>
      obtain ⟨st, answer, eq, seqNo, -⟩ :=
        Held.deleteDoc_granted (x := g.world.node.heap h) (E.shape h).terms seen.id
          (meets.open_ since)
      rw [eq]
      exact Dealt.deleted g (put_ne (by rw [seqNo]; exact succ64_ne _))
  | write source =>
    rw [updateHeld]
    cases since : writtenSince (g.world.node.heap h) seen with
    | some now => exact Dealt.conflicted g W seen now
    | none =>
      dsimp only
      split
      next y answer wrote =>
        obtain ⟨stored, st, -⟩ := writeDocUncounted_ok wrote
        refine Dealt.updated g (put_ne ?_)
        rw [st, IdxState.writeGranted_seqNo]
        exact succ64_ne _
      next y refusal wrote =>
        rw [refused_same (meets.2 since) wrote, Going.put, put_self]
        exact Dealt.refused g seen.index seen.id refusal W.proceed

theorem updateHeld_fresh {asked : Asked V} (meets : Meets.held E n₀ g.world h seen asked)
    (fresh : Fresh n₀ g.world) (roomy : (g.world.node.heap h).st.seqNo + 1 < 2 ^ 64) :
    Fresh n₀ (updateHeld E W g h seen asked).world := by
  have grows : ∀ n, n = succ64 (g.world.node.heap h).st.seqNo →
      (g.world.node.heap h).st.seqNo ≤ n := by
    rintro n rfl
    rw [succ64_of_lt roomy]
    exact Nat.le_succ _
  cases asked with
  | noop => exact fresh
  | refused why => exact fresh
  | delete =>
    rw [updateHeld]
    cases since : writtenSince (g.world.node.heap h) seen with
    | some now =>
      rw [conflicted_world]
      exact fresh
    | none =>
      obtain ⟨st, answer, eq, seqNo, -⟩ :=
        Held.deleteDoc_granted (x := g.world.node.heap h) (E.shape h).terms seen.id
          (meets.open_ since)
      rw [eq]
      exact fresh.put (grows _ seqNo)
  | write source =>
    rw [updateHeld]
    cases since : writtenSince (g.world.node.heap h) seen with
    | some now =>
      rw [conflicted_world]
      exact fresh
    | none =>
      dsimp only
      split
      next y answer wrote =>
        obtain ⟨stored, st, -⟩ := writeDocUncounted_ok wrote
        refine fresh.put (grows _ ?_)
        rw [st, IdxState.writeGranted_seqNo]
      next y refusal wrote =>
        rw [refused_same (meets.2 since) wrote]
        exact fresh.put (Nat.le_refl _)

end Held

/-! ## Reindexing -/

theorem given_seqNo (x : Held M) (id : String) : (given x id).1.st.seqNo = x.st.seqNo := by
  rw [given]
  split <;> rfl

theorem routed_seqNo (W : Walk V) (x : Held M) (id : String) (scripted : Option String) :
    (routed W x id scripted).st.seqNo = x.st.seqNo := by
  have rerouted : (x.reroute id scripted).st.seqNo = x.st.seqNo := by
    cases scripted <;> rfl
  rw [routed]
  cases W.routing with
  | none => exact rerouted
  | some asked =>
    dsimp only
    split
    · exact rerouted
    · split <;> exact rerouted

theorem ensured_cases {n node : Node M} {taken : Option Nat} {dest : String}
    {makes : Option (Held M)} {h : Nat} (found : ensured n taken dest makes = some (node, h)) :
    node = n ∨ node.next = n.next + 1 := by
  unfold ensured at found
  cases taken with
  | some k =>
    cases found
    exact .inl rfl
  | none =>
    dsimp only at found
    split at found
    · cases found
      exact .inl rfl
    · cases makes with
      | none => cases found
      | some x =>
        cases found
        exact .inr rfl

theorem reindexHeld_dealt {E : Env V M} {W : Walk V} {g : Going M} {taken : Option Nat}
    {d : Doc V M} {sent : Sent V} (meets : Meets.sent E W g.world taken d sent) :
    Dealt g (reindexHeld E W g taken d sent) := by
  cases sent with
  | noop => exact Dealt.noop g g.world
  | failed f => exact Dealt.failed g f
  | refused f => exact Dealt.stopped g f
  | delete dest target =>
    obtain ⟨h, rfl, open_, live⟩ := meets
    obtain ⟨st, answer, eq, seqNo, status⟩ :=
      Held.deleteDoc_granted (x := g.world.node.heap h) (E.shape h).terms target open_
    rw [reindexHeld, eq]
    dsimp only
    rw [status, if_pos live, if_pos rfl]
    exact Dealt.deleted g (put_ne (by rw [seqNo]; exact succ64_ne _))
  | write dest id source scripted op =>
    obtain ⟨node, h, found, harmless⟩ := meets
    rw [reindexHeld, found]
    dsimp only at harmless ⊢
    have numbered : (routed W (given (node.heap h) id).1 (given (node.heap h) id).2 scripted).st.seqNo =
        (node.heap h).st.seqNo := by
      rw [routed_seqNo, given_seqNo]
    generalize routed W (given (node.heap h) id).1 (given (node.heap h) id).2 scripted = x at *
    split
    next y answer wrote =>
      have moved : node.put h y ≠ g.world.node := by
        obtain ⟨stored, st, -⟩ := writeDocUncounted_ok wrote
        cases ensured_cases found with
        | inl there =>
          rw [← there]
          apply put_ne
          rw [st, IdxState.writeGranted_seqNo, numbered]
          exact succ64_ne _
        | inr made =>
          intro same
          have next := congrArg Node.next same
          rw [Node.put, made] at next
          exact absurd next (Nat.succ_ne_self _)
      split
      · exact Dealt.updated g moved
      · exact Dealt.created g moved
    next y refusal wrote =>
      have ungranted : x.verdict (E.shape h).settings (E.shape h).knobs E.mapper
          (given (node.heap h) id).2 source (if W.createOnly then OpType.create else op) none ≠
            .granted := by
        obtain ⟨early, -⟩ | ⟨late, -⟩ := writeDocUncounted_error wrote
        · rw [early]
          exact nofun
        · rw [late]
          exact nofun
      obtain ⟨rfl, rfl, unlearnt⟩ := harmless ungranted
      rw [refused_same unlearnt wrote]
      have same : ({ g with world := { g.world with node := g.world.node } } : Going M).put h
          (g.world.node.heap h) = g := by
        rw [Going.put, put_self]
      rw [same]
      exact Dealt.refused g dest d.seen.id refusal W.proceed

/-! ## A document of any walk -/

section One

variable {E : Env V M} {W : Walk V} {n₀ : Node M} {g : Going M} {d : Doc V M}

theorem one_delete (kind : W.kind = .delete) {h : Nat} (taken : takenAt E g d = some h) :
    one E W g d = deleteHeld E W { g with world := lockedAt E g d } h d.seen := by
  rw [one, kind]
  dsimp only
  rw [deleteOne]
  dsimp only [Going.await]
  rw [takenAt] at taken
  rw [taken]
  rfl

theorem one_update (kind : W.kind = .update) {h : Nat} (taken : takenAt E g d = some h) :
    one E W g d =
      match updateAsked ((g.world.await E d.turn.before).node.heap h) d with
      | .error why => ({ g with world := lockedAt E g d } : Going M).fail why
      | .ok asked => updateHeld E W { g with world := lockedAt E g d } h d.seen asked := by
  rw [one, kind]
  dsimp only
  rw [updateOne]
  dsimp only [Going.await]
  rw [takenAt] at taken
  rw [taken]
  rfl

theorem locked_fresh (meets : Meets E W n₀ g d) (fresh : Fresh n₀ g.world) :
    Fresh n₀ (lockedAt E g d) :=
  (fresh.await E meets.before).await E meets.meanwhile

theorem one_fresh (meets : Meets E W n₀ g d) (kind : W.kind ≠ .reindex) (fresh : Fresh n₀ g.world) :
    Fresh n₀ (one E W g d).world := by
  obtain ⟨h, taken, roomy⟩ := meets.there kind
  have locked := locked_fresh meets fresh
  cases k : W.kind with
  | reindex => exact absurd k kind
  | delete =>
    rw [one_delete k taken]
    exact deleteHeld_fresh (g := { g with world := lockedAt E g d }) (meets.deletes k h taken) locked
      roomy
  | update =>
    rw [one_update k taken]
    split
    next why failed => exact locked
    next asked asks =>
      exact updateHeld_fresh (g := { g with world := lockedAt E g d })
        (meets.updates k h taken asked asks) locked roomy

theorem one_right (meets : Meets E W n₀ g d)
    (fresh : W.kind ≠ .reindex → Fresh n₀ g.world ∧ Placed n₀ d.seen) : Right E W n₀ g d := by
  cases kind : W.kind with
  | delete =>
    obtain ⟨fresh, placed⟩ := fresh (by rw [kind]; exact nofun)
    obtain ⟨h, taken, -⟩ := meets.there (by rw [kind]; exact nofun)
    have asks := meets.deletes kind h taken
    have eq := one_delete kind taken
    have dealt : Dealt { g with world := lockedAt E g d } (one E W g d) := by
      rw [eq]
      exact deleteHeld_dealt (g := { g with world := lockedAt E g d }) asks
    refine ⟨fun _ changed => ?_, dealt.counted, dealt.truthful, fun _ grown k taken' => ?_,
      dealt.clean⟩
    · obtain ⟨now, since⟩ := asks.told.conflicts (locked_fresh meets fresh) placed changed
      rw [eq, deleteHeld_conflict (g := { g with world := lockedAt E g d }) since, conflicted_world]
    · obtain rfl : h = k := by simpa using taken.symm.trans taken'
      rw [eq] at grown
      exact deleteHeld_idle (g := { g with world := lockedAt E g d }) asks grown
  | update =>
    obtain ⟨fresh, placed⟩ := fresh (by rw [kind]; exact nofun)
    obtain ⟨h, taken, -⟩ := meets.there (by rw [kind]; exact nofun)
    have eq := one_update kind taken
    have dealt : Dealt { g with world := lockedAt E g d } (one E W g d) := by
      rw [eq]
      split
      next why failed => exact Dealt.fail _ why
      next asked asks =>
        exact updateHeld_dealt (g := { g with world := lockedAt E g d })
          (meets.updates kind h taken asked asks)
    refine ⟨fun _ changed => ?_, dealt.counted, dealt.truthful,
      fun deletes => (nomatch kind.symm.trans deletes), dealt.clean⟩
    rw [eq]
    split
    next why failed => rfl
    next asked asks =>
      rw [updateHeld_kept (g := { g with world := lockedAt E g d })
        (meets.updates kind h taken asked asks) (locked_fresh meets fresh) placed changed]
  | reindex =>
    have dealt : Dealt { g with world := lockedAt E g d } (one E W g d) := by
      rw [one, kind]
      dsimp only
      cases dest : W.dest with
      | none =>
        exact ⟨nofun, fun _ => rfl, fun grown => absurd grown (Nat.lt_irrefl _)⟩
      | some to_ =>
        dsimp only
        rw [reindexOne]
        dsimp only [Going.await]
        split
        next why failed => exact ⟨nofun, fun _ => rfl, fun _ => rfl⟩
        next judged sent sends =>
          have dealt := reindexHeld_dealt (g := { g with world := lockedAt E g d, judged })
            (meets.reindexes kind to_ dest judged sent sends)
          exact ⟨dealt.counted, dealt.truthful, dealt.clean⟩
    exact ⟨fun other => absurd kind other, dealt.counted, dealt.truthful,
      fun deletes => (nomatch kind.symm.trans deletes), dealt.clean⟩

end One

/-! ## The run -/

section Run

variable (E : Env V M) (W : Walk V)

/-- The turns of a batch. -/
def batchTurns (g : Going M) : List (Doc V M) → List (Going M × Doc V M)
  | [] => []
  | d :: rest =>
    (g, d) ::
      match (one E W g d).after with
      | .fail _ => []
      | _ => batchTurns (one E W g d) rest

/-- The same of what `write_batch` is given. -/
def writeTurns (r : Round) (g : Going M) (docs : List (Doc V M)) : List (Going M × Doc V M) :=
  match (if W.kind = .delete then none else r.compiles) with
  | some _ => []
  | none => batchTurns E W { g with tally := {}, after := .go } docs

/-- Those of a slice. -/
def sliceTurns (rounds : Nat → Round) (n : Nat) (g : Going M) (docs : List (Doc V M)) :
    List (Going M × Doc V M) :=
  if !(rounds n).turn then []
  else if _left : docs = [] then []
  else
    let wrote := writeBatch E W (rounds n) g (docs.take W.batch)
    writeTurns E W (rounds n) g (docs.take W.batch) ++
      match wrote.after with
      | .go => sliceTurns rounds (n + 1) { wrote with tally := g.tally.absorb wrote.tally }
          (docs.drop W.batch)
      | _ => []
termination_by docs.length
decreasing_by
  have pos := W.pos
  have := List.length_pos_iff.mpr _left
  simp only [List.length_drop]
  omega

variable {E W} {n₀ : Node M}

/-- What a walk begins with. -/
def Ready (W : Walk V) (n₀ : Node M) (w : World M) (docs : List (Doc V M)) : Prop :=
  W.kind ≠ .reindex → Fresh n₀ w ∧ ∀ d ∈ docs, Placed n₀ d.seen

theorem absorb_counted (t batch : Tally) :
    (t.absorb batch).counted = t.counted + batch.counted := by
  simp only [Tally.absorb, Tally.counted, List.length_append]
  omega

theorem batch_right {g : Going M} {docs : List (Doc V M)}
    (meets : ∀ t ∈ batchTurns E W g docs, Meets E W n₀ t.1 t.2)
    (ready : Ready W n₀ g.world docs) :
    (∀ t ∈ batchTurns E W g docs, Right E W n₀ t.1 t.2) ∧
      (W.kind ≠ .reindex → Fresh n₀ (batchRun E W g docs).world) ∧
      ((batchRun E W g docs).after = .go → g.after = .go ∧
        (batchRun E W g docs).tally.counted = g.tally.counted + docs.length) := by
  induction docs generalizing g with
  | nil =>
    rw [batchTurns, batchRun]
    exact ⟨fun t there => absurd there List.not_mem_nil, fun kind => (ready kind).1,
      fun go => ⟨go, rfl⟩⟩
  | cons d rest ih =>
    rw [batchTurns] at meets ⊢
    rw [batchRun]
    have here := meets (g, d) List.mem_cons_self
    have right := one_right here fun kind => ⟨(ready kind).1, (ready kind).2 d List.mem_cons_self⟩
    have fresh : W.kind ≠ .reindex → Fresh n₀ (one E W g d).world := fun kind =>
      one_fresh here kind (ready kind).1
    cases left : (one E W g d).after with
    | fail why =>
      refine ⟨fun t there => ?_, fresh, fun go => nomatch left.symm.trans go⟩
      obtain rfl : t = (g, d) := by simpa [left] using there
      exact right
    | stop =>
      simp only [left] at meets
      obtain ⟨rights, fresh', counted⟩ := ih (fun t there => meets t (List.mem_cons_of_mem _ there))
        fun kind => ⟨fresh kind, fun d' there => (ready kind).2 d' (List.mem_cons_of_mem _ there)⟩
      refine ⟨fun t there => ?_, fresh', fun go => nomatch left.symm.trans (counted go).1⟩
      cases there with
      | head => exact right
      | tail _ there => exact rights t there
    | go =>
      simp only [left] at meets
      obtain ⟨rights, fresh', counted⟩ := ih (fun t there => meets t (List.mem_cons_of_mem _ there))
        fun kind => ⟨fresh kind, fun d' there => (ready kind).2 d' (List.mem_cons_of_mem _ there)⟩
      refine ⟨fun t there => ?_, fresh', fun go => ?_⟩
      · cases there with
        | head => exact right
        | tail _ there => exact rights t there
      · have once := right.counted left
        refine ⟨once.1, ?_⟩
        rw [(counted go).2, once.2, List.length_cons]
        exact Nat.add_right_comm _ _ _

theorem write_right {r : Round} {g : Going M} {docs : List (Doc V M)}
    (meets : ∀ t ∈ writeTurns E W r g docs, Meets E W n₀ t.1 t.2)
    (ready : Ready W n₀ g.world docs) :
    (∀ t ∈ writeTurns E W r g docs, Right E W n₀ t.1 t.2) ∧
      (W.kind ≠ .reindex → Fresh n₀ (writeBatch E W r g docs).world) ∧
      ((writeBatch E W r g docs).after = .go →
        (writeBatch E W r g docs).tally.counted = docs.length) := by
  rw [writeTurns] at meets ⊢
  unfold writeBatch
  dsimp only
  cases compiles : (if W.kind = .delete then none else r.compiles) with
  | some why =>
    refine ⟨fun t there => absurd there List.not_mem_nil, fun kind => ?_, fun go => ?_⟩
    · cases r.synced <;> exact (ready kind).1
    · cases synced : r.synced <;> rw [synced] at go <;> cases go
  | none =>
    rw [compiles] at meets
    obtain ⟨rights, fresh, counted⟩ :=
      batch_right (g := { g with tally := {}, after := .go }) meets ready
    refine ⟨rights, fun kind => ?_, fun go => ?_⟩
    · cases r.synced <;> exact fresh kind
    · cases synced : r.synced with
      | some why =>
        rw [synced] at go
        cases go
      | none =>
        rw [synced] at go
        dsimp only at go ⊢
        rw [(counted go).2]
        exact Nat.zero_add _

/-- **A slice is right**: so is every document it comes to, and where it ends by itself every
document of it is accounted for. -/
theorem slice_right {rounds : Nat → Round} {n : Nat} {g : Going M} {docs : List (Doc V M)}
    (meets : ∀ t ∈ sliceTurns E W rounds n g docs, Meets E W n₀ t.1 t.2)
    (ready : Ready W n₀ g.world docs) :
    (∀ t ∈ sliceTurns E W rounds n g docs, Right E W n₀ t.1 t.2) ∧
      ((sliceRun E W rounds n g docs).2 = .done →
        (sliceRun E W rounds n g docs).1.tally.counted = g.tally.counted + docs.length) := by
  induction n, g, docs using sliceRun.induct E W rounds with
  | case1 n g docs cancelled =>
    rw [sliceTurns, sliceRun, if_pos cancelled, if_pos cancelled]
    exact ⟨fun t there => absurd there List.not_mem_nil, nofun⟩
  | case2 n g turn =>
    rw [sliceTurns, sliceRun, if_neg turn, if_neg turn]
    exact ⟨fun t there => absurd there List.not_mem_nil, fun _ => rfl⟩
  | case3 n g docs turn left wrote g' went ih =>
    have run : sliceRun E W rounds n g docs =
        sliceRun E W rounds (n + 1) g' (docs.drop W.batch) := by
      rw [sliceRun, if_neg turn, dif_neg left]
      dsimp only
      split
      next => rfl
      next stopped => exact nomatch went.symm.trans stopped
      next why failed => exact nomatch went.symm.trans failed
    have turns : sliceTurns E W rounds n g docs =
        writeTurns E W (rounds n) g (docs.take W.batch) ++
          sliceTurns E W rounds (n + 1) g' (docs.drop W.batch) := by
      rw [sliceTurns, if_neg turn, dif_neg left]
      dsimp only
      split
      next => rfl
      next other => exact absurd went other
    rw [turns] at meets ⊢
    rw [run]
    obtain ⟨rights, fresh, counted⟩ :=
      write_right (fun t there => meets t (List.mem_append_left _ there))
        fun kind => ⟨(ready kind).1, fun d there => (ready kind).2 d (List.mem_of_mem_take there)⟩
    obtain ⟨rest, total⟩ := ih (fun t there => meets t (List.mem_append_right _ there))
      fun kind => ⟨fresh kind, fun d there => (ready kind).2 d (List.mem_of_mem_drop there)⟩
    refine ⟨fun t there => ?_, fun done => ?_⟩
    · cases List.mem_append.mp there with
      | inl there => exact rights t there
      | inr there => exact rest t there
    · have whole : (docs.take W.batch).length + (docs.drop W.batch).length = docs.length := by
        rw [← List.length_append, List.take_append_drop]
      rw [total done, absorb_counted, counted went, Nat.add_assoc, whole]
  | case4 n g docs turn left wrote stopped =>
    have run : (sliceRun E W rounds n g docs).2 = .stopped := by
      rw [sliceRun, if_neg turn, dif_neg left]
      dsimp only
      split
      next go => exact nomatch stopped.symm.trans go
      next => rfl
      next why failed => exact nomatch stopped.symm.trans failed
    have turns : sliceTurns E W rounds n g docs =
        writeTurns E W (rounds n) g (docs.take W.batch) := by
      rw [sliceTurns, if_neg turn, dif_neg left]
      dsimp only
      split
      next go => exact nomatch stopped.symm.trans go
      next => exact List.append_nil _
    rw [turns] at meets ⊢
    exact ⟨(write_right meets fun kind =>
      ⟨(ready kind).1, fun d there => (ready kind).2 d (List.mem_of_mem_take there)⟩).1,
      fun done => nomatch run.symm.trans done⟩
  | case5 n g docs turn left wrote why failed =>
    have run : (sliceRun E W rounds n g docs).2 = .failed why := by
      rw [sliceRun, if_neg turn, dif_neg left]
      dsimp only
      split
      next go => exact nomatch failed.symm.trans go
      next stopped => exact nomatch failed.symm.trans stopped
      next why' failed' =>
        cases failed.symm.trans failed'
        rfl
    have turns : sliceTurns E W rounds n g docs =
        writeTurns E W (rounds n) g (docs.take W.batch) := by
      rw [sliceTurns, if_neg turn, dif_neg left]
      dsimp only
      split
      next go => exact nomatch failed.symm.trans go
      next => exact List.append_nil _
    rw [turns] at meets ⊢
    exact ⟨(write_right meets fun kind =>
      ⟨(ready kind).1, fun d there => (ready kind).2 d (List.mem_of_mem_take there)⟩).1,
      fun done => nomatch run.symm.trans done⟩

end Run

/-! ## The slices -/

theorem sliceOf_lt (E : Env V M) (n : Node M) (seen : Seen V) {slices : Nat} (pos : 0 < slices) :
    sliceOf E n seen slices < slices := by
  have divided : ∀ shard shards hash, shard < shards →
      (if slices ≤ shards then shard % slices
        else shard + shards * (hash %
          if shard < slices % shards then slices / shards + 1 else slices / shards)) < slices := by
    intro shard shards hash lt
    split
    · exact Nat.mod_lt _ pos
    · have whole := Nat.div_add_mod slices shards
      have some_ : 0 < slices / shards := Nat.div_pos (by omega) (by omega)
      split
      next more =>
        have bound : hash % (slices / shards + 1) ≤ slices / shards :=
          Nat.le_of_lt_succ (Nat.mod_lt _ (Nat.succ_pos _))
        have := Nat.mul_le_mul_left shards bound
        omega
      next =>
        have bound : hash % (slices / shards) + 1 ≤ slices / shards := Nat.mod_lt _ some_
        have := Nat.mul_le_mul_left shards bound
        rw [Nat.mul_add, Nat.mul_one] at this
        omega
  rw [sliceOf]
  cases n.names[seen.index]? with
  | none => exact divided 0 1 _ Nat.one_pos
  | some h => exact divided _ _ _ ((E.shape h).shards.shardOf_lt seen.id _)

theorem shares_eq (E : Env V M) (n : Node M) {slices : Nat} (pos : 0 < slices)
    (docs : List (Doc V M)) :
    shares E n slices docs =
      (List.range slices).map fun i => docs.filter fun d => sliceOf E n d.seen slices == i := by
  rw [shares]
  split
  next single =>
    obtain rfl : slices = 1 := by omega
    have all : ∀ d ∈ docs, (sliceOf E n d.seen 1 == 0) = true := by
      intro d _
      have := sliceOf_lt E n d.seen Nat.one_pos
      rw [beq_iff_eq]
      omega
    simp [List.range_succ, List.filter_eq_self.mpr all]
  next many =>
    induction docs using List.reverseRecOn with
    | nil => simp
    | append_singleton docs d ih =>
      rw [List.foldl_append, ih, List.foldl_cons, List.foldl_nil]
      apply List.ext_getElem?
      intro i
      rw [List.getElem?_modify]
      by_cases lt : i < slices
      · simp only [List.getElem?_map, List.getElem?_range lt, Option.map_some, List.filter_append,
          List.filter_cons, List.filter_nil]
        by_cases at_ : sliceOf E n d.seen slices = i
        · simp [at_]
        · simp [at_]
      · simp [lt]

theorem sum_filter_length {α : Type} {key : α → Nat} {n : Nat} {docs : List α}
    (lt : ∀ d ∈ docs, key d < n) :
    ∑ i ∈ Finset.range n, (docs.filter fun d => key d == i).length = docs.length := by
  induction docs with
  | nil => simp
  | cons d rest ih =>
    have here : ∀ i, ((d :: rest).filter fun d => key d == i).length =
        (if key d = i then 1 else 0) + (rest.filter fun d => key d == i).length := by
      intro i
      rw [List.filter_cons]
      by_cases at_ : key d = i
      · simp [at_, Nat.add_comm]
      · simp [at_]
    have there : key d ∈ Finset.range n := Finset.mem_range.mpr (lt d List.mem_cons_self)
    simp only [here]
    rw [Finset.sum_add_distrib, Finset.sum_ite_eq, if_pos there,
      ih fun d there => lt d (List.mem_cons_of_mem _ there), List.length_cons, Nat.add_comm]

/-! ## The walk -/

/-- A walk that has just read. -/
def start (n₀ : Node M) : Going M :=
  { world := { node := n₀, changes := [] } }

/-- The walk, slice by slice. -/
def walkRun (E : Env V M) (W : Walk V) (rounds : Nat → Nat → Round) (n₀ : Node M)
    (parts : List (List (Doc V M))) : List (Going M × Ended) :=
  parts.mapIdx fun i part => sliceRun E W (rounds i) 0 (start n₀) part

/-- Its turns. -/
def walkTurns (E : Env V M) (W : Walk V) (rounds : Nat → Nat → Round) (n₀ : Node M)
    (parts : List (List (Doc V M))) : List (Going M × Doc V M) :=
  (parts.mapIdx fun i part => sliceTurns E W (rounds i) 0 (start n₀) part).flatten

/-- **A walk writes over no change made since it read, and accounts for every document**, in every
run whose documents meet the condition: each document falls in one slice; what changed since it
was read is left alone; what is said to be written or not is; and where every slice ends by
itself, what is counted and listed is what was read. -/
theorem walk_right (E : Env V M) (W : Walk V) (n₀ now : Node M) {slices : Nat} (pos : 0 < slices)
    (docs : List (Doc V M)) (read : W.kind ≠ .reindex → ∀ d ∈ docs, Placed n₀ d.seen)
    (rounds : Nat → Nat → Round)
    (meets : ∀ t ∈ walkTurns E W rounds n₀ (shares E now slices docs), Meets E W n₀ t.1 t.2) :
    (∀ d ∈ docs, sliceOf E now d.seen slices < slices) ∧
      (shares E now slices docs = (List.range slices).map fun i =>
        docs.filter fun d => sliceOf E now d.seen slices == i) ∧
      (∀ t ∈ walkTurns E W rounds n₀ (shares E now slices docs), Right E W n₀ t.1 t.2) ∧
      ((∀ r ∈ walkRun E W rounds n₀ (shares E now slices docs), r.2 = .done) →
        ((walkRun E W rounds n₀ (shares E now slices docs)).map fun r => r.1.tally.counted).sum =
          docs.length) := by
  have below := fun d (_ : d ∈ docs) => sliceOf_lt E now d.seen pos
  have parted := shares_eq E now pos docs
  have slice : ∀ i part, (shares E now slices docs)[i]? = some part →
      (∀ t ∈ sliceTurns E W (rounds i) 0 (start n₀) part, Right E W n₀ t.1 t.2) ∧
        ((sliceRun E W (rounds i) 0 (start n₀) part).2 = .done →
          (sliceRun E W (rounds i) 0 (start n₀) part).1.tally.counted = part.length) := by
    intro i part there
    have ready : Ready W n₀ (start n₀).world part := by
      intro kind
      refine ⟨Fresh.start n₀, fun d mem => read kind d ?_⟩
      rw [parted, List.getElem?_map] at there
      cases at_ : (List.range slices)[i]? with
      | none =>
        rw [at_] at there
        cases there
      | some j =>
        rw [at_] at there
        cases there
        exact (List.mem_filter.mp mem).1
    have taken : ∀ t ∈ sliceTurns E W (rounds i) 0 (start n₀) part, Meets E W n₀ t.1 t.2 := by
      intro t mem
      refine meets t (List.mem_flatten.mpr ⟨_, List.mem_of_getElem? (i := i) ?_, mem⟩)
      rw [List.getElem?_mapIdx, there]
      rfl
    obtain ⟨rights, counted⟩ := slice_right taken ready
    exact ⟨rights, fun done => (counted done).trans (Nat.zero_add _)⟩
  refine ⟨below, parted, fun t mem => ?_, fun done => ?_⟩
  · obtain ⟨turns, found, mem⟩ := List.mem_flatten.mp mem
    obtain ⟨i, at_⟩ := List.mem_iff_getElem?.mp found
    rw [List.getElem?_mapIdx] at at_
    cases there : (shares E now slices docs)[i]? with
    | none =>
      rw [there] at at_
      cases at_
    | some part =>
      rw [there] at at_
      cases at_
      exact (slice i part there).1 t mem
  · have lengths : ((walkRun E W rounds n₀ (shares E now slices docs)).map
        fun r => r.1.tally.counted) = (shares E now slices docs).map List.length := by
      apply List.ext_getElem?
      intro i
      rw [walkRun, List.getElem?_map, List.getElem?_mapIdx, List.getElem?_map]
      cases there : (shares E now slices docs)[i]? with
      | none => rfl
      | some part =>
        refine congrArg some ((slice i part there).2 (done _ (List.mem_of_getElem? (i := i) ?_)))
        rw [walkRun, List.getElem?_mapIdx, there]
        rfl
    rw [lengths, parted, List.map_map]
    exact sum_filter_length below

/-! ## Walks over one document -/

def plainShape : Shape String where
  shards := { count := 1, pos := Nat.one_pos, routingShards := none, partitionSize := 1
              routingHash := fun _ => 0 }
  idFingerprint := fun _ => 0
  routingRequired := false
  knobs := {}
  terms := ∅

def plainEnv : Env String Unit where
  shape := fun _ => plainShape
  mapper := plainMapper

def oneIndex : Node Unit where
  names := .ofList [("idx", 0)]
  heap := fun _ =>
    { st := { name := "idx", liveIds := .ofList [0], seqNo := 1, writer := true
              written := [{ id := "1", source := "\x7b\x7d", seq := 0, routing := none }]
              realtime := [{ id := "1", source := "\x7b\x7d", seq := 0, routing := none }] }
      mapping := () }
  next := 1

def updating : Walk String where
  kind := .update
  proceed := true
  batch := 1000
  pos := by decide

/-- The document, and what another client does before the walk comes to it. -/
def meanwhile (acts : List (Act String Unit)) : Doc String Unit where
  seen := { index := "idx", id := "1", source := "\x7b\x7d", seqNo := some 0 }
  turn := { before := acts }

theorem single_turns (E : Env V M) (W : Walk V) (n₀ now : Node M) (d : Doc V M)
    (kind : W.kind = .update) :
    walkTurns E W (fun _ _ => {}) n₀ (shares E now 1 [d]) = [(start n₀, d)] := by
  obtain ⟨batch, more⟩ : ∃ batch, W.batch = batch + 1 := Nat.exists_eq_succ_of_ne_zero
    (Nat.ne_of_gt W.pos)
  have wrote : writeTurns E W {} (start n₀) [d] = [(start n₀, d)] := by
    rw [writeTurns, kind]
    show batchTurns E W (start n₀) [d] = _
    rw [batchTurns]
    cases (one E W (start n₀) d).after <;> rfl
  have slice : sliceTurns E W (fun _ => {}) 0 (start n₀) [d] = [(start n₀, d)] := by
    rw [sliceTurns, if_neg (by decide), dif_neg (List.cons_ne_nil d []), more, List.take_succ_cons,
      List.take_nil, List.drop_succ_cons, List.drop_nil]
    dsimp only
    rw [wrote]
    split
    · rw [sliceTurns, if_neg (by decide), dif_pos rfl]
      rfl
    · rfl
  rw [walkTurns, shares, if_pos (Nat.le_refl 1)]
  show [sliceTurns E W (fun _ => {}) 0 (start n₀) [d]].flatten = _
  rw [slice]
  rfl

theorem single_done (E : Env V M) (W : Walk V) (n₀ now : Node M) (d : Doc V M)
    (kind : W.kind = .update) (went : (one E W (start n₀) d).after = .go) :
    ∀ r ∈ walkRun E W (fun _ _ => {}) n₀ (shares E now 1 [d]), r.2 = .done := by
  obtain ⟨batch, more⟩ : ∃ batch, W.batch = batch + 1 := Nat.exists_eq_succ_of_ne_zero
    (Nat.ne_of_gt W.pos)
  have wrote : writeBatch E W {} (start n₀) [d] = one E W (start n₀) d := by
    rw [writeBatch, kind]
    show batchRun E W (start n₀) [d] = _
    rw [batchRun, went]
    rfl
  have slice : (sliceRun E W (fun _ => {}) 0 (start n₀) [d]).2 = .done := by
    rw [sliceRun, if_neg (by decide), dif_neg (List.cons_ne_nil d []), more, List.take_succ_cons,
      List.take_nil, List.drop_succ_cons, List.drop_nil]
    dsimp only
    rw [wrote, went]
    dsimp only
    rw [sliceRun, if_neg (by decide), dif_pos rfl]
  rw [walkRun, shares, if_pos (Nat.le_refl 1)]
  intro r there
  obtain rfl := List.mem_singleton.mp there
  exact slice

def rewritten : Doc String Unit :=
  meanwhile [.on 0 (.write "1" "new" .index none none)]

/-- It is a conflict, and counted. -/
theorem walk_right_rewritten :
    ((walkRun plainEnv updating (fun _ _ => {}) oneIndex
      (shares plainEnv oneIndex 1 [rewritten])).map fun r => r.1.tally.counted).sum = 1 := by
  have went : (one plainEnv updating (start oneIndex) rewritten).after = .go := by
    have found : (match (one plainEnv updating (start oneIndex) rewritten).after with
        | .go => true
        | _ => false) = true := by decide +kernel
    cases after : (one plainEnv updating (start oneIndex) rewritten).after with
    | go => rfl
    | stop =>
      rw [after] at found
      cases found
    | fail why =>
      rw [after] at found
      cases found
  refine (walk_right plainEnv updating oneIndex oneIndex Nat.one_pos _ ?_ (fun _ _ => {}) ?_).2.2.2
    (single_done plainEnv updating oneIndex oneIndex rewritten rfl went)
  · intro _ d there
    obtain rfl := List.mem_singleton.mp there
    exact ⟨0, 0, by decide +kernel, by decide, rfl, by decide⟩
  · rw [single_turns plainEnv updating oneIndex oneIndex _ rfl]
    intro t there
    obtain rfl := List.mem_singleton.mp there
    have taken : takenAt plainEnv (start oneIndex) rewritten = some 0 := by decide +kernel
    have told : Told oneIndex (lockedAt plainEnv (start oneIndex) rewritten) 0 rewritten.seen := by
      refine ⟨fun _ => ⟨by decide +kernel, fun n last => ?_⟩, fun other => absurd ?_ other⟩
      · have numbered : (lockedAt plainEnv (start oneIndex) rewritten).lastChange 0 "1" = some 1 := by
          decide +kernel
        obtain rfl : 1 = n := by simpa using numbered.symm.trans last
        decide +kernel
      · decide +kernel
    have roomy : ((start oneIndex).world.node.heap 0).st.seqNo + 1 < 2 ^ 64 := by decide
    refine ⟨⟨roomy, trivial⟩, trivial, fun _ => ⟨0, taken, by decide +kernel⟩, nofun,
      fun _ h taken' asked asks => ?_, nofun⟩
    obtain rfl : 0 = h := by simpa using taken.symm.trans taken'
    cases asks
    exact ⟨told, fun _ late => nomatch late⟩

/-- A document that is deleted and refreshed out meanwhile is brought back. -/
theorem deleted_brought_back :
    ¬ ∀ t ∈ walkTurns plainEnv updating (fun _ _ => {}) oneIndex
      (shares plainEnv oneIndex 1 [meanwhile [.on 0 (.delete "1"), .on 0 .refresh]]),
        Right plainEnv updating oneIndex t.1 t.2 := by
  intro right
  rw [single_turns plainEnv updating oneIndex oneIndex _ rfl] at right
  have kept := (right _ List.mem_cons_self).kept nofun
    (.inr ⟨0, 1, by decide +kernel, by decide +kernel⟩)
  have live := congrArg (fun n => (Node.heap n 0).st.isLive plainShape.settings "1") kept
  revert live
  decide +kernel

end Velosearch.ByQuery

import Velosearch.Index.Following

/-!
# A writer that fails

`apply_ops` of `src/store/translog.rs` with the error paths that `applyOps` leaves out: no
writer can be opened, or the writer refuses a document. Both put back what was not handed
over, and both lose something on the way. The document the writer refused is dropped,
and the pins of everything put back are given up, but for the deletes.

What is put back is behind what stayed, so a document with work in two queues may have it
reordered. That a document has its work in one queue is what the pins are for
(`queue_op_for`), and they hold until the first hand-over that fails.
-/

set_option autoImplicit false

namespace Velosearch.Index

open Velosearch.Cluster (BTreeMap u64Max)

/-- What becomes of a call to the index writer: whether one can be opened where none is,
which of the documents it is handed it refuses, by their place among the operations
handed over, whether its commit goes through, and whether the readers reload; and
beside them whether the translog takes a record. -/
structure Fate where
  opens : Bool := true
  refuses : Nat → Bool := fun _ => false
  commits : Bool := true
  reloads : Bool := true
  records : Bool := true

/-- The operation adds a document. -/
def PendingOp.isAdd : PendingOp → Bool
  | .add _ => true
  | .delete _ => false

/-- How far the queue has been handed over. -/
structure Handing where
  taken : List (Nat × PendingOp) := []
  refused : Option (Nat × PendingOp) := none
  left : List (Nat × PendingOp) := []

/-- The loop of `apply_ops` over what goes, from the operation at place `n`. -/
def handing (refuses : Nat → Bool) (n : Nat) : List (Nat × PendingOp) → Handing
  | [] => {}
  | e :: rest =>
    if e.2.isAdd && refuses n then { refused := some e, left := rest }
    else
      let h := handing refuses (n + 1) rest
      { h with taken := e :: h.taken }

namespace IdxState

variable (st : IdxState)

/-- What of the queue a hand-over is about. -/
def going (only : Option Nat) : List (Nat × PendingOp) :=
  st.deferred.filter fun e => only.all (· == e.1)

/-- There is a writer, or one can be had. -/
def reachable (f : Fate) : Bool :=
  st.writer || f.opens

/-- The hand-over `apply_ops` makes, if it comes to one. -/
def handingOver (f : Fate) (only : Option Nat) : Handing :=
  if st.reachable f then handing f.refuses 0 (st.going only) else {}

/-- Everything asked for goes through. -/
def Takes (f : Fate) (only : Option Nat) : Prop :=
  st.deferred = [] ∨ st.reachable f = true ∧ (st.handingOver f only).refused = none

/-- A document that stays queued stays pinned. -/
def repin (pins : BTreeMap String Nat) (e : Nat × PendingOp) : BTreeMap String Nat :=
  match e.2 with
  | .delete id => pins.insert id e.1
  | .add _ => pins

/-- `apply_ops`, and whether it went through. -/
def tryApplyOps (f : Fate) (only : Option Nat) : IdxState × Bool :=
  if st.deferred.isEmpty then (st, true)
  else
    let goes := fun shard => only.all (· == shard)
    let go := st.deferred.filter fun e => goes e.1
    let keep := st.deferred.filter fun e => !goes e.1
    let st := { st with
      deferred := keep
      queuedShard := st.queuedShard.filter fun _ shard => !goes shard }
    if st.reachable f then
      let h := handing f.refuses 0 go
      ({ st with
        deferred := keep ++ h.left
        queuedShard := h.left.foldl repin st.queuedShard
        writer := true
        written := (h.taken.map Prod.snd).foldl hand st.written }, h.refused.isNone)
    else
      -- nothing was handed over, so nothing is lost by keeping it
      ({ st with deferred := keep ++ go }, false)

/-- `queue_op`, whose failed hand-over nobody hears of. -/
def tryQueueOp (f : Fate) (shard : Nat) (op : PendingOp) : IdxState :=
  let st := { st with deferred := st.deferred ++ [(shard, op)] }
  if deferredMaxOps ≤ st.deferred.length then (st.tryApplyOps f none).1 else st

/-- `queue_op_for`, with what may fail. -/
def tryQueueOpFor (f : Fate) (id : String) (shard : Nat) (op : PendingOp) : IdxState :=
  let shard := (st.queuedShard[id]?).getD shard
  { st with queuedShard := st.queuedShard.insert id shard }.tryQueueOp f shard op

end IdxState

/-! ## The loop -/

section Loop

variable {refuses : Nat → Bool} {n : Nat} {es : List (Nat × PendingOp)}

/-- What is handed over, refused and left are the whole of it. -/
theorem handing_parts (refuses : Nat → Bool) (n : Nat) (es : List (Nat × PendingOp)) :
    (handing refuses n es).taken ++ (handing refuses n es).refused.toList ++
      (handing refuses n es).left = es := by
  induction es generalizing n with
  | nil => rfl
  | cons e rest ih =>
    rw [handing]
    split
    · rfl
    · show e :: ((handing refuses (n + 1) rest).taken ++ _ ++ _) = e :: rest
      rw [ih]

/-- Nothing is left unless something was refused. -/
theorem handing_left (h : (handing refuses n es).refused = none) :
    (handing refuses n es).left = [] := by
  induction es generalizing n with
  | nil => rfl
  | cons e rest ih =>
    rw [handing] at h ⊢
    split at h
    · exact absurd h nofun
    case isFalse goesOn =>
      rw [if_neg goesOn]
      exact ih h

theorem handing_taken (h : (handing refuses n es).refused = none) :
    (handing refuses n es).taken = es := by
  have parts := handing_parts refuses n es
  rw [h, handing_left h] at parts
  simpa using parts

theorem handing_accepts (es : List (Nat × PendingOp)) (n : Nat) :
    (handing (fun _ => false) n es).refused = none := by
  induction es generalizing n with
  | nil => rfl
  | cons e rest ih =>
    rw [handing]
    split
    case isTrue refused => simp at refused
    case isFalse => exact ih (n + 1)

/-- An `Add` is refused where the writer refuses it. -/
theorem handing_refused_iff :
    (handing refuses n es).refused = none ↔
      ∀ i e, es[i]? = some e → e.2.isAdd = true → refuses (n + i) = false := by
  induction es generalizing n with
  | nil => simp [handing]
  | cons e rest ih =>
    rw [handing]
    split
    case isTrue refused =>
      obtain ⟨isAdd, refused⟩ : e.2.isAdd = true ∧ refuses n = true := by simpa using refused
      constructor
      · exact nofun
      · intro accepted
        have := accepted 0 e rfl isAdd
        simp [refused] at this
    case isFalse goesOn =>
      refine ih.trans ⟨fun accepted i => ?_, fun accepted i e' he' isAdd => ?_⟩
      · cases i with
        | zero =>
          intro e' he' isAdd
          obtain rfl : e = e' := by simpa using he'
          simpa [isAdd] using goesOn
        | succ i =>
          intro e' he' isAdd
          have := accepted i e' (by simpa using he') isAdd
          rwa [Nat.add_right_comm, Nat.add_assoc] at this
      · have := accepted (i + 1) e' (by simpa using he') isAdd
        rwa [← Nat.add_assoc, Nat.add_right_comm] at this

end Loop

namespace IdxState

variable {st : IdxState} {f : Fate} {only : Option Nat}

/-! ## One hand-over -/

/-- What is not asked for. -/
def staying (st : IdxState) (only : Option Nat) : List (Nat × PendingOp) :=
  st.deferred.filter fun e => !only.all (· == e.1)

/-- With a writer: what stays, and what is put back. -/
theorem tryApplyOps_reached (busy : st.deferred ≠ []) (reached : st.reachable f = true) :
    st.tryApplyOps f only = ({ st with
      deferred := st.staying only ++ (st.handingOver f only).left
      queuedShard := (st.handingOver f only).left.foldl repin
        (st.queuedShard.filter fun _ shard => !only.all (· == shard))
      writer := true
      written := ((st.handingOver f only).taken.map Prod.snd).foldl hand st.written },
      (st.handingOver f only).refused.isNone) := by
  have reached' := reached
  simp only [reachable] at reached'
  simp [tryApplyOps, busy, reachable, reached', handingOver, staying, going]

/-- Without one everything is put back. -/
theorem tryApplyOps_unreached (busy : st.deferred ≠ []) (unreached : st.reachable f = false) :
    st.tryApplyOps f only = ({ st with
      deferred := st.staying only ++ st.going only
      queuedShard := st.queuedShard.filter fun _ shard => !only.all (· == shard) }, false) := by
  have unreached' := unreached
  simp only [reachable] at unreached'
  simp [tryApplyOps, busy, reachable, unreached', staying, going]

theorem tryApplyOps_empty (empty : st.deferred = []) : st.tryApplyOps f only = (st, true) := by
  simp [tryApplyOps, empty]

theorem handingOver_empty (empty : st.deferred = []) : st.handingOver f only = {} := by
  rw [handingOver, going, empty]
  split <;> rfl

/-- Nothing is handed over twice. -/
theorem handingOver_parts (reached : st.reachable f = true) (only : Option Nat) :
    (st.handingOver f only).taken ++ (st.handingOver f only).refused.toList ++
      (st.handingOver f only).left = st.going only := by
  rw [handingOver, if_pos reached]
  exact handing_parts ..

/-- It works where there is a writer and it refuses nothing. -/
theorem tryApplyOps_ok_iff : (st.tryApplyOps f only).2 = true ↔ st.Takes f only := by
  rw [Takes]
  by_cases busy : st.deferred = []
  · simp [tryApplyOps_empty busy, busy]
  · cases reached : st.reachable f with
    | true => simp [tryApplyOps_reached busy reached, busy]
    | false => simp [tryApplyOps_unreached busy reached, busy]

/-- **A hand-over that nothing goes wrong in** is the one of the writer that never fails. -/
theorem tryApplyOps_takes (takes : st.Takes f only) :
    st.tryApplyOps f only = (st.applyOps only, true) := by
  rcases takes with empty | ⟨reached, accepted⟩
  · rw [tryApplyOps_empty empty, applyOps, empty]
    rfl
  · by_cases busy : st.deferred = []
    · rw [tryApplyOps_empty busy, applyOps, busy]
      rfl
    · have whole : st.handingOver f only = handing f.refuses 0 (st.going only) := by
        rw [handingOver, if_pos reached]
      have left : (st.handingOver f only).left = [] := whole ▸ handing_left (whole ▸ accepted)
      have taken : (st.handingOver f only).taken = st.going only :=
        whole ▸ handing_taken (whole ▸ accepted)
      rw [tryApplyOps_reached busy reached, accepted, left, taken, applyOps]
      simp [busy, staying, going]

/-! ## What a failed hand-over keeps -/

/-- Behind what the writer took stands, document by document, the rest of what was queued;
and handing that over leaves what handing over the whole queue once would have. -/
def KeepsQueue (st : IdxState) (f : Fate) (only : Option Nat) : Prop :=
  ∀ id,
    ((st.handingOver f only).taken ++ (st.tryApplyOps f only).1.deferred).filter (·.2.id == id) =
        st.deferred.filter (·.2.id == id) ∧
      docsOf ((st.tryApplyOps f only).1.applyOps none).written id =
        docsOf (st.applyOps none).written id

/-- No document is refused by a writer that can be reached; and without one, no document
has work that was to go ahead of work that stays. -/
def Spares (st : IdxState) (f : Fate) (only : Option Nat) : Prop :=
  if st.reachable f then
    ∀ i e, (st.going only)[i]? = some e → e.2.isAdd = true → f.refuses i = false
  else
    st.deferred.Pairwise fun e e' =>
      e.2.id = e'.2.id → only.all (· == e.1) = true → only.all (· == e'.1) = true

/-- Parting a list keeps its order where it was parted already. -/
theorem filter_parts_iff {α : Type} (p : α → Bool) (l : List α) :
    (l.filter fun a => !p a) ++ l.filter p = l ↔ l.Pairwise fun a b => p a = true → p b = true := by
  constructor
  · intro parts
    rw [← parts, List.pairwise_append]
    refine ⟨?_, ?_, ?_⟩
    · refine List.pairwise_of_forall_mem_list fun a ha _ _ passes => ?_
      simp [passes] at ha
    · exact List.pairwise_of_forall_mem_list fun _ _ b hb _ => (List.mem_filter.mp hb).2
    · exact fun _ _ b hb _ => (List.mem_filter.mp hb).2
  · intro sorted
    induction l with
    | nil => rfl
    | cons a l ih =>
      obtain ⟨first, sorted⟩ := List.pairwise_cons.mp sorted
      cases passes : p a with
      | true =>
        -- nothing behind `a` fails, so the list is all of it
        have all : ∀ b ∈ l, p b = true := fun b hb => first b hb passes
        rw [List.filter_cons_of_neg (by simp [passes]), List.filter_cons_of_pos passes,
          List.filter_eq_self.mpr all, List.filter_eq_nil_iff.mpr (by simpa using all),
          List.nil_append]
      | false =>
        rw [List.filter_cons_of_pos (by simp [passes]), List.filter_cons_of_neg (by simp [passes]),
          List.cons_append, ih sorted]

theorem unreached_filter (st : IdxState) (only : Option Nat) (id : String) :
    (st.staying only ++ st.going only).filter (·.2.id == id) =
        st.deferred.filter (·.2.id == id) ↔
      st.deferred.Pairwise fun e e' => e.2.id = id → e'.2.id = id →
        only.all (· == e.1) = true → only.all (· == e'.1) = true := by
  have here : (st.staying only ++ st.going only).filter (·.2.id == id) =
      ((st.deferred.filter (·.2.id == id)).filter fun e => !only.all (· == e.1)) ++
        (st.deferred.filter (·.2.id == id)).filter fun e => only.all (· == e.1) := by
    simp only [staying, going, List.filter_append, List.filter_filter, Bool.and_comm]
  rw [here, filter_parts_iff, List.pairwise_filter]
  simp only [beq_iff_eq]

/-- A queue that is put back in its order is kept. -/
theorem KeepsQueue.of_order (order : ∀ id,
    ((st.handingOver f only).taken ++ (st.tryApplyOps f only).1.deferred).filter (·.2.id == id) =
      st.deferred.filter (·.2.id == id)) : st.KeepsQueue f only := by
  refine fun id => ⟨order id, ?_⟩
  have written : (st.tryApplyOps f only).1.written =
      ((st.handingOver f only).taken.map Prod.snd).foldl hand st.written := by
    by_cases busy : st.deferred = []
    · rw [tryApplyOps_empty busy, handingOver_empty busy]
      rfl
    · cases reached : st.reachable f with
      | true => rw [tryApplyOps_reached busy reached]
      | false =>
        rw [tryApplyOps_unreached busy reached, handingOver, reached]
        rfl
  rw [applyOps_none_written, applyOps_none_written, settled, settled, written, ← List.foldl_append,
    ← List.map_append, docsOf_foldl, docsOf_foldl, List.filter_map, List.filter_map]
  have order : List.filter ((·.id == id) ∘ Prod.snd)
      ((st.handingOver f only).taken ++ (st.tryApplyOps f only).1.deferred) =
      List.filter ((·.id == id) ∘ Prod.snd) st.deferred := order id
  rw [order]

/-- An `Add` that was refused is in the queue no more. -/
theorem refused_lost (reached : st.reachable f = true) {e : Nat × PendingOp}
    (refused : (st.handingOver f only).refused = some e) : ¬ st.KeepsQueue f only := by
  intro keeps
  have busy : st.deferred ≠ [] := by
    intro empty
    simp [handingOver_empty empty] at refused
  have parts := handingOver_parts reached only
  have order := (keeps e.2.id).1
  rw [tryApplyOps_reached busy reached] at order
  -- one operation of the document fewer than there were
  have all : (st.deferred.filter (·.2.id == e.2.id)).length =
      ((st.staying only).filter (·.2.id == e.2.id)).length +
        ((st.going only).filter (·.2.id == e.2.id)).length := by
    rw [← List.length_append, ← List.filter_append]
    refine (List.Perm.length_eq (List.Perm.filter _ ?_)).symm
    rw [staying, going]
    exact (List.perm_append_comm).trans (List.filter_append_perm _ _)
  have lost := congrArg List.length order
  rw [all, ← parts, refused] at lost
  simp only [List.filter_append, List.length_append, Option.toList_some, beq_self_eq_true,
    List.filter_cons_of_pos, List.filter_nil, List.length_singleton] at lost
  omega

/-- **A failed hand-over** keeps all that the writer did not take, in order, exactly where
it failed for want of a writer and no document's work is queued apart. -/
theorem failed_flush_keeps_iff (st : IdxState) (f : Fate) (only : Option Nat) :
    ((st.tryApplyOps f only).2 = false → st.KeepsQueue f only) ↔ st.Spares f only := by
  rw [Spares]
  by_cases busy : st.deferred = []
  · simp [tryApplyOps_empty busy, busy, going]
  cases reached : st.reachable f with
  | true =>
    rw [if_pos rfl]
    have refusing : (st.handingOver f only).refused = none ↔
        ∀ i e, (st.going only)[i]? = some e → e.2.isAdd = true → f.refuses i = false := by
      rw [handingOver, if_pos reached, handing_refused_iff]
      simp only [Nat.zero_add]
    rw [← refusing, tryApplyOps_reached busy reached]
    cases refused : (st.handingOver f only).refused with
    | none => simp
    | some e => simpa using refused_lost reached refused
  | false =>
    rw [if_neg (by simp)]
    have nothing : (st.handingOver f only).taken = [] := by
      rw [handingOver, reached]
      rfl
    have order : st.KeepsQueue f only ↔ ∀ id,
        (st.staying only ++ st.going only).filter (·.2.id == id) =
          st.deferred.filter (·.2.id == id) := by
      constructor
      · intro keeps id
        have := (keeps id).1
        rwa [nothing, tryApplyOps_unreached busy reached] at this
      · intro order
        refine .of_order fun id => ?_
        rw [nothing, tryApplyOps_unreached busy reached]
        exact order id
    rw [tryApplyOps_unreached busy reached] at *
    simp only [forall_const, order, unreached_filter, List.pairwise_iff_forall_sublist]
    exact ⟨fun h e e' sub same => h e.2.id sub rfl same.symm,
      fun h id e e' sub he he' => h sub (he.trans he'.symm)⟩

def refusedDoc : IdxState :=
  { name := "books", deferred := [(0, .add { id := "1", source := "a", seq := 0, routing := none })] }

/-- The document the writer refused is gone from the queue, and nobody has it. -/
theorem refused_document_lost :
    (refusedDoc.tryApplyOps { refuses := fun _ => true } none).2 = false ∧
      ¬ refusedDoc.KeepsQueue { refuses := fun _ => true } none :=
  ⟨rfl, refused_lost rfl rfl⟩

end IdxState

/-! ## Queueing and handing over, step after step -/

/-- The index, with every operation that was queued and every one handed to the writer. -/
structure Flow where
  st : IdxState
  queued : List PendingOp := []
  handed : List PendingOp := []

/-- What happens to the queues of an index. -/
inductive QueueStep where
  | queue (shard : Nat) (op : PendingOp) (f : Fate)
  | flush (only : Option Nat) (f : Fate)
  | release (f : Fate)

/-- The operations of one document. -/
def opsOf (ops : List PendingOp) (id : String) : List PendingOp :=
  ops.filter (·.id == id)

namespace IdxState

/-- The operations a flush hands to the writer. -/
def handedOver (st : IdxState) (f : Fate) (only : Option Nat) : List PendingOp :=
  ((st.handingOver f only).taken ++ (st.handingOver f only).refused.toList).map Prod.snd

/-- An operation at the end of the queue, with its pin. -/
def pinnedOp (st : IdxState) (shard : Nat) (op : PendingOp) : IdxState :=
  { st with
    queuedShard := st.queuedShard.insert op.id ((st.queuedShard[op.id]?).getD shard)
    deferred := st.deferred ++ [((st.queuedShard[op.id]?).getD shard, op)] }

theorem tryQueueOpFor_eq (st : IdxState) (f : Fate) (shard : Nat) (op : PendingOp) :
    st.tryQueueOpFor f op.id shard op =
      if deferredMaxOps ≤ (st.pinnedOp shard op).deferred.length then
        ((st.pinnedOp shard op).tryApplyOps f none).1
      else st.pinnedOp shard op :=
  rfl

/-- `release_idle_writer`, of an index that has been quiet for long enough. -/
def tryRelease (st : IdxState) (f : Fate) : IdxState :=
  if !st.writer then st
  else if (st.tryApplyOps f none).2 && f.commits then
    { (st.tryApplyOps f none).1 with
      writer := false
      realtime := if f.reloads then (st.tryApplyOps f none).1.written else st.realtime
      pending := ∅, pendingSeq := ∅, pendingBytes := 0, translog := [], translogBytes := 0 }
  else (st.tryApplyOps f none).1

end IdxState

namespace Flow

variable {x : Flow}

/-- One step of the queue. -/
def step (x : Flow) : QueueStep → Flow
  | .queue shard op f =>
    { st := x.st.tryQueueOpFor f op.id shard op
      queued := x.queued ++ [op]
      handed := x.handed ++
        (if IdxState.deferredMaxOps ≤ (x.st.pinnedOp shard op).deferred.length then
          (x.st.pinnedOp shard op).handedOver f none
        else []) }
  | .flush only f =>
    { x with st := (x.st.tryApplyOps f only).1, handed := x.handed ++ x.st.handedOver f only }
  | .release f =>
    { x with
      st := x.st.tryRelease f
      handed := x.handed ++ (if x.st.writer then x.st.handedOver f none else []) }

/-- Several. -/
def run (x : Flow) (steps : List QueueStep) : Flow :=
  steps.foldl step x

/-- What is asked of a step, where it is taken. -/
def Finds (x : Flow) : QueueStep → Prop
  | .queue shard op _ =>
    x.st.queuedShard[op.id]? = none → ∀ e ∈ x.st.deferred, e.2.id = op.id → e.1 = shard
  | _ => True

/-- Every operation queued along a run does. -/
def AllFind (x : Flow) : List QueueStep → Prop
  | [] => True
  | s :: steps => x.Finds s ∧ (x.step s).AllFind steps

/-- A document's work is in one queue, the one it is pinned to if it is pinned, and what
the writer was handed of it is where what is queued of it begins. -/
structure Straight (x : Flow) : Prop where
  single : ∀ e ∈ x.st.deferred, ∀ e' ∈ x.st.deferred, e.2.id = e'.2.id → e.1 = e'.1
  pinned : ∀ e ∈ x.st.deferred, ∀ q, x.st.queuedShard[e.2.id]? = some q → e.1 = q
  order : ∀ id, opsOf x.handed id ++ opsOf (x.st.deferred.map Prod.snd) id = opsOf x.queued id

end Flow

namespace IdxState

variable {st : IdxState} {f : Fate} {only : Option Nat}

theorem mem_tryApplyOps {e : Nat × PendingOp} (he : e ∈ (st.tryApplyOps f only).1.deferred) :
    e ∈ st.deferred := by
  by_cases busy : st.deferred = []
  · rwa [tryApplyOps_empty busy] at he
  cases reached : st.reachable f with
  | true =>
    rw [tryApplyOps_reached busy reached] at he
    rcases List.mem_append.mp he with he | he
    · exact List.mem_of_mem_filter he
    · have parts := handingOver_parts reached only
      have : e ∈ st.going only := parts ▸ List.mem_append_right _ he
      exact List.mem_of_mem_filter this
  | false =>
    rw [tryApplyOps_unreached busy reached] at he
    rcases List.mem_append.mp he with he | he <;> exact List.mem_of_mem_filter he

theorem repin_foldl (es : List (Nat × PendingOp)) (pins : BTreeMap String Nat) {id : String}
    {q : Nat} (h : (es.foldl repin pins)[id]? = some q) :
    pins[id]? = some q ∨ ∃ e ∈ es, e.2.id = id ∧ e.1 = q := by
  induction es generalizing pins with
  | nil => exact .inl h
  | cons e es ih =>
    rcases ih (repin pins e) h with old | ⟨e', he', found⟩
    · obtain ⟨shard, op⟩ := e
      cases op with
      | add doc => exact .inl old
      | delete id' =>
        by_cases here : id' = id
        · subst here
          refine .inr ⟨_, List.mem_cons_self, rfl, ?_⟩
          simpa [repin] using old
        · left
          simpa [repin, Std.ExtTreeMap.getElem?_insert, here] using old
    · exact .inr ⟨e', List.mem_cons_of_mem _ he', found⟩

/-- What is pinned afterwards was pinned, or is in the queue. -/
theorem tryApplyOps_pins {id : String} {q : Nat}
    (h : (st.tryApplyOps f only).1.queuedShard[id]? = some q) :
    st.queuedShard[id]? = some q ∨ ∃ e ∈ st.deferred, e.2.id = id ∧ e.1 = q := by
  have kept : ∀ {pins : BTreeMap String Nat},
      (pins.filter fun _ shard => !only.all (· == shard))[id]? = some q → pins[id]? = some q := by
    intro pins h
    rw [Std.ExtTreeMap.getElem?_filter'] at h
    exact (Option.filter_eq_some_iff.mp h).1
  by_cases busy : st.deferred = []
  · rw [tryApplyOps_empty busy] at h
    exact .inl h
  cases reached : st.reachable f with
  | true =>
    rw [tryApplyOps_reached busy reached] at h
    rcases repin_foldl _ _ h with old | ⟨e, he, found⟩
    · exact .inl (kept old)
    · have parts := handingOver_parts reached only
      have : e ∈ st.going only := parts ▸ List.mem_append_right _ he
      exact .inr ⟨e, List.mem_of_mem_filter this, found⟩
  | false =>
    rw [tryApplyOps_unreached busy reached] at h
    exact .inl (kept h)

/-- A document's operations go together. -/
theorem goes_or_stays (only : Option Nat)
    (single : ∀ e ∈ st.deferred, ∀ e' ∈ st.deferred, e.2.id = e'.2.id → e.1 = e'.1) (id : String) :
    opsOf ((st.staying only).map Prod.snd) id = [] ∧
        opsOf ((st.going only).map Prod.snd) id = opsOf (st.deferred.map Prod.snd) id ∨
      opsOf ((st.going only).map Prod.snd) id = [] ∧
        opsOf ((st.staying only).map Prod.snd) id = opsOf (st.deferred.map Prod.snd) id := by
  have part : ∀ p : Nat × PendingOp → Bool, opsOf ((st.deferred.filter p).map Prod.snd) id =
      ((st.deferred.filter (·.2.id == id)).filter p).map Prod.snd := by
    intro p
    rw [opsOf, List.filter_map, List.filter_filter, List.filter_filter]
    simp only [Bool.and_comm, Function.comp_def]
  have whole : opsOf (st.deferred.map Prod.snd) id =
      (st.deferred.filter (·.2.id == id)).map Prod.snd := by
    rw [opsOf, List.filter_map]
    rfl
  rw [staying, going, part, part, whole]
  cases mine : st.deferred.filter (·.2.id == id) with
  | nil => simp
  | cons e rest =>
    rw [← mine]
    have he : e ∈ st.deferred.filter (·.2.id == id) := mine ▸ List.mem_cons_self
    have same : ∀ e' ∈ st.deferred.filter (·.2.id == id), e'.1 = e.1 := by
      intro e' he'
      simp only [List.mem_filter, beq_iff_eq] at he he'
      exact single e' he'.1 e he.1 (he'.2.trans he.2.symm)
    cases goes : only.all (· == e.1) with
    | true =>
      refine .inl ⟨?_, ?_⟩
      · rw [List.filter_eq_nil_iff.mpr fun e' he' => by simp [same e' he', goes]]
        rfl
      · rw [List.filter_eq_self.mpr fun e' he' => by simp [same e' he', goes]]
    | false =>
      refine .inr ⟨?_, ?_⟩
      · rw [List.filter_eq_nil_iff.mpr fun e' he' => by simp [same e' he', goes]]
        rfl
      · rw [List.filter_eq_self.mpr fun e' he' => by simp [same e' he', goes]]

/-- They go in their order. -/
theorem handedOver_order (f : Fate) (only : Option Nat)
    (single : ∀ e ∈ st.deferred, ∀ e' ∈ st.deferred, e.2.id = e'.2.id → e.1 = e'.1) (id : String) :
    opsOf (st.handedOver f only) id ++ opsOf ((st.tryApplyOps f only).1.deferred.map Prod.snd) id =
      opsOf (st.deferred.map Prod.snd) id := by
  by_cases busy : st.deferred = []
  · simp [tryApplyOps_empty busy, handedOver, handingOver_empty busy, opsOf]
  cases reached : st.reachable f with
  | true =>
    have parts := congrArg (fun l => opsOf (l.map Prod.snd) id)
      (handingOver_parts reached only)
    simp only [opsOf, List.map_append, List.filter_append] at parts
    rw [tryApplyOps_reached busy reached, handedOver]
    simp only [opsOf, List.map_append, List.filter_append]
    rcases goes_or_stays only single id with ⟨none, all⟩ | ⟨none, all⟩
    · simp only [opsOf] at none all
      rw [none, List.nil_append, parts, all]
    · simp only [opsOf] at none all
      rw [none] at parts
      obtain ⟨front, left⟩ := List.append_eq_nil_iff.mp parts
      rw [front, left, all, List.nil_append, List.append_nil]
  | false =>
    have nothing : st.handedOver f only = [] := by
      rw [handedOver, handingOver, reached]
      rfl
    rw [tryApplyOps_unreached busy reached, nothing]
    simp only [opsOf, List.map_append, List.filter_append, List.filter_nil, List.nil_append]
    rcases goes_or_stays only single id with ⟨none, all⟩ | ⟨none, all⟩
    · simp only [opsOf] at none all
      rw [none, all, List.nil_append]
    · simp only [opsOf] at none all
      rw [none, all, List.append_nil]

end IdxState

namespace Flow

variable {x : Flow}

/-- A flush keeps each document's operations in order. -/
theorem Straight.handOver (h : x.Straight) (f : Fate) (only : Option Nat) :
    Straight { x with
      st := (x.st.tryApplyOps f only).1, handed := x.handed ++ x.st.handedOver f only } where
  single e he e' he' same :=
    h.single e (IdxState.mem_tryApplyOps he) e' (IdxState.mem_tryApplyOps he') same
  pinned e he q hq := by
    have here := IdxState.mem_tryApplyOps he
    rcases IdxState.tryApplyOps_pins hq with pin | ⟨e', he', same, rfl⟩
    · exact h.pinned e here q pin
    · exact h.single e here e' he' same.symm
  order id := by
    have := h.order id
    rw [← this, ← IdxState.handedOver_order f only h.single id]
    simp only [opsOf, List.filter_append, List.append_assoc]

/-- So does a new one, which is behind the others. -/
theorem Straight.queued (h : x.Straight) {shard : Nat} {op : PendingOp} {f : Fate}
    (finds : x.Finds (.queue shard op f)) :
    Straight { x with st := x.st.pinnedOp shard op, queued := x.queued ++ [op] } := by
  -- the queue the operation goes to holds all the work of its document
  have queue : ∀ e ∈ x.st.deferred, e.2.id = op.id →
      e.1 = (x.st.queuedShard[op.id]?).getD shard := by
    intro e he same
    cases pin : x.st.queuedShard[op.id]? with
    | none => exact finds pin e he same
    | some q => exact h.pinned e he q (same ▸ pin)
  have holds : ∀ e ∈ (x.st.pinnedOp shard op).deferred, e.2.id = op.id →
      e.1 = (x.st.queuedShard[op.id]?).getD shard := by
    intro e he same
    rcases List.mem_append.mp he with he | he
    · exact queue e he same
    · rw [List.mem_singleton.mp he]
  have older : ∀ e ∈ (x.st.pinnedOp shard op).deferred, e.2.id ≠ op.id → e ∈ x.st.deferred := by
    intro e he other
    rcases List.mem_append.mp he with he | he
    · exact he
    · rw [List.mem_singleton.mp he] at other
      exact absurd rfl other
  refine ⟨fun e he e' he' same => ?_, fun e he q hq => ?_, fun id => ?_⟩
  · by_cases here : e.2.id = op.id
    · rw [holds e he here, holds e' he' (same ▸ here)]
    · exact h.single e (older e he here) e' (older e' he' (same ▸ here)) same
  · by_cases here : e.2.id = op.id
    · have pin : (x.st.pinnedOp shard op).queuedShard[op.id]? =
          some ((x.st.queuedShard[op.id]?).getD shard) := by simp [IdxState.pinnedOp]
      rw [here] at hq
      rw [holds e he here, Option.some.inj (pin.symm.trans hq)]
    · refine h.pinned e (older e he here) q ?_
      have other : op.id ≠ e.2.id := fun eq => here eq.symm
      simpa [IdxState.pinnedOp, Std.ExtTreeMap.getElem?_insert, other] using hq
  · simp only [opsOf, IdxState.pinnedOp, List.map_append, List.filter_append]
    rw [← List.append_assoc]
    exact congrArg (· ++ _) (h.order id)

/-- **A step keeps every document's work straight**, where an operation finds its queue. -/
theorem Straight.step (h : x.Straight) {s : QueueStep} (finds : x.Finds s) :
    (x.step s).Straight := by
  cases s with
  | queue shard op f =>
    have queued := h.queued finds
    rw [Flow.step, IdxState.tryQueueOpFor_eq]
    split
    · exact queued.handOver f none
    · simpa using queued
  | flush only f => exact h.handOver f only
  | release f =>
    rw [Flow.step, IdxState.tryRelease]
    cases writer : x.st.writer with
    | false => simpa using h
    | true =>
      have handed := h.handOver f none
      simp only [Bool.not_true, Bool.false_eq_true, if_false, if_true]
      split
      · exact ⟨handed.single, handed.pinned, handed.order⟩
      · exact handed

/-- Every run does. -/
theorem Straight.run (h : x.Straight) {steps : List QueueStep} (finds : x.AllFind steps) :
    (x.run steps).Straight := by
  induction steps generalizing x with
  | nil => exact h
  | cons s steps ih => exact ih (h.step finds.1) finds.2

/-- **Per-document order**: from an empty queue, through any operations that find their
queue, hand-overs of one shard or of all and failures of the writer, a document's work
waits in one queue, and the writer is handed it in the order it was queued in. -/
theorem flow_stays_straight (st : IdxState) (empty : st.deferred = []) (steps : List QueueStep)
    (finds : AllFind { st } steps) :
    (∀ e ∈ (run { st } steps).st.deferred, ∀ e' ∈ (run { st } steps).st.deferred,
      e.2.id = e'.2.id → e.1 = e'.1) ∧
    ∀ id, opsOf (run { st } steps).handed id ++
      opsOf ((run { st } steps).st.deferred.map Prod.snd) id =
        opsOf (run { st } steps).queued id := by
  have start : Straight { st } := by
    refine ⟨?_, ?_, ?_⟩ <;> simp [empty, opsOf]
  have straight := start.run finds
  exact ⟨straight.single, straight.order⟩

def moved : List QueueStep :=
  [.queue 0 (.add { id := "1", source := "a", seq := 0, routing := none }) {},
    .queue 1 (.delete "1") {}, .flush (some 0) {}]

theorem flow_stays_straight_moved :
    (run { st := { name := "books" } } moved).handed.length = 2 ∧
      opsOf (run { st := { name := "books" } } moved).handed "1" ++
        opsOf ((run { st := { name := "books" } } moved).st.deferred.map Prod.snd) "1" =
          opsOf (run { st := { name := "books" } } moved).queued "1" := by
  refine ⟨by decide +kernel, (flow_stays_straight _ rfl moved ⟨?_, ?_, trivial, trivial⟩).2 "1"⟩
  · intro _ e he
    exact absurd he List.not_mem_nil
  · intro unpinned
    exact absurd unpinned (by decide +kernel)

def unpinned : List QueueStep :=
  [.queue 0 (.add { id := "1", source := "a", seq := 0, routing := none }) {},
    .flush none { opens := false }, .queue 1 (.delete "1") {}]

/-- What is put back is not pinned: the next operation goes to another queue, and a
refresh of that one hands the writer the delete before the document. -/
theorem failed_flush_reorders :
    (∃ e ∈ (run { st := { name := "books" } } unpinned).st.deferred,
      ∃ e' ∈ (run { st := { name := "books" } } unpinned).st.deferred,
        e.2.id = e'.2.id ∧ e.1 ≠ e'.1) ∧
    ¬ opsOf (run { st := { name := "books" } } (unpinned ++ [.flush (some 1) {}])).handed "1" <+:
      opsOf (run { st := { name := "books" } } (unpinned ++ [.flush (some 1) {}])).queued "1" := by
  decide +kernel

end Flow

end Velosearch.Index

import Mathlib.Data.List.Basic
import Mathlib.Logic.Function.Basic
import Mathlib.Data.Nat.Notation

/-!
# A restore among other requests

`restore_snapshot` looks at the names it will write to, reads the repository, and only then sets
closed indices aside and makes the new ones; whatever fails, what it made is deleted by name and
what it set aside is put back. Other requests run between any two of its steps.
-/

namespace Velosearch
namespace Restoring

variable {Docs : Type}

abbrev Name := List Char

/-- An index of the cluster. -/
structure Index (Docs : Type) where
  uuid : ℕ
  closed : Bool
  docs : Docs
  made : Bool
deriving DecidableEq

/-- What a restored index takes the place of. -/
inductive Replaces where
  | nothing
  | closedHere
  | closedElsewhere (uuid : ℕ)
deriving DecidableEq

/-- An index of `made`: its name, and what was set aside for it. -/
abbrev Made (Docs : Type) := Name × Option (Index Docs)

/-- Where a restore is, with what is still to do and what it has made so far. -/
inductive Phase (Docs : Type) where
  | checking (todo : List Name) (steps : List (Name × Replaces))
  | reopening (todo : List (Name × Replaces))
  | preparing (todo : List (Name × Replaces)) (made : List (Made Docs))
  | clearing (target : Name) (replaces : Replaces) (todo : List (Name × Replaces))
      (made : List (Made Docs))
  | creating (target : Name) (aside : Option (Index Docs)) (todo : List (Name × Replaces))
      (made : List (Made Docs))
  | filling (target : Name) (aside : Option (Index Docs)) (todo : List (Name × Replaces))
      (made : List (Made Docs))
  | finishing (made : List (Made Docs))
  | deleting (undo : List (Made Docs))
  | dropping (target : Name) (aside : Index Docs) (undo : List (Made Docs))
  | inserting (target : Name) (aside : Index Docs) (undo : List (Made Docs))
  | restored
  | failed

/-- The cluster as the node sees it. -/
structure World (Docs : Type) where
  held : Name → Option (Index Docs)
  elsewhere : Name → Option (Index Docs)
  indicesForAlias : Name → List Name
  backingIndices : Name → List Name
  phase : Phase Docs
  foreign : Name → List (Index Docs)
  remote : Name → Option (Index Docs)

/-! ## The store -/

/-- `Store::resolve` of a plain name -/
def World.resolve (w : World Docs) (name : Name) : List Name :=
  if (w.held name).isSome then [name]
  else if w.backingIndices name = [] then w.indicesForAlias name
  else w.backingIndices name

/-- A deletion takes whatever the name stands for. -/
def World.delete (w : World Docs) (name : Name) : World Docs :=
  { w with held := fun n => if n ∈ w.resolve name then none else w.held n }

/-- The index of a name is replaced. -/
def World.put (w : World Docs) (name : Name) (index : Option (Index Docs)) : World Docs :=
  { w with held := Function.update w.held name index }

/-! ## The restore -/

/-- What `restore_snapshot` finds under a target, or `none` where it refuses. -/
def World.replaces (w : World Docs) (target : Name) : Option Replaces :=
  if 1 < (w.resolve target).length ∨ w.indicesForAlias target ≠ [] then none
  else match w.held target with
    | some index => if index.closed then some .closedHere else none
    | none => match w.elsewhere target with
      | some index => if index.closed then some (.closedElsewhere index.uuid) else none
      | none => some .nothing

/-- An index the restore makes. -/
def fresh (uuid : ℕ) (docs : Docs) : Index Docs :=
  { uuid, closed := false, docs, made := true }

/-- One step of a restore. -/
def World.advance (source : Bool) (w : World Docs) (ok : Bool) (uuid : ℕ) (docs : Docs) :
    World Docs :=
  match w.phase with
  | .checking (t :: todo) steps =>
    -- a name that is refused, or a repository that cannot be read
    if ok = false then { w with phase := .failed }
    else match w.replaces t with
      | none => { w with phase := .failed }
      | some r =>
        if source = false ∧ r = .nothing then { w with phase := .checking todo steps }
        else { w with phase := .checking todo (steps ++ [(t, r)]) }
  | .checking [] steps =>
    if source then { w with phase := .preparing steps [] }
    else { w with phase := .reopening steps }
  | .reopening ((t, _) :: todo) =>
    { w.put t ((w.held t).map fun index => { index with closed := false }) with
      phase := .reopening todo }
  | .reopening [] => { w with phase := .restored }
  | .preparing ((t, r) :: todo) made =>
    if ok then { w with phase := .clearing t r todo made }
    else { w with phase := .deleting made.reverse }
  | .preparing [] made => { w with phase := .finishing made }
  | .clearing t .nothing todo made => { w with phase := .creating t none todo made }
  | .clearing t .closedHere todo made =>
    match w.held t with
    | some index =>
      if index.closed then { w.put t none with phase := .creating t (some index) todo made }
      else { w with phase := .deleting made.reverse }
    | none => { w with phase := .deleting made.reverse }
  | .clearing t (.closedElsewhere old) todo made =>
    -- `tombstone`: the other nodes let the index go
    { w with
      elsewhere := Function.update w.elsewhere t
        ((w.elsewhere t).filter fun index => index.uuid != old)
      phase := .creating t none todo made }
  | .creating t aside todo made =>
    if ok = false ∨ (w.held t).isSome then
      { w with phase := .deleting ((t, aside) :: made.reverse) }
    else { w.put t (some (fresh uuid docs)) with phase := .filling t aside todo made }
  | .filling t aside todo made =>
    if ok then { w with phase := .preparing todo (made ++ [(t, aside)]) }
    else { w with phase := .deleting ((t, aside) :: made.reverse) }
  | .finishing ((t, _) :: made) =>
    { w.put t ((w.held t).map fun index => { index with closed := false }) with
      phase := .finishing made }
  | .finishing [] => { w with phase := .restored }
  | .deleting ((t, none) :: undo) => { w.delete t with phase := .deleting undo }
  | .deleting ((t, some aside) :: undo) => { w.delete t with phase := .dropping t aside undo }
  | .deleting [] => { w with phase := .failed }
  | .dropping t aside undo => { w.delete t with phase := .inserting t aside undo }
  | .inserting t aside undo => { w.put t (some aside) with phase := .deleting undo }
  | .restored => w
  | .failed => w

/-! ## The other requests -/

/-- What another request does to the indices of the cluster. -/
inductive Request (Docs : Type) where
  | create (name : Name) (uuid : ℕ) (docs : Docs)
  | delete (names : List Name)
  | setClosed (name : Name) (closed : Bool)
  | write (name : Name) (docs : Docs)
  | setAlias (name : Name) (names : List Name)
  | setStream (name : Name) (names : List Name)
  | onOthers (name : Name) (index : Option (Index Docs))

namespace Request

/-- What a request makes of the index of a name. -/
def on (name : Name) (held : Option (Index Docs)) : Request Docs → Option (Index Docs)
  | create n uuid docs =>
    if name = n then held.or (some { uuid, closed := false, docs, made := false }) else held
  | delete names => if name ∈ names then none else held
  | setClosed n closed =>
    if name = n then held.map fun index => { index with closed } else held
  | write n docs => if name = n then held.map fun index => { index with docs } else held
  | _ => held

/-- The request met, and what it did to indices the restore did not make kept beside it. -/
def run [DecidableEq Docs] (w : World Docs) (r : Request Docs) : World Docs :=
  { w with
    held := fun n => r.on n (w.held n)
    elsewhere := match r with
      | onOthers n index => Function.update w.elsewhere n index
      | _ => w.elsewhere
    indicesForAlias := match r with
      | setAlias n names => Function.update w.indicesForAlias n names
      | _ => w.indicesForAlias
    backingIndices := match r with
      | setStream n names => Function.update w.backingIndices n names
      | _ => w.backingIndices
    foreign := fun n => match w.held n with
      | some index =>
        if index.made then w.foreign n
        else (w.foreign n).erase index ++ (r.on n (w.held n)).toList
      | none => w.foreign n ++ (r.on n (w.held n)).toList
    remote := match r with
      | onOthers n index => Function.update w.remote n index
      | _ => w.remote }

end Request

/-! ## Runs -/

/-- A request of another caller, or the next step of the restore. -/
inductive Event (Docs : Type) where
  | request (r : Request Docs)
  | go (ok : Bool) (uuid : ℕ) (docs : Docs)

/-- One event. -/
def Event.apply [DecidableEq Docs] (source : Bool) (w : World Docs) : Event Docs → World Docs
  | request r => r.run w
  | go ok uuid docs => w.advance source ok uuid docs

/-- Every index of the cluster is as the other requests left it. -/
def AsItWas (w : World Docs) : Prop :=
  (∀ n, w.foreign n = (w.held n).toList) ∧ w.elsewhere = w.remote

/-! ## When a restore is all or nothing -/

/-- The indices made so far, with what was set aside for each. -/
def Phase.entries : Phase Docs → List (Made Docs)
  | preparing _ made => made.reverse
  | clearing _ _ _ made => made.reverse
  | creating t aside _ made => (t, aside) :: made.reverse
  | filling t aside _ made => (t, aside) :: made.reverse
  | deleting undo => undo
  | dropping t aside undo => (t, some aside) :: undo
  | inserting t aside undo => (t, some aside) :: undo
  | _ => []

/-- The indices that passed the checks. -/
def Phase.steps : Phase Docs → List (Name × Replaces)
  | checking _ steps => steps
  | preparing todo _ => todo
  | clearing t r todo _ => (t, r) :: todo
  | creating _ _ todo _ => todo
  | filling _ _ todo _ => todo
  | _ => []

/-- The name is one the restore makes or has made. -/
def Phase.Claims (p : Phase Docs) (n : Name) : Prop :=
  (n, Replaces.nothing) ∈ p.steps ∨ n ∈ p.entries.map Prod.fst

/-- The request does nothing to the index of the name. -/
def Request.Spares (n : Name) : Request Docs → Prop
  | create name _ _ => name ≠ n
  | setClosed name closed => name = n → closed = false
  | setAlias name names => name = n → names = []
  | setStream name names => name = n → names = []
  | _ => True

/-- Other callers keep off the names the restore has claimed. -/
def Event.Fair (w : World Docs) : Event Docs → Prop
  | request r => ∀ n, w.phase.Claims n → r.Spares n
  | go _ _ _ => match w.phase with
    | .checking (t :: _) _ =>
      w.backingIndices t = [] ∧ ∀ index, w.elsewhere t = some index → index.closed = false
    | .clearing t .closedHere _ _ => w.indicesForAlias t = [] ∧ w.backingIndices t = []
    | _ => True

/-- Every event of a run is fair where it happens. -/
def Fairly [DecidableEq Docs] (source : Bool) (w : World Docs) : List (Event Docs) → Prop
  | [] => True
  | e :: rest => e.Fair w ∧ Fairly source (e.apply source w) rest

/-! ## What is kept of the other indices -/

/-- What was set aside for a name. -/
def asides (entries : List (Made Docs)) (n : Name) : List (Index Docs) :=
  entries.filterMap fun e => if e.1 = n then e.2 else none

/-- An index that is not the restore's own. -/
def part (held : Option (Index Docs)) : List (Index Docs) :=
  held.toList.filter fun index => !index.made

@[simp] theorem asides_cons_none (t : Name) (entries : List (Made Docs)) (n : Name) :
    asides ((t, none) :: entries) n = asides entries n := by
  simp [asides]

theorem asides_cons_same (t : Name) (index : Index Docs) (entries : List (Made Docs)) :
    asides ((t, some index) :: entries) t = index :: asides entries t := by
  simp [asides]

theorem asides_cons_other {t n : Name} (other : n ≠ t) (aside : Option (Index Docs))
    (entries : List (Made Docs)) : asides ((t, aside) :: entries) n = asides entries n := by
  simp [asides, Ne.symm other]

theorem asides_eq_nil {n : Name} {entries : List (Made Docs)}
    (h : n ∉ entries.map Prod.fst) : asides entries n = [] := by
  refine List.filterMap_eq_nil_iff.mpr fun e mem => ?_
  rw [if_neg]
  rintro rfl
  exact h (List.mem_map_of_mem mem)

@[simp] theorem part_none : part (none : Option (Index Docs)) = [] := rfl

theorem part_own {held : Option (Index Docs)}
    (h : ∀ index, held = some index → index.made = true) : part held = [] := by
  cases held with
  | none => rfl
  | some index => simp [part, h index rfl]

theorem part_foreign {index : Index Docs} (h : index.made = false) : part (some index) = [index] := by
  simp [part, h]

/-- Nothing of the others is lost: it is in the map or set aside, and the names the restore
claims hold only its own. -/
structure Kept (w : World Docs) : Prop where
  foreign : ∀ n, w.foreign n = asides w.phase.entries n ++ part (w.held n)
  own : ∀ n index, w.held n = some index → index.made = true →
    n ∈ w.phase.entries.map Prod.fst ∧ index.closed = false
  claimed : ∀ n, w.phase.Claims n → (∀ index, w.held n = some index → index.made = true) ∧
    w.indicesForAlias n = [] ∧ w.backingIndices n = []
  first : w.phase.entries.Pairwise fun e e' => e.2.isSome → e.1 ≠ e'.1
  aside : ∀ n index, (n, some index) ∈ w.phase.entries → index.made = false
  here : ∀ n uuid, (n, Replaces.closedElsewhere uuid) ∉ w.phase.steps
  remote : w.elsewhere = w.remote

namespace Kept

variable {w : World Docs}

theorem move (h : Kept w) {t : Name} {c : Option (Index Docs)} {p : Phase Docs}
    (foreign : asides p.entries t ++ part c = asides w.phase.entries t ++ part (w.held t))
    (others : ∀ n, n ≠ t → asides p.entries n = asides w.phase.entries n)
    (own : ∀ n, n ≠ t → n ∈ w.phase.entries.map Prod.fst → n ∈ p.entries.map Prod.fst)
    (ownHere : ∀ index, c = some index → index.made = true →
      t ∈ p.entries.map Prod.fst ∧ index.closed = false)
    (claims : ∀ n, n ≠ t → p.Claims n → w.phase.Claims n)
    (claimsHere : p.Claims t → (∀ index, c = some index → index.made = true) ∧
      w.indicesForAlias t = [] ∧ w.backingIndices t = [])
    (first : p.entries.Pairwise fun e e' => e.2.isSome → e.1 ≠ e'.1)
    (aside : ∀ n index, (n, some index) ∈ p.entries → index.made = false)
    (steps : ∀ e, e ∈ p.steps → e ∈ w.phase.steps) :
    Kept { w.put t c with phase := p } := by
  refine ⟨fun n => ?_, fun n index => ?_, fun n => ?_, first, aside,
    fun n uuid mem => h.here n uuid (steps _ mem), h.remote⟩
  · show w.foreign n = asides p.entries n ++ part (Function.update w.held t c n)
    rw [h.foreign n]
    by_cases same : n = t
    · subst same
      rw [Function.update_self, foreign]
    · rw [Function.update_of_ne same, others n same]
  · show Function.update w.held t c n = some index → _
    by_cases same : n = t
    · subst same
      rw [Function.update_self]
      exact ownHere index
    · rw [Function.update_of_ne same]
      intro held made
      exact ⟨own n same (h.own n index held made).1, (h.own n index held made).2⟩
  · show p.Claims n → (∀ index, Function.update w.held t c n = some index → _) ∧ _
    by_cases same : n = t
    · subst same
      rw [Function.update_self]
      exact claimsHere
    · rw [Function.update_of_ne same]
      exact fun claimed => h.claimed n (claims n same claimed)

theorem rephase (h : Kept w) {p : Phase Docs}
    (entries : ∀ n, asides p.entries n = asides w.phase.entries n)
    (own : ∀ n, n ∈ w.phase.entries.map Prod.fst → n ∈ p.entries.map Prod.fst)
    (claims : ∀ n, p.Claims n → w.phase.Claims n)
    (first : p.entries.Pairwise fun e e' => e.2.isSome → e.1 ≠ e'.1)
    (aside : ∀ n index, (n, some index) ∈ p.entries → index.made = false)
    (steps : ∀ e, e ∈ p.steps → e ∈ w.phase.steps) : Kept { w with phase := p } :=
  ⟨fun n => (h.foreign n).trans (by rw [← entries n]),
    fun n index held made => ⟨own n (h.own n index held made).1, (h.own n index held made).2⟩,
    fun n claimed => h.claimed n (claims n claimed), first, aside,
    fun n uuid mem => h.here n uuid (steps _ mem), h.remote⟩

theorem rephase_same (h : Kept w) {p : Phase Docs} (entries : p.entries = w.phase.entries)
    (steps : ∀ e, e ∈ p.steps → e ∈ w.phase.steps) : Kept { w with phase := p } := by
  refine h.rephase (fun n => by rw [entries]) (fun n mem => by rwa [entries]) (fun n claimed => ?_)
    (by rw [entries]; exact h.first) (fun n index mem => h.aside n index (entries ▸ mem)) steps
  rcases claimed with pending | listed
  · exact .inl (steps _ pending)
  · exact .inr (entries ▸ listed)

/-- What the undo deletes is the index of that name alone. -/
theorem delete_claimed (h : Kept w) {t : Name} (claimed : w.phase.Claims t) :
    w.delete t = w.put t none := by
  obtain ⟨-, noAlias, noStream⟩ := h.claimed t claimed
  unfold World.delete World.put World.resolve
  congr 1
  funext n
  by_cases same : n = t
  · subst same
    rw [Function.update_self]
    cases held : w.held n with
    | none => simp
    | some index => simp
  · rw [Function.update_of_ne same]
    cases held : w.held t with
    | none => simp [noAlias, noStream]
    | some index => simp [same]

theorem clear (h : Kept w) {t : Name} (claimed : w.phase.Claims t) {p : Phase Docs}
    (entries : p.entries = w.phase.entries ∨ w.phase.entries = (t, none) :: p.entries)
    (steps : p.steps = []) : Kept { w.delete t with phase := p } := by
  obtain ⟨own, noAlias, noStream⟩ := h.claimed t claimed
  have sub : ∀ e, e ∈ p.entries → e ∈ w.phase.entries := by
    intro e mem
    rcases entries with same | shorter
    · exact same ▸ mem
    · rw [shorter]
      exact List.mem_cons_of_mem _ mem
  have same : ∀ n, asides p.entries n = asides w.phase.entries n := by
    intro n
    rcases entries with same | shorter
    · rw [same]
    · rw [shorter, asides_cons_none]
  rw [h.delete_claimed claimed]
  refine h.move ?_ (fun n _ => same n) ?_ ?_ ?_ ?_ ?_ (fun n index mem => h.aside n index (sub _ mem))
    fun e mem => by rw [steps] at mem; cases mem
  · rw [same t, part_own own, part_none]
  · intro n other listed
    rcases entries with same | shorter
    · rwa [same]
    · rw [shorter, List.map_cons, List.mem_cons] at listed
      exact listed.resolve_left other
  · intro index none
    cases none
  · intro n _ claims
    rcases claims with pending | listed
    · rw [steps] at pending
      cases pending
    · obtain ⟨e, mem, rfl⟩ := List.mem_map.mp listed
      exact .inr (List.mem_map_of_mem (sub e mem))
  · intro _
    exact ⟨fun index none => (by cases none), noAlias, noStream⟩
  · rcases entries with same | shorter
    · rw [same]
      exact h.first
    · have := h.first
      rw [shorter] at this
      exact (List.pairwise_cons.mp this).2

theorem checked (h : Kept w) {t : Name} {todo : List Name} {steps : List (Name × Replaces)}
    (phase : w.phase = .checking (t :: todo) steps) {r : Replaces} (found : w.replaces t = some r)
    (noStream : w.backingIndices t = [])
    (open_ : ∀ index, w.elsewhere t = some index → index.closed = false) :
    Kept { w with phase := .checking todo (steps ++ [(t, r)]) } := by
  have noAlias : w.indicesForAlias t = [] := by
    unfold World.replaces at found
    split at found
    · cases found
    case isFalse few => exact by_contra fun some_ => few (.inr some_)
  -- a target that is nowhere is free, and one that is only elsewhere is refused
  have free : r = .nothing → w.held t = none := by
    rintro rfl
    unfold World.replaces at found
    split at found
    · cases found
    · split at found
      · split at found <;> cases found
      · assumption
  have here : ∀ uuid, r ≠ .closedElsewhere uuid := by
    rintro uuid rfl
    unfold World.replaces at found
    split at found
    · cases found
    · split at found
      · split at found <;> cases found
      · split at found
        case _ index held =>
          split at found
          case isTrue closed =>
            rw [open_ index held] at closed
            cases closed
          · cases found
        · cases found
  have noEntries : w.phase.entries = [] := by rw [phase]; rfl
  have wasSteps : w.phase.steps = steps := by rw [phase]; rfl
  refine ⟨fun n => ?_, fun n index held made => ?_, fun n claims => ?_, .nil, ?_, ?_, h.remote⟩
  · rw [h.foreign n, noEntries]
    rfl
  · have := (h.own n index held made).1
    rw [noEntries] at this
    cases this
  · rcases claims with pending | listed
    · rcases List.mem_append.mp pending with before | last
      · exact h.claimed n (.inl (wasSteps ▸ before))
      · rw [List.mem_singleton, Prod.mk.injEq] at last
        obtain ⟨rfl, rfl⟩ := last
        refine ⟨fun index held => ?_, noAlias, noStream⟩
        change w.held n = some index at held
        rw [free rfl] at held
        cases held
    · cases listed
  · rintro n index ⟨⟩
  · intro n uuid mem
    rcases List.mem_append.mp mem with before | last
    · exact h.here n uuid (wasSteps ▸ before)
    · rw [List.mem_singleton, Prod.mk.injEq] at last
      exact here uuid last.2.symm

theorem setAside (h : Kept w) {t : Name} {todo : List (Name × Replaces)} {made : List (Made Docs)}
    (phase : w.phase = .clearing t .closedHere todo made) {index : Index Docs}
    (held : w.held t = some index) (closed : index.closed = true)
    (noAlias : w.indicesForAlias t = []) (noStream : w.backingIndices t = []) :
    Kept { w.put t none with phase := .creating t (some index) todo made } := by
  have foreign : index.made = false := by
    cases own : index.made with
    | false => rfl
    | true =>
      rw [(h.own t index held own).2] at closed
      cases closed
  have free : ¬ w.phase.Claims t := fun claims => by
    rw [(h.claimed t claims).1 index held] at foreign
    cases foreign
  have wasEntries : w.phase.entries = made.reverse := by rw [phase]; rfl
  have wasSteps : w.phase.steps = (t, .closedHere) :: todo := by rw [phase]; rfl
  have fresh : t ∉ made.reverse.map Prod.fst := fun listed => free (.inr (wasEntries ▸ listed))
  refine h.move ?_ ?_ ?_ ?_ ?_ ?_ ?_ ?_ ?_
  · rw [wasEntries, held, part_foreign foreign]
    show asides ((t, some index) :: made.reverse) t ++ [] = _
    rw [asides_cons_same, asides_eq_nil fresh]
    rfl
  · intro n other
    rw [wasEntries]
    exact asides_cons_other other _ _
  · intro n _ listed
    rw [wasEntries] at listed
    exact List.mem_cons_of_mem _ listed
  · intro index none
    cases none
  · intro n other claims
    rcases claims with pending | listed
    · exact .inl (wasSteps ▸ List.mem_cons_of_mem _ pending)
    · refine .inr ?_
      rw [wasEntries]
      exact (List.mem_cons.mp listed).resolve_left other
  · intro _
    exact ⟨fun index none => (by cases none), noAlias, noStream⟩
  · refine List.pairwise_cons.mpr ⟨fun e mem _ same => ?_, wasEntries ▸ h.first⟩
    exact fresh (List.mem_map.mpr ⟨e, mem, same.symm⟩)
  · intro n other mem
    rcases List.mem_cons.mp mem with here | before
    · cases here
      exact foreign
    · exact h.aside n other (wasEntries ▸ before)
  · intro e mem
    rw [wasSteps]
    exact List.mem_cons_of_mem _ mem

theorem created (h : Kept w) {t : Name} {aside : Option (Index Docs)}
    {todo : List (Name × Replaces)} {made : List (Made Docs)}
    (phase : w.phase = .creating t aside todo made) (free : w.held t = none) (uuid : ℕ)
    (docs : Docs) :
    Kept { w.put t (some (fresh uuid docs)) with phase := .filling t aside todo made } := by
  have wasEntries : w.phase.entries = (t, aside) :: made.reverse := by rw [phase]; rfl
  have wasSteps : w.phase.steps = todo := by rw [phase]; rfl
  have listed : t ∈ w.phase.entries.map Prod.fst := by
    rw [wasEntries]
    exact List.mem_cons_self
  have first := h.first
  rw [wasEntries] at first
  refine h.move ?_ (fun n _ => by rw [wasEntries]; rfl) (fun n _ mem => by rwa [wasEntries] at mem)
    ?_ ?_ ?_ first (fun n index mem => h.aside n index (wasEntries ▸ mem))
    fun e mem => wasSteps ▸ mem
  · rw [wasEntries, free]
    rfl
  · rintro index ⟨⟩ -
    exact ⟨List.mem_cons_self, rfl⟩
  · intro n _ claims
    rcases claims with pending | mem
    · exact .inl (wasSteps ▸ pending)
    · exact .inr (wasEntries ▸ mem)
  · intro _
    refine ⟨?_, (h.claimed t (.inr listed)).2⟩
    rintro index ⟨⟩
    rfl

theorem inserted (h : Kept w) {t : Name} {index : Index Docs} {undo : List (Made Docs)}
    (phase : w.phase = .inserting t index undo) :
    Kept { w.put t (some index) with phase := .deleting undo } := by
  have wasEntries : w.phase.entries = (t, some index) :: undo := by rw [phase]; rfl
  have foreign : index.made = false := h.aside t index (wasEntries ▸ List.mem_cons_self)
  have first := h.first
  rw [wasEntries, List.pairwise_cons] at first
  have fresh : t ∉ undo.map Prod.fst := by
    intro listed
    obtain ⟨e, mem, same⟩ := List.mem_map.mp listed
    exact first.1 e mem rfl same.symm
  have own : ∀ held, w.held t = some held → held.made = true :=
    (h.claimed t (.inr (by rw [wasEntries]; exact List.mem_cons_self))).1
  refine h.move ?_ ?_ ?_ ?_ ?_ ?_ first.2 ?_ ?_
  · rw [wasEntries, part_own own, part_foreign foreign, asides_cons_same]
    show asides undo t ++ [index] = _
    rw [asides_eq_nil fresh]
    rfl
  · intro n other
    rw [wasEntries, asides_cons_other other]
    rfl
  · intro n other listed
    rw [wasEntries] at listed
    exact (List.mem_cons.mp listed).resolve_left other
  · rintro held ⟨⟩ made
    rw [foreign] at made
    cases made
  · intro n _ claims
    rcases claims with pending | listed
    · cases pending
    · exact .inr (wasEntries ▸ List.mem_cons_of_mem _ listed)
  · rintro (pending | listed)
    · cases pending
    · exact absurd listed fresh
  · intro n other mem
    exact h.aside n other (wasEntries ▸ List.mem_cons_of_mem _ mem)
  · rintro e ⟨⟩

end Kept

/-! ## A step -/

/-- Only success is left. -/
def Phase.succeeds : Phase Docs → Bool
  | reopening _ => true
  | finishing _ => true
  | restored => true
  | _ => false

/-- From there on nothing is undone. -/
theorem succeeds_advance {source : Bool} {w : World Docs} (h : w.phase.succeeds = true) (ok : Bool)
    (uuid : ℕ) (docs : Docs) : (w.advance source ok uuid docs).phase.succeeds = true := by
  unfold World.advance
  cases phase : w.phase with
  | reopening todo => cases todo <;> rfl
  | finishing made => cases made <;> rfl
  | restored =>
    dsimp only
    rw [phase]
    rfl
  | _ =>
    rw [phase] at h
    cases h

/-- One step of the restore keeps it. -/
theorem Kept.advance {source : Bool} {w : World Docs} (h : Kept w) {ok : Bool} {uuid : ℕ}
    {docs : Docs} (fair : (Event.go ok uuid docs).Fair w)
    (live : (w.advance source ok uuid docs).phase.succeeds = false) :
    Kept (w.advance source ok uuid docs) := by
  unfold World.advance at live ⊢
  unfold Event.Fair at fair
  cases phase : w.phase with
  | checking todo steps =>
    rw [phase] at fair
    cases todo with
    | nil =>
      dsimp only at live ⊢
      cases source with
      | true => exact h.rephase_same (by rw [phase]; rfl) fun e mem => by rw [phase]; exact mem
      | false =>
        rw [phase] at live
        cases live
    | cons t todo =>
      dsimp only
      have fails : Kept { w with phase := .failed } :=
        h.rephase_same (by rw [phase]; rfl) fun e mem => by cases mem
      split
      · exact fails
      · cases found : w.replaces t with
        | none => exact fails
        | some r =>
          dsimp only
          split
          · exact h.rephase_same (by rw [phase]; rfl) fun e mem => by rw [phase]; exact mem
          · exact h.checked phase found fair.1 fair.2
  | reopening todo =>
    rw [phase] at live
    cases todo <;> cases live
  | preparing todo made =>
    cases todo with
    | nil =>
      rw [phase] at live
      cases live
    | cons e todo =>
      dsimp only
      split
      · exact h.rephase_same (by rw [phase]; rfl) fun e mem => by rw [phase]; exact mem
      · exact h.rephase_same (by rw [phase]; rfl) fun e mem => by cases mem
  | clearing t r todo made =>
    have given : Kept { w with phase := .deleting made.reverse } :=
      h.rephase_same (by rw [phase]; rfl) fun e mem => by cases mem
    cases r with
    | nothing =>
      refine h.rephase (fun n => ?_) (fun n mem => ?_) (fun n claims => ?_) ?_ (fun n index mem => ?_)
        fun e mem => ?_
      · rw [phase]
        exact asides_cons_none t made.reverse n
      · rw [phase] at mem
        exact List.mem_cons_of_mem _ mem
      · rw [phase]
        rcases claims with pending | listed
        · exact .inl (List.mem_cons_of_mem _ pending)
        · rcases List.mem_cons.mp listed with rfl | before
          · exact .inl List.mem_cons_self
          · exact .inr before
      · have first := h.first
        rw [phase] at first
        refine List.pairwise_cons.mpr ⟨fun e _ some_ => ?_, first⟩
        cases some_
      · rcases List.mem_cons.mp mem with here | before
        · cases here
        · exact h.aside n index (by rw [phase]; exact before)
      · rw [phase]
        exact List.mem_cons_of_mem _ mem
    | closedHere =>
      rw [phase] at fair
      dsimp only
      cases held : w.held t with
      | none => exact given
      | some index =>
        dsimp only
        split
        case isTrue closed => exact h.setAside phase held closed fair.1 fair.2
        · exact given
    | closedElsewhere uuid =>
      refine absurd ?_ (h.here t uuid)
      rw [phase]
      exact List.mem_cons_self
  | creating t aside todo made =>
    dsimp only
    split
    · exact h.rephase_same (by rw [phase]; rfl) fun e mem => by cases mem
    case isFalse free =>
      refine h.created phase ?_ uuid docs
      cases held : w.held t with
      | none => rfl
      | some index => exact absurd (.inr (by rw [held]; rfl)) free
  | filling t aside todo made =>
    dsimp only
    split
    · refine h.rephase_same ?_ fun e mem => by rw [phase]; exact mem
      rw [phase]
      simp [Phase.entries]
    · exact h.rephase_same (by rw [phase]; rfl) fun e mem => by cases mem
  | finishing made =>
    rw [phase] at live
    cases made <;> cases live
  | deleting undo =>
    cases undo with
    | nil => exact h.rephase_same (by rw [phase]; rfl) fun e mem => by cases mem
    | cons e undo =>
      obtain ⟨t, aside⟩ := e
      have claimed : w.phase.Claims t := .inr (by rw [phase]; exact List.mem_cons_self)
      cases aside with
      | none => exact h.clear claimed (.inr (by rw [phase]; rfl)) rfl
      | some index => exact h.clear claimed (.inl (by rw [phase]; rfl)) rfl
  | dropping t index undo =>
    have claimed : w.phase.Claims t := .inr (by rw [phase]; exact List.mem_cons_self)
    exact h.clear claimed (.inl (by rw [phase]; rfl)) rfl
  | inserting t index undo => exact h.inserted phase
  | restored =>
    rw [phase] at live
    dsimp only at live
    rw [phase] at live
    cases live
  | failed => exact h

/-! ## Another request -/

namespace Request

theorem on_some {r : Request Docs} {n : Name} {index after : Index Docs}
    (h : r.on n (some index) = some after) : after.made = index.made := by
  cases r with
  | create name uuid docs =>
    simp only [on, Option.some_or, ite_self, Option.some.injEq] at h
    rw [h]
  | delete names =>
    simp only [on] at h
    split at h
    · cases h
    · cases h
      rfl
  | setClosed name closed =>
    simp only [on] at h
    split at h
    all_goals
      cases h
      rfl
  | write name docs =>
    simp only [on] at h
    split at h
    all_goals
      cases h
      rfl
  | setAlias name names =>
    cases h
    rfl
  | setStream name names =>
    cases h
    rfl
  | onOthers name other =>
    cases h
    rfl

theorem on_none {r : Request Docs} {n : Name} {after : Index Docs}
    (h : r.on n none = some after) : after.made = false ∧ ¬ r.Spares n := by
  cases r with
  | create name uuid docs =>
    simp only [on] at h
    split at h
    case isTrue same =>
      cases h
      exact ⟨rfl, fun spares => spares same.symm⟩
    · cases h
  | delete names =>
    simp only [on] at h
    split at h <;> cases h
  | setClosed name closed =>
    simp only [on] at h
    split at h <;> cases h
  | write name docs =>
    simp only [on] at h
    split at h <;> cases h
  | setAlias name names => cases h
  | setStream name names => cases h
  | onOthers name other => cases h

theorem on_closed {r : Request Docs} {n : Name} {index after : Index Docs} (spares : r.Spares n)
    (h : r.on n (some index) = some after) (was : index.closed = false) : after.closed = false := by
  cases r with
  | create name uuid docs =>
    simp only [on, Option.some_or, ite_self, Option.some.injEq] at h
    rwa [← h]
  | delete names =>
    simp only [on] at h
    split at h
    · cases h
    · cases h
      exact was
  | setClosed name closed =>
    simp only [on] at h
    split at h
    case isTrue same =>
      cases h
      exact spares same.symm
    · cases h
      exact was
  | write name docs =>
    simp only [on] at h
    split at h
    all_goals
      cases h
      exact was
  | setAlias name names =>
    cases h
    exact was
  | setStream name names =>
    cases h
    exact was
  | onOthers name other =>
    cases h
    exact was

end Request

variable [DecidableEq Docs]

@[simp] theorem Request.run_held (w : World Docs) (r : Request Docs) (n : Name) :
    (r.run w).held n = r.on n (w.held n) := rfl

/-- A request that spares a name leaves what it stands for. -/
theorem Request.run_reach {w : World Docs} {r : Request Docs} {n : Name} (spares : r.Spares n)
    (noAlias : w.indicesForAlias n = []) (noStream : w.backingIndices n = []) :
    (r.run w).indicesForAlias n = [] ∧ (r.run w).backingIndices n = [] := by
  cases r with
  | setAlias name names =>
    refine ⟨?_, noStream⟩
    show Function.update w.indicesForAlias name names n = []
    by_cases same : n = name
    · subst same
      rw [Function.update_self]
      exact spares rfl
    · rwa [Function.update_of_ne same]
  | setStream name names =>
    refine ⟨noAlias, ?_⟩
    show Function.update w.backingIndices name names n = []
    by_cases same : n = name
    · subst same
      rw [Function.update_self]
      exact spares rfl
    · rwa [Function.update_of_ne same]
  | _ => exact ⟨noAlias, noStream⟩

/-- Another caller's fair request keeps the invariant. -/
theorem Kept.request {w : World Docs} (h : Kept w) {r : Request Docs}
    (fair : ∀ n, w.phase.Claims n → r.Spares n) : Kept (r.run w) := by
  refine ⟨fun n => ?_, fun n index held made => ?_, fun n claims => ?_, h.first, h.aside, h.here, ?_⟩
  · show (match w.held n with
      | some index =>
        if index.made then w.foreign n
        else (w.foreign n).erase index ++ (r.on n (w.held n)).toList
      | none => w.foreign n ++ (r.on n (w.held n)).toList) =
      asides w.phase.entries n ++ part (r.on n (w.held n))
    cases held : w.held n with
    | none =>
      have before := h.foreign n
      rw [held, part_none, List.append_nil] at before
      dsimp only
      rw [before]
      cases after : r.on n none with
      | none => rfl
      | some index => rw [part_foreign (Request.on_none after).1]; rfl
    | some index =>
      have before := h.foreign n
      rw [held] at before
      dsimp only
      cases made : index.made with
      | true =>
        have own : ∀ after, r.on n (some index) = some after → after.made = true :=
          fun after on => (Request.on_some on).trans made
        have was : part (some index) = [] := part_own fun _ same => by cases same; exact made
        rw [if_pos rfl, before, was, part_own own]
      | false =>
        -- an index that is not the restore's is under no name the restore claims
        have free : n ∉ w.phase.entries.map Prod.fst := fun listed => by
          rw [(h.claimed n (.inr listed)).1 index held] at made
          cases made
        rw [asides_eq_nil free, part_foreign made] at before
        rw [if_neg (by decide), before, asides_eq_nil free, List.nil_append,
          List.erase_cons_head, List.nil_append, List.nil_append]
        cases after : r.on n (some index) with
        | none => rfl
        | some other => rw [part_foreign ((Request.on_some after).trans made)]; rfl
  · rw [Request.run_held] at held
    cases before : w.held n with
    | none =>
      rw [before] at held
      rw [(Request.on_none held).1] at made
      cases made
    | some old =>
      rw [before] at held
      obtain ⟨listed, open_⟩ := h.own n old before ((Request.on_some held).symm.trans made)
      exact ⟨listed, Request.on_closed (fair n (.inr listed)) held open_⟩
  · obtain ⟨own, noAlias, noStream⟩ := h.claimed n claims
    refine ⟨fun index held => ?_, Request.run_reach (fair n claims) noAlias noStream⟩
    rw [Request.run_held] at held
    cases before : w.held n with
    | none =>
      rw [before] at held
      exact absurd (fair n claims) (Request.on_none held).2
    | some old =>
      rw [before] at held
      exact (Request.on_some held).trans (own old before)
  · cases r with
    | onOthers name index =>
      show Function.update w.elsewhere name index = Function.update w.remote name index
      rw [h.remote]
    | _ => exact h.remote

/-! ## Whole runs -/

/-- A restore that has not begun. -/
structure Begins (w : World Docs) : Prop where
  phase : ∃ targets, w.phase = .checking targets []
  others : ∀ n index, w.held n = some index → index.made = false
  foreign : ∀ n, w.foreign n = (w.held n).toList
  remote : w.elsewhere = w.remote

omit [DecidableEq Docs] in
/-- A restore that begins has set nothing aside. -/
theorem Begins.kept {w : World Docs} (h : Begins w) : Kept w := by
  obtain ⟨targets, phase⟩ := h.phase
  have noEntries : w.phase.entries = [] := by rw [phase]; rfl
  have noSteps : w.phase.steps = [] := by rw [phase]; rfl
  refine ⟨fun n => ?_, fun n index held made => ?_, ?_, ?_, ?_, ?_, h.remote⟩
  · rw [noEntries, h.foreign n]
    cases held : w.held n with
    | none => rfl
    | some index => rw [part_foreign (h.others n index held)]; rfl
  · rw [h.others n index held] at made
    cases made
  · rintro n (pending | listed)
    · rw [noSteps] at pending
      cases pending
    · rw [noEntries] at listed
      cases listed
  · rw [noEntries]
    exact .nil
  · intro n index mem
    rw [noEntries] at mem
    cases mem
  · intro n uuid mem
    rw [noSteps] at mem
    cases mem

/-- So does every run, until the restore can only succeed. -/
theorem Kept.run {source : Bool} {w : World Docs} (h : w.phase.succeeds = true ∨ Kept w)
    {events : List (Event Docs)} (fair : Fairly source w events) :
    (events.foldl (Event.apply source) w).phase.succeeds = true ∨
      Kept (events.foldl (Event.apply source) w) := by
  induction events generalizing w with
  | nil => exact h
  | cons e events ih =>
    refine ih ?_ fair.2
    cases e with
    | request r => exact h.imp (fun done => done) fun kept => kept.request fair.1
    | go ok uuid docs =>
      rcases h with done | kept
      · exact .inl (succeeds_advance done ok uuid docs)
      · cases live : (w.advance source ok uuid docs).phase.succeeds with
        | true => exact .inl live
        | false => exact .inr (kept.advance fair.1 live)

/-- A restore that is answered with an error leaves every index of the cluster as the other
requests left it, and on the way there every index it did not make is in the map or set aside. -/
theorem restore_all_or_nothing {source : Bool} {w : World Docs} (begins : Begins w)
    {events : List (Event Docs)} (fair : Fairly source w events) :
    let after := events.foldl (Event.apply source) w
    (after.phase = .failed → AsItWas after) ∧
      (after.phase.succeeds = false → ∀ n, after.foreign n =
        asides after.phase.entries n ++ part (after.held n)) := by
  intro after
  have kept := Kept.run (.inr begins.kept) fair
  constructor
  · intro failed
    rcases kept with done | kept
    · change after.phase.succeeds = true at done
      rw [failed] at done
      cases done
    · refine ⟨fun n => ?_, kept.remote⟩
      have foreign := kept.foreign n
      change after.foreign n = asides after.phase.entries n ++ part (after.held n) at foreign
      rw [foreign, failed]
      cases held : after.held n with
      | none => rfl
      | some index =>
        cases made : index.made with
        | false => rw [part_foreign made]; rfl
        | true =>
          have listed := (kept.own n index held made).1
          change n ∈ after.phase.entries.map Prod.fst at listed
          rw [failed] at listed
          cases listed
  · intro live n
    rcases kept with done | kept
    · change after.phase.succeeds = true at done
      rw [live] at done
      cases done
    · exact kept.foreign n

def closedX : World Unit where
  held := fun n => if n = ['x'] then some ⟨1, true, (), false⟩ else none
  elsewhere := fun _ => none
  indicesForAlias := fun _ => []
  backingIndices := fun _ => []
  phase := .checking [['x']] []
  foreign := fun n => (if n = ['x'] then some ⟨1, true, (), false⟩ else none).toList
  remote := fun _ => none

def refusedX : List (Event Unit) :=
  [.go true 2 (), .go true 2 (), .go true 2 (), .go true 2 (), .request (.create ['y'] 3 ()),
    .go false 2 (), .go true 2 (), .go true 2 (), .go true 2 (), .go true 2 ()]

theorem restore_all_or_nothing_refused :
    (refusedX.foldl (Event.apply true) closedX).phase = .failed ∧
      AsItWas (refusedX.foldl (Event.apply true) closedX) := by
  have begins : Begins closedX := by
    refine ⟨⟨[['x']], rfl⟩, fun n index held => ?_, fun n => rfl, rfl⟩
    simp only [closedX] at held
    split at held
    · cases held
      rfl
    · cases held
  have fair : Fairly true closedX refusedX := by
    refine ⟨⟨rfl, fun index some_ => (by cases some_)⟩, trivial, trivial, ⟨rfl, rfl⟩, ?_, trivial,
      trivial, trivial, trivial, trivial, trivial⟩
    rintro n (pending | listed)
    · cases pending
    · have same : n = ['x'] := List.mem_singleton.mp listed
      rw [same]
      show ['y'] ≠ ['x']
      decide
  exact ⟨rfl, (restore_all_or_nothing begins fair).1 rfl⟩

def freeX : World Unit where
  held := fun _ => none
  elsewhere := fun _ => none
  indicesForAlias := fun _ => []
  backingIndices := fun _ => []
  phase := .checking [['x']] []
  foreign := fun _ => []
  remote := fun _ => none

/-- Somebody else creates the index between the check and the restore's own create: the restore
fails, and deletes it. -/
theorem restore_deletes_others_index :
    ∃ (w : World Unit) (events : List (Event Unit)), Begins w ∧
      (events.foldl (Event.apply true) w).phase = .failed ∧
      ¬ AsItWas (events.foldl (Event.apply true) w) := by
  refine ⟨freeX, [.go true 2 (), .go true 2 (), .request (.create ['x'] 3 ()), .go true 2 (),
    .go true 2 (), .go true 2 (), .go true 2 (), .go true 2 ()], ?_, rfl, ?_⟩
  · exact ⟨⟨[['x']], rfl⟩, fun n index held => (by cases held), fun n => rfl, rfl⟩
  · intro same
    have lost := same.1 ['x']
    simp [freeX, Event.apply, World.advance, World.replaces, World.resolve, Request.run, Request.on,
      World.delete] at lost

end Restoring
end Velosearch

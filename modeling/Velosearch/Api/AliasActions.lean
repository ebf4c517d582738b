import Velosearch.Api.Aliases

/-!
# All the actions or none

What each action of `update_aliases` does to the aliases of every index, and when a list of them is
carried out whole or not at all. The actions are checked and carried out in turn, so a request that
is refused has done what the actions before have done.
-/

set_option autoImplicit false

namespace Velosearch.Aliases

open Rollover (State AliasDef)
open Store.Resolve (Name)

variable {X : Extra}

/-! ## What there should be -/

/-- The same indices with the same aliases on them, in whatever order either keeps them. -/
def Same (s t : State (Rest X)) : Prop :=
  (∀ n, n ∈ t.names ↔ n ∈ s.names) ∧ ∀ n a, t.defOn n a = s.defOn n a

section

variable (date : Name → Name)

/-- What an action says of itself, between the state before it and the one after. -/
def Action.Done (act : Action X) (s t : State (Rest X)) : Prop :=
  match act.verb with
  | .add =>
    (∀ n, n ∈ t.names ↔ n ∈ s.names) ∧
      ∀ n a, t.defOn n a =
        if (n ∈ act.targets date s ∧ n ∈ s.names) ∧ a ∈ act.names then
          some (normalizeAlias (some act.written))
        else s.defOn n a
  | .remove =>
    (∀ n, n ∈ t.names ↔ n ∈ s.names) ∧
      ∀ n a, t.defOn n a =
        if n ∈ act.targets date s ∧ act.takes a then none else s.defOn n a
  | .removeIndex =>
    (∀ n, n ∈ t.names ↔ n ∈ s.names ∧ n ∉ act.targets date s) ∧
      ∀ n a, t.defOn n a = if n ∈ act.targets date s then none else s.defOn n a
  | .other => Same s t

/-- Each action with the state it was carried out on. -/
def carried (s : State (Rest X)) : List (Option (Action X)) → List (State (Rest X) × Action X)
  | [] => []
  | none :: rest => carried s rest
  | some act :: rest =>
    match act.refused date s with
    | some _ => []
    | none => (s, act) :: carried (act.effect date s) rest

/-- A state reached by the actions one after another, each doing what it says. -/
def InOrder (t : State (Rest X)) : State (Rest X) → List (Option (Action X)) → Prop
  | s, [] => t = s
  | s, none :: rest => InOrder t s rest
  | s, some act :: rest =>
    act.Done date s (act.effect date s) ∧ InOrder t (act.effect date s) rest

/-- A request that is refused leaves the store as it was; one that is granted has done all of
it. -/
structure AllOrNothing (s : State (Rest X)) (actions : List (Option (Action X))) : Prop where
  refused : (updateAliases date s actions).2 ≠ none → Same s (updateAliases date s actions).1
  granted : (updateAliases date s actions).2 = none →
    InOrder date (updateAliases date s actions).1 s actions

/-! ## The condition -/

/-- No action of the request is refused where its turn comes. -/
def Granted (s : State (Rest X)) : List (Option (Action X)) → Prop
  | [] => True
  | none :: rest => Granted s rest
  | some act :: rest =>
    act.refused date s = none ∧ act.missing date s = [] ∧ Granted (act.effect date s) rest

/-- The names a run of deletions gets to; one may take another's alias with it. -/
def reached (s : State (Rest X)) : List Name → List Name
  | [] => []
  | n :: ns => resolve date s n ++ reached (delete date s n) ns

/-- The action is a `remove_index` that reaches the index. -/
def Action.Deletes (act : Action X) (s : State (Rest X)) (n : Name) : Prop :=
  act.verb = .removeIndex ∧ n ∈ reached date s (act.targets date s)

/-- What an action makes of an alias on an index, where it touches it. -/
def Action.makes (act : Action X) (s : State (Rest X)) (n a : Name) :
    Option (Option (AliasDef (Rest X))) :=
  match act.verb with
  | .add =>
    if n ∈ act.targets date s ∧ a ∈ act.names then some (some (normalizeAlias (some act.written)))
    else none
  | .remove => if n ∈ act.targets date s ∧ act.takes a then some none else none
  | _ => none

/-- What the last action that touches an alias on an index makes of it. -/
def lastly (s : State (Rest X)) (actions : List (Option (Action X))) (n a : Name) :
    Option (Option (AliasDef (Rest X))) :=
  (carried date s actions).reverse.findSome? fun x => x.2.makes date x.1 n a

structure Undone (s : State (Rest X)) (actions : List (Option (Action X))) : Prop where
  kept : ∀ n ∈ s.names, ∀ x ∈ carried date s actions, ¬x.2.Deletes date x.1 n
  again : ∀ n ∈ s.names, ∀ a d, lastly date s actions n a = some d → s.defOn n a = d

/-- A `remove_index` of several names, none of which is lost by another's deletion. -/
def Action.Sure (act : Action X) (s : State (Rest X)) : Prop :=
  act.verb = .removeIndex →
    ∀ n ∈ s.names, n ∈ reached date s (act.targets date s) ↔ n ∈ act.targets date s

/-- What is done before a refusal comes to nothing, and indices are deleted by names that are
theirs. -/
structure Undivided (s : State (Rest X)) (actions : List (Option (Action X))) : Prop where
  refused : ¬(actions ≠ [] ∧ Granted date s actions) → Undone date s actions
  granted : actions ≠ [] ∧ Granted date s actions →
    ∀ x ∈ carried date s actions, x.2.Sure date x.1

end

/-! ## What is the same -/

theorem Same.refl (s : State (Rest X)) : Same s s := ⟨fun _ => Iff.rfl, fun _ _ => rfl⟩

/-! ## One index after another -/

theorem lookup_filter {β : Type} (p : Name → Bool) (l : List (Name × β)) (b : Name) :
    (l.filter fun x => p x.1).lookup b = if p b then l.lookup b else none := by
  induction l with
  | nil => simp
  | cons x l ih =>
    by_cases hx : p x.1
    · rw [List.filter_cons_of_pos (by simpa using hx), Rollover.lookup_cons_if,
        Rollover.lookup_cons_if, ih]
      by_cases h : b = x.1
      · rw [if_pos h, if_pos h, h, if_pos hx]
      · rw [if_neg h, if_neg h]
    · rw [List.filter_cons_of_neg (by simpa using hx), ih, Rollover.lookup_cons_if]
      by_cases h : b = x.1
      · rw [if_pos h, h, if_neg hx, if_neg hx]
      · rw [if_neg h]

theorem names_foldl_update (f : Rollover.Aliases (Rest X) → Rollover.Aliases (Rest X))
    (targets : List Name) (s : State (Rest X)) :
    (targets.foldl (fun s n => s.update n f) s).names = s.names := by
  induction targets generalizing s with
  | nil => rfl
  | cons n targets ih => rw [List.foldl_cons, ih, Rollover.names_update]

/-- An index is there exactly when it has aliases, possibly none. -/
theorem mem_names_iff {s : State (Rest X)} {n : Name} :
    n ∈ s.names ↔ ∃ l, s.aliasesOf n = some l := by
  constructor
  · intro h
    unfold State.names at h
    unfold State.aliasesOf
    apply Option.isSome_iff_exists.mp
    rw [List.lookup_isSome_iff]
    obtain ⟨i, hi, rfl⟩ := List.mem_map.mp h
    exact ⟨i, hi, by simp⟩
  · intro h
    obtain ⟨l, hl⟩ := h
    exact Rollover.mem_names_of_aliasesOf hl

/-- An alias on an index after the same update of several indices. -/
theorem defOn_foldl_update (f : Rollover.Aliases (Rest X) → Rollover.Aliases (Rest X))
    (g : Name → Option (AliasDef (Rest X)) → Option (AliasDef (Rest X)))
    (hf : ∀ l a, (f l).lookup a = g a (l.lookup a)) (hg : ∀ a x, g a (g a x) = g a x)
    (targets : List Name) (s : State (Rest X)) (n a : Name) :
    (targets.foldl (fun s n => s.update n f) s).defOn n a =
      if n ∈ targets ∧ n ∈ s.names then g a (s.defOn n a) else s.defOn n a := by
  have hone : ∀ (s : State (Rest X)) (m : Name), (s.update m f).defOn n a =
      if n = m ∧ n ∈ s.names then g a (s.defOn n a) else s.defOn n a := by
    intro s m
    rw [Rollover.defOn_update]
    by_cases h : n = m
    · rw [if_pos h, ← h]
      cases hl : s.aliasesOf n with
      | none =>
        have hno : n ∉ s.names := by
          intro hin
          obtain ⟨l, hl'⟩ := mem_names_iff.mp hin
          rw [hl] at hl'
          cases hl'
        rw [if_neg fun h => hno h.2]
        show none = (s.aliasesOf n).bind _
        rw [hl]
        rfl
      | some l =>
        rw [if_pos ⟨rfl, mem_names_iff.mpr ⟨l, hl⟩⟩]
        show (f l).lookup a = g a ((s.aliasesOf n).bind _)
        rw [hf, hl]
        rfl
    · rw [if_neg h, if_neg fun h' => h h'.1]
  induction targets generalizing s with
  | nil => simp
  | cons m targets ih =>
    rw [List.foldl_cons, ih, hone, Rollover.names_update]
    by_cases hin : n ∈ s.names
    · by_cases hm : n = m
      · by_cases ht : n ∈ targets
        · simp [hin, ← hm, hg, ht]
        · simp [hin, ← hm, ht]
      · by_cases ht : n ∈ targets <;> simp [hin, hm, ht]
    · simp [hin]

/-- Several aliases put on one index, all with one definition. -/
theorem lookup_foldl_insert (d : AliasDef (Rest X)) (names : List Name)
    (l : Rollover.Aliases (Rest X)) (a : Name) :
    (names.foldl (fun l b => Rollover.insert l b d) l).lookup a =
      if a ∈ names then some d else l.lookup a := by
  induction names generalizing l with
  | nil => simp
  | cons b names ih =>
    rw [List.foldl_cons, ih, Rollover.lookup_insert]
    by_cases hb : a = b
    · simp [hb]
    · simp [hb]

/-! ## Deleting -/

section

variable {date : Name → Name}

theorem mem_names_delete {s : State (Rest X)} {m n : Name} :
    n ∈ (delete date s m).names ↔ n ∈ s.names ∧ n ∉ resolve date s m := by
  unfold delete State.names
  simp only [List.mem_map, List.mem_filter, Bool.not_eq_true', List.contains_eq_mem,
    decide_eq_false_iff_not]
  constructor
  · intro h
    obtain ⟨i, ⟨hi, hout⟩, rfl⟩ := h
    exact ⟨⟨i, hi, rfl⟩, hout⟩
  · intro h
    obtain ⟨⟨i, hi, rfl⟩, hout⟩ := h
    exact ⟨i, ⟨hi, hout⟩, rfl⟩

/-- A deletion takes the aliases of what it resolves to, and no others. -/
theorem defOn_delete (s : State (Rest X)) (m n a : Name) :
    (delete date s m).defOn n a = if n ∈ resolve date s m then none else s.defOn n a := by
  unfold State.defOn State.aliasesOf delete
  simp only
  rw [lookup_filter (fun n => !(resolve date s m).contains n)]
  by_cases h : n ∈ resolve date s m
  · simp [h]
  · simp [h]

/-- Deletions one after another take what each resolves to when its turn comes. -/
theorem foldl_delete (date : Name → Name) (ns : List Name) (s : State (Rest X)) :
    (∀ n, n ∈ (ns.foldl (delete date) s).names ↔ n ∈ s.names ∧ n ∉ reached date s ns) ∧
      ∀ n a, (ns.foldl (delete date) s).defOn n a =
        if n ∈ reached date s ns then none else s.defOn n a := by
  induction ns generalizing s with
  | nil => simp [reached]
  | cons m ns ih =>
    obtain ⟨hnames, hdefs⟩ := ih (delete date s m)
    rw [List.foldl_cons]
    constructor
    · intro n
      rw [hnames, mem_names_delete, reached, List.mem_append]
      tauto
    · intro n a
      rw [hdefs, defOn_delete, reached]
      by_cases h1 : n ∈ reached date (delete date s m) ns
      · simp [h1]
      · by_cases h2 : n ∈ resolve date s m <;> simp [h1, h2]

/-! ## One action -/

/-- `add` puts its aliases on its targets and leaves every other alias alone. -/
theorem effect_add (date : Name → Name) {act : Action X} (hv : act.verb = .add) (s : State (Rest X)) :
    (act.effect date s).names = s.names ∧ ∀ n a, (act.effect date s).defOn n a =
      if (n ∈ act.targets date s ∧ n ∈ s.names) ∧ a ∈ act.names then
        some (normalizeAlias (some act.written))
      else s.defOn n a := by
  unfold Action.effect
  rw [hv]
  refine ⟨names_foldl_update _ _ _, fun n a => ?_⟩
  rw [defOn_foldl_update _
    (fun a x => if a ∈ act.names then some (normalizeAlias (some act.written)) else x)
    (fun l a => lookup_foldl_insert _ _ l a) (fun a x => by split <;> rfl)]
  by_cases hin : n ∈ act.targets date s ∧ n ∈ s.names
  · simp [hin]
  · rw [if_neg hin, if_neg fun h => hin h.1]

theorem defOn_eq_none {s : State (Rest X)} {n : Name} (h : n ∉ s.names) (a : Name) :
    s.defOn n a = none := by
  cases hd : s.defOn n a with
  | none => rfl
  | some d => exact absurd (Rollover.mem_names_of_defOn hd) h

/-- `remove` takes the aliases its patterns match off its targets. -/
theorem effect_remove (date : Name → Name) {act : Action X} (hv : act.verb = .remove) (s : State (Rest X)) :
    (act.effect date s).names = s.names ∧ ∀ n a, (act.effect date s).defOn n a =
      if n ∈ act.targets date s ∧ act.takes a then none else s.defOn n a := by
  unfold Action.effect
  rw [hv]
  refine ⟨names_foldl_update _ _ _, fun n a => ?_⟩
  rw [defOn_foldl_update _ (fun a x => if act.takes a then none else x)
    (fun l a => by rw [lookup_filter (fun a => !act.takes a)]; cases act.takes a <;> rfl)
    (fun a x => by split <;> rfl)]
  by_cases hin : n ∈ s.names
  · by_cases ht : n ∈ act.targets date s <;> simp [hin, ht]
  · simp [hin, defOn_eq_none hin]

/-- `remove_index` deletes each of its targets in turn. -/
theorem effect_removeIndex (date : Name → Name) {act : Action X} (hv : act.verb = .removeIndex) (s : State (Rest X)) :
    act.effect date s = (act.targets date s).foldl (delete date) s := by
  unfold Action.effect
  rw [hv]

theorem effect_other (date : Name → Name) {act : Action X} (hv : act.verb = .other) (s : State (Rest X)) :
    act.effect date s = s := by
  unfold Action.effect
  rw [hv]

/-- An action does what it says exactly when no deletion of its own gets in its way. -/
theorem done_iff (act : Action X) (s : State (Rest X)) :
    act.Done date s (act.effect date s) ↔ act.Sure date s := by
  unfold Action.Done Action.Sure
  cases hv : act.verb with
  | add =>
    obtain ⟨hnames, hdefs⟩ := effect_add date hv s
    exact iff_of_true ⟨fun n => by rw [hnames], hdefs⟩ nofun
  | remove =>
    obtain ⟨hnames, hdefs⟩ := effect_remove date hv s
    exact iff_of_true ⟨fun n => by rw [hnames], hdefs⟩ nofun
  | removeIndex =>
    simp only [effect_removeIndex date hv, true_implies]
    obtain ⟨hnames, hdefs⟩ := foldl_delete date (act.targets date s) s
    constructor
    · intro h n hn
      have hrest := (h.1 n).symm.trans (hnames n)
      tauto
    · intro h
      constructor
      · intro n
        rw [hnames]
        have := h n
        tauto
      · intro n a
        rw [hdefs]
        by_cases hn : n ∈ s.names
        · by_cases hr : n ∈ reached date s (act.targets date s)
          · rw [if_pos hr, if_pos ((h n hn).mp hr)]
          · rw [if_neg hr, if_neg fun ht => hr ((h n hn).mpr ht)]
        · simp [defOn_eq_none hn]
  | other =>
    rw [effect_other date hv]
    exact iff_of_true (Same.refl s) nofun

/-- An action keeps the indices it does not delete. -/
theorem mem_names_effect (act : Action X) (s : State (Rest X)) (n : Name) :
    n ∈ (act.effect date s).names ↔ n ∈ s.names ∧ ¬act.Deletes date s n := by
  unfold Action.Deletes
  cases hv : act.verb with
  | add => simp [(effect_add date hv s).1]
  | remove => simp [(effect_remove date hv s).1]
  | removeIndex =>
    rw [effect_removeIndex date hv, (foldl_delete date _ s).1]
    simp
  | other => simp [effect_other date hv]

/-- On an index that stays, an action makes of an alias what `makes` says. -/
theorem defOn_effect (act : Action X) {s : State (Rest X)} {n : Name} (hn : n ∈ s.names)
    (kept : ¬act.Deletes date s n) (a : Name) :
    (act.effect date s).defOn n a = (act.makes date s n a).getD (s.defOn n a) := by
  unfold Action.Deletes at kept
  unfold Action.makes
  cases hv : act.verb with
  | add =>
    rw [(effect_add date hv s).2]
    by_cases h : n ∈ act.targets date s ∧ a ∈ act.names
    · rw [if_pos ⟨⟨h.1, hn⟩, h.2⟩]
      simp [h]
    · rw [if_neg fun h' => h ⟨h'.1.1, h'.2⟩]
      simp [h]
  | remove =>
    rw [(effect_remove date hv s).2]
    by_cases h : n ∈ act.targets date s ∧ act.takes a
    · simp [h]
    · simp [h]
  | removeIndex =>
    rw [effect_removeIndex date hv, (foldl_delete date _ s).2, if_neg fun h => kept ⟨hv, h⟩]
    rfl
  | other =>
    rw [effect_other date hv]
    rfl

/-! ## The list -/

/-- A request is granted when every action is, and nothing it names is missing. -/
theorem updateFrom_granted (actions : List (Option (Action X))) (s : State (Rest X))
    (missing : List Name) :
    (updateFrom date s missing actions).2 = none ↔ missing = [] ∧ Granted date s actions := by
  induction actions generalizing s missing with
  | nil =>
    unfold updateFrom Granted
    simp
  | cons action rest ih =>
    cases action with
    | none => exact ih s missing
    | some act =>
      unfold updateFrom Granted
      cases act.refused date s with
      | some refusal => simp
      | none =>
        simp only [ih, List.append_eq_nil_iff, true_and]
        tauto

theorem updateAliases_granted (date : Name → Name) (s : State (Rest X)) (actions : List (Option (Action X))) :
    (updateAliases date s actions).2 = none ↔ actions ≠ [] ∧ Granted date s actions := by
  unfold updateAliases
  split
  case isTrue h => simp [h]
  case isFalse h => simp [updateFrom_granted, h]

/-- The indices after a request: those that none of its actions deleted. -/
theorem mem_names_updateFrom (actions : List (Option (Action X))) (s : State (Rest X))
    (missing : List Name) (n : Name) :
    n ∈ (updateFrom date s missing actions).1.names ↔
      n ∈ s.names ∧ ∀ x ∈ carried date s actions, ¬x.2.Deletes date x.1 n := by
  induction actions generalizing s missing with
  | nil => simp [updateFrom, carried]
  | cons action rest ih =>
    cases action with
    | none => exact ih s missing
    | some act =>
      unfold carried updateFrom
      cases act.refused date s with
      | some refusal => simp
      | none =>
        simp only [List.forall_mem_cons]
        rw [ih, mem_names_effect, and_assoc]

/-- An alias after a request is what the last action that touched it made of it. -/
theorem defOn_updateFrom (actions : List (Option (Action X))) {s : State (Rest X)}
    (missing : List Name) {n : Name} (hn : n ∈ s.names)
    (kept : ∀ x ∈ carried date s actions, ¬x.2.Deletes date x.1 n) (a : Name) :
    (updateFrom date s missing actions).1.defOn n a =
      (lastly date s actions n a).getD (s.defOn n a) := by
  induction actions generalizing s missing with
  | nil => rfl
  | cons action rest ih =>
    cases action with
    | none => exact ih missing hn kept
    | some act =>
      unfold lastly
      unfold carried at kept ⊢
      unfold updateFrom
      cases hr : act.refused date s with
      | some refusal => rfl
      | none =>
        simp only [hr, List.forall_mem_cons] at kept
        have hstays := (mem_names_effect act s n).mpr ⟨hn, kept.1⟩
        simp only [List.reverse_cons, List.findSome?_append, List.findSome?_singleton]
        rw [ih _ hstays kept.2, defOn_effect act hn kept.1]
        show (lastly date (act.effect date s) rest n a).getD _ =
          ((lastly date (act.effect date s) rest n a).or _).getD _
        cases lastly date (act.effect date s) rest n a with
        | none => rfl
        | some d => rfl

/-- A request leaves everything as it was exactly when its actions undo each other. -/
theorem same_updateFrom_iff (actions : List (Option (Action X))) (s : State (Rest X))
    (missing : List Name) :
    Same s (updateFrom date s missing actions).1 ↔ Undone date s actions := by
  constructor
  · intro h
    have kept : ∀ n ∈ s.names, ∀ x ∈ carried date s actions, ¬x.2.Deletes date x.1 n := by
      intro n hn
      exact ((mem_names_updateFrom actions s missing n).mp ((h.1 n).mpr hn)).2
    refine ⟨kept, fun n hn a d hd => ?_⟩
    rw [← h.2 n a, defOn_updateFrom actions missing hn (kept n hn), hd]
    rfl
  · intro h
    constructor
    · intro n
      rw [mem_names_updateFrom]
      exact ⟨fun hn => hn.1, fun hn => ⟨hn, h.kept n hn⟩⟩
    · intro n a
      by_cases hn : n ∈ s.names
      · rw [defOn_updateFrom actions missing hn (h.kept n hn)]
        cases hd : lastly date s actions n a with
        | none => rfl
        | some d => exact (h.again n hn a d hd).symm
      · rw [defOn_eq_none hn, defOn_eq_none]
        intro hin
        exact hn ((mem_names_updateFrom actions s missing n).mp hin).1

theorem same_updateAliases_iff (s : State (Rest X)) (actions : List (Option (Action X))) :
    Same s (updateAliases date s actions).1 ↔ Undone date s actions := by
  unfold updateAliases
  split
  case isTrue h =>
    subst h
    refine iff_of_true (Same.refl s) ⟨?_, ?_⟩
    · intro n _ x hx
      cases hx
    · intro n _ a d hd
      cases hd
  case isFalse => exact same_updateFrom_iff actions s []

/-- The request's own loop is the actions in order. -/
theorem inOrder_iff (actions : List (Option (Action X))) (s : State (Rest X))
    (missing : List Name) (granted : Granted date s actions) :
    InOrder date (updateFrom date s missing actions).1 s actions ↔
      ∀ x ∈ carried date s actions, x.2.Sure date x.1 := by
  induction actions generalizing s missing with
  | nil => simp [InOrder, updateFrom, carried]
  | cons action rest ih =>
    cases action with
    | none => exact ih s missing granted
    | some act =>
      obtain ⟨hr, _, hrest⟩ := granted
      unfold InOrder carried updateFrom
      rw [hr]
      simp only [List.forall_mem_cons]
      exact and_congr (done_iff act s) (ih _ _ hrest)

/-- A request to change aliases is all or nothing just where it is undivided. -/
theorem allOrNothing_iff (date : Name → Name) (s : State (Rest X))
    (actions : List (Option (Action X))) :
    AllOrNothing date s actions ↔ Undivided date s actions := by
  have hgranted := updateAliases_granted date s actions
  constructor
  · intro h
    constructor
    · intro hno
      exact (same_updateAliases_iff s actions).mp (h.refused fun hnone => hno (hgranted.mp hnone))
    · intro hyes
      have horder := h.granted (hgranted.mpr hyes)
      unfold updateAliases at horder
      rw [if_neg hyes.1] at horder
      exact (inOrder_iff actions s [] hyes.2).mp horder
  · intro h
    constructor
    · intro hno
      exact (same_updateAliases_iff s actions).mpr (h.refused fun hyes => hno (hgranted.mpr hyes))
    · intro hnone
      obtain ⟨hne, hyes⟩ := hgranted.mp hnone
      unfold updateAliases
      rw [if_neg hne]
      exact (inOrder_iff actions s [] hyes).mpr (h.granted ⟨hne, hyes⟩)

/-- Alias definitions with nothing in them but `is_write_index` and routing. -/
def bare : Extra := ⟨Unit, (), fun _ b => b⟩

def oneIndex : State (Rest bare) := ⟨[("x".toList, [])], []⟩

def ontoBoth : List (Option (Action bare)) :=
  ["x".toList, "y".toList].map fun index =>
    some ⟨.add, some index, none, some "a".toList, none, none, ⟨none, none, none, none, ()⟩⟩

/-- The request is refused, and the alias is on the first. -/
theorem half_an_alias :
    (updateAliases id oneIndex ontoBoth).2 = some (.noSuchIndex "y".toList) ∧
      oneIndex.defOn "x".toList "a".toList = none ∧
      (updateAliases id oneIndex ontoBoth).1.defOn "x".toList "a".toList =
        some (normalizeAlias none) ∧
      ¬AllOrNothing id oneIndex ontoBoth := by
  have hrefused : (updateAliases id oneIndex ontoBoth).2 = some (.noSuchIndex "y".toList) := by rfl
  have hleft : (updateAliases id oneIndex ontoBoth).1.defOn "x".toList "a".toList =
      some (normalizeAlias none) := by rfl
  refine ⟨hrefused, rfl, hleft, fun h => ?_⟩
  have hsame := (h.refused (by rw [hrefused]; nofun)).2 "x".toList "a".toList
  rw [hleft] at hsame
  cases hsame

end

end Velosearch.Aliases

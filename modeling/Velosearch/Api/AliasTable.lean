import Mathlib.Data.List.Dedup
import Mathlib.Data.List.Perm.Subperm
import Mathlib.Data.List.Sort
import Velosearch.Api.AliasActions

/-!
# The alias table

The aliases of all indices after any run of the requests that write them. A request is answered at
a moment, which is what a date in a name is read by. Each of the requests makes only some of the
checks that keep the table well formed: `Careful` is what the checks that are not made would ask of
a request and the store it comes to.
-/

set_option autoImplicit false

namespace Velosearch.Aliases

open Rollover (State AliasDef)
open Store.Resolve (Name storeResolve storePart dated parts push all)

/-! ## Requests -/

/-- The requests that change aliases or indices. -/
inductive Request (X : Extra) where
  | putAlias (q : PutAlias X)
  | updateAliases (actions : List (Option (Action X)))
  | deleteAlias (index name : Name)
  | createIndex (n : Name) (q : Making X)
  | ensure (n : Name) (q : Making X)
  | deleteIndex (index : Name) (lenient allowNone : Bool)

variable {X : Extra}

/-- The state a request leaves, where it is granted. -/
def Request.done (date : Name → Name) (s : State (Rest X)) : Request X → Option (State (Rest X))
  | .putAlias q => (Aliases.putAlias date s q).toOption
  | .updateAliases actions =>
    match Aliases.updateAliases date s actions with
    | (t, none) => some t
    | (_, some _) => none
  | .deleteAlias index name => (Aliases.deleteAlias date s index name).toOption
  | .createIndex n q => (Aliases.createIndex date s n q).toOption
  | .ensure n q => (Aliases.ensure date s n q).toOption
  | .deleteIndex index lenient allowNone =>
    (Aliases.deleteIndex date s index lenient allowNone).toOption

/-! ## What there should be -/

section

variable {T : Type} (date : T → Name → Name)

/-- The stores reached from one without aliases by requests that are answered with success and
fulfil a condition. -/
inductive Run (ok : T → State (Rest X) → Request X → Prop) : State (Rest X) → Prop
  | start {s : State (Rest X)} : s.names.Nodup → (∀ i ∈ s.indices, i.2 = []) → Run ok s
  | step {s t : State (Rest X)} (now : T) (r : Request X) :
      Run ok s → ok now s r → r.done (date now) s = some t → Run ok t

/-- The same table with its indices listed in another order. -/
structure Reordered (s t : State (Rest X)) : Prop where
  indices : t.indices.Perm s.indices
  streams : t.streams = s.streams

/-- No alias is named like an index, and a write through one goes to one index. -/
structure WellFormed (s : State (Rest X)) : Prop where
  apart : ∀ n a, (s.defOn n a).isSome → a ∉ s.names
  single : ∀ a i j, marks s a i → marks s a j → i = j
  routing : ∀ n a d, s.defOn n a = some d → ¬Several d
  order : ∀ n a, (s.defOn n a).isSome → ∀ t, Reordered s t → ∀ now,
    writeTarget (date now) t a = writeTarget (date now) s a

/-! ## The condition -/

/-- No part of a name is a date that stands for another date. -/
def Steady (a : Name) : Prop :=
  ∀ now, ∀ part ∈ parts a, dated (date now) (dated (date now) part) = dated (date now) part

/-- Whoever asks for the write index of an alias asks on every index that has it now. -/
def Sole (s : State (Rest X)) (a : Name) (w : Option (Written X)) (targets : List Name) : Prop :=
  asksWrite w → ∀ n, marks s a n → n ∈ targets

/-- An action of the request deletes the index. -/
def Removed (now : T) (s : State (Rest X)) (actions : List (Option (Action X))) (n : Name) : Prop :=
  ∃ x ∈ carried (date now) s actions, x.2.Deletes (date now) x.1 n

/-- An action comes before these others. -/
def Action.Careful (act : Action X) (now : T) (s : State (Rest X))
    (rest : List (Option (Action X))) : Prop :=
  act.verb = .add → ∀ a ∈ act.names, Steady date a ∧
    Sole s a (some act.written) (act.targets (date now) s) ∧
    (a ∈ s.names → Removed date now (act.effect (date now) s) rest a)

/-- Each action careful where its turn comes. -/
def CarefulActions (now : T) (s : State (Rest X)) : List (Option (Action X)) → Prop
  | [] => True
  | none :: rest => CarefulActions now s rest
  | some act :: rest =>
    act.Careful date now s rest ∧ CarefulActions now (act.effect (date now) s) rest

/-- What a new index may bring along: aliases that nobody has, and no second write index. -/
structure CarefulNew (s : State (Rest X)) (n : Name) (aliases : Members X) : Prop where
  index : ∀ m, s.defOn m n = none
  name : ∀ x ∈ aliases, x.1 ∉ s.names ∧ x.1 ≠ n ∧ Steady date x.1
  routing : ∀ x ∈ aliases, ¬Several (normalizeAlias x.2)
  write : ∀ x ∈ aliases, Sole s x.1 x.2 []

/-- What the checks that are not made would ask. -/
def Careful (now : T) (s : State (Rest X)) : Request X → Prop
  | .putAlias q =>
    ∀ index name, q.bodyIndex.or (q.pathIndex.filter (· ≠ [])) = some index →
      q.bodyName.or (q.pathName.filter (· ≠ [])) = some name →
      Steady date name ∧ Sole s name (some q.written) (resolve (date now) s index)
  | .updateAliases actions => CarefulActions date now s actions
  | .createIndex n q =>
    let n := dated (date now) (dated (date now) n)
    CarefulNew date s n (q.aliases n)
  | .ensure n q =>
    found (date now) s n = false →
      CarefulNew date s (dated (date now) n)
        (Making.aliases { q with body := [] } (dated (date now) n))
  | _ => True

/-! ## The table -/

/-- What is asked of a table, apart from its names: each index once, and one write index an
alias. -/
structure Table (s : State (Rest X)) : Prop where
  nodup : s.names.Nodup
  single : ∀ a i j, marks s a i → marks s a j → i = j
  routing : ∀ n a d, s.defOn n a = some d → ¬Several d
  steady : ∀ n a d, s.defOn n a = some d → Steady date a

/-- No alias is named like an index, but for the names in question. -/
def Apart (s : State (Rest X)) (but : Name → Prop) : Prop :=
  ∀ n a d, s.defOn n a = some d → a ∈ s.names → but a

/-- Only indices and aliases have gone. -/
structure Fewer (s t : State (Rest X)) : Prop where
  names : t.names.Sublist s.names
  defs : ∀ n a d, t.defOn n a = some d → s.defOn n a = some d

/-- A definition is put under several names on several indices, and nothing else is changed. -/
structure Puts (s : State (Rest X)) (aliases targets : List Name) (d : AliasDef (Rest X))
    (t : State (Rest X)) : Prop where
  names : t.names = s.names
  defs : ∀ n a, t.defOn n a =
    if (n ∈ targets ∧ n ∈ s.names) ∧ a ∈ aliases then some d else s.defOn n a

end

section

variable {T : Type} {date : T → Name → Name} {s t : State (Rest X)}

/-- An index is the write index of an alias when its definition says so. -/
theorem marks_iff {a n : Name} :
    marks s a n ↔ ∃ d, s.defOn n a = some d ∧ d.isWriteIndex = some true := by
  unfold marks
  cases s.defOn n a with
  | none => simp
  | some d =>
    cases h : d.isWriteIndex with
    | none => simp [h]
    | some b => simp [h]

theorem asksWrite_iff (w : Option (Written X)) :
    (normalizeAlias w).isWriteIndex = some true ↔ asksWrite w := by
  cases w with
  | none => simp [normalizeAlias, asksWrite]
  | some w =>
    show w.isWriteIndex.join = some true ↔ w.isWriteIndex.join.getD false = true
    cases w.isWriteIndex.join <;> simp

/-! ## Fewer -/

theorem Fewer.refl (s : State (Rest X)) : Fewer s s := ⟨List.Sublist.refl _, fun _ _ _ h => h⟩

/-- What goes in two steps has gone. -/
theorem Fewer.trans {u : State (Rest X)} (h : Fewer s t) (h' : Fewer t u) : Fewer s u :=
  ⟨h'.names.trans h.names, fun n a d hd => h.defs n a d (h'.defs n a d hd)⟩

/-- Taking indices and aliases away breaks nothing. -/
theorem Table.fewer (h : Table date s) (hf : Fewer s t) : Table date t where
  nodup := hf.names.nodup h.nodup
  single a i j hi hj := by
    obtain ⟨d, hd, hw⟩ := marks_iff.mp hi
    obtain ⟨d', hd', hw'⟩ := marks_iff.mp hj
    exact h.single a i j (marks_iff.mpr ⟨d, hf.defs i a d hd, hw⟩)
      (marks_iff.mpr ⟨d', hf.defs j a d' hd', hw'⟩)
  routing n a d hd := h.routing n a d (hf.defs n a d hd)
  steady n a d hd := h.steady n a d (hf.defs n a d hd)

theorem Apart.fewer {but : Name → Prop} (h : Apart s but) (hf : Fewer s t) : Apart t but :=
  fun n a d hd hin => h n a d (hf.defs n a d hd) (hf.names.subset hin)

/-- Deleting is taking away. -/
theorem fewer_delete (now : Name → Name) (s : State (Rest X)) (n : Name) :
    Fewer s (delete now s n) where
  names := List.filter_sublist.map Prod.fst
  defs m a d hd := by
    rw [defOn_delete] at hd
    split at hd
    case isTrue => cases hd
    case isFalse => exact hd

theorem fewer_foldl_delete (now : Name → Name) (ns : List Name) (s : State (Rest X)) :
    Fewer s (ns.foldl (delete now) s) := by
  induction ns generalizing s with
  | nil => exact Fewer.refl s
  | cons n ns ih => exact (fewer_delete now s n).trans (ih _)

/-- So is removing aliases. -/
theorem fewer_taken (takes : Name → Bool) (targets : List Name) (s : State (Rest X)) :
    Fewer s (targets.foldl (fun s n => s.update n fun l => l.filter fun x => !takes x.1) s) where
  names := by rw [names_foldl_update]
  defs n a d hd := by
    rw [defOn_foldl_update _ (fun a x => if takes a then none else x)
      (fun l a => by rw [lookup_filter (fun a => !takes a)]; cases takes a <;> rfl)
      (fun a x => by split <;> rfl)] at hd
    split at hd
    case isTrue =>
      split at hd
      case isTrue => cases hd
      case isFalse => exact hd
    case isFalse => exact hd

/-! ## Definitions put on indices -/

/-- `put_alias` puts one definition on its targets. -/
theorem puts_putOn (s : State (Rest X)) (a : Name) (w : Option (Written X)) (targets : List Name) :
    Puts s [a] targets (normalizeAlias w) (putOn s a w targets) where
  names := names_foldl_update _ _ _
  defs n b := by
    unfold putOn
    rw [defOn_foldl_update _ (fun b x => if b = a then some (normalizeAlias w) else x)
      (fun l b => Rollover.lookup_insert l a b _) (fun b x => by split <;> rfl)]
    by_cases hin : n ∈ targets ∧ n ∈ s.names
    · simp [hin]
    · rw [if_neg hin, if_neg fun h => hin h.1]

/-- So does `add`, under each of its names. -/
theorem puts_effect {act : Action X} (hv : act.verb = .add) (now : Name → Name)
    (s : State (Rest X)) :
    Puts s act.names (act.targets now s) (normalizeAlias (some act.written)) (act.effect now s) :=
  ⟨(effect_add now hv s).1, (effect_add now hv s).2⟩

/-- What a definition that was let through does not ask for. -/
theorem of_checkDef {now : Name → Name} {a : Name} {w : Option (Written X)} {targets : List Name}
    (h : checkDef now s a w targets = none) :
    ¬Several (normalizeAlias w) ∧
      (asksWrite w → ∀ i ∈ targets, ∀ j ∈ targets, i = j) := by
  unfold checkDef at h
  split at h
  case isTrue => cases h
  case isFalse hone =>
    split at h
    case isTrue => cases h
    case isFalse hseveral =>
      constructor
      · intro hs
        obtain ⟨r, hr, hmem⟩ := hs
        apply hseveral
        unfold severalIndexRoutings
        rw [hr]
        simpa using hmem
      · intro hw i hi j hj
        by_contra hne
        apply hone
        unfold twoWriteIndices
        rw [hw, Bool.true_and, decide_eq_true_iff]
        have hsub : [i, j] ⊆ (((resolve now s a).filter fun n =>
            !targets.contains n && marks s a n) ++ targets).dedup := by
          intro n hn
          rw [List.mem_dedup, List.mem_append]
          right
          rcases List.mem_pair.mp hn with rfl | rfl
          · exact hi
          · exact hj
        have hpair : [i, j].Nodup := by simp [hne]
        exact (hpair.subperm hsub).length_le

/-- Putting a definition that was checked keeps the table one. -/
theorem Table.puts {aliases targets : List Name} {w : Option (Written X)} (h : Table date s)
    (now : Name → Name) (hp : Puts s aliases targets (normalizeAlias w) t)
    (careful : ∀ a ∈ aliases, Steady date a ∧ Sole s a w targets ∧
      checkDef now s a w targets = none) : Table date t where
  nodup := by
    rw [hp.names]
    exact h.nodup
  single a i j hi hj := by
    -- an index that is written to now is one of these, or was before
    have hmark : ∀ n, marks t a n → (a ∈ aliases ∧ n ∈ targets ∧ asksWrite w) ∨ marks s a n := by
      intro n hn
      obtain ⟨d, hd, hwrite⟩ := marks_iff.mp hn
      rw [hp.defs] at hd
      split at hd
      case isTrue hin =>
        obtain rfl := Option.some.inj hd
        exact .inl ⟨hin.2, hin.1.1, (asksWrite_iff w).mp hwrite⟩
      case isFalse => exact .inr (marks_iff.mpr ⟨d, hd, hwrite⟩)
    rcases hmark i hi with hnew | hold
    · obtain ⟨ha, hti, hw⟩ := hnew
      obtain ⟨_, hsole, hcheck⟩ := careful a ha
      have htj : j ∈ targets := by
        rcases hmark j hj with hnew | hold
        · exact hnew.2.1
        · exact hsole hw j hold
      exact (of_checkDef hcheck).2 hw i hti j htj
    · rcases hmark j hj with hnew | hold'
      · obtain ⟨ha, htj, hw⟩ := hnew
        obtain ⟨_, hsole, hcheck⟩ := careful a ha
        exact (of_checkDef hcheck).2 hw i (hsole hw i hold) j htj
      · exact h.single a i j hold hold'
  routing n a d hd := by
    rw [hp.defs] at hd
    split at hd
    case isTrue hin =>
      obtain rfl := Option.some.inj hd
      exact (of_checkDef (careful a hin.2).2.2).1
    case isFalse => exact h.routing n a d hd
  steady n a d hd := by
    rw [hp.defs] at hd
    split at hd
    case isTrue hin => exact (careful a hin.2).1
    case isFalse => exact h.steady n a d hd

/-! ## A list of actions -/

/-- A granted, careful action keeps the table one. -/
theorem table_effect {act : Action X} {now : T} {rest : List (Option (Action X))}
    (h : Table date s) (granted : act.refused (date now) s = none)
    (careful : act.Careful date now s rest) : Table date (act.effect (date now) s) := by
  cases hv : act.verb with
  | add =>
    refine h.puts (date now) (puts_effect hv _ s) fun a ha => ?_
    obtain ⟨hsteady, hsole, _⟩ := careful hv a ha
    refine ⟨hsteady, hsole, ?_⟩
    unfold Action.refused at granted
    split at granted
    case isTrue => cases granted
    case isFalse =>
      split at granted
      case isTrue => cases granted
      case isFalse =>
        rw [hv] at granted
        exact List.findSome?_eq_none_iff.mp granted a ha
  | remove =>
    unfold Action.effect
    rw [hv]
    exact h.fewer (fewer_taken act.takes _ s)
  | removeIndex =>
    unfold Action.effect
    rw [hv]
    exact h.fewer (fewer_foldl_delete _ _ s)
  | other =>
    unfold Action.effect
    rw [hv]
    exact h

theorem defOn_of_effect {act : Action X} {now : Name → Name} {n a : Name} {d : AliasDef (Rest X)}
    (hd : (act.effect now s).defOn n a = some d) :
    s.defOn n a = some d ∨ act.verb = .add ∧ a ∈ act.names := by
  cases hv : act.verb with
  | add =>
    rw [(puts_effect hv now s).defs] at hd
    split at hd
    case isTrue hin => exact .inr ⟨rfl, hin.2⟩
    case isFalse => exact .inl hd
  | remove =>
    unfold Action.effect at hd
    rw [hv] at hd
    exact .inl ((fewer_taken act.takes _ s).defs n a d hd)
  | removeIndex =>
    unfold Action.effect at hd
    rw [hv] at hd
    exact .inl ((fewer_foldl_delete _ _ s).defs n a d hd)
  | other =>
    unfold Action.effect at hd
    rw [hv] at hd
    exact .inl hd

/-- It also keeps aliases and indices from sharing a name, once the deletions are done. -/
theorem apart_effect {act : Action X} {now : T} {rest : List (Option (Action X))}
    (h : Apart s (Removed date now s (some act :: rest)))
    (granted : act.refused (date now) s = none) (careful : act.Careful date now s rest) :
    Apart (act.effect (date now) s) (Removed date now (act.effect (date now) s) rest) := by
  intro n a d hd hin
  obtain ⟨hin', hstays⟩ := (mem_names_effect act s a).mp hin
  rcases defOn_of_effect hd with hold | hnew
  · obtain ⟨x, hx, hdel⟩ := h n a d hold hin'
    unfold carried at hx
    rw [granted] at hx
    rcases List.mem_cons.mp hx with rfl | hx
    · exact absurd hdel hstays
    · exact ⟨x, hx, hdel⟩
  · exact (careful hnew.1 a hnew.2).2.2 hin'

/-- A granted request keeps both, by induction on its actions. -/
theorem kept_updateFrom {now : T} (actions : List (Option (Action X))) (missing : List Name)
    (h : Table date s) (apart : Apart s (Removed date now s actions))
    (careful : CarefulActions date now s actions)
    (granted : (updateFrom (date now) s missing actions).2 = none) :
    Table date (updateFrom (date now) s missing actions).1 ∧
      Apart (updateFrom (date now) s missing actions).1 fun _ => False := by
  induction actions generalizing s missing with
  | nil =>
    refine ⟨h, fun n a d hd hin => ?_⟩
    obtain ⟨x, hx, _⟩ := apart n a d hd hin
    cases hx
  | cons action rest ih =>
    cases action with
    | none => exact ih missing h apart careful granted
    | some act =>
      obtain ⟨hcareful, hrest⟩ := careful
      unfold updateFrom at granted ⊢
      cases hr : act.refused (date now) s with
      | some refusal =>
        rw [hr] at granted
        cases granted
      | none =>
        rw [hr] at granted
        exact ih _ (table_effect h hr hcareful) (apart_effect apart hr hcareful) hrest granted

/-! ## An index made -/

theorem lookup_normalized (aliases : Members X) (a : Name) :
    (aliases.map fun x => (x.1, normalizeAlias x.2)).lookup a =
      (aliases.lookup a).map normalizeAlias := by
  induction aliases with
  | nil => rfl
  | cons x aliases ih =>
    rw [List.map_cons, Rollover.lookup_cons_if, Rollover.lookup_cons_if, ih]
    by_cases h : a = x.1
    · rw [if_pos h, if_pos h]
      rfl
    · rw [if_neg h, if_neg h]

/-- A new index with its aliases, at the head of the table. -/
def withNew (s : State (Rest X)) (n : Name) (aliases : Members X) : State (Rest X) :=
  { s with indices := (n, aliases.map fun x => (x.1, normalizeAlias x.2)) :: s.indices }

/-- The aliases of a new index are those it brings. -/
theorem defOn_withNew (n m a : Name) (aliases : Members X) :
    (withNew s n aliases).defOn m a =
      if m = n then (aliases.lookup a).map normalizeAlias else s.defOn m a := by
  unfold withNew State.defOn State.aliasesOf
  rw [Rollover.lookup_cons_if]
  by_cases h : m = n
  · rw [if_pos h, if_pos h]
    exact lookup_normalized aliases a
  · rw [if_neg h, if_neg h]

theorem of_defOn_withNew {n m a : Name} {aliases : Members X} {d : AliasDef (Rest X)}
    (hd : (withNew s n aliases).defOn m a = some d) :
    (m = n ∧ ∃ w, (a, w) ∈ aliases ∧ normalizeAlias w = d) ∨ s.defOn m a = some d := by
  rw [defOn_withNew] at hd
  split at hd
  case isTrue hm =>
    obtain ⟨w, hw, rfl⟩ := Option.map_eq_some_iff.mp hd
    obtain ⟨before, after, rfl, _⟩ := List.lookup_eq_some_iff.mp hw
    exact .inl ⟨hm, w, by simp, rfl⟩
  case isFalse => exact .inr hd

/-- A new index that is careful keeps the table one. -/
theorem table_withNew {n : Name} {aliases : Members X} (h : Table date s) (fresh : n ∉ s.names)
    (careful : CarefulNew date s n aliases) : Table date (withNew s n aliases) where
  nodup := List.nodup_cons.mpr ⟨fresh, h.nodup⟩
  single a i j hi hj := by
    have hmark : ∀ m, marks (withNew s n aliases) a m →
        (m = n ∧ ∀ k, ¬marks s a k) ∨ marks s a m := by
      intro m hm
      obtain ⟨d, hd, hwrite⟩ := marks_iff.mp hm
      rcases of_defOn_withNew hd with hnew | hold
      · obtain ⟨rfl, w, hw, rfl⟩ := hnew
        left
        refine ⟨rfl, fun k hk => ?_⟩
        exact nomatch careful.write (a, w) hw ((asksWrite_iff w).mp hwrite) k hk
      · exact .inr (marks_iff.mpr ⟨d, hold, hwrite⟩)
    rcases hmark i hi with ⟨rfl, hnone⟩ | hold
    · rcases hmark j hj with ⟨rfl, _⟩ | hold
      · rfl
      · exact absurd hold (hnone j)
    · rcases hmark j hj with ⟨rfl, hnone⟩ | hold'
      · exact absurd hold (hnone i)
      · exact h.single a i j hold hold'
  routing m a d hd := by
    rcases of_defOn_withNew hd with hnew | hold
    · obtain ⟨_, w, hw, rfl⟩ := hnew
      exact careful.routing (a, w) hw
    · exact h.routing m a d hold
  steady m a d hd := by
    rcases of_defOn_withNew hd with hnew | hold
    · obtain ⟨_, w, hw, _⟩ := hnew
      exact (careful.name (a, w) hw).2.2
    · exact h.steady m a d hold

theorem apart_withNew {n : Name} {aliases : Members X} (h : Apart s fun _ => False)
    (careful : CarefulNew date s n aliases) : Apart (withNew s n aliases) fun _ => False := by
  intro m a d hd hin
  rcases of_defOn_withNew hd with hnew | hold
  · obtain ⟨_, w, hw, _⟩ := hnew
    obtain ⟨hout, hne, _⟩ := careful.name (a, w) hw
    rcases List.mem_cons.mp hin with rfl | hin
    · exact hne rfl
    · exact hout hin
  · rcases List.mem_cons.mp hin with rfl | hin
    · have hnone := careful.index m
      rw [hold] at hnone
      cases hnone
    · exact h m a d hold hin

/-! ## The order of the indices -/

/-- The order of the table does not decide which indices there are. -/
theorem Reordered.mem_names (h : Reordered s t) (n : Name) : n ∈ t.names ↔ n ∈ s.names :=
  (h.indices.map Prod.fst).mem_iff

theorem Reordered.mem_named (h : Reordered s t) (i : Name × List Name) :
    i ∈ t.named.indices ↔ i ∈ s.named.indices := (h.indices.map _).mem_iff

theorem names_named (s : State (Rest X)) : s.named.names = s.names := by
  unfold Store.Resolve.State.names State.named State.names
  rw [List.map_map]
  rfl

/-- Nor which indices back a stream. -/
theorem Reordered.backing (h : Reordered s t) (name : Name) :
    (t.named.backingIndices name).Perm (s.named.backingIndices name) := by
  have hstreams : t.named.streams = s.named.streams := h.streams
  unfold Store.Resolve.State.backingIndices
  rw [names_named, names_named, hstreams]
  split
  case isTrue => exact (h.indices.map Prod.fst).filter _
  case isFalse => exact List.Perm.refl _

/-- Nor which are behind an alias. -/
theorem Reordered.behind (h : Reordered s t) (a : Name) :
    (t.named.indicesForAlias a).Perm (s.named.indicesForAlias a) :=
  ((h.indices.map _).filter _).map _

/-- A name that is neither index nor alias is looked up once and not again. -/
theorem get_plain {now : Name → Name} {part : Name} (k : ℕ) (index : part ∉ s.named.names)
    (alias_ : s.named.indicesForAlias part = []) (steady : dated now part = part) :
    Store.Resolve.get now s.named k part = none := by
  cases k with
  | zero => rfl
  | succ k =>
    have hdate : ¬(part.head? = some '<' ∧ now part ≠ part) := by
      intro h
      unfold dated at steady
      rw [if_pos h.1] at steady
      exact h.2 steady
    unfold Store.Resolve.get
    rw [if_neg index, if_neg hdate, alias_]
    rfl

/-- Nor what a part of an expression resolves to. -/
theorem Reordered.mem_storePart (h : Reordered s t) {now : Name → Name} {part n : Name}
    (steady : dated now (dated now part) = dated now part) :
    n ∈ storePart now t.named part ↔ n ∈ storePart now s.named part := by
  have hnames : ∀ m, m ∈ t.named.names ↔ m ∈ s.named.names := by
    intro m
    rw [names_named, names_named, h.mem_names]
  unfold storePart
  generalize hp : dated now part = p at steady
  simp only
  by_cases hstar : '*' ∈ p
  · rw [if_pos hstar, if_pos hstar]
    have hstreams : ∀ m, m ∈ (t.named.streams.filter (Store.wildcardMatch p)).flatMap
          t.named.backingIndices ↔
        m ∈ (s.named.streams.filter (Store.wildcardMatch p)).flatMap s.named.backingIndices := by
      intro m
      show m ∈ (t.streams.filter _).flatMap _ ↔ m ∈ (s.streams.filter _).flatMap _
      rw [h.streams, List.mem_flatMap, List.mem_flatMap]
      simp only [(h.backing _).mem_iff]
    simp only [List.mem_map, List.mem_filter, h.mem_named, List.contains_eq_mem, hstreams]
  · rw [if_neg hstar, if_neg hstar]
    by_cases hin : p ∈ s.named.names
    · rw [if_pos hin, if_pos ((hnames p).mpr hin)]
    · have hout : p ∉ t.named.names := fun h' => hin ((hnames p).mp h')
      rw [if_neg hin, if_neg hout]
      by_cases hback : s.named.backingIndices p = []
      · have hback' : t.named.backingIndices p = [] := by
          rw [← List.length_eq_zero_iff, (h.backing p).length_eq, hback]
          rfl
        rw [if_neg (not_not_intro hback), if_neg (not_not_intro hback')]
        by_cases halias : s.named.indicesForAlias p = []
        · have halias' : t.named.indicesForAlias p = [] := by
            rw [← List.length_eq_zero_iff, (h.behind p).length_eq, halias]
            rfl
          rw [if_neg (not_not_intro halias), if_neg (not_not_intro halias'),
            get_plain _ hin halias steady, get_plain _ hout halias' steady]
        · have halias' : t.named.indicesForAlias p ≠ [] := by
            rw [← ne_eq, ← List.length_pos_iff] at halias
            rw [← List.length_pos_iff, (h.behind p).length_eq]
            exact halias
          rw [if_pos halias, if_pos halias', (h.behind p).mem_iff]
      · have hback' : t.named.backingIndices p ≠ [] := by
          rw [← ne_eq, ← List.length_pos_iff] at hback
          rw [← List.length_pos_iff, (h.backing p).length_eq]
          exact hback
        rw [if_pos hback, if_pos hback', (h.backing p).mem_iff]

theorem nodup_push {out names : List Name} (h : out.Nodup) : (push out names).Nodup := by
  unfold push
  induction names generalizing out with
  | nil => exact h
  | cons n names ih =>
    rw [List.foldl_cons]
    apply ih
    split
    case isTrue => exact h
    case isFalse hout =>
      rw [List.nodup_append]
      refine ⟨h, List.nodup_singleton n, fun a ha b hb => ?_⟩
      rw [List.mem_singleton.mp hb]
      rintro rfl
      exact hout ha

theorem nodup_resolve (nodup : s.names.Nodup) (now : Name → Name) (expr : Name) :
    (resolve now s expr).Nodup := by
  unfold resolve storeResolve
  split
  case isTrue =>
    rw [names_named]
    exact nodup
  case isFalse =>
    have hfold : ∀ (ps out : List Name), out.Nodup →
        (ps.foldl (fun out part => push out (storePart now s.named part)) out).Nodup := by
      intro ps
      induction ps with
      | nil => exact fun _ h => h
      | cons p ps ih => exact fun out h => ih _ (nodup_push h)
    exact hfold _ [] List.nodup_nil

/-- An expression resolves to the same names, in an order of the table's. -/
theorem Reordered.resolve_perm (h : Reordered s t) (nodup : s.names.Nodup) {a : Name}
    (steady : Steady date a) (now : T) :
    (resolve (date now) t a).Perm (resolve (date now) s a) := by
  have nodup' : t.names.Nodup := ((h.indices.map Prod.fst).nodup_iff).mpr nodup
  refine (List.perm_ext_iff_of_nodup (nodup_resolve nodup' _ a) (nodup_resolve nodup _ a)).mpr
    fun n => ?_
  unfold resolve
  by_cases hall : a = [] ∨ a = all ∨ a = ['*']
  · unfold storeResolve
    rw [if_pos hall, if_pos hall, names_named, names_named]
    exact h.mem_names n
  · rw [Store.Resolve.mem_storeResolve hall, Store.Resolve.mem_storeResolve hall]
    exact exists_congr fun part => and_congr_right fun hpart =>
      h.mem_storePart (steady now part hpart)

theorem mem_indices_iff (nodup : s.names.Nodup) {n : Name} {l : Rollover.Aliases (Rest X)} :
    (n, l) ∈ s.indices ↔ s.aliasesOf n = some l := by
  unfold State.aliasesOf
  unfold State.names at nodup
  constructor
  · intro h
    obtain ⟨before, after, heq⟩ := List.append_of_mem h
    rw [heq, List.lookup_eq_some_iff]
    refine ⟨before, after, rfl, fun x hx => ?_⟩
    rw [heq, List.map_append, List.map_cons, List.nodup_append] at nodup
    have hne := nodup.2.2 x.1 (List.mem_map_of_mem hx) n List.mem_cons_self
    simpa using hne.symm
  · intro h
    obtain ⟨before, after, heq, _⟩ := List.lookup_eq_some_iff.mp h
    rw [heq]
    simp

/-- With every index listed once, the order does not decide an alias's definition. -/
theorem Reordered.defOn_eq (h : Reordered s t) (nodup : s.names.Nodup) (n a : Name) :
    t.defOn n a = s.defOn n a := by
  have nodup' : t.names.Nodup := ((h.indices.map Prod.fst).nodup_iff).mpr nodup
  have haliases : t.aliasesOf n = s.aliasesOf n := by
    apply Option.ext
    intro l
    rw [← mem_indices_iff nodup', ← mem_indices_iff nodup, h.indices.mem_iff]
  unfold State.defOn
  rw [haliases]

theorem Reordered.marks_eq (h : Reordered s t) (nodup : s.names.Nodup) (a n : Name) :
    marks t a n = marks s a n := by
  unfold marks
  rw [h.defOn_eq nodup]

theorem Reordered.isAlias_eq (h : Reordered s t) (a : Name) : isAlias t a = isAlias s a := by
  unfold isAlias
  rw [Bool.eq_iff_iff, List.any_eq_true, List.any_eq_true]
  simp only [h.indices.mem_iff]

/-- The first of several is the same in any order where there is only one. -/
theorem find_perm {p : Name → Bool} {l l' : List Name} (perm : l'.Perm l)
    (single : ∀ i j, p i → p j → i = j) : l'.find? p = l.find? p := by
  cases h : l.find? p with
  | none =>
    rw [List.find?_eq_none] at h ⊢
    exact fun n hn => h n (perm.mem_iff.mp hn)
  | some n =>
    have hn := List.find?_some h
    have hin := perm.mem_iff.mpr (List.mem_of_find?_eq_some h)
    cases h' : l'.find? p with
    | none => exact absurd hn (List.find?_eq_none.mp h' n hin)
    | some m => rw [single m n (List.find?_some h') hn]

theorem perm_mergeSort {l l' : List Name} (perm : l'.Perm l) :
    l'.mergeSort (fun a b => decide (a ≤ b)) = l.mergeSort (fun a b => decide (a ≤ b)) := by
  have sorted : ∀ l : List Name,
      (l.mergeSort fun a b => decide (a ≤ b)).Pairwise fun a b => decide (a ≤ b) = true := by
    intro l
    refine List.pairwise_mergeSort (fun a b c hab hbc => ?_) (fun a b => ?_) l
    · rw [decide_eq_true_eq] at hab hbc ⊢
      exact le_trans hab hbc
    · rw [Bool.or_eq_true, decide_eq_true_eq, decide_eq_true_eq]
      exact le_total a b
  refine List.Perm.eq_of_pairwise (fun a b _ _ hab hba => ?_) (sorted l') (sorted l) ?_
  · exact le_antisymm (of_decide_eq_true hab) (of_decide_eq_true hba)
  · exact (List.mergeSort_perm l' _).trans (perm.trans (List.mergeSort_perm l _).symm)

/-- A write through an alias goes to the same index in any order of the table. -/
theorem Table.order (h : Table date s) {n a : Name} (hd : (s.defOn n a).isSome)
    (hr : Reordered s t) (now : T) :
    writeTarget (date now) t a = writeTarget (date now) s a := by
  obtain ⟨d, hd⟩ := Option.isSome_iff_exists.mp hd
  have hperm := hr.resolve_perm h.nodup (h.steady n a d hd) now
  have hfind : (resolve (date now) t a).find? (marks t a) =
      (resolve (date now) s a).find? (marks s a) := by
    rw [funext (hr.marks_eq h.nodup a)]
    exact find_perm hperm (h.single a)
  unfold writeTarget
  rw [perm_mergeSort (hr.backing a), hr.isAlias_eq, hfind]
  split
  case h_1 => rfl
  case h_2 =>
    split
    case isTrue =>
      split
      case h_1 => rfl
      case h_2 =>
        generalize resolve (date now) s a = l at hperm
        match l with
        | [] => rw [hperm.eq_nil]
        | [one] => rw [List.perm_singleton.mp hperm]
        | one :: two :: rest =>
          have hlen := hperm.length_eq
          match hl : resolve (date now) t a with
          | [] => rfl
          | [_] =>
            rw [hl] at hlen
            simp at hlen
          | _ :: _ :: _ => rfl
    case isFalse => rfl

/-! ## Each request -/

theorem ok_of_toOption {ε α : Type} {e : Except ε α} {a : α} (h : e.toOption = some a) :
    e = .ok a := by
  cases e with
  | error => cases h
  | ok b =>
    obtain rfl := Option.some.inj h
    rfl

theorem Apart.puts {aliases targets : List Name} {d : AliasDef (Rest X)}
    (h : Apart s fun _ => False) (hp : Puts s aliases targets d t)
    (fresh : ∀ a ∈ aliases, a ∉ s.names) : Apart t fun _ => False := by
  intro n a d' hd hin
  rw [hp.names] at hin
  rw [hp.defs] at hd
  split at hd
  case isTrue hnew => exact fresh a hnew.2 hin
  case isFalse => exact h n a d' hd hin

/-- `put_alias` keeps both. -/
theorem kept_putAlias {now : T} {q : PutAlias X} (h : Table date s) (apart : Apart s fun _ => False)
    (careful : Careful date now s (.putAlias q))
    (hd : Aliases.putAlias (date now) s q = .ok t) : Table date t ∧ Apart t fun _ => False := by
  unfold Aliases.putAlias at hd
  split at hd
  case h_1 index name hindex hname =>
    obtain ⟨hsteady, hsole⟩ := careful index name hindex hname
    split at hd
    case isTrue => cases hd
    case isFalse =>
      split at hd
      case isTrue => cases hd
      case isFalse =>
        split at hd
        case isTrue => cases hd
        case isFalse hfresh =>
          simp only at hd
          split at hd
          case isTrue => cases hd
          case isFalse =>
            split at hd
            case h_1 => cases hd
            case h_2 hcheck =>
              cases hd
              have hp := puts_putOn s name (some q.written) (resolve (date now) s index)
              refine ⟨h.puts (date now) hp fun a ha => ?_, apart.puts hp fun a ha => ?_⟩
              · rw [List.mem_singleton.mp ha]
                exact ⟨hsteady, hsole, hcheck⟩
              · rw [List.mem_singleton.mp ha]
                exact hfresh
  case h_2 => cases hd

/-- `delete_alias` only takes away. -/
theorem fewer_deleteAlias {now : Name → Name} {index name : Name}
    (hd : Aliases.deleteAlias now s index name = .ok t) : Fewer s t := by
  unfold Aliases.deleteAlias at hd
  simp only at hd
  split at hd
  case isTrue => cases hd
  case isFalse =>
    split at hd
    case isTrue =>
      cases hd
      exact fewer_taken (fun a => ((name.splitOn ',').map Text.trim).any (named · a)) _ s
    case isFalse => cases hd

/-- `delete_index` only takes away. -/
theorem fewer_deleteIndex {now : Name → Name} {index : Name} {lenient allowNone : Bool}
    (hd : Aliases.deleteIndex now s index lenient allowNone = .ok t) : Fewer s t := by
  unfold Aliases.deleteIndex at hd
  simp only at hd
  split at hd
  case h_1 => cases hd
  case h_2 =>
    split at hd
    case h_1 => cases hd
    case h_2 =>
      split at hd
      case h_1 => cases hd
      case h_2 =>
        split at hd
        case isTrue => cases hd
        case isFalse =>
          cases hd
          exact fewer_foldl_delete now _ s

/-- Creating an index adds it, with the aliases of its templates and its body. -/
theorem of_create {now : Name → Name} {n : Name} {q : Making X}
    (hd : Aliases.create now s n q = .ok t) :
    dated now n ∉ s.names ∧ t = withNew s (dated now n) (q.aliases (dated now n)) := by
  unfold Aliases.create at hd
  simp only at hd
  split at hd
  case isTrue => cases hd
  case isFalse hfresh =>
    split at hd
    case isTrue => cases hd
    case isFalse =>
      cases hd
      exact ⟨hfresh, rfl⟩

theorem of_createIndex {now : Name → Name} {n : Name} {q : Making X}
    (hd : Aliases.createIndex now s n q = .ok t) :
    Aliases.create now s (dated now n) q = .ok t := by
  unfold Aliases.createIndex at hd
  split at hd
  case isTrue => cases hd
  case isFalse =>
    simp only at hd
    split at hd
    case isTrue => cases hd
    case isFalse =>
      split at hd
      case isTrue => cases hd
      case isFalse =>
        split at hd
        case h_1 => cases hd
        case h_2 => exact hd

/-- Creating keeps both, where the new index is careful. -/
theorem kept_create {now : T} {n : Name} {q : Making X} (h : Table date s)
    (apart : Apart s fun _ => False) (hd : Aliases.create (date now) s n q = .ok t)
    (careful : CarefulNew date s (dated (date now) n) (q.aliases (dated (date now) n))) :
    Table date t ∧ Apart t fun _ => False := by
  obtain ⟨hfresh, rfl⟩ := of_create hd
  exact ⟨table_withNew h hfresh careful, apart_withNew apart careful⟩

theorem of_updateAliases {now : Name → Name} {actions : List (Option (Action X))}
    (hd : (Request.updateAliases actions).done now s = some t) :
    updateFrom now s [] actions = (t, none) := by
  change (match Aliases.updateAliases now s actions with
    | (t, none) => some t
    | (_, some _) => none) = some t at hd
  cases hu : Aliases.updateAliases now s actions with
  | mk u refusal =>
    rw [hu] at hd
    cases refusal with
    | some _ => cases hd
    | none =>
      obtain rfl := Option.some.inj hd
      unfold Aliases.updateAliases at hu
      split at hu
      case isTrue => cases hu
      case isFalse => exact hu

/-- One granted request keeps both: the step of the induction over runs. -/
theorem kept_of_done {now : T} {r : Request X} (h : Table date s)
    (apart : Apart s fun _ => False) (careful : Careful date now s r)
    (hd : r.done (date now) s = some t) : Table date t ∧ Apart t fun _ => False := by
  cases r with
  | putAlias q => exact kept_putAlias h apart careful (ok_of_toOption hd)
  | updateAliases actions =>
    have hu := of_updateAliases hd
    have hkept := kept_updateFrom actions [] h
      (fun n a d hdef hin => (apart n a d hdef hin).elim) careful (by rw [hu])
    rw [hu] at hkept
    exact hkept
  | deleteAlias index name =>
    have hf := fewer_deleteAlias (ok_of_toOption hd)
    exact ⟨h.fewer hf, apart.fewer hf⟩
  | createIndex n q =>
    exact kept_create h apart (of_createIndex (ok_of_toOption hd)) careful
  | ensure n q =>
    have hok := ok_of_toOption hd
    unfold Aliases.ensure at hok
    split at hok
    case isTrue =>
      cases hok
      exact ⟨h, apart⟩
    case isFalse hnot => exact kept_create h apart hok (careful (by simpa using hnot))
  | deleteIndex index lenient allowNone =>
    have hf := fewer_deleteIndex (ok_of_toOption hd)
    exact ⟨h.fewer hf, apart.fewer hf⟩

/-! ## Runs -/

/-- Every run of careful requests keeps both. -/
theorem kept_of_run (run : Run date (Careful date) s) : Table date s ∧ Apart s fun _ => False := by
  induction run with
  | @start s nodup bare =>
    have hnone : ∀ n a, s.defOn n a = none := by
      intro n a
      unfold State.defOn
      cases hl : s.aliasesOf n with
      | none => rfl
      | some l =>
        have hempty : l = [] := bare (n, l) ((mem_indices_iff nodup).mpr hl)
        rw [hempty]
        rfl
    refine ⟨⟨nodup, fun a i j hi _ => ?_, fun n a d hd => ?_, fun n a d hd => ?_⟩,
      fun n a d hd _ => ?_⟩
    · obtain ⟨d, hd, _⟩ := marks_iff.mp hi
      rw [hnone] at hd
      cases hd
    all_goals
      rw [hnone] at hd
      cases hd
  | step now r _ careful hd ih => exact kept_of_done ih.1 ih.2 careful hd

/-- The alias table stays well formed along every run whose requests are careful. -/
theorem wellFormed_of_run (run : Run date (Careful date) s) : WellFormed date s := by
  obtain ⟨h, apart⟩ := kept_of_run run
  refine ⟨fun n a hd hin => ?_, h.single, h.routing, fun n a hd t hr now => h.order hd hr now⟩
  obtain ⟨d, hd⟩ := Option.isSome_iff_exists.mp hd
  exact apart n a d hd hin

def writtenThrough : State (Rest bare) :=
  ⟨[("x".toList, [("a".toList, ⟨some true, none, none, ()⟩)])], []⟩

def asksForWrite : PutAlias bare :=
  ⟨none, some "x".toList, none, some "a".toList, false, ⟨some (some true), none, none, none, ()⟩⟩

theorem wellFormed_of_run_write :
    oneIndex.names ≠ [] ∧ WellFormed (fun _ : Unit => id) writtenThrough := by
  have hsteady : ∀ a, Steady (fun _ : Unit => id) a := by
    intro a now part _
    have hid : ∀ p, dated (fun p : Name => p) p = p := by
      intro p
      unfold dated
      split <;> rfl
    exact hid _
  have hstart : Run (fun _ : Unit => id) (Careful fun _ : Unit => id) oneIndex :=
    .start (by decide) (by decide)
  have hcareful : Careful (fun _ : Unit => id) () oneIndex (.putAlias asksForWrite) := by
    intro index name _ _
    refine ⟨hsteady name, fun _ n hn => ?_⟩
    obtain ⟨d, hd, _⟩ := marks_iff.mp hn
    rw [State.defOn] at hd
    obtain ⟨l, hl, hlook⟩ := Option.bind_eq_some_iff.mp hd
    obtain ⟨before, after, heq, _⟩ := List.lookup_eq_some_iff.mp hl
    have hmem : (n, l) ∈ oneIndex.indices := by
      rw [heq]
      simp
    obtain ⟨rfl, rfl⟩ := Prod.mk.inj (List.mem_singleton.mp hmem)
    cases hlook
  exact ⟨by decide, wellFormed_of_run (.step () (.putAlias asksForWrite) hstart hcareful rfl)⟩

def twoIndices : State (Rest bare) := ⟨[("x".toList, []), ("y".toList, [])], []⟩

def borrowed : List (Option (Action bare)) :=
  [some ⟨.add, some "y".toList, none, some "x".toList, none, none, ⟨none, none, none, none, ()⟩⟩]

theorem alias_named_like_an_index :
    (Request.updateAliases borrowed).done id twoIndices =
        some (updateAliases id twoIndices borrowed).1 ∧
      ¬∀ s : State (Rest bare), Run (fun _ : Unit => id) (fun _ _ _ => True) s →
        WellFormed (fun _ : Unit => id) s := by
  have hdone : (Request.updateAliases borrowed).done id twoIndices =
      some (updateAliases id twoIndices borrowed).1 := by rfl
  refine ⟨hdone, fun h => ?_⟩
  have hstart : Run (fun _ : Unit => id) (fun _ _ _ => True) twoIndices :=
    .start (by decide) (by decide)
  have hapart := (h _ (.step () (.updateAliases borrowed) hstart trivial hdone)).apart
    "y".toList "x".toList (by rfl)
  exact hapart (by decide)

end

end Velosearch.Aliases

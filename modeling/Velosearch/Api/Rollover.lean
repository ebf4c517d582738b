import Mathlib
import Velosearch.Store.Resolve

/-!
# Rollovers

`next_rollover_name`, `roll_alias` and `rollover` of `src/api/indices/resize.rs`, and the rollover of
a policy in `src/ism/actions.rs`. An alias is rolled from the index it leads to onto a new one,
by the endpoint, which takes the alias and looks for the index, or by a policy, which takes the index
and looks for the alias. Here both have found their conditions met.
-/

set_option autoImplicit false

namespace Velosearch.Rollover

open Store.Resolve (Name forbidden storeResolve)

/-- An alias on an index. -/
structure AliasDef (D : Type) where
  isWriteIndex : Option Bool
  rest : D
deriving DecidableEq

/-- The aliases of an index. -/
abbrev Aliases (D : Type) := List (Name × AliasDef D)

/-- The indices with their aliases, and the data streams. -/
structure State (D : Type) where
  indices : List (Name × Aliases D)
  streams : List Name

variable {D : Type}

namespace State

/-- The indices. -/
def names (s : State D) : List Name := s.indices.map Prod.fst

/-- The aliases of one. -/
def aliasesOf (s : State D) (n : Name) : Option (Aliases D) := s.indices.lookup n

/-- An alias on an index. -/
def defOn (s : State D) (n a : Name) : Option (AliasDef D) :=
  (s.aliasesOf n).bind (List.lookup a)

/-- The aliases of an index, changed. -/
def update (s : State D) (n : Name) (f : Aliases D → Aliases D) : State D :=
  { s with indices := s.indices.map fun i => if i.1 = n then (i.1, f i.2) else i }

/-- The names of a state. -/
def named (s : State D) : Store.Resolve.State :=
  { indices := s.indices.map fun i => (i.1, i.2.map Prod.fst), streams := s.streams }

end State

/-- An alias, in place of the one of its name. -/
def insert (l : Aliases D) (a : Name) (d : AliasDef D) : Aliases D :=
  (a, d) :: l.filter (·.1 != a)

/-- An alias taken off. -/
def remove (l : Aliases D) (a : Name) : Aliases D := l.filter (·.1 != a)

/-! ## Names -/

/-- `{:06}` -/
def padded (n : ℕ) : Name :=
  let ds := Nat.toDigits 10 n
  List.replicate (6 - ds.length) '0' ++ ds

/-- The name that is next. -/
def nextRolloverName (current : Name) : Option Name :=
  let stem := current.rdropWhile Char.isDigit
  let digits := current.rtakeWhile Char.isDigit
  if digits = [] then none
  else
    let num := Nat.ofDigitChars 10 digits 0
    if num < 2 ^ 64 then some (stem ++ padded ((num + 1) % 2 ^ 64)) else none

/-! ## Rolling over -/

/-- A rollover step by step: the new index is there, the alias is taken from the old one, it is
given to the new one. -/
structure Rolled (D : Type) where
  name : Name
  created : State D
  released : State D
  taken : State D

section

-- an alias definition with nothing in it
variable (empty : D)

/-- `made` is what the new index holds of its own, from the templates and the request, or nothing
where it cannot be made. -/
def rollAlias (s : State D) (a old new : Name) (made : Option (Aliases D)) : Option (Rolled D) :=
  match s.aliasesOf old, made with
  | some aliases, some own =>
    let held := (aliases.lookup a).getD ⟨none, empty⟩
    let wasWriteAlias := held.isWriteIndex.getD false
    if new ∈ s.names then none
    else
      let created := { s with indices := (new, own) :: s.indices }
      let released := created.update old fun l =>
        if wasWriteAlias then
          insert l a { (l.lookup a).getD ⟨none, empty⟩ with isWriteIndex := some false }
        else remove l a
      some ⟨new, created, released, released.update new fun l => insert l a held⟩
  | _, _ => none

/-- `rollover` of the endpoint, for an alias or a stream. -/
def endpoint (date : Name → Name) (s : State D) (a : Name) (asked : Option Name)
    (made : Option (Aliases D)) : Option (Rolled D) :=
  let backing := s.named.backingIndices a
  let behind := if backing = [] then storeResolve date s.named a else backing.getLast?.toList
  match behind with
  | [old] =>
    match asked.or (nextRolloverName old) with
    | none => none
    | some new =>
      if new.any forbidden.contains then none
      else if new ∈ s.names then none
      else if backing = [] then rollAlias empty s a old new made
      else made.map fun own =>
        let created := { s with indices := (new, own) :: s.indices }
        ⟨new, created, created, created⟩
  | _ => none

/-- The alias an index is written through. -/
def writeAliasOf (s : State D) (index : Name) : Option Name :=
  (s.aliasesOf index).bind fun l =>
    match l.find? fun x => x.2.isWriteIndex.getD false with
    | some x => some x.1
    | none =>
      match l.filter fun x => x.2.isWriteIndex != some false with
      | [x] => some x.1
      | _ => none

/-- `rollover` of a policy. -/
def policy (s : State D) (index : Name) (made : Option (Aliases D)) : Option (Rolled D) :=
  match writeAliasOf s index, nextRolloverName index with
  | some a, some new => rollAlias empty s a index new made
  | _, _ => none

/-- Who asks for it. -/
inductive By where
  | endpoint (asked : Option Name)
  | policy

/-- How it is asked for. -/
structure Way (D : Type) where
  how : By
  made : Option (Aliases D)

/-- One rollover of an alias that leads to `n`. -/
def roll (date : Name → Name) (s : State D) (a n : Name) (w : Way D) : Option (Rolled D) :=
  match w.how with
  | .endpoint asked => endpoint empty date s a asked w.made
  | .policy => policy empty s n w.made

end

/-! ## What a rollover is for -/

/-- The index is the alias's write index. -/
def Claims (s : State D) (a n : Name) : Prop :=
  ∃ d, s.defOn n a = some d ∧ d.isWriteIndex = some true

/-- The one place an alias is written to: the index that says so, or the only one behind an alias
that says nothing. -/
def Leads (s : State D) (a n : Name) : Prop :=
  ∃ d, s.defOn n a = some d ∧
    ((d.isWriteIndex = some true ∧ ∀ m, Claims s a m → m = n) ∨
      (d.isWriteIndex = none ∧ ∀ m, (s.defOn m a).isSome → m = n))

/-- A rollover as it should be: never two indices to write to, then the new one alone, under a name
there was not before; the alias with the definition it had, and its filter and routings wherever it
remains. -/
structure Advances (s : State D) (a n : Name) (r : Rolled D) : Prop where
  one : ∀ t ∈ [r.created, r.released, r.taken], ∀ i j, Claims t a i → Claims t a j → i = j
  leads : Leads r.taken a r.name
  fresh : r.name ∉ s.names
  names : r.taken.names = r.name :: s.names
  same : r.taken.defOn r.name a = s.defOn n a
  kept : ∀ m d, m ≠ r.name → r.taken.defOn m a = some d →
    ∃ d', s.defOn m a = some d' ∧ d.rest = d'.rest

section Runs

variable (empty : D) (date : Name → Name) (a : Name)

/-- Each of them works. -/
def Rollovers : State D → Name → List (Way D) → Prop
  | _, _, [] => True
  | s, n, w :: ws =>
    ∃ r, roll empty date s a n w = some r ∧ Advances s a n r ∧ Rollovers r.taken r.name ws

/-- What a new index brings takes nothing from the alias. -/
def Apart (s : State D) (n : Name) (made : Option (Aliases D)) : Prop :=
  ∃ own, made = some own ∧
    (Claims s a n → ∀ d, own.lookup a = some d → d.isWriteIndex ≠ some true)

/-- The condition on a rollover: the endpoint finds the alias behind the one index, the policy finds
no other alias on it; there is a next name, not taken; and the new index is made apart. -/
def Ready (s : State D) (n : Name) (w : Way D) : Prop :=
  Apart a s n w.made ∧
    match w.how with
    | .endpoint asked =>
      s.named.backingIndices a = [] ∧ storeResolve date s.named a = [n] ∧
        ∃ new, asked.or (nextRolloverName n) = some new ∧
          new.any forbidden.contains = false ∧ new ∉ s.names
    | .policy =>
      writeAliasOf s n = some a ∧ ∃ new, nextRolloverName n = some new ∧ new ∉ s.names

/-- Each of them is ready. -/
def AllReady : State D → Name → List (Way D) → Prop
  | _, _, [] => True
  | s, n, w :: ws =>
    Ready date a s n w ∧ ∀ r, roll empty date s a n w = some r → AllReady r.taken r.name ws

end Runs

/-! ## Aliases of an index -/

theorem lookup_cons_if {β : Type} (x : Name × β) (l : List (Name × β)) (b : Name) :
    (x :: l).lookup b = if b = x.1 then some x.2 else l.lookup b := by
  rw [List.lookup_cons]
  by_cases h : b = x.1
  · rw [if_pos h, h, beq_self_eq_true]
  · rw [if_neg h, beq_false_of_ne h]

theorem lookup_remove (l : Aliases D) (a b : Name) :
    (remove l a).lookup b = if b = a then none else l.lookup b := by
  unfold remove
  induction l with
  | nil => simp
  | cons x l ih =>
    by_cases hx : x.1 = a
    · rw [List.filter_cons_of_neg (by simp [hx]), ih, lookup_cons_if, hx]
      by_cases h : b = a
      · rw [if_pos h, if_pos h]
      · rw [if_neg h, if_neg h, if_neg h]
    · rw [List.filter_cons_of_pos (by simp [hx]), lookup_cons_if, lookup_cons_if, ih]
      by_cases h : b = x.1
      · rw [if_pos h, if_pos h, if_neg (fun hb => hx (h.symm.trans hb))]
      · rw [if_neg h, if_neg h]

theorem lookup_insert (l : Aliases D) (a b : Name) (d : AliasDef D) :
    (insert l a d).lookup b = if b = a then some d else l.lookup b := by
  have hrest := lookup_remove l a b
  unfold insert
  unfold remove at hrest
  rw [lookup_cons_if, hrest]
  by_cases h : b = a
  · rw [if_pos h, if_pos h]
  · rw [if_neg h, if_neg h, if_neg h]

theorem aliasesOf_update (s : State D) (n m : Name) (f : Aliases D → Aliases D) :
    (s.update n f).aliasesOf m =
      if m = n then (s.aliasesOf n).map f else s.aliasesOf m := by
  obtain ⟨indices, streams⟩ := s
  unfold State.update State.aliasesOf
  induction indices with
  | nil => simp
  | cons i indices ih =>
    simp only [List.map_cons, lookup_cons_if] at ih ⊢
    rw [ih]
    by_cases hi : i.1 = n
    · rw [if_pos hi]
      by_cases hm : m = n
      · simp [hm, hi]
      · simp [hm, hi]
    · rw [if_neg hi]
      by_cases hm : m = n
      · simp [hm, Ne.symm hi]
      · simp [hm]

theorem names_update (s : State D) (n : Name) (f : Aliases D → Aliases D) :
    (s.update n f).names = s.names := by
  unfold State.update State.names
  rw [List.map_map]
  apply List.map_congr_left
  intro i _
  show (if i.1 = n then (i.1, f i.2) else i).1 = i.1
  split <;> rfl

theorem defOn_update (s : State D) (n m b : Name) (f : Aliases D → Aliases D) :
    (s.update n f).defOn m b =
      if m = n then (s.aliasesOf n).bind fun l => (f l).lookup b else s.defOn m b := by
  unfold State.defOn
  rw [aliasesOf_update]
  by_cases h : m = n
  · rw [if_pos h, if_pos h, Option.bind_map]
    rfl
  · rw [if_neg h, if_neg h]

theorem mem_names_of_aliasesOf {s : State D} {n : Name} {l : Aliases D}
    (h : s.aliasesOf n = some l) : n ∈ s.names := by
  unfold State.aliasesOf at h
  obtain ⟨before, after, hi, -⟩ := List.lookup_eq_some_iff.mp h
  exact List.mem_map.mpr ⟨(n, l), by rw [hi]; simp, rfl⟩

theorem mem_names_of_defOn {s : State D} {n a : Name} {d : AliasDef D}
    (h : s.defOn n a = some d) : n ∈ s.names := by
  obtain ⟨l, hl, -⟩ := Option.bind_eq_some_iff.mp h
  exact mem_names_of_aliasesOf hl

/-! ## What rolling an alias does -/

section Roll

variable {empty : D} {s : State D} {a old new : Name} {own : Aliases D} {r : Rolled D}

/-- What one comes to. -/
structure Steps (s : State D) (a old new : Name) (own : Aliases D) (d : AliasDef D)
    (r : Rolled D) : Prop where
  name : r.name = new
  fresh : new ∉ s.names
  names : r.taken.names = new :: s.names
  created : ∀ m b, r.created.defOn m b = if m = new then own.lookup b else s.defOn m b
  released : ∀ m b, r.released.defOn m b =
    if m = old ∧ b = a then
      if d.isWriteIndex = some true then some { d with isWriteIndex := some false } else none
    else r.created.defOn m b
  taken : ∀ m b, r.taken.defOn m b =
    if m = new ∧ b = a then some d else r.released.defOn m b
  front : r.taken.aliasesOf new = some (insert own a d)

theorem steps_of_rollAlias {d : AliasDef D} (hd : s.defOn old a = some d)
    {made : Option (Aliases D)} (h : rollAlias empty s a old new made = some r) :
    ∃ own, made = some own ∧ Steps s a old new own d r := by
  obtain ⟨l, hl, hla⟩ := Option.bind_eq_some_iff.mp hd
  have hold := mem_names_of_aliasesOf hl
  cases made with
  | none =>
    unfold rollAlias at h
    rw [hl] at h
    cases h
  | some own =>
    refine ⟨own, rfl, ?_⟩
    unfold rollAlias at h
    rw [hl] at h
    simp only [hla, Option.getD_some] at h
    split at h
    · cases h
    · rename_i hnew
      have hne : old ≠ new := fun heq => hnew (heq ▸ hold)
      cases h
      have hcreated : ∀ m b, (State.mk ((new, own) :: s.indices) s.streams).defOn m b =
          if m = new then own.lookup b else s.defOn m b := by
        intro m b
        unfold State.defOn State.aliasesOf
        simp only [lookup_cons_if]
        split <;> rfl
      have hcold : (State.mk ((new, own) :: s.indices) s.streams).aliasesOf old = some l := by
        unfold State.aliasesOf
        simp only [lookup_cons_if]
        rw [if_neg hne]
        exact hl
      have hnewl : ∀ f : Aliases D → Aliases D,
          ((State.mk ((new, own) :: s.indices) s.streams).update old f).aliasesOf new =
            some own := by
        intro f
        rw [aliasesOf_update, if_neg (Ne.symm hne)]
        unfold State.aliasesOf
        rw [lookup_cons_if, if_pos rfl]
      refine ⟨rfl, hnew, ?_, hcreated, ?_, ?_, ?_⟩
      · simp only [names_update]
        rfl
      · intro m b
        simp only [defOn_update, hcold, Option.bind_some]
        by_cases hm : m = old
        · rw [if_pos hm, hm, hcreated, if_neg hne]
          have hb : s.defOn old b = l.lookup b := by
            unfold State.defOn
            rw [hl]
            rfl
          cases hw : d.isWriteIndex with
          | none => simp [lookup_remove, hb]
          | some w =>
            cases w with
            | true => simp [lookup_insert, hla, hb]
            | false => simp [lookup_remove, hb]
        · rw [if_neg hm, if_neg (fun hmb => hm hmb.1)]
      · intro m b
        simp only [defOn_update]
        by_cases hm : m = new
        · rw [if_pos hm, hm]
          rw [hnewl, if_neg (Ne.symm hne), Option.bind_some, lookup_insert, hcreated, if_pos rfl]
          simp
        · simp [hm]
      · simp only [aliasesOf_update, if_pos]
        rw [← aliasesOf_update, hnewl, Option.map_some]

theorem rollAlias_of_fresh (empty : D) {d : AliasDef D} (hd : s.defOn old a = some d) (hnew : new ∉ s.names)
    (own : Aliases D) : ∃ r, rollAlias empty s a old new (some own) = some r := by
  obtain ⟨l, hl, -⟩ := Option.bind_eq_some_iff.mp hd
  unfold rollAlias
  rw [hl]
  simp only [if_neg hnew]
  exact ⟨_, rfl⟩

theorem frame_of_rollAlias {made : Option (Aliases D)}
    (h : rollAlias empty s a old new made = some r) :
    r.name = new ∧ new ∉ s.names ∧
      ∀ m b, m ≠ new → (m ≠ old ∨ b ≠ a) → r.taken.defOn m b = s.defOn m b := by
  unfold rollAlias at h
  split at h
  · rename_i l own hl
    dsimp only at h
    split at h
    · cases h
    · rename_i hnew
      cases h
      refine ⟨rfl, hnew, fun m b hm hmb => ?_⟩
      have hadd : (State.mk ((new, own) :: s.indices) s.streams).aliasesOf m = s.aliasesOf m := by
        unfold State.aliasesOf
        rw [lookup_cons_if, if_neg hm]
      simp only [defOn_update, if_neg hm]
      by_cases hold : m = old
      · have hb : b ≠ a := by
          cases hmb with
          | inl hne => exact absurd hold hne
          | inr hb => exact hb
        rw [if_pos hold, ← hold, hadd]
        rw [← hold] at hl
        unfold State.defOn
        rw [hl, Option.bind_some, Option.bind_some]
        split
        · rw [lookup_insert, if_neg hb]
        · rw [lookup_remove, if_neg hb]
      · rw [if_neg hold]
        unfold State.defOn
        rw [hadd]
  · cases h

/-! ## One rollover -/

variable {n : Name}

theorem advances_of_steps (h : Leads s a n) {d : AliasDef D} (hd : s.defOn n a = some d)
    (hs : Steps s a n new own d r) (hapart : Apart a s n (some own)) : Advances s a n r := by
  have hn : n ≠ new := fun heq => hs.fresh (heq ▸ mem_names_of_defOn hd)
  obtain ⟨own', hown, hclaim⟩ := hapart
  cases hown
  obtain ⟨d', hd', hlead⟩ := h
  rw [hd] at hd'
  cases hd'
  -- whoever says it is written to before is the index the alias leads to
  have hbefore : ∀ m, Claims s a m → m = n ∧ d.isWriteIndex = some true := by
    intro m hm
    obtain ⟨dm, hdm, hwm⟩ := hm
    cases hlead with
    | inl hw => exact ⟨hw.2 m ⟨dm, hdm, hwm⟩, hw.1⟩
    | inr hp =>
      have hmn := hp.2 m (by rw [hdm]; rfl)
      rw [hmn, hd] at hdm
      cases hdm
      rw [hp.1] at hwm
      cases hwm
  have hcreated : ∀ i j, Claims r.created a i → Claims r.created a j → i = j := by
    have side : ∀ i, Claims r.created a i → (i = new ∧ d.isWriteIndex ≠ some true) ∨
        (i = n ∧ d.isWriteIndex = some true) := by
      intro i hi
      obtain ⟨di, hdi, hwi⟩ := hi
      rw [hs.created] at hdi
      split at hdi
      · rename_i hin
        left
        refine ⟨hin, fun hw => ?_⟩
        exact hclaim ⟨d, hd, hw⟩ di hdi hwi
      · right
        exact hbefore i ⟨di, hdi, hwi⟩
    intro i j hi hj
    cases side i hi with
    | inl hi =>
      cases side j hj with
      | inl hj => rw [hi.1, hj.1]
      | inr hj => exact absurd hj.2 hi.2
    | inr hi =>
      cases side j hj with
      | inl hj => exact absurd hi.2 hj.2
      | inr hj => rw [hi.1, hj.1]
  have hreleased : ∀ i, Claims r.released a i → i = new := by
    intro i hi
    obtain ⟨di, hdi, hwi⟩ := hi
    rw [hs.released] at hdi
    split at hdi
    · split at hdi
      · cases hdi
        cases hwi
      · cases hdi
    · rename_i hin
      rw [hs.created] at hdi
      split at hdi
      · assumption
      · exact absurd ⟨(hbefore i ⟨di, hdi, hwi⟩).1, rfl⟩ hin
  have htaken : ∀ i, Claims r.taken a i → i = new := by
    intro i hi
    obtain ⟨di, hdi, hwi⟩ := hi
    rw [hs.taken] at hdi
    split at hdi
    · rename_i hin
      exact hin.1
    · exact hreleased i ⟨di, hdi, hwi⟩
  have hnew : r.taken.defOn new a = some d := by
    rw [hs.taken, if_pos ⟨rfl, rfl⟩]
  refine ⟨?_, ?_, by rw [hs.name]; exact hs.fresh, by rw [hs.names, hs.name], ?_, ?_⟩
  · intro t ht i j hi hj
    rcases List.mem_cons.mp ht with rfl | ht
    · exact hcreated i j hi hj
    rcases List.mem_cons.mp ht with rfl | ht
    · rw [hreleased i hi, hreleased j hj]
    · rw [List.mem_singleton.mp ht] at hi hj
      rw [htaken i hi, htaken j hj]
  · rw [hs.name]
    refine ⟨d, hnew, ?_⟩
    cases hlead with
    | inl hw => exact Or.inl ⟨hw.1, htaken⟩
    | inr hp =>
      right
      refine ⟨hp.1, fun m hm => ?_⟩
      by_cases hmn : m = new
      · exact hmn
      · rw [hs.taken, if_neg (fun hx => hmn hx.1), hs.released] at hm
        split at hm
        · rw [if_neg (by rw [hp.1]; simp)] at hm
          cases hm
        · rename_i hin
          rw [hs.created, if_neg hmn] at hm
          exact absurd ⟨hp.2 m hm, rfl⟩ hin
  · rw [hs.name, hnew, hd]
  · intro m dm hm hdm
    rw [hs.name] at hm
    rw [hs.taken, if_neg (fun hx => hm hx.1), hs.released] at hdm
    split at hdm
    · rename_i hin
      split at hdm
      · cases hdm
        exact ⟨d, by rw [hin.1]; exact hd, rfl⟩
      · cases hdm
    · rw [hs.created, if_neg hm] at hdm
      exact ⟨dm, hdm, rfl⟩

theorem not_advances_of_kept (h : Leads s a n) (hkept : r.taken.defOn n a = s.defOn n a)
    (hadv : Advances s a n r) : False := by
  obtain ⟨d, hd, -⟩ := h
  have hne : n ≠ r.name := fun heq => hadv.fresh (heq ▸ mem_names_of_defOn hd)
  obtain ⟨d', hd', hlead⟩ := hadv.leads
  have hsame := hadv.same
  rw [hd', hd] at hsame
  cases hsame
  rw [hd] at hkept
  cases hlead with
  | inl hw => exact hne (hw.2 n ⟨d, hkept, hw.1⟩)
  | inr hp => exact hne (hp.2 n (by rw [hkept]; rfl))

end Roll

theorem advances_iff_ready (empty : D) (date : Name → Name) {s : State D} {a n : Name}
    (h : Leads s a n) (w : Way D) :
    (∃ r, roll empty date s a n w = some r ∧ Advances s a n r) ↔ Ready date a s n w := by
  obtain ⟨d, hd, hlead⟩ := h
  have h : Leads s a n := ⟨d, hd, hlead⟩
  -- what the new index is made with, read off a rollover that went through
  have apart : ∀ {new r}, rollAlias empty s a n new w.made = some r → Advances s a n r →
      Apart a s n w.made := by
    intro new r hr hadv
    obtain ⟨own, hmade, hs⟩ := steps_of_rollAlias hd hr
    refine ⟨own, hmade, fun hclaims d' hd' hw => ?_⟩
    have hne : n ≠ new := fun heq => hs.fresh (heq ▸ mem_names_of_defOn hd)
    have hold : Claims r.created a n := by
      obtain ⟨dn, hdn, hwn⟩ := hclaims
      exact ⟨dn, by rw [hs.created, if_neg hne]; exact hdn, hwn⟩
    have hnew : Claims r.created a new :=
      ⟨d', by rw [hs.created, if_pos rfl]; exact hd', hw⟩
    exact hne (hadv.one r.created (by simp) n new hold hnew)
  constructor
  · intro hx
    obtain ⟨r, hr, hadv⟩ := hx
    unfold roll at hr
    unfold Ready
    cases hway : w.how with
    | endpoint asked =>
      rw [hway] at hr
      unfold endpoint at hr
      dsimp only at hr
      split at hr
      · rename_i old hbehind
        split at hr
        · cases hr
        · rename_i new hnew
          split at hr
          · cases hr
          · rename_i hchars
            split at hr
            · cases hr
            · rename_i hfree
              split at hr
              · rename_i hbacking
                rw [if_pos hbacking] at hbehind
                by_cases hon : n = old
                · rw [← hon] at hr hbehind hnew
                  exact ⟨apart hr hadv, hbacking, hbehind, new, hnew, by simpa using hchars, hfree⟩
                · obtain ⟨-, -, hframe⟩ := frame_of_rollAlias hr
                  have hne : n ≠ new := fun heq => hfree (heq ▸ mem_names_of_defOn hd)
                  exact (not_advances_of_kept h (hframe n a hne (Or.inl hon)) hadv).elim
              · -- a stream: the new index is made, and the alias stays where it is
                obtain ⟨own, -, rfl⟩ := Option.map_eq_some_iff.mp hr
                have hne : n ≠ new := fun heq => hfree (heq ▸ mem_names_of_defOn hd)
                have hkept : (State.mk ((new, own) :: s.indices) s.streams).defOn n a =
                    s.defOn n a := by
                  unfold State.defOn State.aliasesOf
                  rw [lookup_cons_if, if_neg hne]
                exact (not_advances_of_kept h hkept hadv).elim
      · cases hr
    | policy =>
      rw [hway] at hr
      unfold policy at hr
      dsimp only at hr
      split at hr
      · rename_i b new hb hnew
        obtain ⟨-, hfree, hframe⟩ := frame_of_rollAlias hr
        have hne : n ≠ new := fun heq => hfree (heq ▸ mem_names_of_defOn hd)
        by_cases hab : a = b
        · rw [← hab] at hr hb
          exact ⟨apart hr hadv, hb, new, hnew, hfree⟩
        · exact (not_advances_of_kept h (hframe n a hne (Or.inr hab)) hadv).elim
      · cases hr
  · intro hready
    obtain ⟨hapart, hway⟩ := hready
    obtain ⟨own, hmade, hclaim⟩ := hapart
    have go : ∀ {new}, new ∉ s.names → ∃ r, rollAlias empty s a n new w.made = some r ∧
        Advances s a n r := by
      intro new hfree
      obtain ⟨r, hr⟩ := rollAlias_of_fresh empty hd hfree own
      rw [hmade]
      obtain ⟨own', hown', hs⟩ := steps_of_rollAlias hd hr
      cases hown'
      exact ⟨r, hr, advances_of_steps h hd hs ⟨own, rfl, hclaim⟩⟩
    unfold roll
    cases hhow : w.how with
    | endpoint asked =>
      rw [hhow] at hway
      obtain ⟨hbacking, hbehind, new, hnew, hchars, hfree⟩ := hway
      obtain ⟨r, hr, hadv⟩ := go hfree
      refine ⟨r, ?_, hadv⟩
      unfold endpoint
      simp only [hbacking, if_pos, hbehind, hnew, hchars, if_neg hfree]
      exact hr
    | policy =>
      rw [hhow] at hway
      obtain ⟨hb, new, hnew, hfree⟩ := hway
      obtain ⟨r, hr, hadv⟩ := go hfree
      refine ⟨r, ?_, hadv⟩
      unfold policy
      rw [hb, hnew]
      exact hr

/-- Any number of rollovers one after another, by the endpoint or by a policy, go through and keep
one place to write, just where each of them is ready when it comes. -/
theorem rollovers_iff_ready {empty : D} {date : Name → Name} {s : State D} {a n : Name}
    (h : Leads s a n) (ws : List (Way D)) :
    Rollovers empty date a s n ws ↔ AllReady empty date a s n ws := by
  induction ws generalizing s n with
  | nil => exact Iff.rfl
  | cons w ws ih =>
    have hone := advances_iff_ready empty date h w
    constructor
    · rintro ⟨r, hr, hadv, hrest⟩
      refine ⟨hone.mp ⟨r, hr, hadv⟩, fun r' hr' => ?_⟩
      rw [hr] at hr'
      cases hr'
      exact (ih hadv.leads).mp hrest
    · rintro ⟨hready, hrest⟩
      obtain ⟨r, hr, hadv⟩ := hone.mpr hready
      exact ⟨r, hr, hadv, (ih hadv.leads).mpr (hrest r hr)⟩

/-! ## Rolling on and on -/

@[simp] theorem ofDigitChars_padded (m : ℕ) : Nat.ofDigitChars 10 (padded m) 0 = m := by
  unfold padded
  rw [Nat.ofDigitChars_append, Nat.ofDigitChars_replicate_zero, Nat.mul_zero,
    Nat.ofDigitChars_ten_toDigits]

theorem padded_inj {m k : ℕ} (h : padded m = padded k) : m = k := by
  rw [← ofDigitChars_padded m, h, ofDigitChars_padded]

theorem padded_digits (m : ℕ) : ∀ c ∈ padded m, c.isDigit = true := by
  intro c hc
  cases List.mem_append.mp hc with
  | inl hc => rw [(List.mem_replicate.mp hc).2]; decide
  | inr hc => exact Nat.isDigit_of_mem_toDigits (by decide) (by decide) hc

theorem padded_ne_nil (m : ℕ) : padded m ≠ [] :=
  fun h => Nat.toDigits_ne_nil (List.append_eq_nil_iff.mp h).2

theorem nextRolloverName_of_digits {stem digits : Name} (some_ : digits ≠ [])
    (hdigits : ∀ c ∈ digits, c.isDigit = true)
    (hstem : ∀ c, stem.getLast? = some c → c.isDigit = false)
    (hfits : Nat.ofDigitChars 10 digits 0 + 1 < 2 ^ 64) :
    nextRolloverName (stem ++ digits) =
      some (stem ++ padded (Nat.ofDigitChars 10 digits 0 + 1)) := by
  have hrev : ∀ c ∈ digits.reverse, c.isDigit = true :=
    fun c hc => hdigits c (List.mem_reverse.mp hc)
  have hdrop : stem.reverse.dropWhile Char.isDigit = stem.reverse ∧
      stem.reverse.takeWhile Char.isDigit = [] := by
    cases hr : stem.reverse with
    | nil => exact ⟨rfl, rfl⟩
    | cons c rest =>
      have hc : c.isDigit = false := by
        apply hstem
        rw [← List.head?_reverse, hr]
        rfl
      rw [List.dropWhile_cons_of_neg (by simp [hc]), List.takeWhile_cons_of_neg (by simp [hc])]
      exact ⟨rfl, rfl⟩
  have hstem' : (stem ++ digits).rdropWhile Char.isDigit = stem := by
    unfold List.rdropWhile
    rw [List.reverse_append, List.dropWhile_append_of_pos hrev, hdrop.1, List.reverse_reverse]
  have hdigits' : (stem ++ digits).rtakeWhile Char.isDigit = digits := by
    unfold List.rtakeWhile
    rw [List.reverse_append, List.takeWhile_append_of_pos hrev, hdrop.2, List.append_nil,
      List.reverse_reverse]
  unfold nextRolloverName
  simp only [hstem', hdigits', if_neg some_]
  rw [if_pos (by omega), Nat.mod_eq_of_lt hfits]

theorem policy_goes_on {empty : D} {date : Name → Name} {s : State D} {a n : Name} (stem : Name)
    (num : ℕ) (h : Leads s a n) (hwrite : writeAliasOf s n = some a)
    (hstem : ∀ c, stem.getLast? = some c → c.isDigit = false)
    (hnext : nextRolloverName n = some (stem ++ padded (num + 1))) {k : ℕ}
    (hfits : num + k + 1 < 2 ^ 64) (hfree : ∀ i < k, stem ++ padded (num + 1 + i) ∉ s.names) :
    AllReady empty date a s n (List.replicate k ⟨.policy, some []⟩) := by
  induction k generalizing s n num with
  | zero => exact trivial
  | succ k ih =>
    have hready : Ready date a s n (⟨.policy, some []⟩ : Way D) :=
      ⟨⟨[], rfl, fun _ d hd => by cases hd⟩, hwrite, _, hnext, hfree 0 (by omega)⟩
    refine ⟨hready, fun r hr => ?_⟩
    obtain ⟨d, hd, hlead⟩ := h
    obtain ⟨r', hr', hadv⟩ := (advances_iff_ready empty date ⟨d, hd, hlead⟩ _).mpr hready
    rw [hr] at hr'
    cases hr'
    -- the new index has the alias and no other
    have hroll : rollAlias empty s a n (stem ++ padded (num + 1)) (some []) = some r := by
      have hp : policy empty s n (some []) = some r := hr
      unfold policy at hp
      rwa [hwrite, hnext] at hp
    obtain ⟨own, hown, hs⟩ := steps_of_rollAlias hd hroll
    cases hown
    have hwrite' : writeAliasOf r.taken r.name = some a := by
      unfold writeAliasOf
      rw [hs.name, hs.front, Option.bind_some]
      cases hlead with
      | inl hw => simp [insert, hw.1]
      | inr hp => simp [insert, hp.1]
    refine ih (num + 1) hadv.leads hwrite' ?_ (by omega) ?_
    · have h1 := nextRolloverName_of_digits (padded_ne_nil (num + 1))
        (padded_digits (num + 1)) hstem (by rw [ofDigitChars_padded]; omega)
      rw [ofDigitChars_padded] at h1
      rw [hs.name]
      exact h1
    · intro i hi hmem
      rw [hs.names] at hmem
      cases List.mem_cons.mp hmem with
      | inl heq =>
        have := padded_inj (List.append_cancel_left heq)
        omega
      | inr hmem =>
        have hnot := hfree (i + 1) (by omega)
        rw [show num + 1 + (i + 1) = num + 1 + 1 + i by omega] at hnot
        exact hnot hmem

/-! ## Two rollovers of a write alias -/

def logs : State Unit where
  indices := [("logs-1".toList, [("logs".toList, ⟨some true, ()⟩)])]
  streams := []

theorem logs_leads : Leads logs "logs".toList "logs-1".toList := by
  refine ⟨⟨some true, ()⟩, by decide, Or.inl ⟨rfl, fun m hm => ?_⟩⟩
  obtain ⟨d, hd, -⟩ := hm
  have hmem := mem_names_of_defOn hd
  simpa [State.names, logs] using hmem

/-- By a policy, three in a row. -/
theorem rollovers_iff_ready_logs :
    Rollovers () id "logs".toList logs "logs-1".toList (List.replicate 3 ⟨.policy, some []⟩) := by
  refine (rollovers_iff_ready logs_leads _).mpr ?_
  have hstem : ∀ c, "logs-".toList.getLast? = some c → c.isDigit = false := by
    intro c hc
    have hc : some '-' = some c := hc
    cases hc
    decide
  exact policy_goes_on "logs-".toList 1 logs_leads (by decide) hstem (by decide) (by decide)
    (by decide)

/-- By the endpoint, one and no more: its alias is behind two indices after the first. -/
theorem second_rollover_refused :
    ¬ Rollovers () id "logs".toList logs "logs-1".toList
      (List.replicate 2 ⟨.endpoint none, some []⟩) := by
  rintro ⟨r, hr, -, r', hr', -⟩
  have hfirst : (roll () id logs "logs".toList "logs-1".toList ⟨.endpoint none, some []⟩).bind
      (fun r => (endpoint () id r.taken "logs".toList none (some [])).map Rolled.name) = none := by
    decide
  rw [hr, Option.bind_some] at hfirst
  have hr' : endpoint () id r.taken "logs".toList none (some []) = some r' := hr'
  rw [hr'] at hfirst
  cases hfirst

end Velosearch.Rollover

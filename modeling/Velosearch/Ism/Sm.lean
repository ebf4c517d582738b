import Velosearch.Store.Names
import Mathlib.Data.List.Sort
import Mathlib.Data.Prod.Lex
import Mathlib.Data.Char
import Mathlib.Data.List.Lex
import Mathlib.Data.List.Pairwise
import Mathlib.Order.Lattice

/-!
# Snapshot retention

A repository's records as snapshot policies, users and `delete_surplus` of `src/ism/sm.rs`
leave them.

* A record is what `snapshot_record` of `src/api/snapshot.rs` makes it, of which the
  retention reads the name and `start_time_in_millis`. `take` leaves that at 0; a snapshot
  taken by hand has the time written into it. Beside them stand when the snapshot was
  really taken and by which policy, which no record says.
* What the policy's date format makes of a time, in lower case, is a parameter.
* A snapshot that was not taken leaves no record.
-/

set_option autoImplicit false

namespace Velosearch.Ism

open Velosearch.Store

/-- A snapshot of the repository. -/
structure Snapshot where
  name : List Char
  startTimeInMillis : ℤ
  taken : ℤ
  takenBy : Option (List Char)
  deriving DecidableEq

/-- What a policy keeps. -/
structure Surplus where
  minCount : ℕ := 1
  maxAge : Option ℤ := none
  maxCount : Option ℕ := none

/-- A policy. -/
structure Policy where
  name : List Char
  stamp : ℤ → List Char
  condition : Surplus

/-- The name of a policy's snapshot. -/
def snapshotName (p : Policy) (now : ℤ) (suffix : List Char) : List Char :=
  p.name ++ '-' :: (p.stamp now ++ '-' :: suffix)

/-- What such a name begins with. -/
def leading (policy : List Char) : List Char :=
  policy ++ ['-']

/-! ## The repository -/

/-- The snapshots of a repository. -/
abbrev Repository : Type := List Snapshot

/-- A snapshot, in place of the one of its name. -/
def putSnapshot (repo : Repository) (s : Snapshot) : Repository :=
  repo.filter (fun t => t.name != s.name) ++ [s]

/-- `remove_snapshots`: the name is read as a pattern too. -/
def removeSnapshots (repo : Repository) (pattern : List Char) : Repository :=
  repo.filter fun s => !(s.name == pattern || wildcardMatch pattern s.name)

/-- What snapshots are ordered by. -/
def sortKey (s : Snapshot) : ℤ ×ₗ List Char :=
  toLex (s.startTimeInMillis, s.name)

/-- The snapshots a policy looks at. -/
def held (repo : Repository) (policy : List Char) : List Snapshot :=
  (repo.filter fun s => (leading policy).isPrefixOf s.name).insertionSort
    fun a b => sortKey a ≤ sortKey b

namespace Surplus

variable (c : Surplus) (now : ℤ) (len : ℕ)

/-- The snapshot is older than the policy keeps. -/
def tooOld (s : Snapshot) : Bool :=
  c.maxAge.any fun age => decide (age < now - s.startTimeInMillis)

/-- It is one too many. -/
def tooMany (at_ : ℕ) : Bool :=
  c.maxCount.any fun most => decide (most < len - at_)

/-- The loop of `delete_surplus`. -/
def gone : ℕ → ℕ → List Snapshot → List (List Char)
  | _, _, [] => []
  | at_, removed, s :: rest =>
    if len - removed ≤ c.minCount then []
    else if c.tooOld now s || c.tooMany len at_ then s.name :: gone (at_ + 1) (removed + 1) rest
    else gone (at_ + 1) removed rest

end Surplus

/-- What a policy keeps of the repository. -/
def deleteSurplus (repo : Repository) (p : Policy) (now : ℤ) : Repository :=
  let held := held repo p.name
  (p.condition.gone now held.length 0 0 held).foldl removeSnapshots repo

/-! ## Histories -/

/-- What happens to a repository. -/
inductive Event where
  | create (p : Policy) (now : ℤ) (suffix : List Char)
  | byHand (name : List Char) (startTimeInMillis now : ℤ)
  | remove (pattern : List Char)
  | deleteSurplus (p : Policy) (now : ℤ)

/-- One event. -/
def Event.apply (repo : Repository) : Event → Repository
  | .create p now suffix => putSnapshot repo {
      name := snapshotName p now suffix, startTimeInMillis := 0, taken := now
      takenBy := some p.name }
  | .byHand name startTimeInMillis now => putSnapshot repo {
      name, startTimeInMillis, taken := now, takenBy := none }
  | .remove pattern => removeSnapshots repo pattern
  | .deleteSurplus p now => Ism.deleteSurplus repo p now

/-! ## What a deletion may do -/

/-- The snapshots a policy took. -/
def own (repo : Repository) (policy : List Char) : List Snapshot :=
  repo.filter fun s => s.takenBy == some policy

/-- What a deletion may take. -/
structure Deletes (p : Policy) (now : ℤ) (before after : Repository) : Prop where
  own : ∀ s ∈ before, s ∉ after → s.takenBy = some p.name
  keeps : ∃ newest rest, (Ism.own before p.name).Perm (rest ++ newest) ∧
    newest.length = min p.condition.minCount (Ism.own before p.name).length ∧
    (∀ s ∈ rest, ∀ t ∈ newest, s.taken ≤ t.taken) ∧ ∀ s ∈ newest, s ∈ after
  reason : ∀ s ∈ before, s ∉ after →
    (∃ age, p.condition.maxAge = some age ∧ age < now - s.taken) ∨
      ∃ most, p.condition.maxCount = some most ∧
        most ≤ (Ism.own before p.name).countP fun t => t.name != s.name && decide (s.taken ≤ t.taken)

/-- Every deletion of a history does. -/
def Retained (repo : Repository) : List Event → Prop
  | [] => True
  | e :: rest =>
    (match e with
      | .deleteSurplus p now => Deletes p now repo (e.apply repo)
      | _ => True) ∧ Retained (e.apply repo) rest

/-! ## When it does -/

/-- A name with no wildcard in it. -/
def Literal (name : List Char) : Prop :=
  '*' ∉ name ∧ '?' ∉ name

/-- How many of the policy's snapshots are later. -/
def later (repo : Repository) (policy : List Char) (s : Snapshot) : ℕ :=
  (own repo policy).countP fun t => decide (s.name < t.name)

/-- What is asked of an event, where it comes. -/
def Spares (policies : List (List Char)) (repo : Repository) : Event → Prop
  | .create p now suffix =>
    Literal (snapshotName p now suffix) ∧
    (∀ q ∈ policies, q ≠ p.name → ¬ leading q <+: snapshotName p now suffix) ∧
    ∀ s ∈ own repo p.name, s.name < snapshotName p now suffix ∧ s.taken ≤ now
  | .byHand name _ _ => ∀ q ∈ policies, ¬ leading q <+: name
  | .remove _ => True
  | .deleteSurplus p now => p.name ∈ policies ∧
    ∀ age, p.condition.maxAge = some age → age < now → ∀ s ∈ own repo p.name,
      p.condition.minCount ≤ later repo p.name s →
      age < now - s.taken ∨ ∃ most, p.condition.maxCount = some most ∧ most ≤ later repo p.name s

/-- Of every event of a run. -/
def AllSpare (policies : List (List Char)) (repo : Repository) : List Event → Prop
  | [] => True
  | e :: rest => Spares policies repo e ∧ AllSpare policies (e.apply repo) rest

/-! ## Removing -/

/-- Removing snapshots one after another. -/
theorem foldl_removeSnapshots (names : List (List Char)) (repo : Repository) :
    names.foldl removeSnapshots repo = repo.filter fun s =>
      names.all fun name => !(s.name == name || wildcardMatch name s.name) := by
  induction names generalizing repo with
  | nil => exact (List.filter_eq_self.mpr fun _ _ => rfl).symm
  | cons name names ih =>
    rw [List.foldl_cons, ih, removeSnapshots, List.filter_filter]
    refine List.filter_congr fun s _ => ?_
    rw [List.all_cons, Bool.and_comm]

theorem foldl_removeSnapshots_literal {names : List (List Char)} (h : ∀ name ∈ names, Literal name)
    (repo : Repository) :
    names.foldl removeSnapshots repo = repo.filter fun s => decide (s.name ∉ names) := by
  rw [foldl_removeSnapshots]
  refine List.filter_congr fun s _ => ?_
  rw [Bool.eq_iff_iff, List.all_eq_true, decide_eq_true_eq]
  constructor
  · intro all mem
    have := all s.name mem
    simp at this
  · intro not name mem
    obtain ⟨stars, marks⟩ := h name mem
    have ne : s.name ≠ name := fun same => not (same ▸ mem)
    rw [wildcardMatch_plain stars marks]
    simp [ne, ne.symm]

/-! ## The surplus -/

namespace Surplus

variable {c : Surplus} {now : ℤ} {len : ℕ}

theorem gone_none {s : Snapshot} {at_ : ℕ} (keep : (c.tooOld now s || c.tooMany len at_) = false)
    {l : List Snapshot} (sorted : ∀ t ∈ l, s.startTimeInMillis ≤ t.startTimeInMillis)
    {later : ℕ} (after : at_ ≤ later) (removed : ℕ) : c.gone now len later removed l = [] := by
  induction l generalizing later with
  | nil => rfl
  | cons t l ih =>
    obtain ⟨young, few⟩ := Bool.or_eq_false_iff.mp keep
    have notOld : c.tooOld now t = false := by
      unfold tooOld at young ⊢
      cases maxAge : c.maxAge with
      | none => rfl
      | some age =>
        rw [maxAge] at young
        have newer := sorted t List.mem_cons_self
        simp only [Option.any_some, decide_eq_false_iff_not, not_lt] at young ⊢
        omega
    have notMany : c.tooMany len later = false := by
      unfold tooMany at few ⊢
      cases maxCount : c.maxCount with
      | none => rfl
      | some most =>
        rw [maxCount] at few
        simp only [Option.any_some, decide_eq_false_iff_not, not_lt] at few ⊢
        omega
    rw [gone, notOld, notMany]
    split
    · rfl
    · exact ih (fun u mem => sorted u (List.mem_cons_of_mem _ mem)) (by omega)

/-- **What goes** is the front of the list, up to the floor, each for its reason. -/
theorem gone_front {l : List Snapshot}
    (sorted : l.Pairwise fun s t => s.startTimeInMillis ≤ t.startTimeInMillis) (at_ : ℕ) :
    ∃ k ≤ l.length, c.gone now len at_ at_ l = (l.take k).map Snapshot.name ∧
      (k = 0 ∨ at_ + k + c.minCount ≤ len) ∧
      ∀ (i : ℕ) s, i < k → l[i]? = some s → (c.tooOld now s || c.tooMany len (at_ + i)) = true := by
  induction l generalizing at_ with
  | nil => exact ⟨0, le_refl _, rfl, .inl rfl, fun i s h => by omega⟩
  | cons s l ih =>
    obtain ⟨first, sorted⟩ := List.pairwise_cons.mp sorted
    rw [gone]
    by_cases floor : len - at_ ≤ c.minCount
    · rw [if_pos floor]
      exact ⟨0, by simp, rfl, .inl rfl, fun i s h => by omega⟩
    rw [if_neg floor]
    cases surplus : c.tooOld now s || c.tooMany len at_ with
    | false =>
      rw [if_neg Bool.false_ne_true, gone_none surplus first (by omega)]
      exact ⟨0, by simp, rfl, .inl rfl, fun i s h => by omega⟩
    | true =>
      rw [if_pos rfl]
      obtain ⟨k, short, eq, above, each⟩ := ih sorted (at_ + 1)
      refine ⟨k + 1, by simpa using short, ?_, .inr (by omega), fun i t less place => ?_⟩
      · rw [eq, List.take_succ_cons, List.map_cons]
      · cases i with
        | zero =>
          obtain rfl := Option.some.inj place
          exact surplus
        | succ i =>
          have := each i t (by omega) place
          rwa [Nat.add_right_comm, Nat.add_assoc] at this

end Surplus

/-! ## Names and times -/

/-- What holds of the repository: names say who took a snapshot, and when. -/
structure Told (policies : List (List Char)) (repo : Repository) : Prop where
  unique : repo.Pairwise fun s t => s.name ≠ t.name
  named : ∀ q ∈ policies, ∀ s ∈ repo, leading q <+: s.name → s.takenBy = some q
  ours : ∀ q ∈ policies, ∀ s ∈ repo, s.takenBy = some q →
    leading q <+: s.name ∧ s.startTimeInMillis = 0 ∧ Literal s.name
  inTime : ∀ q ∈ policies, ∀ s ∈ repo, ∀ t ∈ repo, s.takenBy = some q → t.takenBy = some q →
    s.name < t.name → s.taken ≤ t.taken

namespace Told

variable {policies : List (List Char)} {repo : Repository}

theorem sublist {fewer : Repository} (h : Told policies repo) (sub : fewer.Sublist repo) :
    Told policies fewer where
  unique := h.unique.sublist sub
  named := fun q hq s hs => h.named q hq s (sub.subset hs)
  ours := fun q hq s hs => h.ours q hq s (sub.subset hs)
  inTime := fun q hq s hs t ht => h.inTime q hq s (sub.subset hs) t (sub.subset ht)

/-- A snapshot that is taken is told from the others. -/
theorem put (h : Told policies repo) {s : Snapshot}
    (named : ∀ q ∈ policies, leading q <+: s.name → s.takenBy = some q)
    (ours : ∀ q ∈ policies, s.takenBy = some q →
      leading q <+: s.name ∧ s.startTimeInMillis = 0 ∧ Literal s.name)
    (last : ∀ q ∈ policies, s.takenBy = some q → ∀ t ∈ repo, t.takenBy = some q →
      t.name < s.name ∧ t.taken ≤ s.taken) :
    Told policies (putSnapshot repo s) := by
  have rest := h.sublist (List.filter_sublist (p := fun t => t.name != s.name) (l := repo))
  rw [putSnapshot]
  have cases_ : ∀ {t : Snapshot}, t ∈ repo.filter (fun t => t.name != s.name) ++ [s] →
      t ∈ repo.filter (fun t => t.name != s.name) ∨ t = s := by
    intro t mem
    simpa using mem
  constructor
  · refine List.pairwise_append.mpr ⟨rest.unique, List.pairwise_singleton _ _, ?_⟩
    intro t mem u hu
    rw [List.mem_singleton.mp hu]
    simpa using (List.mem_filter.mp mem).2
  · intro q hq t mem
    rcases cases_ mem with old | rfl
    · exact rest.named q hq t old
    · exact named q hq
  · intro q hq t mem
    rcases cases_ mem with old | rfl
    · exact rest.ours q hq t old
    · exact ours q hq
  · intro q hq t ht u hu byT byU less
    rcases cases_ ht with oldT | rfl <;> rcases cases_ hu with oldU | rfl
    · exact rest.inTime q hq t oldT u oldU byT byU less
    · exact (last q hq byU t (List.mem_of_mem_filter oldT) byT).2
    · -- the new name is after all the others
      exact absurd less (last q hq byT u (List.mem_of_mem_filter oldU) byU).1.asymm
    · exact le_refl _

/-- One event keeps them apart. -/
theorem apply (h : Told policies repo) {e : Event} (fine : Spares policies repo e) :
    Told policies (e.apply repo) := by
  cases e with
  | create p now suffix =>
    obtain ⟨literal, apart, last⟩ := fine
    refine h.put ?_ ?_ ?_
    · intro q hq starts
      by_contra other
      exact apart q hq (fun same => other (by rw [same])) starts
    · rintro q - same
      obtain rfl := Option.some.inj same
      refine ⟨⟨p.stamp now ++ '-' :: suffix, ?_⟩, rfl, literal⟩
      simp [leading, snapshotName]
    · rintro q - same t mem byT
      obtain rfl := Option.some.inj same
      exact last t (List.mem_filter.mpr ⟨mem, by simpa using byT⟩)
  | byHand name start now =>
    exact h.put (fun q hq starts => absurd starts (fine q hq)) (fun _ _ same => nomatch same)
      fun _ _ same => nomatch same
  | remove pattern => exact h.sublist List.filter_sublist
  | deleteSurplus p now =>
    refine h.sublist ?_
    show ((p.condition.gone _ _ _ _ _).foldl removeSnapshots repo).Sublist repo
    rw [foldl_removeSnapshots]
    exact List.filter_sublist

/-! ## One deletion -/

/-- Where no name stands for another policy's, a policy looks at its own. -/
theorem held_perm (h : Told policies repo) {q : List Char} (hq : q ∈ policies) :
    (held repo q).Perm (own repo q) := by
  have same : repo.filter (fun s => (leading q).isPrefixOf s.name) = own repo q := by
    refine List.filter_congr fun s mem => ?_
    rw [Bool.eq_iff_iff, List.isPrefixOf_iff_prefix, beq_iff_eq]
    exact ⟨h.named q hq s mem, fun by_ => (h.ours q hq s mem by_).1⟩
  rw [held, same]
  exact List.perm_insertionSort _ _

theorem held_strict (h : Told policies repo) {q : List Char} (hq : q ∈ policies) :
    (held repo q).Pairwise fun s t => s.name < t.name := by
  have perm := h.held_perm hq
  have sorted : (held repo q).Pairwise fun a b => sortKey a ≤ sortKey b :=
    List.pairwise_insertionSort _ _
  have apart : (held repo q).Pairwise fun s t => s.name ≠ t.name :=
    (perm.pairwise_iff fun ne => ne.symm).mpr (h.unique.sublist List.filter_sublist)
  refine List.Pairwise.imp_of_mem ?_ (sorted.and apart)
  rintro s t hs ht ⟨le, ne⟩
  have start : ∀ u ∈ held repo q, u.startTimeInMillis = 0 := by
    intro u hu
    obtain ⟨mem, by_⟩ := List.mem_filter.mp (perm.mem_iff.mp hu)
    exact (h.ours q hq u mem (by simpa using by_)).2.1
  rw [sortKey, sortKey, start s hs, start t ht, Prod.Lex.toLex_le_toLex] at le
  rcases le with less | ⟨-, le⟩
  · exact absurd less (lt_irrefl _)
  · exact lt_of_le_of_ne le ne

/-- How many are later is a matter of its place. -/
theorem later_eq (h : Told policies repo) {q : List Char} (hq : q ∈ policies) {i : ℕ}
    {s : Snapshot} (place : (held repo q)[i]? = some s) :
    later repo q s = (held repo q).length - (i + 1) := by
  obtain ⟨inside, eq⟩ := List.getElem?_eq_some_iff.mp place
  have strict := h.held_strict hq
  have split : held repo q = (held repo q).take i ++ s :: (held repo q).drop (i + 1) := by
    conv_lhs => rw [← List.take_append_drop i (held repo q), List.drop_eq_getElem_cons inside, eq]
  rw [split] at strict
  obtain ⟨-, tail, before⟩ := List.pairwise_append.mp strict
  have after := (List.pairwise_cons.mp tail).1
  rw [later, ← (h.held_perm hq).countP_eq]
  conv_lhs => rw [split]
  rw [List.countP_append, List.countP_cons_of_neg (by simp),
    List.countP_eq_zero.mpr fun t mem => by
      simpa using (before t mem s List.mem_cons_self).le,
    List.countP_eq_length.mpr fun t mem => by simpa using after t mem, List.length_drop]
  omega

theorem later_le (h : Told policies repo) {q : List Char} (hq : q ∈ policies) {s : Snapshot}
    (mem : s ∈ own repo q) :
    later repo q s ≤
      (own repo q).countP fun t => t.name != s.name && decide (s.taken ≤ t.taken) := by
  refine List.countP_mono_left fun t ht less => ?_
  have less : s.name < t.name := by simpa using less
  obtain ⟨hs, byS⟩ := List.mem_filter.mp mem
  obtain ⟨ht, byT⟩ := List.mem_filter.mp ht
  have newer := h.inTime q hq s hs t ht (by simpa using byS) (by simpa using byT) less
  simpa using ⟨less.ne', newer⟩

/-- A deletion takes what it may. -/
theorem deletes (h : Told policies repo) {p : Policy} {now : ℤ}
    (fine : Spares policies repo (.deleteSurplus p now)) :
    Deletes p now repo (deleteSurplus repo p now) := by
  obtain ⟨hq, aged⟩ := fine
  have perm := h.held_perm hq
  have strict := h.held_strict hq
  have ours : ∀ s ∈ held repo p.name, s ∈ repo ∧ s.takenBy = some p.name := by
    intro s hs
    obtain ⟨mem, by_⟩ := List.mem_filter.mp (perm.mem_iff.mp hs)
    exact ⟨mem, by simpa using by_⟩
  have start : ∀ s ∈ held repo p.name, s.startTimeInMillis = 0 := fun s hs =>
    (h.ours _ hq s (ours s hs).1 (ours s hs).2).2.1
  have sorted : (held repo p.name).Pairwise fun s t => s.startTimeInMillis ≤ t.startTimeInMillis :=
    List.Pairwise.imp_of_mem (fun hs ht _ => by rw [start _ hs, start _ ht]) strict
  obtain ⟨k, short, eq, floor, each⟩ :=
    @Surplus.gone_front p.condition now (held repo p.name).length _ sorted 0
  -- what is left is what is not named
  have after : deleteSurplus repo p now =
      repo.filter fun s => decide (s.name ∉ ((held repo p.name).take k).map Snapshot.name) := by
    rw [deleteSurplus, eq, foldl_removeSnapshots_literal]
    intro name mem
    obtain ⟨s, hs, rfl⟩ := List.mem_map.mp mem
    obtain ⟨inside, by_⟩ := ours s (List.mem_of_mem_take hs)
    exact (h.ours _ hq s inside by_).2.2
  have removed : ∀ s ∈ repo, s ∉ deleteSurplus repo p now →
      ∃ i < k, (held repo p.name)[i]? = some s := by
    intro s hs out
    rw [after, List.mem_filter, not_and, decide_eq_true_eq, not_not] at out
    obtain ⟨t, ht, same⟩ := List.mem_map.mp (out hs)
    have there := (ours t (List.mem_of_mem_take ht)).1
    obtain rfl : t = s := by
      by_contra ne
      have symm : Std.Symm fun s t : Snapshot => s.name ≠ t.name := ⟨fun _ _ ne => ne.symm⟩
      exact h.unique.forall there hs ne same
    obtain ⟨i, inside, at_⟩ := List.getElem_of_mem ht
    rw [List.length_take] at inside
    refine ⟨i, by omega, ?_⟩
    rw [List.getElem_take] at at_
    rw [← at_, List.getElem?_eq_getElem]
  constructor
  · intro s hs out
    obtain ⟨i, -, place⟩ := removed s hs out
    exact (ours s (List.mem_of_getElem? place)).2
  · obtain ⟨m, hm⟩ : ∃ m, m = min p.condition.minCount (own repo p.name).length := ⟨_, rfl⟩
    have length := perm.length_eq
    refine ⟨(held repo p.name).drop ((held repo p.name).length - m),
      (held repo p.name).take ((held repo p.name).length - m), ?_, ?_, ?_, ?_⟩
    · rw [List.take_append_drop]
      exact perm.symm
    · rw [List.length_drop]
      omega
    · intro s hs t ht
      rw [← List.take_append_drop ((held repo p.name).length - m) (held repo p.name)] at strict
      have less := (List.pairwise_append.mp strict).2.2 s hs t ht
      obtain ⟨inS, byS⟩ := ours s (List.mem_of_mem_take hs)
      obtain ⟨inT, byT⟩ := ours t (List.mem_of_mem_drop ht)
      exact h.inTime _ hq s inS t inT byS byT less
    · -- the front that goes ends before the newest begin
      intro s hs
      have inside := (ours s (List.mem_of_mem_drop hs)).1
      rw [after, List.mem_filter, decide_eq_true_eq]
      refine ⟨inside, fun mem => ?_⟩
      obtain ⟨t, ht, same⟩ := List.mem_map.mp mem
      have front : k ≤ (held repo p.name).length - m := by omega
      have ht : t ∈ (held repo p.name).take ((held repo p.name).length - m) :=
        (List.take_sublist_take_left front).subset ht
      rw [← List.take_append_drop ((held repo p.name).length - m) (held repo p.name)] at strict
      exact absurd same ((List.pairwise_append.mp strict).2.2 t ht s hs).ne
  · intro s hs out
    obtain ⟨i, less, place⟩ := removed s hs out
    have inside := List.mem_of_getElem? place
    have mine := perm.mem_iff.mp inside
    have count := h.later_eq hq place
    rcases Bool.or_eq_true_iff.mp (each i s less place) with old | many
    · rw [Surplus.tooOld, Option.any_eq_true] at old
      obtain ⟨age, maxAge, old⟩ := old
      rw [start s inside, decide_eq_true_eq] at old
      rcases aged age maxAge (by omega) s mine (by omega) with really | ⟨most, maxCount, enough⟩
      · exact .inl ⟨age, maxAge, really⟩
      · exact .inr ⟨most, maxCount, enough.trans (h.later_le hq mine)⟩
    · rw [Surplus.tooMany, Option.any_eq_true] at many
      obtain ⟨most, maxCount, many⟩ := many
      rw [decide_eq_true_eq] at many
      refine .inr ⟨most, maxCount, le_trans ?_ (h.later_le hq mine)⟩
      omega

end Told

/-! ## A history -/

/-- Every deletion of a run does. -/
theorem retained_from {policies : List (List Char)} {repo : Repository}
    (told : Told policies repo) {events : List Event} (fine : AllSpare policies repo events) :
    Retained repo events := by
  induction events generalizing repo with
  | nil => trivial
  | cons e rest ih =>
    obtain ⟨fineE, fineRest⟩ := fine
    refine ⟨?_, ih (told.apply fineE) fineRest⟩
    cases e with
    | deleteSurplus p now => exact told.deletes fineE
    | _ => trivial

/-- **Retention deletes only its own surplus**, in every history that meets the condition. -/
theorem retention_keeps (policies : List (List Char)) (events : List Event)
    (fine : AllSpare policies [] events) : Retained [] events :=
  retained_from ⟨List.Pairwise.nil, nofun, nofun, nofun⟩ fine

/-- A policy that keeps `maxCount` snapshots, or those of `maxAge`. -/
def nightly (condition : Surplus) : Policy where
  name := ['n']
  stamp := fun now => Nat.toDigits 10 now.toNat
  condition

def keepOne : List Event :=
  [.create (nightly { maxCount := some 1 }) 1 ['a'], .create (nightly { maxCount := some 1 }) 2 ['a'],
    .deleteSurplus (nightly { maxCount := some 1 }) 3]

theorem retention_keeps_one : Retained [] keepOne := by
  refine retention_keeps [['n']] keepOne ⟨?_, ?_, ⟨?_, nofun⟩, trivial⟩
  · exact ⟨⟨by decide, by decide⟩, by decide, by decide⟩
  · exact ⟨⟨by decide, by decide⟩, by decide, by decide⟩
  · decide

def day : ℤ := 86400000

def agedWeek : List Event :=
  [.create (nightly { maxAge := some (7 * day) }) (20000 * day) ['a'],
    .create (nightly { maxAge := some (7 * day) }) (20000 * day + 1000) ['a'],
    .deleteSurplus (nightly { maxAge := some (7 * day) }) (20000 * day + 2000)]

/-- The record's time is 0, so the older of them goes. -/
theorem fresh_snapshot_deleted : ¬ Retained [] agedWeek := by
  rintro ⟨-, -, deletes, -⟩
  obtain ⟨s, there, away, taken⟩ : ∃ s, s ∈ (agedWeek.take 2).foldl Event.apply [] ∧
      s ∉ agedWeek.foldl Event.apply [] ∧ s.taken = 20000 * day := by
    refine ⟨⟨snapshotName (nightly {}) (20000 * day) ['a'], 0, 20000 * day, some ['n']⟩, ?_, ?_, rfl⟩
    · decide +kernel
    · decide +kernel
  rcases deletes.reason s there away with ⟨age, maxAge, old⟩ | ⟨most, maxCount, -⟩
  · obtain rfl := Option.some.inj maxAge
    rw [taken] at old
    exact absurd old (by decide)
  · exact nomatch maxCount

end Velosearch.Ism

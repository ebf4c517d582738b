import Mathlib.Data.List.Count
import Mathlib.Data.Nat.Find
import Mathlib.Data.Nat.ModEq

/-!
# A set kept by open addressing

A table of slots, one value of which stands for an empty slot. A value has a slot of its own, and
is looked for from there, slot by slot and round the end of the table, to where it is or to the
first empty slot, where it is put. While a slot is empty the search ends, and the table holds every
value that was put into it once (`add_spec`).
-/

set_option autoImplicit false

namespace Velosearch.Probing

/-! ## Definitions -/

section

variable {α : Type} (empty : α) (home : α → ℕ)

/-- The slots a key is looked for in. -/
def slot (table : List α) (key : α) (d : ℕ) : ℕ :=
  (home key + d) % table.length

/-- Every key is found from its own slot. -/
def Reached (table : List α) : Prop :=
  ∀ j v, table[j]? = some v → v ≠ empty →
    ∃ d, slot home table v d = j ∧
      ∀ e < d, ∃ u, table[slot home table v e]? = some u ∧ u ≠ empty ∧ u ≠ v

variable {empty home}

theorem slot_lt {table : List α} (some_ : table ≠ []) (home : α → ℕ) (key : α) (d : ℕ) :
    slot home table key d < table.length :=
  Nat.mod_lt _ (List.length_pos_iff.mpr some_)

theorem slot_succ (table : List α) (key : α) (d : ℕ) :
    (slot home table key d + 1) % table.length = slot home table key (d + 1) := by
  simp [slot, Nat.add_assoc]

theorem exists_slot {table : List α} (home : α → ℕ) (key : α) {j : ℕ} (lt : j < table.length) :
    ∃ d < table.length, slot home table key d = j := by
  have pos : 0 < table.length := Nat.zero_lt_of_lt lt
  have low := Nat.mod_lt (home key) pos
  refine ⟨(j + table.length - home key % table.length) % table.length, Nat.mod_lt _ pos, ?_⟩
  have whole : home key % table.length + (j + table.length - home key % table.length) =
      j + table.length := by omega
  rw [slot, Nat.add_mod_mod, ← Nat.mod_add_mod, whole, Nat.add_mod_right, Nat.mod_eq_of_lt lt]

theorem Reached.at_stop {table : List α} (reached : Reached empty home table) {key v : α}
    (key_ne : key ≠ empty) (mem : key ∈ table) {d : ℕ}
    (at_ : table[slot home table key d]? = some v) (stop : v = empty ∨ v = key)
    (before : ∀ e < d, ∃ u, table[slot home table key e]? = some u ∧ u ≠ empty ∧ u ≠ key) :
    v = key := by
  obtain ⟨j, lt, here⟩ := List.mem_iff_getElem.mp mem
  have here : table[j]? = some key := by rw [List.getElem?_eq_getElem lt, here]
  obtain ⟨D, slot_eq, upTo⟩ := reached j key here key_ne
  obtain lower | same | higher := Nat.lt_trichotomy D d
  · obtain ⟨u, at_D, -, other⟩ := before D lower
    rw [slot_eq, here] at at_D
    exact absurd (Option.some.inj at_D).symm other
  · rw [← same, slot_eq, here] at at_
    exact (Option.some.inj at_).symm
  · obtain ⟨u, at_d, full, other⟩ := upTo d higher
    rw [at_] at at_d
    obtain rfl := Option.some.inj at_d
    cases stop with
    | inl h => exact absurd h full
    | inr h => exact h

/-- A key in the first free slot is found like the others. -/
theorem Reached.set {table : List α} (reached : Reached empty home table) {key : α} {d : ℕ}
    (at_ : table[slot home table key d]? = some empty)
    (before : ∀ e < d, ∃ u, table[slot home table key e]? = some u ∧ u ≠ empty ∧ u ≠ key) :
    Reached empty home (table.set (slot home table key d) key) := by
  have slot_eq : ∀ (v : α) (e : ℕ),
      slot home (table.set (slot home table key d) key) v e = slot home table v e := by
    intro v e
    simp [slot]
  -- a slot that is taken is not the one that is set
  have stays : ∀ {i : ℕ} {u : α}, table[i]? = some u → u ≠ empty →
      (table.set (slot home table key d) key)[i]? = some u := by
    intro i u here full
    rw [List.getElem?_set_ne _, here]
    rintro rfl
    rw [at_] at here
    exact full (Option.some.inj here).symm
  intro j v here full
  by_cases same : slot home table key d = j
  · have lt : slot home table key d < table.length := by
      by_contra ge
      rw [List.getElem?_eq_none (by omega)] at at_
      simp at at_
    rw [← same, List.getElem?_set_self lt] at here
    obtain rfl := Option.some.inj here
    refine ⟨d, by rw [slot_eq, same], ?_⟩
    intro e lower
    obtain ⟨u, at_e, full, other⟩ := before e lower
    exact ⟨u, by rw [slot_eq]; exact stays at_e full, full, other⟩
  · rw [List.getElem?_set_ne same] at here
    obtain ⟨D, at_D, upTo⟩ := reached j v here full
    refine ⟨D, by rw [slot_eq, at_D], ?_⟩
    intro e lower
    obtain ⟨u, at_e, full, other⟩ := upTo e lower
    exact ⟨u, by rw [slot_eq]; exact stays at_e full, full, other⟩

end

variable {α : Type} [DecidableEq α] (empty : α) (home : α → ℕ)

/-- The search for a value from a slot on: whether it was put there, and the table. -/
def probe (key : α) : ℕ → List α → ℕ → Option (Bool × List α)
  | 0, _, _ => none
  | fuel + 1, table, i =>
    match table[i]? with
    | none => none
    | some v =>
      if v = empty then some (true, table.set i key)
      else if v = key then some (false, table)
      else probe key fuel table ((i + 1) % table.length)

/-- A key in the first slot that is free. -/
def add (key : α) (table : List α) : Option (Bool × List α) :=
  probe empty key table.length table (home key % table.length)

/-- How many slots are taken. -/
def taken (table : List α) : ℕ :=
  table.countP fun v => v ≠ empty

/-! ## The search -/

variable {empty home}

theorem probe_past {table : List α} {key : α} {d k : ℕ} (fuel : ℕ)
    (past : ∀ e, d ≤ e → e < d + k →
      ∃ u, table[slot home table key e]? = some u ∧ u ≠ empty ∧ u ≠ key) :
    probe empty key (fuel + k) table (slot home table key d) =
      probe empty key fuel table (slot home table key (d + k)) := by
  induction k generalizing d with
  | zero => rfl
  | succ k ih =>
    obtain ⟨u, at_, full, other⟩ := past d (Nat.le_refl d) (by omega)
    rw [← Nat.add_assoc, probe, at_]
    simp only [full, other, if_false]
    rw [slot_succ, ih]
    · congr 2
      omega
    · intro e low high
      exact past e (by omega) (by omega)

theorem exists_stop {table : List α} (free : empty ∈ table) (home : α → ℕ) (key : α) :
    ∃ d < table.length, (∃ v, table[slot home table key d]? = some v ∧ (v = empty ∨ v = key)) ∧
      ∀ e < d, ∃ u, table[slot home table key e]? = some u ∧ u ≠ empty ∧ u ≠ key := by
  have some_ : table ≠ [] := List.ne_nil_of_mem free
  have pos : 0 < table.length := List.length_pos_iff.mpr some_
  classical
  let stops : ℕ → Prop := fun d =>
    ∃ v, table[slot home table key d]? = some v ∧ (v = empty ∨ v = key)
  obtain ⟨j, lt, at_⟩ := List.mem_iff_getElem.mp free
  obtain ⟨D, D_lt, slot_eq⟩ := exists_slot home key lt
  have some_stop : ∃ d, stops d := by
    refine ⟨D, empty, ?_, .inl rfl⟩
    rw [slot_eq, List.getElem?_eq_getElem lt, at_]
  refine ⟨Nat.find some_stop, ?_, Nat.find_spec some_stop, ?_⟩
  · apply Nat.lt_of_le_of_lt _ D_lt
    apply Nat.find_min' some_stop
    refine ⟨empty, ?_, .inl rfl⟩
    rw [slot_eq, List.getElem?_eq_getElem lt, at_]
  · intro e before
    have passes := Nat.find_min some_stop before
    have inside := slot_lt some_ home key e
    refine ⟨table[slot home table key e], List.getElem?_eq_getElem inside, ?_, ?_⟩
    · intro same
      exact passes ⟨_, List.getElem?_eq_getElem inside, .inl same⟩
    · intro same
      exact passes ⟨_, List.getElem?_eq_getElem inside, .inr same⟩

/-- A key is added where it is not there yet. -/
theorem add_spec {table : List α} (reached : Reached empty home table) (free : empty ∈ table)
    {key : α} (key_ne : key ≠ empty) :
    ∃ table', add empty home key table = some (decide (key ∉ table), table') ∧
      table'.length = table.length ∧ Reached empty home table' ∧
      (∀ v, v ≠ empty → (v ∈ table' ↔ v = key ∨ v ∈ table)) ∧
      taken empty table' = taken empty table + if key ∈ table then 0 else 1 := by
  obtain ⟨d, lt, ⟨v, at_, stop⟩, before⟩ := exists_stop free home key
  -- the search comes to the slot
  have comes : add empty home key table =
      probe empty key (table.length - d) table (slot home table key d) := by
    have past := probe_past (d := 0) (k := d) (table.length - d)
      (fun e _ high => before e (by omega))
    rw [Nat.sub_add_cancel (Nat.le_of_lt lt), Nat.zero_add] at past
    rw [← past]
    rfl
  obtain ⟨fuel, fuel_eq⟩ := Nat.exists_eq_add_of_lt lt
  have fuel_eq : table.length - d = fuel + 1 := by omega
  rw [comes, fuel_eq, probe, at_]
  by_cases mem : key ∈ table
  · have v_eq := reached.at_stop key_ne mem at_ stop before
    refine ⟨table, ?_, rfl, reached, ?_, by simp [mem]⟩
    · simp [v_eq, key_ne, mem]
    · intro w _
      constructor
      · exact .inr
      · rintro (rfl | h)
        · exact mem
        · exact h
  · have v_eq : v = empty := by
      cases stop with
      | inl h => exact h
      | inr h =>
        rw [h] at at_
        exact absurd (List.mem_of_getElem? at_) mem
    rw [v_eq] at at_
    have inside : slot home table key d < table.length := slot_lt (List.ne_nil_of_mem free) home key d
    have was : table[slot home table key d] = empty := by
      rw [List.getElem?_eq_getElem inside] at at_
      exact Option.some.inj at_
    refine ⟨table.set (slot home table key d) key, ?_, by simp, reached.set at_ before, ?_, ?_⟩
    · simp [v_eq, mem]
    · intro w w_ne
      constructor
      · intro h
        obtain h | h := List.mem_or_eq_of_mem_set h
        · exact .inr h
        · exact .inl h
      · rintro (rfl | h)
        · exact List.mem_set inside w
        · obtain ⟨j, lt_j, at_j⟩ := List.mem_iff_getElem.mp h
          apply List.mem_iff_getElem.mpr
          refine ⟨j, by simpa using lt_j, ?_⟩
          rw [List.getElem_set_ne, at_j]
          rintro rfl
          exact w_ne (at_j.symm.trans was)
    · unfold taken
      rw [List.countP_set inside, was]
      simp [key_ne, mem]

end Velosearch.Probing

import Velosearch.Cluster.Coordinator.Place

/-!
# Which copies a publication calls in sync

A copy is in sync that was so before and was not retired, that is the primary, or whose node has
just finished filling it. `with_terms` goes further where the set was not empty: any copy that
stands active in the routing joins it, though it may have been taken out for a write it missed.
-/

set_option autoImplicit false

namespace Velosearch.Cluster

variable {copies : List ShardRouting} {previous retired reset up set : List String} {a : String}

/-- The id is a primary's. -/
def IsPrimary (copies : List ShardRouting) (a : String) : Prop :=
  ∃ c ∈ copies, c.primary = true ∧ c.allocationId = some a

/-- What an in-sync set may hold after a round: nothing that was neither in it, nor is the
primary's, nor was started or reset in the round; and nothing retired in the round, unless the
set would hold nothing without what was retired. -/
structure InSyncLaw (copies : List ShardRouting) (previous retired reset up set : List String) :
    Prop where
  from_ : ∀ a ∈ set, a ∈ previous ∨ IsPrimary copies a ∨ a ∈ up ∨ a ∈ reset
  gone : ∀ a ∈ retired, a ∈ set → ∀ b ∈ set, b ∈ retired

/-- No copy joins the set for standing active alone. -/
def Admits (copies : List ShardRouting) (previous retired reset up : List String) : Prop :=
  previous = [] ∨ reset ≠ [] ∨
    ∀ c ∈ copies, c.active = true → ∀ a, c.allocationId = some a →
      a ∈ previous ∨ IsPrimary copies a ∨ a ∈ up ∨ a ∈ retired

/-- The id is that of a copy that joins the in-sync set. -/
def Joins (fromNothing : Bool) (up : List String) (c : ShardRouting) (a : String) : Prop :=
  c.allocationId = some a ∧ c.active = true ∧ (fromNothing = true → c.primary = true ∨ a ∈ up)

theorem mem_addActive {fromNothing : Bool} {c : ShardRouting} :
    a ∈ addActive fromNothing up set c ↔ a ∈ set ∨ Joins fromNothing up c a := by
  rw [addActive]
  cases id : c.allocationId with
  | none => simp [Joins, id]
  | some b =>
    have only : ∀ a, Joins fromNothing up c a → a = b := fun a joins =>
      Option.some.inj (joins.1.symm.trans id)
    dsimp only
    split
    · rename_i adds
      simp only [Bool.and_eq_true, Bool.or_eq_true, Bool.not_eq_true'] at adds
      rw [List.mem_append, List.mem_singleton]
      refine or_congr_right ⟨fun same => ?_, only a⟩
      rw [same]
      refine ⟨id, adds.1.1, fun nothing => ?_⟩
      rcases adds.1.2 with (no | primary) | filled
      · rw [nothing] at no
        cases no
      · exact .inl primary
      · exact .inr (List.contains_iff_mem.mp filled)
    · rename_i stays
      refine ⟨.inl, fun h => ?_⟩
      cases h with
      | inl held => exact held
      | inr joins =>
        -- what may join and does not is in the set already
        by_contra new
        apply stays
        have fresh : set.contains b = false := by
          rw [← only a joins]
          simpa using new
        have may : (!fromNothing || c.primary || up.contains b) = true := by
          cases nothing : fromNothing with
          | false => simp
          | true =>
            cases joins.2.2 nothing with
            | inl primary => simp [primary]
            | inr filled => simp [← only a joins, filled]
        simp only [joins.2.1, may, fresh, Bool.not_false, Bool.and_self]

theorem mem_added {fromNothing : Bool} :
    a ∈ copies.foldl (addActive fromNothing up) set ↔
      a ∈ set ∨ ∃ c ∈ copies, Joins fromNothing up c a := by
  induction copies generalizing set with
  | nil => simp
  | cons c copies ih =>
    rw [List.foldl_cons, ih, mem_addActive]
    constructor
    · intro h
      rcases h with (held | joins) | ⟨d, there, joins⟩
      · exact .inl held
      · exact .inr ⟨c, List.mem_cons_self, joins⟩
      · exact .inr ⟨d, List.mem_cons_of_mem c there, joins⟩
    · intro h
      rcases h with held | ⟨d, there, joins⟩
      · exact .inl (.inl held)
      · cases List.mem_cons.mp there with
        | inl same => exact .inl (.inr (same ▸ joins))
        | inr later => exact .inr ⟨d, later, joins⟩

/-- The ids that are in sync after a publication. -/
def kept (copies : List ShardRouting) (previous retired up : List String) : List String :=
  (copies.foldl (addActive previous.isEmpty up) previous).filter fun a => !retired.contains a

theorem inSyncSet_reset (made : reset.getLast? = some a) :
    inSyncSet copies previous retired reset up = [a] := by
  simp [inSyncSet, made]

theorem inSyncSet_kept :
    inSyncSet copies previous retired [] up =
      if kept copies previous retired up = [] then previous else kept copies previous retired up := by
  simp only [inSyncSet, List.getLast?_nil, List.isEmpty_iff]
  rfl

theorem mem_kept :
    a ∈ kept copies previous retired up ↔
      (a ∈ previous ∨ ∃ c ∈ copies, Joins previous.isEmpty up c a) ∧ a ∉ retired := by
  rw [kept, List.mem_filter, mem_added]
  simp

theorem inSyncSet_gone :
    ∀ a ∈ retired, a ∈ inSyncSet copies previous retired reset up →
      ∀ b ∈ inSyncSet copies previous retired reset up, b ∈ retired := by
  intro a out held b other
  cases made : reset.getLast? with
  | some r =>
    rw [inSyncSet_reset made, List.mem_singleton] at held other
    rw [other, ← held]
    exact out
  | none =>
    rw [List.getLast?_eq_none_iff.mp made, inSyncSet_kept] at held other
    by_cases empty : kept copies previous retired up = []
    · rw [if_pos empty] at other
      by_contra stays
      have there : b ∈ kept copies previous retired up := mem_kept.mpr ⟨.inl other, stays⟩
      rw [empty] at there
      exact absurd there List.not_mem_nil
    · rw [if_neg empty] at held
      exact absurd out (mem_kept.mp held).2

/-- **One shard's set** keeps the law just when no copy joins it for standing active alone. -/
theorem inSyncSet_law :
    InSyncLaw copies previous retired reset up (inSyncSet copies previous retired reset up) ↔
      Admits copies previous retired reset up := by
  constructor
  · intro law
    by_cases nothing : previous = []
    · exact .inl nothing
    · by_cases made : reset = []
      · refine .inr (.inr fun c there active a id => ?_)
        by_cases out : a ∈ retired
        · exact .inr (.inr (.inr out))
        · have some : previous.isEmpty = false := by simpa using nothing
          have held : a ∈ kept copies previous retired up :=
            mem_kept.mpr ⟨.inr ⟨c, there, id, active, by simp [some]⟩, out⟩
          have from_ := law.from_ a (by
            rw [made, inSyncSet_kept, if_neg (List.ne_nil_of_mem held)]
            exact held)
          rw [made] at from_
          rcases from_ with before | primary | filled | none
          · exact .inl before
          · exact .inr (.inl primary)
          · exact .inr (.inr (.inl filled))
          · exact absurd none List.not_mem_nil
      · exact .inr (.inl made)
  · intro admits
    refine ⟨fun a held => ?_, inSyncSet_gone⟩
    cases made : reset.getLast? with
    | some r =>
      rw [inSyncSet_reset made, List.mem_singleton] at held
      rw [held]
      exact .inr (.inr (.inr (List.mem_of_getLast? made)))
    | none =>
      have none : reset = [] := List.getLast?_eq_none_iff.mp made
      rw [none, inSyncSet_kept] at held
      by_cases empty : kept copies previous retired up = []
      · rw [if_pos empty] at held
        exact .inl held
      · rw [if_neg empty] at held
        obtain ⟨before | ⟨c, there, joins⟩, stays⟩ := mem_kept.mp held
        · exact .inl before
        · rcases admits with nothing | some | all
          · rcases joins.2.2 (by rw [nothing]; rfl) with primary | filled
            · exact .inr (.inl ⟨c, there, primary, joins.1⟩)
            · exact .inr (.inr (.inl filled))
          · exact absurd none some
          · rcases all c there joins.2.1 a joins.1 with before | primary | filled | out
            · exact .inl before
            · exact .inr (.inl primary)
            · exact .inr (.inr (.inl filled))
            · exact absurd out stays

/-! ## Over the shards of an index -/

variable {routing : RoutingTable} {terms : BTreeMap String (BTreeMap Nat Nat)}
variable {sets : BTreeMap Nat (List String)} {out made filled : List (Nat × String)}
variable {m : IndexMetadata} {shard n : Nat}

theorem fold_name :
    ((List.range n).foldl (withShardTerms routing terms sets out made filled) m).name = m.name := by
  induction n with
  | zero => rfl
  | succ n ih =>
    rw [List.range_succ, List.foldl_append]
    exact ih

theorem fold_set (inside : shard < n) :
    ((List.range n).foldl (withShardTerms routing terms sets out made filled)
        m).inSyncAllocations[shard]? =
      some (inSyncSet (routing.copies m.name shard) ((sets[shard]?).getD [])
        (ofShard shard out) (ofShard shard made) (ofShard shard filled)) := by
  induction n with
  | zero => exact absurd inside (Nat.not_lt_zero shard)
  | succ n ih =>
    rw [List.range_succ, List.foldl_append, List.foldl_cons, List.foldl_nil, withShardTerms,
      fold_name]
    dsimp only
    rw [Std.ExtTreeMap.getElem?_insert]
    by_cases last : n = shard
    · rw [if_pos (by simp [last]), last]
    · rw [if_neg (by simpa using last)]
      exact ih (by omega)

/-- **When the sets of a publication keep the law**: just when no copy of a shard whose set was
not empty, and is not reset, stands active without being in the set before, the primary, started
or retired in the round. -/
theorem withTerms_law (routing : RoutingTable) (terms : BTreeMap String (BTreeMap Nat Nat))
    (previous : BTreeMap Nat (List String)) (retired reset started : List (Nat × String))
    (m : IndexMetadata) :
    (∀ shard, shard < m.numberOfShards → ∃ set,
        (withTerms routing terms previous retired reset started m).inSyncAllocations[shard]? =
          some set ∧
        InSyncLaw (routing.copies m.name shard) ((previous[shard]?).getD []) (ofShard shard retired)
          (ofShard shard reset) (ofShard shard started) set) ↔
      ∀ shard, shard < m.numberOfShards →
        Admits (routing.copies m.name shard) ((previous[shard]?).getD []) (ofShard shard retired)
          (ofShard shard reset) (ofShard shard started) := by
  refine forall_congr' fun shard => forall_congr' fun inside => ?_
  rw [withTerms, fold_set inside, ← inSyncSet_law]
  constructor
  · intro ⟨set, same, law⟩
    cases same
    exact law
  · intro law
    exact ⟨_, rfl, law⟩

/-- A primary that is in sync and a replica that is not, both active, and a round that changes
nothing: the replica is in sync after it. -/
theorem active_copy_joins :
    ¬ ∀ (routing : RoutingTable) (terms : BTreeMap String (BTreeMap Nat Nat))
        (previous : BTreeMap Nat (List String)) (retired reset started : List (Nat × String))
        (m : IndexMetadata) (shard : Nat) (set : List String), shard < m.numberOfShards →
        (withTerms routing terms previous retired reset started m).inSyncAllocations[shard]? =
          some set →
        InSyncLaw (routing.copies m.name shard) ((previous[shard]?).getD []) (ofShard shard retired)
          (ofShard shard reset) (ofShard shard started) set := by
  intro all
  let copy (primary : Bool) (id : String) : ShardRouting :=
    { index := "i", shard := 0, primary, state := .started, node := none, relocatingNode := none,
      allocationId := some id, unassigned := none }
  let table : RoutingTable :=
    ⟨(∅ : BTreeMap String (BTreeMap Nat (List ShardRouting))).insert "i"
      ((∅ : BTreeMap Nat (List ShardRouting)).insert 0 [copy true "p", copy false "r"])⟩
  let sets := (∅ : BTreeMap Nat (List String)).insert 0 ["p"]
  let m : IndexMetadata :=
    { name := "i", uuid := "u", settings := {}, numberOfShards := 1, numberOfReplicas := 1,
      primaryTerms := ∅, inSyncAllocations := ∅, creationDate := 0, text := "" }
  have held : (sets[0]?).getD [] = ["p"] := by simp [sets]
  have stand : table.copies m.name 0 = [copy true "p", copy false "r"] := by
    simp [table, m, RoutingTable.copies]
  have law := all table ∅ sets [] [] [] m 0 _ Nat.one_pos (fold_set Nat.one_pos)
  rw [inSyncSet_law, held, stand] at law
  rcases law with nothing | made | each
  · cases nothing
  · exact made rfl
  · rcases each (copy false "r") (by simp) rfl "r" rfl with before | ⟨c, there, primary, id⟩ | up | out
    · exact absurd before (by decide)
    · rcases List.mem_cons.mp there with same | other
      · rw [same] at id
        exact absurd id (by decide)
      · rw [List.mem_singleton.mp other] at primary
        cases primary
    · exact absurd up List.not_mem_nil
    · exact absurd out List.not_mem_nil

end Velosearch.Cluster

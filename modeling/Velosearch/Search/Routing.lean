import Mathlib.Data.Finset.Image
import Mathlib.Data.Finset.Sort
import Mathlib.Data.Int.Order.Basic
import Mathlib.Tactic.Positivity
import Mathlib.Tactic.Ring
import Mathlib.Tactic.Zify

/-!
# Which shard a document is filed under

`src/search/routing.rs` (the hash and the two folds), `shard_of` and `shards_for_routing` of
`src/store/translog.rs`, the routing shards `create` records (`src/store/registry.rs`), what a
split makes of them (`src/api/indices/resize.rs`), and the filter of `src/query/shards.rs` that
works the fold out again for each document of a routed search.

Counts are the `u64` the settings hold, read as `i64` where the folds do so. A hash is an `i32`,
and so is an offset.
-/

set_option autoImplicit false

namespace Velosearch.Routing

/-! ## The hash -/

/-- A character in UTF-16. -/
def utf16 (c : Char) : List UInt16 :=
  if c.toNat < 0x10000 then [UInt16.ofNat c.toNat]
  else
    let v := c.toNat - 0x10000
    [UInt16.ofNat (0xD800 + v / 0x400), UInt16.ofNat (0xDC00 + v % 0x400)]

/-- A word turned. -/
def rotateLeft (x n : UInt32) : UInt32 :=
  x <<< n ||| x >>> (32 - n)

def mixK (k : UInt32) : UInt32 :=
  rotateLeft (k * 0xcc9e2d51) 15 * 0x1b873593

/-- One word of the hash. -/
def mixBlock (h k : UInt32) : UInt32 :=
  rotateLeft (h ^^^ mixK k) 13 * 5 + 0xe6546b64

/-- All whole words. -/
def mixBlocks : UInt32 → List UInt8 → UInt32 × List UInt8
  | h, a :: b :: c :: d :: rest =>
    mixBlocks (mixBlock h (a.toUInt32 ||| b.toUInt32 <<< 8 ||| c.toUInt32 <<< 16 |||
      d.toUInt32 <<< 24)) rest
  | h, tail => (h, tail)

/-- The bytes that are left. -/
def mixTail (h : UInt32) : List UInt8 → UInt32
  | [] => h
  | [a] => h ^^^ mixK a.toUInt32
  | [a, b] => h ^^^ mixK (b.toUInt32 <<< 8 ^^^ a.toUInt32)
  | a :: b :: c :: _ => h ^^^ mixK (c.toUInt32 <<< 16 ^^^ b.toUInt32 <<< 8 ^^^ a.toUInt32)

/-- The last of the hash. -/
def finish (h : UInt32) : UInt32 :=
  let h := (h ^^^ h >>> 16) * 0x85ebca6b
  let h := (h ^^^ h >>> 13) * 0xc2b2ae35
  h ^^^ h >>> 16

/-- An `i32` that went round. -/
def asI32 (n : ℤ) : ℤ :=
  n.bmod (2 ^ 32)

/-- A `u64` read as an `i64`. -/
def asI64 (n : UInt64) : ℤ :=
  (n.toNat : ℤ).bmod (2 ^ 64)

/-- `murmur3` of 32 bits. -/
def murmur3 (data : List UInt8) (seed : UInt32) : ℤ :=
  let (h, tail) := mixBlocks seed data
  asI32 (finish (mixTail h tail ^^^ UInt32.ofNat data.length)).toNat

/-- The hash of a routing value, as it is in UTF-16. -/
def routingHash (routing : String) : ℤ :=
  let bytes := (routing.toList.flatMap utf16).flatMap fun u : UInt16 =>
    [u.toUInt8, (u >>> 8).toUInt8]
  murmur3 bytes 0

/-! ## The folds -/

/-- `.max(1)` -/
def atLeastOne (n : UInt64) : UInt64 :=
  if n = 0 then 1 else n

/-- The shards divide the routing shards. -/
def Fits (shards rns : UInt64) : Prop :=
  shards ≤ rns ∧ rns % shards = 0

instance (shards rns : UInt64) : Decidable (Fits shards rns) :=
  inferInstanceAs (Decidable (_ ∧ _))

/-- The shard of a hash. -/
def fold (hash : ℤ) (shards : UInt64) (routingShards : Option UInt64) : ℕ :=
  match routingShards with
  | some rns =>
    if Fits shards rns then (hash % asI64 rns).toNat / (rns / shards).toNat
    else (hash % asI64 shards).toNat
  | none => (hash % asI64 shards).toNat

/-- The shard of a routing value, so far on. -/
def routingShardOffset (routing : String) (offset : ℤ) (shards : UInt64)
    (routingShards : Option UInt64) : ℕ :=
  fold (asI32 (routingHash routing + offset)) (atLeastOne shards) routingShards

/-- The shard of a routing value. -/
def routingShardIn (routing : String) (shards : UInt64) (routingShards : Option UInt64) : ℕ :=
  routingShardOffset routing 0 shards routingShards

/-- How many bits a number has. -/
def bits (n : ℕ) : ℕ :=
  if n = 0 then 0 else n.log2 + 1

/-- The routing shards of an index that does not say. -/
def defaultRoutingShards (shards : UInt64) : UInt64 :=
  let shards := atLeastOne shards
  let splits := max (10 - bits (shards.toNat - 1)) 1
  shards <<< UInt64.ofNat splits

/-! ## The index -/

/-- The settings a document is placed by, as `numeric_setting` reads them. -/
structure Settings where
  numberOfShards : Option UInt64
  numberOfRoutingShards : Option UInt64
  veloRoutingShards : Option UInt64
  routingPartitionSize : Option UInt64

namespace Settings

variable (s : Settings)

/-- How many shards there are. -/
def shards : UInt64 :=
  atLeastOne (s.numberOfShards.getD 1)

/-- Over how many a routing value spreads. -/
def partitionSize : UInt64 :=
  atLeastOne (s.routingPartitionSize.getD 1)

/-- Which of them an id goes to. -/
def offsetOf (id : String) : ℤ :=
  if s.partitionSize = 1 then 0 else asI32 (routingHash id % asI64 s.partitionSize)

/-- The shard of a document. -/
def shardOf (id : String) : Option String → ℕ
  | none => routingShardIn id s.shards s.veloRoutingShards
  | some r => routingShardOffset r (s.offsetOf id) s.shards s.veloRoutingShards

/-- The shards a search with a routing looks in. -/
def shardsForRouting (routing : String) : Finset ℕ :=
  (Finset.range s.partitionSize.toNat).image fun offset : ℕ =>
    routingShardOffset routing (asI32 offset) s.shards s.veloRoutingShards

/-- The settings as they are recorded. -/
def recorded : Settings :=
  match s.veloRoutingShards with
  | some _ => s
  | none =>
    let rns := (s.numberOfRoutingShards.filter fun r => Fits s.shards r).getD
      (defaultRoutingShards s.shards)
    { s with veloRoutingShards := some rns }

/-- The settings of an index that is split. -/
def split (target : UInt64) : Option Settings :=
  if target ≤ s.shards ∨ target % s.shards ≠ 0 then none
  else some (recorded { s with numberOfShards := some target })

end Settings

/-! ## The filter of a routed search -/

/-- A filter by shards. -/
structure OnShards where
  shards : List ℕ
  of : UInt64
  routingShards : Option UInt64
  partitionSize : UInt64

/-- `on_shards_filter`, read back by `from_json`. -/
def Settings.onShardsFilter (s : Settings) (shards : Finset ℕ) : OnShards where
  shards := shards.sort (· ≤ ·)
  of := s.shards
  routingShards := s.veloRoutingShards
  partitionSize := s.partitionSize

namespace OnShards

variable (f : OnShards)

/-- The shard of a document, as the filter has it. -/
def shardOf (id : String) : Option String → ℕ
  | none => routingShardIn id f.of f.routingShards
  | some r =>
    let offset :=
      if f.partitionSize = 1 then 0 else asI32 (routingHash id % asI64 f.partitionSize)
    routingShardOffset r offset f.of f.routingShards

/-- Of `matching`, for one document of a segment. -/
def matching (id : String) (routing : Option String) : Bool :=
  f.shards.contains (f.shardOf id routing)

end OnShards

/-- `search_narrowing` of an index named outright, and the filter it lays over the search where
the shards of the routing values are not all there are: whether a document stays in it. -/
def Settings.finds (s : Settings) (values : List String) (id : String) (routing : Option String) :
    Bool :=
  let shards := values.toFinset.biUnion s.shardsForRouting
  values.isEmpty || shards.card == s.shards.toNat || (s.onShardsFilter shards).matching id routing

/-! ## Where the folds end -/

theorem natAbs_asI64_le (n : UInt64) : (asI64 n).natAbs ≤ n.toNat := by
  have bound : n.toNat < 2 ^ 64 := n.toNat_lt
  unfold asI64
  rw [Int.bmod_def]
  split <;> omega

theorem asI64_ne_zero {n : UInt64} (pos : 0 < n.toNat) : asI64 n ≠ 0 := by
  have bound : n.toNat < 2 ^ 64 := n.toNat_lt
  unfold asI64
  rw [Int.bmod_def]
  split <;> omega

theorem toNat_emod_lt (hash : ℤ) {n : UInt64} (pos : 0 < n.toNat) :
    (hash % asI64 n).toNat < n.toNat := by
  have ne := asI64_ne_zero pos
  have low := Int.emod_nonneg hash ne
  have high := Int.emod_lt_abs hash ne
  have abs := natAbs_asI64_le n
  rw [Int.abs_eq_natAbs] at high
  omega

theorem atLeastOne_pos (n : UInt64) : 0 < (atLeastOne n).toNat := by
  unfold atLeastOne
  split
  next => simp
  next ne =>
    apply Nat.pos_of_ne_zero
    intro zero
    exact ne (UInt64.toNat_inj.mp zero)

@[simp]
theorem atLeastOne_atLeastOne (n : UInt64) : atLeastOne (atLeastOne n) = atLeastOne n := by
  unfold atLeastOne
  split <;> simp_all

theorem Fits.eq_mul {shards rns : UInt64} (fits : Fits shards rns) :
    rns.toNat = shards.toNat * (rns.toNat / shards.toNat) := by
  have dvd : shards.toNat ∣ rns.toNat := by
    apply Nat.dvd_of_mod_eq_zero
    have := congrArg UInt64.toNat fits.2
    rwa [UInt64.toNat_mod] at this
  exact (Nat.mul_div_cancel' dvd).symm

theorem Fits.le {shards rns : UInt64} (fits : Fits shards rns) : shards.toNat ≤ rns.toNat :=
  UInt64.le_iff_toNat_le.mp fits.1

theorem fold_of_fits {hash : ℤ} {shards rns : UInt64} (fits : Fits shards rns) :
    fold hash shards (some rns) = (hash % asI64 rns).toNat / (rns.toNat / shards.toNat) := by
  simp [fold, fits]

theorem fold_lt (hash : ℤ) {shards : UInt64} (pos : 0 < shards.toNat)
    (routingShards : Option UInt64) : fold hash shards routingShards < shards.toNat := by
  cases routingShards with
  | none => exact toNat_emod_lt hash pos
  | some rns =>
    by_cases fits : Fits shards rns
    · rw [fold_of_fits fits]
      have lt := toNat_emod_lt hash (n := rns) (Nat.lt_of_lt_of_le pos fits.le)
      apply Nat.div_lt_of_lt_mul
      rw [Nat.mul_comm, ← fits.eq_mul]
      exact lt
    · simp only [fold, fits, if_false]
      exact toNat_emod_lt hash pos

namespace Settings

variable (s : Settings)

theorem shards_pos : 0 < s.shards.toNat := atLeastOne_pos _

theorem partitionSize_pos : 0 < s.partitionSize.toNat := atLeastOne_pos _

theorem atLeastOne_shards : atLeastOne s.shards = s.shards := by
  simp [shards]

theorem routingShardOffset_lt (routing : String) (offset : ℤ) (rns : Option UInt64) :
    routingShardOffset routing offset s.shards rns < s.shards.toNat := by
  unfold routingShardOffset
  rw [s.atLeastOne_shards]
  exact fold_lt _ s.shards_pos rns

theorem shardOf_lt (id : String) (routing : Option String) :
    s.shardOf id routing < s.shards.toNat := by
  cases routing with
  | none => exact s.routingShardOffset_lt id 0 _
  | some r => exact s.routingShardOffset_lt r _ _

theorem offsetOf_mem (id : String) :
    ∃ offset < s.partitionSize.toNat, s.offsetOf id = asI32 (offset : ℕ) := by
  unfold offsetOf
  by_cases one : s.partitionSize = 1
  · refine ⟨0, s.partitionSize_pos, ?_⟩
    simp [one, asI32]
  · refine ⟨(routingHash id % asI64 s.partitionSize).toNat,
      toNat_emod_lt _ s.partitionSize_pos, ?_⟩
    have low := Int.emod_nonneg (routingHash id) (asI64_ne_zero s.partitionSize_pos)
    rw [if_neg one, Int.toNat_of_nonneg low]

theorem shardOf_mem (id r : String) : s.shardOf id (some r) ∈ s.shardsForRouting r := by
  obtain ⟨offset, lt, eq⟩ := s.offsetOf_mem id
  apply Finset.mem_image.mpr
  refine ⟨offset, Finset.mem_range.mpr lt, ?_⟩
  simp only [shardOf, eq]

@[simp]
theorem onShardsFilter_shardOf (shards : Finset ℕ) (id : String) (routing : Option String) :
    (s.onShardsFilter shards).shardOf id routing = s.shardOf id routing := by
  cases routing with
  | none => rfl
  | some r => rfl

/-- A routed search keeps what is filed under a shard of one of its values. -/
theorem finds_iff {values : List String} {id : String} {routing : Option String} :
    s.finds values id routing = true ↔
      values = [] ∨ ∃ r ∈ values, s.shardOf id routing ∈ s.shardsForRouting r := by
  have every : values.toFinset.biUnion s.shardsForRouting ⊆ Finset.range s.shards.toNat := by
    intro shard mem
    obtain ⟨r, -, asked⟩ := Finset.mem_biUnion.mp mem
    obtain ⟨offset, -, rfl⟩ := Finset.mem_image.mp asked
    exact Finset.mem_range.mpr (s.routingShardOffset_lt r _ _)
  have asked : s.shardOf id routing ∈ values.toFinset.biUnion s.shardsForRouting ↔
      ∃ r ∈ values, s.shardOf id routing ∈ s.shardsForRouting r := by
    simp
  have whole : (values.toFinset.biUnion s.shardsForRouting).card = s.shards.toNat →
      s.shardOf id routing ∈ values.toFinset.biUnion s.shardsForRouting := by
    intro all
    rw [Finset.eq_of_subset_of_card_le every (by rw [all, Finset.card_range])]
    exact Finset.mem_range.mpr (s.shardOf_lt id routing)
  unfold finds OnShards.matching
  dsimp only
  rw [onShardsFilter_shardOf, ← asked]
  simp only [onShardsFilter, Bool.or_eq_true, List.isEmpty_iff, beq_iff_eq, List.contains_iff_mem,
    Finset.mem_sort]
  constructor
  · rintro ((none | all) | mem)
    · exact .inl none
    · exact .inr (whole all)
    · exact .inr mem
  · rintro (none | mem)
    · exact .inl (.inl none)
    · exact .inr mem

end Settings

/-! ## Splits -/

/-- An index that holds `k` shards for each of another, under the same routing shards and
partition. -/
structure SplitBy (k : ℕ) (s t : Settings) : Prop where
  pos : 0 < k
  shards : t.shards.toNat = s.shards.toNat * k
  routingShards : t.veloRoutingShards = s.veloRoutingShards
  partitionSize : t.partitionSize = s.partitionSize

section

variable {k : ℕ} {s t : Settings}

theorem SplitBy.shardOf (by_k : SplitBy k s t) {P : ℕ → ℕ → Prop}
    (folds : ∀ hash, P (fold hash s.shards s.veloRoutingShards)
      (fold hash t.shards s.veloRoutingShards))
    (id : String) (routing : Option String) : P (s.shardOf id routing) (t.shardOf id routing) := by
  cases routing with
  | none =>
    simp only [Settings.shardOf, routingShardIn, routingShardOffset, Settings.atLeastOne_shards,
      by_k.routingShards]
    exact folds _
  | some r =>
    simp only [Settings.shardOf, Settings.offsetOf, routingShardOffset, Settings.atLeastOne_shards,
      by_k.routingShards, by_k.partitionSize]
    exact folds _

theorem SplitBy.fold_div (by_k : SplitBy k s t) {rns : UInt64} (fits : Fits t.shards rns)
    (hash : ℤ) : fold hash t.shards (some rns) / k = fold hash s.shards (some rns) := by
  have pos := s.shards_pos
  have t_eq := fits.eq_mul
  set each := rns.toNat / t.shards.toNat with each_eq
  rw [by_k.shards] at t_eq
  have s_eq : rns.toNat = s.shards.toNat * (k * each) := by
    rw [t_eq]
    ring
  have fits_s : Fits s.shards rns := by
    constructor
    · apply UInt64.le_iff_toNat_le.mpr
      calc s.shards.toNat ≤ s.shards.toNat * k := Nat.le_mul_of_pos_right _ by_k.pos
        _ = t.shards.toNat := by_k.shards.symm
        _ ≤ rns.toNat := fits.le
    · apply UInt64.toNat_inj.mp
      rw [UInt64.toNat_mod, s_eq]
      simp
  rw [fold_of_fits fits, fold_of_fits fits_s, ← each_eq, Nat.div_div_eq_div_mul]
  congr 1
  rw [s_eq, Nat.mul_div_cancel_left _ pos, Nat.mul_comm]

/-- Where the routing shards fit the larger index, its shards are whole parts of those of the
smaller one. -/
theorem SplitBy.shardOf_div (by_k : SplitBy k s t) {rns : UInt64}
    (recorded : s.veloRoutingShards = some rns) (fits : Fits t.shards rns) (id : String)
    (routing : Option String) : t.shardOf id routing / k = s.shardOf id routing := by
  refine by_k.shardOf (P := fun a b => b / k = a) ?_ id routing
  intro hash
  rw [recorded]
  exact by_k.fold_div fits hash

theorem SplitBy.mem_shardsForRouting (by_k : SplitBy k s t) {rns : UInt64}
    (recorded : s.veloRoutingShards = some rns) (fits : Fits t.shards rns) {r : String} {shard : ℕ}
    (mem : shard ∈ t.shardsForRouting r) : shard / k ∈ s.shardsForRouting r := by
  obtain ⟨offset, lt, rfl⟩ := Finset.mem_image.mp mem
  refine Finset.mem_image.mpr ⟨offset, ?_, ?_⟩
  · rwa [← by_k.partitionSize]
  · rw [by_k.routingShards, recorded]
    unfold routingShardOffset
    rw [s.atLeastOne_shards, t.atLeastOne_shards, by_k.fold_div fits]

end

/-! ## Routed searches and splits -/

/-- A document is filed under a shard of the index that the searches with its routing ask for; and
where the routing shards fit what an index is split into, its shards are those of the shard it
comes from. -/
theorem shardOf_routed_and_split :
    (∀ (s : Settings) (id r : String),
      s.shardOf id (some r) < s.shards.toNat ∧ s.shardOf id (some r) ∈ s.shardsForRouting r) ∧
    ∀ (k : ℕ) (s t : Settings) (rns : UInt64), SplitBy k s t → s.veloRoutingShards = some rns →
      Fits t.shards rns → ∀ (id : String) (routing : Option String),
        s.shardOf id routing * k ≤ t.shardOf id routing ∧
          t.shardOf id routing ≤ s.shardOf id routing * k + (k - 1) := by
  constructor
  · intro s id r
    exact ⟨s.shardOf_lt id (some r), s.shardOf_mem id r⟩
  · intro k s t rns by_k recorded fits id routing
    have pos := by_k.pos
    have within : ∀ a b : ℕ, b / k = a → a * k ≤ b ∧ b ≤ a * k + (k - 1) := by
      intro a b div
      have := (Nat.div_eq_iff pos).mp div
      omega
    exact within _ _ (by_k.shardOf_div recorded fits id routing)

def twoShards : Settings :=
  Settings.recorded ⟨some 2, none, none, none⟩

def fourShards : Settings := { twoShards with numberOfShards := some 4 }

def sixShards : Settings := { twoShards with numberOfShards := some 6 }

theorem shardOf_routed_and_split_fourShards :
    SplitBy 2 twoShards fourShards ∧ Fits fourShards.shards 1024 ∧
      twoShards.shardOf "f1" (some "acme") * 2 ≤ fourShards.shardOf "f1" (some "acme") ∧
      fourShards.shardOf "f1" (some "acme") ≤
        twoShards.shardOf "f1" (some "acme") * 2 + (2 - 1) := by
  have by_two : SplitBy 2 twoShards fourShards := ⟨by decide, by decide, rfl, rfl⟩
  have fits : Fits fourShards.shards 1024 := by decide
  have recorded : twoShards.veloRoutingShards = some 1024 := by decide
  exact ⟨by_two, fits,
    shardOf_routed_and_split.2 2 twoShards fourShards 1024 by_two recorded fits "f1" (some "acme")⟩

/-- Six is no divisor of the routing shards an index of two is made with, and the split is taken
all the same. -/
theorem split_past_routing_shards :
    twoShards.split 6 = some sixShards ∧ SplitBy 3 twoShards sixShards ∧
      ¬ sixShards.shardOf "f0" none ≤ twoShards.shardOf "f0" none * 3 + (3 - 1) :=
  ⟨rfl, ⟨by decide, by decide, rfl, rfl⟩, by decide⟩

/-- The shards of an id in the reference. -/
example : ["f0", "doc-42", "ไทย"].map (fun id => routingShardIn id 5 (some 640)) = [3, 0, 3] := by
  decide

end Velosearch.Routing

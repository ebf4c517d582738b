import Velosearch.Search.Values
import Mathlib.Data.List.Range

/-!
# Ranges by block statistics

`BlockStats` and `BlockRangeQuery` of `src/blockstats.rs`, and `u64_bound` and
`block_range_query` of `src/query/range.rs`: a range over a column is answered from the smallest
and the greatest value of each block of 512 documents, where they say that enough blocks can be
passed over, and by the general range query where they do not.

A column holds its values as they are mapped into `u64`. The general query is the library's: it is
taken to be exact in a segment that has a column of the type it was built for, and anything in a
segment that has not. Whether the statistics pay is a comparison of single-precision numbers, and
a parameter.
-/

set_option autoImplicit false

namespace Velosearch.BlockRange

open Search (Json)

/-! ## Columns and their statistics -/

/-- How many documents a block has. -/
def block : ℕ := 512

/-- What a column holds. -/
inductive ColumnType
  | i64
  | u64
  | f64
  | dateTime
deriving DecidableEq

/-- A column, with the values of each document. -/
structure Column where
  values : ℕ → List ℕ
  full : Bool
  small : ∀ d, ∀ v ∈ values d, v < 2 ^ 64
  of_full : full = true → ∀ d, ∃ v, values d = [v]

/-- The document has a value in the range. -/
def Column.hit (col : Column) (lo hi d : ℕ) : Bool :=
  (col.values d).any fun v => lo ≤ v && v ≤ hi

/-- The documents that have one. -/
def Column.docidsForValueRange (col : Column) (lo hi start stop : ℕ) : List ℕ :=
  (List.range' start (stop - start)).filter (col.hit lo hi)

/-- How many blocks there are. -/
def numBlocks (numDocs : ℕ) : ℕ := (numDocs + (block - 1)) / block

/-- The smallest and the largest value of each block. -/
structure BlockStats where
  blocks : List (ℕ × ℕ)
  numDocs : ℕ
  length_blocks : blocks.length = numBlocks numDocs

/-- Those of some documents. -/
def Column.bounds (col : Column) (docs : List ℕ) : ℕ × ℕ :=
  (docs.flatMap col.values).foldl (fun m v => (min m.1 v, max m.2 v)) (2 ^ 64 - 1, 0)

/-- The documents of a block. -/
def docsOf (numDocs b : ℕ) : List ℕ :=
  List.range' (b * block) (min (b * block + block) numDocs - b * block)

/-- Those of every block. -/
def BlockStats.build (col : Column) (numDocs : ℕ) : BlockStats where
  blocks := (List.range (numBlocks numDocs)).map fun b => col.bounds (docsOf numDocs b)
  numDocs := numDocs
  length_blocks := by simp

/-- No value of the block is in the range. -/
def dead (lo hi : ℕ) (m : ℕ × ℕ) : Bool :=
  m.2 < m.1 || m.2 < lo || hi < m.1

/-- Every value of the block is in the range. -/
def inside (lo hi : ℕ) (m : ℕ × ℕ) : Bool :=
  lo ≤ m.1 && m.2 ≤ hi

/-- How many blocks from `b` on are covered in part. -/
def BlockStats.partialRun (s : BlockStats) (lo hi : ℕ) (full : Bool) (b : ℕ) : ℕ :=
  ((s.blocks.drop b).takeWhile fun m => !dead lo hi m && !(full && inside lo hi m)).length

/-- `docids_in_range`, on fuel for its outer loop. -/
def BlockStats.docidsInRange (s : BlockStats) (col : Column) (lo hi : ℕ) (full : Bool) :
    ℕ → ℕ → List ℕ → Option (List ℕ)
  | 0, b, out => if b < s.blocks.length then none else some out
  | fuel + 1, b, out =>
    match s.blocks[b]? with
    | none => some out
    | some m =>
      if dead lo hi m then s.docidsInRange col lo hi full fuel (b + 1) out
      else if full && inside lo hi m then
        s.docidsInRange col lo hi full fuel (b + 1) (out ++ docsOf s.numDocs b)
      else
        let next := b + s.partialRun lo hi full b
        let run := col.docidsForValueRange lo hi (b * block) (min (next * block) s.numDocs)
        s.docidsInRange col lo hi full fuel next (out ++ run)

/-- How many blocks are. -/
def BlockStats.skippable (s : BlockStats) (lo hi : ℕ) : ℕ :=
  s.blocks.countP (dead lo hi)

/-! ## Segments and the cache -/

variable {S : Type}

/-- A segment with its columns. -/
structure Segment where
  maxDoc : ℕ
  column : String → ColumnType → Option Column

/-- `StatsCache`: under a segment and the name of a column. -/
abbrev StatsCache (S : Type) := S → String → Option BlockStats

/-- The statistics of a column, remembered. -/
def StatsCache.insert [DecidableEq S] (c : StatsCache S) (id : S) (name : String)
    (s : BlockStats) : StatsCache S :=
  fun id' name' => if id' = id ∧ name' = name then some s else c id' name'

/-- Those that are remembered, or made now. -/
def StatsCache.getOrBuild [DecidableEq S] (c : StatsCache S) (id : S) (seg : Segment)
    (name : String) (col : Column) : BlockStats × StatsCache S :=
  match c id name with
  | some hit => (hit, c)
  | none =>
    let stats := BlockStats.build col seg.maxDoc
    (stats, c.insert id name stats)

/-! ## The query -/

/-- One end of a range. -/
inductive Bound
  | unbounded
  | included (v : ℕ)
  | excluded (v : ℕ)

/-- The query: the column, and the range of its values. -/
structure BlockRangeQuery where
  column : String
  columnType : ColumnType
  lo : ℕ
  hi : ℕ

/-- What is taken from outside: how a double and a date are mapped into `u64`, which segments there
are, what the general range query matches, and when the statistics pay. -/
structure Engine (S : Type) where
  f64 : Json → Option ℕ
  f64_small : ∀ v x, f64 v = some x → x < 2 ^ 64
  date : String → Option ℕ
  date_small : ∀ s x, date s = some x → x < 2 ^ 64
  segment : S → Segment
  rangeQuery : String → ColumnType → Bound → Bound → S → ℕ → Bool
  pays : List (ℕ × ℕ) → Bool

/-- A value within both ends. -/
def Bound.admits (lower upper : Bound) (v : ℕ) : Bool :=
  (match lower with
    | .unbounded => true
    | .included x => x ≤ v
    | .excluded x => x < v) &&
  (match upper with
    | .unbounded => true
    | .included x => v ≤ x
    | .excluded x => v < x)

/-- The general range query matches a document with a value within its bounds, where the segment
has a column of the type. -/
def Engine.Exact (E : Engine S) : Prop :=
  ∀ id name ty col lower upper, (E.segment id).column name ty = some col →
    ∀ d < (E.segment id).maxDoc,
      E.rangeQuery name ty lower upper id d = (col.values d).any (lower.admits upper)

/-- A number of 64 bits. -/
def asI64 : Json → Option ℤ
  | .int n => if -2 ^ 63 ≤ n ∧ n < 2 ^ 63 then some n else none
  | _ => none

/-- One without a sign. -/
def asU64 : Json → Option ℕ
  | .int n => if 0 ≤ n ∧ n < 2 ^ 64 then some n.toNat else none
  | _ => none

/-- A bound in the column's monotonic `u64` space. -/
def Engine.code (E : Engine S) : ColumnType → Json → Option ℕ
  | .i64, v => (asI64 v).map fun n => (n + 2 ^ 63).toNat
  | .u64, v => asU64 v
  | .f64, v => E.f64 v
  | .dateTime, .str s => E.date s
  | .dateTime, _ => none

/-- An end of the range, as the column holds its values. -/
def Engine.u64Bound (E : Engine S) (ty : ColumnType) (b : Option (Json × Bool))
    (isLower : Bool) : Option ℕ :=
  match b with
  | none => some (if isLower then 0 else 2 ^ 64 - 1)
  | some (v, inclusive) =>
    -- stepping a float bound would change which values qualify
    if ty = .f64 ∧ !inclusive then none
    else (E.code ty v).bind fun x =>
      if inclusive then some x
      else if isLower then if x + 1 < 2 ^ 64 then some (x + 1) else none
      else if 0 < x then some (x - 1) else none

/-- `bound_term`, of a bound that fits the type. -/
def Engine.boundTerm (E : Engine S) (ty : ColumnType) (b : Option (Json × Bool)) : Bound :=
  match b with
  | none => .unbounded
  | some (v, inclusive) =>
    match E.code ty v with
    | none => .unbounded
    | some x => if inclusive then .included x else .excluded x

/-- What becomes of a query. -/
inductive Built
  | empty
  | scan (q : BlockRangeQuery)

/-- `block_range_query`: both ends, or a query for nothing. -/
def Engine.blockRangeQuery (E : Engine S) (column : String) (columnType : ColumnType)
    (lower upper : Option (Json × Bool)) : Option Built :=
  (E.u64Bound columnType lower true).bind fun lo =>
    (E.u64Bound columnType upper false).map fun hi =>
      if hi < lo then .empty else .scan { column, columnType, lo, hi }

/-- The general query of a range, which the block query falls back to. -/
def Engine.general (E : Engine S) (column : String) (columnType : ColumnType)
    (lower upper : Option (Json × Bool)) (id : S) (d : ℕ) : Bool :=
  E.rangeQuery column columnType (E.boundTerm columnType lower) (E.boundTerm columnType upper)
    id d

section Answer

variable [DecidableEq S] (E : Engine S) (q : BlockRangeQuery)

/-- A segment is asked for its statistics. -/
def askSegment (acc : List (ℕ × ℕ) × StatsCache S) (id : S) : List (ℕ × ℕ) × StatsCache S :=
  match (E.segment id).column q.column q.columnType with
  | none => acc
  | some col =>
    let (stats, c) := acc.2.getOrBuild id (E.segment id) q.column col
    (acc.1 ++ [(stats.blocks.length, stats.skippable q.lo q.hi)], c)

/-- `weight`: whether the blocks are scanned, and the cache with what was asked for. -/
def weight (segments : List S) (c : StatsCache S) : Bool × StatsCache S :=
  let (asked, c) := segments.foldl (askSegment E q) ([], c)
  ((asked.map Prod.fst).sum ≠ 0 && E.pays asked, c)

/-- The documents of a segment by blocks. -/
def docids (c : StatsCache S) (id : S) : Option (List ℕ) :=
  match (E.segment id).column q.column q.columnType with
  | none => some []
  | some col =>
    let (stats, _) := c.getOrBuild id (E.segment id) q.column col
    stats.docidsInRange col q.lo q.hi col.full stats.blocks.length 0 []

/-- Those it comes to, by blocks or the general way. -/
def matched (general : S → ℕ → Bool) (segments : List S) (c : StatsCache S) (id : S) :
    Option (List ℕ) :=
  match weight E q segments c with
  | (true, c) => docids E q c id
  | (false, _) => some ((List.range (E.segment id).maxDoc).filter (general id))

end Answer

/-- What is remembered after some searches. -/
def cacheAfter [DecidableEq S] (E : Engine S) (asked : List (List S × BlockRangeQuery)) :
    StatsCache S :=
  asked.foldl (fun c a => (weight E a.2 a.1 c).2) fun _ _ => none

/-! ## What a scan finds -/

/-- The document is found by blocks. -/
def BlockStats.found (s : BlockStats) (col : Column) (lo hi : ℕ) (full : Bool) (d : ℕ) : Bool :=
  match s.blocks[d / block]? with
  | none => false
  | some m => !dead lo hi m && (full && inside lo hi m || col.hit lo hi d)

section Scan

variable {s : BlockStats} {col : Column} {lo hi : ℕ} {full : Bool}

theorem lt_length_blocks {b : ℕ} : b < s.blocks.length ↔ b * block < s.numDocs := by
  rw [s.length_blocks, numBlocks, block]
  omega

theorem range_blocks {n b c : ℕ} (h : b ≤ c) :
    List.range' (b * block) (n - b * block) =
      List.range' (b * block) (min (c * block) n - b * block) ++
        List.range' (c * block) (n - c * block) := by
  have hbc : b * block ≤ c * block := Nat.mul_le_mul_right _ h
  rcases Nat.le_total (c * block) n with le | le
  · have : List.range' (b * block) (c * block - b * block) ++
        List.range' (b * block + (c * block - b * block)) (n - c * block) =
          List.range' (b * block) (c * block - b * block + (n - c * block)) :=
      List.range'_append_1
    rw [Nat.add_sub_cancel' hbc] at this
    rw [min_eq_left le, this]
    congr 1
    omega
  · rw [min_eq_right le, Nat.sub_eq_zero_of_le le]
    simp

theorem div_block {b c d : ℕ} (h : d ∈ List.range' (b * block) (min (c * block) s.numDocs - b * block)) :
    b ≤ d / block ∧ d / block < c ∧ d < s.numDocs := by
  rw [List.mem_range'_1] at h
  simp only [block] at h ⊢
  omega

theorem docsOf_eq (n b : ℕ) :
    docsOf n b = List.range' (b * block) (min ((b + 1) * block) n - b * block) := by
  rw [docsOf, Nat.succ_mul]

theorem found_from {b c : ℕ} (h : b ≤ c) {part : List ℕ}
    (hpart : (List.range' (b * block) (min (c * block) s.numDocs - b * block)).filter
      (s.found col lo hi full) = part) :
    (List.range' (b * block) (s.numDocs - b * block)).filter (s.found col lo hi full) =
      part ++ (List.range' (c * block) (s.numDocs - c * block)).filter
        (s.found col lo hi full) := by
  rw [range_blocks h, List.filter_append, hpart]

theorem blocks_at {b c d : ℕ} {m : ℕ × ℕ} (hm : s.blocks[b]? = some m)
    (h : d ∈ List.range' (b * block) (min (c * block) s.numDocs - b * block))
    (hc : c = b + 1) : s.blocks[d / block]? = some m := by
  obtain ⟨le, lt, _⟩ := div_block h
  rw [show d / block = b by omega]
  exact hm

theorem partialRun_blocks {b i : ℕ} (hi' : b ≤ i) (h : i < b + s.partialRun lo hi full b) :
    ∃ m, s.blocks[i]? = some m ∧ dead lo hi m = false ∧ (full && inside lo hi m) = false := by
  let p : ℕ × ℕ → Bool := fun m => !dead lo hi m && !(full && inside lo hi m)
  have hlt : i - b < ((s.blocks.drop b).takeWhile p).length := by
    have : s.partialRun lo hi full b = ((s.blocks.drop b).takeWhile p).length := rfl
    omega
  have hat : (s.blocks.drop b)[i - b]? = some ((s.blocks.drop b).takeWhile p)[i - b] := by
    have pre := List.takeWhile_prefix p (l := s.blocks.drop b)
    obtain ⟨t, ht⟩ := pre
    conv_lhs => rw [← ht]
    rw [List.getElem?_append_left hlt]
    exact List.getElem?_eq_getElem hlt
  have hp := List.all_takeWhile (p := p) (l := s.blocks.drop b)
  have hm := List.all_eq_true.mp hp _ (List.getElem_mem hlt)
  rw [List.getElem?_drop, Nat.add_sub_cancel' hi'] at hat
  simp only [p, Bool.and_eq_true, Bool.not_eq_true'] at hm
  exact ⟨_, hat, hm⟩

theorem partialRun_pos {b : ℕ} {m : ℕ × ℕ} (hm : s.blocks[b]? = some m)
    (hd : dead lo hi m = false) (hw : (full && inside lo hi m) = false) :
    0 < s.partialRun lo hi full b := by
  obtain ⟨hb, rfl⟩ := List.getElem?_eq_some_iff.mp hm
  rw [BlockStats.partialRun, List.drop_eq_getElem_cons hb, List.takeWhile_cons_of_pos]
  · exact Nat.succ_pos _
  · simp only [hd, hw, Bool.not_false, Bool.and_self]

theorem partialRun_le {b : ℕ} (h : b ≤ s.blocks.length) :
    b + s.partialRun lo hi full b ≤ s.blocks.length := by
  have := (List.takeWhile_prefix (l := s.blocks.drop b)
    (fun m => !dead lo hi m && !(full && inside lo hi m))).length_le
  simp only [List.length_drop] at this
  simp only [BlockStats.partialRun]
  omega

theorem docidsInRange_from :
    ∀ (fuel b : ℕ) (out : List ℕ), b ≤ s.blocks.length → s.blocks.length ≤ fuel + b →
      s.docidsInRange col lo hi full fuel b out = some (out ++
        (List.range' (b * block) (s.numDocs - b * block)).filter (s.found col lo hi full)) := by
  intro fuel
  induction fuel with
  | zero =>
    intro b out _ enough
    have done : ¬ b < s.blocks.length := by omega
    have none_left : s.numDocs - b * block = 0 := by
      rw [lt_length_blocks] at done
      omega
    simp [BlockStats.docidsInRange, done, none_left]
  | succ fuel ih =>
    intro b out le enough
    simp only [BlockStats.docidsInRange]
    cases hm : s.blocks[b]? with
    | none =>
      have done := List.getElem?_eq_none_iff.mp hm
      have none_left : s.numDocs - b * block = 0 := by
        have : ¬ b < s.blocks.length := by omega
        rw [lt_length_blocks] at this
        omega
      simp [none_left]
    | some m =>
      have lt : b < s.blocks.length := (List.getElem?_eq_some_iff.mp hm).1
      simp only
      by_cases hd : dead lo hi m = true
      · simp only [if_pos hd]
        rw [ih (b + 1) out lt (by omega), found_from (Nat.le_succ b), List.nil_append]
        rw [List.filter_eq_nil_iff]
        intro d mem
        simp [BlockStats.found, blocks_at hm mem rfl, hd]
      · simp only [if_neg hd]
        by_cases hw : (full && inside lo hi m) = true
        · simp only [if_pos hw]
          rw [ih (b + 1) _ lt (by omega), List.append_assoc, found_from (Nat.le_succ b)]
          rw [docsOf_eq]
          rw [List.filter_eq_self]
          intro d mem
          simp [BlockStats.found, blocks_at hm mem rfl, hd, hw]
        · simp only [if_neg hw]
          have pos := partialRun_pos hm (by simpa using hd) (by simpa using hw)
          rw [ih _ _ (partialRun_le le) (by omega), List.append_assoc,
            found_from (Nat.le_add_right b _)]
          apply List.filter_congr
          intro d mem
          obtain ⟨ge, before, _⟩ := div_block mem
          obtain ⟨m', hm', hd', hw'⟩ := partialRun_blocks ge before
          simp [BlockStats.found, hm', hd', hw']

theorem docidsInRange_eq (s : BlockStats) (col : Column) (lo hi : ℕ) (full : Bool) :
    s.docidsInRange col lo hi full s.blocks.length 0 [] =
      some ((List.range s.numDocs).filter (s.found col lo hi full)) := by
  rw [docidsInRange_from _ _ _ (Nat.zero_le _) (Nat.le_refl _)]
  simp [List.range_eq_range']

end Scan

/-! ## Statistics that tell the truth -/

/-- No document with a value in the range is in a block that is passed over, and every document of
a block that is taken whole has one. -/
def BlockStats.Tells (s : BlockStats) (col : Column) (lo hi : ℕ) : Prop :=
  ∀ d < s.numDocs, ∀ m, s.blocks[d / block]? = some m →
    (dead lo hi m = true → col.hit lo hi d = false) ∧
      (dead lo hi m = false → col.full = true → inside lo hi m = true →
        col.hit lo hi d = true)

theorem BlockStats.tells_iff {s : BlockStats} {col : Column} {lo hi : ℕ} :
    s.Tells col lo hi ↔ ∀ d < s.numDocs, s.found col lo hi col.full d = col.hit lo hi d := by
  have at_ {d : ℕ} (hd : d < s.numDocs) : ∃ m, s.blocks[d / block]? = some m := by
    have lt : d / block < s.blocks.length := by
      rw [lt_length_blocks]
      simp only [block]
      omega
    exact ⟨_, List.getElem?_eq_getElem lt⟩
  constructor
  · intro tells d hd
    obtain ⟨m, hm⟩ := at_ hd
    obtain ⟨passed, whole⟩ := tells d hd m hm
    simp only [BlockStats.found, hm]
    cases hdead : dead lo hi m with
    | true => simp [passed hdead]
    | false =>
      cases hfull : col.full with
      | false => simp
      | true =>
        cases hin : inside lo hi m with
        | false => simp
        | true => simp [whole hdead hfull hin]
  · intro same d hd m hm
    have found := same d hd
    simp only [BlockStats.found, hm] at found
    refine ⟨?_, ?_⟩
    · intro hdead
      simpa [hdead] using found.symm
    · intro hdead hfull hin
      simpa [hdead, hfull, hin] using found.symm

theorem foldl_bounds (l : List ℕ) :
    ∀ m : ℕ × ℕ, let m' := l.foldl (fun m v => (min m.1 v, max m.2 v)) m
      (∀ v ∈ l, m'.1 ≤ v ∧ v ≤ m'.2) ∧ m'.1 ≤ m.1 ∧ m.2 ≤ m'.2 := by
  induction l with
  | nil => simp
  | cons a l ih =>
    intro m
    obtain ⟨all, low, high⟩ := ih (min m.1 a, max m.2 a)
    simp only [List.foldl_cons]
    refine ⟨?_, le_trans low (min_le_left _ _), le_trans (le_max_left _ _) high⟩
    intro v hv
    rcases List.mem_cons.mp hv with rfl | hv
    · exact ⟨le_trans low (min_le_right _ _), le_trans (le_max_right _ _) high⟩
    · exact all v hv

theorem build_bounds {col : Column} {n d : ℕ} {m : ℕ × ℕ} (hd : d < n)
    (hm : (BlockStats.build col n).blocks[d / block]? = some m) :
    ∀ v ∈ col.values d, m.1 ≤ v ∧ v ≤ m.2 := by
  intro v hv
  simp only [BlockStats.build, List.getElem?_map, List.getElem?_eq_some_iff,
    Option.map_eq_some_iff] at hm
  obtain ⟨b, ⟨_, hb⟩, rfl⟩ := hm
  rw [List.getElem_range] at hb
  subst hb
  apply (foldl_bounds _ _).1
  refine List.mem_flatMap.mpr ⟨d, ?_, hv⟩
  rw [docsOf, List.mem_range'_1]
  simp only [block]
  omega

theorem build_tells (col : Column) (n lo hi : ℕ) : (BlockStats.build col n).Tells col lo hi := by
  intro d hd m hm
  have within := build_bounds hd hm
  refine ⟨?_, ?_⟩
  · intro hdead
    simp only [dead, Bool.or_eq_true, decide_eq_true_eq] at hdead
    simp only [Column.hit, List.any_eq_false, Bool.and_eq_true, decide_eq_true_eq]
    intro v hv between
    have := within v hv
    omega
  · intro _ hfull hin
    obtain ⟨v, hv⟩ := col.of_full hfull d
    have := within v (by simp [hv])
    simp only [inside, Bool.and_eq_true, decide_eq_true_eq] at hin
    simp only [Column.hit, hv, List.any_cons, List.any_nil, Bool.or_false, Bool.and_eq_true,
      decide_eq_true_eq]
    omega

/-! ## Bounds -/

section Bounds

variable {E : Engine S}

theorem code_small {ty : ColumnType} {v : Json} {x : ℕ} (h : E.code ty v = some x) :
    x < 2 ^ 64 := by
  cases ty with
  | i64 =>
    cases v with
    | int n =>
      simp only [Engine.code, asI64] at h
      split at h
      · simp only [Option.map_some, Option.some.injEq] at h
        omega
      · cases h
    | _ => cases h
  | u64 =>
    cases v with
    | int n =>
      simp only [Engine.code, asU64] at h
      split at h
      · cases h
        omega
      · cases h
    | _ => cases h
  | f64 => exact E.f64_small v x h
  | dateTime =>
    cases v with
    | str s => exact E.date_small s x h
    | _ => cases h

theorem u64Bound_some {ty : ColumnType} {v : Json} {inclusive isLower : Bool} {b : ℕ}
    (h : E.u64Bound ty (some (v, inclusive)) isLower = some b) :
    ∃ x, E.code ty v = some x ∧ x < 2 ^ 64 ∧
      (if inclusive then b = x else if isLower then b = x + 1 else x = b + 1) := by
  simp only [Engine.u64Bound] at h
  split at h
  · cases h
  · obtain ⟨x, hx, h⟩ := Option.bind_eq_some_iff.mp h
    refine ⟨x, hx, code_small hx, ?_⟩
    cases inclusive with
    | true => simpa using h.symm
    | false =>
      cases isLower with
      | true =>
        simp only [Bool.false_eq_true, if_false, if_true] at h ⊢
        split at h <;> simp_all
      | false =>
        simp only [Bool.false_eq_true, if_false] at h ⊢
        split at h
        · cases h
          omega
        · cases h

theorem u64Bound_admits {ty : ColumnType} {lower upper : Option (Json × Bool)} {lo hi v : ℕ}
    (hlo : E.u64Bound ty lower true = some lo) (hhi : E.u64Bound ty upper false = some hi)
    (small : v < 2 ^ 64) :
    (E.boundTerm ty lower).admits (E.boundTerm ty upper) v =
      (decide (lo ≤ v) && decide (v ≤ hi)) := by
  simp only [Bound.admits]
  congr 1
  · cases lower with
    | none =>
      cases hlo
      simp [Engine.boundTerm]
    | some b =>
      obtain ⟨x, hx, _, hb⟩ := u64Bound_some hlo
      cases hinc : b.2 with
      | true =>
        simp only [hinc, if_true] at hb
        simp [Engine.boundTerm, hx, hinc, hb]
      | false =>
        simp only [hinc, Bool.false_eq_true, if_false, if_true] at hb
        simp only [Engine.boundTerm, hx, hinc, Bool.false_eq_true, if_false]
        exact decide_eq_decide.mpr (by omega)
  · cases upper with
    | none =>
      cases hhi
      simp only [Engine.boundTerm, Bool.false_eq_true, if_false]
      exact (decide_eq_true (by omega)).symm
    | some b =>
      obtain ⟨x, hx, _, hb⟩ := u64Bound_some hhi
      cases hinc : b.2 with
      | true =>
        simp only [hinc, if_true] at hb
        simp [Engine.boundTerm, hx, hinc, hb]
      | false =>
        simp only [hinc, Bool.false_eq_true, if_false] at hb
        simp only [Engine.boundTerm, hx, hinc, Bool.false_eq_true, if_false]
        exact decide_eq_decide.mpr (by omega)

end Bounds

/-! ## The cache -/

section Cache

variable [DecidableEq S] {E : Engine S} {q : BlockRangeQuery}

/-- The statistics a search goes by. -/
def statsFor (c : StatsCache S) (id : S) (seg : Segment) (name : String) (col : Column) :
    BlockStats :=
  (c id name).getD (BlockStats.build col seg.maxDoc)

theorem getOrBuild_stats (c : StatsCache S) (id : S) (seg : Segment) (name : String)
    (col : Column) : (c.getOrBuild id seg name col).1 = statsFor c id seg name col := by
  simp only [StatsCache.getOrBuild, statsFor]
  cases c id name <;> rfl

theorem getOrBuild_cache {c : StatsCache S} {id id' : S} {seg : Segment} {name name' : String}
    {col : Column} {s : BlockStats} (h : (c.getOrBuild id seg name col).2 id' name' = some s) :
    c id' name' = some s ∨ id' = id ∧ name' = name ∧ c id name = none ∧
      s = BlockStats.build col seg.maxDoc := by
  simp only [StatsCache.getOrBuild] at h
  cases hc : c id name with
  | some hit =>
    rw [hc] at h
    exact .inl h
  | none =>
    rw [hc] at h
    simp only [StatsCache.insert] at h
    split at h
    next same => exact .inr ⟨same.1, same.2, rfl, (Option.some.inj h).symm⟩
    next => exact .inl h

theorem getOrBuild_keeps {c : StatsCache S} {id id' : S} {seg : Segment} {name name' : String}
    {col : Column} {s : BlockStats} (h : c id' name' = some s) :
    (c.getOrBuild id seg name col).2 id' name' = some s := by
  simp only [StatsCache.getOrBuild]
  cases hc : c id name with
  | some hit => exact h
  | none =>
    simp only [StatsCache.insert]
    split
    next same =>
      rw [same.1, same.2, hc] at h
      cases h
    next => exact h

/-- What is remembered of a column is that column's. -/
def OfSegment (E : Engine S) (P : String → ColumnType → Prop) (c : StatsCache S) : Prop :=
  ∀ id name s, c id name = some s → ∃ ty col, P name ty ∧
    (E.segment id).column name ty = some col ∧
      s = BlockStats.build col (E.segment id).maxDoc

theorem OfSegment.ask {P : String → ColumnType → Prop} {acc : List (ℕ × ℕ) × StatsCache S}
    (h : OfSegment E P acc.2) (hP : P q.column q.columnType) (id : S) :
    OfSegment E P (askSegment E q acc id).2 := by
  simp only [askSegment]
  cases hcol : (E.segment id).column q.column q.columnType with
  | none => exact h
  | some col =>
    intro id' name s hs
    rcases getOrBuild_cache hs with hs | ⟨rfl, rfl, _, rfl⟩
    · exact h id' name s hs
    · exact ⟨q.columnType, col, hP, hcol, rfl⟩

theorem OfSegment.weight {P : String → ColumnType → Prop} {c : StatsCache S}
    (h : OfSegment E P c) (hP : P q.column q.columnType) (segments : List S) :
    OfSegment E P (weight E q segments c).2 := by
  have all : ∀ (segments : List S) (acc : List (ℕ × ℕ) × StatsCache S), OfSegment E P acc.2 →
      OfSegment E P (segments.foldl (askSegment E q) acc).2 := by
    intro segments
    induction segments with
    | nil => exact fun _ h => h
    | cons id segments ih => exact fun acc h => ih _ (h.ask hP id)
  exact all segments ([], c) h

theorem OfSegment.after {P : String → ColumnType → Prop}
    {asked : List (List S × BlockRangeQuery)}
    (hP : ∀ a ∈ asked, P a.2.column a.2.columnType) : OfSegment E P (cacheAfter E asked) := by
  have all : ∀ (asked : List (List S × BlockRangeQuery)) (c : StatsCache S),
      (∀ a ∈ asked, P a.2.column a.2.columnType) → OfSegment E P c →
        OfSegment E P (asked.foldl (fun c a => (BlockRange.weight E a.2 a.1 c).2) c) := by
    intro asked
    induction asked with
    | nil => exact fun _ _ h => h
    | cons a asked ih =>
      intro c hP h
      exact ih _ (fun b hb => hP b (List.mem_cons_of_mem _ hb))
        (h.weight (hP a List.mem_cons_self) a.1)
  exact all asked _ hP nofun

theorem statsFor_ask (acc : List (ℕ × ℕ) × StatsCache S) (id id' : S) {col : Column}
    (hcol : (E.segment id').column q.column q.columnType = some col) :
    statsFor (askSegment E q acc id).2 id' (E.segment id') q.column col =
      statsFor acc.2 id' (E.segment id') q.column col := by
  simp only [askSegment]
  cases hcol' : (E.segment id).column q.column q.columnType with
  | none => rfl
  | some col' =>
    simp only [statsFor]
    cases hc : acc.2 id' q.column with
    | some s => rw [getOrBuild_keeps hc]
    | none =>
      cases hn : (acc.2.getOrBuild id (E.segment id) q.column col').2 id' q.column with
      | none => rfl
      | some s =>
        rcases getOrBuild_cache hn with hs | ⟨rfl, _, _, rfl⟩
        · rw [hc] at hs
          cases hs
        · rw [hcol] at hcol'
          cases hcol'
          rfl

theorem statsFor_weight (segments : List S) (c : StatsCache S) (id : S) {col : Column}
    (hcol : (E.segment id).column q.column q.columnType = some col) :
    statsFor (weight E q segments c).2 id (E.segment id) q.column col =
      statsFor c id (E.segment id) q.column col := by
  have all : ∀ (segments : List S) (acc : List (ℕ × ℕ) × StatsCache S),
      statsFor (segments.foldl (askSegment E q) acc).2 id (E.segment id) q.column col =
        statsFor acc.2 id (E.segment id) q.column col := by
    intro segments
    induction segments with
    | nil => exact fun _ => rfl
    | cons id' segments ih =>
      intro acc
      rw [List.foldl_cons, ih, statsFor_ask acc id' id hcol]
  exact all segments ([], c)

end Cache

/-! ## The two scans -/

section Scans

variable [DecidableEq S] {E : Engine S}

/-- What a segment has to be like for the block scan to answer as the general query: the
statistics that are cached under the column's name, which may be those of a column of another
type, tell the truth of this one; or there is no column of the type, and the general query finds
nothing. -/
def Judged (E : Engine S) (c : StatsCache S) (q : BlockRangeQuery) (general : S → ℕ → Bool)
    (id : S) : Prop :=
  match (E.segment id).column q.column q.columnType with
  | some col => ∀ s, c id q.column = some s → s.Tells col q.lo q.hi
  | none => ∀ d < (E.segment id).maxDoc, general id d = false

/-- Blocks and the general way find the same. -/
def Agrees (E : Engine S) (q : BlockRangeQuery) (general : S → ℕ → Bool) (segments : List S)
    (c : StatsCache S) (id : S) : Prop :=
  ∃ ds, matched E q general segments c id = some ds ∧ ds.Pairwise (· < ·) ∧
    ∀ d, d ∈ ds ↔ d < (E.segment id).maxDoc ∧ general id d = true

theorem sorted_filter (n : ℕ) (p : ℕ → Bool) :
    ((List.range n).filter p).Pairwise (· < ·) :=
  List.pairwise_lt_range.filter p

theorem filter_agrees {n : ℕ} {p p' : ℕ → Bool} :
    (∀ d, d ∈ (List.range n).filter p ↔ d < n ∧ p' d = true) ↔ ∀ d < n, p d = p' d := by
  simp only [List.mem_filter, List.mem_range]
  constructor
  · intro same d hd
    have := same d
    simp only [hd, true_and] at this
    exact Bool.eq_iff_iff.mpr this
  · intro same d
    constructor
    · rintro ⟨hd, hp⟩
      exact ⟨hd, same d hd ▸ hp⟩
    · rintro ⟨hd, hp⟩
      exact ⟨hd, (same d hd).symm ▸ hp⟩

theorem docids_agrees_iff {q : BlockRangeQuery} {c : StatsCache S} {general : S → ℕ → Bool}
    {P : String → ColumnType → Prop} (hc : OfSegment E P c) (id : S)
    (inRange : ∀ col, (E.segment id).column q.column q.columnType = some col →
      ∀ d < (E.segment id).maxDoc, general id d = col.hit q.lo q.hi d) (segments : List S) :
    (∃ ds, docids E q (weight E q segments c).2 id = some ds ∧ ds.Pairwise (· < ·) ∧
      ∀ d, d ∈ ds ↔ d < (E.segment id).maxDoc ∧ general id d = true) ↔
      Judged E c q general id := by
  simp only [docids, Judged]
  cases hcol : (E.segment id).column q.column q.columnType with
  | none =>
    constructor
    · rintro ⟨ds, hds, _, same⟩ d hd
      cases hds
      have := same d
      simpa [hd] using this
    · intro nothing
      refine ⟨[], rfl, List.Pairwise.nil, ?_⟩
      intro d
      constructor
      · nofun
      · rintro ⟨hd, found⟩
        rw [nothing d hd] at found
        cases found
  | some col =>
    have stats := getOrBuild_stats (weight E q segments c).2 id (E.segment id) q.column col
    rw [statsFor_weight segments c id hcol] at stats
    simp only [stats, docidsInRange_eq]
    have docs : (statsFor c id (E.segment id) q.column col).numDocs = (E.segment id).maxDoc := by
      simp only [statsFor]
      cases hs : c id q.column with
      | none => rfl
      | some s =>
        obtain ⟨ty, col', _, _, rfl⟩ := hc id q.column s hs
        rfl
    have tells : (statsFor c id (E.segment id) q.column col).Tells col q.lo q.hi ↔
        ∀ s, c id q.column = some s → s.Tells col q.lo q.hi := by
      simp only [statsFor]
      cases c id q.column with
      | none => simp [build_tells]
      | some s => simp
    rw [← tells, BlockStats.tells_iff, docs]
    constructor
    · rintro ⟨ds, hds, _, same⟩ d hd
      cases hds
      rw [filter_agrees.mp same d hd]
      exact inRange col hcol d hd
    · intro same
      refine ⟨_, rfl, sorted_filter _ _, filter_agrees.mpr ?_⟩
      intro d hd
      rw [same d hd, inRange col hcol d hd]

/-- After any queries, a range the block query is built for is answered as the general query
answers it, if the statistics do not pay or if they and the columns are fit for it, and only
then. -/
theorem block_scan_agrees_iff (E : Engine S) (library : E.Exact)
    (earlier : List (List S × BlockRangeQuery)) (column : String) (columnType : ColumnType)
    (lower upper : Option (Json × Bool)) (q : BlockRangeQuery)
    (built : E.blockRangeQuery column columnType lower upper = some (.scan q))
    (segments : List S) :
    (∀ id ∈ segments, Agrees E q (E.general column columnType lower upper) segments
      (cacheAfter E earlier) id) ↔
      (weight E q segments (cacheAfter E earlier)).1 = false ∨
        ∀ id ∈ segments, Judged E (cacheAfter E earlier) q
          (E.general column columnType lower upper) id := by
  obtain ⟨lo, hlo, h⟩ := Option.bind_eq_some_iff.mp built
  obtain ⟨hi, hhi, h⟩ := Option.map_eq_some_iff.mp h
  split at h
  · cases h
  · cases h
    have ofSegment : OfSegment E (fun _ _ => True) (cacheAfter E earlier) :=
      OfSegment.after fun _ _ => trivial
    have inRange (id : S) (col : Column)
        (hcol : (E.segment id).column column columnType = some col) :
        ∀ d < (E.segment id).maxDoc,
          E.general column columnType lower upper id d = col.hit lo hi d := by
      intro d hd
      rw [Engine.general, library id column columnType col _ _ hcol d hd, Column.hit]
      rw [Bool.eq_iff_iff, List.any_eq_true, List.any_eq_true]
      constructor
      · rintro ⟨v, hv, admitted⟩
        rw [u64Bound_admits hlo hhi (col.small d v hv)] at admitted
        exact ⟨v, hv, admitted⟩
      · rintro ⟨v, hv, between⟩
        refine ⟨v, hv, ?_⟩
        rw [u64Bound_admits hlo hhi (col.small d v hv)]
        exact between
    generalize hw : weight E ⟨column, columnType, lo, hi⟩ segments (cacheAfter E earlier) = w
    obtain ⟨scans, c⟩ := w
    simp only [Agrees, matched, hw]
    cases scans with
    | false =>
      simp only [true_or, iff_true]
      intro id _
      exact ⟨_, rfl, sorted_filter _ _, filter_agrees.mpr fun _ _ => rfl⟩
    | true =>
      simp only [Bool.true_eq_false, false_or]
      have one (id : S) :=
        docids_agrees_iff (q := ⟨column, columnType, lo, hi⟩) ofSegment id (inRange id) segments
      simp only [hw] at one
      exact forall_congr' fun id => imp_congr_right fun _ => one id

/-! A price was a whole number in one segment, and has a fraction in another: `{"lte": 2.5}`. -/

section Price

def single (v : ℕ) (h : v < 2 ^ 64) : Column where
  values _ := [v]
  full := true
  small := by simpa using h
  of_full _ _ := ⟨v, rfl⟩

/-- 9.5, 1.0 and 2.5 as they are mapped into `u64`. -/
def nineAndAHalf : ℕ := 0xC023000000000000
def oneAsDouble : ℕ := 0xBFF0000000000000
def twoAndAHalf : ℕ := 0xC004000000000000

def price : Engine Bool where
  f64 v := match v with
    | .int _ => some oneAsDouble
    | .float _ => some twoAndAHalf
    | _ => none
  f64_small := by
    intro v x h
    cases v <;> cases h <;> decide
  date _ := none
  date_small := nofun
  segment id :=
    { maxDoc := 1
      column := fun name ty =>
        if name = "_raw.price" then
          match id, ty with
          | false, .i64 => some (single (2 ^ 63 + 1) (by decide))
          | true, .f64 => some (single nineAndAHalf (by decide))
          | _, _ => none
        else none }
  rangeQuery name ty lower upper id d :=
    match id, ty with
    | false, .i64 => name = "_raw.price" && lower.admits upper (2 ^ 63 + 1)
    | false, .f64 => name = "_raw.price" && lower.admits upper oneAsDouble
    | true, .f64 => name = "_raw.price" && lower.admits upper nineAndAHalf
    | _, _ => false
  pays asked := (asked.map Prod.fst).sum ≤ 4 * (asked.map Prod.snd).sum

theorem price_exact : price.Exact := by
  intro id name ty col lower upper hcol d _
  by_cases hname : name = "_raw.price"
  · cases id <;> cases ty <;> simp [price, hname] at hcol ⊢ <;> simp [← hcol, single]
  · simp [price, hname] at hcol

def atMost : BlockRangeQuery :=
  { column := "_raw.price", columnType := .f64, lo := 0, hi := twoAndAHalf }

theorem block_scan_agrees_among_doubles :
    Agrees price atMost
      (price.general "_raw.price" .f64 none (some (.float (.fin (5 / 2)), true))) [true]
      (cacheAfter price []) true := by
  refine (block_scan_agrees_iff price price_exact [] "_raw.price" .f64 none
    (some (.float (.fin (5 / 2)), true)) atMost rfl [true]).mpr (.inr ?_) true List.mem_cons_self
  intro id hid
  cases List.mem_singleton.mp hid
  exact fun _ h => nomatch h

/-- The whole number is at most 2.5, and the block scan passes its segment over. -/
theorem whole_number_is_lost :
    price.blockRangeQuery "_raw.price" .f64 none (some (.float (.fin (5 / 2)), true)) =
        some (.scan atMost) ∧
      ¬ ∀ id ∈ [false, true], Agrees price atMost
        (price.general "_raw.price" .f64 none (some (.float (.fin (5 / 2)), true)))
        [false, true] (cacheAfter price []) id := by
  refine ⟨rfl, ?_⟩
  intro agrees
  obtain ⟨ds, hds, _, same⟩ := agrees false List.mem_cons_self
  have none_found : matched price atMost
      (price.general "_raw.price" .f64 none (some (.float (.fin (5 / 2)), true)))
      [false, true] (cacheAfter price []) false = some [] := by
    decide +kernel
  rw [none_found] at hds
  cases hds
  have found : (0 : ℕ) ∈ ([] : List ℕ) := (same 0).mpr (by decide +kernel)
  cases found

end Price

end Scans

end Velosearch.BlockRange

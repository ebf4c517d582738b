import Velosearch.Search.Best
import Mathlib.Data.List.Sort
import Mathlib.Data.List.Zip

/-!
# Page after page

A search that asks for the page after the last hit it was given: the sort values printed
for that hit come back as `search_after`, are read as a marker, and the documents at or
before it are left out (`run` of `src/search/run.rs` and the collectors). The indices of the
search are its shards here.

The marker is read as a double, unless its key is a date. Of integers that are doubles it
compares as the values it was printed from.
-/

set_option autoImplicit false

namespace Velosearch.Search

open Velosearch.Lib

/-! ## The search -/

/-- The key's values are made whole numbers. -/
def SortKey.narrows (key : SortKey) : Bool :=
  key.numericType.any fun t => ["long", "int", "date", "date_nanos"].contains t

/-- A sort value as a hit shows it (`write_page`). -/
def printSort (key : SortKey) (v : SortValue) : Json :=
  if key.narrows then
    match v.toJson with
    | .int n => .int (F64.ofInt n).toI64
    | .float x => .int x.toI64
    | other => other
  else v.toJson

/-- The hit's `sort`. -/
def printSorts {n : ℕ} (keys : List SortKey) (d : Cand n) : List Json :=
  List.zipWith printSort keys d.sort

variable (readDate : Bool → String → Option ℤ)

/-- `search_after`, as the search reads it: a marker of nulls names no page at all. -/
def searchAfter (keys : List SortKey) (marker : Option (List Json)) : Option (List SortValue) :=
  (marker.filter fun a => a.length == keys.length && !a.isEmpty && !a.all (· == .null)).map
    fun a => List.zipWith (fun key v => sortValueFromJson readDate key.date v) keys a

/-- `prune`: only the best `want` candidates. -/
def pruneCands {n : ℕ} (sel : Selection (Cand n)) (keys : List SortKey) (want : ℕ)
    (cands : List (Cand n)) : List (Cand n) :=
  if want = 0 ∨ cands.length ≤ want then cands
  else (sel.select (cmpCands keys) (want - 1) cands).take want

/-- A page of `size` hits over the shards of a search. -/
def page (keys : List SortKey) (sel : Selection (Cand keys.length)) (size : ℕ)
    (shards : List (List (Segment keys.length))) (marker : Option (List Json)) :
    List (Cand keys.length) :=
  let c := SortCollector.ofKeys keys size (searchAfter readDate keys marker)
  let cands := pruneCands sel keys size (shards.flatMap (c.collectShard sel))
  (sortBy (cmpCands keys) cands).take size

/-- The pages asked for one after another, each after the last hit of the one before. -/
def pageAt (keys : List SortKey) (sel : Selection (Cand keys.length)) (size : ℕ)
    (shards : List (List (Segment keys.length))) : ℕ → List (Cand keys.length)
  | 0 => page readDate keys sel size shards none
  | i + 1 =>
    match (pageAt keys sel size shards i).getLast? with
    | none => []
    | some last => page readDate keys sel size shards (some (printSorts keys last))

/-! ## What a marker is worth -/

/-- What a value is worth. -/
inductive Worth where
  | int (n : ℤ)
  | float (x : F64)
  | str (s : String)
  | missing
  deriving DecidableEq

/-- That of a value. -/
def SortValue.worth : SortValue → Worth
  | .i64 v => .int v
  | .u64 v => .int v
  | .f64 x => .float x
  | .str s => .str s
  | .missing => .missing

/-- A value its key reads back. -/
def Plain (key : SortKey) : SortValue → Prop
  | .missing => True
  -- a text under a date may be read as a date
  | .str _ => key.date = none
  | .i64 n => (-2 ^ 63 ≤ n ∧ n < 2 ^ 63) ∧
      (key.date.isSome = true ∧ key.narrows = false ∨ F64.roundInt n = n)
  | .u64 n => n < 2 ^ 64 ∧ key.date = none ∧ F64.roundInt n = n ∧ (key.narrows = true → n < 2 ^ 63)
  | .f64 _ => False

theorem toI64_fin (n : ℤ) (low : -2 ^ 63 ≤ n) (high : n < 2 ^ 63) :
    (F64.fin n).toI64 = n := by
  have whole : (if (0 : ℚ) ≤ n then ⌊(n : ℚ)⌋ else ⌈(n : ℚ)⌉) = n := by
    rw [Int.floor_intCast, Int.ceil_intCast, ite_self]
  rw [F64.toI64, whole, min_eq_right (by omega), max_eq_right low]

theorem marker_of_plain (key : SortKey) (v : SortValue) (plain : Plain key v) :
    sortValueFromJson readDate key.date (printSort key v) = v ∨
      ∃ n : ℤ, v.worth = .int n ∧ F64.roundInt n = n ∧ key.date = none ∧
        sortValueFromJson readDate key.date (printSort key v) = .f64 (.fin n) := by
  cases v with
  | missing => left; rw [printSort]; split <;> rfl
  | str s =>
    left
    have date : key.date = none := plain
    rw [printSort, date]
    split <;> rfl
  | f64 x => exact plain.elim
  | i64 n =>
    obtain ⟨⟨low, high⟩, exact_⟩ := plain
    -- printed, it is the number itself
    have printed : printSort key (.i64 n) = .int n := by
      rw [printSort]
      split
      case isFalse => rfl
      case isTrue narrow =>
        have round := exact_.resolve_left fun h => by rw [narrow] at h; cases h.2
        show Json.int (F64.ofInt n).toI64 = .int n
        rw [F64.ofInt, round, toI64_fin n low high]
    rw [printed]
    cases date : key.date with
    | some nanos =>
      left
      show SortValue.i64 ((Json.asI64 (.int n)).getD 0) = .i64 n
      rw [Json.asI64, if_pos ⟨low, high⟩]
      rfl
    | none =>
      right
      have round := exact_.resolve_left fun h => by rw [date] at h; cases h.1
      refine ⟨n, rfl, round, rfl, ?_⟩
      show SortValue.f64 (F64.ofInt n) = _
      rw [F64.ofInt, round]
  | u64 n =>
    obtain ⟨bound, date, round, narrow⟩ := plain
    have printed : printSort key (.u64 n) = .int n := by
      rw [printSort]
      split
      case isFalse => rfl
      case isTrue narrows =>
        show Json.int (F64.ofInt n).toI64 = .int n
        rw [F64.ofInt, round, toI64_fin n (by omega) (by exact_mod_cast narrow narrows)]
    right
    refine ⟨n, rfl, round, date, ?_⟩
    rw [printed, date]
    show SortValue.f64 (F64.ofInt n) = _
    rw [F64.ofInt, round]

/-- A value that stands for a whole number. -/
inductive Stands (n : ℤ) : SortValue → Prop where
  | i64 : Stands n (.i64 n)
  | u64 (k : ℕ) (eq : (k : ℤ) = n) : Stands n (.u64 k)
  | f64 : Stands n (.f64 (.fin n))

theorem compare_intCast (n m : ℤ) : compare (n : ℚ) (m : ℚ) = compare n m := by
  rcases lt_trichotomy n m with lt | rfl | gt
  · rw [compare_lt_iff_lt.mpr lt, compare_lt_iff_lt.mpr (by exact_mod_cast lt)]
  · rw [compare_eq_iff_eq.mpr rfl, compare_eq_iff_eq.mpr rfl]
  · rw [compare_gt_iff_gt.mpr gt, compare_gt_iff_gt.mpr (by exact_mod_cast gt)]

theorem compare_natCast (n m : ℕ) : compare n m = compare (n : ℤ) (m : ℤ) := by
  rcases lt_trichotomy n m with lt | rfl | gt
  · rw [compare_lt_iff_lt.mpr lt, compare_lt_iff_lt.mpr (by exact_mod_cast lt)]
  · rw [compare_eq_iff_eq.mpr rfl, compare_eq_iff_eq.mpr rfl]
  · rw [compare_gt_iff_gt.mpr gt, compare_gt_iff_gt.mpr (by exact_mod_cast gt)]

/-- **Integers that are doubles** compare by what they are worth. -/
theorem cmpAsc_stands {n m : ℤ} {a b : SortValue} (ha : Stands n a) (hb : Stands m b)
    (hn : F64.roundInt n = n) (hm : F64.roundInt m = m) : a.cmpAsc b = compare n m := by
  have doubles : ((F64.fin n).partialCmp (.fin m)).getD .eq = compare n m := compare_intCast n m
  cases ha with
  | i64 =>
    cases hb with
    | i64 => rfl
    | u64 k eq =>
      show ((F64.ofInt n).partialCmp (F64.ofInt k)).getD .eq = _
      rw [eq, F64.ofInt, F64.ofInt, hn, hm, doubles]
    | f64 =>
      show ((F64.ofInt n).partialCmp (.fin m)).getD .eq = _
      rw [F64.ofInt, hn, doubles]
  | u64 k eq =>
    cases hb with
    | i64 =>
      show ((F64.ofInt k).partialCmp (F64.ofInt m)).getD .eq = _
      rw [eq, F64.ofInt, F64.ofInt, hn, hm, doubles]
    | u64 j eq' =>
      show compare k j = _
      rw [compare_natCast, eq, eq']
    | f64 =>
      show ((F64.ofInt k).partialCmp (.fin m)).getD .eq = _
      rw [eq, F64.ofInt, hn, doubles]
  | f64 =>
    cases hb with
    | i64 =>
      show ((F64.fin n).partialCmp (F64.ofInt m)).getD .eq = _
      rw [F64.ofInt, hm, doubles]
    | u64 j eq' =>
      show ((F64.fin n).partialCmp (F64.ofInt j)).getD .eq = _
      rw [eq', F64.ofInt, hm, doubles]
    | f64 => exact doubles

theorem plain_undated {key : SortKey} {v : SortValue} (plain : Plain key v)
    (date : key.date = none) :
    v = .missing ∨ (∃ s, v = .str s) ∨
      ∃ n, Stands n v ∧ F64.roundInt n = n ∧ v.worth = .int n := by
  cases v with
  | missing => exact .inl rfl
  | str s => exact .inr (.inl ⟨s, rfl⟩)
  | f64 x => exact plain.elim
  | i64 n =>
    have round := plain.2.resolve_left fun h => by rw [date] at h; cases h.1
    exact .inr (.inr ⟨n, .i64, round, rfl⟩)
  | u64 n => exact .inr (.inr ⟨n, .u64 n rfl, plain.2.2.1, rfl⟩)

theorem plain_dated {key : SortKey} {v : SortValue} (plain : Plain key v) {nanos : Bool}
    (date : key.date = some nanos) : v = .missing ∨ ∃ n, v = .i64 n := by
  cases v with
  | missing => exact .inl rfl
  | i64 n => exact .inr ⟨n, rfl⟩
  | str s => cases date.symm.trans plain
  | u64 n => cases date.symm.trans plain.2.1
  | f64 x => exact plain.elim

/-- **A marker compares as the value it was printed from.** -/
theorem cmpAsc_marker {key : SortKey} {u v : SortValue} (hu : Plain key u) (hv : Plain key v) :
    u.cmpAsc (sortValueFromJson readDate key.date (printSort key v)) = u.cmpAsc v ∧
      (sortValueFromJson readDate key.date (printSort key v)).isMissing = v.isMissing := by
  rcases marker_of_plain readDate key v hv with same | ⟨n, worth, round, date, eq⟩
  · rw [same]
    exact ⟨rfl, rfl⟩
  · rw [eq]
    have stands : Stands n v := by
      rcases plain_undated hv date with rfl | ⟨s, rfl⟩ | ⟨m, stands, -, worth'⟩
      · exact nomatch worth
      · exact nomatch worth
      · rw [worth'] at worth
        cases worth
        exact stands
    constructor
    · rcases plain_undated hu date with rfl | ⟨s, rfl⟩ | ⟨m, stands', round', -⟩
      · cases stands <;> rfl
      · cases stands <;> rfl
      · rw [cmpAsc_stands stands' .f64 round' round, cmpAsc_stands stands' stands round' round]
    · cases stands <;> rfl

theorem ordersOn_plain (key : SortKey) :
    OrdersOn SortValue.cmpAsc {v | v ≠ .missing ∧ Plain key v} := by
  cases date : key.date with
  | some nanos =>
    refine ordersOn_i64.mono ?_
    rintro v ⟨present, plain⟩
    exact (plain_dated plain date).resolve_left present
  | none =>
    have shape : ∀ v ∈ {v | v ≠ SortValue.missing ∧ Plain key v},
        (∃ s, v = .str s) ∨ ∃ n, Stands n v ∧ F64.roundInt n = n := by
      rintro v ⟨present, plain⟩
      refine ((plain_undated plain date).resolve_left present).imp_right ?_
      rintro ⟨n, stands, round, -⟩
      exact ⟨n, stands, round⟩
    have ints := ordersOn_compare (Set.univ : Set ℤ)
    have texts := ordersOn_compare (Set.univ : Set String)
    -- a text is greater than any number
    have beyond : ∀ {n : ℤ} {s : String} {v : SortValue}, Stands n v →
        v.cmpAsc (.str s) = .lt ∧ (SortValue.str s).cmpAsc v = .gt := by
      intro n s v stands
      cases stands <;> exact ⟨rfl, rfl⟩
    constructor
    · intro a ha b hb
      rcases shape a ha with ⟨s, rfl⟩ | ⟨n, sa, ra⟩ <;> rcases shape b hb with ⟨t, rfl⟩ | ⟨m, sb, rb⟩
      · exact texts.swap s trivial t trivial
      · rw [(beyond sb).1, (beyond sb).2]
        rfl
      · rw [(beyond sa).1, (beyond sa).2]
        rfl
      · rw [cmpAsc_stands sb sa rb ra, cmpAsc_stands sa sb ra rb]
        exact ints.swap n trivial m trivial
    · intro a ha b hb c hc
      rcases shape a ha with ⟨s, rfl⟩ | ⟨n, sa, ra⟩ <;>
        rcases shape b hb with ⟨t, rfl⟩ | ⟨m, sb, rb⟩ <;>
        rcases shape c hc with ⟨r, rfl⟩ | ⟨k, sc, rc⟩
      · exact texts.trans s trivial t trivial r trivial
      · rw [(beyond sc).2]
        exact fun _ h => nomatch h
      · rw [(beyond sb).2]
        exact fun h => nomatch h
      · rw [(beyond sb).2]
        exact fun h => nomatch h
      · intro _ _
        rw [(beyond sa).1]
        rfl
      · rw [(beyond sc).2]
        exact fun _ h => nomatch h
      · intro _ _
        rw [(beyond sa).1]
        rfl
      · rw [cmpAsc_stands sa sb ra rb, cmpAsc_stands sb sc rb rc, cmpAsc_stands sa sc ra rc]
        exact ints.trans n trivial m trivial k trivial

theorem worth_eq_of_cmpAsc {key : SortKey} {u v : SortValue} (hu : Plain key u) (hv : Plain key v)
    (presentU : u ≠ .missing) (presentV : v ≠ .missing) (eq : u.cmpAsc v = .eq) :
    u.worth = v.worth := by
  cases date : key.date with
  | some nanos =>
    obtain ⟨n, rfl⟩ := (plain_dated hu date).resolve_left presentU
    obtain ⟨m, rfl⟩ := (plain_dated hv date).resolve_left presentV
    rw [SortValue.worth, SortValue.worth, compare_eq_iff_eq.mp eq]
  | none =>
    rcases (plain_undated hu date).resolve_left presentU with ⟨s, rfl⟩ | ⟨n, su, ru, wu⟩ <;>
      rcases (plain_undated hv date).resolve_left presentV with ⟨t, rfl⟩ | ⟨m, sv, rv, wv⟩
    · rw [Std.LawfulEqCmp.eq_of_compare (show compare s t = .eq from eq)]
    · cases sv <;> exact nomatch eq
    · cases su <;> exact nomatch eq
    · rw [cmpAsc_stands su sv ru rv] at eq
      rw [wu, wv, compare_eq_iff_eq.mp eq]

/-! ## One page -/

/-- The documents of a search. -/
def docsOf {n : ℕ} (shards : List (List (Segment n))) : List (Cand n) :=
  shards.flatMap fun shard => shard.flatMap Segment.docs

/-- Every value of every document is. -/
def AllPlain (keys : List SortKey) (docs : List (Cand keys.length)) : Prop :=
  ∀ d ∈ docs, ∀ (i : ℕ) key v, keys[i]? = some key → d.sort[i]? = some v → Plain key v

/-- No two documents have the same values. -/
def Distinct {n : ℕ} (docs : List (Cand n)) : Prop :=
  docs.Pairwise fun a b => a.sort.map SortValue.worth ≠ b.sort.map SortValue.worth

section Page

variable {keys : List SortKey} {docs : List (Cand keys.length)}

/-- The order of the keys. -/
def inOrder (keys : List SortKey) (a b : Cand keys.length) : Ordering :=
  cmpKeys keys a.sort b.sort

theorem AllPlain.orders (plain : AllPlain keys docs) : OrdersOn (inOrder keys) {d | d ∈ docs} := by
  have lists : OrdersOn (lexCmp (keys.map cmpWithMissing)) {l | ∃ d ∈ docs, d.sort = l} := by
    refine ordersOn_lexCmp _ _ ?_ ?_
    · rintro l ⟨d, -, rfl⟩
      rw [d.sized, List.length_map]
    · intro i c place
      rw [List.getElem?_map, Option.map_eq_some_iff] at place
      obtain ⟨key, at_, rfl⟩ := place
      refine ordersOn_cmpWithMissing key ((ordersOn_plain key).mono ?_)
      rintro v ⟨present, l, ⟨d, mem, rfl⟩, hv⟩
      exact ⟨present, plain d mem i key v at_ hv⟩
  exact (lists.comap (f := Cand.sort)).mono fun d mem => ⟨d, mem, rfl⟩

theorem AllPlain.worth_eq (plain : AllPlain keys docs) {a b : Cand keys.length} (ha : a ∈ docs)
    (hb : b ∈ docs) (eq : inOrder keys a b = .eq) :
    a.sort.map SortValue.worth = b.sort.map SortValue.worth := by
  refine List.ext_getElem? fun i => ?_
  rw [List.getElem?_map, List.getElem?_map]
  by_cases inside : i < keys.length
  · obtain ⟨x, hx⟩ : ∃ x, a.sort[i]? = some x :=
      ⟨_, List.getElem?_eq_getElem (by rw [a.sized]; exact inside)⟩
    obtain ⟨y, hy⟩ : ∃ y, b.sort[i]? = some y :=
      ⟨_, List.getElem?_eq_getElem (by rw [b.sized]; exact inside)⟩
    obtain ⟨key, at_⟩ : ∃ key, keys[i]? = some key := ⟨_, List.getElem?_eq_getElem inside⟩
    have same : cmpWithMissing key x y = .eq :=
      lexCmp_eq (show lexCmp (keys.map cmpWithMissing) _ _ = .eq from eq)
        (by rw [List.getElem?_map, at_]; rfl) hx hy
        (by rw [a.sized, List.length_map]) (by rw [b.sized, List.length_map])
    rw [hx, hy]
    refine congrArg some ?_
    unfold cmpWithMissing at same
    cases mx : x.isMissing <;> cases my : y.isMissing <;> rw [mx, my] at same
    · refine worth_eq_of_cmpAsc (plain a ha i key x at_ hx) (plain b hb i key y at_ hy) ?_ ?_ ?_
      · rintro rfl
        exact nomatch mx
      · rintro rfl
        exact nomatch my
      · dsimp only at same
        split at same
        · exact Ordering.swap_eq_eq.mp same
        · exact same
    · cases last : key.missingLast <;> rw [last] at same <;> exact nomatch same
    · cases last : key.missingLast <;> rw [last] at same <;> exact nomatch same
    · rw [(isMissing_iff x).mp mx, (isMissing_iff y).mp my]
  · rw [List.getElem?_eq_none (by rw [a.sized]; omega),
      List.getElem?_eq_none (by rw [b.sized]; omega)]

/-- **The documents in their order**, each strictly after the one before. -/
theorem AllPlain.exists_ordered (plain : AllPlain keys docs) (distinct : Distinct docs) :
    ∃ ordered : List (Cand keys.length), ordered.Perm docs ∧
      ordered.Pairwise fun a b => inOrder keys a b = .lt := by
  have perm := sortBy_perm (inOrder keys) docs
  refine ⟨sortBy (inOrder keys) docs, perm, ?_⟩
  have symm : Std.Symm fun a b : Cand keys.length =>
      a.sort.map SortValue.worth ≠ b.sort.map SortValue.worth := ⟨fun _ _ ne => ne.symm⟩
  have apart := (perm.pairwise_iff fun h => h.symm).mpr distinct
  refine List.Pairwise.imp_of_mem ?_ ((sortBy_sorted plain.orders).and apart)
  rintro a b ha hb ⟨le, ne⟩
  cases found : inOrder keys a b with
  | lt => rfl
  | gt => rw [found] at le; exact nomatch le
  | eq => exact absurd (plain.worth_eq (perm.mem_iff.mp ha) (perm.mem_iff.mp hb) found) ne

theorem cmpCands_eq (orders : OrdersOn (inOrder keys) {d | d ∈ docs})
    (strict : docs.Pairwise fun a b => inOrder keys a b = .lt) (a b : Cand keys.length)
    (ha : a ∈ docs) (hb : b ∈ docs) :
    cmpCands keys a b = inOrder keys a b := by
  by_cases same : a = b
  · subst same
    have own : byDoc a a = .eq := by simp [byDoc]
    rw [cmpCands, own, inOrder]
    cases cmpKeys keys a.sort a.sort <;> rfl
  · have either : docs.Pairwise fun a b => inOrder keys a b = .lt ∨ inOrder keys b a = .lt :=
      strict.imp fun lt => .inl lt
    have symm : Std.Symm fun a b => inOrder keys a b = .lt ∨ inOrder keys b a = .lt :=
      ⟨fun _ _ h => h.symm⟩
    have back := orders.swap a ha b hb
    rw [cmpCands]
    change (inOrder keys a b).then (byDoc a b) = _
    rcases either.forall ha hb same with lt | lt
    · rw [lt]
      rfl
    · rw [Ordering.swap_eq_lt.mp (back.symm.trans lt)]
      rfl

theorem shards_cover {size : ℕ} (ahead collected : List (Segment keys.length) → List (Cand keys.length))
    (shards : List (List (Segment keys.length)))
    (best : ∀ shard ∈ shards, IsTopK (inOrder keys) size (ahead shard) (collected shard)) :
    ∃ dropped, (shards.flatMap ahead).Perm (shards.flatMap collected ++ dropped) ∧
      Covers (inOrder keys) size (shards.flatMap collected) dropped := by
  induction shards with
  | nil => exact ⟨[], List.Perm.refl _, Covers.nil⟩
  | cons shard rest ih =>
    obtain ⟨gone, perm, covers⟩ := (best shard (List.mem_cons_self ..)).covers
    obtain ⟨dropped, perm', covers'⟩ := ih fun s mem => best s (List.mem_cons_of_mem _ mem)
    rw [List.flatMap_cons, List.flatMap_cons]
    exact ⟨gone ++ dropped, Covers.both perm covers perm' covers'⟩

/-- **A page** is the first of the documents ahead, in their order. -/
theorem page_eq {size : ℕ} (sel : Selection (Cand keys.length)) (some_ : 0 < size)
    (orders : OrdersOn (inOrder keys) {d | d ∈ docs}) {shards : List (List (Segment keys.length))}
    {marker : Option (List Json)} {front : List (Cand keys.length)}
    (inside : ∀ d ∈ front, d ∈ docs)
    (perm : front.Perm (shards.flatMap fun shard => shard.flatMap
      (SortCollector.ofKeys keys size (searchAfter readDate keys marker)).ahead))
    (strict : front.Pairwise fun a b => inOrder keys a b = .lt)
    (best : ∀ shard ∈ shards, IsTopK (inOrder keys) size
      (shard.flatMap (SortCollector.ofKeys keys size (searchAfter readDate keys marker)).ahead)
      ((SortCollector.ofKeys keys size (searchAfter readDate keys marker)).collectShard sel shard)) :
    page readDate keys sel size shards marker = front.take size := by
  rw [page]
  obtain ⟨dropped, split, covers⟩ := shards_cover _ _ shards best
  generalize shards.flatMap ((SortCollector.ofKeys keys size
    (searchAfter readDate keys marker)).collectShard sel) = cands at *
  have whole : front.Perm (cands ++ dropped) := perm.trans split
  have held : ∀ d ∈ cands, d ∈ front := fun d mem => whole.mem_iff.mpr (List.mem_append_left _ mem)
  have gone : ∀ d ∈ dropped, d ∈ front := fun d mem =>
    whole.mem_iff.mpr (List.mem_append_right _ mem)
  have ours : OrdersOn (inOrder keys) {d | d ∈ front} := orders.mono inside
  have theirs : OrdersOn (cmpCands keys) {d | d ∈ front} := ours.congr fun a ha b hb =>
    cmpCands_eq ours strict a b ha hb
  -- the candidates pruned once more are the best of all
  have pruned : IsTopK (inOrder keys) size front (pruneCands sel keys size cands) := by
    rw [pruneCands]
    by_cases few : size = 0 ∨ cands.length ≤ size
    · rw [if_pos few]
      exact covers.isTopK whole (few.resolve_left (by omega))
    · rw [if_neg few]
      rw [not_or, Nat.not_le] at few
      obtain ⟨cut, length, le⟩ := sel.take_spec (theirs.mono held) some_ few.2.le
      have le' : ∀ a ∈ (sel.select (cmpCands keys) (size - 1) cands).take size,
          ∀ b ∈ (sel.select (cmpCands keys) (size - 1) cands).drop size,
          (inOrder keys a b).isLE = true := by
        intro a ha b hb
        rw [← cmpCands_eq ours strict a b
          (held a (cut.mem_iff.mpr (List.mem_append_left _ ha)))
          (held b (cut.mem_iff.mpr (List.mem_append_right _ hb)))]
        exact le a ha b hb
      have better := covers.cut ours held gone cut length le'
      refine better.isTopK ?_ length.le
      rw [← List.append_assoc]
      exact whole.trans (cut.append_right dropped)
  obtain ⟨rest, parts, -⟩ := id pruned
  have kept : ∀ d ∈ pruneCands sel keys size cands, d ∈ front := fun d mem =>
    parts.mem_iff.mpr (List.mem_append_left _ mem)
  have sorted : (sortBy (cmpCands keys) (pruneCands sel keys size cands)).Pairwise
      fun a b => (inOrder keys a b).isLE = true := by
    refine List.Pairwise.imp_of_mem ?_ (sortBy_sorted (theirs.mono kept))
    intro a b ha hb le
    have perm := sortBy_perm (cmpCands keys) (pruneCands sel keys size cands)
    rwa [cmpCands_eq ours strict a b (kept a (perm.mem_iff.mp ha))
      (kept b (perm.mem_iff.mp hb))] at le
  have eq := IsTopK.eq_take pruned (List.Perm.refl front) strict
    (fun a ha b hb => ours.swap a ha b hb) (sortBy_perm _ _) sorted
  rw [eq, List.take_take, min_self]

/-! ## After a hit -/

theorem searchAfter_hit (plain : AllPlain keys docs) {last : Cand keys.length} (mem : last ∈ docs)
    (some_ : ∃ v ∈ last.sort, v ≠ .missing) :
    searchAfter readDate keys (some (printSorts keys last)) =
      some (List.zipWith (fun key v => sortValueFromJson readDate key.date (printSort key v)) keys
        last.sort) := by
  obtain ⟨v, hv, present⟩ := some_
  obtain ⟨i, inside, eq⟩ := List.getElem_of_mem hv
  have at_ : last.sort[i]? = some v := by rw [List.getElem?_eq_getElem inside, eq]
  have bound : i < keys.length := by rw [← last.sized]; exact inside
  obtain ⟨key, place⟩ : ∃ key, keys[i]? = some key := ⟨_, List.getElem?_eq_getElem bound⟩
  -- its value is printed as no null
  have shown : printSort key v ≠ .null := by
    intro null
    have back := (cmpAsc_marker readDate (plain last mem i key v place at_)
      (plain last mem i key v place at_)).2
    rw [null] at back
    exact present ((isMissing_iff v).mp back.symm)
  have there : printSort key v ∈ printSorts keys last := by
    refine List.mem_of_getElem? (i := i) ?_
    rw [printSorts, List.getElem?_zipWith, place, at_]
  have length : (printSorts keys last).length = keys.length := by
    rw [printSorts, List.length_zipWith, last.sized, min_self]
  have keep : ((printSorts keys last).length == keys.length && !(printSorts keys last).isEmpty &&
      !(printSorts keys last).all (· == .null)) = true := by
    rw [length, beq_self_eq_true, Bool.true_and, Bool.and_eq_true, Bool.not_eq_true',
      Bool.not_eq_true', List.isEmpty_eq_false_iff, List.all_eq_false]
    exact ⟨List.ne_nil_of_mem there, _, there, by simpa using shown⟩
  rw [searchAfter, Option.filter_some, if_pos keep, Option.map_some, printSorts]
  refine congrArg some ?_
  rw [List.zipWith_zipWith_right, List.zipWith3_same_left]

theorem ahead_hit (plain : AllPlain keys docs) {last : Cand keys.length} (mem : last ∈ docs)
    (some_ : ∃ v ∈ last.sort, v ≠ .missing) (size : ℕ) {seg : Segment keys.length}
    (inside : ∀ d ∈ seg.docs, d ∈ docs) :
    (SortCollector.ofKeys keys size
        (searchAfter readDate keys (some (printSorts keys last)))).ahead seg =
      seg.docs.filter fun d => inOrder keys d last == .gt := by
  rw [searchAfter_hit readDate plain mem some_]
  refine List.filter_congr fun d hd => ?_
  have comps : List.zipWith (fun desc missingLast => cmpWithMissing { desc, missingLast })
      (keys.map SortKey.desc) (keys.map SortKey.missingLast) = keys.map cmpWithMissing := by
    rw [List.zipWith_map, List.zipWith_self]
    rfl
  obtain ⟨marker, hm⟩ : ∃ marker, marker = List.zipWith
    (fun key v => sortValueFromJson readDate key.date (printSort key v)) keys last.sort := ⟨_, rfl⟩
  have length : marker.length = last.sort.length := by
    rw [hm, List.length_zipWith, last.sized, min_self]
  have place : ∀ {i : ℕ} {key v m}, keys[i]? = some key → last.sort[i]? = some v →
      marker[i]? = some m → m = sortValueFromJson readDate key.date (printSort key v) := by
    intro i key v m hk hv hmark
    rw [hm, List.getElem?_zipWith, hk, hv] at hmark
    exact (Option.some.inj hmark).symm
  have same : lexCmp (keys.map cmpWithMissing) d.sort marker = inOrder keys d last := by
    refine lexCmp_congr rfl rfl length ?_
    intro i c c' x x' y y' hc hc' hx hx' hy hy'
    obtain rfl : c = c' := Option.some.inj (hc.symm.trans hc')
    obtain rfl : x = x' := Option.some.inj (hx.symm.trans hx')
    rw [List.getElem?_map, Option.map_eq_some_iff] at hc
    obtain ⟨key, hk, rfl⟩ := hc
    obtain ⟨compares, missing⟩ := cmpAsc_marker readDate
      (plain d (inside d hd) i key x hk hx) (plain last mem i key y' hk hy')
    rw [place hk hy' hy]
    unfold cmpWithMissing
    rw [compares, missing]
  rw [← hm]
  cases block : seg.block with
  | false =>
    rw [if_neg Bool.false_ne_true]
    have behind : (SortCollector.ofKeys keys size (some marker)).behind d =
        (lexCmp (List.zipWith (fun desc missingLast => cmpWithMissing { desc, missingLast })
          (keys.map SortKey.desc) (keys.map SortKey.missingLast)) d.sort marker != .gt) := rfl
    rw [behind, comps, same]
    cases inOrder keys d last <;> rfl
  | true =>
    rw [if_pos rfl]
    -- one key, which every document of the segment and the hit have a value for
    obtain ⟨one, full⟩ := seg.full block
    obtain ⟨key, rfl⟩ := List.length_eq_one_iff.mp one
    obtain ⟨x, hx⟩ := List.length_eq_one_iff.mp d.sized
    obtain ⟨y, hy⟩ := List.length_eq_one_iff.mp last.sized
    obtain ⟨m, hmark⟩ := List.length_eq_one_iff.mp (length.trans last.sized)
    have presentX : x.isMissing = false := by
      cases missing : x.isMissing with
      | false => rfl
      | true => exact absurd ((isMissing_iff x).mp missing ▸ hx) (full d hd)
    have presentY : y.isMissing = false := by
      obtain ⟨v, hv, present⟩ := some_
      rw [hy, List.mem_singleton] at hv
      cases missing : y.isMissing with
      | false => rfl
      | true => exact absurd (hv.trans ((isMissing_iff y).mp missing)) present
    have hm0 : m = sortValueFromJson readDate key.date (printSort key y) :=
      place (i := 0) rfl (by rw [hy]; rfl) (by rw [hmark]; rfl)
    obtain ⟨compares, -⟩ := cmpAsc_marker readDate
      (plain d (inside d hd) 0 key x rfl (by rw [hx]; rfl))
      (plain last mem 0 key y rfl (by rw [hy]; rfl))
    have behind : (SortCollector.ofKeys [key] size (some marker)).blockBehind d =
        (cmpPlain key.desc x m != .gt) := by
      rw [SortCollector.blockBehind, hmark, hx]
      rfl
    have order : inOrder [key] d last = cmpPlain key.desc x y := by
      rw [inOrder, cmpKeys, hx, hy]
      show (cmpWithMissing key x y).then .eq = _
      unfold cmpWithMissing cmpPlain
      rw [presentX, presentY]
      dsimp only
      cases (if key.desc = true then (x.cmpAsc y).swap else x.cmpAsc y) <;> rfl
    rw [behind, order, hm0, cmpPlain, cmpPlain, compares]
    cases (if key.desc = true then (x.cmpAsc y).swap else x.cmpAsc y) <;> rfl

end Page

/-! ## Page after page -/

/-- How far on in the order a document comes. -/
def rank (keys : List SortKey) (docs : List (Cand keys.length)) (d : Cand keys.length) : ℕ :=
  docs.countP fun e => (inOrder keys e d).isLE

/-- The documents of a segment that are not among the first `start` of the search. -/
def restFrom (keys : List SortKey) (docs : List (Cand keys.length)) (start : ℕ)
    (seg : Segment keys.length) : List (Cand keys.length) :=
  seg.docs.filter fun d => start < rank keys docs d

/-- The condition on a search that is walked page by page. -/
structure Walkable (keys : List SortKey) (size : ℕ) (shards : List (List (Segment keys.length))) :
    Prop where
  some_ : 0 < size
  plain : AllPlain keys (docsOf shards)
  found : ∀ shard ∈ shards, ∀ i : ℕ,
    ((shard.map (restFrom keys (docsOf shards) (i * size))).flatten).length ≤ size ∨
      Placed keys size (shard.map (restFrom keys (docsOf shards) (i * size))).flatten ∧
        ∀ seg ∈ shard, Cleared keys size (restFrom keys (docsOf shards) (i * size) seg)
  ends : ∀ d ∈ docsOf shards, (∀ v ∈ d.sort, v = .missing) →
    rank keys (docsOf shards) d % size ≠ 0 ∧ rank keys (docsOf shards) d ≠ (docsOf shards).length

namespace Walkable

variable {keys : List SortKey} {size : ℕ} {shards : List (List (Segment keys.length))}

theorem shard_docs {shard : List (Segment keys.length)} (mem : shard ∈ shards) :
    ∀ d ∈ shard.flatMap Segment.docs, d ∈ docsOf shards := fun _ hd =>
  List.mem_flatMap.mpr ⟨shard, mem, hd⟩

theorem tame (h : Walkable keys size shards) {shard : List (Segment keys.length)}
    (mem : shard ∈ shards) (i : ℕ) :
    ((shard.map (restFrom keys (docsOf shards) (i * size))).flatten).length ≤ size ∨
      Tame keys size (shard.map (restFrom keys (docsOf shards) (i * size))) := by
  refine (h.found shard mem i).imp_right ?_
  rintro ⟨placed, bar⟩
  refine ⟨ordersOn_sortedBy fun j key place => (ordersOn_plain key).mono ?_, placed, ?_⟩
  · rintro v ⟨present, d, hd, at_⟩
    obtain ⟨docs, hdocs, hd⟩ := List.mem_flatten.mp hd
    obtain ⟨seg, hseg, rfl⟩ := List.mem_map.mp hdocs
    refine ⟨present, h.plain d (shard_docs mem d ?_) j key v place at_⟩
    exact List.mem_flatMap.mpr ⟨seg, hseg, List.mem_of_mem_filter hd⟩
  · intro docs hdocs
    obtain ⟨seg, hseg, rfl⟩ := List.mem_map.mp hdocs
    exact bar seg hseg

theorem page_front (h : Walkable keys size shards) (sel : Selection (Cand keys.length)) (i : ℕ)
    {marker : Option (List Json)} {front : List (Cand keys.length)}
    (ahead : ∀ shard ∈ shards, ∀ seg ∈ shard,
      (SortCollector.ofKeys keys size (searchAfter readDate keys marker)).ahead seg =
        restFrom keys (docsOf shards) (i * size) seg)
    (perm : front.Perm ((docsOf shards).filter fun d => i * size < rank keys (docsOf shards) d))
    (strict : front.Pairwise fun a b => inOrder keys a b = .lt) :
    page readDate keys sel size shards marker = front.take size := by
  have each : ∀ shard ∈ shards, shard.map
      (SortCollector.ofKeys keys size (searchAfter readDate keys marker)).ahead =
        shard.map (restFrom keys (docsOf shards) (i * size)) := fun shard mem =>
    List.map_congr_left (ahead shard mem)
  refine page_eq readDate sel h.some_ h.plain.orders
    (fun d hd => List.mem_of_mem_filter (perm.mem_iff.mp hd)) (perm.trans (List.Perm.of_eq ?_))
    strict fun shard mem => ?_
  · rw [docsOf, List.filter_flatMap]
    refine List.flatMap_congr fun shard mem => ?_
    rw [List.filter_flatMap]
    exact List.flatMap_congr fun seg hseg => (ahead shard mem seg hseg).symm
  · refine collectShard_topK sel h.some_ _ ?_
    rw [List.flatMap_def, each shard mem]
    exact h.tame mem i

theorem filter_after {before after : List (Cand keys.length)} {last : Cand keys.length}
    (orders : OrdersOn (inOrder keys) {d | d ∈ before ++ last :: after})
    (strict : (before ++ last :: after).Pairwise fun a b => inOrder keys a b = .lt) :
    (before ++ last :: after).filter (fun d => inOrder keys d last == .gt) = after ∧
      (before ++ last :: after).countP (fun d => (inOrder keys d last).isLE) =
        before.length + 1 := by
  have own : last ∈ before ++ last :: after := by simp
  obtain ⟨-, tail, cross⟩ := List.pairwise_append.mp strict
  have behind : ∀ d ∈ before, inOrder keys d last = .lt := fun d hd =>
    cross d hd last (List.mem_cons_self ..)
  have ahead : ∀ d ∈ after, inOrder keys d last = .gt := by
    intro d hd
    have lt := (List.pairwise_cons.mp tail).1 d hd
    rw [orders.swap last own d (by simp [hd]), lt]
    rfl
  have self := orders.refl own
  constructor
  · rw [List.filter_append, List.filter_eq_nil_iff.mpr fun d hd => by rw [behind d hd]; decide,
      List.nil_append, List.filter_cons_of_neg (by rw [self]; decide),
      List.filter_eq_self.mpr fun d hd => by rw [ahead d hd]; decide]
  · rw [List.countP_append, List.countP_eq_length.mpr fun d hd => by rw [behind d hd]; rfl,
      List.countP_cons_of_pos (by rw [self]; rfl),
      List.countP_eq_zero.mpr fun d hd => by rw [ahead d hd]; decide]

/-- **The documents not among the first few** are the rest of them in their order. -/
theorem filter_rank {ordered : List (Cand keys.length)}
    (orders : OrdersOn (inOrder keys) {d | d ∈ ordered})
    (strict : ordered.Pairwise fun a b => inOrder keys a b = .lt) (m : ℕ) :
    ordered.filter (fun d => m < rank keys ordered d) = ordered.drop m := by
  have at_ : ∀ (before after : List (Cand keys.length)) (d : Cand keys.length),
      ordered = before ++ d :: after → rank keys ordered d = before.length + 1 := by
    rintro before after d rfl
    exact (filter_after orders strict).2
  have early : (ordered.take m).filter (fun d => m < rank keys ordered d) = [] := by
    refine List.filter_eq_nil_iff.mpr fun d hd => ?_
    obtain ⟨before, after, eq⟩ := List.append_of_mem hd
    have length := congrArg List.length eq
    rw [List.length_take, List.length_append, List.length_cons] at length
    have here := at_ before (after ++ ordered.drop m) d (by
      rw [← List.cons_append, ← List.append_assoc, ← eq, List.take_append_drop])
    rw [here, decide_eq_true_eq]
    omega
  have late : (ordered.drop m).filter (fun d => m < rank keys ordered d) = ordered.drop m := by
    refine List.filter_eq_self.mpr fun d hd => ?_
    obtain ⟨before, after, eq⟩ := List.append_of_mem hd
    have length := congrArg List.length eq
    rw [List.length_drop, List.length_append, List.length_cons] at length
    have here := at_ (ordered.take m ++ before) after d (by
      rw [List.append_assoc, ← eq, List.take_append_drop])
    rw [here, List.length_append, List.length_take, decide_eq_true_eq]
    omega
  calc ordered.filter (fun d => m < rank keys ordered d)
      = (ordered.take m ++ ordered.drop m).filter (fun d => m < rank keys ordered d) := by
        rw [List.take_append_drop]
    _ = ordered.drop m := by rw [List.filter_append, early, late, List.nil_append]

/-- **Every page** is the next of the documents in their order. -/
theorem pages (h : Walkable keys size shards) (sel : Selection (Cand keys.length))
    {ordered : List (Cand keys.length)} (perm : ordered.Perm (docsOf shards))
    (strict : ordered.Pairwise fun a b => inOrder keys a b = .lt) (i : ℕ) :
    pageAt readDate keys sel size shards i = (ordered.drop (i * size)).take size := by
  have inside : ∀ d ∈ ordered, d ∈ docsOf shards := fun d hd => perm.mem_iff.mp hd
  have orders : OrdersOn (inOrder keys) {d | d ∈ ordered} := h.plain.orders.mono inside
  have ranks : rank keys (docsOf shards) = rank keys ordered :=
    funext fun d => (perm.countP_eq _).symm
  have rest : ∀ i, (ordered.drop (i * size)).Perm
      ((docsOf shards).filter fun d => i * size < rank keys (docsOf shards) d) := by
    intro i
    rw [ranks, ← filter_rank orders strict]
    exact perm.filter _
  induction i with
  | zero =>
    rw [pageAt]
    refine h.page_front readDate sel 0 (fun shard hshard seg hseg => ?_) (rest 0)
      (strict.sublist (List.drop_sublist ..))
    have all : (SortCollector.ofKeys keys size (searchAfter readDate keys none)).ahead seg =
        seg.docs := by
      refine List.filter_eq_self.mpr fun d _ => ?_
      cases seg.block <;> rfl
    rw [all]
    refine (List.filter_eq_self.mpr fun d hd => ?_).symm
    have mem := shard_docs hshard d (List.mem_flatMap.mpr ⟨seg, hseg, hd⟩)
    rw [decide_eq_true_eq, Nat.zero_mul]
    refine List.countP_pos_iff.mpr ⟨d, mem, ?_⟩
    rw [h.plain.orders.refl mem]
    rfl
  | succ i ih =>
    rw [pageAt, ih]
    rcases List.eq_nil_or_concat ((ordered.drop (i * size)).take size) with none | ⟨init, last, eq⟩
    · rw [none]
      have beyond : ordered.length ≤ i * size := by
        have length := congrArg List.length none
        rw [List.length_take, List.length_drop, List.length_nil] at length
        have := h.some_
        omega
      rw [Nat.succ_mul, List.drop_eq_nil_of_le (by omega), List.take_nil, List.getLast?_nil]
    · rw [List.concat_eq_append] at eq
      rw [eq, List.getLast?_concat]
      -- the documents before the hit, the hit, and those after it
      have parts : ordered = (ordered.take (i * size) ++ init) ++
          last :: ordered.drop ((i + 1) * size) := by
        have whole : ordered = ordered.take (i * size) ++
            ((ordered.drop (i * size)).take size ++ (ordered.drop (i * size)).drop size) := by
          rw [List.take_append_drop, List.take_append_drop]
        rw [eq, List.drop_drop, ← Nat.succ_mul] at whole
        simpa using whole
      have own : last ∈ ordered := by
        rw [parts]
        simp
      have mem : last ∈ docsOf shards := inside last own
      obtain ⟨after, at_⟩ := filter_after (parts ▸ orders) (parts ▸ strict)
      rw [← parts] at after at_
      have some_ : ∃ v ∈ last.sort, v ≠ .missing := by
        by_contra none
        have all : ∀ v ∈ last.sort, v = .missing := fun v hv => by
          by_contra present
          exact none ⟨v, hv, present⟩
        have ends := h.ends last mem all
        rw [ranks, rank, ← perm.length_eq, at_] at ends
        -- the page is full, or it is the last one
        have length := congrArg List.length eq
        rw [List.length_take, List.length_drop, List.length_append, List.length_singleton] at length
        rw [List.length_append, List.length_take] at ends
        by_cases full : size ≤ ordered.length - i * size
        · have count : min (i * size) ordered.length + init.length + 1 = (i + 1) * size := by
            rw [Nat.succ_mul]
            omega
          rw [count, Nat.mul_mod_left] at ends
          exact ends.1 rfl
        · exact ends.2 (by omega)
      refine h.page_front readDate sel (i + 1) (fun shard hshard seg hseg => ?_) (rest (i + 1))
        (strict.sublist (List.drop_sublist ..))
      have docs : ∀ d ∈ seg.docs, d ∈ docsOf shards := fun d hd =>
        shard_docs hshard d (List.mem_flatMap.mpr ⟨seg, hseg, hd⟩)
      rw [ahead_hit readDate h.plain mem some_ size docs]
      refine List.filter_congr fun d hd => ?_
      have hd : d ∈ ordered := perm.mem_iff.mpr (docs d hd)
      have both := after.trans (filter_rank orders strict ((i + 1) * size)).symm
      have iff : (d ∈ ordered.filter fun d => inOrder keys d last == .gt) ↔
          d ∈ ordered.filter fun d => (i + 1) * size < rank keys ordered d := by rw [both]
      rw [List.mem_filter, List.mem_filter, and_iff_right hd, and_iff_right hd] at iff
      rw [ranks]
      exact Bool.eq_iff_iff.mpr iff

end Walkable

def oneSegment (values : List SortValue) : List (List (Segment 1)) :=
  [[.plain (values.mapIdx oneValue)]]

end Velosearch.Search

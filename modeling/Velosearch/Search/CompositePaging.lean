import Velosearch.Search.Composite
import Velosearch.Store.Resolve

/-!
# A composite page by page

What a caller gets who asks for one page after another, each with the `after_key` of the one
before. The order of the buckets is the one their keys have, by name and by what their numbers are;
the code's own goes by pointers and by doubles.
-/

set_option autoImplicit false

namespace Velosearch.Composite

open DateText (Run)
open DateText.Run
open Lib

/-! ## What there should be -/

/-- A value without rounding. -/
def exactly : KeyValue → ℚ
  | .int n => n
  | .float q => q
  | _ => 0

/-- The order of keys without rounding. -/
def keyOrder (sources : List CompSource) (a b : Key) : Ordering :=
  match sources with
  | [] => .eq
  | source :: rest =>
    (sourceOrder exactly source (a.lookup source.name) (b.lookup source.name)).then
      (keyOrder rest a b)

/-- One bucket comes before another. -/
def KeyBefore {R : Type} (sources : List CompSource) (a b : Bucket R) : Prop :=
  keyOrder sources a.key b.key = .lt

/-- The buckets of a search, each key once. -/
structure Buckets (sources : List CompSource) (R : Type) where
  all : List (Bucket R)
  named : ∀ b ∈ all, b.key.map Prod.fst = sources.map CompSource.name
  distinct : all.Pairwise fun a b => keyOrder sources a.key b.key ≠ .eq

/-- A key that is printed as JSON and sent back: `double` is what becomes of a double. -/
def carried (double : ℚ → ℚ) (key : Key) : Key :=
  key.map fun x => (x.1, match x.2 with
    | .float q => .float (double q)
    | v => v)

section

variable (parseDatetime : List Char → Option OffsetDateTime) (nowUtc : OffsetDateTime)
  (double : ℚ → ℚ) {sources : List CompSource} {R : Type} (buckets : Buckets sources R) (size : ℕ)

/-- The pages from an `after` on, down to an empty one. -/
inductive Follow : Option Key → List (List (Bucket R)) → Prop
  | done {after : Option Key} :
      (page parseDatetime nowUtc sources size buckets.all after).found? = some [] →
      Follow after []
  | turn {after : Option Key} {bs : List (Bucket R)} {key : Key} {ps : List (List (Bucket R))} :
      (page parseDatetime nowUtc sources size buckets.all after).found? = some bs →
      afterKey sources bs = some key → Follow (some (carried double key)) ps →
      Follow after (bs :: ps)

/-- Following the markers visits them all, each once. -/
def Complete : Prop :=
  ∃ ps, Follow parseDatetime nowUtc double buckets size none ps ∧
    ps.flatten = sorted sources buckets.all ∧ ps.flatten.Pairwise (KeyBefore sources)

/-! ## The condition -/

/-- The marker of a page's last bucket. -/
def marker (sources : List CompSource) (b : Bucket R) : Option Key :=
  (readMarker parseDatetime nowUtc sources (carried double (written sources b.key))).found?

/-- The request is taken; there are pages; the buckets are in order where they are sorted by pointers and doubles; and at
the end of each page the marker is not before its own bucket, and before the next. -/
structure ReadsBack : Prop where
  taken : refusal sources size = none
  some_ : buckets.all ≠ [] → 0 < size
  order : buckets.all.Pairwise fun a b =>
    if (compositeKeyOrder sources a.key b.key).isLE = true then KeyBefore sources a b
    else KeyBefore sources b a
  markers : ∀ i, Pages.PageEnd size (sorted sources buckets.all) i →
    Pages.Divides (comesAfter sources) (sorted sources buckets.all)
      (marker parseDatetime nowUtc double sources) i

end

/-! ## The order -/

theorem ordersOn_swapped {α : Type} {cmp : α → α → Ordering} {s : Set α} (h : OrdersOn cmp s) :
    OrdersOn (fun a b => (cmp a b).swap) s where
  swap a ha b hb := by rw [h.swap a ha b hb]
  trans a ha b hb c hc ab bc := by
    rw [← h.swap a ha b hb] at ab
    rw [← h.swap b hb c hc] at bc
    rw [← h.swap a ha c hc]
    exact h.trans c hc b hb a ha bc ab

/-- Where a kind of value comes. -/
def rank : KeyValue → ℕ
  | .text _ => 0
  | _ => 1

/-- The text of a value. -/
def textOf : KeyValue → List Char
  | .text s => s
  | _ => []

/-- Its number. -/
def worthOf (worth : KeyValue → ℚ) : KeyValue → ℚ
  | .text _ => 0
  | v => worth v

theorem ordersOn_compareValues (worth : KeyValue → ℚ) :
    OrdersOn (compareValues worth) Set.univ := by
  have ranks := (ordersOn_compare (Set.univ : Set ℕ)).comap (f := rank)
  have texts := (ordersOn_compare (Set.univ : Set (List Char))).comap (f := textOf)
  have numbers := (ordersOn_compare (Set.univ : Set ℚ)).comap (f := worthOf worth)
  refine (ranks.lex (texts.lex numbers)).congr fun a _ b _ => ?_
  cases a with
  | text s =>
    cases b with
    | text t =>
      show compare s t = (compare s t).then (compare (0 : ℚ) 0)
      have hsame : compare (0 : ℚ) 0 = .eq := compare_eq_iff_eq.mpr rfl
      rw [hsame, Ordering.then_eq]
    | _ => rfl
  | _ => cases b <;> rfl

/-- Where a missing value comes. -/
def missingRank (source : CompSource) (v : Option KeyValue) : ℕ :=
  if missing v then if source.missingLast then 2 else 0 else 1

theorem compareValues_null (worth : KeyValue → ℚ) : compareValues worth .null .null = .eq :=
  compare_eq_iff_eq.mpr rfl

theorem then_getD {source : CompSource} (order : KeyValue → KeyValue → Ordering)
    (null : order .null .null = .eq) (x y : Option KeyValue) :
    (missingOrder source (missing x) (missing y)).then
        (match x, y with
          | some m, some n => order m n
          | _, _ => .eq) =
      (compare (missingRank source x) (missingRank source y)).then
        (order (x.getD .null) (y.getD .null)) := by
  have apart : missingOrder source (missing x) (missing y) =
      compare (missingRank source x) (missingRank source y) := by
    unfold missingRank missingOrder
    cases missing x <;> cases missing y <;> cases source.missingLast <;> rfl
  rw [apart]
  cases x with
  | some m =>
    cases y with
    | some n => rfl
    | none =>
      cases m with
      | null => exact congrArg _ null.symm
      | _ => unfold missingRank missing; cases source.missingLast <;> rfl
  | none =>
    cases y with
    | none => exact congrArg _ null.symm
    | some n =>
      cases n with
      | null => exact congrArg _ null.symm
      | _ => unfold missingRank missing; cases source.missingLast <;> rfl

theorem ordersOn_sourceOrder (worth : KeyValue → ℚ) (source : CompSource) :
    OrdersOn (sourceOrder worth source) Set.univ := by
  have values := (ordersOn_compareValues worth).comap (f := fun v : Option KeyValue => v.getD .null)
  have ranks := (ordersOn_compare (Set.univ : Set ℕ)).comap (f := missingRank source)
  have null := compareValues_null worth
  unfold sourceOrder
  cases hdesc : source.desc with
  | true =>
    refine (ranks.lex (ordersOn_swapped values)).congr fun x _ y _ => ?_
    exact then_getD (fun m n => (compareValues worth m n).swap) (by simp [null]) x y
  | false =>
    refine (ranks.lex values).congr fun x _ y _ => ?_
    exact then_getD (compareValues worth) null x y

theorem ordersOn_compositeKeyOrder (sources : List CompSource) :
    OrdersOn (compositeKeyOrder sources) Set.univ := by
  induction sources with
  | nil => exact ⟨fun _ _ _ _ => rfl, fun _ _ _ _ _ _ _ _ => rfl⟩
  | cons source rest ih =>
    exact ((ordersOn_sourceOrder asF64 source).comap (f := fun a => pointed a source.name)).lex ih

theorem ordersOn_keyOrder (sources : List CompSource) :
    OrdersOn (keyOrder sources) Set.univ := by
  induction sources with
  | nil => exact ⟨fun _ _ _ _ => rfl, fun _ _ _ _ _ _ _ _ => rfl⟩
  | cons source rest ih =>
    exact ((ordersOn_sourceOrder exactly source).comap
      (f := fun a => a.lookup source.name)).lex ih

/-! ## The pages -/

section

variable {parseDatetime : List Char → Option OffsetDateTime} {nowUtc : OffsetDateTime}
  {double : ℚ → ℚ} {sources : List CompSource} {R : Type} {buckets : Buckets sources R} {size : ℕ}

theorem ordersOn_buckets (sources : List CompSource) (s : Set (Bucket R)) :
    OrdersOn (fun a b : Bucket R => compositeKeyOrder sources a.key b.key) s :=
  ((ordersOn_compositeKeyOrder sources).comap (f := Bucket.key)).mono fun _ _ => trivial

theorem nodup_sorted (buckets : Buckets sources R) : (sorted sources buckets.all).Nodup := by
  refine (sortBy_perm _ _).nodup_iff.mpr (buckets.distinct.imp ?_)
  intro a b hne heq
  subst heq
  exact hne ((ordersOn_keyOrder sources).refl trivial)

theorem comesAfter_upward (sources : List CompSource) (flat : List (Bucket R)) (m : Key) :
    (sorted sources flat).Pairwise fun a b => comesAfter sources m a → comesAfter sources m b := by
  refine (sortBy_sorted (ordersOn_buckets sources _)).imp fun {a b} hle ha => ?_
  have orders := ordersOn_compositeKeyOrder sources
  unfold comesAfter at ha ⊢
  rw [beq_iff_eq] at ha ⊢
  cases hb : compositeKeyOrder sources b.key m with
  | gt => rfl
  | _ =>
    have htrans := orders.trans a.key trivial b.key trivial m trivial hle (by rw [hb]; rfl)
    rw [ha] at htrans
    cases htrans

/-- A page that is answered is a page of a request that is taken. -/
theorem taken_of_found {after : Option Key} {bs : List (Bucket R)}
    (h : (page parseDatetime nowUtc sources size buckets.all after).found? = some bs) :
    refusal sources size = none := by
  unfold page at h
  split at h
  · rw [found?_ofOption] at h
    cases h
  case isFalse free => exact Option.not_isSome_iff_eq_none.mp free

theorem taken_of_follow {after : Option Key} {ps : List (List (Bucket R))}
    (follow : Follow parseDatetime nowUtc double buckets size after ps) :
    refusal sources size = none := by
  cases follow with
  | done h => exact taken_of_found h
  | turn h _ _ => exact taken_of_found h

theorem found_page_none (taken : refusal sources size = none) :
    (page parseDatetime nowUtc sources size buckets.all none).found? =
      some (Pages.page (comesAfter sources) size (sorted sources buckets.all) none) := by
  unfold page
  rw [taken]
  rfl

theorem found_page_some (taken : refusal sources size = none) (after : Key) :
    (page parseDatetime nowUtc sources size buckets.all (some after)).found? =
      (readMarker parseDatetime nowUtc sources after).found?.map fun m =>
        Pages.page (comesAfter sources) size (sorted sources buckets.all) (some m) := by
  unfold page
  rw [taken]
  show (readMarker parseDatetime nowUtc sources after >>= _).found? = _
  rw [found?_bind]
  cases (readMarker parseDatetime nowUtc sources after).found? <;> rfl

theorem afterKey_eq_some {bs : List (Bucket R)} {key : Key} :
    afterKey sources bs = some key ↔
      ∃ last, bs.getLast? = some last ∧ written sources last.key = key :=
  Option.map_eq_some_iff

theorem marker_of_follow {last : Bucket R} {ps : List (List (Bucket R))}
    (follow : Follow parseDatetime nowUtc double buckets size
      (some (carried double (written sources last.key))) ps) :
    ∃ m, marker parseDatetime nowUtc double sources last = some m := by
  have hfound : ∃ bs, (page parseDatetime nowUtc sources size buckets.all
      (some (carried double (written sources last.key)))).found? = some bs := by
    cases follow with
    | done h => exact ⟨_, h⟩
    | turn h _ _ => exact ⟨_, h⟩
  obtain ⟨bs, h⟩ := hfound
  rw [found_page_some (taken_of_found h)] at h
  obtain ⟨m, hm, _⟩ := Option.map_eq_some_iff.mp h
  exact ⟨m, hm⟩

theorem walk_of_follow {after : Option Key} {ps : List (List (Bucket R))}
    (follow : Follow parseDatetime nowUtc double buckets size after ps) :
    ∀ m, (page parseDatetime nowUtc sources size buckets.all after).found? =
        some (Pages.page (comesAfter sources) size (sorted sources buckets.all) m) →
      Pages.Walk (comesAfter sources) size (sorted sources buckets.all)
        (marker parseDatetime nowUtc double sources) m ps := by
  induction follow with
  | done h =>
    intro m hpage
    exact .done (Option.some.inj (hpage.symm.trans h))
  | turn h hkey rest ih =>
    intro m hpage
    obtain rfl := Option.some.inj (hpage.symm.trans h)
    obtain ⟨last, hlast, rfl⟩ := afterKey_eq_some.mp hkey
    obtain ⟨m', hm'⟩ := marker_of_follow rest
    refine .turn hlast hm' (ih (some m') ?_)
    rw [found_page_some (taken_of_follow rest)]
    unfold marker at hm'
    rw [hm']
    rfl

theorem follow_of_walk (taken : refusal sources size = none) {m : Option Key} {ps : List (List (Bucket R))}
    (walk : Pages.Walk (comesAfter sources) size (sorted sources buckets.all)
      (marker parseDatetime nowUtc double sources) m ps) :
    ∀ after, (page parseDatetime nowUtc sources size buckets.all after).found? =
        some (Pages.page (comesAfter sources) size (sorted sources buckets.all) m) →
      Follow parseDatetime nowUtc double buckets size after ps := by
  induction walk with
  | done h =>
    intro after hpage
    rw [h] at hpage
    exact .done hpage
  | @turn m m' last ps hlast hmark rest ih =>
    intro after hpage
    refine .turn hpage (afterKey_eq_some.mpr ⟨last, hlast, rfl⟩) (ih _ ?_)
    rw [found_page_some taken]
    unfold marker at hmark
    rw [hmark]
    rfl

def slashed : List CompSource := [⟨"a/b".toList, false, none, false, 0, false⟩]

def xAndY : Buckets slashed Unit where
  all := ["x".toList, "y".toList].map fun s => ⟨[("a/b".toList, .text s)], ()⟩
  named := by decide
  distinct := by decide

end

end Velosearch.Composite

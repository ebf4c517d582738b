import Mathlib.Data.List.DropRight
import Mathlib.Data.List.TakeWhile
import Velosearch.Lib.Text
import Velosearch.Store.Names

/-!
# What an expression names

`Store::resolve`, the resolvers of the search planner and of the forwarder, and `cluster_resolve`
each read an index expression for themselves. Here they are read over one state, in which the
store holds what the cluster published.
-/

namespace Velosearch
namespace Store
namespace Resolve

open Text (trim)

/-- A name. -/
abbrev Name := List Char

instance instLawfulName : LawfulBEq Name := inferInstance

/-- The indices, each with its aliases, and the data streams. -/
structure State where
  indices : List (Name × List Name)
  streams : List Name

namespace State

/-- The indices. -/
def names (s : State) : List Name :=
  s.indices.map Prod.fst

/-- `indices_for_alias`; the published aliases are the same ones. -/
def indicesForAlias (s : State) (a : Name) : List Name :=
  (s.indices.filter fun i => i.2.contains a).map Prod.fst

/-- The indices behind a stream. -/
def backingIndices (s : State) (stream : Name) : List Name :=
  if stream ∈ s.streams then
    s.names.filter fun n => ('.' :: 'd' :: 's' :: '-' :: (stream ++ ['-'])).isPrefixOf n
  else []

end State

/-! ## The store's resolver -/

section

-- `resolve_date_math_name`, at the moment of the request
variable (date : Name → Name)

/-- Date math in a name. -/
def dated (part : Name) : Name :=
  if part.head? = some '<' then date part else part

/-- `Store::get`: a name, the name a date stands for, or the first index of an alias. -/
def get (s : State) : ℕ → Name → Option Name
  | 0, _ => none
  | layers + 1, name =>
    if name ∈ s.names then some name
    else if name.head? = some '<' ∧ date name ≠ name then get s layers (date name)
    else (s.indicesForAlias name).head?

/-- What a part stands for to the store. -/
def storePart (s : State) (part : Name) : List Name :=
  let part := dated date part
  if '*' ∈ part then
    let streams := (s.streams.filter (wildcardMatch part)).flatMap s.backingIndices
    (s.indices.filter fun i =>
      wildcardMatch part i.1 || i.2.any (wildcardMatch part) || streams.contains i.1).map Prod.fst
  else if part ∈ s.names then [part]
  else if s.backingIndices part ≠ [] then s.backingIndices part
  else if s.indicesForAlias part ≠ [] then s.indicesForAlias part
  else (get date s part.length part).toList

/-- The parts of an expression. -/
def parts (expr : Name) : List Name :=
  (expr.splitOn ',').map trim

/-- Names that are not there yet. -/
def push (out names : List Name) : List Name :=
  names.foldl (fun out n => if n ∈ out then out else out ++ [n]) out

/-- `_all`. -/
def all : Name := "_all".toList

/-- `Store::resolve`. -/
def storeResolve (s : State) (expr : Name) : List Name :=
  if expr = [] ∨ expr = all ∨ expr = ['*'] then s.names
  else (parts expr).foldl (fun out part => push out (storePart date s part)) []

/-! ## The planner's and the forwarder's -/

/-- What a part stands for to a search. -/
def partNames (s : State) (p : Name) : List Name :=
  if p = all ∨ p = ['*'] then s.names
  else if '*' ∈ p then s.names.filter (globMatch p)
  else if p ∈ s.names then [p]
  else if s.indicesForAlias p = [] then storeResolve date s p
  else s.indicesForAlias p

/-- `trim_start_matches('-')` -/
def unsigned (part : Name) : Name :=
  part.dropWhile (· == '-')

/-- One part of an expression. -/
def walk (s : State) (out : List Name) (part : Name) : List Name :=
  let names := partNames date s (unsigned part)
  if part.head? = some '-' then out.filter fun n => !names.contains n
  else push out names

/-- All of them. -/
def walkAll (s : State) (expr : Name) : List Name :=
  ((parts expr).filter (! ·.isEmpty)).foldl (walk date s) []

/-- `resolve` of the search planner -/
def searchResolve (s : State) (expr : Name) : List Name :=
  walkAll date s (if expr = [] then all else expr)

/-- `resolve` of the forwarder -/
def forwardResolve (s : State) (expr : Name) : List Name :=
  walkAll date s expr

/-! ## The cluster's -/

/-- A name matches. -/
def matchesPattern (pattern name : Name) : Bool :=
  if pattern = all ∨ pattern = ['*'] then true
  else if '*' ∉ pattern ∧ '?' ∉ pattern then pattern == name
  else wildcardMatch pattern name

/-- One part of `cluster_resolve`, after the store's own answer. -/
def clusterPart (s : State) (names : List Name) (part : Name) : List Name :=
  if part.head? = some '-' then
    names.filter fun n => !matchesPattern (unsigned part) n
  else push names ((s.indices.filter fun i =>
    matchesPattern part i.1 || i.2.any (matchesPattern part)).map Prod.fst)

/-- `cluster_resolve`, which then sorts. -/
def clusterResolve (s : State) (expr : Name) : List Name :=
  ((parts expr).filter (! ·.isEmpty)).foldl (clusterPart s) (storeResolve date s expr)

/-! ## One set of indices -/

/-- Both resolve an expression alike. -/
def Agree (s : State) (expr : Name) : Prop :=
  ∀ n, (n ∈ searchResolve date s expr ↔ n ∈ storeResolve date s expr) ∧
    (n ∈ forwardResolve date s expr ↔ n ∈ storeResolve date s expr) ∧
    (n ∈ clusterResolve date s expr ↔ n ∈ storeResolve date s expr)

/-- What no name has in it. -/
def forbidden : List Char :=
  [' ', '"', '*', '\\', '<', '|', ',', '>', '/', '?']

/-- Index names as they may be, and no name that is two things. -/
structure Sound (s : State) : Prop where
  index : ∀ n ∈ s.names, n ≠ [] ∧ ∀ c ∈ n, c ∉ forbidden
  alias_ : ∀ i ∈ s.indices, ∀ a ∈ i.2, a ≠ [] ∧ a ∉ s.names ∧ a ∉ s.streams
  stream : ∀ t ∈ s.streams, t ≠ [] ∧ t ∉ s.names

/-- A part that is a name. -/
def Plain (part : Name) : Prop :=
  part = [] ∨ ('*' ∉ part ∧ '?' ∉ part ∧ part.head? ≠ some '-' ∧ part ≠ all ∧
    dated date part = part)

/-- The condition on an expression: everything, or names. -/
def Simple (expr : Name) : Prop :=
  expr = all ∨ expr = ['*'] ∨ (expr ≠ [] ∧ ∀ part ∈ parts expr, Plain date part)

/-- No part is date math. -/
def Dateless (expr : Name) : Prop :=
  ∀ part ∈ parts expr, dated date part = part ∧
    dated date (trim (unsigned part)) = trim (unsigned part)

variable {date : Name → Name} {s : State} {expr part n : Name}

/-! ## Parts -/

theorem mem_push {out names : List Name} : n ∈ push out names ↔ n ∈ out ∨ n ∈ names := by
  unfold push
  induction names generalizing out with
  | nil => simp
  | cons m names ih =>
    rw [List.foldl_cons, ih, List.mem_cons]
    split
    case isTrue mem =>
      constructor
      · rintro (old | new)
        · exact .inl old
        · exact .inr (.inr new)
      · rintro (old | rfl | new)
        · exact .inl old
        · exact .inl mem
        · exact .inr new
    case isFalse =>
      rw [List.mem_append, List.mem_singleton, or_assoc]

theorem splitOn_part {sep : Char} {text part : Name} (h : part ∈ text.splitOn sep) :
    part.length ≤ text.length ∧ sep ∉ part := by
  induction text generalizing part with
  | nil =>
    rw [List.splitOn_nil, List.mem_singleton] at h
    subst h
    exact ⟨le_refl _, List.not_mem_nil⟩
  | cons c text ih =>
    rw [List.splitOn_cons_eq_if_modifyHead] at h
    split at h
    case isTrue =>
      rcases List.mem_cons.mp h with rfl | mem
      · exact ⟨Nat.zero_le _, List.not_mem_nil⟩
      · exact ⟨(ih mem).1.trans (Nat.le_succ _), (ih mem).2⟩
    case isFalse other =>
      cases split : text.splitOn sep with
      | nil => exact absurd split (List.splitOn_ne_nil _ _)
      | cons first rest =>
        rw [split, List.modifyHead_cons] at h
        rcases List.mem_cons.mp h with rfl | mem
        · obtain ⟨short, free⟩ := ih (split ▸ List.mem_cons_self)
          refine ⟨Nat.succ_le_succ short, fun mem => ?_⟩
          rcases List.mem_cons.mp mem with rfl | inside
          · simp at other
          · exact free inside
        · obtain ⟨short, free⟩ := ih (split ▸ List.mem_cons_of_mem _ mem)
          exact ⟨short.trans (Nat.le_succ _), free⟩

theorem splitOn_free {sep : Char} {text : Name} (free : sep ∉ text) : text.splitOn sep = [text] := by
  induction text with
  | nil => rfl
  | cons c text ih =>
    rw [List.splitOn_cons_eq_if_modifyHead, ih fun mem => free (List.mem_cons_of_mem _ mem)]
    have other : c ≠ sep := fun same => free (same ▸ List.mem_cons_self)
    simp [other]

theorem trim_sublist (text : Name) : (trim text).Sublist text := by
  unfold trim
  refine List.reverse_sublist.mp ?_
  rw [List.reverse_reverse]
  exact (List.dropWhile_sublist _).trans (List.reverse_sublist.mpr (List.dropWhile_sublist _))

theorem trim_trim (text : Name) : trim (trim text) = trim text := by
  have stays : (trim text).dropWhile Text.isWhiteSpace = trim text := by
    refine List.dropWhile_eq_self_iff.mpr fun long => ?_
    -- what is left begins where the text begins once its own front is trimmed
    have front : trim text <+: text.dropWhile Text.isWhiteSpace := by
      unfold trim
      refine List.reverse_suffix.mp ?_
      rw [List.reverse_reverse]
      exact List.dropWhile_suffix _
    rw [List.IsPrefix.getElem front long]
    have := List.dropWhile_get_zero_not Text.isWhiteSpace text
      (long.trans_le front.length_le)
    simpa using this
  show (((trim text).dropWhile _).reverse.dropWhile _).reverse = trim text
  rw [stays]
  unfold trim
  rw [List.reverse_reverse, List.dropWhile_idempotent]

theorem mem_parts (h : part ∈ parts expr) :
    part.length ≤ expr.length ∧ ',' ∉ part ∧ trim part = part := by
  obtain ⟨raw, mem, rfl⟩ := List.mem_map.mp h
  obtain ⟨short, free⟩ := splitOn_part mem
  have sub := trim_sublist raw
  exact ⟨sub.length_le.trans short, fun inside => free (sub.subset inside), trim_trim raw⟩

theorem parts_single (free : ',' ∉ part) : parts part = [trim part] := by
  rw [parts, splitOn_free free]
  rfl

/-! ## What the walks reach -/

theorem mem_foldl_push {α : Type} (f : α → List Name) {l : List α} {out : List Name} :
    n ∈ l.foldl (fun out x => push out (f x)) out ↔ n ∈ out ∨ ∃ x ∈ l, n ∈ f x := by
  induction l generalizing out with
  | nil => simp
  | cons x l ih =>
    rw [List.foldl_cons, ih, mem_push, or_assoc]
    simp only [List.mem_cons, exists_eq_or_imp]

theorem mem_storeResolve (some_ : ¬ (expr = [] ∨ expr = all ∨ expr = ['*'])) :
    n ∈ storeResolve date s expr ↔ ∃ part ∈ parts expr, n ∈ storePart date s part := by
  rw [storeResolve, if_neg some_, mem_foldl_push]
  simp

theorem storeResolve_part (free : ',' ∉ part) (some_ : ¬ (part = [] ∨ part = all ∨ part = ['*'])) :
    n ∈ storeResolve date s part ↔ n ∈ storePart date s (trim part) := by
  rw [mem_storeResolve some_, parts_single free]
  simp

theorem unsigned_of_positive (h : part.head? ≠ some '-') : unsigned part = part := by
  cases part with
  | nil => rfl
  | cons c rest =>
    have other : c ≠ '-' := fun same => h (by rw [same]; rfl)
    simp [unsigned, other]

theorem mem_walk {l out : List Name} (positive : ∀ part ∈ l, part.head? ≠ some '-') :
    n ∈ l.foldl (walk date s) out ↔ n ∈ out ∨ ∃ part ∈ l, n ∈ partNames date s part := by
  induction l generalizing out with
  | nil => simp
  | cons part l ih =>
    have here := positive part List.mem_cons_self
    have step : walk date s out part = push out (partNames date s part) := by
      rw [walk, if_neg here, unsigned_of_positive here]
    rw [List.foldl_cons, ih fun part mem => positive part (List.mem_cons_of_mem _ mem), step,
      mem_push, or_assoc]
    simp only [List.mem_cons, exists_eq_or_imp]

/-- A name an index goes by matches. -/
def Matched (s : State) (part n : Name) : Prop :=
  ∃ i ∈ s.indices, i.1 = n ∧
    (matchesPattern part n = true ∨ ∃ a ∈ i.2, matchesPattern part a = true)

theorem mem_clusterWalk {l out : List Name} (positive : ∀ part ∈ l, part.head? ≠ some '-') :
    n ∈ l.foldl (clusterPart s) out ↔ n ∈ out ∨ ∃ part ∈ l, Matched s part n := by
  induction l generalizing out with
  | nil => simp
  | cons part l ih =>
    have step : n ∈ clusterPart s out part ↔ n ∈ out ∨ Matched s part n := by
      rw [clusterPart, if_neg (positive part List.mem_cons_self), mem_push]
      refine or_congr_right ?_
      simp only [List.mem_map, List.mem_filter, Bool.or_eq_true, List.any_eq_true]
      constructor
      · rintro ⟨i, ⟨mem, found⟩, rfl⟩
        exact ⟨i, mem, rfl, found⟩
      · rintro ⟨i, mem, rfl, found⟩
        exact ⟨i, ⟨mem, found⟩, rfl⟩
    rw [List.foldl_cons, ih fun part mem => positive part (List.mem_cons_of_mem _ mem), step,
      or_assoc]
    simp only [List.mem_cons, exists_eq_or_imp]

/-! ## Names and nothing else -/

theorem mem_indicesForAlias {a : Name} :
    n ∈ s.indicesForAlias a ↔ ∃ i ∈ s.indices, i.1 = n ∧ a ∈ i.2 := by
  simp only [State.indicesForAlias, List.mem_map, List.mem_filter, List.contains_iff_mem]
  constructor
  · rintro ⟨i, ⟨mem, has⟩, same⟩
    exact ⟨i, mem, same, has⟩
  · rintro ⟨i, mem, same, has⟩
    exact ⟨i, ⟨mem, has⟩, same⟩

theorem alias_alone (sound : Sound s) {a : Name} (h : s.indicesForAlias a ≠ []) :
    a ≠ [] ∧ a ∉ s.names ∧ s.backingIndices a = [] := by
  obtain ⟨n, mem⟩ := List.exists_mem_of_ne_nil _ h
  obtain ⟨i, mem, -, has⟩ := mem_indicesForAlias.mp mem
  obtain ⟨some_, notName, notStream⟩ := sound.alias_ i mem a has
  exact ⟨some_, notName, by rw [State.backingIndices, if_neg notStream]⟩

theorem storePart_name (still : dated date part = part) (star : '*' ∉ part)
    (name : part ∈ s.names) : storePart date s part = [part] := by
  simp [storePart, still, star, name]

theorem storePart_alias (sound : Sound s) (still : dated date part = part) (star : '*' ∉ part)
    (some_ : s.indicesForAlias part ≠ []) :
    storePart date s part = s.indicesForAlias part := by
  obtain ⟨-, notName, notStream⟩ := alias_alone sound some_
  simp [storePart, still, star, notName, notStream, some_]

theorem storePart_nil (sound : Sound s) : storePart date s [] = [] := by
  have noName : ([] : Name) ∉ s.names := fun mem => (sound.index _ mem).1 rfl
  have noStream : s.backingIndices [] = [] := by
    rw [State.backingIndices, if_neg fun mem => (sound.stream _ mem).1 rfl]
  have noAlias : s.indicesForAlias [] = [] := by
    by_contra some_
    exact (alias_alone sound some_).1 rfl
  simp [storePart, dated, noName, noStream, noAlias, get]

theorem partNames_plain (sound : Sound s) (trimmed : trim part = part) (free : ',' ∉ part)
    (some_ : part ≠ []) (plain : Plain date part) :
    n ∈ partNames date s part ↔ n ∈ storePart date s part := by
  obtain ⟨star, -, -, notAll, still⟩ := plain.resolve_left some_
  have notStar : part ≠ ['*'] := fun same => star (same ▸ List.mem_cons_self)
  have special : ¬ (part = all ∨ part = ['*']) := fun h => h.elim notAll notStar
  rw [partNames, if_neg special, if_neg star]
  have whole : ¬ (part = [] ∨ part = all ∨ part = ['*']) := fun h => h.elim some_ special
  by_cases name : part ∈ s.names
  · rw [if_pos name, storePart_name still star name]
  · rw [if_neg name]
    by_cases none : s.indicesForAlias part = []
    · rw [if_pos none, storeResolve_part free whole, trimmed]
    · rw [if_neg none, storePart_alias sound still star none]

theorem storePart_of_matched (sound : Sound s) (some_ : part ≠ []) (plain : Plain date part)
    (h : Matched s part n) : n ∈ storePart date s part := by
  obtain ⟨star, mark, -, notAll, still⟩ := plain.resolve_left some_
  have notStar : part ≠ ['*'] := fun same => star (same ▸ List.mem_cons_self)
  have same : ∀ m, matchesPattern part m = true ↔ part = m := by
    intro m
    rw [matchesPattern, if_neg fun h => h.elim notAll notStar, if_pos ⟨star, mark⟩, beq_iff_eq]
  obtain ⟨i, mem, rfl, byName | ⟨a, has, byAlias⟩⟩ := h
  · have here := (same i.1).mp byName
    have name : part ∈ s.names := here ▸ List.mem_map_of_mem mem
    rw [storePart_name still star name, List.mem_singleton, here]
  · obtain rfl := (same a).mp byAlias
    have here : i.1 ∈ s.indicesForAlias part := mem_indicesForAlias.mpr ⟨i, mem, rfl, has⟩
    rwa [storePart_alias sound still star (List.ne_nil_of_mem here)]

section Plain

variable (sound : Sound s) (plain : ∀ part ∈ parts expr, Plain date part)

include plain in
theorem positive_of_plain :
    ∀ part ∈ (parts expr).filter (! ·.isEmpty), part.head? ≠ some '-' := by
  intro part mem
  obtain ⟨mem, full⟩ := List.mem_filter.mp mem
  exact ((plain part mem).resolve_left (by simpa using full)).2.2.1

include sound plain

theorem mem_walkAll_plain :
    n ∈ walkAll date s expr ↔ ∃ part ∈ parts expr, n ∈ storePart date s part := by
  rw [walkAll, mem_walk (positive_of_plain plain)]
  constructor
  · rintro (none | ⟨part, mem, here⟩)
    · cases none
    · obtain ⟨mem, full⟩ := List.mem_filter.mp mem
      obtain ⟨-, free, trimmed⟩ := mem_parts mem
      have some_ : part ≠ [] := by simpa using full
      exact ⟨part, mem, (partNames_plain sound trimmed free some_ (plain part mem)).mp here⟩
  · rintro ⟨part, mem, here⟩
    have some_ : part ≠ [] := by
      rintro rfl
      rw [storePart_nil sound] at here
      cases here
    obtain ⟨-, free, trimmed⟩ := mem_parts mem
    exact .inr ⟨part, List.mem_filter.mpr ⟨mem, by simpa using some_⟩,
      (partNames_plain sound trimmed free some_ (plain part mem)).mpr here⟩

theorem mem_clusterResolve_plain (special : ¬ (expr = [] ∨ expr = all ∨ expr = ['*'])) :
    n ∈ clusterResolve date s expr ↔ ∃ part ∈ parts expr, n ∈ storePart date s part := by
  rw [clusterResolve, mem_clusterWalk (positive_of_plain plain), mem_storeResolve special]
  constructor
  · rintro (stored | ⟨part, mem, here⟩)
    · exact stored
    · obtain ⟨mem, full⟩ := List.mem_filter.mp mem
      have some_ : part ≠ [] := by simpa using full
      exact ⟨part, mem, storePart_of_matched sound some_ (plain part mem) here⟩
  · exact fun stored => .inl stored

end Plain

theorem agree_of_everything (h : expr = all ∨ expr = ['*']) : Agree date s expr := by
  have some_ : expr ≠ [] := by
    rcases h with rfl | rfl <;> decide
  have single : (parts expr).filter (! ·.isEmpty) = [expr] := by
    rcases h with rfl | rfl <;> decide +kernel
  have positive : ∀ part ∈ [expr], part.head? ≠ some '-' := by
    intro part mem
    rw [List.mem_singleton] at mem
    rcases h with rfl | rfl
    all_goals
      subst mem
      decide
  have stored : storeResolve date s expr = s.names := by rw [storeResolve, if_pos (.inr h)]
  have walked : ∀ n, n ∈ walkAll date s expr ↔ n ∈ s.names := by
    intro n
    rw [walkAll, single, mem_walk positive]
    simp [partNames, h]
  intro n
  rw [stored, searchResolve, forwardResolve, if_neg some_, walked]
  refine ⟨Iff.rfl, Iff.rfl, ?_⟩
  rw [clusterResolve, single, stored, mem_clusterWalk positive]
  constructor
  · rintro (named | ⟨part, -, i, mem, rfl, -⟩)
    · exact named
    · exact List.mem_map_of_mem mem
  · exact fun named => .inl named

theorem agree_of_simple (simple : Simple date expr) (sound : Sound s) : Agree date s expr := by
  have whole : expr = all ∨ expr = ['*'] → Agree date s expr := agree_of_everything
  rcases simple with h | h | ⟨some_, plain⟩
  · exact whole (.inl h)
  · exact whole (.inr h)
  · by_cases everything : expr = all ∨ expr = ['*']
    · exact whole everything
    · have special : ¬ (expr = [] ∨ expr = all ∨ expr = ['*']) := fun h => h.elim some_ everything
      intro n
      rw [searchResolve, forwardResolve, if_neg some_, mem_walkAll_plain sound plain,
        mem_clusterResolve_plain sound plain special, mem_storeResolve special]
      exact ⟨Iff.rfl, Iff.rfl, Iff.rfl⟩

/-! ## One index by itself -/

/-- A name no part of the expression is, or matches but for names of any text. -/
def fresh (expr : Name) : Name :=
  'z' :: List.replicate expr.length '\n'

/-- One index and what stands in front of it. -/
def alone (name : Name) (aliases : List Name) : State :=
  { indices := [(name, aliases)], streams := [] }

theorem sound_alone {name : Name} {aliases : List Name} (some_ : name ≠ [])
    (allowed : ∀ c ∈ name, c ∉ forbidden) (named : ∀ a ∈ aliases, a ≠ [] ∧ a ≠ name) :
    Sound (alone name aliases) where
  index n mem := by
    obtain rfl : n = name := List.mem_singleton.mp mem
    exact ⟨some_, allowed⟩
  alias_ i mem a has := by
    obtain rfl : i = (name, aliases) := List.mem_singleton.mp mem
    obtain ⟨full, other⟩ := named a has
    refine ⟨full, fun here => other (List.mem_singleton.mp here), List.not_mem_nil⟩
  stream t mem := by cases mem

theorem fresh_allowed (expr : Name) : ∀ c ∈ fresh expr, c ∉ forbidden := by
  intro c mem
  rcases List.mem_cons.mp mem with rfl | mem
  · decide
  · obtain rfl := List.eq_of_mem_replicate mem
    decide

theorem ne_fresh (short : part.length ≤ expr.length) : part ≠ fresh expr := by
  rintro rfl
  simp only [fresh, List.length_cons, List.length_replicate] at short
  omega

theorem wildcardMatch_fresh (short : part.length ≤ expr.length) (star : '*' ∈ part) :
    wildcardMatch part (fresh expr) = false := by
  rw [Bool.eq_false_iff]
  intro matched
  have le : (fresh expr).count '\n' ≤ part.count '\n' := Glob.count_le rfl matched
  have newlines : (fresh expr).count '\n' = expr.length := by simp [fresh]
  have fewer : part.count '\n' < part.length := by
    refine lt_of_le_of_ne List.count_le_length fun same => ?_
    exact absurd (List.count_eq_length.mp same '*' star) (by decide)
  omega

theorem alone_alias {z a : Name} {aliases : List Name} :
    (alone z aliases).indicesForAlias a = if a ∈ aliases then [z] else [] := by
  by_cases has : a ∈ aliases
  · simp [alone, State.indicesForAlias, has]
  · simp [alone, State.indicesForAlias, has]

theorem mem_storePart_alone {aliases : List Name} (short : part.length ≤ expr.length)
    (still : dated date part = part) :
    fresh expr ∈ storePart date (alone (fresh expr) aliases) part ↔
      ∃ a ∈ aliases, if '*' ∈ part then wildcardMatch part a = true else part = a := by
  have other := ne_fresh short
  by_cases star : '*' ∈ part
  · have not := wildcardMatch_fresh short star
    simp [storePart, still, star, alone, not]
  · have notName : part ∉ (alone (fresh expr) aliases).names := fun mem =>
      other (List.mem_singleton.mp mem)
    have noStream : (alone (fresh expr) aliases).backingIndices part = [] := rfl
    by_cases has : part ∈ aliases
    · simp [storePart, still, star, notName, noStream, alone_alias, has]
    · have nowhere : get date (alone (fresh expr) aliases) part.length part = none := by
        cases layers : part.length with
        | zero => rfl
        | succ layers =>
          have noDate : ¬ (part.head? = some '<' ∧ date part ≠ part) := by
            rintro ⟨angle, moved⟩
            rw [dated, if_pos angle] at still
            exact moved still
          rw [get, if_neg notName, if_neg noDate, alone_alias, if_neg has]
          rfl
      simp [storePart, still, star, notName, noStream, alone_alias, has, nowhere]

/-- A part that takes an index by its name. -/
def ByName (z p : Name) : Prop :=
  p = [] ∨ p = all ∨ p = ['*'] ∨ ('*' ∈ p ∧ globMatch p z = true)

theorem partNames_of_byName {p : Name} {aliases : List Name} (full : [] ∉ aliases)
    (h : ByName (fresh expr) p) :
    fresh expr ∈ partNames date (alone (fresh expr) aliases) p := by
  have name : fresh expr ∈ (alone (fresh expr) aliases).names := List.mem_singleton_self _
  rcases h with rfl | h | h | ⟨star, matched⟩
  · have other : ([] : Name) ∉ (alone (fresh expr) aliases).names := fun mem => by
      cases List.mem_singleton.mp mem
    have special : ¬ (([] : Name) = all ∨ ([] : Name) = ['*']) := by decide
    rw [partNames, if_neg special, if_neg List.not_mem_nil, if_neg other, alone_alias, if_neg full,
      if_pos rfl, storeResolve, if_pos (.inl rfl)]
    exact name
  · rw [partNames, if_pos (.inl h)]
    exact name
  · rw [partNames, if_pos (.inr h)]
    exact name
  · by_cases special : p = all ∨ p = ['*']
    · rw [partNames, if_pos special]
      exact name
    · rw [partNames, if_neg special, if_pos star]
      exact List.mem_filter.mpr ⟨name, matched⟩

theorem byName_of_partNames {p : Name} {aliases : List Name} (short : p.length ≤ expr.length)
    (free : ',' ∉ p) (still : dated date (trim p) = trim p)
    (h : fresh expr ∈ partNames date (alone (fresh expr) aliases) p) :
    ByName (fresh expr) p ∨ p ∈ aliases ∨ trim p ∈ aliases := by
  rw [partNames] at h
  by_cases special : p = all ∨ p = ['*']
  · exact .inl (.inr (special.imp_right .inl))
  rw [if_neg special] at h
  by_cases star : '*' ∈ p
  · rw [if_pos star] at h
    exact .inl (.inr (.inr (.inr ⟨star, (List.mem_filter.mp h).2⟩)))
  rw [if_neg star] at h
  have notName : p ∉ (alone (fresh expr) aliases).names := fun mem =>
    ne_fresh short (List.mem_singleton.mp mem)
  rw [if_neg notName, alone_alias] at h
  by_cases has : p ∈ aliases
  · exact .inr (.inl has)
  rw [if_neg has, if_pos rfl] at h
  by_cases none : p = []
  · exact .inl (.inl none)
  rw [storeResolve_part free fun h => h.elim none special] at h
  have sub := trim_sublist p
  obtain ⟨a, mem, same⟩ := (mem_storePart_alone (sub.length_le.trans short) still).mp h
  rw [if_neg fun mem => star (sub.subset mem)] at same
  exact .inr (.inr (same ▸ mem))

/-! ## What the four must agree on -/

theorem spelled_apart {p : Name} {c : Char} (inside : c ∈ p) (wild : c = '*' ∨ c = '?') :
    Glob.spelled ',' p ≠ [] ∧ ∀ part ∈ parts expr, part ≠ Glob.spelled ',' p := by
  have comma : ',' ∈ Glob.spelled ',' p := Glob.mem_spelled inside wild
  refine ⟨List.ne_nil_of_mem comma, fun part mem same => ?_⟩
  exact (mem_parts mem).2.1 (same ▸ comma)

section Exact

variable (special : ¬ (expr = [] ∨ expr = all ∨ expr = ['*'])) (dateless : Dateless date expr)

theorem mem_walk_alone {aliases l out out' : List Name} (within : ∀ part ∈ l, part ∈ parts expr)
    (dateless : Dateless date expr) (full : [] ∉ aliases)
    (apart : ∀ part ∈ parts expr, part.head? ≠ some '-' → part ∉ aliases)
    (sub : fresh expr ∈ out → fresh expr ∈ out')
    (h : fresh expr ∈ l.foldl (walk date (alone (fresh expr) aliases)) out) :
    fresh expr ∈ l.foldl (walk date (alone (fresh expr) [])) out' := by
  induction l generalizing out out' with
  | nil => exact sub h
  | cons part l ih =>
    have mem := within part List.mem_cons_self
    obtain ⟨short, free, trimmed⟩ := mem_parts mem
    refine ih (fun part mem => within part (List.mem_cons_of_mem _ mem)) ?_ h
    unfold walk
    by_cases minus : part.head? = some '-'
    · rw [if_pos minus, if_pos minus]
      intro kept
      obtain ⟨old, notNamed⟩ := List.mem_filter.mp kept
      refine List.mem_filter.mpr ⟨sub old, ?_⟩
      simp only [Bool.not_eq_true', List.contains_eq_mem, decide_eq_false_iff_not] at notNamed ⊢
      intro named
      have unsignedSub : (unsigned part).Sublist part := List.dropWhile_sublist _
      have byName := byName_of_partNames (unsignedSub.length_le.trans short)
        (fun mem => free (unsignedSub.subset mem)) (dateless part mem).2 named
      rcases byName with byName | none | none
      · exact notNamed (partNames_of_byName full byName)
      · cases none
      · cases none
    · rw [if_neg minus, if_neg minus, unsigned_of_positive minus]
      intro reached
      rcases mem_push.mp reached with old | named
      · exact mem_push.mpr (.inl (sub old))
      · have still := (dateless part mem).1
        rcases byName_of_partNames short free (by rwa [trimmed]) named with byName | has | has
        · exact mem_push.mpr (.inr (partNames_of_byName List.not_mem_nil byName))
        · exact absurd has (apart part mem minus)
        · exact absurd (trimmed ▸ has) (apart part mem minus)

include special dateless

theorem not_mem_storeResolve_alone : fresh expr ∉ storeResolve date (alone (fresh expr) []) expr := by
  rw [mem_storeResolve special]
  rintro ⟨part, mem, reached⟩
  obtain ⟨a, none, -⟩ :=
    (mem_storePart_alone (mem_parts mem).1 (dateless part mem).1).mp reached
  cases none

variable (agree : ∀ s, Sound s → Agree date s expr)

include agree

theorem not_mem_walkAll_alone : fresh expr ∉ walkAll date (alone (fresh expr) []) expr := by
  have sound : Sound (alone (fresh expr) []) :=
    sound_alone (List.cons_ne_nil _ _) (fresh_allowed expr) fun a has => (by cases has)
  intro walked
  exact not_mem_storeResolve_alone special dateless
    ((agree _ sound (fresh expr)).2.1.mp walked)

theorem part_reaches_nothing {a : Name} (full : a ≠ []) (other : a ≠ fresh expr)
    (apart : ∀ part ∈ parts expr, part.head? ≠ some '-' → part ≠ a) (mem : part ∈ parts expr) :
    ¬ if '*' ∈ part then wildcardMatch part a = true else part = a := by
  intro reaches
  have sound : Sound (alone (fresh expr) [a]) := by
    refine sound_alone (List.cons_ne_nil _ _) (fresh_allowed expr) fun b has => ?_
    rw [List.mem_singleton.mp has]
    exact ⟨full, other⟩
  have stored : fresh expr ∈ storeResolve date (alone (fresh expr) [a]) expr := by
    refine (mem_storeResolve special).mpr ⟨part, mem, ?_⟩
    exact (mem_storePart_alone (mem_parts mem).1 (dateless part mem).1).mpr
      ⟨a, List.mem_singleton_self a, reaches⟩
  have walked := (agree _ sound (fresh expr)).2.1.mpr stored
  refine not_mem_walkAll_alone special dateless agree ?_
  refine mem_walk_alone (fun part mem => (List.mem_filter.mp mem).1) dateless ?_ ?_ (fun h => h)
    walked
  · exact fun none => full (List.mem_singleton.mp none).symm
  · exact fun part mem minus has => apart part mem minus (List.mem_singleton.mp has)

theorem no_star (mem : part ∈ parts expr) : '*' ∉ part := by
  intro star
  obtain ⟨full, apart⟩ := spelled_apart star (.inl rfl)
  have short : (Glob.spelled ',' part).length ≤ expr.length := by
    rw [Glob.spelled, List.length_map]
    exact (mem_parts mem).1
  refine part_reaches_nothing special dateless agree full (ne_fresh short)
    (fun other mem _ => apart other mem) mem ?_
  rw [if_pos star]
  exact Glob.glob_spelled rfl part

theorem no_minus (mem : part ∈ parts expr) : part.head? ≠ some '-' := by
  intro minus
  have full : part ≠ [] := by
    rintro rfl
    cases minus
  refine part_reaches_nothing special dateless agree full (ne_fresh (mem_parts mem).1)
    (fun other _ plus same => plus (same ▸ minus)) mem ?_
  rw [if_neg (no_star special dateless agree mem)]

theorem no_all (mem : part ∈ parts expr) : part ≠ all := by
  rintro rfl
  refine not_mem_walkAll_alone special dateless agree ?_
  rw [walkAll, mem_walk fun part mem => no_minus special dateless agree (List.mem_filter.mp mem).1]
  refine .inr ⟨all, List.mem_filter.mpr ⟨mem, by decide⟩, ?_⟩
  rw [partNames, if_pos (.inl rfl)]
  exact List.mem_singleton_self _

theorem no_mark (mem : part ∈ parts expr) : '?' ∉ part := by
  intro mark
  obtain ⟨full, apart⟩ := spelled_apart mark (.inr rfl)
  have short : (Glob.spelled ',' part).length ≤ expr.length := by
    rw [Glob.spelled, List.length_map]
    exact (mem_parts mem).1
  have sound : Sound (alone (fresh expr) [Glob.spelled ',' part]) := by
    refine sound_alone (List.cons_ne_nil _ _) (fresh_allowed expr) fun b has => ?_
    rw [List.mem_singleton.mp has]
    exact ⟨full, ne_fresh short⟩
  have clustered :
      fresh expr ∈ clusterResolve date (alone (fresh expr) [Glob.spelled ',' part]) expr := by
    rw [clusterResolve,
      mem_clusterWalk fun part mem => no_minus special dateless agree (List.mem_filter.mp mem).1]
    have some_ : part ≠ [] := List.ne_nil_of_mem mark
    refine .inr ⟨part, List.mem_filter.mpr ⟨mem, by simpa using some_⟩, _, List.mem_singleton_self _,
      rfl, .inr ⟨_, List.mem_singleton_self _, ?_⟩⟩
    have notStar : part ≠ ['*'] := fun same =>
      no_star special dateless agree mem (same ▸ List.mem_singleton_self _)
    rw [matchesPattern, if_neg fun h => h.elim (no_all special dateless agree mem) notStar,
      if_neg fun h => h.2 mark]
    exact Glob.glob_spelled rfl part
  have stored := (agree _ sound (fresh expr)).2.2.mp clustered
  obtain ⟨other, mem', reached⟩ := (mem_storeResolve special).mp stored
  obtain ⟨a, has, same⟩ :=
    (mem_storePart_alone (mem_parts mem').1 (dateless other mem').1).mp reached
  rw [if_neg (no_star special dateless agree mem'), List.mem_singleton.mp has] at same
  exact apart other mem' same

end Exact

theorem simple_of_agree (dateless : Dateless date expr)
    (agree : ∀ s, Sound s → Agree date s expr) : Simple date expr := by
  by_cases everything : expr = all ∨ expr = ['*']
  · exact everything.imp_right .inl
  have some_ : expr ≠ [] := by
    rintro rfl
    have sound : Sound (alone ['a'] []) := by
      refine sound_alone (List.cons_ne_nil _ _) ?_ fun a has => (by cases has)
      simp [forbidden]
    have stored : ['a'] ∈ storeResolve date (alone ['a'] []) [] := by
      rw [storeResolve, if_pos (.inl rfl)]
      exact List.mem_singleton_self _
    have nothing : (parts []).filter (! ·.isEmpty) = [] := by decide
    have forward := (agree _ sound ['a']).2.1.mpr stored
    rw [forwardResolve, walkAll, nothing] at forward
    cases forward
  have special : ¬ (expr = [] ∨ expr = all ∨ expr = ['*']) := fun h => h.elim some_ everything
  refine .inr (.inr ⟨some_, fun part mem => .inr ⟨?_, ?_, ?_, ?_, (dateless part mem).1⟩⟩)
  · exact no_star special dateless agree mem
  · exact no_mark special dateless agree mem
  · exact no_minus special dateless agree mem
  · exact no_all special dateless agree mem

/-- The four resolvers name the same indices in every cluster exactly for the expressions that
are everything, or names and nothing else. -/
theorem one_expression_one_set (date : Name → Name) (expr : Name) :
    (Simple date expr → ∀ s, Sound s → Agree date s expr) ∧
      (Dateless date expr → ((∀ s, Sound s → Agree date s expr) ↔ Simple date expr)) :=
  ⟨fun simple _ sound => agree_of_simple simple sound, fun dateless =>
    ⟨fun agree => simple_of_agree dateless agree, fun simple _ sound => agree_of_simple simple sound⟩⟩

/-- An index and an alias, named. -/
theorem one_expression_one_set_names :
    Agree id { indices := [(['a'], []), (['b'], [['c']])], streams := [] } ['a', ',', 'c'] := by
  refine (one_expression_one_set id ['a', ',', 'c']).1 (.inr (.inr ⟨by decide, ?_⟩)) _ ?_
  · intro part mem
    have two : part = ['a'] ∨ part = ['c'] := by
      have : parts ['a', ',', 'c'] = [['a'], ['c']] := by decide
      rw [this] at mem
      simpa using mem
    rcases two with rfl | rfl
    · exact .inr (by decide)
    · exact .inr (by decide)
  · constructor <;> simp [State.names, forbidden]

/-- `a*,-ab`: the store searches the index the planner leaves out. -/
theorem expressions_differ :
    ∃ s, Sound s ∧ ¬ Agree id s ['a', '*', ',', '-', 'a', 'b'] := by
  refine ⟨alone ['a', 'b'] [], sound_alone (by simp) (by simp [forbidden]) (by simp), fun agree => ?_⟩
  have stored : ['a', 'b'] ∈ storeResolve id (alone ['a', 'b'] []) ['a', '*', ',', '-', 'a', 'b'] := by
    decide
  have searched := (agree ['a', 'b']).1.mpr stored
  exact absurd searched (by decide)

end

end Resolve
end Store
end Velosearch

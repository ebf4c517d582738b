import Velosearch.Query.SpanHeaps

/-!
# What a span query means

Every clause of a span query, walked over a document, comes by its matches in order and ends. What
`span_or`, `span_first` and `span_not` come by is told by what their clauses do, whatever these are;
and a document with a match is among those the words of the query leave.
-/

set_option autoImplicit false

namespace Velosearch.Query

open Spans

/-! ## Lists of documents -/

section Documents

variable {a b : List Nat} {x : Nat}

/-- What is in either list is in the union. -/
theorem mem_union : x ∈ union a b ↔ x ∈ a ∨ x ∈ b := by
  fun_induction union a b with
  | case1 m => simp
  | case2 l none => simp
  | case3 a l b m lt ih =>
    simp only [List.mem_cons, ih]
    tauto
  | case4 a l b m lt lt' ih =>
    simp only [List.mem_cons, ih]
    tauto
  | case5 a l b m lt lt' ih =>
    have same : a = b := by omega
    simp only [List.mem_cons, ih, same]
    tauto

theorem union_sorted (ha : a.Pairwise (· < ·)) (hb : b.Pairwise (· < ·)) :
    (union a b).Pairwise (· < ·) := by
  fun_induction union a b with
  | case1 m => exact hb
  | case2 l none => exact ha
  | case3 a l b m lt ih =>
    obtain ⟨below, ha⟩ := List.pairwise_cons.mp ha
    refine List.pairwise_cons.mpr ⟨fun y hy => ?_, ih ha hb⟩
    cases mem_union.mp hy with
    | inl left => exact below y left
    | inr right =>
      cases List.mem_cons.mp right with
      | inl here => omega
      | inr later => exact lt.trans ((List.pairwise_cons.mp hb).1 y later)
  | case4 a l b m lt lt' ih =>
    obtain ⟨below, hb⟩ := List.pairwise_cons.mp hb
    refine List.pairwise_cons.mpr ⟨fun y hy => ?_, ih ha hb⟩
    cases mem_union.mp hy with
    | inr right => exact below y right
    | inl left =>
      cases List.mem_cons.mp left with
      | inl here => omega
      | inr later => exact lt'.trans ((List.pairwise_cons.mp ha).1 y later)
  | case5 a l b m lt lt' ih =>
    have same : a = b := by omega
    obtain ⟨below, ha⟩ := List.pairwise_cons.mp ha
    obtain ⟨below', hb⟩ := List.pairwise_cons.mp hb
    refine List.pairwise_cons.mpr ⟨fun y hy => ?_, ih ha hb⟩
    cases mem_union.mp hy with
    | inl left => exact below y left
    | inr right => exact same ▸ below' y right

theorem intersect_sublist : (intersect a b).Sublist a := by
  fun_induction intersect a b with
  | case1 m => exact List.Sublist.refl _
  | case2 l none => exact List.nil_sublist _
  | case3 a l b m lt ih => exact ih.cons a
  | case4 a l b m lt lt' ih => exact ih
  | case5 a l b m lt lt' ih => exact ih.cons_cons a

/-- What is in both is in the intersection. -/
theorem mem_intersect (ha : a.Pairwise (· < ·)) (hb : b.Pairwise (· < ·)) (inA : x ∈ a)
    (inB : x ∈ b) : x ∈ intersect a b := by
  fun_induction intersect a b with
  | case1 m => exact inA
  | case2 l none => exact absurd inB nofun
  | case3 a l b m lt ih =>
    obtain ⟨below, ha⟩ := List.pairwise_cons.mp ha
    cases List.mem_cons.mp inA with
    | inr later => exact ih ha hb later inB
    | inl here =>
      cases List.mem_cons.mp inB with
      | inl there => omega
      | inr later =>
        have above := (List.pairwise_cons.mp hb).1 x later
        omega
  | case4 a l b m lt lt' ih =>
    obtain ⟨below, hb⟩ := List.pairwise_cons.mp hb
    cases List.mem_cons.mp inB with
    | inr later => exact ih ha hb inA later
    | inl here =>
      cases List.mem_cons.mp inA with
      | inl there => omega
      | inr later =>
        have above := (List.pairwise_cons.mp ha).1 x later
        omega
  | case5 a l b m lt lt' ih =>
    have same : a = b := by omega
    obtain ⟨below, ha⟩ := List.pairwise_cons.mp ha
    obtain ⟨below', hb⟩ := List.pairwise_cons.mp hb
    cases List.mem_cons.mp inA with
    | inl here => exact here ▸ List.mem_cons_self
    | inr later =>
      cases List.mem_cons.mp inB with
      | inl there =>
        have above := below x later
        omega
      | inr later' => exact List.mem_cons_of_mem a (ih ha hb later later')

end Documents

namespace SpanTree

variable {Term : Type}

/-! ## The documents that could match -/

section Candidates

variable {docs : Term → List Nat}

/-- Documents in order. -/
def Sorted (x : Option (List Nat)) : Prop := ∀ ds, x = some ds → ds.Pairwise (· < ·)

/-- The document is among them, where they are known. -/
def Among (d : Nat) (x : Option (List Nat)) : Prop := ∀ ds, x = some ds → d ∈ ds

theorem both_sorted {x y : Option (List Nat)} (hx : Sorted x) (hy : Sorted y) :
    Sorted (both x y) := by
  intro ds h
  cases x with
  | none => exact hy ds (by simpa [both] using h)
  | some a =>
    cases y with
    | none => exact hx ds (by simpa [both] using h)
    | some b =>
      cases h
      exact (hx a rfl).sublist intersect_sublist

theorem both_among {d : Nat} {x y : Option (List Nat)} (hx : Sorted x) (hy : Sorted y)
    (inX : Among d x) (inY : Among d y) : Among d (both x y) := by
  intro ds h
  cases x with
  | none => exact inY ds (by simpa [both] using h)
  | some a =>
    cases y with
    | none => exact inX ds (by simpa [both] using h)
    | some b =>
      cases h
      exact mem_intersect (hx a rfl) (hy b rfl) (inX a rfl) (inY b rfl)

theorem either_sorted {x y : Option (List Nat)} (hx : Sorted x) (hy : Sorted y) :
    Sorted (either x y) := by
  intro ds h
  cases x with
  | none => exact nomatch h
  | some a =>
    cases y with
    | none => exact nomatch h
    | some b =>
      cases h
      exact union_sorted (hx a rfl) (hy b rfl)

theorem either_among {d : Nat} {x y : Option (List Nat)} (h : Among d x ∨ Among d y) :
    Among d (either x y) := by
  intro ds hds
  cases x with
  | none => exact nomatch hds
  | some a =>
    cases y with
    | none => exact nomatch hds
    | some b =>
      cases hds
      exact mem_union.mpr (h.imp (fun inX => inX a rfl) fun inY => inY b rfl)

mutual

/-- Documents come in order. -/
theorem candidates_sorted (sorted : ∀ t, (docs t).Pairwise (· < ·)) (tree : SpanTree Term) :
    Sorted (tree.candidates docs) := by
  cases tree with
  | term t =>
    intro ds h
    rw [candidates] at h
    cases h
    exact sorted t
  | gap width =>
    intro ds h
    rw [candidates] at h
    exact nomatch h
  | or clauses =>
    rw [candidates]
    exact anyOf_sorted sorted clauses (some []) fun ds h => by
      cases h
      exact .nil
  | near clauses slop ordered =>
    rw [candidates]
    exact allOf_sorted sorted clauses none fun ds h => nomatch h
  | not included excluded pre post =>
    rw [candidates]
    exact candidates_sorted sorted included
  | first inner «end» =>
    rw [candidates]
    exact candidates_sorted sorted inner
  | masked inner field =>
    rw [candidates]
    exact candidates_sorted sorted inner
  | containing big little =>
    rw [candidates]
    exact both_sorted (candidates_sorted sorted big) (candidates_sorted sorted little)
  | within big little =>
    rw [candidates]
    exact both_sorted (candidates_sorted sorted big) (candidates_sorted sorted little)

theorem anyOf_sorted (sorted : ∀ t, (docs t).Pairwise (· < ·))
    (clauses : List (SpanTree Term)) (all : Option (List Nat)) (h : Sorted all) : Sorted (anyOf docs clauses all) := by
  cases clauses with
  | nil => exact h
  | cons c cs =>
    rw [anyOf]
    exact anyOf_sorted sorted cs _ (either_sorted h (candidates_sorted sorted c))

theorem allOf_sorted (sorted : ∀ t, (docs t).Pairwise (· < ·))
    (clauses : List (SpanTree Term)) (acc : Option (List Nat)) (h : Sorted acc) : Sorted (allOf docs clauses acc) := by
  cases clauses with
  | nil => exact h
  | cons c cs =>
    rw [allOf]
    exact allOf_sorted sorted cs _ (both_sorted h (candidates_sorted sorted c))

end

/-- A document in which a tree may match is among those of any of them. -/
theorem anyOf_among {d : Nat} (clauses : List (SpanTree Term)) (all : Option (List Nat))
    (h : Among d all ∨ ∃ c ∈ clauses, Among d (c.candidates docs)) :
    Among d (anyOf docs clauses all) := by
  induction clauses generalizing all with
  | nil =>
    cases h with
    | inl before => exact before
    | inr later => exact absurd later (by simp)
  | cons c cs ih =>
    rw [anyOf]
    apply ih
    cases h with
    | inl before =>
      exact .inl (either_among (.inl before))
    | inr later =>
      obtain ⟨c', hc, among⟩ := later
      cases List.mem_cons.mp hc with
      | inl here => exact .inl (either_among (.inr (here ▸ among)))
      | inr there => exact .inr ⟨c', there, among⟩

/-- And of all, where all may. -/
theorem allOf_among (sorted : ∀ t, (docs t).Pairwise (· < ·)) {d : Nat}
    (clauses : List (SpanTree Term)) (acc : Option (List Nat)) (order : Sorted acc)
    (h : Among d acc) (all : ∀ c ∈ clauses, Among d (c.candidates docs)) :
    Among d (allOf docs clauses acc) := by
  induction clauses generalizing acc with
  | nil => exact h
  | cons c cs ih =>
    rw [allOf]
    apply ih
    · exact both_sorted order (candidates_sorted sorted c)
    · exact both_among order (candidates_sorted sorted c) h (all c List.mem_cons_self)
    · exact fun c' hc => all c' (List.mem_cons_of_mem c hc)

end Candidates

/-! ## The clauses a query can be made of -/

mutual

/-- Without gaps, with a clause in every `span_near` and with no distance below nought: the parser
refuses and mends the others. -/
def Plain : SpanTree Term → Prop
  | term _ => True
  | gap _ => False
  | or c => PlainAll c
  | near c _ _ => c ≠ [] ∧ PlainAll c
  | not included excluded pre _ => 0 ≤ pre ∧ Plain included ∧ Plain excluded
  | first inner _ | masked inner _ => Plain inner
  | containing big little | within big little => Plain big ∧ Plain little

/-- Every tree of a list is plain. -/
def PlainAll : List (SpanTree Term) → Prop
  | [] => True
  | c :: cs => Plain c ∧ PlainAll cs

end

mutual

/-- The terms of a tree. -/
def words : SpanTree Term → List Term
  | term t => [t]
  | gap _ => []
  | or c | near c _ _ => wordsOf c
  | first inner _ | masked inner _ => words inner
  | not big little _ _ | containing big little | within big little => words big ++ words little

def wordsOf : List (SpanTree Term) → List Term
  | [] => []
  | c :: cs => words c ++ wordsOf cs

end

variable [DecidableEq Term]

mutual

/-- The terms of a tree. -/
theorem mem_allTerms (t : Term) (tree : SpanTree Term) (out : List Term) :
    t ∈ allTerms tree out ↔ t ∈ out ∨ t ∈ words tree := by
  cases tree with
  | term u =>
    rw [allTerms, words]
    split
    · next there =>
      constructor
      · exact .inl
      · rintro (before | here)
        · exact before
        · exact List.mem_singleton.mp here ▸ there
    · simp
  | gap width => simp [allTerms, words]
  | or clauses =>
    rw [allTerms, words]
    exact mem_allTermsOf t clauses out
  | near clauses slop ordered =>
    rw [allTerms, words]
    exact mem_allTermsOf t clauses out
  | first inner «end» =>
    rw [allTerms, words]
    exact mem_allTerms t inner out
  | masked inner field =>
    rw [allTerms, words]
    exact mem_allTerms t inner out
  | not big little pre post =>
    rw [allTerms, words, mem_allTerms t little, mem_allTerms t big, List.mem_append, or_assoc]
  | containing big little =>
    rw [allTerms, words, mem_allTerms t little, mem_allTerms t big, List.mem_append, or_assoc]
  | within big little =>
    rw [allTerms, words, mem_allTerms t little, mem_allTerms t big, List.mem_append, or_assoc]

theorem mem_allTermsOf (t : Term) (clauses : List (SpanTree Term)) (out : List Term) :
    t ∈ allTermsOf clauses out ↔ t ∈ out ∨ t ∈ wordsOf clauses := by
  cases clauses with
  | nil => simp [allTermsOf, wordsOf]
  | cons c cs =>
    rw [allTermsOf, wordsOf, mem_allTermsOf t cs, mem_allTerms t c, List.mem_append, or_assoc]

end

end SpanTree

/-! ## A segment -/

/-- A segment of an index: the documents that hold a word, and where it stands in them. -/
structure Segment (Term : Type) where
  docs : Term → List Nat
  sorted : ∀ t, (docs t).Pairwise (· < ·)
  places : Term → Nat → Places
  held : ∀ t d, d ∈ docs t ↔ (places t d).items ≠ []

namespace Segment

variable {Term : Type} [DecidableEq Term] (seg : Segment Term) (terms : List Term) (d : Nat)

/-- The documents of a word the query reads. -/
def lookup (t : Term) : List Nat := if t ∈ terms then seg.docs t else []

/-- The places of some terms in a document. -/
def read : List (List Int) := terms.map fun t => (seg.places t d).items

theorem lookup_sorted (t : Term) : (seg.lookup terms t).Pairwise (· < ·) := by
  unfold lookup
  split
  · exact seg.sorted t
  · exact .nil

/-- Each term is read at its own places. -/
theorem placesOf_read {t : Term} (there : t ∈ terms) :
    SpanTree.placesOf terms (seg.read terms d) t = (seg.places t d).items := by
  obtain ⟨i, found⟩ := Velosearch.Lib.found_of_mem there (p := fun x => decide (x = t)) (by simp)
  obtain ⟨x, at_, same⟩ := Velosearch.Lib.found found
  rw [of_decide_eq_true same] at at_
  simp [SpanTree.placesOf, found, read, at_]

/-- The matches of a tree. -/
def found (tree : SpanTree Term) : Option (List Match) :=
  tree.found terms (seg.read terms d)

/-- Whether it matches at all. -/
def asked (tree : SpanTree Term) : Option Bool :=
  let x := tree.spans terms (seg.read terms d)
  (x.ops.matches x.state).map Prod.fst

/-- What the matches of a tree should be. -/
def Law : SpanTree Term → List Match → Prop
  | .term t, l => l = TermSpans.matchesOf (seg.places t d)
  | .or c, l => ∃ ls, List.Forall₂ (fun c m => seg.found terms d c = some m) c ls ∧
      l.Perm ls.flatten
  | .first c «end», l => ∃ a, seg.found terms d c = some a ∧ l = a.filter fun m => m.end ≤ «end»
  | .not c x pre post, l => ∃ a b, seg.found terms d c = some a ∧ seg.found terms d x = some b ∧
      l.Sublist a ∧ ((∀ m ∈ a, m.end + post ≤ NO_MORE) → l = a.filter (Check.Apart pre post b))
  | .masked c _, l => seg.found terms d c = some l
  | .near .., _ | .gap _, _ | .containing .., _ | .within .., _ => True

/-- They are that. -/
structure Meant (tree : SpanTree Term) (l : List Match) : Prop where
  means : (tree.spans terms (seg.read terms d)).ops.Means
    (tree.spans terms (seg.read terms d)).state l
  orderly : Orderly l
  among : l ≠ [] → SpanTree.Among d (tree.candidates (seg.lookup terms))
  law : seg.Law terms d tree l

variable {seg terms d}

theorem Meant.found {tree : SpanTree Term} {l : List Match} (h : seg.Meant terms d tree l) :
    seg.found terms d tree = some l :=
  h.means.found h.orderly

theorem boxed_means {cs : List (SpanTree Term)} {ls : List (List Match)}
    (h : List.Forall₂ (seg.Meant terms d) cs ls) :
    List.Forall₂ (Boxed.spans (SpanTree.spansOf terms (seg.read terms d) cs)).Means
      (Boxed.all (SpanTree.spansOf terms (seg.read terms d) cs)) ls := by
  have each : List.Forall₂ (fun x l => x.ops.Means x.state l)
      (SpanTree.spansOf terms (seg.read terms d) cs) ls := by
    induction h with
    | nil => exact .nil
    | cons here _ ih => exact .cons here.means ih
  generalize SpanTree.spansOf terms (seg.read terms d) cs = ds at each
  have length := each.length_eq
  rw [List.forall₂_iff_get]
  refine ⟨(Boxed.length_all ds).trans length, fun i hi hi' => ?_⟩
  have inside : i < ds.length := (Boxed.length_all ds) ▸ hi
  have here := each.get inside hi'
  rw [Boxed.get_all]
  exact Boxed.means (i := ⟨i, inside⟩) here

theorem all_orderly {cs : List (SpanTree Term)} {ls : List (List Match)}
    (h : List.Forall₂ (seg.Meant terms d) cs ls) : ∀ l ∈ ls, Orderly l := by
  intro l hl
  obtain ⟨c, -, meant⟩ := Velosearch.Lib.beside_right h hl
  exact meant.orderly

/-- A document that matches is looked at. -/
theorem near_among {cs : List (SpanTree Term)} {ls : List (List Match)}
    (h : List.Forall₂ (seg.Meant terms d) cs ls) (all : ∀ l ∈ ls, l ≠ []) :
    SpanTree.Among d (SpanTree.allOf (seg.lookup terms) cs none) := by
  apply SpanTree.allOf_among (seg.lookup_sorted terms)
  · exact fun ds none => nomatch none
  · exact fun ds none => nomatch none
  · intro c hc
    obtain ⟨l, hl, meant⟩ := Velosearch.Lib.beside_left h hc
    exact meant.among (all l hl)

theorem all_ne_nil (terms : List Term) (places : List (List Int)) {cs : List (SpanTree Term)}
    (some_ : cs ≠ []) :
    Boxed.all (SpanTree.spansOf terms places cs) ≠ [] := by
  intro none
  have length := congrArg List.length none
  cases cs with
  | nil => exact some_ rfl
  | cons c cs =>
    rw [Boxed.length_all] at length
    simp [SpanTree.spansOf] at length

mutual

/-- **Every clause means something**: by induction over the clauses it is made of. -/
theorem meant (tree : SpanTree Term) (plain : tree.Plain) (reads : ∀ t ∈ tree.words, t ∈ terms) :
    ∃ l, seg.Meant terms d tree l := by
  cases tree with
  | term t =>
    have there := reads t (by simp [SpanTree.words])
    refine ⟨TermSpans.matchesOf (seg.places t d), ?_, TermSpans.orderly _, ?_, rfl⟩
    · rw [SpanTree.spans, placesOf_read seg terms d there]
      exact TermSpans.means _
    · intro some_ ds hds
      rw [SpanTree.candidates] at hds
      cases hds
      rw [lookup, if_pos there, seg.held]
      intro none
      exact some_ (by simp [TermSpans.matchesOf, none])
  | gap width => exact absurd plain (by simp [SpanTree.Plain])
  | or clauses =>
    rw [SpanTree.Plain] at plain
    rw [SpanTree.words] at reads
    obtain ⟨ls, each⟩ := meantAll clauses plain reads
    obtain ⟨l, means, orderly, perm⟩ := OrSpans.means
      (o := ⟨Boxed.all _, [], .new, none⟩) (boxed_means each) (all_orderly each) rfl rfl
    refine ⟨l, ?_, orderly, ?_, ls, each.imp fun c l h => h.found, perm⟩
    · rw [SpanTree.spans]
      exact means
    · intro some_
      rw [SpanTree.candidates]
      apply SpanTree.anyOf_among
      right
      obtain ⟨m, hm⟩ := List.exists_mem_of_ne_nil l some_
      obtain ⟨l', hl', hm'⟩ := List.mem_flatten.mp (perm.mem_iff.mp hm)
      obtain ⟨c, hc, meant⟩ := Velosearch.Lib.beside_right each hl'
      exact ⟨c, hc, meant.among (List.ne_nil_of_mem hm')⟩
  | near clauses slop ordered =>
    rw [SpanTree.Plain] at plain
    rw [SpanTree.words] at reads
    obtain ⟨ls, each⟩ := meantAll clauses plain.2 reads
    have some_ := all_ne_nil terms (seg.read terms d) plain.1
    cases ordered with
    | true =>
      obtain ⟨l, means, orderly, all⟩ := NearOrdered.means
        (o := ⟨Boxed.all _, slop, -1, -1, -1, true, false⟩) (boxed_means each) (all_orderly each)
        some_
      refine ⟨l, ?_, orderly, fun any => ?_, trivial⟩
      · rw [SpanTree.spans]
        exact means
      · rw [SpanTree.candidates]
        exact near_among each (all any)
    | false =>
      obtain ⟨l, means, orderly, all⟩ := NearUnordered.means
        (o := ⟨Boxed.all _, slop, .new, 0, -1, true, false⟩) (boxed_means each) (all_orderly each)
        rfl some_
      refine ⟨l, ?_, orderly, fun any => ?_, trivial⟩
      · rw [SpanTree.spans]
        exact means
      · rw [SpanTree.candidates]
        exact near_among each (all any)
  | not included excluded pre post =>
    rw [SpanTree.Plain] at plain
    rw [SpanTree.words] at reads
    obtain ⟨pos, plain, plain'⟩ := plain
    obtain ⟨a, inner⟩ := meant included plain fun t ht => reads t (List.mem_append_left _ ht)
    obtain ⟨b, outer⟩ := meant excluded plain' fun t ht => reads t (List.mem_append_right _ ht)
    obtain ⟨l, means, sub, law⟩ := FilterSpans.means
      (f := ⟨(included.spans terms (seg.read terms d)).state,
        .not (excluded.spans terms (seg.read terms d)).state pre post false false, false, -1⟩)
      (Check.judges_not post outer.orderly pos) inner.means inner.orderly
      (.unasked false outer.means)
    refine ⟨l, ?_, inner.orderly.sublist sub, ?_, a, b, inner.found, outer.found, sub, law⟩
    · rw [SpanTree.spans]
      exact means
    · intro some_
      rw [SpanTree.candidates]
      apply inner.among
      rintro rfl
      exact some_ (List.sublist_nil.mp sub)
  | first inner «end» =>
    rw [SpanTree.Plain] at plain
    rw [SpanTree.words] at reads
    obtain ⟨a, inside⟩ := meant inner plain reads
    obtain ⟨l, means, sub, law⟩ := FilterSpans.means
      (f := ⟨(inner.spans terms (seg.read terms d)).state, .first «end», false, -1⟩)
      (U := (inner.spans terms (seg.read terms d)).ops) (Check.judges_first «end») inside.means
      inside.orderly rfl
    refine ⟨l, ?_, inside.orderly.sublist sub, ?_, a, inside.found, law fun _ _ => trivial⟩
    · rw [SpanTree.spans]
      exact means
    · intro some_
      rw [SpanTree.candidates]
      apply inside.among
      rintro rfl
      exact some_ (List.sublist_nil.mp sub)
  | containing big little =>
    rw [SpanTree.Plain] at plain
    rw [SpanTree.words] at reads
    obtain ⟨a, outer⟩ := meant big plain.1 fun t ht => reads t (List.mem_append_left _ ht)
    obtain ⟨b, inner⟩ := meant little plain.2 fun t ht => reads t (List.mem_append_right _ ht)
    obtain ⟨l, means, orderly, both⟩ := ContainSpans.means
      (c := ⟨(big.spans terms (seg.read terms d)).state,
        (little.spans terms (seg.read terms d)).state, false, false, false⟩)
      outer.means inner.means outer.orderly inner.orderly
    refine ⟨l, ?_, orderly, fun some_ => ?_, trivial⟩
    · rw [SpanTree.spans]
      exact means
    · rw [SpanTree.candidates]
      exact SpanTree.both_among (SpanTree.candidates_sorted (seg.lookup_sorted terms) big)
        (SpanTree.candidates_sorted (seg.lookup_sorted terms) little)
        (outer.among (both some_).1) (inner.among (both some_).2)
  | within big little =>
    rw [SpanTree.Plain] at plain
    rw [SpanTree.words] at reads
    obtain ⟨a, outer⟩ := meant big plain.1 fun t ht => reads t (List.mem_append_left _ ht)
    obtain ⟨b, inner⟩ := meant little plain.2 fun t ht => reads t (List.mem_append_right _ ht)
    obtain ⟨l, means, orderly, both⟩ := ContainSpans.means
      (c := ⟨(big.spans terms (seg.read terms d)).state,
        (little.spans terms (seg.read terms d)).state, true, false, false⟩)
      outer.means inner.means outer.orderly inner.orderly
    refine ⟨l, ?_, orderly, fun some_ => ?_, trivial⟩
    · rw [SpanTree.spans]
      exact means
    · rw [SpanTree.candidates]
      exact SpanTree.both_among (SpanTree.candidates_sorted (seg.lookup_sorted terms) big)
        (SpanTree.candidates_sorted (seg.lookup_sorted terms) little)
        (outer.among (both some_).1) (inner.among (both some_).2)
  | masked inner field =>
    rw [SpanTree.Plain] at plain
    rw [SpanTree.words] at reads
    obtain ⟨l, inside⟩ := meant inner plain reads
    refine ⟨l, ?_, inside.orderly, fun some_ => ?_, inside.found⟩
    · rw [SpanTree.spans]
      exact inside.means
    · rw [SpanTree.candidates]
      exact inside.among some_

/-- Every clause is meant, by induction on the tree. -/
theorem meantAll (clauses : List (SpanTree Term)) (plain : SpanTree.PlainAll clauses)
    (reads : ∀ t ∈ SpanTree.wordsOf clauses, t ∈ terms) :
    ∃ ls, List.Forall₂ (seg.Meant terms d) clauses ls := by
  cases clauses with
  | nil => exact ⟨[], .nil⟩
  | cons c cs =>
    rw [SpanTree.PlainAll] at plain
    rw [SpanTree.wordsOf] at reads
    obtain ⟨l, here⟩ := meant c plain.1 fun t ht => reads t (List.mem_append_left _ ht)
    obtain ⟨ls, rest⟩ := meantAll cs plain.2 fun t ht => reads t (List.mem_append_right _ ht)
    exact ⟨l :: ls, .cons here rest⟩

end

/-- **Span clauses mean what their names say.** The walk of a clause ends and yields its matches in
the order of where they start, `matches` tells whether there is one, the matches are those of the
clauses below as the clause's name has it, and the document is among the candidates where there is
one. -/
theorem spans_mean (seg : Segment Term) (terms : List Term) (d : Nat) (tree : SpanTree Term)
    (plain : tree.Plain) (reads : ∀ t ∈ tree.allTerms [], t ∈ terms) :
    ∃ l, seg.found terms d tree = some l ∧ seg.asked terms d tree = some (!l.isEmpty) ∧
      l.Pairwise (fun x y => x.start ≤ y.start) ∧ seg.Law terms d tree l ∧
      (l ≠ [] → ∀ ds, tree.candidates (seg.lookup terms) = some ds → d ∈ ds) := by
  obtain ⟨l, meant⟩ : ∃ l, seg.Meant terms d tree l := meant tree plain fun t ht =>
    reads t ((SpanTree.mem_allTerms t tree []).mpr (.inr ht))
  exact ⟨l, meant.found, meant.means.asked, meant.orderly.order, meant.law, meant.among⟩

def single (places : Term → Places) : Segment Term where
  docs t := if (places t).items = [] then [] else [0]
  sorted t := by
    split
    · exact .nil
    · exact List.pairwise_singleton _ _
  places t d := if d = 0 then places t else default
  held t d := by
    by_cases first : d = 0
    · by_cases none : (places t).items = []
      · simp [first, none]
      · simp [first, none]
    · rw [if_neg first]
      split
      · simp [default]
      · simp [default, first]

def cause : Segment String := single fun t =>
  if t = "party" then ⟨[1], by decide, by decide⟩
  else if t = "terminate" then ⟨[3], by decide, by decide⟩
  else if t = "notice" then ⟨[9], by decide, by decide⟩
  else default

theorem spans_mean_cause :
    ∃ l, cause.found ["terminate", "notice"] 0
        (.near [.term "terminate", .term "notice"] 5 true) = some l ∧
      cause.asked ["terminate", "notice"] 0
        (.near [.term "terminate", .term "notice"] 5 true) = some (!l.isEmpty) ∧
      l.Pairwise (fun x y => x.start ≤ y.start) ∧
      cause.Law ["terminate", "notice"] 0 (.near [.term "terminate", .term "notice"] 5 true) l ∧
      (l ≠ [] → ∀ ds, SpanTree.candidates (cause.lookup ["terminate", "notice"])
        (.near [.term "terminate", .term "notice"] 5 true) = some ds → 0 ∈ ds) :=
  spans_mean cause ["terminate", "notice"] 0 (.near [.term "terminate", .term "notice"] 5 true)
    ⟨by simp, trivial, trivial, trivial⟩ (by decide)

def far : Segment String := single fun t =>
  if t = "liable" then ⟨[1073741823, 1073741826], by decide, by decide⟩
  else if t = "neither" then ⟨[0], by decide, by decide⟩
  else default

/-- Once the excluded walk has run out, a match is refused that ends less than `post` before where
no more matches stand. -/
theorem far_match_refused : ¬∀ l a b,
    far.found ["liable", "neither"] 0 (.not (.term "liable") (.term "neither") 0 1073741823) =
      some l →
    far.found ["liable", "neither"] 0 (.term "liable") = some a →
    far.found ["liable", "neither"] 0 (.term "neither") = some b →
    l = a.filter (Check.Apart 0 1073741823 b) := by
  intro all
  have exact_ := all [⟨1073741823, 1073741824, 0⟩]
    [⟨1073741823, 1073741824, 0⟩, ⟨1073741826, 1073741827, 0⟩] [⟨0, 1, 0⟩] (by decide) (by decide)
    (by decide)
  exact absurd exact_ (by decide)

end Segment

end Velosearch.Query

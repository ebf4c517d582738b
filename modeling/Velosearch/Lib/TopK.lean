import Mathlib.Data.List.Perm.Basic
import Mathlib.Data.List.Pairwise
import Mathlib.Data.List.Perm.Subperm
import Mathlib.Data.List.Sort
import Mathlib.Data.Set.Basic
import Mathlib.Order.Basic

/-!
# The least of a list

What it is for a list to be `k` least elements of another, under a comparison that orders
the elements at hand and need not order anything else. A list that is cut again and again
as elements come in ends as such if at every cut whatever is given up is covered: `k` of
those kept are no greater.
-/

set_option autoImplicit false

namespace Velosearch.Lib

variable {α β : Type}

/-- The comparison is an order of those items. -/
structure OrdersOn (cmp : α → α → Ordering) (s : Set α) : Prop where
  swap : ∀ a ∈ s, ∀ b ∈ s, cmp b a = (cmp a b).swap
  trans : ∀ a ∈ s, ∀ b ∈ s, ∀ c ∈ s,
    (cmp a b).isLE = true → (cmp b c).isLE = true → (cmp a c).isLE = true

namespace OrdersOn

variable {cmp : α → α → Ordering} {s t : Set α}

theorem mono (h : OrdersOn cmp s) (sub : t ⊆ s) : OrdersOn cmp t where
  swap := fun a ha b hb => h.swap a (sub ha) b (sub hb)
  trans := fun a ha b hb c hc => h.trans a (sub ha) b (sub hb) c (sub hc)

theorem refl (h : OrdersOn cmp s) {a : α} (ha : a ∈ s) : cmp a a = .eq := by
  have own := h.swap a ha a ha
  cases eq : cmp a a with
  | eq => rfl
  | lt => rw [eq] at own; exact nomatch own
  | gt => rw [eq] at own; exact nomatch own

theorem le_of_not_le (h : OrdersOn cmp s) {a b : α} (ha : a ∈ s) (hb : b ∈ s)
    (not : (cmp a b).isLE = false) : (cmp b a).isLE = true := by
  rw [h.swap a ha b hb]
  cases eq : cmp a b with
  | gt => rfl
  | lt => rw [eq] at not; exact nomatch not
  | eq => rw [eq] at not; exact nomatch not

theorem congr {cmp' : α → α → Ordering} (h : OrdersOn cmp s)
    (same : ∀ a ∈ s, ∀ b ∈ s, cmp' a b = cmp a b) : OrdersOn cmp' s where
  swap := fun a ha b hb => by rw [same a ha b hb, same b hb a ha]; exact h.swap a ha b hb
  trans := fun a ha b hb c hc ab bc => by
    rw [same a ha b hb] at ab
    rw [same b hb c hc] at bc
    rw [same a ha c hc]
    exact h.trans a ha b hb c hc ab bc

theorem comap {f : β → α} (h : OrdersOn cmp s) :
    OrdersOn (fun a b => cmp (f a) (f b)) (Set.preimage f s) where
  swap := fun a ha b hb => h.swap (f a) ha (f b) hb
  trans := fun a ha b hb c hc => h.trans (f a) ha (f b) hb (f c) hc

theorem lex {snd : α → α → Ordering} (h : OrdersOn cmp s) (h' : OrdersOn snd s) :
    OrdersOn (fun a b => (cmp a b).then (snd a b)) s where
  swap := fun a ha b hb => by
    rw [h.swap a ha b hb, h'.swap a ha b hb, Ordering.swap_then]
  trans := fun a ha b hb c hc ab bc => by
    have first := h.trans a ha b hb c hc
    have back := h.trans c hc a ha b hb
    have forth := h.trans b hb c hc a ha
    have rest := h'.trans a ha b hb c hc
    rw [h.swap a ha c hc, h.swap b hb c hc] at back
    rw [h.swap a ha b hb, h.swap a ha c hc] at forth
    revert ab bc first back forth rest
    cases cmp a b <;> cases cmp b c <;> cases cmp a c <;> simp [Ordering.then]
    exact fun ab bc both => both ab bc

end OrdersOn

theorem ordersOn_compare [Ord α] [Std.TransOrd α] (s : Set α) : OrdersOn compare s where
  swap := fun _ _ _ _ => Std.OrientedCmp.eq_swap
  trans := fun _ _ _ _ _ _ ab bc => Std.TransCmp.isLE_trans ab bc

/-- Keys compared one after another. -/
def lexCmp : List (β → β → Ordering) → List β → List β → Ordering
  | c :: cs, a :: as, b :: bs => (c a b).then (lexCmp cs as bs)
  | _, _, _ => .eq

theorem lexCmp_congr {cs cs' : List (β → β → Ordering)} {a a' b b' : List β}
    (length : cs.length = cs'.length) (lengthA : a.length = a'.length)
    (lengthB : b.length = b'.length)
    (each : ∀ (i : ℕ) c c' x x' y y', cs[i]? = some c → cs'[i]? = some c' → a[i]? = some x →
      a'[i]? = some x' → b[i]? = some y → b'[i]? = some y' → c x y = c' x' y') :
    lexCmp cs a b = lexCmp cs' a' b' := by
  induction cs generalizing cs' a a' b b' with
  | nil =>
    obtain rfl := List.length_eq_zero_iff.mp length.symm
    rfl
  | cons c cs ih =>
    obtain ⟨c', cs', rfl⟩ := List.exists_cons_of_length_eq_add_one length.symm
    cases a with
    | nil =>
      obtain rfl := List.length_eq_zero_iff.mp lengthA.symm
      rfl
    | cons x a =>
      obtain ⟨x', a', rfl⟩ := List.exists_cons_of_length_eq_add_one lengthA.symm
      cases b with
      | nil =>
        obtain rfl := List.length_eq_zero_iff.mp lengthB.symm
        rfl
      | cons y b =>
        obtain ⟨y', b', rfl⟩ := List.exists_cons_of_length_eq_add_one lengthB.symm
        rw [lexCmp, lexCmp, each 0 c c' x x' y y' rfl rfl rfl rfl rfl rfl,
          ih (Nat.succ.inj length) (Nat.succ.inj lengthA) (Nat.succ.inj lengthB)
            fun i c c' x x' y y' => each (i + 1) c c' x x' y y']

theorem lexCmp_eq {cs : List (β → β → Ordering)} {a b : List β} (h : lexCmp cs a b = .eq)
    {i : ℕ} {c : β → β → Ordering} {x y : β} (hc : cs[i]? = some c) (hx : a[i]? = some x)
    (hy : b[i]? = some y) (lengthA : a.length = cs.length) (lengthB : b.length = cs.length) :
    c x y = .eq := by
  induction cs generalizing a b i with
  | nil => exact nomatch hc
  | cons c' cs ih =>
    obtain ⟨x', a, rfl⟩ := List.exists_cons_of_length_eq_add_one lengthA
    obtain ⟨y', b, rfl⟩ := List.exists_cons_of_length_eq_add_one lengthB
    rw [lexCmp, Ordering.then_eq_eq] at h
    cases i with
    | zero =>
      cases hc
      cases hx
      cases hy
      exact h.1
    | succ i => exact ih h.2 hc hx hy (Nat.succ.inj lengthA) (Nat.succ.inj lengthB)

/-- Orders one after another are an order. -/
theorem ordersOn_lexCmp (cs : List (β → β → Ordering)) (s : Set (List β))
    (sized : ∀ l ∈ s, l.length = cs.length)
    (each : ∀ (i : ℕ) c, cs[i]? = some c → OrdersOn c {v | ∃ l ∈ s, l[i]? = some v}) :
    OrdersOn (lexCmp cs) s := by
  induction cs generalizing s with
  | nil =>
    have same : ∀ a b : List β, lexCmp [] a b = .eq := fun _ _ => rfl
    exact ⟨fun a _ b _ => by rw [same, same]; rfl, fun a _ b _ c _ _ _ => by rw [same]; rfl⟩
  | cons c cs ih =>
    -- every list of the set is a first value and a rest
    have split : ∀ l ∈ s, ∃ x xs, l = x :: xs := fun l hl =>
      List.exists_cons_of_length_eq_add_one (sized l hl)
    have pairs : OrdersOn (fun p q : β × List β => (c p.1 q.1).then (lexCmp cs p.2 q.2))
        {p | p.1 :: p.2 ∈ s} := by
      refine OrdersOn.lex ?_ ?_
      · refine ((each 0 c rfl).comap (f := Prod.fst)).mono ?_
        rintro ⟨x, xs⟩ mem
        exact ⟨x :: xs, mem, rfl⟩
      · refine ((ih {xs | ∃ x, x :: xs ∈ s} ?_ ?_).comap (f := Prod.snd)).mono ?_
        · rintro xs ⟨x, mem⟩
          exact Nat.succ.inj (sized _ mem)
        · intro i c' place
          refine (each (i + 1) c' place).mono ?_
          rintro v ⟨xs, ⟨x, mem⟩, at_⟩
          exact ⟨x :: xs, mem, at_⟩
        · rintro ⟨x, xs⟩ mem
          exact ⟨x, mem⟩
    constructor
    · intro a ha b hb
      obtain ⟨x, xs, rfl⟩ := split a ha
      obtain ⟨y, ys, rfl⟩ := split b hb
      exact pairs.swap (x, xs) ha (y, ys) hb
    · intro a ha b hb d hd
      obtain ⟨x, xs, rfl⟩ := split a ha
      obtain ⟨y, ys, rfl⟩ := split b hb
      obtain ⟨z, zs, rfl⟩ := split d hd
      exact pairs.trans (x, xs) ha (y, ys) hb (z, zs) hd

/-- `k` elements of those kept are no greater than any that was given up. -/
def Covers (cmp : α → α → Ordering) (k : Nat) (kept dropped : List α) : Prop :=
  ∀ d ∈ dropped, k ≤ kept.countP fun a => (cmp a d).isLE

/-- `k` least elements of a list, or all of them where there are no more. -/
def IsTopK (cmp : α → α → Ordering) (k : Nat) (l kept : List α) : Prop :=
  ∃ dropped, l.Perm (kept ++ dropped) ∧ kept.length = min k l.length ∧
    ∀ a ∈ kept, ∀ d ∈ dropped, (cmp a d).isLE = true

section Covers

variable {cmp : α → α → Ordering} {k : Nat} {s : Set α} {l kept rest dropped : List α}

theorem Covers.nil : Covers cmp k kept [] :=
  fun _ h => nomatch h

/-- What is dropped in two parts. -/
theorem Covers.append {more : List α} (h : Covers cmp k kept dropped)
    (h' : Covers cmp k kept more) : Covers cmp k kept (dropped ++ more) := by
  intro d mem
  rcases List.mem_append.mp mem with old | new
  · exact h d old
  · exact h' d new

theorem Covers.subperm {kept' : List α} (h : Covers cmp k kept dropped)
    (sub : kept.Subperm kept') : Covers cmp k kept' dropped := by
  intro d mem
  exact le_trans (h d mem) (sub.countP_le _)

theorem Covers.of_le {w d : α} (orders : OrdersOn cmp s) (inside : ∀ a ∈ kept, a ∈ s)
    (hw : w ∈ s) (hd : d ∈ s) (h : Covers cmp k kept [w]) (le : (cmp w d).isLE = true) :
    Covers cmp k kept [d] := by
  intro d' mem
  rw [List.mem_singleton.mp mem]
  refine le_trans (h w (List.mem_singleton.mpr rfl)) (List.countP_mono_left ?_)
  intro a ha aw
  exact orders.trans a (inside a ha) w hw d hd aw le

theorem covers_of_le (size : k ≤ kept.length)
    (le : ∀ a ∈ kept, ∀ d ∈ dropped, (cmp a d).isLE = true) : Covers cmp k kept dropped := by
  intro d mem
  rw [List.countP_eq_length.mpr fun a ha => le a ha d mem]
  exact size

/-- **A cut to `k` least elements** covers what was covered before it, and what it gives up. -/
theorem Covers.cut (orders : OrdersOn cmp s) (inside : ∀ a ∈ l, a ∈ s)
    (gone : ∀ d ∈ dropped, d ∈ s) (h : Covers cmp k l dropped) (perm : l.Perm (kept ++ rest))
    (size : kept.length = k) (le : ∀ a ∈ kept, ∀ d ∈ rest, (cmp a d).isLE = true) :
    Covers cmp k kept (rest ++ dropped) := by
  refine (covers_of_le size.ge le).append fun d mem => ?_
  by_contra fewer
  rw [Nat.not_le, ← size] at fewer
  -- an element that is kept is greater than one given up before, so all the rest are
  obtain ⟨a, ha, above⟩ : ∃ a ∈ kept, (cmp a d).isLE = false := by
    by_contra none
    refine absurd (List.countP_eq_length.mpr fun a ha => ?_) fewer.ne
    by_contra not
    exact none ⟨a, ha, Bool.not_eq_true _ ▸ not⟩
  have as : a ∈ s := inside a (perm.mem_iff.mpr (List.mem_append_left rest ha))
  have noneLeft : rest.countP (fun r => (cmp r d).isLE) = 0 := by
    refine List.countP_eq_zero.mpr fun r hr le' => ?_
    have rs : r ∈ s := inside r (perm.mem_iff.mpr (List.mem_append_right kept hr))
    have := orders.trans a as r rs d (gone d mem) (le a ha r hr) le'
    rw [above] at this
    exact Bool.false_ne_true this
  have covered := h d mem
  rw [perm.countP_eq, List.countP_append, noneLeft, Nat.add_zero] at covered
  omega

/-- The best of a list are those nothing dropped would take the place of. -/
theorem Covers.isTopK (h : Covers cmp k kept dropped) (perm : l.Perm (kept ++ dropped))
    (size : kept.length ≤ k) : IsTopK cmp k l kept := by
  refine ⟨dropped, perm, ?_, fun a ha d mem => ?_⟩
  · have total := perm.length_eq
    rw [List.length_append] at total
    cases dropped with
    | nil => rw [List.length_nil] at total; omega
    | cons d ds =>
      have covered := h d (List.mem_cons_self ..)
      have most := List.countP_le_length (p := fun a => (cmp a d).isLE) (l := kept)
      rw [List.length_cons] at total
      omega
  · have covered := h d mem
    have most := List.countP_le_length (p := fun a => (cmp a d).isLE) (l := kept)
    have all := List.countP_eq_length.mp (le_antisymm most (le_trans size covered))
    exact all a ha

/-- And the other way round. -/
theorem IsTopK.covers (h : IsTopK cmp k l kept) :
    ∃ dropped, l.Perm (kept ++ dropped) ∧ Covers cmp k kept dropped := by
  obtain ⟨dropped, perm, size, le⟩ := h
  refine ⟨dropped, perm, ?_⟩
  cases dropped with
  | nil => exact Covers.nil
  | cons d ds =>
    have total := perm.length_eq
    rw [List.length_append, List.length_cons] at total
    exact covers_of_le (by omega) le

/-- The best of the best of two lists. -/
theorem Covers.both {l' kept' dropped' : List α} (perm : l.Perm (kept ++ dropped))
    (h : Covers cmp k kept dropped) (perm' : l'.Perm (kept' ++ dropped'))
    (h' : Covers cmp k kept' dropped') :
    (l ++ l').Perm ((kept ++ kept') ++ (dropped ++ dropped')) ∧
      Covers cmp k (kept ++ kept') (dropped ++ dropped') := by
  refine ⟨(perm.append perm').trans ?_, Covers.append ?_ ?_⟩
  · rw [List.append_assoc, List.append_assoc]
    refine List.Perm.append_left _ ?_
    rw [← List.append_assoc, ← List.append_assoc]
    exact List.perm_append_comm.append_right dropped'
  · exact h.subperm (List.sublist_append_left ..).subperm
  · exact h'.subperm (List.sublist_append_right ..).subperm

/-- **`k` least elements in their order** are the first `k` of all in their order. -/
theorem IsTopK.eq_take [DecidableEq α] {all inOrder : List α} (h : IsTopK cmp k l kept)
    (perm : all.Perm l) (strict : all.Pairwise fun a b => cmp a b = .lt)
    (swap : ∀ a ∈ l, ∀ b ∈ l, cmp b a = (cmp a b).swap) (perm' : inOrder.Perm kept)
    (sorted : inOrder.Pairwise fun a b => (cmp a b).isLE = true) : inOrder = all.take k := by
  obtain ⟨dropped, split, size, le⟩ := h
  have irrefl : ∀ a ∈ l, cmp a a ≠ .lt := by
    intro a ha lt
    have own := swap a ha a ha
    rw [lt] at own
    exact nomatch own
  have inside : ∀ a ∈ all, a ∈ l := fun a ha => perm.mem_iff.mp ha
  have nodup : all.Nodup := by
    refine List.Pairwise.imp_of_mem ?_ strict
    rintro a b ha - lt rfl
    exact irrefl a (inside a ha) lt
  have whole : all.Perm (inOrder ++ dropped) := perm.trans (split.trans (perm'.symm.append_right _))
  have apart := List.nodup_append.mp (whole.nodup_iff.mp nodup)
  -- what is given up, in the order of all
  obtain ⟨rest, hrest⟩ : ∃ rest, rest = all.filter fun a => a ∉ inOrder := ⟨_, rfl⟩
  have gone : rest.Perm dropped := by
    rw [hrest]
    refine (whole.filter _).trans ?_
    rw [List.filter_append, List.filter_eq_nil_iff.mpr fun a ha => by simpa using ha,
      List.nil_append, List.filter_eq_self.mpr fun d hd => ?_]
    simpa using fun mem => apart.2.2 d mem d hd rfl
  have among : ∀ a ∈ inOrder ++ rest, a ∈ all := by
    intro a ha
    rcases List.mem_append.mp ha with own | own
    · exact whole.mem_iff.mpr (List.mem_append_left _ own)
    · exact whole.mem_iff.mpr (List.mem_append_right _ (gone.mem_iff.mp own))
  -- in a strict order, no two elements are no greater than each other
  have antisymm : ∀ a b, a ∈ inOrder ++ rest → b ∈ all → (cmp a b).isLE = true →
      (cmp b a).isLE = true → a = b := by
    intro a b ha hb ab ba
    by_contra ne
    have either : all.Pairwise fun a b => cmp a b = .lt ∨ cmp b a = .lt :=
      strict.imp fun lt => Or.inl lt
    have symm : Std.Symm fun a b => cmp a b = .lt ∨ cmp b a = .lt := ⟨fun _ _ h => h.symm⟩
    have back := swap a (inside a (among a ha)) b (inside b hb)
    rcases either.forall (among a ha) hb ne with lt | lt
    · rw [back, lt] at ba
      exact nomatch ba
    · have gt : cmp a b = .gt := by
        rw [back] at lt
        exact Ordering.swap_eq_lt.mp lt
      rw [gt] at ab
      exact nomatch ab
  have arranged : (inOrder ++ rest).Pairwise fun a b => (cmp a b).isLE = true := by
    refine List.pairwise_append.mpr ⟨sorted, ?_, fun a ha d hd => ?_⟩
    · rw [hrest]
      exact (strict.sublist List.filter_sublist).imp fun lt => by rw [lt]; rfl
    · exact le a (perm'.mem_iff.mp ha) d (gone.mem_iff.mp hd)
  have eq : inOrder ++ rest = all :=
    List.Perm.eq_of_pairwise antisymm arranged (strict.imp fun lt => by rw [lt]; rfl)
      (((List.Perm.refl inOrder).append gone).trans whole.symm)
  have kept_ : inOrder.length = min k all.length := by
    rw [perm'.length_eq, size, perm.length_eq]
  rw [← eq] at kept_ ⊢
  rw [List.length_append] at kept_
  by_cases fits : k ≤ inOrder.length + rest.length
  · rw [List.take_append_of_le_length (by omega), List.take_of_length_le (by omega)]
  · have none : rest = [] := List.eq_nil_of_length_eq_zero (by omega)
    rw [none, List.append_nil, List.take_of_length_le (by omega)]

/-- **Under another comparison** the elements kept are `k` least as well, unless some element it
puts behind another may be kept while that one is given up. -/
theorem IsTopK.transfer {cmp' : α → α → Ordering} (orders : OrdersOn cmp {a | a ∈ l})
    (h : IsTopK cmp k l kept)
    (agree : ∀ a ∈ l, ∀ b ∈ l, cmp' a b = .gt → (cmp a b).isLE = true →
      (l.countP fun x => cmp x a == .lt) < k → (l.countP fun x => (cmp x b).isLE) ≤ k) :
    IsTopK cmp' k l kept := by
  obtain ⟨dropped, perm, size, le⟩ := h
  refine ⟨dropped, perm, size, fun a ha d hd => ?_⟩
  have hal : a ∈ l := perm.mem_iff.mpr (List.mem_append_left _ ha)
  have hdl : d ∈ l := perm.mem_iff.mpr (List.mem_append_right _ hd)
  by_contra not
  have gt : cmp' a d = .gt := by
    cases eq : cmp' a d with
    | gt => rfl
    | lt | eq =>
      rw [eq] at not
      exact absurd rfl not
  have total := perm.length_eq
  have some_ := List.length_pos_of_mem hd
  rw [List.length_append] at total
  -- only elements that are kept are before one that is kept
  have none : (dropped.countP fun x => cmp x a == .lt) = 0 := by
    refine List.countP_eq_zero.mpr fun r hr lt => ?_
    have swap := orders.swap a hal r (perm.mem_iff.mpr (List.mem_append_right _ hr))
    rw [beq_iff_eq.mp lt] at swap
    have under := le a ha r hr
    rw [Ordering.swap_eq_lt.mp swap.symm] at under
    cases under
  have fewer : (kept.countP fun x => cmp x a == .lt) < kept.length := by
    refine lt_of_le_of_ne List.countP_le_length fun all => ?_
    have own := List.countP_eq_length.mp all a ha
    rw [orders.refl hal] at own
    cases own
  have few : (l.countP fun x => cmp x a == .lt) < k := by
    rw [perm.countP_eq, List.countP_append, none]
    omega
  have most := agree a hal d hdl gt (le a ha d hd) few
  have own : 0 < dropped.countP fun x => (cmp x d).isLE :=
    List.countP_pos_iff.mpr ⟨d, hd, by rw [orders.refl hdl]; rfl⟩
  rw [perm.countP_eq, List.countP_append,
    List.countP_eq_length.mpr fun x hx => le x hx d hd] at most
  omega

end Covers

/-! ## Sorting and selection -/

/-- `sort_by`: elements that compare equal stay in their order. -/
def sortBy (cmp : α → α → Ordering) (l : List α) : List α :=
  (l.attach.insertionSort fun a b => (cmp a.1 b.1).isLE = true).map Subtype.val

theorem sortBy_perm (cmp : α → α → Ordering) (l : List α) : (sortBy cmp l).Perm l := by
  have perm := (l.attach.perm_insertionSort fun a b => (cmp a.1 b.1).isLE = true).map Subtype.val
  rwa [List.attach_map_subtype_val] at perm

/-- Any two compare. -/
theorem OrdersOn.total {cmp : α → α → Ordering} {l : List α} (orders : OrdersOn cmp {a | a ∈ l}) :
    Std.Total fun a b : {x // x ∈ l} => (cmp a.1 b.1).isLE = true := ⟨fun a b => by
  cases le : (cmp a.1 b.1).isLE with
  | true => exact .inl rfl
  | false => exact .inr (orders.le_of_not_le a.2 b.2 le)⟩

theorem OrdersOn.isTrans {cmp : α → α → Ordering} {l : List α}
    (orders : OrdersOn cmp {a | a ∈ l}) :
    IsTrans {x // x ∈ l} fun a b => (cmp a.1 b.1).isLE = true :=
  ⟨fun a b c => orders.trans a.1 a.2 b.1 b.2 c.1 c.2⟩

/-- A sorted list is in order. -/
theorem sortBy_sorted {cmp : α → α → Ordering} {l : List α} (orders : OrdersOn cmp {a | a ∈ l}) :
    (sortBy cmp l).Pairwise fun a b => (cmp a b).isLE = true := by
  have := orders.total
  have := orders.isTrans
  exact List.pairwise_map.mpr (List.pairwise_insertionSort
    (fun a b : {x // x ∈ l} => (cmp a.1 b.1).isLE = true) l.attach)

theorem pairwise_orderedInsert {r R : α → α → Prop} [DecidableRel r] [IsTrans α r] {l : List α}
    (sorted : l.Pairwise r) (a : α) :
    (l.orderedInsert r a).Pairwise R ↔
      (∀ b ∈ l, if r a b then R a b else R b a) ∧ l.Pairwise R := by
  induction l with
  | nil => simp
  | cons b l ih =>
    obtain ⟨least, sorted'⟩ := List.pairwise_cons.mp sorted
    by_cases h : r a b
    · have below : ∀ c ∈ b :: l, r a c := by
        intro c mem
        rcases List.mem_cons.mp mem with rfl | mem
        · exact h
        · exact IsTrans.trans _ _ _ h (least c mem)
      rw [List.orderedInsert_cons_of_le r l h, List.pairwise_cons]
      refine and_congr_left fun _ => forall₂_congr fun c mem => ?_
      rw [if_pos (below c mem)]
    · rw [List.orderedInsert_of_not_le r l h, List.pairwise_cons, ih sorted', List.pairwise_cons]
      simp only [List.mem_orderedInsert, List.forall_mem_cons, if_neg h, forall_eq_or_imp]
      tauto

theorem pairwise_sortBy {cmp : α → α → Ordering} {R : α → α → Prop} {l : List α}
    (orders : OrdersOn cmp {a | a ∈ l}) :
    (sortBy cmp l).Pairwise R ↔
      l.Pairwise fun a b => if (cmp a b).isLE = true then R a b else R b a := by
  have := orders.total
  have := orders.isTrans
  have each : ∀ l' : List {x // x ∈ l},
      (l'.insertionSort fun a b => (cmp a.1 b.1).isLE = true).Pairwise (fun a b => R a.1 b.1) ↔
        l'.Pairwise fun a b => if (cmp a.1 b.1).isLE = true then R a.1 b.1 else R b.1 a.1 := by
    intro l'
    induction l' with
    | nil => simp
    | cons a l' ih =>
      rw [List.insertionSort_cons, pairwise_orderedInsert (List.pairwise_insertionSort _ l'), ih,
        List.pairwise_cons]
      simp only [List.mem_insertionSort]
  unfold sortBy
  rw [List.pairwise_map, each]
  have back := List.pairwise_map (l := l.attach) (f := Subtype.val)
    (R := fun a b => if (cmp a b).isLE = true then R a b else R b a)
  rw [List.attach_map_subtype_val] at back
  exact back.symm

/-- `select_nth_unstable_by`: a list rearranged so that what stands up to a place is no
greater than what stands after it. -/
structure Selection (α : Type) where
  select : (α → α → Ordering) → ℕ → List α → List α
  perm : ∀ cmp i l, (select cmp i l).Perm l
  split : ∀ cmp i l, OrdersOn cmp {a | a ∈ l} → ∀ a ∈ (select cmp i l).take (i + 1),
    ∀ b ∈ (select cmp i l).drop (i + 1), (cmp a b).isLE = true

/-- The selection that sorts. -/
def Selection.sorting (α : Type) : Selection α where
  select := fun cmp _ l => sortBy cmp l
  perm := fun cmp _ l => sortBy_perm cmp l
  split := fun cmp i l orders a ha b hb => by
    have sorted := sortBy_sorted orders
    rw [← List.take_append_drop (i + 1) (sortBy cmp l), List.pairwise_append] at sorted
    exact sorted.2.2 a ha b hb

/-- The best a selection takes are the best. -/
theorem Selection.take_spec (sel : Selection α) {cmp : α → α → Ordering} {k : ℕ} {l : List α}
    (orders : OrdersOn cmp {a | a ∈ l}) (some_ : 0 < k) (long : k ≤ l.length) :
    l.Perm ((sel.select cmp (k - 1) l).take k ++ (sel.select cmp (k - 1) l).drop k) ∧
      ((sel.select cmp (k - 1) l).take k).length = k ∧
      ∀ a ∈ (sel.select cmp (k - 1) l).take k, ∀ b ∈ (sel.select cmp (k - 1) l).drop k,
        (cmp a b).isLE = true := by
  have perm := sel.perm cmp (k - 1) l
  have split := sel.split cmp (k - 1) l orders
  rw [Nat.sub_add_cancel some_] at split
  refine ⟨?_, ?_, split⟩
  · rw [List.take_append_drop]
    exact perm.symm
  · rw [List.length_take, perm.length_eq]
    omega

/-- The greatest element, and of several the last: `max_by`. -/
def maxBy (cmp : α → α → Ordering) : α → List α → α
  | a, [] => a
  | a, b :: l => maxBy cmp (if cmp a b = .gt then a else b) l

theorem maxBy_mem (cmp : α → α → Ordering) (a : α) (l : List α) : maxBy cmp a l ∈ a :: l := by
  induction l generalizing a with
  | nil => exact List.mem_cons_self ..
  | cons b l ih =>
    rw [maxBy]
    have := ih (if cmp a b = .gt then a else b)
    rcases List.mem_cons.mp this with eq | mem
    · rw [eq]
      split <;> simp
    · exact List.mem_cons_of_mem _ (List.mem_cons_of_mem _ mem)

/-- The largest is. -/
theorem le_maxBy {cmp : α → α → Ordering} {s : Set α} (orders : OrdersOn cmp s) (a : α)
    (l : List α) (inside : ∀ b ∈ a :: l, b ∈ s) :
    ∀ b ∈ a :: l, (cmp b (maxBy cmp a l)).isLE = true := by
  induction l generalizing a with
  | nil =>
    intro b mem
    rw [List.mem_singleton.mp mem, maxBy, orders.refl (inside a (List.mem_cons_self ..))]
    rfl
  | cons c l ih =>
    have ha : a ∈ s := inside a (by simp)
    have hc : c ∈ s := inside c (by simp)
    -- the winner of the first two is no less than either of them
    obtain ⟨w, hw⟩ : ∃ w, w = if cmp a c = .gt then a else c := ⟨_, rfl⟩
    have ws : w ∈ s := by rw [hw]; split <;> assumption
    have wins : (cmp a w).isLE = true ∧ (cmp c w).isLE = true := by
      rw [hw]
      by_cases gt : cmp a c = .gt
      · rw [if_pos gt, orders.refl ha, orders.swap a ha c hc, gt]
        exact ⟨rfl, rfl⟩
      · rw [if_neg gt, orders.refl hc]
        exact ⟨by cases eq : cmp a c <;> simp_all, rfl⟩
    have rest : ∀ b ∈ w :: l, b ∈ s := by
      intro b mem
      rcases List.mem_cons.mp mem with rfl | mem
      · exact ws
      · exact inside b (by simp [mem])
    have above := ih w rest
    have top := maxBy_mem cmp w l
    intro b mem
    rw [maxBy, ← hw]
    have first : ∀ b, b ∈ s → (cmp b w).isLE = true → (cmp b (maxBy cmp w l)).isLE = true :=
      fun b hb le => orders.trans b hb w ws _ (rest _ top) le (above w (List.mem_cons_self ..))
    rcases List.mem_cons.mp mem with rfl | mem
    · exact first b ha wins.1
    · rcases List.mem_cons.mp mem with rfl | mem
      · exact first b hc wins.2
      · exact above b (List.mem_cons_of_mem _ mem)

end Velosearch.Lib

import Mathlib.Data.List.Count
import Mathlib.Data.List.Nodup

/-!
# Pages of a list

A list is handed out a page at a time. The marker for the next page is made of the last element of
the one before, and the next page begins with the first element that comes after the marker. The
pages are the list, each element once, just where every marker stands between the end of its page
and the element after it.
-/

set_option autoImplicit false

namespace Velosearch.Pages

/-! ## Definitions -/

section

variable {α β : Type} (after : β → α → Bool) (size : ℕ) (all : List α)

/-- The page behind a mark. -/
def page : Option β → List α
  | none => all.take size
  | some m => (all.filter (after m)).take size

/-- The pages from a marker on, down to an empty one. -/
inductive Walk (mark : α → Option β) : Option β → List (List α) → Prop
  | done {m : Option β} : page after size all m = [] → Walk mark m []
  | turn {m : Option β} {m' : β} {last : α} {ps : List (List α)} :
      (page after size all m).getLast? = some last → mark last = some m' →
      Walk mark (some m') ps → Walk mark m (page after size all m :: ps)

/-- A page ends there. -/
def PageEnd (i : ℕ) : Prop := i < all.length ∧ ((i + 1) % size = 0 ∨ i + 1 = all.length)

/-- The mark of the last item of a page tells what follows it. -/
def Divides (mark : α → Option β) (i : ℕ) : Prop :=
  ∀ last, all[i]? = some last → ∃ m, mark last = some m ∧ after m last = false ∧
    ∀ next, all[i + 1]? = some next → after m next = true

/-- Every page is handed out, and the pages are the list. -/
def Complete (mark : α → Option β) : Prop :=
  ∃ ps, Walk after size all mark none ps ∧ ps.flatten = all

end

/-! ## What comes after a marker -/

section

variable {α β : Type} {after : β → α → Bool} {size : ℕ} {all : List α} {mark : α → Option β}

theorem countP_eq_zero {p : α → Bool} {a : α}
    (upward : (a :: all).Pairwise fun a b => p a → p b) (ha : p a) :
    all.countP (fun a => !p a) = 0 := by
  rw [List.countP_eq_zero]
  intro b hb
  simp [(List.pairwise_cons.mp upward).1 b hb ha]

/-- What is behind a mark is the end of the list. -/
theorem filter_eq_drop {p : α → Bool} (upward : all.Pairwise fun a b => p a → p b) :
    all.filter p = all.drop (all.countP fun a => !p a) := by
  induction all with
  | nil => rfl
  | cons a all ih =>
    obtain ⟨hhead, htail⟩ := List.pairwise_cons.mp upward
    by_cases ha : p a
    · rw [List.filter_cons_of_pos ha, List.countP_cons_of_neg (by simp [ha]),
        countP_eq_zero upward ha, List.filter_eq_self.mpr fun b hb => hhead b hb ha]
      rfl
    · rw [List.filter_cons_of_neg ha, List.countP_cons_of_pos (by simp [ha]), ih htail]
      rfl

theorem after_iff {p : α → Bool} (upward : all.Pairwise fun a b => p a → p b) {i : ℕ} {a : α}
    (hi : all[i]? = some a) : p a ↔ (all.countP fun a => !p a) ≤ i := by
  induction all generalizing i with
  | nil => simp at hi
  | cons b all ih =>
    obtain ⟨hhead, htail⟩ := List.pairwise_cons.mp upward
    cases i with
    | zero =>
      obtain rfl : b = a := by simpa using hi
      by_cases hb : p b
      · simp [hb, countP_eq_zero upward hb]
      · simp [hb]
    | succ i =>
      have hi' : all[i]? = some a := by simpa using hi
      rw [ih htail hi']
      by_cases hb : p b
      · simp [hb, countP_eq_zero upward hb]
      · simp [hb]

/-- How many items are not behind a mark. -/
def cutAt (after : β → α → Bool) (all : List α) (m : β) : ℕ := all.countP fun a => !after m a

theorem cutAt_le (m : β) : cutAt after all m ≤ all.length := List.countP_le_length

/-! ## Places in the list -/

theorem pageEnd_of_page {k i : ℕ} (hk : k % size = 0)
    (hlow : k ≤ i) (hhigh : i < k + size) (hlen : i < all.length) :
    PageEnd size all i ↔ i + 1 = min (k + size) all.length := by
  obtain ⟨q, rfl⟩ := Nat.dvd_of_mod_eq_zero hk
  unfold PageEnd
  constructor
  · intro h
    rcases h.2 with hmod | hend
    · obtain ⟨q', hq'⟩ := Nat.dvd_of_mod_eq_zero hmod
      have hlt : q < q' := by
        by_contra hle
        have := Nat.mul_le_mul_left size (Nat.le_of_not_lt hle)
        omega
      have hle : size * (q + 1) ≤ size * q' := Nat.mul_le_mul_left size hlt
      rw [Nat.mul_succ] at hle
      omega
    · omega
  · intro h
    refine ⟨hlen, ?_⟩
    by_cases hfull : size * q + size ≤ all.length
    · left
      rw [h, Nat.min_eq_left hfull, ← Nat.mul_succ]
      exact Nat.mul_mod_right size (q + 1)
    · right
      omega

theorem getLast_page {k : ℕ} (hsize : 0 < size) (hk : k < all.length) :
    ((all.drop k).take size).getLast? = all[min (k + size) all.length - 1]? := by
  rw [List.getLast?_eq_getElem?, List.length_take, List.length_drop, List.getElem?_take,
    List.getElem?_drop, if_pos (by omega)]
  congr 1
  omega

theorem take_append_rest (k : ℕ) :
    (all.drop k).take size ++ all.drop (min (k + size) all.length) = all.drop k := by
  have hdrop : all.drop (min (k + size) all.length) = (all.drop k).drop size := by
    rw [List.drop_drop]
    by_cases hfull : k + size ≤ all.length
    · rw [Nat.min_eq_left hfull]
    · rw [Nat.min_eq_right (by omega), List.drop_length, List.drop_eq_nil_of_le (by omega)]
  rw [hdrop, List.take_append_drop]

/-! ## The pages -/

variable (upward : ∀ m, all.Pairwise fun a b => after m a → after m b)

include upward

theorem page_some (m : β) :
    page after size all (some m) = (all.drop (cutAt after all m)).take size := by
  show (all.filter (after m)).take size = _
  rw [filter_eq_drop (upward m)]
  rfl

theorem divides_iff {i : ℕ} {last : α} (hi : all[i]? = some last) :
    Divides after all mark i ↔ ∃ m, mark last = some m ∧ cutAt after all m = i + 1 := by
  have hlen : i < all.length := (List.getElem?_eq_some_iff.mp hi).1
  constructor
  · intro h
    obtain ⟨m, hm, hbefore, hnext⟩ := h last hi
    refine ⟨m, hm, ?_⟩
    have hlow : ¬cutAt after all m ≤ i := by
      intro hle
      rw [(after_iff (upward m) hi).mpr hle] at hbefore
      cases hbefore
    have hhigh : cutAt after all m ≤ i + 1 := by
      cases hn : all[i + 1]? with
      | none =>
        have := List.getElem?_eq_none_iff.mp hn
        have : cutAt after all m ≤ all.length := cutAt_le m
        omega
      | some next => exact (after_iff (upward m) hn).mp (hnext next hn)
    omega
  · intro h last' hi'
    obtain rfl : last = last' := Option.some.inj (hi.symm.trans hi')
    obtain ⟨m, hm, hcut⟩ := h
    refine ⟨m, hm, ?_, ?_⟩
    · have hnot : ¬after m last = true := by
        rw [after_iff (upward m) hi]
        show ¬cutAt after all m ≤ i
        omega
      simpa using hnot
    · intro next hn
      rw [after_iff (upward m) hn]
      exact Nat.le_of_eq hcut

/-- Pages one after another are the list, where each mark divides it. -/
theorem walk_of_divides (hsize : 0 < size)
    (hdiv : ∀ i, PageEnd size all i → Divides after all mark i) (n : ℕ) :
    ∀ (k : ℕ) (m : Option β), all.length - k ≤ n → k % size = 0 ∨ all.length ≤ k →
      page after size all m = (all.drop k).take size →
      ∃ ps, Walk after size all mark m ps ∧ ps.flatten = all.drop k := by
  induction n with
  | zero =>
    intro k m hn _ hpage
    have hnil : all.drop k = [] := List.drop_eq_nil_of_le (by omega)
    rw [hnil, List.take_nil] at hpage
    exact ⟨[], .done hpage, hnil.symm⟩
  | succ n ih =>
    intro k m hn hk hpage
    by_cases hlen : all.length ≤ k
    · have hnil : all.drop k = [] := List.drop_eq_nil_of_le hlen
      rw [hnil, List.take_nil] at hpage
      exact ⟨[], .done hpage, hnil.symm⟩
    · have hmod : k % size = 0 := hk.resolve_right hlen
      let i := min (k + size) all.length - 1
      have hi : i < all.length := by omega
      have hend : PageEnd size all i :=
        (pageEnd_of_page hmod (by omega) (by omega) hi).mpr (by omega)
      have hlast : all[i]? = some all[i] := List.getElem?_eq_getElem hi
      obtain ⟨m', hm', hcut⟩ := (divides_iff upward hlast).mp (hdiv i hend)
      have hnext : i + 1 = min (k + size) all.length := by omega
      obtain ⟨ps, hwalk, hflat⟩ := ih (i + 1) (some m') (by omega)
        (by
          rw [hnext]
          by_cases hfull : k + size ≤ all.length
          · left
            rw [Nat.min_eq_left hfull, Nat.add_mod_right, hmod]
          · right
            omega)
        (by rw [page_some upward, hcut])
      refine ⟨_, .turn ?_ hm' hwalk, ?_⟩
      · rw [hpage, getLast_page hsize (by omega)]
        exact hlast
      · rw [List.flatten_cons, hflat, hpage, hnext, take_append_rest]

/-- And only where it does. -/
theorem divides_of_walk (hsize : 0 < size) (distinct : all.Nodup) {m : Option β}
    {ps : List (List α)} (walk : Walk after size all mark m ps) :
    ∀ k, k % size = 0 ∨ all.length ≤ k → page after size all m = (all.drop k).take size →
      ps.flatten = all.drop k → ∀ i, k ≤ i → PageEnd size all i → Divides after all mark i := by
  induction walk with
  | done hpage =>
    intro k _ _ hflat i hi hend
    have hlen := List.drop_eq_nil_iff.mp hflat.symm
    have := hend.1
    omega
  | @turn m m' last ps hlast hmark walk ih =>
    intro k hk hpage hflat i hi hend
    have hlen : k < all.length := by
      by_contra hle
      rw [hpage, List.drop_eq_nil_of_le (by omega), List.take_nil] at hlast
      cases hlast
    have hmod : k % size = 0 := hk.resolve_right (by omega)
    rw [hpage, getLast_page hsize hlen] at hlast
    have hrest : ps.flatten = all.drop (min (k + size) all.length) := by
      rw [List.flatten_cons, hpage] at hflat
      exact List.append_cancel_left (hflat.trans (take_append_rest k).symm)
    -- the next page begins where this one ends: it is not empty before the end, and no element
    -- is twice in the list
    have hcut : cutAt after all m' = min (k + size) all.length := by
      have hle : cutAt after all m' ≤ all.length := cutAt_le m'
      have hpage' : page after size all (some m') =
          (all.drop (cutAt after all m')).take size := page_some upward m'
      cases walk with
      | done hnil =>
        rw [hnil] at hpage'
        have hdrop := List.drop_eq_nil_iff.mp hrest.symm
        have hempty : all.drop (cutAt after all m') = [] := by
          cases hd : all.drop (cutAt after all m') with
          | nil => rfl
          | cons a rest =>
            rw [hd] at hpage'
            cases size with
            | zero => omega
            | succ n => cases hpage'
        have := List.drop_eq_nil_iff.mp hempty
        omega
      | turn hlast' _ _ =>
        rw [hpage'] at hlast'
        have hin : cutAt after all m' < all.length := by
          by_contra hout
          rw [List.drop_eq_nil_of_le (by omega), List.take_nil] at hlast'
          cases hlast'
        rw [List.flatten_cons, hpage'] at hrest
        have hhead := congrArg List.head? hrest
        rw [List.drop_eq_getElem_cons hin] at hhead
        cases hs : size with
        | zero => omega
        | succ n =>
          rw [hs, List.take_succ_cons, List.cons_append, List.head?_cons, List.head?_drop] at hhead
          have hin' := (List.getElem?_eq_some_iff.mp hhead.symm)
          obtain ⟨hlt, heq⟩ := hin'
          exact ((List.Nodup.getElem_inj_iff distinct).mp heq).symm
    by_cases hhere : i < min (k + size) all.length
    · have heq := (pageEnd_of_page hmod hi (by omega) hend.1).mp hend
      have hat : all[i]? = some last := by
        rw [← hlast]
        congr 1
        omega
      exact (divides_iff upward hat).mpr ⟨m', hmark, by omega⟩
    · refine ih (min (k + size) all.length) ?_ ?_ hrest i (by omega) hend
      · by_cases hfull : k + size ≤ all.length
        · left
          rw [Nat.min_eq_left hfull, Nat.add_mod_right, hmod]
        · right
          omega
      · rw [page_some upward, hcut]

/-- Both together. -/
theorem complete_iff (distinct : all.Nodup) :
    Complete after size all mark ↔
      (all ≠ [] → 0 < size) ∧ ∀ i, PageEnd size all i → Divides after all mark i := by
  have hfirst : page after size all none = (all.drop 0).take size := rfl
  constructor
  · intro h
    obtain ⟨ps, walk, hflat⟩ := h
    have hsize : all ≠ [] → 0 < size := by
      intro hne
      by_contra hzero
      obtain rfl : size = 0 := by omega
      cases walk with
      | done => exact hne hflat.symm
      | turn hlast _ _ => cases hlast
    refine ⟨hsize, fun i hend => ?_⟩
    have hne : all ≠ [] := by
      rintro rfl
      exact absurd hend.1 (Nat.not_lt_zero i)
    exact divides_of_walk upward (hsize hne) distinct walk 0 (.inl (Nat.zero_mod size)) hfirst hflat
      i (Nat.zero_le i) hend
  · intro h
    obtain ⟨hsize, hdiv⟩ := h
    by_cases hne : all = []
    · subst hne
      exact ⟨[], .done (List.take_nil), rfl⟩
    · exact walk_of_divides upward (hsize hne) hdiv all.length 0 none (by omega)
        (.inl (Nat.zero_mod size)) hfirst

end

end Velosearch.Pages

import Mathlib.Data.List.Basic
import Mathlib.Data.List.Forall2
import Mathlib.Data.List.Perm.Basic
import Mathlib.Data.List.Pairwise

/-!
# Lists edited at a position, and folds

A list whose entries are looked up by what they say and edited where they stand,
when what is said of it does not depend on their order: an edit is then the picked
entry before the others, and what becomes of it before the same others.
-/

set_option autoImplicit false

namespace Velosearch.Lib

variable {α σ : Type}

/-! ## Picking an entry -/

section Pick

variable {l : List α} {i : ℕ} {a : α}

/-- An entry and the others. -/
theorem perm_pick (h : l[i]? = some a) : l.Perm (a :: l.eraseIdx i) := by
  obtain ⟨hi, rfl⟩ := List.getElem?_eq_some_iff.mp h
  exact (List.getElem_cons_eraseIdx_perm hi).symm

/-- An entry changed, and the others. -/
theorem perm_modify (h : l[i]? = some a) (f : α → α) :
    (l.modify i f).Perm (f a :: l.eraseIdx i) := by
  have hf : (l.modify i f)[i]? = some (f a) := by
    rw [List.getElem?_modify_eq, h]
    rfl
  have := perm_pick hf
  rwa [List.eraseIdx_modify_of_eq] at this

theorem perm_modify_erase {f : α → α} {j : ℕ} {b : α} (h : l[i]? = some a)
    (hj : (l.modify i f)[j]? = some b) (other : b ≠ f a) :
    ∃ rest, l.Perm (a :: b :: rest) ∧ ((l.modify i f).eraseIdx j).Perm (f a :: rest) := by
  have whole : (b :: (l.modify i f).eraseIdx j).Perm (f a :: l.eraseIdx i) :=
    (perm_pick hj).symm.trans (perm_modify h f)
  have hb : b ∈ l.eraseIdx i := by
    rcases List.mem_cons.mp (whole.mem_iff.mp List.mem_cons_self) with hb | hb
    · exact absurd hb other
    · exact hb
  obtain ⟨pre, post, hsplit⟩ := List.append_of_mem hb
  have rest : (l.eraseIdx i).Perm (b :: (pre ++ post)) := by
    rw [hsplit]
    exact List.perm_middle
  refine ⟨pre ++ post, (perm_pick h).trans (rest.cons a), ?_⟩
  have := whole.trans ((rest.cons (f a)).trans (List.Perm.swap b (f a) _))
  exact (List.perm_cons b).mp this

theorem mem_of_mem_eraseIdx {b : α} (h : b ∈ l.eraseIdx i) : b ∈ l :=
  (List.eraseIdx_sublist l i).subset h

theorem found {p : α → Bool} (h : l.findIdx? p = some i) : ∃ a, l[i]? = some a ∧ p a = true := by
  obtain ⟨hi, hp, _⟩ := List.findIdx?_eq_some_iff_getElem.mp h
  exact ⟨_, List.getElem?_eq_getElem hi, hp⟩

theorem found_of_mem {p : α → Bool} (h : a ∈ l) (hp : p a = true) :
    ∃ i, l.findIdx? p = some i := by
  cases hi : l.findIdx? p with
  | some i => exact ⟨i, rfl⟩
  | none =>
    have := List.findIdx?_eq_none_iff.mp hi a h
    rw [hp] at this
    exact absurd this nofun

end Pick

/-- One entry is so, where no two that are apart can be. -/
theorem countP_eq_one {R : α → α → Prop} {p : α → Bool} {l : List α} {a : α}
    (apart : l.Pairwise R) (h : a ∈ l) (hp : p a = true)
    (alone : ∀ b c, R b c → p b = true → p c = true → False) : l.countP p = 1 := by
  induction l with
  | nil => exact absurd h nofun
  | cons b l ih =>
    rw [List.pairwise_cons] at apart
    by_cases hb : p b = true
    · have none : l.countP p = 0 := by
        rw [List.countP_eq_zero]
        exact fun c hc hpc => alone b c (apart.1 c hc) hb hpc
      rw [List.countP_cons_of_pos hb, none]
    · have hl : a ∈ l := by
        rcases List.mem_cons.mp h with rfl | h
        · exact absurd hp hb
        · exact h
      rw [List.countP_cons_of_neg hb]
      exact ih apart.2 hl

/-! ## Lists side by side -/

section Beside

variable {β : Type} {R : α → β → Prop} {l : List α} {m : List β}

theorem beside_right (h : List.Forall₂ R l m) {b : β} (hb : b ∈ m) : ∃ a ∈ l, R a b := by
  induction h with
  | nil => exact absurd hb nofun
  | cons hab _ ih =>
    rcases List.mem_cons.mp hb with rfl | hb
    · exact ⟨_, List.mem_cons_self, hab⟩
    · obtain ⟨a, ha, hr⟩ := ih hb
      exact ⟨a, List.mem_cons_of_mem _ ha, hr⟩

theorem beside_left (h : List.Forall₂ R l m) {a : α} (ha : a ∈ l) : ∃ b ∈ m, R a b :=
  beside_right h.flip ha

theorem countP_beside {p : α → Bool} {q : β → Bool} (h : List.Forall₂ R l m)
    (same : ∀ a b, R a b → q b = p a) : m.countP q = l.countP p := by
  induction h with
  | nil => rfl
  | cons hab _ ih => rw [List.countP_cons, List.countP_cons, ih, same _ _ hab]

theorem pairwise_beside {P : α → α → Prop} {Q : β → β → Prop} (h : List.Forall₂ R l m)
    (same : ∀ a b a' b', R a b → R a' b' → P a a' → Q b b') (apart : l.Pairwise P) :
    m.Pairwise Q := by
  induction h with
  | nil => exact .nil
  | cons hab rest ih =>
    rw [List.pairwise_cons] at apart ⊢
    refine ⟨fun b hb => ?_, ih apart.2⟩
    obtain ⟨a, ha, hr⟩ := beside_right rest hb
    exact same _ _ _ _ hab hr (apart.1 a ha)

theorem beside_mem (h : List.Forall₂ R l m) :
    List.Forall₂ (fun a b => (a ∈ l ∧ b ∈ m) ∧ R a b) l m := by
  induction h with
  | nil => exact .nil
  | cons hab _ ih =>
    refine .cons ⟨⟨List.mem_cons_self, List.mem_cons_self⟩, hab⟩ (ih.imp ?_)
    rintro a b ⟨⟨ha, hb⟩, hr⟩
    exact ⟨⟨List.mem_cons_of_mem _ ha, List.mem_cons_of_mem _ hb⟩, hr⟩

/-- What is in one place of the one list has something in that place of the other. -/
theorem beside_get (h : List.Forall₂ R l m) {i : ℕ} {b : β} (hb : m[i]? = some b) :
    ∃ a, l[i]? = some a ∧ R a b := by
  induction h generalizing i with
  | nil => cases hb
  | cons hab _ ih =>
    cases i with
    | zero =>
      obtain rfl := Option.some.inj hb
      exact ⟨_, rfl, hab⟩
    | succ i => exact ih hb

theorem findIdx?_beside {p : α → Bool} {q : β → Bool} (h : List.Forall₂ R l m)
    (same : ∀ a b, R a b → q b = p a) : m.findIdx? q = l.findIdx? p := by
  induction h with
  | nil => rfl
  | cons hab _ ih => rw [List.findIdx?_cons, List.findIdx?_cons, ih, same _ _ hab]

theorem modify_beside {f : α → α} {g : β → β} (h : List.Forall₂ R l m)
    (keeps : ∀ a b, R a b → R (f a) (g b)) (i : ℕ) :
    List.Forall₂ R (l.modify i f) (m.modify i g) := by
  induction h generalizing i with
  | nil => cases i <;> exact .nil
  | cons hab rest ih =>
    cases i with
    | zero => exact .cons (keeps _ _ hab) rest
    | succ i => exact .cons hab (ih i)

theorem set_beside {a : α} {b : β} (h : List.Forall₂ R l m) (hab : R a b) (i : ℕ) :
    List.Forall₂ R (l.set i a) (m.set i b) := by
  induction h generalizing i with
  | nil => exact .nil
  | cons hcd rest ih =>
    cases i with
    | zero => exact .cons hab rest
    | succ i => exact .cons hcd (ih i)

end Beside

/-! ## Folds -/

/-- What each step keeps, a loop keeps. -/
theorem foldl_keeps {f : σ → α → σ} {I : σ → Prop} {l : List α}
    (step : ∀ s, ∀ a ∈ l, I s → I (f s a)) {s : σ} (h : I s) : I (l.foldl f s) := by
  induction l generalizing s with
  | nil => exact h
  | cons a l ih =>
    exact ih (fun s b hb => step s b (List.mem_cons_of_mem a hb))
      (step s a List.mem_cons_self h)

/-- And what each step does for its item stays done. -/
theorem foldl_reaches {f : σ → α → σ} {I : σ → Prop} {D : α → σ → Prop} {l : List α}
    (step : ∀ s, ∀ a ∈ l, I s → I (f s a) ∧ D a (f s a))
    (stays : ∀ s, ∀ a ∈ l, ∀ b, I s → D b s → D b (f s a)) {s : σ} (h : I s) :
    I (l.foldl f s) ∧ ∀ a ∈ l, D a (l.foldl f s) := by
  induction l generalizing s with
  | nil => exact ⟨h, nofun⟩
  | cons a l ih =>
    obtain ⟨hI, hdone⟩ := step s a List.mem_cons_self h
    have later : ∀ t, ∀ b ∈ l, I t → I (f t b) ∧ D b (f t b) := fun t b hb =>
      step t b (List.mem_cons_of_mem a hb)
    have still : ∀ t, ∀ b ∈ l, ∀ c, I t → D c t → D c (f t b) := fun t b hb =>
      stays t b (List.mem_cons_of_mem a hb)
    obtain ⟨hI', hl⟩ := ih later still hI
    refine ⟨hI', fun b hb => ?_⟩
    rcases List.mem_cons.mp hb with rfl | hb
    · have kept : I (l.foldl f (f s b)) ∧ D b (l.foldl f (f s b)) :=
        foldl_keeps (I := fun t => I t ∧ D b t)
          (fun t c hc ⟨ht, hd⟩ => ⟨(later t c hc ht).1, still t c hc b ht hd⟩) ⟨hI, hdone⟩
      exact kept.2
    · exact hl b hb

end Velosearch.Lib

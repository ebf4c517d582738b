import Mathlib

/-!
# Numbers in digits

A number written with leading noughts to a least width (`padded`), the number some digits spell
(`number`), and a reader that takes digits up to a most (`digits`). Such a reader stops where the
digits of a number end just where the number is not longer than it reads, and is as long or has no
digit after it (`digits_append_iff`).
-/

set_option autoImplicit false

namespace Velosearch.Digits

/-- The number some digits are. -/
def number (ds : List Char) : ℕ := Nat.ofDigitChars 10 ds 0

/-- A number in so many digits. -/
def padded (width v : ℕ) : List Char :=
  List.replicate (width - (Nat.toDigits 10 v).length) '0' ++ Nat.toDigits 10 v

/-- A number in so many digits is that number. -/
@[simp] theorem number_padded (width v : ℕ) : number (padded width v) = v := by
  unfold number padded
  rw [Nat.ofDigitChars_append, Nat.ofDigitChars_replicate_zero, Nat.mul_zero,
    Nat.ofDigitChars_ten_toDigits]

theorem isDigit_padded {width v : ℕ} {c : Char} (h : c ∈ padded width v) : c.isDigit := by
  rcases List.mem_append.mp h with h | h
  · rw [(List.mem_replicate.mp h).2]
    rfl
  · exact Nat.isDigit_of_mem_toDigits (by decide) (by decide) h

theorem padded_ne_nil (width v : ℕ) : padded width v ≠ [] := by
  simp [padded, Nat.toDigits_ne_nil]

/-- It has so many, where there is room. -/
theorem length_padded {width v : ℕ} (h : v < 10 ^ width) (hw : 0 < width) :
    (padded width v).length = width := by
  have hle : (Nat.toDigits 10 v).length ≤ width :=
    (Nat.length_toDigits_le_iff (by decide) hw).mpr h
  unfold padded
  rw [List.length_append, List.length_replicate]
  omega

theorem number_lt {ds : List Char} (h : ∀ c ∈ ds, c.isDigit) : number ds < 10 ^ ds.length := by
  induction ds with
  | nil => decide
  | cons c ds ih =>
    have hds := ih fun c' hc' => h c' (List.mem_cons_of_mem c hc')
    have hc := h c List.mem_cons_self
    have hval : c.toNat - '0'.toNat ≤ 9 := by
      simp only [Char.isDigit, Bool.and_eq_true, decide_eq_true_eq, ge_iff_le] at hc
      have hle : c.val.toNat ≤ 57 := UInt32.le_iff_toNat_le.mp hc.2
      show c.val.toNat - 48 ≤ 9
      omega
    unfold number at hds ⊢
    rw [Nat.ofDigitChars_cons, Nat.ofDigitChars_eq_ofDigitChars_zero, List.length_cons,
      Nat.pow_succ]
    have hmul : 10 ^ ds.length * (10 * 0 + (c.toNat - '0'.toNat)) ≤ 10 ^ ds.length * 9 :=
      Nat.mul_le_mul_left _ (by omega)
    omega

/-- Digits behind others. -/
theorem number_append (ds ds' : List Char) :
    number (ds ++ ds') = 10 ^ ds'.length * number ds + number ds' := by
  unfold number
  rw [Nat.ofDigitChars_append, Nat.ofDigitChars_eq_ofDigitChars_zero]

/-- The first digits of a number. -/
theorem number_take {ds : List Char} (h : ∀ c ∈ ds, c.isDigit) (k : ℕ) :
    number (ds.take k) = number ds / 10 ^ (ds.length - k) := by
  have hdrop : number (ds.drop k) < 10 ^ (ds.length - k) := by
    rw [← List.length_drop]
    exact number_lt fun c hc => h c (List.mem_of_mem_drop hc)
  have hsplit := number_append (ds.take k) (ds.drop k)
  rw [List.take_append_drop, List.length_drop] at hsplit
  rw [hsplit, Nat.mul_add_div (Nat.pow_pos (by decide)), Nat.div_eq_of_lt hdrop, Nat.add_zero]

/-! ## Whole numbers -/

/-- A number with its sign. -/
def signed : ℤ → List Char
  | .ofNat n => Nat.toDigits 10 n
  | .negSucc n => '-' :: Nat.toDigits 10 (n + 1)

theorem number_toDigits (n : ℕ) : number (Nat.toDigits 10 n) = n :=
  Nat.ofDigitChars_ten_toDigits

theorem isDigit_toDigits {n : ℕ} {c : Char} (h : c ∈ Nat.toDigits 10 n) : c.isDigit :=
  Nat.isDigit_of_mem_toDigits (by decide) (by decide) h

theorem mem_signed {n : ℤ} {c : Char} (h : c ∈ signed n) : c.isDigit ∨ c = '-' := by
  cases n with
  | ofNat n => exact .inl (isDigit_toDigits h)
  | negSucc n =>
    cases h with
    | head => exact .inr rfl
    | tail _ h => exact .inl (isDigit_toDigits h)

theorem signed_ne_nil (n : ℤ) : signed n ≠ [] := by
  cases n with
  | ofNat n => exact Nat.toDigits_ne_nil
  | negSucc n => simp [signed]

theorem minus_notMem_toDigits (n : ℕ) : '-' ∉ Nat.toDigits 10 n := by
  intro h
  have := isDigit_toDigits h
  simp at this

/-- No two numbers are written alike. -/
theorem signed_inj {m n : ℤ} (h : signed m = signed n) : m = n := by
  cases m with
  | ofNat m =>
    cases n with
    | ofNat n =>
      have := congrArg number h
      rw [signed, signed, number_toDigits, number_toDigits] at this
      rw [this]
    | negSucc n =>
      have : '-' ∈ Nat.toDigits 10 m := by
        rw [signed, signed] at h
        rw [h]
        exact List.mem_cons_self
      exact absurd this (minus_notMem_toDigits m)
  | negSucc m =>
    cases n with
    | ofNat n =>
      have : '-' ∈ Nat.toDigits 10 n := by
        rw [signed, signed] at h
        rw [← h]
        exact List.mem_cons_self
      exact absurd this (minus_notMem_toDigits n)
    | negSucc n =>
      have := congrArg number (List.cons.inj h).2
      rw [number_toDigits, number_toDigits] at this
      rw [Nat.succ.inj this]

/-! ## Reading -/

/-- The digits a text begins with, up to a most. -/
def digits (most : ℕ) (text : List Char) : Option (List Char × List Char) :=
  let ds := (text.takeWhile Char.isDigit).take most
  if ds = [] then none else some (ds, text.drop ds.length)

/-- Digits that end where a reader stops: they are not more than it takes, and as many or before
something else. -/
def Ends (most : ℕ) (ds rest : List Char) : Prop :=
  ds.length ≤ most ∧ (ds.length = most ∨ rest.takeWhile Char.isDigit = [])

instance (most : ℕ) (ds rest : List Char) : Decidable (Ends most ds rest) :=
  inferInstanceAs (Decidable (_ ∧ _))

theorem takeWhile_append_digits {ds : List Char} (h : ∀ c ∈ ds, c.isDigit) (rest : List Char) :
    (ds ++ rest).takeWhile Char.isDigit = ds ++ rest.takeWhile Char.isDigit :=
  List.takeWhile_append_of_pos h

/-- Digits are read to where they end. -/
theorem digits_append {most : ℕ} {ds rest : List Char} (h : ∀ c ∈ ds, c.isDigit) (hne : ds ≠ [])
    (hends : Ends most ds rest) : digits most (ds ++ rest) = some (ds, rest) := by
  obtain ⟨hle, hrest⟩ := hends
  have htake : ((ds ++ rest).takeWhile Char.isDigit).take most = ds := by
    rw [takeWhile_append_digits h]
    rcases hrest with heq | hnil
    · rw [← heq, List.take_left']
      rfl
    · rw [hnil, List.append_nil, List.take_of_length_le hle]
  unfold digits
  rw [htake, if_neg hne, List.drop_left]

/-- That is, where no more follow or there are enough. -/
theorem digits_append_iff {most : ℕ} {ds rest : List Char} (h : ∀ c ∈ ds, c.isDigit)
    (hne : ds ≠ []) : (∃ x, digits most (ds ++ rest) = some (x, rest)) ↔ Ends most ds rest := by
  constructor
  · intro hread
    obtain ⟨x, hx⟩ := hread
    unfold digits at hx
    rw [takeWhile_append_digits h] at hx
    simp only at hx
    split at hx
    · cases hx
    · obtain ⟨_, hdrop⟩ := Prod.mk.inj (Option.some.inj hx)
      have hlen := congrArg List.length hdrop
      have hle := (List.takeWhile_prefix (l := rest) Char.isDigit).length_le
      rw [List.length_drop, List.length_append, List.length_take, List.length_append] at hlen
      have hpos := List.length_pos_iff.mpr hne
      refine ⟨by omega, ?_⟩
      rcases Nat.eq_or_lt_of_le (show ds.length ≤ most by omega) with heq | hlt
      · exact Or.inl heq
      · refine Or.inr (List.eq_nil_iff_length_eq_zero.mpr ?_)
        omega
  · intro hends
    exact ⟨ds, digits_append h hne hends⟩

end Velosearch.Digits

import Velosearch.Search.Values
import Velosearch.Lib.TopK
import Mathlib.Data.Int.Order.Lemmas

/-!
# The order of sort values

`cmp_asc` compares integers of one kind exactly, numbers of different kinds as doubles, and takes
a double that is no number to be equal to every number. It is an order on the values it is given
unless three of them step over each other: a larger integer comes down to a smaller one by way of
a number both are rounded to, or any number to a smaller one by way of no number.
-/

set_option autoImplicit false

namespace Velosearch.Search

open Velosearch.Lib

/-! ## Rounding keeps the order -/

namespace F64

theorem roundNat_between (n : ℕ) :
    n / 2 ^ (Nat.log2 n - 52) * 2 ^ (Nat.log2 n - 52) ≤ roundNat n ∧
      roundNat n ≤ (n / 2 ^ (Nat.log2 n - 52) + 1) * 2 ^ (Nat.log2 n - 52) := by
  unfold roundNat
  dsimp only
  split
  · exact ⟨Nat.le_refl _, Nat.mul_le_mul_right _ (Nat.le_succ _)⟩
  · split
    · exact ⟨Nat.mul_le_mul_right _ (Nat.le_succ _), Nat.le_refl _⟩
    · exact ⟨Nat.mul_le_mul_right _ (Nat.le_add_right _ _),
        Nat.mul_le_mul_right _ (Nat.add_le_add_left (Nat.le_of_lt_succ (Nat.mod_lt _ (by decide))) _)⟩

theorem roundNat_mono_long {m n : ℕ} (le : m ≤ n) (long : Nat.log2 m - 52 = Nat.log2 n - 52) :
    roundNat m ≤ roundNat n := by
  rcases Nat.lt_or_eq_of_le (Nat.div_le_div_right (c := 2 ^ (Nat.log2 n - 52)) le) with less | same
  · have high := (roundNat_between m).2
    have low := (roundNat_between n).1
    rw [long] at high
    exact high.trans ((Nat.mul_le_mul_right _ less).trans low)
  · have parts := Nat.div_add_mod m (2 ^ (Nat.log2 n - 52))
    have parts' := Nat.div_add_mod n (2 ^ (Nat.log2 n - 52))
    have rests : m % 2 ^ (Nat.log2 n - 52) ≤ n % 2 ^ (Nat.log2 n - 52) := by
      rw [same] at parts
      omega
    have step : ∀ q d : ℕ, q * d ≤ (q + q % 2) * d ∧ (q + q % 2) * d ≤ (q + 1) * d := fun q d =>
      ⟨Nat.mul_le_mul_right _ (Nat.le_add_right _ _),
        Nat.mul_le_mul_right _ (Nat.add_le_add_left (Nat.le_of_lt_succ (Nat.mod_lt _ (by decide))) _)⟩
    have both := step (n / 2 ^ (Nat.log2 n - 52)) (2 ^ (Nat.log2 n - 52))
    unfold roundNat
    dsimp only
    rw [long, same]
    split <;> split <;> try split <;> try split
    all_goals omega

theorem roundNat_mono {m n : ℕ} (le : m ≤ n) : roundNat m ≤ roundNat n := by
  by_cases long : Nat.log2 m - 52 = Nat.log2 n - 52
  · exact roundNat_mono_long le long
  · have positive : n ≠ 0 := fun zero => long (by
      subst zero
      rw [Nat.le_zero.mp le])
    have logs : Nat.log2 m ≤ Nat.log2 n := by
      by_cases zero : m = 0
      · rw [zero]
        exact Nat.zero_le _
      · exact (Nat.le_log2 positive).mpr ((Nat.log2_self_le zero).trans le)
    -- the shorter one stays below the power of two the longer one stays above
    have below : m / 2 ^ (Nat.log2 m - 52) + 1 ≤ 2 ^ 53 := by
      refine Nat.succ_le_of_lt ((Nat.div_lt_iff_lt_mul (Nat.two_pow_pos _)).mpr ?_)
      rw [← Nat.pow_add]
      exact (Nat.lt_log2_self (n := m)).trans_le (Nat.pow_le_pow_right (by decide) (by omega))
    have above : 2 ^ 52 ≤ n / 2 ^ (Nat.log2 n - 52) := by
      rw [Nat.le_div_iff_mul_le (Nat.two_pow_pos _), ← Nat.pow_add]
      have whole : 52 + (Nat.log2 n - 52) = Nat.log2 n := by omega
      rw [whole]
      exact Nat.log2_self_le positive
    have powers : 2 ^ 53 * 2 ^ (Nat.log2 m - 52) ≤ 2 ^ 52 * 2 ^ (Nat.log2 n - 52) := by
      rw [← Nat.pow_add, ← Nat.pow_add]
      exact Nat.pow_le_pow_right (by decide) (by omega)
    calc roundNat m ≤ _ := (roundNat_between m).2
      _ ≤ 2 ^ 53 * 2 ^ (Nat.log2 m - 52) := Nat.mul_le_mul_right _ below
      _ ≤ 2 ^ 52 * 2 ^ (Nat.log2 n - 52) := powers
      _ ≤ _ := Nat.mul_le_mul_right _ above
      _ ≤ roundNat n := (roundNat_between n).1

theorem roundInt_natCast (n : ℕ) : roundInt n = roundNat n := by
  cases n with
  | zero => rfl
  | succ n => exact Int.one_mul _

theorem roundInt_neg (n : ℕ) : roundInt (-n) = -roundNat n := by
  unfold roundInt
  rw [Int.natAbs_neg, Int.sign_neg, Int.neg_mul]
  exact congrArg Neg.neg (roundInt_natCast n)

theorem roundInt_mono {m n : ℤ} (le : m ≤ n) : roundInt m ≤ roundInt n := by
  obtain ⟨a, rfl | rfl⟩ := Int.eq_nat_or_neg m <;> obtain ⟨b, rfl | rfl⟩ := Int.eq_nat_or_neg n
  · rw [roundInt_natCast, roundInt_natCast]
    exact Int.ofNat_le.mpr (roundNat_mono (Int.ofNat_le.mp le))
  · obtain rfl : a = 0 := by omega
    obtain rfl : b = 0 := by omega
    exact Int.le_refl _
  · rw [roundInt_neg, roundInt_natCast]
    omega
  · rw [roundInt_neg, roundInt_neg]
    exact Int.neg_le_neg (Int.ofNat_le.mpr (roundNat_mono (by omega)))

/-! ## Doubles -/

/-- As `partial_cmp` has it, where no order is as good as equal. -/
def Le (x y : F64) : Prop :=
  ((x.partialCmp y).getD .eq).isLE = true

theorem partialCmp_swap (x y : F64) : y.partialCmp x = (x.partialCmp y).map Ordering.swap := by
  cases x <;> cases y
  case fin.fin p q => exact congrArg some Std.OrientedCmp.eq_swap
  all_goals rfl

theorem fin_le {p q : ℚ} : Le (.fin p) (.fin q) ↔ p ≤ q := by
  show (compare p q).isLE = true ↔ _
  rw [Ordering.isLE_iff_ne_gt]
  exact compare_le_iff_le

theorem Le.trans {x y z : F64} (number : y ≠ .nan) (xy : Le x y) (yz : Le y z) : Le x z := by
  cases y with
  | nan => exact absurd rfl number
  | negInf => cases x <;> cases z <;> first | rfl | exact absurd xy Bool.false_ne_true
  | posInf => cases x <;> cases z <;> first | rfl | exact absurd xy Bool.false_ne_true | exact absurd yz Bool.false_ne_true
  | fin q =>
    cases x <;> cases z
    case fin.fin p r => exact fin_le.mpr ((fin_le.mp xy).trans (fin_le.mp yz))
    all_goals first | rfl | exact absurd xy Bool.false_ne_true | exact absurd yz Bool.false_ne_true

theorem Le.antisymm {x y : F64} (number : x ≠ .nan) (number' : y ≠ .nan) (xy : Le x y)
    (yx : Le y x) : x = y := by
  cases x <;> cases y
  case fin.fin p q => exact congrArg F64.fin (le_antisymm (fin_le.mp xy) (fin_le.mp yx))
  all_goals first
    | rfl
    | exact absurd rfl number
    | exact absurd rfl number'
    | exact absurd xy Bool.false_ne_true
    | exact absurd yx Bool.false_ne_true

theorem ofInt_le {m n : ℤ} (le : m ≤ n) : Le (ofInt m) (ofInt n) :=
  fin_le.mpr (by exact_mod_cast roundInt_mono le)

theorem partialCmp_self {x : F64} : (x.partialCmp x).getD .eq = .eq := by
  cases x
  case fin q => exact compare_eq_iff_eq.mpr rfl
  all_goals rfl

end F64

/-! ## Values -/

namespace SortValue

theorem cmpAsc_swap (a b : SortValue) : b.cmpAsc a = (a.cmpAsc b).swap := by
  have doubles : ∀ x y : F64, (y.partialCmp x).getD .eq = ((x.partialCmp y).getD .eq).swap := by
    intro x y
    rw [F64.partialCmp_swap x y]
    cases x.partialCmp y <;> rfl
  cases a <;> cases b
  case i64.i64 i k =>
    show compare k i = (compare i k).swap
    exact Std.OrientedCmp.eq_swap
  case u64.u64 i k =>
    show compare k i = (compare i k).swap
    exact Std.OrientedCmp.eq_swap
  case str.str s t =>
    show compare t s = (compare s t).swap
    exact Std.OrientedCmp.eq_swap
  case i64.u64 i k | u64.i64 i k => exact doubles (F64.ofInt i) (F64.ofInt k)
  case i64.f64 i y | u64.f64 i y => exact doubles (F64.ofInt i) y
  case f64.i64 x k | f64.u64 x k => exact doubles x (F64.ofInt k)
  case f64.f64 x y => exact doubles x y
  all_goals rfl

theorem le_doubles {a b : SortValue} {x y : F64} (ha : a.asF64 = some x) (hb : b.asF64 = some y)
    (le : (a.cmpAsc b).isLE = true) : x.Le y := by
  cases a <;> cases ha <;> cases b <;> cases hb
  case i64.refl.i64.refl i k =>
    exact F64.ofInt_le (compare_le_iff_le.mp (Ordering.isLE_iff_ne_gt.mp le))
  case u64.refl.u64.refl i k =>
    exact F64.ofInt_le (Int.ofNat_le.mpr (compare_le_iff_le.mp (Ordering.isLE_iff_ne_gt.mp le)))
  all_goals exact le

/-- One value is more than another. -/
inductive Exceeds : SortValue → SortValue → Prop
  | i64 {i k : ℤ} : k < i → Exceeds (.i64 i) (.i64 k)
  | u64 {i k : ℕ} : k < i → Exceeds (.u64 i) (.u64 k)
  | double {a c : SortValue} {x z : F64} :
    a.asF64 = some x → c.asF64 = some z → x.partialCmp z = some .gt → Exceeds a c

/-- A number comes down to a smaller one: by way of no number, or from an integer to one of its
kind by way of another kind of number that both are rounded to. -/
inductive Skips : SortValue → SortValue → SortValue → Prop
  | nan {a c : SortValue} : Exceeds a c → Skips a (.f64 .nan) c
  | i64 {i k : ℤ} {b : SortValue} : k < i → (∀ j, b ≠ .i64 j) → b.asF64 = some (F64.ofInt i) →
    F64.ofInt k = F64.ofInt i → Skips (.i64 i) b (.i64 k)
  | u64 {i k : ℕ} {b : SortValue} : k < i → (∀ j, b ≠ .u64 j) → b.asF64 = some (F64.ofInt i) →
    F64.ofInt k = F64.ofInt i → Skips (.u64 i) b (.u64 k)

theorem exceeds_of_gt {a c : SortValue} {x z : F64} (ha : a.asF64 = some x)
    (hc : c.asF64 = some z) (gt : a.cmpAsc c = .gt) : Exceeds a c := by
  have double : (x.partialCmp z).getD .eq = .gt → Exceeds a c := by
    intro gt
    cases cmp : x.partialCmp z with
    | none =>
      rw [cmp] at gt
      cases gt
    | some o =>
      rw [cmp] at gt
      cases gt
      exact .double ha hc cmp
  cases a <;> cases ha <;> cases c <;> cases hc
  case i64.refl.i64.refl i k => exact .i64 (compare_gt_iff_gt.mp gt)
  case u64.refl.u64.refl i k => exact .u64 (compare_gt_iff_gt.mp gt)
  all_goals exact double gt

theorem Exceeds.gt {a c : SortValue} (h : Exceeds a c) : a.cmpAsc c = .gt := by
  cases h with
  | i64 less => exact compare_gt_iff_gt.mpr less
  | u64 less => exact compare_gt_iff_gt.mpr less
  | double ha hc gt =>
    by_contra le
    have le := le_doubles ha hc (Ordering.isLE_iff_ne_gt.mpr le)
    unfold F64.Le at le
    rw [gt] at le
    cases le

theorem Exceeds.numbers {a c : SortValue} (h : Exceeds a c) :
    (∃ x, a.asF64 = some x) ∧ ∃ z, c.asF64 = some z := by
  cases h with
  | i64 less => exact ⟨⟨_, rfl⟩, _, rfl⟩
  | u64 less => exact ⟨⟨_, rfl⟩, _, rfl⟩
  | double ha hc gt => exact ⟨⟨_, ha⟩, _, hc⟩

theorem cmpAsc_nan {a : SortValue} {x : F64} (ha : a.asF64 = some x) :
    a.cmpAsc (.f64 .nan) = .eq ∧ (SortValue.f64 .nan).cmpAsc a = .eq := by
  have eq : a.cmpAsc (.f64 .nan) = .eq := by
    have none : x.partialCmp .nan = none := by cases x <;> rfl
    have doubles : (x.partialCmp .nan).getD .eq = .eq := by rw [none]; rfl
    cases a <;> cases ha <;> exact doubles
  exact ⟨eq, by rw [cmpAsc_swap a, eq]; rfl⟩

theorem cmpAsc_i64 {i : ℤ} {b : SortValue} (other : ∀ j, b ≠ .i64 j)
    (hb : b.asF64 = some (F64.ofInt i)) : (SortValue.i64 i).cmpAsc b = .eq := by
  have self : ((F64.ofInt i).partialCmp (F64.ofInt i)).getD .eq = .eq := F64.partialCmp_self
  cases b with
  | i64 j => exact absurd rfl (other j)
  | u64 k =>
    have same : F64.ofInt k = F64.ofInt i := Option.some.inj hb
    show ((F64.ofInt i).partialCmp (F64.ofInt k)).getD .eq = .eq
    rw [same]
    exact self
  | f64 x => cases hb; exact self
  | str s => cases hb
  | missing => cases hb

theorem cmpAsc_u64 {i : ℕ} {b : SortValue} (other : ∀ j, b ≠ .u64 j)
    (hb : b.asF64 = some (F64.ofInt i)) : (SortValue.u64 i).cmpAsc b = .eq := by
  have self : ((F64.ofInt i).partialCmp (F64.ofInt i)).getD .eq = .eq := F64.partialCmp_self
  cases b with
  | u64 j => exact absurd rfl (other j)
  | i64 k =>
    have same : F64.ofInt k = F64.ofInt i := Option.some.inj hb
    show ((F64.ofInt i).partialCmp (F64.ofInt k)).getD .eq = .eq
    rw [same]
    exact self
  | f64 x => cases hb; exact self
  | str s => cases hb
  | missing => cases hb

theorem Skips.eq {a b c : SortValue} (h : Skips a b c) :
    a.cmpAsc b = .eq ∧ b.cmpAsc c = .eq ∧ a.cmpAsc c = .gt := by
  cases h with
  | nan exceeds =>
    obtain ⟨⟨x, hx⟩, z, hz⟩ := exceeds.numbers
    exact ⟨(cmpAsc_nan hx).1, (cmpAsc_nan hz).2, exceeds.gt⟩
  | i64 less other hb same =>
    refine ⟨cmpAsc_i64 other hb, ?_, compare_gt_iff_gt.mpr less⟩
    rw [cmpAsc_swap (.i64 _) b, cmpAsc_i64 other (same ▸ hb)]
    rfl
  | u64 less other hb same =>
    refine ⟨cmpAsc_u64 other hb, ?_, compare_gt_iff_gt.mpr less⟩
    rw [cmpAsc_swap (.u64 _) b, cmpAsc_u64 other (same ▸ hb)]
    rfl

theorem number_of_le {b c : SortValue} {z : F64} (hc : c.asF64 = some z)
    (le : (b.cmpAsc c).isLE = true) : ∃ y, b.asF64 = some y := by
  cases b with
  | str s => cases c <;> cases hc <;> cases le
  | missing => cases c <;> cases hc <;> cases le
  | i64 | u64 | f64 => exact ⟨_, rfl⟩

theorem skips_of_numbers {a b c : SortValue} {x y z : F64} (ha : a.asF64 = some x)
    (hb : b.asF64 = some y) (hc : c.asF64 = some z) (ab : (a.cmpAsc b).isLE = true)
    (bc : (b.cmpAsc c).isLE = true) (gt : a.cmpAsc c = .gt) : Skips a b c := by
  by_cases number : y = .nan
  · subst number
    have nan : b = .f64 .nan := by
      cases b <;> cases hb
      rfl
    exact nan ▸ .nan (exceeds_of_gt ha hc gt)
  · have xy := le_doubles ha hb ab
    have yz := le_doubles hb hc bc
    -- where the ends are not integers of one kind they are compared as doubles
    have doubles : a.cmpAsc c = (x.partialCmp z).getD .eq → Skips a b c := by
      intro same
      have le : (a.cmpAsc c).isLE = true := same ▸ xy.trans number yz
      rw [gt] at le
      cases le
    have between : ∀ {i k : ℤ}, x = F64.ofInt i → z = F64.ofInt k → k < i →
        y = F64.ofInt i ∧ z = y := by
      rintro i k rfl rfl less
      have zx := F64.ofInt_le less.le
      have some_ : ∀ n, F64.ofInt n ≠ .nan := fun n none => nomatch none
      exact ⟨F64.Le.antisymm number (some_ i) (yz.trans (some_ k) zx) xy,
        F64.Le.antisymm (some_ k) number (zx.trans (some_ i) xy) yz⟩
    cases a <;> cases ha <;> cases c <;> cases hc
    case i64.refl.i64.refl i k =>
      have less := compare_gt_iff_gt.mp gt
      obtain ⟨rfl, same⟩ := between rfl rfl less
      refine .i64 less ?_ hb same
      rintro j rfl
      have down := (compare_le_iff_le.mp (Ordering.isLE_iff_ne_gt.mp ab)).trans
        (compare_le_iff_le.mp (Ordering.isLE_iff_ne_gt.mp bc))
      exact absurd down (not_le.mpr less)
    case u64.refl.u64.refl i k =>
      have less := compare_gt_iff_gt.mp gt
      obtain ⟨rfl, same⟩ := between rfl rfl (Int.ofNat_lt.mpr less)
      refine .u64 less ?_ hb same
      rintro j rfl
      have down := (compare_le_iff_le.mp (Ordering.isLE_iff_ne_gt.mp ab)).trans
        (compare_le_iff_le.mp (Ordering.isLE_iff_ne_gt.mp bc))
      exact absurd down (not_le.mpr less)
    all_goals exact doubles rfl

theorem skips_of_down {a b c : SortValue} (ab : (a.cmpAsc b).isLE = true)
    (bc : (b.cmpAsc c).isLE = true) (gt : a.cmpAsc c = .gt) : Skips a b c := by
  have numbers : ∀ z, c.asF64 = some z → Skips a b c := by
    intro z hc
    obtain ⟨y, hb⟩ := number_of_le hc bc
    obtain ⟨x, ha⟩ := number_of_le hb ab
    exact skips_of_numbers ha hb hc ab bc gt
  cases c with
  | missing => cases a <;> cases gt
  | str t =>
    cases a with
    | missing =>
      cases b <;> first | exact absurd ab Bool.false_ne_true | exact absurd bc Bool.false_ne_true
    | str s =>
      cases b with
      | str r =>
        have down := (ordersOn_compare Set.univ).trans s trivial r trivial t trivial ab bc
        rw [show compare s t = .gt from gt] at down
        cases down
      | missing => cases bc
      | i64 | u64 | f64 => cases ab
    | i64 | u64 | f64 => cases gt
  | i64 | u64 | f64 => exact numbers _ rfl

/-- **The order of sort values** is one on any values of which no three step over each other, and
on no others. -/
theorem cmpAsc_orders_iff (s : Set SortValue) :
    ((∀ a ∈ s, a.cmpAsc a = .eq) ∧ OrdersOn cmpAsc s) ↔
      ∀ a ∈ s, ∀ b ∈ s, ∀ c ∈ s, ¬ Skips a b c := by
  constructor
  · rintro ⟨-, orders⟩ a ha b hb c hc skips
    obtain ⟨ab, bc, gt⟩ := skips.eq
    have le := orders.trans a ha b hb c hc (by rw [ab]; rfl) (by rw [bc]; rfl)
    rw [gt] at le
    cases le
  · intro none
    have orders : OrdersOn cmpAsc s := by
      refine ⟨fun a _ b _ => cmpAsc_swap a b, fun a ha b hb c hc ab bc => ?_⟩
      by_contra down
      rw [Ordering.isLE_iff_ne_gt, not_not] at down
      exact none a ha b hb c hc (skips_of_down ab bc down)
    exact ⟨fun a ha => orders.refl ha, orders⟩

/-- Two integers that are rounded to one double, and that double between them. -/
theorem rounded_steps_down :
    (i64 (2 ^ 53 + 1)).cmpAsc (f64 (.fin (2 ^ 53))) = .eq ∧
      (f64 (.fin (2 ^ 53))).cmpAsc (i64 (2 ^ 53)) = .eq ∧
      (i64 (2 ^ 53 + 1)).cmpAsc (i64 (2 ^ 53)) = .gt := by
  have high : F64.ofInt (2 ^ 53 + 1) = .fin (2 ^ 53) := by
    rw [F64.ofInt, show F64.roundInt (2 ^ 53 + 1) = 2 ^ 53 by decide +kernel]
    norm_num
  have low : F64.ofInt (2 ^ 53) = .fin (2 ^ 53) := by
    rw [F64.ofInt, show F64.roundInt (2 ^ 53) = 2 ^ 53 by decide +kernel]
    norm_num
  have skips : Skips (i64 (2 ^ 53 + 1)) (f64 (.fin (2 ^ 53))) (i64 (2 ^ 53)) :=
    .i64 (by decide) (fun j no => nomatch no) (by rw [high]; rfl) (by rw [low, high])
  exact skips.eq

end SortValue

end Velosearch.Search

import Velosearch.Painless.JavaNumbers

/-!
# The range of whole numbers

Where the values of a script come from, and which of these places may give a number that its type
does not hold. A run is any sequence of them in which each works on values there are.
-/

set_option autoImplicit false

namespace Velosearch
namespace Painless

variable (lent : Lent)

/-- A number within its kind. -/
def InRange : Value → Prop
  | .int n => minI32 ≤ n ∧ n ≤ maxI32
  | .long n => minI64 ≤ n ∧ n ≤ maxI64
  | _ => True

/-! ## Values that are always within -/

theorem toI64_within (d : Double) : minI64 ≤ toI64 d ∧ toI64 d ≤ maxI64 := by
  unfold toI64
  extract_lets exponent fraction size
  simp only [minI64, maxI64]
  split
  · omega
  · split <;> omega

/-- A number that wraps is one of 64 bits. -/
theorem wrap_within (n : ℤ) : minI64 ≤ wrap 64 n ∧ wrap 64 n ≤ maxI64 :=
  long_bounds _

theorem asI32_within (n : ℤ) : minI32 ≤ asI32 n ∧ asI32 n ≤ maxI32 :=
  int_bounds _

theorem parseI64_within {s : String} {n : ℤ} (h : parseI64 s = some n) :
    minI64 ≤ n ∧ n ≤ maxI64 := by
  unfold parseI64 at h
  extract_lets digits size m at h
  split at h
  · split at h
    · obtain rfl : m = n := by simpa using h
      assumption
    · cases h
  · cases h

theorem asI64_within {v : Value} (h : InRange v) {n : ℤ} (eq : v.asI64 = some n) :
    minI64 ≤ n ∧ n ≤ maxI64 := by
  cases v with
  | int m =>
    obtain rfl : m = n := by simpa [Value.asI64] using eq
    simp only [InRange, minI32, maxI32] at h
    simp only [minI64, maxI64]
    omega
  | long m =>
    obtain rfl : m = n := by simpa [Value.asI64] using eq
    exact h
  | float d =>
    obtain rfl : toI64 d = n := by simpa [Value.asI64] using eq
    exact toI64_within d
  | double d =>
    obtain rfl : toI64 d = n := by simpa [Value.asI64] using eq
    exact toI64_within d
  | str s => exact parseI64_within eq
  | _ => cases eq

theorem wholeOut_within {op : String} {x y n : ℤ} (h : wholeOut op true x y = .ok n) :
    minI64 ≤ n ∧ n ≤ maxI64 := by
  have bits (v : BitVec 64) (same : Except.ok v.toInt = (Except.ok n : Except String ℤ)) :
      minI64 ≤ n ∧ n ≤ maxI64 := by
    obtain rfl : v.toInt = n := by simpa using same
    exact long_bounds v
  unfold wholeOut at h
  split at h
  case h_4 | h_5 =>
    split at h
    · cases h
    · exact bits _ h
  case h_12 => cases h
  all_goals exact bits _ h

/-- Whole numbers stay in range. -/
theorem wholeBinary_inRange {op : String} {wide : Bool} {x y : ℤ} {r : Value}
    (h : wholeBinary op wide x y = .ok r) : InRange r := by
  unfold wholeBinary at h
  cases answer : wholeOut op wide x y with
  | error m => simp [answer, Except.map] at h
  | ok n =>
    cases wide with
    | false =>
      obtain rfl : Value.int (asI32 n) = r := by simpa [answer, Except.map] using h
      exact asI32_within n
    | true =>
      obtain rfl : Value.long n = r := by simpa [answer, Except.map] using h
      exact wholeOut_within answer

/-- So do doubles. -/
theorem doubleBinary_inRange {op : String} {single : Bool} {x y : Double} {r : Value}
    (h : doubleBinary lent op single x y = .ok r) : InRange r := by
  unfold doubleBinary at h
  extract_lets out at h
  cases answer : out with
  | error m => simp [answer, Except.map] at h
  | ok d =>
    cases single <;> simp only [answer, Except.map, Except.ok.injEq] at h <;> subst h <;>
      exact trivial

theorem arithmetic_inRange {op : String} {a b r : Value} (h : arithmetic lent op a b = .ok r) :
    InRange r := by
  unfold arithmetic at h
  split at h
  · cases h
  · split at h
    · split at h
      case h_4 => cases h
      all_goals
        cases h
        exact trivial
    · split at h
      · cases h
      · simp only at h
        split at h
        · exact wholeBinary_inRange h
        · exact wholeBinary_inRange h
        · exact doubleBinary_inRange lent h
        · exact doubleBinary_inRange lent h

/-- So does whatever an operator makes. -/
theorem binary_inRange {op : String} {a b r : Value} (h : binary lent op a b = .ok r) :
    InRange r := by
  unfold binary at h
  split at h
  · extract_lets text at h
    split at h
    · cases h
    · cases h
      exact trivial
  · extract_lets same ordered matched at h
    have ordered_inRange {holds : Ordering → Bool} (h : ordered holds = .ok r) : InRange r := by
      simp only [ordered] at h
      split at h
      · cases h
        exact trivial
      · cases h
    have matched_inRange {test : ℕ → String → Bool} (h : matched test = .ok r) : InRange r := by
      simp only [matched] at h
      split at h
      · cases h
        exact trivial
      · cases h
    split at h
    case h_5 | h_6 => exact matched_inRange h
    case h_7 | h_8 | h_9 | h_10 => exact ordered_inRange h
    case h_11 => exact arithmetic_inRange lent h
    all_goals
      cases h
      exact trivial

theorem getD_within {v : Value} (within : InRange v) :
    minI64 ≤ v.asI64.getD 0 ∧ v.asI64.getD 0 ≤ maxI64 := by
  cases eq : v.asI64 with
  | none => simp [minI64, maxI64]
  | some n => simpa using asI64_within within eq

/-- And what is cast. -/
theorem cast_inRange {cls : String} {v r : Value} (within : InRange v)
    (h : cast lent cls v = .ok r) : InRange r := by
  unfold cast at h
  extract_lets refused at h
  split at h
  · split at h
    · cases h
      exact asI32_within _
    · split at h
      · split at h
        · split at h <;> cases h
          exact trivial
        · simp only [refused] at h
          cases h
      · simp only [refused] at h
        cases h
  · split at h
    · split at h
      · cases h
        exact getD_within within
      · cases h
    · split at h
      · split at h <;> cases h
        exact trivial
      · split at h
        · split at h <;> cases h
          exact trivial
        · split at h
          · split at h <;> cases h
            exact within
          · split at h
            · split at h <;> cases h <;> first | exact within | exact trivial
            · cases h
              exact within

/-- A parameter is in range. -/
theorem fromJson_inRange (ref : ℕ) (v : JsonValue) : InRange (fromJson lent ref v) := by
  unfold fromJson
  split
  case h_3 n =>
    split
    · assumption
    · split
      · assumption
      · exact trivial
  all_goals exact trivial

/-! ## Where a value comes from -/

/-- Where a value comes from. -/
inductive Origin where
  | literal (src : List Char)
  | param (ref : ℕ) (v : JsonValue)
  | field (ref : ℕ) (v : JsonValue) (kind : String)
  | unary (op : String) (v : Value)
  | binary (op : String) (a b : Value)
  | compound (op : String) (current rhs : Value)
  | step (delta : ℤ) (current : Value)
  | cast (cls : String) (v : Value)
  | collector (kind : String) (numbers : List Value)
  | other (v : Value)

namespace Origin

/-- The values it is made from. -/
def uses : Origin → List Value
  | .literal _ | .param _ _ | .field _ _ _ | .other _ => []
  | .unary _ v | .step _ v | .cast _ v => [v]
  | .binary _ a b | .compound _ a b => [a, b]
  | .collector _ numbers => numbers

/-- The value of an answer, where there is one. -/
def had (answer : Except String Value) : List Value :=
  match answer with
  | .ok r => [r]
  | .error _ => []

/-- The values it may come to. -/
def answers (checks : Bool) : Origin → List Value
  | .literal src => ((lexNumber lent src).map NumberToken.value).toList
  | .param ref v => [fromJson lent ref v]
  | .field ref v kind => [typed lent (fromJson lent ref v) kind]
  | .unary op v => ((Painless.unary lent checks op v).map had).getD []
  | .binary op a b => had (Painless.binary lent op a b)
  | .compound op a b => had (Painless.compound lent op a b)
  | .step delta v => had (stepped lent delta v)
  | .cast cls v => had (Painless.cast lent cls v)
  | .collector kind numbers => collected lent kind numbers
  | .other v => [v]

/-- A hexadecimal number without an `l` is no larger than an `int`. -/
def Narrow (src : List Char) : Prop :=
  ∀ digits rest n, hexDigits src = some (digits, rest) → hexNumber digits = some n →
    n ≤ maxI32 ∨ rest.head? = some 'l' ∨ rest.head? = some 'L'

def intKinds : List String := ["integer", "short", "byte", "token_count"]

/-- What keeps the answers in range. -/
def Sound : Origin → Prop
  | .literal src => Narrow src
  | .field ref v kind => kind ∈ intKinds →
      ∀ n, (fromJson lent ref v).asI64 = some n → minI32 ≤ n ∧ n ≤ maxI32
  | .unary op v => op = "-" → v ≠ .int minI32
  | .collector kind numbers => kind = "summingInt" →
      minI32 ≤ toI64 (total lent numbers) ∧ toI64 (total lent numbers) ≤ maxI32
  | .other v => InRange v
  | .param _ _ | .binary _ _ _ | .compound _ _ _ | .step _ _ | .cast _ _ => True

end Origin

open Origin

theorem had_inRange {answer : Except String Value} (h : ∀ r, answer = .ok r → InRange r) :
    ∀ r ∈ had answer, InRange r := by
  intro r mem
  cases answer with
  | error m => cases mem
  | ok v =>
    cases List.mem_singleton.mp mem
    exact h r rfl

/-- A number negated is, but for one. -/
theorem unary_inRange_iff (checks : Bool) (op : String) {v : Value} (within : InRange v) :
    (∀ r ∈ (Origin.unary op v).answers lent checks, InRange r) ↔
      (op = "-" → v ≠ .int minI32) := by
  have one {r : Value} : (∀ r' ∈ ((some (Except.ok r : Except String Value)).map had).getD [],
      InRange r') ↔ InRange r := by simp [had]
  simp only [answers]
  unfold Painless.unary
  split
  case h_2 i =>
    simp only [InRange, minI32, maxI32] at within
    have inside : i ≠ minI64 := by
      simp only [minI64]
      omega
    simp only [negI64, if_neg inside, Option.map_some]
    refine one.trans ?_
    simp only [InRange, minI32, maxI32, ne_eq, Value.int.injEq, forall_const]
    omega
  case h_3 i =>
    simp only [InRange, minI64, maxI64] at within
    refine iff_of_true ?_ (by simp)
    unfold negI64
    split
    · split
      · simp
      · rw [Option.map_some, one]
        exact within
    · rw [Option.map_some, one]
      rename_i least
      simp only [minI64] at least
      simp only [InRange, minI64, maxI64]
      omega
  case h_6 i =>
    refine iff_of_true (one.mpr ?_) (by simp)
    simp only [InRange, minI32, maxI32] at within ⊢
    omega
  case h_7 i =>
    refine iff_of_true (one.mpr ?_) (by simp)
    simp only [InRange, minI64, maxI64] at within ⊢
    omega
  case h_10 =>
    refine iff_of_true ?_ ?_
    · split
      · exact one.mpr within
      · simp [had]
    · rintro rfl rfl
      simp_all
  all_goals
    refine iff_of_true ?_ (by simp)
    simp [had, InRange]

/-- A field's value is, where its kind has room for it. -/
theorem typed_inRange_iff {v : Value} (within : InRange v) (kind : String) :
    InRange (typed lent v kind) ↔
      (kind ∈ intKinds → ∀ n, v.asI64 = some n → minI32 ≤ n ∧ n ≤ maxI32) := by
  have apart (h : kind ∉ wholeKinds) (always : InRange (typed lent v kind)) :
      InRange (typed lent v kind) ↔
        (kind ∈ intKinds → ∀ n, v.asI64 = some n → minI32 ≤ n ∧ n ≤ maxI32) := by
    refine iff_of_true always fun int => absurd ?_ h
    exact List.mem_cons_of_mem _ int
  by_cases date : kind ∈ dateKinds
  · apply apart
    · intro whole
      simp only [dateKinds, List.mem_cons, List.not_mem_nil, or_false] at date
      rcases date with rfl | rfl <;> simp [wholeKinds] at whole
    · simp only [typed, if_pos date]
      split
      · cases lent.parseDate _ with
        | none => exact within
        | some d => exact trivial
      · split
        · exact trivial
        · exact within
  · by_cases whole : kind ∈ wholeKinds
    · simp only [typed, if_neg date, if_pos whole]
      split
      case h_1 n eq =>
        split
        case isTrue long =>
          refine iff_of_true (asI64_within within eq) ?_
          rintro int
          simp [intKinds, long] at int
        case isFalse short =>
          have int : kind ∈ intKinds := (List.mem_cons.mp whole).resolve_left short
          simp [InRange, int, eq]
      case h_2 eq => exact iff_of_true within (by simp [eq])
    · apply apart whole
      simp only [typed, if_neg date, if_neg whole]
      split
      · cases v.asF64 lent with
        | none => exact within
        | some d => exact trivial
      · split
        · cases v.asF64 lent with
          | none => exact within
          | some d => exact trivial
        · split
          · split
            · exact trivial
            · exact within
          · have point {otherwise : Value} (kept : InRange otherwise) :
                InRange (((lent.point v).map Value.map).getD otherwise) := by
              cases lent.point v with
              | none => exact kept
              | some ref => exact trivial
            split
            · split
              · exact point within
              · exact point within
              · exact point trivial
              · exact within
            · split
              · split
                · exact trivial
                · exact within
              · split
                · split
                  · exact trivial
                  · exact within
                · exact within

theorem hexNumber_within {digits : List Char} {n : ℤ} (h : hexNumber digits = some n) :
    0 ≤ n ∧ n ≤ maxI64 := by
  unfold hexNumber at h
  extract_lets m at h
  split at h
  · rename_i held
    obtain rfl : (m : ℤ) = n := by simpa using h
    exact ⟨Int.natCast_nonneg m, held.2⟩
  · cases h

theorem decimalText_digits {src text rest : List Char}
    (h : decimalText src = (text, false, rest)) : ∀ c ∈ text, c.isDigit := by
  simp only [decimalText, Prod.mk.injEq, Bool.or_eq_false_iff, Option.isSome_eq_false_iff,
    Option.isNone_iff_eq_none] at h
  obtain ⟨rfl, ⟨point, exponent⟩, -⟩ := h
  rw [exponent, point]
  intro c mem
  obtain ⟨taken, other⟩ := List.mem_filter.mp mem
  have split := List.takeWhile_append_dropWhile (p := isDigitOrBar) (l := src)
  have size := congrArg List.length split
  rw [List.length_append] at size
  have first : src.take (src.length - (src.dropWhile isDigitOrBar).length) =
      src.takeWhile isDigitOrBar := by
    rw [← size, Nat.add_sub_cancel]
    exact (List.prefix_iff_eq_take.mp (List.takeWhile_prefix _)).symm
  simp only [Option.getD_none] at taken
  rw [first] at taken
  have inside := List.all_eq_true.mp (List.all_takeWhile (p := isDigitOrBar) (l := src)) c taken
  simpa [isDigitOrBar, by simpa using other] using inside

theorem decimal_nonneg {text : List Char} {n : ℤ} (digits : ∀ c ∈ text, c.isDigit)
    (h : decimal text = some n) : 0 ≤ n := by
  have unsigned : (String.ofList text).toList.head? ≠ some '-' := by
    rw [String.toList_ofList]
    intro head
    have digit := digits '-' (List.mem_of_mem_head? head)
    revert digit
    decide
  unfold decimal parseI64 at h
  extract_lets ds size m at h
  split at h
  · split at h
    · obtain rfl : m = n := by simpa using h
      simp only [m, if_neg unsigned]
      exact Int.natCast_nonneg _
    · cases h
  · cases h

/-- A literal is, where it is narrow enough. -/
theorem literal_inRange_iff (src : List Char) :
    (∀ t, lexNumber lent src = some t → InRange t.value) ↔ Narrow src := by
  cases hex : hexDigits src with
  | some p =>
    obtain ⟨digits, rest⟩ := p
    cases number : hexNumber digits with
    | none =>
      refine iff_of_true ?_ ?_
      · simp [lexNumber, hex, number]
      · intro digits' rest' n same held
        obtain ⟨rfl, rfl⟩ : digits = digits' ∧ rest = rest' := by simpa [hex] using same
        rw [number] at held
        cases held
    | some n =>
      obtain ⟨nonneg, within⟩ := hexNumber_within number
      have narrow : Narrow src ↔ (n ≤ maxI32 ∨ rest.head? = some 'l' ∨ rest.head? = some 'L') := by
        refine ⟨fun h => h digits rest n hex number, fun h digits' rest' n' same held => ?_⟩
        obtain ⟨rfl, rfl⟩ : digits = digits' ∧ rest = rest' := by simpa [hex] using same
        obtain rfl : n = n' := by simpa [number] using held
        exact h
      rw [narrow]
      by_cases suffix : rest.head? = some 'l' ∨ rest.head? = some 'L'
      · have long : InRange (.long n) := ⟨Int.le_trans (by decide) nonneg, within⟩
        refine iff_of_true ?_ (.inr suffix)
        simpa [lexNumber, hex, number, suffix, NumberToken.value] using long
      · have int : InRange (.int n) ↔ n ≤ maxI32 :=
          and_iff_right (Int.le_trans (by decide) nonneg)
        simpa [lexNumber, hex, number, suffix, NumberToken.value] using int
  | none =>
    refine iff_of_true ?_ (by simp [Narrow, hex])
    intro t read
    cases parts : decimalText src with
    | mk text more =>
      obtain ⟨point, rest⟩ := more
      simp only [lexNumber, hex, parts] at read
      split at read
      · obtain ⟨n, number, rfl⟩ := Option.map_eq_some_iff.mp read
        exact parseI64_within number
      · obtain ⟨d, -, rfl⟩ := Option.map_eq_some_iff.mp read
        exact trivial
      · obtain ⟨d, -, rfl⟩ := Option.map_eq_some_iff.mp read
        exact trivial
      · split at read
        case isTrue =>
          obtain ⟨d, -, rfl⟩ := Option.map_eq_some_iff.mp read
          exact trivial
        case isFalse whole =>
          obtain ⟨n, number, rfl⟩ := Option.map_eq_some_iff.mp read
          have nonneg := decimal_nonneg
            (decimalText_digits (by simpa [whole] using parts)) number
          split
          · rename_i small
            exact ⟨Int.le_trans (by decide) nonneg, small⟩
          · exact parseI64_within number

/-- And what is collected. -/
theorem collected_inRange_iff (kind : String) (numbers : List Value) :
    (∀ r ∈ collected lent kind numbers, InRange r) ↔ (kind = "summingInt" →
      minI32 ≤ toI64 (total lent numbers) ∧ toI64 (total lent numbers) ≤ maxI32) := by
  unfold collected
  extract_lets doubles mean average least greatest count
  have count_inRange : InRange count := wrap_within _
  have long_inRange (d : Double) : InRange (.long (toI64 d)) := toI64_within d
  split
  case h_2 => simp [InRange]
  all_goals
    refine iff_of_true ?_ (by simp_all)
    simp [count_inRange, long_inRange]
    try trivial

/-- Where a value comes from decides it. -/
theorem Origin.answers_inRange_iff (checks : Bool) {o : Origin} (held : ∀ v ∈ o.uses, InRange v) :
    (∀ r ∈ o.answers lent checks, InRange r) ↔ o.Sound lent := by
  cases o with
  | literal src =>
    have tokens : (∀ r ∈ (Origin.literal src).answers lent checks, InRange r) ↔
        ∀ t, lexNumber lent src = some t → InRange t.value := by
      cases read : lexNumber lent src with
      | none => simp [answers, read]
      | some t => simp [answers, read]
    exact tokens.trans (literal_inRange_iff lent src)
  | param ref v => simp [answers, Sound, fromJson_inRange]
  | field ref v kind =>
    have one := typed_inRange_iff lent (fromJson_inRange lent ref v) kind
    simpa [answers, Sound] using one
  | unary op v => exact unary_inRange_iff lent checks op (held v (List.mem_singleton_self v))
  | binary op a b => exact iff_of_true (had_inRange fun _ => binary_inRange lent) trivial
  | compound op a b => exact iff_of_true (had_inRange fun _ => binary_inRange lent) trivial
  | step delta v => exact iff_of_true (had_inRange fun _ => binary_inRange lent) trivial
  | cast cls v =>
    have within := held v (List.mem_singleton_self v)
    exact iff_of_true (had_inRange fun _ => cast_inRange lent within) trivial
  | collector kind numbers => exact collected_inRange_iff lent kind numbers
  | other v => simp [answers, Sound]

/-! ## Runs -/

/-- A run: its steps, the last one first, and the values there are. -/
inductive Run (checks : Bool) : List Origin → List Value → Prop where
  | start : Run checks [] []
  | next {os : List Origin} {vs : List Value} {o : Origin} (run : Run checks os vs)
      (held : ∀ v ∈ o.uses, v ∈ vs) : Run checks (o :: os) (o.answers lent checks ++ vs)

/-- A whole run, value by value. -/
theorem Run.inRange_iff {checks : Bool} {os : List Origin} {vs : List Value}
    (run : Run lent checks os vs) : (∀ v ∈ vs, InRange v) ↔ ∀ o ∈ os, o.Sound lent := by
  induction run with
  | start => simp
  | @next os vs o run held ih =>
    rw [List.forall_mem_append, List.forall_mem_cons, ← ih]
    constructor
    · rintro ⟨answers, before⟩
      have used := fun v mem => before v (held v mem)
      exact ⟨(Origin.answers_inRange_iff lent checks used).mp answers, before⟩
    · rintro ⟨sound, before⟩
      have used := fun v mem => before v (held v mem)
      exact ⟨(Origin.answers_inRange_iff lent checks used).mpr sound, before⟩

/-- Whole numbers are Java's: in every run all are in range just where each step is sound, and the
operators give what Java gives but for a shift of an `int` by a `long`, an `int` that stores what
came of a `long`, and the negative of a least number. -/
theorem whole_numbers_iff (checks : Bool) :
    (∀ os vs, Run lent checks os vs → ((∀ v ∈ vs, InRange v) ↔ ∀ o ∈ os, o.Sound lent)) ∧
      (∀ op a b, Agrees (JavaOp.java op a b) (binary lent op.text a.value b.value) ↔
        ¬ (op.isShift = true ∧ a.isInt = true ∧ b.isInt = false)) ∧
      (∀ op a b, Agrees (JavaOp.javaCompound op a b) (compound lent op.text a.value b.value) ↔
        ¬ (a.isInt = true ∧ b.isInt = false ∧ (op.java a b).isSome = true)) ∧
      (∀ delta a, delta = 1 ∨ delta = -1 →
        stepped lent delta a.value = .ok (Whole.plus delta a).value) ∧
      (∀ a, unary lent checks "~" a.value = some (.ok (Whole.complement a).value)) ∧
      ∀ a, unary lent checks "-" a.value = some (.ok (Whole.negated a).value) ↔
        ¬ (a = .int (BitVec.intMin 32) ∨ a = .long (BitVec.intMin 64) ∧ checks = true) :=
  ⟨fun _ _ run => run.inRange_iff lent, binary_java lent, compound_java lent,
    fun _ a one => stepped_java lent one a, unary_not lent checks, unary_neg lent checks⟩

def noDoubles : Lent where
  neg d := d
  add d _ := d
  sub d _ := d
  mul d _ := d
  div d _ := d
  rem d _ := d
  least d _ := d
  greatest d _ := d
  zero := 0
  one := 0
  infinity := 0
  single d := d
  ofInt _ := 0
  parse _ := none
  asText _ := ""
  equals _ _ := false
  compare _ _ := none
  isMatch _ _ := false
  matchesWhole _ _ := false
  parseDate _ := none
  point _ := none
  base64 s := s
  address s := s

/-- The run of `-1`. -/
theorem whole_numbers_of_one : InRange (.int (-1)) ∧ InRange (.int 1) := by
  have one : Run noDoubles true [.literal ['1']] [.int 1] := .next .start (by simp [uses])
  have run : Run noDoubles true [.unary "-" (.int 1), .literal ['1']] [.int (-1), .int 1] :=
    .next one (by simp [uses])
  have within := ((whole_numbers_iff noDoubles true).1 _ _ run).mpr ?_
  · simpa using within
  · simp [Sound, Narrow, hexDigits, minI32]

/-- `0xFFFFFFFF` is an `int` larger than any, the negative of the least one is another, and
`1 << 2L` is a `long`. -/
theorem whole_numbers_wider :
    (∃ vs, Run noDoubles true [.literal ['0', 'x', 'F', 'F', 'F', 'F', 'F', 'F', 'F', 'F']] vs ∧
        ∃ v ∈ vs, ¬ InRange v) ∧
      unary noDoubles true "-" (.int minI32) = some (.ok (.int (maxI32 + 1))) ∧
      ¬ Agrees (JavaOp.java .shl (.int 1) (.long 2)) (binary noDoubles "<<" (.int 1) (.long 2)) := by
  refine ⟨⟨[.int 4294967295], .next .start (by simp [uses]), .int 4294967295, by simp, ?_⟩,
    rfl, ?_⟩
  · simp [InRange, maxI32]
  · apply (binary_java noDoubles .shl (.int 1) (.long 2)).not.mpr
    simp [JavaOp.isShift, Whole.isInt]

end Painless
end Velosearch

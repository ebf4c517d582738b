import Velosearch.Store.DateText

/-!
# What a date text means

`means` reads a text as `parse_date_lenient` does and reckons with numbers that have no end. The
code answers just that where every number it meets fits where it is put (`Bears`), and it panics or
cuts a number where one does not.
-/

set_option autoImplicit false

namespace Velosearch.DateText

open Run

/-! ## Operations without bounds -/

/-- So many months on. -/
def monthsLater (dt : OffsetDateTime) (n : ℤ) : Option OffsetDateTime :=
  let y := monthsOn dt n / 12
  let m := monthsOn dt n % 12 + 1
  (Date.fromCalendarDate y m (dayIn dt y m)).map (⟨·, dt.time⟩)

namespace Op

/-- An operation, as it should be. -/
def exact (dt : OffsetDateTime) : Op → Option OffsetDateTime
  | .round unit => (roundDown dt unit).found?
  | .move unit n =>
    match unit with
    | some 'y' => monthsLater dt (n * 12)
    | some 'M' => monthsLater dt n
    | some 'w' => dt.checkedAdd (n * 7 * 86400)
    | some 'd' => dt.checkedAdd (n * 86400)
    | some 'H' | some 'h' => dt.checkedAdd (n * 3600)
    | some 'm' => dt.checkedAdd (n * 60)
    | some 's' => dt.checkedAdd (n * 1)
    | _ => none

/-- The numbers of an operation fit where they are put: a move by months leads to a year of 32
bits, and a shorter one does not leave the years there are. -/
def Bears (dt : OffsetDateTime) : Op → Prop
  | .round _ => True
  | .move unit n =>
    match unit with
    | some 'y' => Fits 32 (monthsOn dt (n * 12) / 12)
    | some 'M' => Fits 32 (monthsOn dt n / 12)
    | some 'w' => (dt.checkedAdd (n * 7 * 86400)).isSome
    | some 'd' => (dt.checkedAdd (n * 86400)).isSome
    | some 'H' | some 'h' => (dt.checkedAdd (n * 3600)).isSome
    | some 'm' => (dt.checkedAdd (n * 60)).isSome
    | some 's' => (dt.checkedAdd (n * 1)).isSome
    | _ => True

end Op

/-- The operations of an expression. -/
def operations (rest : List Char) : List Op × Bool :=
  match rest with
  | [] => ([], true)
  | c :: tail =>
    match h : readOp c tail with
    | none => ([], false)
    | some (op, rest') =>
      have := length_of_readOp h
      (op :: (operations rest').1, (operations rest').2)
termination_by rest.length
decreasing_by all_goals assumption

/-- They are carried out. -/
def reckon (dt : OffsetDateTime) (whole : Bool) : List Op → Option OffsetDateTime
  | [] => if whole then some dt else none
  | op :: ops => (op.exact dt).bind fun dt' => reckon dt' whole ops

/-- None of them leaves the calendar or wraps. -/
def OpsBear (dt : OffsetDateTime) : List Op → Prop
  | [] => True
  | op :: ops => op.Bears dt ∧ ∀ dt', op.exact dt = some dt' → OpsBear dt' ops

/-! ## Texts -/

/-- The time some text means. -/
def timeMeans (t : List Char) : Option Time := do
  let (h, m, sec) ← parseClock (timeText t).1
  let nanos ← (parseFraction (timeText t).2).found?
  Time.fromHmsNano h m sec nanos

/-- The instant some text means. -/
def plainMeans (s : List Char) : Option OffsetDateTime := do
  let date ← parseDay (dayAndTime s).1
  match (dayAndTime s).2 with
  | none => some ⟨date, Time.midnight⟩
  | some t => (timeMeans t).map (⟨date, ·⟩)

/-- The text can be cut where it is. -/
def CutBears (s : List Char) : Prop := byteLen s ≤ 9 ∨ ∃ d, d <+: s ∧ byteLen d = 9

/-- A time that can be worked out. -/
def TimeBears (t : List Char) : Prop :=
  ∀ h m sec, parseClock (timeText t).1 = some (h, m, sec) →
    CutBears (trimFraction (timeText t).2) ∧
      ((parseFraction (timeText t).2).found?.isSome → h < 256 ∧ m < 256 ∧ sec < 256)

/-- An instant that can. -/
def PlainBears (s : List Char) : Prop :=
  (parseDay (dayAndTime s).1).isSome → ∀ t, (dayAndTime s).2 = some t → TimeBears t

section Meaning

variable (parseDatetime : List Char → Option OffsetDateTime) (nowUtc : OffsetDateTime)

mutual

/-- What a date means. -/
def means (s : List Char) : Option OffsetDateTime :=
  match parseDatetime s with
  | some dt => some dt
  | none => if isMath s then mathMeans s else plainMeans s
termination_by (s.length, 1)

/-- What an expression means. -/
def mathMeans (s : List Char) : Option OffsetDateTime :=
  match h : splitBars s with
  | some (a, o) =>
    have := length_of_splitBars h
    (means a).bind fun dt => reckon dt (operations o).2 (operations o).1
  | none => (stripNow s).bind fun o => reckon nowUtc (operations o).2 (operations o).1
termination_by (s.length, 0)

end

mutual

/-- Every number met in reading a text fits where it is put. -/
def Bears (s : List Char) : Prop :=
  match parseDatetime s with
  | some _ => True
  | none => if isMath s then MathBears s else PlainBears s
termination_by (s.length, 1)

/-- One that can be worked out. -/
def MathBears (s : List Char) : Prop :=
  match h : splitBars s with
  | some (a, o) =>
    have := length_of_splitBars h
    Bears a ∧ ∀ dt, means parseDatetime nowUtc a = some dt → OpsBear dt (operations o).1
  | none => ∀ o, stripNow s = some o → OpsBear nowUtc (operations o).1
termination_by (s.length, 0)

end

end Meaning

/-! ## Single numbers -/

theorem clean_cut {bits : ℕ} {x : ℤ} : (cut bits x).Clean ↔ Fits bits x := by
  simp [Clean, cut]

theorem cut_eq {bits : ℕ} {x : ℤ} (hb : 0 < bits) (h : Fits bits x) : cut bits x = pure x := by
  have hpow : (2 : ℤ) ^ bits = 2 ^ (bits - 1) * 2 := by
    rw [← Int.pow_succ, Nat.succ_eq_add_one, Nat.sub_add_cancel hb]
  have hmod : Int.bmod x (2 ^ bits) = x := by
    apply Int.bmod_eq_of_le_mul_two
    · push_cast
      unfold Fits at h
      omega
    · push_cast
      unfold Fits at h
      omega
  show (⟨!decide (Fits bits x), .found (Int.bmod x (2 ^ bits))⟩ : Run ℤ) = _
  rw [hmod, decide_eq_true h]
  rfl

theorem clean_asU8 {n : ℕ} : (asU8 n).Clean ↔ n < 256 := by
  simp [Clean, asU8]

theorem asU8_eq {n : ℕ} (h : n < 256) : asU8 n = pure n := by
  show (⟨!decide (n < 256), .found (n % 256)⟩ : Run ℕ) = _
  rw [Nat.mod_eq_of_lt h, decide_eq_true h]
  rfl

/-! ## One operation -/

theorem clean_shiftMonths {dt : OffsetDateTime} {n : ℤ} :
    (shiftMonths dt n).Clean ↔ Fits 32 (monthsOn dt n / 12) := by
  unfold shiftMonths
  constructor
  · intro h
    obtain ⟨htotal, h⟩ := clean_bind.mp h
    have htotal := clean_cut.mp htotal
    obtain ⟨hyear, _⟩ := clean_bind.mp (h _ (by rw [cut_eq (by decide) htotal]; rfl))
    exact clean_cut.mp hyear
  · intro h
    have htotal : Fits 64 (monthsOn dt n) := by
      unfold Fits at h ⊢
      omega
    rw [cut_eq (by decide) htotal, pure_bind, cut_eq (by decide) h, pure_bind]
    simp [clean_bind]

theorem found?_shiftMonths {dt : OffsetDateTime} {n : ℤ} (h : (shiftMonths dt n).Clean) :
    (shiftMonths dt n).found? = monthsLater dt n := by
  have hyear := clean_shiftMonths.mp h
  have htotal : Fits 64 (monthsOn dt n) := by
    unfold Fits at hyear ⊢
    omega
  unfold shiftMonths
  rw [cut_eq (by decide) htotal, pure_bind, cut_eq (by decide) hyear, pure_bind]
  simp only [found?_bind, found?_ofOption, found?_pure]
  exact (Option.map_eq_bind ..).symm

theorem fits_of_checkedAdd {dt : OffsetDateTime} {n : ℤ} (h : (dt.checkedAdd n).isSome) :
    Fits 62 n := by
  have hto := OffsetDateTime.checkedAdd_isSome.mp h
  have hfrom := dt.seconds_within
  have hmin : Date.minNumber = -4371587 := by decide
  have hend : Date.endNumber = 2932897 := by decide
  rw [hmin, hend] at hto hfrom
  unfold Fits
  omega

theorem clean_plus_duration {dt : OffsetDateTime} {u n : ℤ} :
    (duration u n >>= plus dt).Clean ↔ (dt.checkedAdd (n * u)).isSome := by
  constructor
  · intro h
    obtain ⟨hd, h⟩ := clean_bind.mp h
    have hfound : (duration u n).found? = some (n * u) := by
      unfold duration at hd ⊢
      rw [clean_orPanic] at hd
      rw [found?_orPanic]
      split
      · rfl
      · simp_all
    exact clean_orPanic.mp (h _ hfound)
  · intro h
    have hfits : Fits 64 (n * u) := by
      have := fits_of_checkedAdd h
      unfold Fits at this ⊢
      omega
    refine clean_bind.mpr ⟨?_, ?_⟩
    · unfold duration
      rw [if_pos hfits]
      exact clean_orPanic.mpr rfl
    · intro a ha
      unfold duration at ha
      rw [if_pos hfits, found?_orPanic] at ha
      cases ha
      exact clean_orPanic.mpr h

theorem found?_plus_duration {dt : OffsetDateTime} {u n : ℤ}
    (h : (duration u n >>= plus dt).Clean) :
    (duration u n >>= plus dt).found? = dt.checkedAdd (n * u) := by
  obtain ⟨hd, _⟩ := clean_bind.mp h
  unfold duration at hd ⊢
  rw [clean_orPanic] at hd
  rw [found?_bind, found?_orPanic]
  split
  · exact found?_orPanic _
  · simp_all

theorem week_within (d : Date) : (Date.ofNumber (d.number - d.numberDaysFromMonday)).isSome := by
  have hwithin := d.within
  have hmin : Date.minNumber = -4371587 := by decide
  rw [hmin] at hwithin
  unfold Date.ofNumber Date.numberDaysFromMonday
  rw [dif_pos]
  · rfl
  · rw [hmin]
    omega

theorem clean_roundDown (dt : OffsetDateTime) (unit : Option Char) : (roundDown dt unit).Clean := by
  unfold roundDown
  split
  case h_3 =>
    rw [clean_orPanic, Option.isSome_map]
    exact week_within dt.date
  all_goals simp

theorem clean_weeks {dt : OffsetDateTime} {n : ℤ} :
    (cut 64 (n * 7) >>= fun k => duration 86400 k >>= plus dt).Clean ↔
      (dt.checkedAdd (n * 7 * 86400)).isSome := by
  constructor
  · intro h
    obtain ⟨hcut, h⟩ := clean_bind.mp h
    rw [cut_eq (by decide) (clean_cut.mp hcut)] at h
    exact clean_plus_duration.mp (h _ rfl)
  · intro h
    have hfits : Fits 64 (n * 7) := by
      have := fits_of_checkedAdd h
      unfold Fits at this ⊢
      omega
    rw [cut_eq (by decide) hfits, pure_bind]
    exact clean_plus_duration.mpr h

theorem clean_years {dt : OffsetDateTime} {n : ℤ} :
    (cut 64 (n * 12) >>= shiftMonths dt).Clean ↔ Fits 32 (monthsOn dt (n * 12) / 12) := by
  constructor
  · intro h
    obtain ⟨hcut, h⟩ := clean_bind.mp h
    rw [cut_eq (by decide) (clean_cut.mp hcut)] at h
    exact clean_shiftMonths.mp (h _ rfl)
  · intro h
    have hdate := dt.date.inCalendar
    have hfits : Fits 64 (n * 12) := by
      unfold Date.InCalendar at hdate
      unfold Fits monthsOn at h
      unfold Fits
      omega
    rw [cut_eq (by decide) hfits, pure_bind]
    exact clean_shiftMonths.mpr h

theorem clean_applyOp {dt : OffsetDateTime} {op : Op} : (applyOp dt op).Clean ↔ op.Bears dt := by
  cases op with
  | round unit => exact iff_of_true (clean_roundDown dt unit) trivial
  | move unit n =>
    simp only [applyOp, Op.Bears]
    split
    · exact clean_years
    · exact clean_shiftMonths
    · exact clean_weeks
    · exact clean_plus_duration
    · exact clean_plus_duration
    · exact clean_plus_duration
    · exact clean_plus_duration
    · exact clean_plus_duration
    · apply iff_of_true (clean_ofOption none)
      simp_all

theorem found?_applyOp {dt : OffsetDateTime} {op : Op} (h : (applyOp dt op).Clean) :
    (applyOp dt op).found? = op.exact dt := by
  cases op with
  | round unit => rfl
  | move unit n =>
    simp only [applyOp, Op.exact] at h ⊢
    split at h
    · obtain ⟨hcut, h⟩ := clean_bind.mp h
      rw [cut_eq (by decide) (clean_cut.mp hcut)] at h ⊢
      exact found?_shiftMonths (h _ rfl)
    · exact found?_shiftMonths h
    · obtain ⟨hcut, h⟩ := clean_bind.mp h
      rw [cut_eq (by decide) (clean_cut.mp hcut)] at h ⊢
      exact found?_plus_duration (h _ rfl)
    · exact found?_plus_duration h
    · exact found?_plus_duration h
    · exact found?_plus_duration h
    · exact found?_plus_duration h
    · exact found?_plus_duration h
    · simp_all

/-! ## The loop -/

theorem mathLoop_nil (dt : OffsetDateTime) (rounded : Option Char) :
    mathLoop dt rounded [] = pure (dt, rounded) := by
  rw [mathLoop]

theorem mathLoop_refused {c : Char} {tail : List Char} (h : readOp c tail = none)
    (dt : OffsetDateTime) (rounded : Option Char) :
    mathLoop dt rounded (c :: tail) = ofOption none := by
  rw [mathLoop]
  split <;> simp_all

theorem mathLoop_read {c : Char} {tail rest : List Char} {op : Op}
    (h : readOp c tail = some (op, rest)) (dt : OffsetDateTime) (rounded : Option Char) :
    mathLoop dt rounded (c :: tail) =
      applyOp dt op >>= fun dt' => mathLoop dt' (op.rounded rounded) rest := by
  rw [mathLoop]
  split <;> simp_all

theorem operations_refused {c : Char} {tail : List Char} (h : readOp c tail = none) :
    operations (c :: tail) = ([], false) := by
  rw [operations]
  split <;> simp_all

theorem operations_read {c : Char} {tail rest : List Char} {op : Op}
    (h : readOp c tail = some (op, rest)) :
    operations (c :: tail) = (op :: (operations rest).1, (operations rest).2) := by
  rw [operations]
  split <;> simp_all

theorem clean_mathLoop (rest : List Char) (dt : OffsetDateTime) (rounded : Option Char) :
    (mathLoop dt rounded rest).Clean ↔ OpsBear dt (operations rest).1 := by
  induction hn : rest.length using Nat.strongRecOn generalizing rest dt rounded with
  | ind n ih =>
    cases rest with
    | nil =>
      rw [mathLoop_nil, operations]
      exact iff_of_true (clean_pure _) trivial
    | cons c tail =>
      cases hread : readOp c tail with
      | none =>
        rw [mathLoop_refused hread, operations_refused hread]
        exact iff_of_true (clean_ofOption _) trivial
      | some x =>
        obtain ⟨op, rest⟩ := x
        have hlt := length_of_readOp hread
        have hrest : ∀ dt', (mathLoop dt' (op.rounded rounded) rest).Clean ↔
            OpsBear dt' (operations rest).1 :=
          fun dt' => ih _ (hn ▸ hlt) rest dt' _ rfl
        rw [mathLoop_read hread, operations_read hread, clean_bind]
        show _ ↔ op.Bears dt ∧ _
        rw [clean_applyOp]
        apply and_congr_right
        intro hop
        rw [found?_applyOp (clean_applyOp.mpr hop)]
        exact forall_congr' fun dt' => imp_congr_right fun _ => hrest dt'

theorem found?_mathLoop (rest : List Char) (dt : OffsetDateTime) (rounded : Option Char)
    (h : (mathLoop dt rounded rest).Clean) :
    (mathLoop dt rounded rest).found?.map Prod.fst =
      reckon dt (operations rest).2 (operations rest).1 := by
  induction hn : rest.length using Nat.strongRecOn generalizing rest dt rounded with
  | ind n ih =>
    cases rest with
    | nil =>
      rw [mathLoop_nil, operations]
      rfl
    | cons c tail =>
      cases hread : readOp c tail with
      | none =>
        rw [mathLoop_refused hread, operations_refused hread]
        rfl
      | some x =>
        obtain ⟨op, rest⟩ := x
        have hlt := length_of_readOp hread
        rw [mathLoop_read hread] at h ⊢
        obtain ⟨hop, h⟩ := clean_bind.mp h
        rw [operations_read hread, found?_bind]
        rw [found?_applyOp hop] at h ⊢
        show _ = (op.exact dt).bind _
        cases hexact : op.exact dt with
        | none => rfl
        | some dt' => exact ih _ (hn ▸ hlt) rest dt' _ (h dt' hexact) rfl

/-! ## Dates that leave something out -/

theorem byteLen_cons (c : Char) (s : List Char) : byteLen (c :: s) = c.utf8Size + byteLen s := by
  simp [byteLen]

theorem clean_truncate (n : ℕ) (s : List Char) :
    (truncate n s).Clean ↔ byteLen s ≤ n ∨ ∃ d, d <+: s ∧ byteLen d = n := by
  induction s generalizing n with
  | nil =>
    rw [truncate]
    exact iff_of_true (clean_pure _) (Or.inl (by simp [byteLen]))
  | cons c s ih =>
    have hpos := c.utf8Size_pos
    rw [truncate]
    split
    case isTrue hzero =>
      exact iff_of_true (clean_pure _) (Or.inr ⟨[], List.nil_prefix, by simp [byteLen, hzero]⟩)
    case isFalse hzero =>
      split
      case isTrue hle =>
        have hbind : (truncate (n - c.utf8Size) s >>= fun d => pure (c :: d)).Clean ↔
            (truncate (n - c.utf8Size) s).Clean := by
          simp [clean_bind]
        rw [hbind, ih, byteLen_cons]
        apply or_congr
        · omega
        · constructor
          · intro h
            obtain ⟨d, hd, hlen⟩ := h
            exact ⟨c :: d, List.cons_prefix_cons.mpr ⟨rfl, hd⟩, by rw [byteLen_cons]; omega⟩
          · intro h
            obtain ⟨d, hd, hlen⟩ := h
            cases d with
            | nil =>
              have : n = 0 := by simpa [byteLen] using hlen.symm
              exact absurd this hzero
            | cons c' d =>
              obtain ⟨rfl, hd'⟩ := List.cons_prefix_cons.mp hd
              rw [byteLen_cons] at hlen
              exact ⟨d, hd', by omega⟩
      case isFalse hgt =>
        refine iff_of_false (fun h => h.2 rfl) ?_
        intro h
        rcases h with h | h
        · rw [byteLen_cons] at h
          omega
        · obtain ⟨d, hd, hlen⟩ := h
          cases d with
          | nil =>
            have : n = 0 := by simpa [byteLen] using hlen.symm
            exact hzero this
          | cons c' d =>
            obtain ⟨rfl, _⟩ := List.cons_prefix_cons.mp hd
            rw [byteLen_cons] at hlen
            omega

theorem clean_parseFraction (frac : List Char) :
    (parseFraction frac).Clean ↔ CutBears (trimFraction frac) := by
  unfold parseFraction
  split
  case isTrue h =>
    rw [h]
    exact iff_of_true (clean_pure _) (Or.inl (by decide))
  case isFalse h =>
    rw [clean_bind, clean_truncate]
    simp [CutBears]

theorem clean_fields {h m sec nanos : ℕ} :
    (asU8 h >>= fun hour => asU8 m >>= fun minute => asU8 sec >>= fun second =>
      ofOption (Time.fromHmsNano hour minute second nanos)).Clean ↔
      h < 256 ∧ m < 256 ∧ sec < 256 := by
  constructor
  · intro hc
    obtain ⟨hh, hc⟩ := clean_bind.mp hc
    obtain ⟨hm, hc⟩ := clean_bind.mp (hc _ rfl)
    obtain ⟨hs, _⟩ := clean_bind.mp (hc _ rfl)
    exact ⟨clean_asU8.mp hh, clean_asU8.mp hm, clean_asU8.mp hs⟩
  · intro hc
    obtain ⟨hh, hm, hs⟩ := hc
    rw [asU8_eq hh, asU8_eq hm, asU8_eq hs]
    simp

theorem clean_parseTime (t : List Char) : (parseTime t).Clean ↔ TimeBears t := by
  unfold parseTime TimeBears
  rw [clean_bind, found?_ofOption]
  cases hclock : parseClock (timeText t).1 with
  | none => simp
  | some x =>
    obtain ⟨h, m, sec⟩ := x
    constructor
    · intro hc h' m' sec' heq
      cases heq
      obtain ⟨hcut, hfields⟩ := clean_bind.mp (hc.2 _ rfl)
      refine ⟨(clean_parseFraction _).mp hcut, fun hsome => ?_⟩
      obtain ⟨nanos, hnanos⟩ := Option.isSome_iff_exists.mp hsome
      exact clean_fields.mp (hfields nanos hnanos)
    · intro hc
      obtain ⟨hcut, hfields⟩ := hc h m sec rfl
      refine ⟨clean_ofOption _, fun x hx => ?_⟩
      cases hx
      refine clean_bind.mpr ⟨(clean_parseFraction _).mpr hcut, fun nanos hnanos => ?_⟩
      exact clean_fields.mpr (hfields (by rw [hnanos]; rfl))

theorem found?_parseTime {t : List Char} (hclean : (parseTime t).Clean) :
    (parseTime t).found? = timeMeans t := by
  have hbears := (clean_parseTime t).mp hclean
  unfold parseTime timeMeans
  rw [found?_bind, found?_ofOption]
  cases hclock : parseClock (timeText t).1 with
  | none => rfl
  | some x =>
    obtain ⟨h, m, sec⟩ := x
    show (parseFraction _ >>= _ : Run _).found? = (parseFraction _).found?.bind _
    rw [found?_bind]
    cases hfrac : (parseFraction (timeText t).2).found? with
    | none => rfl
    | some nanos =>
      obtain ⟨hh, hm, hs⟩ := (hbears h m sec hclock).2 (by rw [hfrac]; rfl)
      show (asU8 h >>= _ : Run _).found? = Time.fromHmsNano h m sec nanos
      rw [asU8_eq hh, asU8_eq hm, asU8_eq hs]
      simp

theorem clean_parsePlain (s : List Char) : (parsePlain s).Clean ↔ PlainBears s := by
  unfold parsePlain PlainBears
  rw [clean_bind, found?_ofOption]
  cases parseDay (dayAndTime s).1 with
  | none => simp
  | some date =>
    cases (dayAndTime s).2 with
    | none => simp
    | some t => simp [clean_bind, clean_parseTime]

theorem found?_parsePlain {s : List Char} (hclean : (parsePlain s).Clean) :
    (parsePlain s).found? = plainMeans s := by
  unfold parsePlain at hclean ⊢
  unfold plainMeans
  obtain ⟨_, hclean⟩ := clean_bind.mp hclean
  rw [found?_ofOption] at hclean
  rw [found?_bind, found?_ofOption]
  cases hday : parseDay (dayAndTime s).1 with
  | none => rfl
  | some date =>
    have hclean := hclean date hday
    cases hsplit : (dayAndTime s).2 with
    | none => rfl
    | some t =>
      rw [hsplit] at hclean
      have htime := found?_parseTime (clean_bind.mp hclean).1
      show (parseTime t >>= fun time => pure _ : Run _).found? = (timeMeans t).map _
      rw [found?_bind, htime]
      exact (Option.map_eq_bind ..).symm

/-! ## The two functions -/

section Functions

variable (parseDatetime : List Char → Option OffsetDateTime) (nowUtc : OffsetDateTime)

/-- What the two functions do with a text, and what they should. -/
structure Kept (s : List Char) : Prop where
  clean : (parseDateLenient parseDatetime nowUtc s).Clean ↔ Bears parseDatetime nowUtc s
  found : (parseDateLenient parseDatetime nowUtc s).Clean →
    (parseDateLenient parseDatetime nowUtc s).found? = means parseDatetime nowUtc s
  mathClean : (parseDateMath parseDatetime nowUtc s).Clean ↔ MathBears parseDatetime nowUtc s
  mathFound : (parseDateMath parseDatetime nowUtc s).Clean →
    (parseDateMath parseDatetime nowUtc s).found?.map Prod.fst = mathMeans parseDatetime nowUtc s

variable {parseDatetime nowUtc}

theorem parseDateMath_bars {s a o : List Char} (h : splitBars s = some (a, o)) :
    parseDateMath parseDatetime nowUtc s =
      parseDateLenient parseDatetime nowUtc a >>= fun dt => mathLoop dt none o := by
  rw [parseDateMath]
  split <;> simp_all

theorem parseDateMath_now {s : List Char} (h : splitBars s = none) :
    parseDateMath parseDatetime nowUtc s =
      ofOption (stripNow s) >>= fun o => mathLoop nowUtc none o := by
  rw [parseDateMath]
  split <;> simp_all

theorem mathMeans_bars {s a o : List Char} (h : splitBars s = some (a, o)) :
    mathMeans parseDatetime nowUtc s =
      (means parseDatetime nowUtc a).bind fun dt => reckon dt (operations o).2 (operations o).1 := by
  rw [mathMeans]
  split <;> simp_all

theorem mathMeans_now {s : List Char} (h : splitBars s = none) :
    mathMeans parseDatetime nowUtc s =
      (stripNow s).bind fun o => reckon nowUtc (operations o).2 (operations o).1 := by
  rw [mathMeans]
  split <;> simp_all

theorem mathBears_bars {s a o : List Char} (h : splitBars s = some (a, o)) :
    MathBears parseDatetime nowUtc s ↔ Bears parseDatetime nowUtc a ∧
      ∀ dt, means parseDatetime nowUtc a = some dt → OpsBear dt (operations o).1 := by
  rw [MathBears]
  split <;> simp_all

theorem mathBears_now {s : List Char} (h : splitBars s = none) :
    MathBears parseDatetime nowUtc s ↔
      ∀ o, stripNow s = some o → OpsBear nowUtc (operations o).1 := by
  rw [MathBears]
  split <;> simp_all

theorem math_kept {s : List Char}
    (ih : ∀ a : List Char, a.length < s.length → Kept parseDatetime nowUtc a) :
    ((parseDateMath parseDatetime nowUtc s).Clean ↔ MathBears parseDatetime nowUtc s) ∧
      ((parseDateMath parseDatetime nowUtc s).Clean →
        (parseDateMath parseDatetime nowUtc s).found?.map Prod.fst =
          mathMeans parseDatetime nowUtc s) := by
  cases hbars : splitBars s with
  | some x =>
    obtain ⟨a, o⟩ := x
    have hanchor := ih a (length_of_splitBars hbars)
    rw [parseDateMath_bars hbars, mathBears_bars hbars, mathMeans_bars hbars]
    constructor
    · rw [clean_bind, ← hanchor.clean]
      apply and_congr_right
      intro hclean
      rw [hanchor.found hclean]
      exact forall_congr' fun dt => imp_congr_right fun _ => clean_mathLoop o dt none
    · intro h
      obtain ⟨hclean, hops⟩ := clean_bind.mp h
      rw [found?_bind, hanchor.found hclean]
      rw [hanchor.found hclean] at hops
      cases hmeans : means parseDatetime nowUtc a with
      | none => rfl
      | some dt => exact found?_mathLoop o dt none (hops dt hmeans)
  | none =>
    rw [parseDateMath_now hbars, mathBears_now hbars, mathMeans_now hbars]
    constructor
    · rw [clean_bind, found?_ofOption]
      simp only [clean_ofOption, true_and]
      exact forall_congr' fun o => imp_congr_right fun _ => clean_mathLoop o nowUtc none
    · intro h
      have hops := (clean_bind.mp h).2
      rw [found?_ofOption] at hops
      rw [found?_bind, found?_ofOption]
      cases hstrip : stripNow s with
      | none => rfl
      | some o => exact found?_mathLoop o nowUtc none (hops o hstrip)

theorem kept (s : List Char) : Kept parseDatetime nowUtc s := by
  induction hn : s.length using Nat.strongRecOn generalizing s with
  | ind n ih =>
    obtain ⟨mathClean, mathFound⟩ :=
      math_kept (s := s) fun a ha => ih _ (hn ▸ ha) a rfl
    refine ⟨?_, ?_, mathClean, mathFound⟩
    · rw [parseDateLenient, Bears]
      cases parseDatetime s with
      | some dt => exact iff_of_true (clean_pure dt) trivial
      | none =>
        cases isMath s with
        | true =>
          simp only [if_true]
          rw [clean_bind, ← mathClean]
          simp
        | false => exact clean_parsePlain s
    · rw [parseDateLenient, means]
      cases parseDatetime s with
      | some dt =>
        intro _
        rfl
      | none =>
        cases isMath s with
        | true =>
          simp only [if_true]
          intro h
          obtain ⟨hclean, _⟩ := clean_bind.mp h
          rw [← mathFound hclean, found?_bind]
          simp only [found?_pure]
          exact (Option.map_eq_bind ..).symm
        | false => exact found?_parsePlain

theorem clock_of_plainMeans {s t : List Char} {dt : OffsetDateTime} {h m sec : ℕ}
    (means : plainMeans s = some dt) (ht : (dayAndTime s).2 = some t)
    (hclock : parseClock (timeText t).1 = some (h, m, sec)) :
    dt.time.hour = h ∧ dt.time.minute = m ∧ dt.time.second = sec := by
  obtain ⟨date, _, hdate⟩ := Option.bind_eq_some_iff.mp means
  rw [ht] at hdate
  obtain ⟨time, htime, rfl⟩ := Option.map_eq_some_iff.mp hdate
  unfold timeMeans at htime
  obtain ⟨x, hx, htime⟩ := Option.bind_eq_some_iff.mp htime
  rw [hclock] at hx
  cases hx
  obtain ⟨nanos, _, htime⟩ := Option.bind_eq_some_iff.mp htime
  obtain ⟨hh, hm, hs, _⟩ := Time.fields_of_fromHmsNano htime
  exact ⟨hh, hm, hs⟩

variable (parseDatetime nowUtc)

/-- A text is read without a panic and without a number cut short, the date that is found is the
one that is meant, and one that leaves something out has the hour, the minute and the second that
are written. -/
structure Sound (s : List Char) : Prop where
  lenient : (parseDateLenient parseDatetime nowUtc s).Clean
  math : (parseDateMath parseDatetime nowUtc s).Clean
  date : ∀ dt, (parseDateLenient parseDatetime nowUtc s).found? = some dt →
    means parseDatetime nowUtc s = some dt
  mathDate : ∀ x, (parseDateMath parseDatetime nowUtc s).found? = some x →
    mathMeans parseDatetime nowUtc s = some x.1
  clock : ∀ dt t h m sec, (parseDateLenient parseDatetime nowUtc s).found? = some dt →
    parseDatetime s = none → isMath s = false → (dayAndTime s).2 = some t →
      parseClock (timeText t).1 = some (h, m, sec) →
        dt.time.hour = h ∧ dt.time.minute = m ∧ dt.time.second = sec

end Functions

end Velosearch.DateText

import Velosearch.Store.DatePatterns

/-!
# What a date pattern reads back

A pattern of the letters for year, month, day, hour, minute, second and fraction, with quoted text
and separators, written for a moment and read again. The reader takes up to two digits for most
letters and up to nine for the year and the fraction, whatever the writer wrote: it comes to the end
of each piece with the writer only where the digits of the piece end there (`Stands`).
-/

set_option autoImplicit false

namespace Velosearch.DatePattern

open DateText (Run)
open DateText.Run
open Digits

/-! ## What is shown -/

/-- The letters that are read back. -/
def letters : List Char := ['y', 'M', 'd', 'H', 'm', 's', 'S']

/-- A piece with one of the letters, or without a letter that is not quoted. -/
def Item.Plain : Item → Prop
  | .quoted _ _ => True
  | .run c _ _ => c ∈ letters ∨ c.isAlpha = false

instance (item : Item) : Decidable item.Plain := by
  unfold Item.Plain
  split <;> infer_instance

/-- A fraction of so many digits. -/
def places (n nanos : ℕ) : ℕ := nanos / 10 ^ (9 - min n 9) * 10 ^ (9 - min n 9)

/-- What a letter stands for. -/
def valueOf (t : OffsetDateTime) (c : Char) (n : ℕ) : ℕ :=
  match c with
  | 'y' => t.date.year.toNat
  | 'M' => t.date.month.toNat
  | 'd' => t.date.day.toNat
  | 'H' => t.time.hour
  | 'm' => t.time.minute
  | 's' => t.time.second
  | _ => places n t.time.nanosecond

/-- What an item shows of an instant. -/
def Item.shows (t : OffsetDateTime) (f : Fields) : Item → Fields
  | .quoted _ _ => f
  | .run c n _ => if c ∈ letters then f.set c (valueOf t c n) else f

/-- What a pattern shows of it. -/
def shown (t : OffsetDateTime) (p : List Char) : Fields := (items p).foldl (Item.shows t) start

/-- A moment has what another has, as far as a piece shows it. -/
def Item.Agrees (t r : OffsetDateTime) : Item → Prop
  | .quoted _ _ => True
  | .run c n _ =>
    match c with
    | 'y' => r.date.year = t.date.year
    | 'M' => r.date.month = t.date.month
    | 'd' => r.date.day = t.date.day
    | 'H' => r.time.hour = t.time.hour
    | 'm' => r.time.minute = t.time.minute
    | 's' => r.time.second = t.time.second
    | 'S' => places n r.time.nanosecond = places n t.time.nanosecond
    | _ => True

/-- What a pattern writes for a moment is read as that moment, as far as the pattern shows it. -/
def ReadsBack (t : OffsetDateTime) (p : List Char) : Prop :=
  ∃ r, parseWithPattern (formatWithPattern t p) p = pure r ∧ ∀ item ∈ items p, item.Agrees t r

/-- The reader comes to the end of each piece where the writer did: no digit is read for a letter
that was written for another. -/
def InStep (t : OffsetDateTime) (p : List Char) : Prop :=
  ∀ before after, items p = before ++ after →
    ∃ f, readItems start (formatWithPattern t p) before = some (f, written t after)

/-! ## Where a piece is read -/

/-- What follows an item does not run into it. -/
def Stands (t : OffsetDateTime) (rest : List Char) : Item → Prop
  | .quoted literal closed => ¬(literal = [] ∧ closed)
  | .run c n _ =>
    match c with
    | 'y' => 0 ≤ t.date.year ∧ Ends (if n = 2 then 2 else 9) (padded n t.date.year.toNat) rest
    | 'M' => n < 3 ∧ Ends 2 (padded n t.date.month.toNat) rest
    | 'd' => Ends 2 (padded n t.date.day.toNat) rest
    | 'H' => Ends 2 (padded n t.time.hour) rest
    | 'm' => Ends 2 (padded n t.time.minute) rest
    | 's' => Ends 2 (padded n t.time.second) rest
    | 'S' => Ends 9 ((padded 9 t.time.nanosecond).take (min n 9)) rest
    | _ => True

instance (t : OffsetDateTime) (rest : List Char) (item : Item) : Decidable (Stands t rest item) := by
  unfold Stands
  split
  · infer_instance
  · split <;> infer_instance

/-- That holds of all. -/
def AllStand (t : OffsetDateTime) : List Item → Prop
  | [] => True
  | item :: is => Stands t (written t is) item ∧ AllStand t is

instance decidableAllStand (t : OffsetDateTime) : (is : List Item) → Decidable (AllStand t is)
  | [] => isTrue trivial
  | item :: is =>
    have := decidableAllStand t is
    inferInstanceAs (Decidable (Stands t (written t is) item ∧ AllStand t is))

/-- A fraction, to as many places as a piece shows, is the one of a moment. -/
def Item.Keeps (t : OffsetDateTime) (nanos : ℕ) : Item → Prop
  | .quoted _ _ => True
  | .run c n _ => c = 'S' → places n nanos = places n t.time.nanosecond

instance (t : OffsetDateTime) (nanos : ℕ) (item : Item) : Decidable (item.Keeps t nanos) := by
  unfold Item.Keeps
  split <;> infer_instance

/-- A pattern is one the reader reads by, and each piece of it is read to its end; a year shown
with two letters is not one of the first hundred; the day shown is in the month and the year
shown; and the last fraction is as long as any, or what it leaves out is nought. -/
structure Legible (t : OffsetDateTime) (p : List Char) : Prop where
  pattern : accepted p
  pieces : AllStand t (items p)
  year : ¬((shown t p).number 'y' < 100 ∧ ShortYear p)
  date : Date.InCalendar ((shown t p).number 'y') ((shown t p).number 'M') ((shown t p).number 'd')
  fraction : ∀ item ∈ items p, item.Keeps t ((shown t p).number 'S')

/-! ## One piece -/

theorem readLiteral_append (f : Fields) (literal rest : List Char) :
    readLiteral f literal (literal ++ rest) = some (f, rest) := by
  unfold readLiteral
  rw [if_pos (List.prefix_append literal rest), List.drop_left]

theorem readNumber_append {most : ℕ} {width v : ℕ} {rest : List Char} (f : Fields) (c : Char)
    (h : Ends most (padded width v) rest) :
    readNumber f c most (padded width v ++ rest) = some (f.set c v, rest) := by
  unfold readNumber
  rw [digits_append (fun _ => isDigit_padded) (padded_ne_nil width v) h]
  simp

theorem readNumber_iff {most : ℕ} {width v : ℕ} {rest : List Char} (f : Fields) (c : Char) :
    (∃ f', readNumber f c most (padded width v ++ rest) = some (f', rest)) ↔
      Ends most (padded width v) rest := by
  rw [← digits_append_iff (fun _ => isDigit_padded) (padded_ne_nil width v)]
  unfold readNumber
  constructor
  · intro h
    obtain ⟨f', h⟩ := h
    obtain ⟨x, hx, heq⟩ := Option.map_eq_some_iff.mp h
    obtain ⟨ds, rest'⟩ := x
    obtain ⟨_, rfl⟩ := Prod.mk.inj heq
    exact ⟨ds, hx⟩
  · intro h
    obtain ⟨ds, hx⟩ := h
    exact ⟨_, by rw [hx]; rfl⟩

theorem isDigit_fraction {n nanos : ℕ} {c : Char} (h : c ∈ (padded 9 nanos).take n) :
    c.isDigit :=
  isDigit_padded (List.mem_of_mem_take h)

theorem length_fraction {n nanos : ℕ} (h : nanos < 1000000000) :
    ((padded 9 nanos).take (min n 9)).length = min n 9 := by
  rw [List.length_take, length_padded h (by decide)]
  omega

theorem number_fraction {n nanos : ℕ} (h : nanos < 1000000000) :
    number ((padded 9 nanos).take (min n 9)) * 10 ^ (9 - min n 9) = places n nanos := by
  rw [number_take (fun _ => isDigit_padded), number_padded, length_padded h (by decide)]
  rfl

theorem fraction_ne_nil {n nanos : ℕ} (h : nanos < 1000000000) (hn : 0 < n) :
    (padded 9 nanos).take (min n 9) ≠ [] := by
  intro hnil
  have hlen := length_fraction (n := n) h
  rw [hnil] at hlen
  simp at hlen
  omega

theorem readMonthName_digits {f : Fields} {ds rest : List Char} (h : ∀ c ∈ ds, c.isDigit)
    (hne : ds ≠ []) : readMonthName f (ds ++ rest) = none := by
  cases ds with
  | nil => exact absurd rfl hne
  | cons d ds =>
    have hd : d.isAlpha = false := by
      have hdigit := h d List.mem_cons_self
      simp only [Char.isDigit, Bool.and_eq_true, decide_eq_true_eq] at hdigit
      have hle : d.toNat ≤ 57 := UInt32.le_iff_toNat_le.mp hdigit.2
      simp [Char.isAlpha, Char.isUpper, Char.isLower, UInt32.le_iff_toNat_le]
      omega
    have hnone : monthNames.findIdx? (fun m => m.isPrefixOf []) = none := by decide
    unfold readMonthName
    rw [List.cons_append, List.takeWhile_cons_of_neg (by simp [hd])]
    show (monthNames.findIdx? fun m => m.isPrefixOf []).map _ = none
    rw [hnone]
    rfl

theorem writeRun_other (t : OffsetDateTime) {c : Char} (n : ℕ) (h : c.isAlpha = false) :
    writeRun t c n = List.replicate n c := by
  unfold writeRun
  split
  all_goals first | rfl | exact absurd h (by decide)

theorem stands_other (t : OffsetDateTime) (rest : List Char) {c : Char} (n : ℕ) (pos : 0 < n)
    (h : c.isAlpha = false) : Stands t rest (.run c n pos) := by
  unfold Stands
  simp only
  split <;> trivial

theorem signed_nonneg (width : ℕ) {x : ℤ} (h : 0 ≤ x) : signed width x = padded width x.toNat := by
  unfold signed
  rw [if_neg (Int.not_lt.mpr h)]
  congr
  omega

theorem readNumber_minus (f : Fields) (c : Char) (most : ℕ) (text : List Char) :
    readNumber f c most ('-' :: text) = none := by
  unfold readNumber digits
  rw [List.takeWhile_cons_of_neg (by decide)]
  simp

theorem year_iff (t : OffsetDateTime) (f : Fields) (n : ℕ) (rest : List Char) :
    (∃ f', readNumber f 'y' (if n = 2 then 2 else 9) (signed n t.date.year ++ rest) =
        some (f', rest)) ↔
      0 ≤ t.date.year ∧ Ends (if n = 2 then 2 else 9) (padded n t.date.year.toNat) rest := by
  rcases Int.lt_or_le t.date.year 0 with hneg | hpos
  · refine iff_of_false ?_ (fun h => absurd h.1 (Int.not_le.mpr hneg))
    intro h
    obtain ⟨f', h⟩ := h
    unfold signed at h
    rw [if_pos hneg, List.cons_append, readNumber_minus] at h
    cases h
  · rw [signed_nonneg n hpos, readNumber_iff]
    exact (and_iff_right hpos).symm

theorem month_iff (t : OffsetDateTime) (f : Fields) (n : ℕ) (rest : List Char) :
    (∃ f', (if 3 ≤ n then readMonthName f (padded n t.date.month.toNat ++ rest)
        else readNumber f 'M' 2 (padded n t.date.month.toNat ++ rest)) = some (f', rest)) ↔
      n < 3 ∧ Ends 2 (padded n t.date.month.toNat) rest := by
  rcases Nat.lt_or_ge n 3 with hlt | hge
  · rw [if_neg (by omega), readNumber_iff]
    exact (and_iff_right hlt).symm
  · rw [if_pos hge, readMonthName_digits (fun _ => isDigit_padded) (padded_ne_nil _ _)]
    refine iff_of_false ?_ (fun h => absurd h.1 (by omega))
    intro h
    obtain ⟨f', h⟩ := h
    cases h

theorem fraction_iff (t : OffsetDateTime) (f : Fields) {n : ℕ} (pos : 0 < n) (rest : List Char) :
    (∃ f', readRun f 'S' n ((padded 9 t.time.nanosecond).take (min n 9) ++ rest) =
        some (f', rest)) ↔
      Ends 9 ((padded 9 t.time.nanosecond).take (min n 9)) rest := by
  rw [← digits_append_iff (fun _ => isDigit_fraction)
    (fraction_ne_nil t.time.valid.2.2.2 pos)]
  constructor
  · intro h
    obtain ⟨f', h⟩ := h
    obtain ⟨x, hx, heq⟩ := Option.map_eq_some_iff.mp h
    obtain ⟨ds, rest'⟩ := x
    obtain ⟨_, rfl⟩ := Prod.mk.inj heq
    exact ⟨ds, hx⟩
  · intro h
    obtain ⟨ds, hx⟩ := h
    exact ⟨_, Option.map_eq_some_iff.mpr ⟨_, hx, rfl⟩⟩

theorem readItem_iff (t : OffsetDateTime) (f : Fields) (rest : List Char) {item : Item}
    (plain : item.Plain) :
    (∃ f', readItem f (writeItem t item ++ rest) item = some (f', rest)) ↔
      Stands t rest item := by
  cases item with
  | quoted literal closed =>
    unfold writeItem Stands
    simp only [readItem]
    split
    case isTrue h =>
      refine iff_of_false ?_ (fun hstands => hstands h)
      intro hread
      obtain ⟨f', hread⟩ := hread
      rw [h.1] at hread
      have hlen := congrArg (fun x => x.2.length) (Option.some.inj hread)
      simp at hlen
    case isFalse h => exact iff_of_true ⟨f, readLiteral_append f literal rest⟩ h
  | run c n pos =>
    rcases plain with h | h
    · simp only [letters, List.mem_cons, List.not_mem_nil, or_false] at h
      rcases h with rfl | rfl | rfl | rfl | rfl | rfl | rfl
      · exact year_iff t f n rest
      · exact month_iff t f n rest
      · exact readNumber_iff f 'd'
      · exact readNumber_iff f 'H'
      · exact readNumber_iff f 'm'
      · exact readNumber_iff f 's'
      · exact fraction_iff t f pos rest
    · refine iff_of_true ⟨f, ?_⟩ (stands_other t rest n pos h)
      show readItem f (writeRun t c n ++ rest) _ = _
      rw [writeRun_other t n h, readItem, h]
      exact readLiteral_append f _ rest

theorem readItem_append (t : OffsetDateTime) (f : Fields) (rest : List Char) {item : Item}
    (plain : item.Plain) (stands : Stands t rest item) :
    readItem f (writeItem t item ++ rest) item = some (item.shows t f, rest) := by
  cases item with
  | quoted literal closed =>
    show readLiteral f literal ((if literal = [] ∧ closed then ['\''] else literal) ++ rest) = _
    rw [if_neg stands]
    exact readLiteral_append f literal rest
  | run c n pos =>
    rcases plain with h | h
    · have hshows : Item.shows t f (.run c n pos) = f.set c (valueOf t c n) := if_pos h
      rw [hshows]
      simp only [letters, List.mem_cons, List.not_mem_nil, or_false] at h
      rcases h with rfl | rfl | rfl | rfl | rfl | rfl | rfl
      · obtain ⟨hpos, hends⟩ := stands
        show readNumber f 'y' _ (signed n t.date.year ++ rest) = _
        rw [signed_nonneg n hpos]
        exact readNumber_append f 'y' hends
      · obtain ⟨hlt, hends⟩ := stands
        show (if 3 ≤ n then _ else readNumber f 'M' 2 _) = _
        rw [if_neg (by omega)]
        exact readNumber_append f 'M' hends
      · exact readNumber_append f 'd' stands
      · exact readNumber_append f 'H' stands
      · exact readNumber_append f 'm' stands
      · exact readNumber_append f 's' stands
      · have hread := digits_append (fun _ => isDigit_fraction)
          (fraction_ne_nil t.time.valid.2.2.2 pos) stands
        show (digits 9 _).map _ = _
        rw [writeItem, writeRun, hread, Option.map_some, length_fraction t.time.valid.2.2.2,
          number_fraction t.time.valid.2.2.2]
        rfl
    · have hout : c ∉ letters := by
        intro hin
        simp only [letters, List.mem_cons, List.not_mem_nil, or_false] at hin
        rcases hin with rfl | rfl | rfl | rfl | rfl | rfl | rfl <;> exact absurd h (by decide)
      show readItem f (writeRun t c n ++ rest) _ = _
      rw [writeRun_other t n h, readItem, h, Item.shows, if_neg hout]
      exact readLiteral_append f _ rest

/-! ## All pieces -/

theorem written_cons (t : OffsetDateTime) (item : Item) (is : List Item) :
    written t (item :: is) = writeItem t item ++ written t is := rfl

theorem readItems_append (t : OffsetDateTime) (f : Fields) {before after : List Item}
    (plain : ∀ item ∈ before, item.Plain) (stand : AllStand t (before ++ after)) :
    readItems f (written t (before ++ after)) before =
      some (before.foldl (Item.shows t) f, written t after) := by
  induction before generalizing f with
  | nil => rfl
  | cons item before ih =>
    obtain ⟨hitem, hrest⟩ : Stands t (written t (before ++ after)) item ∧
      AllStand t (before ++ after) := stand
    rw [List.cons_append, written_cons, readItems,
      readItem_append t f _ (plain item List.mem_cons_self) hitem]
    exact ih _ (fun i hi => plain i (List.mem_cons_of_mem item hi)) hrest

theorem allStand_of_step (t : OffsetDateTime) (f : Fields) {is : List Item}
    (plain : ∀ item ∈ is, item.Plain)
    (step : ∀ before after, is = before ++ after →
      ∃ f', readItems f (written t is) before = some (f', written t after)) : AllStand t is := by
  induction is generalizing f with
  | nil => trivial
  | cons item is ih =>
    obtain ⟨f₁, hfirst⟩ := step [item] is rfl
    have hread : readItem f (writeItem t item ++ written t is) item = some (f₁, written t is) := by
      rw [written_cons, readItems] at hfirst
      obtain ⟨x, hx, heq⟩ := Option.bind_eq_some_iff.mp hfirst
      rw [hx]
      exact heq
    refine ⟨(readItem_iff t f _ (plain item List.mem_cons_self)).mp ⟨f₁, hread⟩, ?_⟩
    refine ih f₁ (fun i hi => plain i (List.mem_cons_of_mem _ hi)) ?_
    intro before after heq
    obtain ⟨f', hf'⟩ := step (item :: before) after (by rw [heq]; rfl)
    rw [written_cons, readItems, hread] at hf'
    exact ⟨f', hf'⟩

theorem inStep_iff {t : OffsetDateTime} {p : List Char} (plain : ∀ item ∈ items p, item.Plain) :
    InStep t p ↔ AllStand t (items p) := by
  constructor
  · intro h
    exact allStand_of_step t start plain h
  · intro h before after heq
    have hbefore : ∀ item ∈ before, item.Plain :=
      fun i hi => plain i (by rw [heq]; exact List.mem_append_left after hi)
    rw [heq] at h
    unfold formatWithPattern
    rw [heq]
    exact ⟨_, readItems_append t start hbefore h⟩

theorem stands_of_mem {t : OffsetDateTime} {is : List Item} (h : AllStand t is) {item : Item}
    (hmem : item ∈ is) : ∃ rest, Stands t rest item := by
  induction is with
  | nil => cases hmem
  | cons i is ih =>
    rcases List.mem_cons.mp hmem with rfl | hmem
    · exact ⟨_, h.1⟩
    · exact ih h.2 hmem

/-! ## What is shown, letter by letter -/

theorem number_set (f : Fields) (c c' : Char) (v : ℕ) :
    (f.set c v).number c' = if c' = c then v else f.number c' := by
  unfold Fields.set
  simp [Function.update_apply]

theorem foldl_shows_keeps {P : ℕ → Prop} (t : OffsetDateTime) (c : Char) (is : List Item)
    {f : Fields} (hstart : P (f.number c))
    (hvalue : ∀ n pos, Item.run c n pos ∈ is → P (valueOf t c n)) :
    P ((is.foldl (Item.shows t) f).number c) := by
  induction is generalizing f with
  | nil => exact hstart
  | cons item is ih =>
    refine ih ?_ (fun n pos hn => hvalue n pos (List.mem_cons_of_mem item hn))
    cases item with
    | quoted literal closed => exact hstart
    | run c' n pos =>
      unfold Item.shows
      simp only
      split
      · rw [number_set]
        split
        case isTrue heq =>
          subst heq
          exact hvalue n pos List.mem_cons_self
        case isFalse => exact hstart
      · exact hstart

theorem foldl_shows_of_mem (t : OffsetDateTime) {c : Char} {v : ℕ} (hletter : c ∈ letters)
    {is : List Item} {n : ℕ} {pos : 0 < n} (hmem : Item.run c n pos ∈ is)
    (hvalue : ∀ m, valueOf t c m = v) (f : Fields) :
    (is.foldl (Item.shows t) f).number c = v := by
  induction is generalizing f with
  | nil => cases hmem
  | cons item is ih =>
    rcases List.mem_cons.mp hmem with heq | hmem
    · subst heq
      have hset : (Item.shows t f (.run c n pos)).number c = v := by
        rw [Item.shows, if_pos hletter, number_set, if_pos rfl, hvalue]
      exact foldl_shows_keeps (P := fun x => x = v) t c is hset fun m _ _ => hvalue m
    · exact ih hmem _

theorem foldl_shows_rest (t : OffsetDateTime) (is : List Item) (f : Fields) :
    (is.foldl (Item.shows t) f).pm = f.pm ∧
      (is.foldl (Item.shows t) f).offsetSecs = f.offsetSecs := by
  induction is generalizing f with
  | nil => exact ⟨rfl, rfl⟩
  | cons item is ih =>
    have hitem : (item.shows t f).pm = f.pm ∧ (item.shows t f).offsetSecs = f.offsetSecs := by
      cases item with
      | quoted literal closed => exact ⟨rfl, rfl⟩
      | run c n pos =>
        unfold Item.shows
        simp only
        split <;> exact ⟨rfl, rfl⟩
    rw [List.foldl_cons, (ih _).1, (ih _).2]
    exact hitem

theorem places_le (n nanos : ℕ) : places n nanos ≤ nanos := Nat.div_mul_le_self _ _

theorem time_shown (t : OffsetDateTime) (p : List Char) :
    (shown t p).hour < 24 ∧ (shown t p).number 'm' < 60 ∧ (shown t p).number 's' < 60 ∧
      (shown t p).number 'S' < 1000000000 := by
  obtain ⟨hh, hm, hs, hn⟩ := t.time.valid
  have hpm : (shown t p).pm = none := (foldl_shows_rest t _ start).1
  have hour : (shown t p).hour = (shown t p).number 'H' := by
    unfold Fields.hour
    rw [hpm]
  rw [hour]
  refine ⟨?_, ?_, ?_, ?_⟩
  · exact foldl_shows_keeps (P := fun v => v < 24) t 'H' _ (by decide) fun _ _ _ => hh
  · exact foldl_shows_keeps (P := fun v => v < 60) t 'm' _ (by decide) fun _ _ _ => hm
  · exact foldl_shows_keeps (P := fun v => v < 60) t 's' _ (by decide) fun _ _ _ => hs
  · exact foldl_shows_keeps (P := fun v => v < 1000000000) t 'S' _ (by decide) fun n _ _ =>
      Nat.lt_of_le_of_lt (places_le n _) hn

theorem fields_of_build {t r : OffsetDateTime} {p : List Char}
    (h : build (shown t p) p = pure r) :
    r.date.year = ((shown t p).year p : ℕ) ∧ r.date.month = ((shown t p).number 'M' : ℕ) ∧
      r.date.day = ((shown t p).number 'd' : ℕ) ∧ r.time.hour = (shown t p).number 'H' ∧
        r.time.minute = (shown t p).number 'm' ∧ r.time.second = (shown t p).number 's' ∧
          r.time.nanosecond = (shown t p).number 'S' := by
  obtain ⟨hpm, hoffset⟩ := foldl_shows_rest t (items p) start
  have hour : (shown t p).hour = (shown t p).number 'H' := by
    unfold Fields.hour
    rw [show (shown t p).pm = none from hpm]
  have hfound : (build (shown t p) p).found? = some r := by
    rw [h]
    rfl
  unfold build at hfound
  simp only [found?_bind, found?_ofOption, found?_orPanic] at hfound
  obtain ⟨date, hdate, hfound⟩ := Option.bind_eq_some_iff.mp hfound
  obtain ⟨time, htime, hfound⟩ := Option.bind_eq_some_iff.mp hfound
  rw [show (shown t p).offsetSecs = 0 from hoffset, Int.neg_zero,
    OffsetDateTime.checkedAdd_zero] at hfound
  obtain rfl := Option.some.inj hfound
  obtain ⟨hy, hM, hd⟩ := Date.fields_of_fromCalendarDate hdate
  obtain ⟨hh, hm, hs, hn⟩ := Time.fields_of_fromHmsNano htime
  exact ⟨hy, hM, hd, by rw [hh, hour], hm, hs, hn⟩

theorem build_shown {t : OffsetDateTime} {p : List Char} :
    (∃ r, build (shown t p) p = pure r) ↔
      Date.InCalendar ((shown t p).year p) ((shown t p).number 'M') ((shown t p).number 'd') := by
  have hoffset : (shown t p).offsetSecs = 0 := (foldl_shows_rest t (items p) start).2
  rw [← Date.fromCalendarDate_isSome]
  unfold build
  rw [hoffset, Int.neg_zero]
  cases Date.fromCalendarDate ((shown t p).year p) ((shown t p).number 'M')
      ((shown t p).number 'd') with
  | none =>
    refine iff_of_false ?_ (by simp)
    intro h
    obtain ⟨r, h⟩ := h
    cases h
  | some date =>
    refine iff_of_true ?_ rfl
    rw [show Time.fromHmsNano (shown t p).hour ((shown t p).number 'm') ((shown t p).number 's')
      ((shown t p).number 'S') = some ⟨_, _, _, _, time_shown t p⟩ from dif_pos _]
    refine ⟨⟨date, ⟨_, _, _, _, time_shown t p⟩⟩, ?_⟩
    show (pure date >>= fun date => pure _ >>= fun time => orPanic _ : Run _) = _
    rw [pure_bind, pure_bind, OffsetDateTime.checkedAdd_zero]
    rfl

/-! ## The whole -/

theorem parse_eq_build {t : OffsetDateTime} {p : List Char}
    (plain : ∀ item ∈ items p, item.Plain) (step : InStep t p) (hp : accepted p) :
    parseWithPattern (formatWithPattern t p) p = build (shown t p) p := by
  have stand := (inStep_iff plain).mp step
  rw [← List.append_nil (items p)] at stand
  have hread := readItems_append t start plain stand
  rw [List.append_nil] at hread
  unfold parseWithPattern formatWithPattern
  rw [if_pos hp, hread]
  show (pure _ >>= fun _ => _ : Run _) = _
  rw [pure_bind]
  rfl

theorem mem_of_number_ne {t : OffsetDateTime} {p : List Char} {c : Char}
    (h : (shown t p).number c ≠ start.number c) : ∃ n pos, Item.run c n pos ∈ items p := by
  apply Classical.byContradiction
  intro hno
  apply h
  refine foldl_shows_keeps (P := fun x => x = start.number c) t c (items p) rfl ?_
  intro n pos hmem
  exact absurd ⟨n, pos, hmem⟩ hno

theorem date_eq {t : OffsetDateTime} {p : List Char} {c : Char} {n : ℕ} {pos : 0 < n}
    (hmem : Item.run c n pos ∈ items p) (hletter : c ∈ letters) (hne : c ≠ 'S') :
    (shown t p).number c = valueOf t c 1 := by
  refine foldl_shows_of_mem t hletter hmem ?_ start
  intro m
  simp only [letters, List.mem_cons, List.not_mem_nil, or_false] at hletter
  rcases hletter with rfl | rfl | rfl | rfl | rfl | rfl | rfl
  all_goals first | rfl | exact absurd rfl hne

theorem year_nonneg {t : OffsetDateTime} {p : List Char} (stand : AllStand t (items p))
    {n : ℕ} {pos : 0 < n} (hmem : Item.run 'y' n pos ∈ items p) : 0 ≤ t.date.year := by
  obtain ⟨rest, h⟩ := stands_of_mem stand hmem
  exact h.1

theorem agrees_of_fields {t r : OffsetDateTime} {p : List Char} (plain : ∀ item ∈ items p, item.Plain)
    (legible : Legible t p) (h : build (shown t p) p = pure r) :
    ∀ item ∈ items p, item.Agrees t r := by
  obtain ⟨hy, hM, hd, hh, hm, hs, hn⟩ := fields_of_build h
  have hyear : (shown t p).year p = (shown t p).number 'y' := if_neg legible.year
  rw [hyear] at hy
  obtain ⟨_, hmonth, hday, _⟩ := t.date.inCalendar
  intro item hitem
  cases item with
  | quoted literal closed => trivial
  | run c n pos =>
    rcases plain _ hitem with hc | hc
    · have hnumber : c ≠ 'S' → (shown t p).number c = valueOf t c 1 := date_eq hitem hc
      simp only [letters, List.mem_cons, List.not_mem_nil, or_false] at hc
      rcases hc with rfl | rfl | rfl | rfl | rfl | rfl | rfl
      · have hpos := year_nonneg legible.pieces hitem
        rw [hnumber (by decide)] at hy
        show r.date.year = t.date.year
        rw [hy]
        exact Int.toNat_of_nonneg hpos
      · rw [hnumber (by decide)] at hM
        show r.date.month = t.date.month
        rw [hM]
        exact Int.toNat_of_nonneg (by omega)
      · rw [hnumber (by decide)] at hd
        show r.date.day = t.date.day
        rw [hd]
        exact Int.toNat_of_nonneg (by omega)
      · exact hh.trans (hnumber (by decide))
      · exact hm.trans (hnumber (by decide))
      · exact hs.trans (hnumber (by decide))
      · show places n r.time.nanosecond = _
        rw [hn]
        exact legible.fraction _ hitem rfl
    · unfold Item.Agrees
      simp only
      split <;> trivial

/-- A pattern reads back what it writes, no digit read for another letter than it was written for,
just where it is legible. -/
theorem readsBack_iff {t : OffsetDateTime} {p : List Char} (plain : ∀ item ∈ items p, item.Plain) :
    ReadsBack t p ∧ InStep t p ↔ Legible t p := by
  constructor
  · intro h
    obtain ⟨⟨r, hparse, hagrees⟩, hstep⟩ := h
    have stand := (inStep_iff plain).mp hstep
    have hp : accepted p := by
      apply Classical.byContradiction
      intro hno
      unfold parseWithPattern at hparse
      rw [if_neg hno] at hparse
      cases hparse
    rw [parse_eq_build plain hstep hp] at hparse
    obtain ⟨hy, _, _, _, _, _, hn⟩ := fields_of_build hparse
    have hyear : ¬((shown t p).number 'y' < 100 ∧ ShortYear p) := by
      intro hshort
      have hlate : (shown t p).year p = (shown t p).number 'y' + 2000 := if_pos hshort
      have hne : (shown t p).number 'y' ≠ start.number 'y' := by
        show (shown t p).number 'y' ≠ 1970
        omega
      obtain ⟨n, pos, hmem⟩ := mem_of_number_ne hne
      have hpos := year_nonneg stand hmem
      have hshown := date_eq (t := t) hmem (by decide) (by decide)
      have hsame : r.date.year = t.date.year := hagrees _ hmem
      have hvalue : valueOf t 'y' 1 = t.date.year.toNat := rfl
      omega
    have hdate := build_shown.mp ⟨r, hparse⟩
    rw [show (shown t p).year p = (shown t p).number 'y' from if_neg hyear] at hdate
    refine ⟨hp, stand, hyear, hdate, ?_⟩
    intro item hmem
    cases item with
    | quoted literal closed => trivial
    | run c n pos =>
      intro hc
      subst hc
      rw [← hn]
      exact hagrees _ hmem
  · intro h
    have hstep := (inStep_iff plain).mpr h.pieces
    have hdate := h.date
    rw [← show (shown t p).year p = (shown t p).number 'y' from if_neg h.year] at hdate
    obtain ⟨r, hbuild⟩ := build_shown.mpr hdate
    refine ⟨⟨r, ?_, agrees_of_fields plain h hbuild⟩, hstep⟩
    rw [parse_eq_build plain hstep h.pattern, hbuild]

def aMoment : OffsetDateTime := ⟨⟨19849, by decide⟩, ⟨10, 20, 30, 123456789, by decide⟩⟩

theorem readsBack_iff_seconds :
    ReadsBack aMoment "yyyy-MM-dd'T'HH:mm:ss.SSS".toList ∧
      InStep aMoment "yyyy-MM-dd'T'HH:mm:ss.SSS".toList :=
  (readsBack_iff (by decide)).mpr
    ⟨by decide, by decide +kernel, by decide +kernel, by decide +kernel, by decide +kernel⟩

/-- The year takes the digits of the month and the day, and a month of three letters is read as a
name. -/
theorem basic_date_unread :
    parseWithPattern (formatWithPattern aMoment "yyyyMMdd".toList) "yyyyMMdd".toList =
        ofOption none ∧
      parseWithPattern (formatWithPattern aMoment "dd MMM yyyy".toList) "dd MMM yyyy".toList =
        ofOption none ∧
      ¬ ∀ t p, (∀ item ∈ items p, item.Plain) → ReadsBack t p := by
  have hbasic : parseWithPattern (formatWithPattern aMoment "yyyyMMdd".toList) "yyyyMMdd".toList =
      ofOption none := by decide +kernel
  refine ⟨hbasic, by decide +kernel, ?_⟩
  intro h
  obtain ⟨r, hr, _⟩ := h aMoment "yyyyMMdd".toList (by decide)
  rw [hbasic] at hr
  cases hr

end Velosearch.DatePattern

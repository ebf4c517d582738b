import Velosearch.Lib.Text
import Mathlib.Data.List.Basic
import Std.Data.ExtTreeMap.Lemmas

/-!
# The query string, as the forwarding layer reads it

`parse_query` of `src/cluster/forward.rs` walks the bytes of a key or a value and slices its text
after each `%`. What it collects is compared with what the text means: an escape is a `%` and two
digits, and a plus is a space.
-/

set_option autoImplicit false

namespace Velosearch.Cluster.Forward

abbrev percent : UInt8 := 37

abbrev plus : UInt8 := 43

abbrev space : UInt8 := 32

/-! ## Reading a number -/

/-- The value of a hexadecimal digit. -/
def hexDigit (b : UInt8) : Option ℕ :=
  let n := b.toNat
  if 48 ≤ n ∧ n ≤ 57 then some (n - 48)
  else if 65 ≤ n ∧ n ≤ 70 then some (n - 55)
  else if 97 ≤ n ∧ n ≤ 102 then some (n - 87)
  else none

/-- Hexadecimal digits as `u8::from_str_radix` takes them. -/
def digitsFrom : ℕ → List UInt8 → Option UInt8
  | n, [] => some (UInt8.ofNat n)
  | n, b :: rest => do
    let d ← hexDigit b
    if 255 < 16 * n + d then none else digitsFrom (16 * n + d) rest

/-- `u8::from_str_radix(_, 16)`: a plus may stand before the digits. -/
def fromStrRadix16 : List UInt8 → Option UInt8
  | [] => none
  | [b] => if b = plus ∨ b = 45 then none else digitsFrom 0 [b]
  | b :: rest => digitsFrom 0 (if b = plus then rest else b :: rest)

/-! ## Replacing what is not UTF-8 -/

/-- The byte continues a character. -/
def continues (b : UInt8) : Bool :=
  decide (128 ≤ b ∧ b ≤ 191)

/-- The second byte of a character, which depends on the first. -/
def follows (first second : UInt8) : Bool :=
  if first = 224 then decide (160 ≤ second ∧ second ≤ 191)
  else if first = 237 then decide (128 ≤ second ∧ second ≤ 159)
  else if first = 240 then decide (144 ≤ second ∧ second ≤ 191)
  else if first = 244 then decide (128 ≤ second ∧ second ≤ 143)
  else continues second

/-- How many bytes an ill-formed character takes. -/
def cutShort (first : UInt8) : List UInt8 → ℕ
  | second :: rest =>
    if 224 ≤ first ∧ first ≤ 244 ∧ follows first second = true then
      if 240 ≤ first ∧ (rest.head?.any continues) = true then 2 else 1
    else 0
  | [] => 0

/-- Characters, with a replacement for each that is ill-formed. -/
def lossyFrom : ℕ → List UInt8 → List Char
  | _, [] => []
  | skip + 1, _ :: rest => lossyFrom skip rest
  | 0, b :: rest =>
    match (b :: rest).toByteArray.utf8DecodeChar? 0 with
    | some c => c :: lossyFrom (c.utf8Size - 1) rest
    | none => Char.ofNat 0xFFFD :: lossyFrom (cutShort b rest) rest

/-- `String::from_utf8_lossy`. -/
def lossy (bytes : List UInt8) : List Char :=
  lossyFrom 0 bytes

/-! ## The query string -/

/-- A character begins here, or nothing does. -/
def boundary (rest : List UInt8) : Bool :=
  !(rest.head?.any continues)

/-- The bytes that `decode` collects, or nothing where a slice cuts a character: a panic. -/
def decodeFrom : ℕ → List UInt8 → Option (List UInt8)
  | _, [] => some []
  | skip + 1, _ :: rest => decodeFrom skip rest
  | 0, b :: rest =>
    if b = percent ∧ rest ≠ [] then
      -- one byte is enough here, and the slice is then of that one
      if boundary rest && boundary (rest.drop 2) then
        match fromStrRadix16 (rest.take 2) with
        | some h => (decodeFrom 2 rest).map (h :: ·)
        | none => (decodeFrom 0 rest).map (percent :: ·)
      else none
    else if b = plus then (decodeFrom 0 rest).map (space :: ·)
    else (decodeFrom 0 rest).map (b :: ·)

/-- `decode` of a name or a value. -/
def decode (s : List Char) : Option (List Char) :=
  (decodeFrom 0 (Text.encode s)).map lossy

/-- The keys and values, before they are decoded. -/
def pairs (q : List Char) : List (List Char × List Char) :=
  ((q.splitOn '&').filter (! ·.isEmpty)).map fun pair =>
    if '=' ∈ pair then (pair.takeWhile (· != '='), (pair.dropWhile (· != '=')).tail)
    else (pair, "true".toList)

/-- A name with its value, both decoded. -/
def readPair (pair : List Char × List Char) : Option (List Char × List Char) := do
  return (← decode pair.1, ← decode pair.2)

/-- The parameters, the last of a name counting. -/
abbrev Query := Std.ExtTreeMap (List Char) (List Char) compare

/-- `parse_query`. -/
def parseQuery (q : List Char) : Option Query :=
  ((pairs q).mapM readPair).map (∅ : Query).insertMany

/-! ## What it means -/

/-- The byte an escape stands for. -/
def escaped : List UInt8 → Option UInt8
  | a :: b :: _ => do return UInt8.ofNat (16 * (← hexDigit a) + (← hexDigit b))
  | _ => none

/-- What the text of a form means, byte by byte. -/
def meansFrom : ℕ → List UInt8 → List UInt8
  | _, [] => []
  | skip + 1, _ :: rest => meansFrom skip rest
  | 0, b :: rest =>
    if b = percent then
      match escaped rest with
      | some h => h :: meansFrom 2 rest
      | none => percent :: meansFrom 0 rest
    else (if b = plus then space else b) :: meansFrom 0 rest

/-- One digit, or a sign and a digit, which `from_str_radix` takes for a number. -/
inductive Odd : List UInt8 → Prop
  | lone {b : UInt8} {d : ℕ} : hexDigit b = some d → Odd [b]
  | signed {b : UInt8} {d : ℕ} : hexDigit b = some d → Odd [plus, b]

/-- After a percent sign: a text that ends, or two bytes that end with a character and are not read
as a number unless they are digits. -/
def Plain (rest : List UInt8) : Prop :=
  rest ≠ [] → (boundary rest && boundary (rest.drop 2)) = true ∧ ¬ Odd (rest.take 2)

/-- Every percent sign is followed so. -/
def Clear (bytes : List UInt8) : Prop :=
  ∀ rest, percent :: rest <:+ bytes → Plain rest

/-- A byte as a form writes it. -/
def formByte (b : UInt8) : List Char :=
  let c := Char.ofNat b.toNat
  if c.isAlphanum || c ∈ ['*', '-', '.', '_'] then [c]
  else if b = space then ['+']
  else ['%', Nat.digitChar (b.toNat / 16) |>.toUpper, Nat.digitChar (b.toNat % 16) |>.toUpper]

/-- A text as a form writes it. -/
def formText (text : List Char) : List Char :=
  (Text.encode text).flatMap formByte

/-- The form of some parameters. -/
def form (query : Query) : List Char :=
  ['&'].intercalate (query.toList.map fun p => formText p.1 ++ '=' :: formText p.2)

/-! ## Where the two agree -/

theorem hexDigit_lt {b : UInt8} {d : ℕ} (h : hexDigit b = some d) : d < 16 := by
  unfold hexDigit at h
  dsimp only at h
  split at h
  · cases h
    omega
  · split at h
    · cases h
      omega
    · split at h
      · cases h
        omega
      · cases h

theorem digitsFrom_one (b : UInt8) : digitsFrom 0 [b] = (hexDigit b).map UInt8.ofNat := by
  cases h : hexDigit b with
  | none => simp [digitsFrom, h]
  | some d =>
    have small := hexDigit_lt h
    simp [digitsFrom, h, Nat.not_lt.mpr (show d ≤ 255 by omega)]

theorem digitsFrom_two (a b : UInt8) : digitsFrom 0 [a, b] = escaped [a, b] := by
  cases ha : hexDigit a with
  | none => simp [digitsFrom, escaped, ha]
  | some x =>
    have smallA := hexDigit_lt ha
    cases hb : hexDigit b with
    | none => simp [digitsFrom, escaped, ha, hb]
    | some y =>
      have smallB := hexDigit_lt hb
      simp [digitsFrom, escaped, ha, hb, Nat.not_lt.mpr (show x ≤ 255 by omega),
        Nat.not_lt.mpr (show 16 * x + y ≤ 255 by omega)]

theorem escaped_take (rest : List UInt8) : escaped (rest.take 2) = escaped rest := by
  rcases rest with _ | ⟨a, _ | ⟨b, rest⟩⟩ <;> rfl

theorem fromStrRadix16_plain {rest : List UInt8} (plain : ¬ Odd (rest.take 2)) :
    fromStrRadix16 (rest.take 2) = escaped rest := by
  rw [← escaped_take rest]
  rcases rest with _ | ⟨a, _ | ⟨b, rest⟩⟩
  · rfl
  · show (if a = plus ∨ a = 45 then none else digitsFrom 0 [a]) = none
    rw [digitsFrom_one]
    cases h : hexDigit a with
    | none => exact ite_self none
    | some d => exact absurd (.lone h) plain
  · show digitsFrom 0 (if a = plus then [b] else [a, b]) = escaped [a, b]
    by_cases sign : a = plus
    · subst sign
      rw [if_pos rfl, digitsFrom_one]
      cases h : hexDigit b with
      | none => rfl
      | some d => exact absurd (.signed h) plain
    · rw [if_neg sign, digitsFrom_two]

theorem fromStrRadix16_odd {rest : List UInt8} (odd : Odd (rest.take 2)) :
    (∃ h, fromStrRadix16 (rest.take 2) = some h ∧ h ≠ percent) ∧ escaped rest = none := by
  rw [← escaped_take rest]
  have byte : ∀ {b : UInt8} {d : ℕ}, hexDigit b = some d → UInt8.ofNat d ≠ percent := by
    intro b d h same
    have small := hexDigit_lt h
    have := congrArg UInt8.toNat same
    rw [UInt8.toNat_ofNat'] at this
    change d % 2 ^ 8 = 37 at this
    omega
  generalize rest.take 2 = two at odd ⊢
  cases odd with
  | @lone b d h =>
    refine ⟨⟨_, ?_, byte h⟩, rfl⟩
    have sign : ¬ (b = plus ∨ b = 45) := by
      rintro (rfl | rfl) <;> cases h
    show (if b = plus ∨ b = 45 then none else digitsFrom 0 [b]) = _
    rw [if_neg sign, digitsFrom_one, h]
    rfl
  | @signed b d h =>
    refine ⟨⟨_, ?_, byte h⟩, rfl⟩
    show digitsFrom 0 [b] = _
    rw [digitsFrom_one, h]
    rfl

theorem clear_cons {b : UInt8} {rest : List UInt8} :
    Clear (b :: rest) ↔ (b = percent → Plain rest) ∧ Clear rest := by
  constructor
  · intro h
    refine ⟨?_, fun more suffix => h more (suffix.trans (List.suffix_cons b rest))⟩
    rintro rfl
    exact h rest (List.suffix_refl _)
  · rintro ⟨first, later⟩ more suffix
    rcases List.suffix_cons_iff.mp suffix with same | inside
    · cases same
      exact first rfl
    · exact later more inside

theorem clear_digit {b : UInt8} {d : ℕ} (h : hexDigit b = some d) {rest : List UInt8} :
    Clear (b :: rest) ↔ Clear rest := by
  refine clear_cons.trans (and_iff_right ?_)
  rintro rfl
  cases h

theorem clear_escape {rest : List UInt8} {h : UInt8} (is_ : escaped rest = some h) :
    Clear rest ↔ Clear (rest.drop 2) := by
  rcases rest with _ | ⟨a, _ | ⟨b, rest⟩⟩
  · cases is_
  · cases is_
  · obtain ⟨x, ha, is_⟩ := Option.bind_eq_some_iff.mp is_
    obtain ⟨y, hb, -⟩ := Option.bind_eq_some_iff.mp is_
    exact (clear_digit ha).trans (clear_digit hb)

theorem map_cons_iff {found : Option (List UInt8)} {b : UInt8} {bytes : List UInt8} :
    found.map (b :: ·) = some (b :: bytes) ↔ found = some bytes := by
  cases found <;> simp

/-- **The bytes collected are those that are meant** exactly where every percent sign is followed
by what it may be. -/
theorem decodeFrom_iff (skip : ℕ) (bytes : List UInt8) :
    decodeFrom skip bytes = some (meansFrom skip bytes) ↔ Clear (bytes.drop skip) := by
  induction bytes generalizing skip with
  | nil =>
    rw [List.drop_nil]
    cases skip <;> exact iff_of_true rfl fun rest suffix => absurd suffix.length_le (by simp)
  | cons b rest ih =>
    cases skip with
    | succ skip => exact ih skip
    | zero =>
      rw [List.drop_zero, clear_cons, decodeFrom, meansFrom]
      by_cases sign : b = percent
      · subst sign
        rw [if_pos rfl]
        by_cases ends : rest = []
        · subst ends
          exact iff_of_true rfl ⟨fun _ none => absurd rfl none, fun more suffix =>
            absurd suffix.length_le (by simp)⟩
        · rw [if_pos ⟨rfl, ends⟩]
          by_cases whole : (boundary rest && boundary (rest.drop 2)) = true
          · rw [if_pos whole]
            by_cases odd : Odd (rest.take 2)
            · obtain ⟨⟨h, read, other⟩, none⟩ := fromStrRadix16_odd odd
              rw [read, none]
              refine iff_of_false ?_ fun clear => (clear.1 rfl ends).2 odd
              dsimp only
              cases decodeFrom 2 rest with
              | none => exact fun no => nomatch no
              | some _ => exact fun same => other (List.cons.inj (Option.some.inj same)).1
            · have plain : percent = percent → Plain rest := fun _ _ => ⟨whole, odd⟩
              rw [fromStrRadix16_plain odd, and_iff_right plain]
              cases is_ : escaped rest with
              | none => exact map_cons_iff.trans (ih 0)
              | some h => exact (map_cons_iff.trans (ih 2)).trans (clear_escape is_).symm
          · rw [if_neg whole]
            exact iff_of_false (fun no => nomatch no) fun clear => whole (clear.1 rfl ends).1
      · rw [if_neg fun both => sign both.1, if_neg sign, and_iff_right fun same => absurd same sign]
        by_cases blank : b = plus
        · rw [if_pos blank, if_pos blank]
          exact map_cons_iff.trans (ih 0)
        · rw [if_neg blank, if_neg blank]
          exact map_cons_iff.trans (ih 0)

/-! ## The standard form reads back -/

theorem lossyFrom_append (l rest : List UInt8) :
    lossyFrom l.length (l ++ rest) = lossyFrom 0 rest := by
  induction l with
  | nil => rfl
  | cons b l ih => exact ih

theorem lossy_encode (text : List Char) : lossy (Text.encode text) = text := by
  induction text with
  | nil => rfl
  | cons c text ih =>
    have read : (String.utf8EncodeChar c ++ Text.encode text).toByteArray.utf8DecodeChar? 0 =
        some c := by
      rw [List.toByteArray_append]
      exact ByteArray.utf8DecodeChar?_utf8EncodeChar_append
    have size := String.length_utf8EncodeChar c
    show lossyFrom 0 (String.utf8EncodeChar c ++ Text.encode text) = _
    cases bytes : String.utf8EncodeChar c with
    | nil =>
      rw [bytes] at size
      exact absurd size.symm c.utf8Size_pos.ne'
    | cons b more =>
      rw [bytes, List.cons_append] at read
      rw [bytes, List.length_cons] at size
      rw [List.cons_append, lossyFrom, read]
      dsimp only
      rw [← size, Nat.add_sub_cancel, lossyFrom_append]
      exact congrArg (c :: ·) ih

/-- The byte reads back as itself. -/
def readsBack (b : UInt8) : Bool :=
  match Text.encode (formByte b) with
  | [c] => c != percent && !continues c && (if c = plus then space else c) == b
  | [p, x, y] => p == percent && !continues x && fromStrRadix16 [x, y] == some b
  | _ => false

theorem formByte_readsBack (b : UInt8) :
    readsBack b = true ∧ '&' ∉ formByte b ∧ '=' ∉ formByte b := by
  have all : ∀ n < 256, readsBack (UInt8.ofNat n) = true ∧ '&' ∉ formByte (UInt8.ofNat n) ∧
      '=' ∉ formByte (UInt8.ofNat n) := by
    decide +kernel
  have := all b.toNat b.toNat_lt
  rwa [UInt8.ofNat_toNat] at this

theorem boundary_formByte (b : UInt8) (rest : List UInt8) :
    boundary (Text.encode (formByte b) ++ rest) = true := by
  have reads := (formByte_readsBack b).1
  unfold readsBack at reads
  split at reads
  case h_1 c bytes =>
    rw [bytes]
    simp only [Bool.and_eq_true] at reads
    exact reads.1.2
  case h_2 p x y bytes =>
    rw [bytes]
    simp only [Bool.and_eq_true, beq_iff_eq] at reads
    obtain ⟨⟨rfl, -⟩, -⟩ := reads
    rfl
  · cases reads

theorem decodeFrom_formByte (b : UInt8) {rest : List UInt8} (here : boundary rest = true) :
    decodeFrom 0 (Text.encode (formByte b) ++ rest) = (decodeFrom 0 rest).map (b :: ·) := by
  have reads := (formByte_readsBack b).1
  unfold readsBack at reads
  split at reads
  case h_1 c bytes =>
    simp only [Bool.and_eq_true, bne_iff_ne, beq_iff_eq] at reads
    obtain ⟨⟨noSign, -⟩, same⟩ := reads
    rw [bytes, List.singleton_append, decodeFrom, if_neg fun both => noSign both.1]
    by_cases blank : c = plus
    · rw [if_pos blank] at same ⊢
      rw [same]
    · rw [if_neg blank] at same ⊢
      rw [same]
  case h_2 p x y bytes =>
    simp only [Bool.and_eq_true, beq_iff_eq] at reads
    obtain ⟨⟨rfl, start⟩, read⟩ := reads
    have whole : (boundary (x :: y :: rest) && boundary ((x :: y :: rest).drop 2)) = true :=
      Bool.and_eq_true_iff.mpr ⟨start, here⟩
    rw [bytes]
    show decodeFrom 0 (percent :: x :: y :: rest) = _
    rw [decodeFrom, if_pos ⟨rfl, List.cons_ne_nil _ _⟩, if_pos whole]
    show (match fromStrRadix16 [x, y] with
      | some h => (decodeFrom 2 (x :: y :: rest)).map (h :: ·)
      | none => _) = _
    rw [read]
    rfl
  · cases reads

theorem decode_formText (text : List Char) : decode (formText text) = some text := by
  have bytes : ∀ l : List UInt8, boundary (Text.encode (l.flatMap formByte)) = true ∧
      decodeFrom 0 (Text.encode (l.flatMap formByte)) = some l := by
    intro l
    induction l with
    | nil => exact ⟨rfl, rfl⟩
    | cons b l ih =>
      rw [List.flatMap_cons, Text.encode_append]
      exact ⟨boundary_formByte b _, by rw [decodeFrom_formByte b ih.1, ih.2]; rfl⟩
  rw [decode, formText, (bytes _).2, Option.map_some, lossy_encode]

theorem not_mem_formText (text : List Char) : '&' ∉ formText text ∧ '=' ∉ formText text := by
  constructor <;> intro mem <;> obtain ⟨b, -, inside⟩ := List.mem_flatMap.mp mem
  · exact (formByte_readsBack b).2.1 inside
  · exact (formByte_readsBack b).2.2 inside

/-- A name with its value, as a form writes them. -/
def formPair (p : List Char × List Char) : List Char :=
  formText p.1 ++ '=' :: formText p.2

theorem split_formPair (p : List Char × List Char) :
    (formPair p).takeWhile (· != '=') = formText p.1 ∧
      ((formPair p).dropWhile (· != '=')).tail = formText p.2 := by
  have key : ∀ c ∈ formText p.1, (c != '=') = true := by
    intro c mem
    rw [bne_iff_ne]
    rintro rfl
    exact (not_mem_formText p.1).2 mem
  rw [formPair, List.takeWhile_append_of_pos key, List.dropWhile_append_of_pos key]
  exact ⟨List.append_nil _, rfl⟩

theorem pairs_form (query : Query) :
    pairs (form query) = query.toList.map fun p => (formText p.1, formText p.2) := by
  have each : ∀ p : List Char × List Char, '&' ∉ formPair p := by
    intro p mem
    rcases List.mem_append.mp mem with key | value
    · exact (not_mem_formText p.1).1 key
    · exact (not_mem_formText p.2).1 ((List.mem_cons.mp value).resolve_left (by decide))
  have split : ((form query).splitOn '&').filter (! ·.isEmpty) = query.toList.map formPair := by
    cases entries : query.toList with
    | nil =>
      rw [form, entries]
      rfl
    | cons p more =>
      have free : ∀ l ∈ (p :: more).map formPair, '&' ∉ l := by
        intro l mem
        obtain ⟨p, -, rfl⟩ := List.mem_map.mp mem
        exact each p
      have full : ∀ l ∈ (p :: more).map formPair, (!l.isEmpty) = true := by
        intro l mem
        obtain ⟨p, -, rfl⟩ := List.mem_map.mp mem
        cases key : formText p.1 with
        | nil => rw [formPair, key]; rfl
        | cons c rest => rw [formPair, key]; rfl
      have whole : form query = ['&'].intercalate ((p :: more).map formPair) := by
        rw [form, entries]
        rfl
      rw [whole, List.splitOn_intercalate '&' free (List.cons_ne_nil _ _)]
      exact List.filter_eq_self.mpr full
  unfold pairs
  rw [split, List.map_map]
  refine List.map_congr_left fun p _ => ?_
  have mid : '=' ∈ formPair p := List.mem_append_right _ List.mem_cons_self
  show (if '=' ∈ formPair p then _ else _) = _
  rw [if_pos mid, (split_formPair p).1, (split_formPair p).2]

theorem parseQuery_form (query : Query) : parseQuery (form query) = some query := by
  have read : (query.toList.map fun p => (formText p.1, formText p.2)).mapM readPair =
      some query.toList := by
    generalize query.toList = entries
    induction entries with
    | nil => rfl
    | cons p entries ih =>
      rw [List.map_cons, List.mapM_cons, ih, readPair, decode_formText, decode_formText]
      rfl
  rw [parseQuery, pairs_form, read, Option.map_some]
  refine congrArg some (Std.ExtTreeMap.ext_getElem? fun k => ?_)
  cases found : query[k]? with
  | some v =>
    have distinct := Std.ExtTreeMap.distinct_keys_toList (t := query)
    exact Std.ExtTreeMap.getElem?_insertMany_list_of_mem Std.ReflCmp.compare_self distinct
      (Std.ExtTreeMap.mem_toList_iff_getElem?_eq_some.mpr found)
  | none =>
    have absent : (query.toList.map Prod.fst).contains k = false := by
      rw [← Bool.not_eq_true, List.contains_iff_mem, List.mem_map]
      rintro ⟨⟨k', v⟩, mem, rfl⟩
      rw [Std.ExtTreeMap.mem_toList_iff_getElem?_eq_some.mp mem] at found
      cases found
    rw [Std.ExtTreeMap.getElem?_insertMany_list_of_contains_eq_false absent]
    rfl

/-- **A query string is read as what it means**, without a panic, exactly when every percent sign
in a key or a value is followed by what it may be; and a map in standard form is read back. -/
theorem parseQuery_reads_iff (q : List Char) :
    (((∃ query, parseQuery q = some query) ∧ ∀ pair ∈ pairs q, ∀ s ∈ [pair.1, pair.2],
        decodeFrom 0 (Text.encode s) = some (meansFrom 0 (Text.encode s))) ↔
      ∀ pair ∈ pairs q, ∀ s ∈ [pair.1, pair.2], Clear (Text.encode s)) ∧
      ∀ query, parseQuery (form query) = some query := by
  refine ⟨?_, parseQuery_form⟩
  have each : (∀ pair ∈ pairs q, ∀ s ∈ [pair.1, pair.2],
      decodeFrom 0 (Text.encode s) = some (meansFrom 0 (Text.encode s))) ↔
      ∀ pair ∈ pairs q, ∀ s ∈ [pair.1, pair.2], Clear (Text.encode s) :=
    forall₄_congr fun _ _ _ _ => decodeFrom_iff 0 _
  rw [← each]
  refine ⟨And.right, fun right => ⟨?_, right⟩⟩
  have all : ∀ ps : List (List Char × List Char), (∀ pair ∈ ps, ∀ s ∈ [pair.1, pair.2],
      decodeFrom 0 (Text.encode s) = some (meansFrom 0 (Text.encode s))) →
      ∃ read, ps.mapM readPair = some read := by
    intro ps right
    induction ps with
    | nil => exact ⟨[], rfl⟩
    | cons pair ps ih =>
      obtain ⟨read, later⟩ := ih fun pair mem => right pair (List.mem_cons_of_mem _ mem)
      have key := right pair List.mem_cons_self pair.1 (by simp)
      have value := right pair List.mem_cons_self pair.2 (by simp)
      rw [List.mapM_cons, later, readPair, decode, decode, key, value]
      exact ⟨_, rfl⟩
  obtain ⟨read, is_⟩ := all (pairs q) right
  rw [parseQuery, is_]
  exact ⟨_, rfl⟩

/-- A slice that ends inside a character; and a sign before a digit. -/
theorem cut_character_panics :
    parseQuery "a=%1é".toList = none ∧
      decodeFrom 0 (Text.encode "%+a".toList) ≠ some (meansFrom 0 (Text.encode "%+a".toList)) := by
  constructor <;> decide +kernel

end Velosearch.Cluster.Forward

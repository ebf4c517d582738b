import Mathlib.Data.List.Infix

/-!
# Text as bytes and as lines

What a program does with a text file that it reads whole: the bytes are decoded, all of
them or none, and the text is taken line by line. The two facts a reader of a file that
was cut short needs are here. What decodes of a cut is a beginning of the text
(`prefix_of_encode_append`), and the lines of a text are its lines up to a newline and
then the lines of the rest (`splitInclusive_line`).
-/

set_option autoImplicit false

namespace Velosearch.Text

/-! ## Bytes -/

/-- A text in UTF-8. -/
def encode (text : List Char) : List UInt8 :=
  text.flatMap String.utf8EncodeChar

/-- The text some bytes are, where they are one. -/
def readToString (bytes : List UInt8) : Option (List Char) :=
  bytes.toByteArray.utf8Decode?.map Array.toList

@[simp] theorem encode_append (text text' : List Char) :
    encode (text ++ text') = encode text ++ encode text' :=
  List.flatMap_append

theorem utf8Encode_eq (text : List Char) : text.utf8Encode = (encode text).toByteArray :=
  rfl

theorem toByteArray_inj {bytes bytes' : List UInt8} (h : bytes.toByteArray = bytes'.toByteArray) :
    bytes = bytes' := by
  have := congrArg (fun b : ByteArray => b.data.toList) h
  simpa using this

/-- Bytes are a text exactly when they are its encoding. -/
theorem readToString_eq_some_iff {bytes : List UInt8} {text : List Char} :
    readToString bytes = some text ↔ bytes = encode text := by
  constructor
  · intro h
    obtain ⟨chars, decoded, rfl⟩ := Option.map_eq_some_iff.mp h
    have some : bytes.toByteArray.utf8Decode?.isSome := by rw [decoded]; rfl
    have back := ByteArray.utf8Encode_get_utf8Decode? (h := some)
    simp only [decoded, Option.get_some] at back
    exact (toByteArray_inj back).symm
  · rintro rfl
    rw [readToString, ← utf8Encode_eq, List.utf8Decode?_utf8Encode]
    simp

theorem encode_cons_inj {c d : Char} {bytes bytes' : List UInt8}
    (h : String.utf8EncodeChar c ++ bytes = String.utf8EncodeChar d ++ bytes') :
    c = d ∧ bytes = bytes' := by
  have first : ∀ (c : Char) (bytes : List UInt8),
      (String.utf8EncodeChar c ++ bytes).toByteArray.utf8DecodeChar? 0 = some c := by
    intro c bytes
    rw [List.toByteArray_append]
    exact ByteArray.utf8DecodeChar?_utf8EncodeChar_append
  have same : some c = some d := by rw [← first c bytes, h, first]
  obtain rfl := Option.some.inj same
  exact ⟨rfl, List.append_cancel_left h⟩

theorem prefix_of_encode_append {text text' : List Char} {rest : List UInt8}
    (h : encode text ++ rest = encode text') : text <+: text' := by
  induction text generalizing text' with
  | nil => exact List.nil_prefix
  | cons c text ih =>
    cases text' with
    | nil => simp [encode] at h
    | cons d text' =>
      obtain ⟨rfl, h⟩ := encode_cons_inj (c := c) (d := d) (by simpa [encode] using h)
      exact List.cons_prefix_cons.mpr ⟨rfl, ih (by simpa [encode] using h)⟩

/-! ## Finding a text in another -/

/-- `find`, of a text that is not empty: what stands before the first of it, and after. -/
def find (d : List Char) : List Char → Option (List Char × List Char)
  | [] => none
  | c :: text =>
    if d.isPrefixOf (c :: text) then some ([], (c :: text).drop d.length)
    else (find d text).map fun parts => (c :: parts.1, parts.2)

theorem find_eq {d text front rest : List Char} (h : find d text = some (front, rest)) :
    text = front ++ d ++ rest := by
  induction text generalizing front with
  | nil => cases h
  | cons c text ih =>
    rw [find] at h
    split at h
    case isTrue here =>
      cases h
      obtain ⟨more, eq⟩ := List.isPrefixOf_iff_prefix.mp here
      rw [← eq, List.drop_left, List.nil_append]
    case isFalse =>
      obtain ⟨⟨front', rest'⟩, found, same⟩ := Option.map_eq_some_iff.mp h
      cases same
      rw [ih found]
      rfl

/-- The first place of a needle. -/
theorem find_iff {d text front rest : List Char} (full : d ≠ []) :
    find d text = some (front, rest) ↔
      text = front ++ d ++ rest ∧ ∀ i < front.length, ¬ d <+: text.drop i := by
  induction text generalizing front with
  | nil =>
    refine iff_of_false (fun no => nomatch no) fun both => full ?_
    have none := both.1.symm
    rw [List.append_eq_nil_iff, List.append_eq_nil_iff] at none
    exact none.1.2
  | cons c text ih =>
    rw [find]
    by_cases here : d <+: c :: text
    · rw [if_pos (List.isPrefixOf_iff_prefix.mpr here)]
      constructor
      · intro h
        cases h
        obtain ⟨more, eq⟩ := here
        exact ⟨by rw [← eq, List.drop_left, List.nil_append], fun i less => absurd less (by simp)⟩
      · rintro ⟨eq, first⟩
        cases front with
        | nil => rw [eq, List.nil_append, List.drop_left]
        | cons b front => exact absurd here (first 0 (Nat.succ_pos _))
    · rw [if_neg fun is_ => here (List.isPrefixOf_iff_prefix.mp is_)]
      constructor
      · intro h
        obtain ⟨⟨front', rest'⟩, found, same⟩ := Option.map_eq_some_iff.mp h
        cases same
        obtain ⟨eq, first⟩ := ih.mp found
        refine ⟨by rw [eq]; rfl, fun i less => ?_⟩
        cases i with
        | zero => exact here
        | succ i => exact first i (Nat.lt_of_succ_lt_succ less)
      · rintro ⟨eq, first⟩
        cases front with
        | nil => exact absurd ⟨rest, eq.symm⟩ here
        | cons b front =>
          obtain ⟨rfl, tail⟩ := List.cons.inj eq
          rw [ih.mpr ⟨tail, fun i less => first (i + 1) (Nat.succ_lt_succ less)⟩]
          rfl

/-! ## Lines -/

theorem newline_utf8 {c : Char} (h : (10 : UInt8) ∈ String.utf8EncodeChar c) : c = '\n' := by
  have byte : ∀ n : Nat, (10 : UInt8) = UInt8.ofNat n ↔ n % 256 = 10 := by
    intro n
    rw [← UInt8.toNat_inj, UInt8.toNat_ofNat']
    constructor
    · intro eq
      exact eq.symm
    · intro eq
      exact eq.symm
  have same : c.toNat = 10 := by
    simp only [String.utf8EncodeChar] at h
    show c.val.toNat = 10
    split at h
    · simp only [List.mem_singleton, byte] at h
      omega
    · split at h
      · simp only [List.mem_cons, List.not_mem_nil, or_false, byte] at h
        omega
      · split at h
        · simp only [List.mem_cons, List.not_mem_nil, or_false, byte] at h
          omega
        · simp only [List.mem_cons, List.not_mem_nil, or_false, byte] at h
          omega
  exact Char.toNat_inj.mp same

theorem newline_encode {text : List Char} (h : '\n' ∉ text) : (10 : UInt8) ∉ encode text := by
  intro mem
  obtain ⟨c, inside, at_⟩ := List.mem_flatMap.mp mem
  rw [newline_utf8 at_] at inside
  exact h inside

/-- `split_inclusive('\n')`: the lines of a text, each with its newline. -/
def splitInclusive : List Char → List (List Char)
  | [] => []
  | c :: text =>
    if c = '\n' then ['\n'] :: splitInclusive text
    else
      match splitInclusive text with
      | [] => [[c]]
      | line :: lines => (c :: line) :: lines

theorem splitInclusive_line {line : List Char} (h : '\n' ∉ line) (text : List Char) :
    splitInclusive (line ++ '\n' :: text) = (line ++ ['\n']) :: splitInclusive text := by
  induction line with
  | nil => simp [splitInclusive]
  | cons c line ih =>
    obtain ⟨other, h⟩ : '\n' ≠ c ∧ '\n' ∉ line := by simpa using h
    rw [List.cons_append, splitInclusive, if_neg other.symm, ih h]
    rfl

theorem splitInclusive_tail {tail : List Char} (h : '\n' ∉ tail) :
    splitInclusive tail = if tail = [] then [] else [tail] := by
  induction tail with
  | nil => rfl
  | cons c tail ih =>
    obtain ⟨other, h⟩ : '\n' ≠ c ∧ '\n' ∉ tail := by simpa using h
    rw [splitInclusive, if_neg other.symm, ih h]
    cases tail <;> rfl

/-- Lines read back. -/
theorem splitInclusive_lines {bodies : List (List Char)} (single : ∀ b ∈ bodies, '\n' ∉ b)
    {tail : List Char} (clean : '\n' ∉ tail) :
    splitInclusive (bodies.flatMap (· ++ ['\n']) ++ tail) =
      bodies.map (· ++ ['\n']) ++ if tail = [] then [] else [tail] := by
  induction bodies with
  | nil => simpa using splitInclusive_tail clean
  | cons b bodies ih =>
    rw [List.flatMap_cons, List.append_assoc, List.append_assoc, List.singleton_append,
      splitInclusive_line (single b List.mem_cons_self),
      ih fun b' hb' => single b' (List.mem_cons_of_mem _ hb'), List.map_cons, List.cons_append]

/-- `char::is_whitespace`: the characters of the property White_Space. -/
def isWhiteSpace (c : Char) : Bool :=
  let n := c.toNat
  (9 ≤ n && n ≤ 13) || n == 0x20 || n == 0x85 || n == 0xa0 || n == 0x1680 ||
    (0x2000 ≤ n && n ≤ 0x200a) || n == 0x2028 || n == 0x2029 || n == 0x202f || n == 0x205f ||
      n == 0x3000

/-- A text without white space at its ends. -/
def trim (text : List Char) : List Char :=
  ((text.dropWhile isWhiteSpace).reverse.dropWhile isWhiteSpace).reverse

/-- A line of `lines()`: without its newline, and the carriage return before it. -/
def strip (line : List Char) : List Char :=
  match line.reverse with
  | '\n' :: '\r' :: rest => rest.reverse
  | '\n' :: rest => rest.reverse
  | _ => line

/-- `lines()` -/
def lines (text : List Char) : List (List Char) :=
  (splitInclusive text).map strip

/-- A line without white space at its ends, beside its newline. -/
theorem trim_line {line : List Char} {a b : Char} (first : isWhiteSpace a = false)
    (last : isWhiteSpace b = false) : trim (a :: line ++ [b] ++ ['\n']) = a :: line ++ [b] := by
  have white : isWhiteSpace '\n' = true := by decide
  simp [trim, first, last, white]

theorem trim_bracketed {line : List Char} {a b : Char} (first : isWhiteSpace a = false)
    (last : isWhiteSpace b = false) : trim (a :: line ++ [b]) = a :: line ++ [b] := by
  simp [trim, first, last]

theorem dropWhile_eq_self {p : Char → Bool} (text : List Char)
    (long : text.length ≤ (text.dropWhile p).length) : text.dropWhile p = text :=
  (List.dropWhile_suffix p).eq_of_length_le long

theorem trim_cons {c : Char} {text : List Char} (black : isWhiteSpace c = false)
    (some_ : text ≠ []) (trimmed : trim text = text) : trim (c :: text) = c :: text := by
  have whole := congrArg List.length trimmed
  rw [trim, List.length_reverse] at whole
  have inner :=
    (List.dropWhile_suffix isWhiteSpace (l := (text.dropWhile isWhiteSpace).reverse)).length_le
  have outer := (List.dropWhile_suffix isWhiteSpace (l := text)).length_le
  rw [List.length_reverse] at inner
  have start := dropWhile_eq_self (p := isWhiteSpace) text (by omega)
  rw [start] at whole
  have back := dropWhile_eq_self (p := isWhiteSpace) text.reverse (by simp [whole])
  obtain ⟨d, rest, eq⟩ := List.exists_cons_of_ne_nil (List.reverse_ne_nil_iff.mpr some_)
  have white : isWhiteSpace d = false := by
    rw [eq, List.dropWhile_cons] at back
    split at back
    · have shorter := congrArg List.length back
      have := (List.dropWhile_suffix isWhiteSpace (l := rest)).length_le
      simp only [List.length_cons] at shorter
      omega
    · exact Bool.eq_false_iff.mpr ‹_›
  have last : text = rest.reverse ++ [d] := by
    rw [← List.reverse_reverse text, eq, List.reverse_cons]
  simp [trim, black, last, white]

theorem trim_head {c : Char} (black : isWhiteSpace c = false) (text : List Char) :
    ∃ rest, trim (c :: text) = c :: rest := by
  have last : ∀ (rest : List Char), ∃ more,
      (rest ++ [c]).dropWhile isWhiteSpace = more ++ [c] := by
    intro rest
    induction rest with
    | nil => exact ⟨[], by simp [black]⟩
    | cons d rest ih =>
      rw [List.cons_append, List.dropWhile_cons]
      split
      · exact ih
      · exact ⟨d :: rest, rfl⟩
  obtain ⟨more, eq⟩ := last text.reverse
  exact ⟨more.reverse, by simp [trim, black, eq]⟩

theorem strip_line {line : List Char} {b : Char} (last : b ≠ '\r') :
    strip (line ++ [b] ++ ['\n']) = line ++ [b] := by
  have back : (line ++ [b] ++ ['\n']).reverse = '\n' :: b :: line.reverse := by simp
  rw [strip, back]
  split
  case h_1 rest eq =>
    simp only [List.cons.injEq] at eq
    exact absurd eq.2.1 last
  case h_2 rest _ eq =>
    simp only [List.cons.injEq] at eq
    simp [← eq.2]
  case h_3 none => exact absurd rfl (none _)

end Velosearch.Text

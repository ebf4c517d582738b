import Velosearch.Store.DateForms
import Velosearch.Lib.Text
import Mathlib.Data.List.Chain
import Mathlib.Data.List.GetD

/-!
# Cutting a text into chunks

`Algorithm::parse` and `chunks` of `src/ingest/chunking.rs`. A text is cut after a number of
tokens, after a number of UTF-16 units, or behind a delimiter. The tokenizer is a parameter; an
index or a slice out of range, or inside a character, would be a panic and is `none`.
-/

set_option autoImplicit false

namespace Velosearch.Ingest.Chunking

open Search (F64)
open DateText (byteLen)

/-! ## Parameters -/

/-- A parameter of the processor. -/
inductive Param where
  | number (x : F64)
  | text (s : List Char)
  | other

/-- The parameters. -/
abbrev Config := List (String × Param)

/-- A parameter that is a number. -/
def number (cfg : Config) (key : String) : Option F64 :=
  match cfg.lookup key with
  | some (.number x) => some x
  | some (.text s) => DateForm.parseF64 (Text.trim s)
  | _ => none

/-- The same as a whole number. -/
def whole (cfg : Config) (key : String) (default : ℤ) : ℤ :=
  ((number cfg key).map F64.toI64).getD default

/-- How far pieces overlap, from the rate that is asked for. -/
def overlapOf (cfg : Config) (limit : ℤ) : Except String ℕ :=
  match (number cfg "overlap_rate").getD (.fin 0) with
  | .fin rate =>
    if 0 ≤ rate ∧ rate ≤ 1 / 2 then
      match F64.nearest (F64.roundInt limit * rate) with
      | .fin units => .ok ⌊units⌋.toNat
      | _ => .ok 0
    else .error "Parameter [overlap_rate] must be between 0.0 and 0.5"
  | _ => .error "Parameter [overlap_rate] must be between 0.0 and 0.5"

/-- How many pieces a text may be cut into. -/
def atMostOf (cfg : Config) : Except String ℤ :=
  let atMost := whole cfg "max_chunk_limit" 100
  if atMost ≤ 0 ∧ atMost ≠ -1 then
    .error "Parameter [max_chunk_limit] must be positive or -1 to disable this parameter"
  else .ok atMost

/-- How long pieces are, and how far they overlap. -/
structure Pace where
  limit : ℕ
  overlap : ℕ
  atMost : ℤ
  positive : 0 < limit

/-- The algorithms. -/
inductive Algorithm where
  | fixedToken (pace : Pace) (tokenizer : List Char)
  | delimiter (delimiter : {d : List Char // d ≠ []}) (atMost : ℤ)
  | fixedChar (pace : Pace)

/-- The tokenizers that may be named. -/
def tokenizers : List String :=
  ["whitespace", "thai", "letter", "uax_url_email", "lowercase", "standard", "classic"]

/-- Their names. -/
def algorithms : List String :=
  ["fixed_token_length", "delimiter", "fixed_char_length"]

/-- The pace a configuration asks for. -/
def paceOf (cfg : Config) (key : String) (default : ℤ) : Except String Pace := do
  let limit := whole cfg key default
  if positive : 0 < limit then
    return { limit := limit.toNat, overlap := ← overlapOf cfg limit, atMost := ← atMostOf cfg,
             positive := Int.pos_iff_toNat_pos.mp positive }
  else .error s!"Parameter [{key}] must be positive."

/-- `Algorithm::parse`, of the names that stand in the object and what is configured under each;
what is no object configures nothing. -/
def Algorithm.parse (algorithm : List (String × Option Config)) : Except String Algorithm := do
  if 1 < algorithm.length then
    .error "Unable to create text_chunking processor as [algorithm] contains multiple algorithms"
  let (name, cfg) := match algorithm with
    | (name, cfg) :: _ => (name, cfg.getD [])
    | [] => ("fixed_token_length", [])
  if name ∉ algorithms then
    .error (s!"Chunking algorithm [{name}] is not supported. Supported chunking algorithms are [" ++
      ", ".intercalate algorithms ++ "]")
  if name = "fixed_token_length" then
    if whole cfg "token_limit" 384 ≤ 0 then .error "Parameter [token_limit] must be positive."
    let tokenizer := match cfg.lookup "tokenizer" with
      | some (.text s) => s
      | _ => "standard".toList
    if String.ofList tokenizer ∉ tokenizers then
      .error (s!"Tokenizer [{String.ofList tokenizer}] is not supported for [fixed_token_length] " ++
        "algorithm. Supported tokenizers are [" ++ ", ".intercalate tokenizers ++ "]")
    return .fixedToken (← paceOf cfg "token_limit" 384) tokenizer
  else if name = "fixed_char_length" then
    return .fixedChar (← paceOf cfg "char_limit" 2048)
  else
    let delimiter := match cfg.lookup "delimiter" with
      | some (.text s) => s
      | _ => ['\n', '\n']
    if full : delimiter ≠ [] then return .delimiter ⟨delimiter, full⟩ (← atMostOf cfg)
    else .error "Parameter [delimiter] should not be empty."

/-! ## Slices -/

/-- A text cut at a byte, if a character begins there. -/
def splitByte : ℕ → List Char → Option (List Char × List Char)
  | 0, text => some ([], text)
  | _ + 1, [] => none
  | n + 1, c :: text =>
    if c.utf8Size ≤ n + 1 then
      (splitByte (n + 1 - c.utf8Size) text).map fun parts => (c :: parts.1, parts.2)
    else none

/-- `text[i..j]` -/
def slice (text : List Char) (i j : ℕ) : Option (List Char) :=
  if i ≤ j then do
    let (head, _) ← splitByte j text
    let (_, part) ← splitByte i head
    return part
  else none

/-- A piece, with where it begins and ends. -/
structure Piece where
  begins : ℕ
  ends : ℕ
  text : List Char

/-! ## Cutting -/

/-- The piece is the last there may be. -/
def lastAllowed (soFar : ℕ) (atMost : ℤ) : Bool :=
  decide (0 < atMost ∧ (soFar : ℤ) = atMost - 1)

/-- How far one piece begins behind the one before. -/
def Pace.step (p : Pace) : ℕ :=
  max (p.limit - p.overlap) 1

theorem Pace.step_pos (p : Pace) : 0 < p.step :=
  Nat.lt_of_lt_of_le Nat.one_pos (Nat.le_max_right _ _)

/-- The loop of `by_tokens` and of `by_chars`: from which unit to which each piece goes. -/
def windows (p : Pace) (total soFar first : ℕ) : List (ℕ × ℕ) :=
  if first < total then
    if (lastAllowed soFar p.atMost = true ∧ first + p.limit < total) ∨ total ≤ first + p.limit then
      [(first, total)]
    else (first, first + p.limit) :: windows p total (soFar + 1) (first + p.step)
  else []
termination_by total - first
decreasing_by
  have := p.step_pos
  omega

/-- The piece of a span. -/
def pieceAt (text : List Char) (from_ to_ : ℕ → Option ℕ) (span : ℕ × ℕ) : Option Piece := do
  let i ← from_ span.1
  let j ← to_ span.2
  return { begins := i, ends := j, text := ← slice text i j }

/-- The pieces of the spans. -/
def pieces (text : List Char) (from_ to_ : ℕ → Option ℕ) (spans : List (ℕ × ℕ)) :
    Option (List Piece) :=
  spans.mapM (pieceAt text from_ to_)

/-- `by_tokens`, of where the tokens begin. -/
def byTokens (p : Pace) (tokens : List ℕ) (text : List Char) : Option (List Piece) :=
  if tokens.isEmpty then some []
  else
    pieces text
      -- the first chunk takes what stands before the first token with it
      (fun first => if first = 0 then some 0 else tokens[first]?)
      (fun past => if past = tokens.length then some (byteLen text) else tokens[past]?)
      (windows p tokens.length 0 0)

/-- How many units of UTF-16 a character has. -/
def lenUtf16 (c : Char) : ℕ :=
  if c.toNat < 0x10000 then 1 else 2

/-- Where each unit of a text begins, in bytes. -/
def unitsFrom : ℕ → List Char → List ℕ
  | _, [] => []
  | i, c :: text => List.replicate (lenUtf16 c) i ++ unitsFrom (i + c.utf8Size) text

/-- Pieces of so many units. -/
def byChars (p : Pace) (text : List Char) : Option (List Piece) :=
  let places := unitsFrom 0 text ++ [byteLen text]
  pieces text (places[·]?) (places[·]?) (windows p (places.length - 1) 0 0)

/-- `by_delimiter`, of what is left of the text. -/
def byDelimiter (d : {d : List Char // d ≠ []}) (atMost : ℤ) (soFar begins : ℕ)
    (text : List Char) : List Piece :=
  let rest := if text.isEmpty then [] else [{ begins, ends := begins + byteLen text, text }]
  match found : Text.find d.1 text with
  | some (front, after) =>
    if lastAllowed soFar atMost then rest
    else
      let past := begins + byteLen (front ++ d.1)
      { begins, ends := past, text := front ++ d.1 } :: byDelimiter d atMost (soFar + 1) past after
  | none => rest
termination_by text.length
decreasing_by
  have whole := congrArg List.length (Text.find_eq found)
  have full := List.length_pos_of_ne_nil d.2
  rw [List.length_append, List.length_append] at whole
  omega

/-- Where the pieces stand that `chunks` makes of a text that is not blank. -/
def Algorithm.pieces (cut : List Char → List Char → List ℕ) (a : Algorithm) (text : List Char) :
    Option (List Piece) :=
  match a with
  | .fixedToken p tokenizer => byTokens p (cut tokenizer text) text
  | .fixedChar p => byChars p text
  | .delimiter d atMost => some (byDelimiter d atMost 0 0 text)

/-- The pieces of a text. -/
def Algorithm.chunks (cut : List Char → List Char → List ℕ) (a : Algorithm) (text : List Char) :
    Option (List (List Char)) :=
  if (Text.trim text).isEmpty then some []
  else (a.pieces cut text).map (List.map Piece.text)

/-! ## What is kept -/

/-- How many units begin before a byte. -/
def before (units : List ℕ) (i : ℕ) : ℕ :=
  units.countP fun u => decide (u < i)

/-- What pieces of a text should be. -/
structure Parts (atMost : ℤ) (apart : Prop) (text : List Char) (pieces : List Piece) : Prop where
  sliced : ∀ q ∈ pieces, slice text q.begins q.ends = some q.text
  first : ∃ q, pieces.head? = some q ∧ q.begins = 0
  last : ∃ q, pieces.getLast? = some q ∧ q.ends = byteLen text
  noGap : pieces.IsChain fun q r => q.begins ≤ r.begins ∧ r.begins ≤ q.ends
  whole : apart → pieces.flatMap Piece.text = text
  few : 0 < atMost → (pieces.length : ℤ) ≤ atMost

/-- What pieces of a pace should be. -/
structure Paced (p : Pace) (units : List ℕ) (pieces : List Piece) : Prop where
  steps : pieces.IsChain fun q r => before units r.begins = before units q.begins + p.step
  size : ∀ k q, pieces[k]? = some q → lastAllowed k p.atMost = false →
    before units q.ends ≤ before units q.begins + p.limit

/-- What the pieces of an algorithm should be. -/
def Algorithm.Keeps (cut : List Char → List Char → List ℕ) (text : List Char) (a : Algorithm) :
    Prop :=
  ∃ pieces, a.pieces cut text = some pieces ∧
    a.chunks cut text = some (pieces.map Piece.text) ∧ match a with
    | .fixedToken p tokenizer =>
      if cut tokenizer text = [] then pieces = []
      else Parts p.atMost (p.overlap = 0) text pieces ∧ Paced p (cut tokenizer text) pieces
    | .fixedChar p =>
      Parts p.atMost (p.overlap = 0) text pieces ∧ Paced p (unitsFrom 0 text) pieces
    | .delimiter _ atMost => Parts atMost True text pieces

/-! ## Slices at the boundaries of characters -/

theorem byteLen_append (a b : List Char) : byteLen (a ++ b) = byteLen a + byteLen b := by
  rw [byteLen, List.map_append, List.sum_append]
  rfl

theorem byteLen_cons (c : Char) (text : List Char) :
    byteLen (c :: text) = c.utf8Size + byteLen text := by
  rw [byteLen, List.map_cons, List.sum_cons]
  rfl

/-- A text is cut where two parts of it meet. -/
theorem splitByte_append (a b : List Char) : splitByte (byteLen a) (a ++ b) = some (a, b) := by
  induction a with
  | nil => cases b <;> rfl
  | cons c a ih =>
    have size := c.utf8Size_pos
    rw [byteLen_cons, List.cons_append]
    cases n : c.utf8Size + byteLen a with
    | zero => omega
    | succ k =>
      rw [splitByte, if_pos (by omega), show k + 1 - c.utf8Size = byteLen a by omega, ih]
      rfl

/-- A slice between two such places is what stands there. -/
theorem slice_append (a part b : List Char) :
    slice (a ++ part ++ b) (byteLen a) (byteLen (a ++ part)) = some part := by
  rw [slice, if_pos (by rw [byteLen_append]; exact Nat.le_add_right _ _), splitByte_append]
  show (splitByte (byteLen a) (a ++ part)).bind _ = _
  rw [splitByte_append]
  rfl

/-- A character begins or ends at the byte. -/
def Boundary (text : List Char) (i : ℕ) : Prop :=
  ∃ a b, text = a ++ b ∧ byteLen a = i

theorem part_between {text a b : List Char} (eq : text = a ++ b) {j : ℕ} (le : byteLen a ≤ j)
    (end_ : Boundary text j) :
    ∃ part rest, b = part ++ rest ∧ byteLen (a ++ part) = j ∧
      slice text (byteLen a) j = some part := by
  obtain ⟨head, rest, eq', rfl⟩ := end_
  have part : ∃ part, head = a ++ part := by
    rcases List.prefix_or_prefix_of_prefix ⟨b, eq.symm⟩ ⟨rest, eq'.symm⟩ with ⟨part, h⟩ | ⟨part, h⟩
    · exact ⟨part, h.symm⟩
    · rw [← h, byteLen_append] at le
      have none : part = [] := by
        cases part with
        | nil => rfl
        | cons c part =>
          have size := c.utf8Size_pos
          rw [byteLen_cons] at le
          omega
      rw [none, List.append_nil] at h
      exact ⟨[], by rw [h, List.append_nil]⟩
  obtain ⟨part, rfl⟩ := part
  refine ⟨part, rest, ?_, rfl, ?_⟩
  · rw [eq', List.append_assoc] at eq
    exact (List.append_cancel_left eq).symm
  · rw [eq']
    exact slice_append a part rest

/-! ## The loop -/

variable {p : Pace} {total : ℕ}

theorem Pace.step_le (p : Pace) : p.step ≤ p.limit :=
  Nat.max_le.mpr ⟨Nat.sub_le _ _, p.positive⟩

theorem lastAllowed_iff {soFar : ℕ} {atMost : ℤ} :
    lastAllowed soFar atMost = true ↔ 0 < atMost ∧ (soFar : ℤ) = atMost - 1 :=
  decide_eq_true_iff

/-- What the loop does: a round is the last, or the next begins a step on. -/
inductive Run (p : Pace) (total : ℕ) : ℕ → ℕ → List (ℕ × ℕ) → Prop
  | last {soFar first : ℕ} : first < total →
    lastAllowed soFar p.atMost = true ∨ total ≤ first + p.limit →
      Run p total soFar first [(first, total)]
  | next {soFar first : ℕ} {ws : List (ℕ × ℕ)} : first + p.limit < total →
    lastAllowed soFar p.atMost = false → Run p total (soFar + 1) (first + p.step) ws →
      Run p total soFar first ((first, first + p.limit) :: ws)

/-- The windows of a pace are a run of it. -/
theorem run_windows {soFar first : ℕ} (lt : first < total) :
    Run p total soFar first (windows p total soFar first) := by
  induction soFar, first using windows.induct p total with
  | case1 soFar first _ stop =>
    rw [windows, if_pos lt, if_pos stop]
    exact .last lt (stop.imp_left And.left)
  | case2 soFar first _ goes ih =>
    rw [windows, if_pos lt, if_neg goes]
    rw [not_or, not_and, Nat.not_le] at goes
    have step := p.step_le
    refine .next goes.2 ?_ (ih (by omega))
    exact Bool.eq_false_iff.mpr fun stop => goes.1 stop goes.2
  | case3 soFar first no => exact absurd lt no

variable {soFar first : ℕ} {ws : List (ℕ × ℕ)}

theorem Run.inside (run : Run p total soFar first ws) :
    ∀ w ∈ ws, w.1 < w.2 ∧ w.1 < total ∧ w.2 ≤ total := by
  have positive := p.positive
  induction run with
  | last lt _ =>
    intro w mem
    obtain rfl := List.mem_singleton.mp mem
    exact ⟨lt, lt, Nat.le_refl _⟩
  | next less _ _ ih =>
    intro w mem
    rcases List.mem_cons.mp mem with rfl | mem
    · dsimp only
      omega
    · exact ih w mem

theorem Run.head (run : Run p total soFar first ws) :
    ∃ past rest, ws = (first, past) :: rest := by
  cases run with
  | last => exact ⟨_, _, rfl⟩
  | next => exact ⟨_, _, rfl⟩

theorem Run.getLast (run : Run p total soFar first ws) :
    ∃ from_, ws.getLast? = some (from_, total) := by
  induction run with
  | @last _ from_ _ _ => exact ⟨from_, rfl⟩
  | next _ _ run ih =>
    obtain ⟨past, rest, rfl⟩ := run.head
    exact ih

/-- Each begins a step behind the one before. -/
theorem Run.isChain (run : Run p total soFar first ws) :
    ws.IsChain fun v w => w.1 = v.1 + p.step ∧ v.2 = v.1 + p.limit := by
  induction run with
  | last => exact .singleton _
  | next _ _ run ih =>
    obtain ⟨past, rest, rfl⟩ := run.head
    exact .cons_cons ⟨rfl, rfl⟩ ih

/-- There are no more than allowed. -/
theorem Run.length_le (run : Run p total soFar first ws)
    (allowed : (soFar : ℤ) < p.atMost) : (soFar + ws.length : ℤ) ≤ p.atMost := by
  induction run with
  | last =>
    rw [List.length_singleton]
    omega
  | next _ goes _ ih =>
    have more := mt lastAllowed_iff.mpr (by rw [goes]; decide)
    have := ih (by omega)
    rw [List.length_cons]
    push_cast at this ⊢
    omega

theorem Run.size (run : Run p total soFar first ws) {k : ℕ} {w : ℕ × ℕ} (is_ : ws[k]? = some w)
    (more : lastAllowed (soFar + k) p.atMost = false) : w.2 ≤ w.1 + p.limit := by
  induction run generalizing k with
  | last _ stop =>
    cases k with
    | zero =>
      cases is_
      exact stop.resolve_left (by rw [Nat.add_zero] at more; rw [more]; decide)
    | succ k => cases is_
  | next _ _ _ ih =>
    cases k with
    | zero =>
      cases is_
      exact Nat.le_refl _
    | succ k => exact ih is_ (by rwa [Nat.add_right_comm, Nat.add_assoc])

/-- The pace begins its piece there. -/
def Begins (p : Pace) (total k : ℕ) : Prop :=
  k = 0 ∨ (k - 1) * p.step + p.limit < total ∧ (p.atMost ≤ 0 ∨ (k : ℤ) < p.atMost)

theorem Run.begins (run : Run p total soFar first ws) {k : ℕ} {w : ℕ × ℕ}
    (is_ : ws[k]? = some w) : w.1 = first + k * p.step := by
  induction run generalizing k with
  | last =>
    cases k with
    | zero => cases is_; omega
    | succ k => cases is_
  | next _ _ _ ih =>
    cases k with
    | zero => cases is_; omega
    | succ k =>
      rw [ih is_, Nat.succ_mul]
      omega

/-- Which windows begin, and where. -/
theorem Run.begins_iff (run : Run p total soFar first ws)
    (allowed : 0 < p.atMost → (soFar : ℤ) < p.atMost) (k : ℕ) : k < ws.length ↔ k = 0 ∨
      first + (k - 1) * p.step + p.limit < total ∧
        (p.atMost ≤ 0 ∨ (soFar + k : ℤ) < p.atMost) := by
  induction run generalizing k with
  | last _ stop =>
    rw [List.length_singleton, Nat.lt_one_iff]
    refine (or_iff_left_of_imp ?_).symm
    rintro ⟨less, few⟩
    rcases stop with stop | stop
    · have := lastAllowed_iff.mp stop
      omega
    · omega
  | next less goes _ ih =>
    have more := mt lastAllowed_iff.mpr (by rw [goes]; decide)
    cases k with
    | zero => simp
    | succ k =>
      rw [List.length_cons, Nat.add_lt_add_iff_right, ih (by omega)]
      cases k with
      | zero =>
        rw [Nat.zero_add, Nat.sub_self, Nat.zero_mul]
        refine iff_of_true (.inl rfl) (.inr ⟨less, ?_⟩)
        omega
      | succ k =>
        rw [Nat.add_sub_cancel, Nat.add_sub_cancel, Nat.succ_mul]
        omega

/-! ## Pieces from place to place -/

/-- Where units begin: in order, at boundaries, from the start of the text to its end. -/
structure Places (text : List Char) (total : ℕ) (place : ℕ → ℕ) : Prop where
  mono : ∀ f g, f ≤ g → g ≤ total → place f ≤ place g
  zero : place 0 = 0
  top : place total = byteLen text
  cut : ∀ f ≤ total, Boundary text (place f)

/-- The pieces the loop's spans are made into. -/
structure Made (p : Pace) (text : List Char) (place : ℕ → ℕ) (first : ℕ) (ws : List (ℕ × ℕ))
    (ps : List Piece) : Prop where
  spans : ps.map (fun q => (q.begins, q.ends)) = ws.map fun w => (place w.1, place w.2)
  sliced : ∀ q ∈ ps, slice text q.begins q.ends = some q.text
  whole : p.overlap = 0 → ∀ a b, text = a ++ b → byteLen a = place first →
    ps.flatMap Piece.text = b

variable {text : List Char} {place : ℕ → ℕ} {from_ to_ : ℕ → Option ℕ}

/-- Between two places of a text is a part of it. -/
theorem Places.part (places : Places text total place) {f t : ℕ} (le : f ≤ t) (in_ : t ≤ total) :
    ∃ part, slice text (place f) (place t) = some part ∧
      ∀ a b, text = a ++ b → byteLen a = place f →
        ∃ rest, b = part ++ rest ∧ byteLen (a ++ part) = place t := by
  obtain ⟨a, b, eq, here⟩ := places.cut f (le.trans in_)
  have between := fun a b (eq : text = a ++ b) (here : byteLen a = place f) =>
    part_between eq (here ▸ places.mono f t le in_) (places.cut t in_)
  obtain ⟨part, rest, -, -, is_⟩ := between a b eq here
  refine ⟨part, here ▸ is_, fun a b eq here' => ?_⟩
  obtain ⟨part', rest, eq', end_, is'⟩ := between a b eq here'
  have same : part = part' := by
    rw [here] at is_
    rw [here', is_] at is'
    exact Option.some.inj is'
  exact ⟨rest, same ▸ eq', same ▸ end_⟩

theorem byteLen_eq_zero {text : List Char} (h : byteLen text = 0) : text = [] := by
  cases text with
  | nil => rfl
  | cons c text =>
    have size := c.utf8Size_pos
    rw [byteLen_cons] at h
    omega

theorem Pace.step_eq (apart : p.overlap = 0) : p.step = p.limit := by
  rw [Pace.step, apart, Nat.sub_zero]
  exact Nat.max_eq_left p.positive

theorem pieceAt_eq {span : ℕ × ℕ} {i j : ℕ} {part : List Char} (start : from_ span.1 = some i)
    (end_ : to_ span.2 = some j) (is_ : slice text i j = some part) :
    pieceAt text from_ to_ span = some ⟨i, j, part⟩ := by
  simp only [pieceAt, start, end_, is_, Option.bind_eq_bind, Option.bind_some]
  rfl

/-- The pieces of a run of windows. -/
theorem made_of_run (run : Run p total soFar first ws) (places : Places text total place)
    (fromEq : ∀ f < total, from_ f = some (place f))
    (toEq : ∀ t, 0 < t → t ≤ total → to_ t = some (place t)) :
    ∃ ps, pieces text from_ to_ ws = some ps ∧ Made p text place first ws ps := by
  have positive := p.positive
  induction run with
  | @last _ first lt _ =>
    obtain ⟨part, is_, cut⟩ := places.part lt.le (Nat.le_refl total)
    refine ⟨[⟨place first, place total, part⟩], ?_, rfl, ?_, ?_⟩
    · rw [pieces, List.mapM_cons,
        pieceAt_eq (fromEq first lt) (toEq total (Nat.zero_lt_of_lt lt) (Nat.le_refl _)) is_]
      rfl
    · intro q mem
      obtain rfl := List.mem_singleton.mp mem
      exact is_
    · intro _ a b eq here
      obtain ⟨rest, rfl, end_⟩ := cut a b eq here
      have none : rest = [] := by
        rw [places.top, eq, ← List.append_assoc, byteLen_append (a ++ part)] at end_
        exact byteLen_eq_zero (by omega)
      rw [none]
      rfl
  | @next _ first ws less _ run ih =>
    obtain ⟨ps, made, spans, sliced, whole⟩ := ih
    obtain ⟨part, is_, cut⟩ := places.part (Nat.le_add_right first p.limit) less.le
    refine ⟨⟨place first, place (first + p.limit), part⟩ :: ps, ?_, ?_, ?_, ?_⟩
    · rw [pieces] at made
      rw [pieces, List.mapM_cons, made, pieceAt_eq (fromEq first (by omega))
        (toEq (first + p.limit) (by omega) less.le) is_]
      rfl
    · rw [List.map_cons, List.map_cons, spans]
    · intro q mem
      rcases List.mem_cons.mp mem with rfl | mem
      · exact is_
      · exact sliced q mem
    · intro apart a b eq here
      obtain ⟨rest, rfl, end_⟩ := cut a b eq here
      rw [← Pace.step_eq apart] at end_
      rw [List.flatMap_cons, whole apart (a ++ part) rest (by rw [eq, List.append_assoc]) end_]

/-- What is so of pieces next to each other is so of their windows. -/
theorem Made.isChain_iff {ps : List Piece} (made : Made p text place first ws ps)
    (R : ℕ × ℕ → ℕ × ℕ → Prop) :
    (ps.IsChain fun q r => R (q.begins, q.ends) (r.begins, r.ends)) ↔
      ws.IsChain fun v w => R (place v.1, place v.2) (place w.1, place w.2) := by
  rw [← List.isChain_map (R := R) fun q : Piece => (q.begins, q.ends), made.spans, List.isChain_map]

theorem Made.get {ps : List Piece} (made : Made p text place first ws ps) {k : ℕ} {q : Piece}
    (is_ : ps[k]? = some q) :
    ∃ w, ws[k]? = some w ∧ q.begins = place w.1 ∧ q.ends = place w.2 := by
  have same := congrArg (·[k]?) made.spans
  simp only [List.getElem?_map, is_, Option.map_some] at same
  obtain ⟨w, found, eq⟩ := Option.map_eq_some_iff.mp same.symm
  exact ⟨w, found, (congrArg Prod.fst eq).symm, (congrArg Prod.snd eq).symm⟩

/-- Pieces of windows are parts of the text. -/
theorem Made.parts {ps : List Piece} (run : Run p total 0 0 ws) (places : Places text total place)
    (made : Made p text place 0 ws ps) : Parts p.atMost (p.overlap = 0) text ps := by
  have lengths : ps.length = ws.length := by
    simpa only [List.length_map] using congrArg List.length made.spans
  refine ⟨made.sliced, ?_, ?_, ?_, ?_, ?_⟩
  · obtain ⟨past, rest, rfl⟩ := run.head
    cases ps with
    | nil => cases lengths
    | cons q ps =>
      obtain ⟨w, is_, begins, -⟩ := made.get (k := 0) rfl
      cases is_
      exact ⟨q, rfl, begins.trans places.zero⟩
  · obtain ⟨from_, is_⟩ := run.getLast
    have last := congrArg List.getLast? made.spans
    rw [List.getLast?_map, List.getLast?_map, is_] at last
    obtain ⟨q, found, eq⟩ := Option.map_eq_some_iff.mp last
    exact ⟨q, found, (congrArg Prod.snd eq).trans places.top⟩
  · refine (made.isChain_iff fun v w => v.1 ≤ w.1 ∧ w.1 ≤ v.2).mpr ?_
    refine run.isChain.imp_of_mem_imp fun v w memV memW next => ?_
    have within := run.inside v memV
    have step := p.step_le
    exact ⟨places.mono _ _ (by omega) (run.inside w memW).2.1.le, places.mono _ _ (by omega) within.2.2⟩
  · intro apart
    exact made.whole apart [] text rfl places.zero.symm
  · intro some_
    have := run.length_le (by exact_mod_cast some_)
    rw [lengths]
    omega

/-! ## Tokens -/

/-- Tokens begin one behind the other. -/
structure Increasing (text : List Char) (tokens : List ℕ) : Prop where
  sorted : tokens.Pairwise (· < ·)
  cut : ∀ i ∈ tokens, Boundary text i

theorem before_token {tokens : List ℕ} (sorted : tokens.Pairwise (· < ·)) {f i : ℕ}
    (is_ : tokens[f]? = some i) : before tokens i = f := by
  induction tokens generalizing f with
  | nil => cases is_
  | cons t tokens ih =>
    obtain ⟨after, sorted⟩ := List.pairwise_cons.mp sorted
    cases f with
    | zero =>
      cases is_
      refine List.countP_eq_zero.mpr fun u mem => ?_
      rcases List.mem_cons.mp mem with rfl | mem
      · simp
      · simpa using (after u mem).le
    | succ f =>
      have here : t < i := after i (List.mem_of_getElem? is_)
      rw [before, List.countP_cons_of_pos (by simpa using here)]
      exact congrArg Nat.succ (ih sorted is_)

/-- Where a token begins. -/
def tokenPlace (tokens : List ℕ) (text : List Char) (f : ℕ) : ℕ :=
  if f = 0 then 0 else tokens[f]?.getD (byteLen text)

theorem boundary_le {i : ℕ} (here : Boundary text i) : i ≤ byteLen text := by
  obtain ⟨a, b, rfl, rfl⟩ := here
  rw [byteLen_append]
  exact Nat.le_add_right _ _

theorem tokenPlace_places {tokens : List ℕ} (h : Increasing text tokens) (full : tokens ≠ []) :
    Places text tokens.length (tokenPlace tokens text) := by
  have bound : ∀ f : ℕ, Boundary text (tokens[f]?.getD (byteLen text)) := by
    intro f
    cases is_ : tokens[f]? with
    | none => exact ⟨text, [], (List.append_nil _).symm, rfl⟩
    | some i => exact h.cut i (List.mem_of_getElem? is_)
  refine ⟨fun f g le in_ => ?_, rfl, ?_, fun f _ => ?_⟩
  · unfold tokenPlace
    by_cases zero : f = 0
    · rw [if_pos zero]
      exact Nat.zero_le _
    · rw [if_neg zero, if_neg (by omega)]
      cases is_ : tokens[g]? with
      | none => exact boundary_le (bound f)
      | some j =>
        obtain ⟨lt, rfl⟩ := List.getElem?_eq_some_iff.mp is_
        rw [List.getElem?_eq_getElem (Nat.lt_of_le_of_lt le lt)]
        rcases Nat.eq_or_lt_of_le le with rfl | less
        · exact Nat.le_refl _
        · exact (List.pairwise_iff_getElem.mp h.sorted f g _ lt less).le
  · have past : tokens[tokens.length]? = none := List.getElem?_eq_none (Nat.le_refl _)
    rw [tokenPlace, if_neg (List.length_pos_of_ne_nil full).ne', past]
    rfl
  · unfold tokenPlace
    split
    · exact ⟨[], text, rfl, rfl⟩
    · exact bound f

/-- Pieces of tokens. -/
theorem byTokens_keeps {tokens : List ℕ} (h : Increasing text tokens) :
    ∃ ps, byTokens p tokens text = some ps ∧ if tokens = [] then ps = []
      else Parts p.atMost (p.overlap = 0) text ps ∧ Paced p tokens ps := by
  by_cases empty : tokens = []
  · subst empty
    exact ⟨[], rfl, by rw [if_pos rfl]⟩
  · have some_ := List.length_pos_of_ne_nil empty
    have run : Run p tokens.length 0 0 (windows p tokens.length 0 0) := run_windows some_
    have places := tokenPlace_places h empty
    have fromEq : ∀ f < tokens.length, (if f = 0 then some 0 else tokens[f]?) =
        some (tokenPlace tokens text f) := by
      intro f lt
      rw [tokenPlace, List.getElem?_eq_getElem lt]
      split <;> rfl
    have toEq : ∀ t, 0 < t → t ≤ tokens.length →
        (if t = tokens.length then some (byteLen text) else tokens[t]?) =
          some (tokenPlace tokens text t) := by
      intro t positive le
      rw [tokenPlace, if_neg positive.ne']
      split
      case isTrue eq =>
        have past : tokens[t]? = none := List.getElem?_eq_none eq.ge
        rw [past]
        rfl
      case isFalse less =>
        have lt : t < tokens.length := Nat.lt_of_le_of_ne le less
        rw [List.getElem?_eq_getElem lt]
        rfl
    obtain ⟨ps, is_, made⟩ := made_of_run run places fromEq toEq
    refine ⟨ps, ?_, ?_⟩
    · rw [byTokens, if_neg (by simpa using empty)]
      exact is_
    -- as many tokens begin before one as its number is
    have count : ∀ f < tokens.length, before tokens (tokenPlace tokens text f) = f := by
      intro f lt
      unfold tokenPlace
      split
      case isTrue zero =>
        rw [zero]
        exact List.countP_eq_zero.mpr fun u _ => by simp
      case isFalse =>
        rw [List.getElem?_eq_getElem lt]
        exact before_token h.sorted (List.getElem?_eq_getElem lt)
    have most : ∀ t ≤ tokens.length, before tokens (tokenPlace tokens text t) ≤ t := by
      intro t le
      rcases Nat.eq_or_lt_of_le le with rfl | lt
      · exact List.countP_le_length
      · exact (count t lt).le
    rw [if_neg empty]
    refine ⟨made.parts run places, ?_, ?_⟩
    · refine (made.isChain_iff fun v w => before tokens w.1 = before tokens v.1 + p.step).mpr ?_
      refine run.isChain.imp_of_mem_imp fun v w memV memW next => ?_
      rw [count _ (run.inside v memV).2.1, count _ (run.inside w memW).2.1]
      exact next.1
    · intro k q found more
      obtain ⟨w, is_, begins, ends⟩ := made.get found
      have inside := run.inside w (List.mem_of_getElem? is_)
      rw [begins, ends, count _ inside.2.1]
      exact (most _ inside.2.2).trans (run.size is_ (by rwa [Nat.zero_add]))

/-! ## UTF-16 units -/

/-- How many units a text has. -/
def unitCount (text : List Char) : ℕ :=
  (text.map lenUtf16).sum

/-- The unit is the second half of a character. -/
def Inside (text : List Char) (f : ℕ) : Prop :=
  ∃ a c b, text = a ++ c :: b ∧ lenUtf16 c = 2 ∧ unitCount a + 1 = f

theorem unitCount_append (a b : List Char) : unitCount (a ++ b) = unitCount a + unitCount b := by
  rw [unitCount, List.map_append, List.sum_append]
  rfl

theorem unitCount_cons (c : Char) (text : List Char) :
    unitCount (c :: text) = lenUtf16 c + unitCount text := by
  rw [unitCount, List.map_cons, List.sum_cons]
  rfl

theorem lenUtf16_cases (c : Char) : lenUtf16 c = 1 ∨ lenUtf16 c = 2 := by
  unfold lenUtf16
  split
  · exact .inl rfl
  · exact .inr rfl

theorem unitCount_pos {text : List Char} (full : text ≠ []) : 0 < unitCount text := by
  cases text with
  | nil => exact absurd rfl full
  | cons c text =>
    rw [unitCount_cons]
    rcases lenUtf16_cases c with one | two <;> omega

theorem length_unitsFrom (i : ℕ) (text : List Char) : (unitsFrom i text).length = unitCount text := by
  induction text generalizing i with
  | nil => rfl
  | cons c text ih => rw [unitsFrom, List.length_append, List.length_replicate, ih, unitCount_cons]

theorem unitsFrom_append (i : ℕ) (a b : List Char) :
    unitsFrom i (a ++ b) = unitsFrom i a ++ unitsFrom (i + byteLen a) b := by
  induction a generalizing i with
  | nil => rfl
  | cons c a ih =>
    rw [List.cons_append, unitsFrom, unitsFrom, ih, List.append_assoc, byteLen_cons, Nat.add_assoc]

theorem mem_unitsFrom {i u : ℕ} {text : List Char} (mem : u ∈ unitsFrom i text) :
    i ≤ u ∧ u < i + byteLen text := by
  induction text generalizing i with
  | nil => cases mem
  | cons c text ih =>
    have size := c.utf8Size_pos
    rw [byteLen_cons]
    rcases List.mem_append.mp mem with here | later
    · rw [List.eq_of_mem_replicate here]
      omega
    · have := ih later
      omega

theorem before_units (a b : List Char) :
    before (unitsFrom 0 (a ++ b)) (byteLen a) = unitCount a := by
  have all : ∀ u ∈ unitsFrom 0 a, decide (u < byteLen a) = true := fun u mem =>
    decide_eq_true (by have := (mem_unitsFrom mem).2; omega)
  have none : (unitsFrom (0 + byteLen a) b).countP (fun u => decide (u < byteLen a)) = 0 :=
    List.countP_eq_zero.mpr fun u mem => by
      have := (mem_unitsFrom mem).1
      simp only [decide_eq_true_eq]
      omega
  rw [before, unitsFrom_append, List.countP_append, List.countP_eq_length.mpr all, none,
    length_unitsFrom]
  rfl

/-- Every unit begins with a character, or is its second half. -/
theorem unit_place {i f u : ℕ} {text : List Char}
    (is_ : (unitsFrom i text ++ [i + byteLen text])[f]? = some u) :
    ∃ a b, text = a ++ b ∧ u = i + byteLen a ∧
      (unitCount a = f ∨ ∃ c b', b = c :: b' ∧ lenUtf16 c = 2 ∧ unitCount a + 1 = f) := by
  induction text generalizing i f with
  | nil =>
    cases f with
    | zero => cases is_; exact ⟨[], [], rfl, rfl, .inl rfl⟩
    | succ f => cases is_
  | cons c text ih =>
    by_cases here : f < lenUtf16 c
    · have first : u = i := by
        rw [unitsFrom, List.append_assoc, List.getElem?_append_left (by simpa using here),
          List.getElem?_replicate, if_pos here] at is_
        exact (Option.some.inj is_).symm
      refine ⟨[], c :: text, rfl, first, ?_⟩
      rcases lenUtf16_cases c with one | two
      · exact .inl (by rw [one] at here; exact (Nat.lt_one_iff.mp here).symm)
      · cases f with
        | zero => exact .inl rfl
        | succ f => exact .inr ⟨c, text, rfl, two, by show 0 + 1 = f + 1; omega⟩
    · rw [unitsFrom, List.append_assoc, List.getElem?_append_right (by simpa using here),
        List.length_replicate, byteLen_cons, ← Nat.add_assoc] at is_
      obtain ⟨a, b, rfl, rfl, which⟩ := ih is_
      refine ⟨c :: a, b, rfl, by rw [byteLen_cons, Nat.add_assoc], ?_⟩
      rw [unitCount_cons]
      rcases which with first | ⟨d, b', rfl, two, second⟩
      · exact .inl (by omega)
      · exact .inr ⟨d, b', rfl, two, by omega⟩

/-- Units begin one after another. -/
theorem units_sorted (i : ℕ) (text : List Char) :
    (unitsFrom i text ++ [i + byteLen text]).Pairwise (· ≤ ·) := by
  induction text generalizing i with
  | nil => exact List.pairwise_singleton _ _
  | cons c text ih =>
    rw [unitsFrom, List.append_assoc, byteLen_cons, ← Nat.add_assoc]
    refine List.pairwise_append.mpr ⟨List.pairwise_replicate.mpr (.inr (Nat.le_refl i)), ih _, ?_⟩
    intro u here v later
    rw [List.eq_of_mem_replicate here]
    rcases List.mem_append.mp later with later | last
    · exact (Nat.le_add_right _ _).trans (mem_unitsFrom later).1
    · rw [List.mem_singleton.mp last]
      omega

/-- Where a unit begins. -/
def unitPlace (text : List Char) (f : ℕ) : ℕ :=
  (unitsFrom 0 text ++ [byteLen text])[f]?.getD 0

theorem unitPlace_eq {text : List Char} {f : ℕ} (le : f ≤ unitCount text) :
    (unitsFrom 0 text ++ [byteLen text])[f]? = some (unitPlace text f) := by
  have lt : f < (unitsFrom 0 text ++ [byteLen text]).length := by
    rw [List.length_append, length_unitsFrom]
    exact Nat.lt_succ_of_le le
  rw [unitPlace, List.getElem?_eq_getElem lt]
  rfl

/-- Where a place in units is, in characters. -/
theorem unitPlace_at {text : List Char} {f : ℕ} (le : f ≤ unitCount text) :
    ∃ a b, text = a ++ b ∧ unitPlace text f = byteLen a ∧
      (unitCount a = f ∨ ∃ c b', b = c :: b' ∧ lenUtf16 c = 2 ∧ unitCount a + 1 = f) := by
  have is_ := unitPlace_eq le
  rw [← Nat.zero_add (byteLen text)] at is_
  obtain ⟨a, b, eq, here, which⟩ := unit_place is_
  exact ⟨a, b, eq, by rw [here, Nat.zero_add], which⟩

/-- Units are places of the text. -/
theorem unitPlace_places (text : List Char) : Places text (unitCount text) (unitPlace text) := by
  refine ⟨fun f g le in_ => ?_, ?_, ?_, fun f le => ?_⟩
  · obtain ⟨lt, eq⟩ := List.getElem?_eq_some_iff.mp (unitPlace_eq in_)
    obtain ⟨lt', eq'⟩ := List.getElem?_eq_some_iff.mp (unitPlace_eq (le.trans in_))
    rcases Nat.eq_or_lt_of_le le with rfl | less
    · exact Nat.le_refl _
    · have sorted := units_sorted 0 text
      rw [Nat.zero_add] at sorted
      have := List.pairwise_iff_getElem.mp sorted f g lt' lt less
      omega
  · obtain ⟨a, b, eq, here, which⟩ := unitPlace_at (Nat.zero_le (unitCount text))
    rcases which with first | ⟨c, b', -, -, second⟩
    · cases a with
      | nil => exact here
      | cons c a => exact absurd first (unitCount_pos (List.cons_ne_nil c a)).ne'
    · omega
  · have last : (unitsFrom 0 text ++ [byteLen text])[unitCount text]? = some (byteLen text) := by
      rw [List.getElem?_append_right (length_unitsFrom 0 text).le, length_unitsFrom, Nat.sub_self]
      rfl
    rw [unitPlace, last]
    rfl
  · obtain ⟨a, b, eq, here, -⟩ := unitPlace_at le
    exact ⟨a, b, eq, here.symm⟩

theorem not_inside {a b : List Char} : ¬ Inside (a ++ b) (unitCount a) := by
  rintro ⟨a', c, b', eq, two, second⟩
  rcases List.prefix_or_prefix_of_prefix ⟨b, rfl⟩ ⟨c :: b', eq.symm⟩ with ⟨part, h⟩ | ⟨part, rfl⟩
  · rw [← h, unitCount_append] at second
    omega
  · cases part with
    | nil =>
      rw [List.append_nil] at second
      omega
    | cons d part =>
      rw [List.append_assoc] at eq
      obtain ⟨rfl, -⟩ := List.cons.inj (List.append_cancel_left eq)
      rw [unitCount_append, unitCount_cons] at second
      omega

/-- How many units are before a place. -/
theorem before_unitPlace {text : List Char} {f : ℕ} (le : f ≤ unitCount text) :
    before (unitsFrom 0 text) (unitPlace text f) ≤ f ∧
      (before (unitsFrom 0 text) (unitPlace text f) = f ↔ ¬ Inside text f) := by
  obtain ⟨a, b, rfl, here, which⟩ := unitPlace_at le
  rw [here, before_units]
  rcases which with rfl | ⟨c, b', rfl, two, second⟩
  · exact ⟨Nat.le_refl _, iff_of_true rfl not_inside⟩
  · exact ⟨by omega, iff_of_false (by omega) fun no => no ⟨a, c, b', rfl, two, second⟩⟩

/-- **Chunks of characters** keep everything, and keep to their units exactly when none begins
inside a character. -/
theorem byChars_keeps_iff {text : List Char} (full : text ≠ []) :
    (∃ ps, byChars p text = some ps ∧ Parts p.atMost (p.overlap = 0) text ps ∧
      Paced p (unitsFrom 0 text) ps) ↔
      ∀ k, Begins p (unitCount text) k → ¬ Inside text (k * p.step) := by
  have run : Run p (unitCount text) 0 0 (windows p (unitCount text) 0 0) :=
    run_windows (unitCount_pos full)
  have places := unitPlace_places text
  obtain ⟨ps, is_, made⟩ := made_of_run run places (fun f lt => unitPlace_eq lt.le)
    (fun t _ le => unitPlace_eq le)
  have same : byChars p text = some ps := by
    rw [byChars, List.length_append, length_unitsFrom, List.length_singleton, Nat.add_sub_cancel]
    exact is_
  have number : ∀ k, Begins p (unitCount text) k ↔
      k < (windows p (unitCount text) 0 0).length := by
    intro k
    rw [run.begins_iff (fun some_ => some_) k, Nat.zero_add, Begins]
    simp only [Nat.cast_zero, zero_add]
  have steps : (ps.IsChain fun q r => before (unitsFrom 0 text) r.begins =
      before (unitsFrom 0 text) q.begins + p.step) ↔
      ∀ k, Begins p (unitCount text) k → ¬ Inside text (k * p.step) := by
    rw [made.isChain_iff fun v w => before (unitsFrom 0 text) w.1 =
      before (unitsFrom 0 text) v.1 + p.step, List.isChain_iff_getElem]
    have begins : ∀ k (lt : k < (windows p (unitCount text) 0 0).length),
        (windows p (unitCount text) 0 0)[k].1 = k * p.step ∧ k * p.step ≤ unitCount text := by
      intro k lt
      have eq := run.begins (List.getElem?_eq_getElem lt)
      rw [Nat.zero_add] at eq
      exact ⟨eq, eq ▸ (run.inside _ (List.getElem_mem lt)).2.1.le⟩
    constructor
    · intro chain k is_
      -- the first that begins inside would be less than a step after the one before it
      induction k with
      | zero =>
        rw [Nat.zero_mul]
        exact not_inside (a := []) (b := text)
      | succ k ih =>
        have lt := (number (k + 1)).mp is_
        have before_ := (before_unitPlace (begins k (by omega)).2).2.mpr
          (ih ((number k).mpr (by omega)))
        have next := chain k lt
        rw [(begins _ _).1, (begins _ _).1, before_, ← Nat.succ_mul] at next
        exact (before_unitPlace (begins (k + 1) lt).2).2.mp next
    · intro outside k lt
      have first := fun k lt => (before_unitPlace (begins k lt).2).2.mpr
        (outside k ((number k).mpr lt))
      rw [(begins _ _).1, (begins _ _).1, first (k + 1) lt, first k (by omega), Nat.succ_mul]
  constructor
  · rintro ⟨ps', is_', -, paced⟩
    obtain rfl := Option.some.inj (same.symm.trans is_')
    exact steps.mp paced.steps
  · intro outside
    refine ⟨ps, same, made.parts run places, steps.mpr outside, fun k q found more => ?_⟩
    obtain ⟨w, is_, begins, ends⟩ := made.get found
    obtain ⟨-, lt, le⟩ := run.inside w (List.mem_of_getElem? is_)
    have first : ¬ Inside text w.1 := by
      rw [run.begins is_, Nat.zero_add]
      exact outside k ((number k).mpr (List.getElem?_eq_some_iff.mp is_).1)
    rw [begins, ends, (before_unitPlace lt.le).2.mpr first]
    exact (before_unitPlace le).1.trans (run.size is_ (by rwa [Nat.zero_add]))

/-! ## Delimiters -/

/-- The pieces of what is left behind a head. -/
structure Rest (atMost : ℤ) (soFar : ℕ) (text head rest : List Char) (ps : List Piece) : Prop where
  sliced : ∀ q ∈ ps, slice text q.begins q.ends = some q.text
  first : ∃ q, ps.head? = some q ∧ q.begins = byteLen head
  last : ∃ q, ps.getLast? = some q ∧ q.ends = byteLen text
  noGap : ps.IsChain fun q r => q.begins ≤ r.begins ∧ r.begins ≤ q.ends
  whole : ps.flatMap Piece.text = rest
  few : 0 < atMost → (soFar + ps.length : ℤ) ≤ atMost

theorem rest_single {atMost : ℤ} {soFar : ℕ} {head rest : List Char}
    (allowed : 0 < atMost → (soFar : ℤ) < atMost) :
    Rest atMost soFar (head ++ rest) head rest
      [⟨byteLen head, byteLen head + byteLen rest, rest⟩] := by
  refine ⟨fun q mem => ?_, ⟨_, rfl, rfl⟩, ⟨_, rfl, (byteLen_append _ _).symm⟩, .singleton _,
    List.append_nil _, fun some_ => ?_⟩
  · obtain rfl := List.mem_singleton.mp mem
    have part := slice_append head rest []
    rwa [List.append_nil, byteLen_append] at part
  · have := allowed some_
    rw [List.length_singleton]
    omega

/-- Pieces between delimiters, by induction on what is left of the text. -/
theorem byDelimiter_rest (d : {d : List Char // d ≠ []}) (atMost : ℤ) {soFar : ℕ}
    {head rest : List Char} (full : rest ≠ []) (allowed : 0 < atMost → (soFar : ℤ) < atMost) :
    Rest atMost soFar (head ++ rest) head rest (byDelimiter d atMost soFar (byteLen head) rest) := by
  have alone : (if rest.isEmpty then [] else
      [(⟨byteLen head, byteLen head + byteLen rest, rest⟩ : Piece)]) = [⟨_, _, rest⟩] :=
    if_neg (by simpa using full)
  induction size : rest.length using Nat.strong_induction_on generalizing soFar head rest with
  | _ n ih =>
    rw [byDelimiter]
    split
    case h_1 front after found =>
      split
      · rw [alone]
        exact rest_single allowed
      case isFalse goes =>
        have eq := Text.find_eq found
        have more := mt lastAllowed_iff.mpr goes
        have positive := List.length_pos_of_ne_nil d.2
        subst eq
        have part := slice_append head (front ++ d.1) after
        rw [List.append_assoc head, byteLen_append head] at part
        dsimp only
        by_cases none : after = []
        · -- the delimiter ends the text
          subst none
          have nothing : byDelimiter d atMost (soFar + 1) (byteLen head + byteLen (front ++ d.1)) [] =
              [] := by
            rw [byDelimiter]
            rfl
          rw [nothing, List.append_nil]
          exact rest_single allowed
        · have less : after.length < n := by
            rw [← size, List.length_append, List.length_append]
            omega
          have tail : Rest atMost (soFar + 1) (head ++ (front ++ d.1) ++ after)
              (head ++ (front ++ d.1)) after (byDelimiter d atMost (soFar + 1)
                (byteLen (head ++ (front ++ d.1))) after) :=
            ih _ less none (by omega) (if_neg (by simpa using none)) rfl
          rw [byteLen_append head, List.append_assoc head] at tail
          obtain ⟨sliced, ⟨q, front_, begins⟩, ⟨l, last, ends⟩, noGap, whole, few⟩ := tail
          generalize byDelimiter d atMost (soFar + 1) _ after = ps at *
          cases ps with
          | nil => cases front_
          | cons r ps =>
            cases front_
            rw [byteLen_append] at begins
            refine ⟨fun q mem => ?_, ⟨_, rfl, rfl⟩, ⟨l, last, ends⟩, ?_, ?_, fun some_ => ?_⟩
            · rcases List.mem_cons.mp mem with rfl | mem
              · exact part
              · exact sliced q mem
            · exact .cons_cons ⟨by rw [begins]; exact Nat.le_add_right _ _, begins.le⟩ noGap
            · rw [List.flatMap_cons, whole]
            · have := few some_
              rw [List.length_cons] at this ⊢
              push_cast at this ⊢
              omega
    case h_2 =>
      rw [alone]
      exact rest_single allowed

/-! ## Every algorithm -/

/-- No piece of a `fixed_char_length` begins inside a character. -/
def Algorithm.Outside (text : List Char) : Algorithm → Prop
  | .fixedChar p => ∀ k, Begins p (unitCount text) k → ¬ Inside text (k * p.step)
  | _ => True

/-- **Cutting a text loses nothing**, and keeps to what it was told, exactly when no piece begins
inside a character. -/
theorem Algorithm.keeps_iff (cut : List Char → List Char → List ℕ) (a : Algorithm)
    (text : List Char) (full : (Text.trim text).isEmpty = false)
    (tokens : ∀ tokenizer, Increasing text (cut tokenizer text)) :
    a.Keeps cut text ↔ a.Outside text := by
  have some_ : text ≠ [] := by
    rintro rfl
    cases full
  have chunks : ∀ ps, a.pieces cut text = some ps → a.chunks cut text = some (ps.map Piece.text) := by
    intro ps is_
    rw [chunks, full, is_]
    rfl
  unfold Algorithm.Keeps
  cases a with
  | fixedToken p tokenizer =>
    refine iff_of_true ?_ trivial
    obtain ⟨ps, is_, keeps⟩ := byTokens_keeps (p := p) (tokens tokenizer)
    exact ⟨ps, is_, chunks ps is_, keeps⟩
  | fixedChar p =>
    refine Iff.trans ?_ (byChars_keeps_iff some_)
    exact exists_congr fun ps => and_congr_right fun is_ => and_iff_right (chunks ps is_)
  | delimiter d atMost =>
    refine iff_of_true ?_ trivial
    have rest : Rest atMost 0 text [] text (byDelimiter d atMost 0 0 text) :=
      @byDelimiter_rest d atMost 0 [] text some_ fun positive => positive
    refine ⟨_, rfl, chunks _ rfl, rest.sliced, rest.first, rest.last, rest.noGap,
      fun _ => rest.whole, fun few => ?_⟩
    simpa using rest.few few

/-- Two units at a time, of a text of one character a unit. -/
theorem Algorithm.keeps_iff_plain :
    (Algorithm.fixedChar ⟨2, 0, -1, by decide⟩).Keeps (fun _ _ => [0]) "abc".toList ↔
      (Algorithm.fixedChar ⟨2, 0, -1, by decide⟩).Outside "abc".toList :=
  Algorithm.keeps_iff _ _ _ (by decide) fun _ =>
    ⟨List.pairwise_singleton _ _, fun _ mem => List.mem_singleton.mp mem ▸ ⟨[], _, rfl, rfl⟩⟩

/-- The second chunk begins inside the character that the first ends before, and is three units
long. -/
theorem pair_cut_apart :
    ¬ (Algorithm.fixedChar ⟨2, 0, -1, by decide⟩).Keeps (fun _ _ => [0]) "a😀b".toList := by
  rintro ⟨ps, is_, -, keeps⟩
  refine (byChars_keeps_iff (by decide)).mp ⟨ps, is_, keeps⟩ 1 (.inr ⟨by decide, .inl (by decide)⟩) ?_
  exact ⟨['a'], '😀', ['b'], rfl, by decide, by decide⟩

end Velosearch.Ingest.Chunking

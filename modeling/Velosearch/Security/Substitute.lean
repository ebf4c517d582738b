import Mathlib.Data.List.Basic
import Mathlib.Data.List.Perm.Basic
import Velosearch.Lib.Greedy

/-!
# Placeholders and patterns

`substitute` writes a caller's data into a role's patterns and filters by replacing text, one
placeholder after another, and `pattern_matches` reads what comes out. Beside them stands the
reading in which what is written counts as itself.
-/

namespace Velosearch
namespace Security

/-- Text as the source walks it, character by character. -/
abbrev Text := List Char

/-- What a substitution reads of the caller: the name, the backend roles and the attributes. -/
structure Caller where
  name : Text
  backendRoles : List Text
  attributes : List (Text × Text)
  roles : List Text
  unrestricted : Bool

/-! ## Replacing text -/

/-- `str::replace`: what is replaced is passed over. -/
def replaceFrom (needle written : Text) : ℕ → Text → Text
  | _, [] => []
  | skip + 1, _ :: text => replaceFrom needle written skip text
  | 0, c :: text =>
    if needle.isPrefixOf (c :: text) then
      written ++ replaceFrom needle written (needle.length - 1) text
    else c :: replaceFrom needle written 0 text

/-- `str::replace`: every occurrence of the needle, from the left, none overlapping another. -/
def replace (text needle written : Text) : Text :=
  replaceFrom needle written 0 text

/-- `${key}` -/
def placeholder (key : Text) : Text :=
  '$' :: '{' :: (key ++ ['}'])

/-- The roles as `${user.roles}` writes them: each in quotes, with commas between. -/
def quoted (names : List Text) : Text :=
  [','].intercalate (names.map fun n => '"' :: (n ++ ['"']))

/-- A placeholder's second spelling, dots made underscores. -/
def underscored (key : Text) : Text :=
  key.map fun c => if c = '.' then '_' else c

/-- A list's placeholder in its two spellings, looked for before either is replaced. -/
def replaceList (text dotted plain written : Text) : Text :=
  if placeholder dotted <:+: text ∨ placeholder plain <:+: text then
    replace (replace text (placeholder dotted) written) (placeholder plain) written
  else text

/-- `substitute`: the name, the roles, and then the attributes in the order the map gives them. -/
def substitute (pattern : Text) (caller : Caller) : Text :=
  let out := replace pattern (placeholder "user.name".toList) caller.name
  let out := replace out (placeholder "user_name".toList) caller.name
  let out := replaceList out "user.roles".toList "user_roles".toList (quoted caller.backendRoles)
  let out := replaceList out "user.securityRoles".toList "user_securityRoles".toList
    (quoted caller.roles)
  caller.attributes.foldl (fun out a =>
    replace (replace out (placeholder a.1) a.2) (placeholder (underscored a.1)) a.2) out

/-! ## Patterns -/

/-- `glob_matches` reads `?` as any character, and a star as a star where the text has no star
itself. -/
def globReading : Greedy.Reading Char where
  star a := a == '*'
  spells a c := a == '?' || a == c

/-- `glob_match`, the backtracking matcher, on the substituted text. -/
def globMatches (pattern text : Text) : Bool :=
  Greedy.greedy globReading pattern text

/-- A pattern between slashes is a regular expression. -/
def slashed (pattern : Text) : Bool :=
  decide (2 < pattern.length) && pattern.head? == some '/' && pattern.getLast? == some '/'

/-- `pattern_matches`: everything, a regular expression, or a glob. -/
def patternMatches (regex : Text → Text → Bool) (pattern candidate : Text) : Bool :=
  if pattern = ['*'] then true
  else if slashed pattern then regex pattern.tail.dropLast candidate
  else if '*' ∈ pattern ∨ '?' ∈ pattern then globMatches pattern candidate
  else pattern == candidate

/-! ## What is written counts as itself -/

/-- A text in which each character is the role's own, or written for the caller. -/
abbrev Marked := List (Char × Bool)

/-- Characters the role's author wrote. -/
def own (text : Text) : Marked :=
  text.map fun c => (c, false)

/-- Characters a caller's value brought in. -/
def written (text : Text) : Marked :=
  text.map fun c => (c, true)

/-- The roles as they are written in: the values marked, the quotes and commas the author's own. -/
def writtenList (names : List Text) : Marked :=
  [(',', false)].intercalate (names.map fun n => ('"', false) :: (written n ++ [('"', false)]))

/-- The placeholders of the name and the roles, in the order they are replaced. -/
def userBindings (caller : Caller) : List (Text × Marked) :=
  [("user.name".toList, written caller.name), ("user_name".toList, written caller.name),
    ("user.roles".toList, writtenList caller.backendRoles),
    ("user_roles".toList, writtenList caller.backendRoles),
    ("user.securityRoles".toList, writtenList caller.roles),
    ("user_securityRoles".toList, writtenList caller.roles)]

/-- The two placeholders of each attribute. -/
def attributeBindings (attributes : List (Text × Text)) : List (Text × Marked) :=
  attributes.flatMap fun a => [(a.1, written a.2), (underscored a.1, written a.2)]

/-- Every placeholder with its value, in the order of the replacements. -/
def bindings (caller : Caller) : List (Text × Marked) :=
  userBindings caller ++ attributeBindings caller.attributes

/-- The first binding of a name is the one that counts. -/
def binding (bs : List (Text × Marked)) (key : Text) : Option (Text × Marked) :=
  bs.find? fun b => b.1 == key

/-- A text of a role: its own characters, and the placeholders it holds. -/
inductive Piece where
  | char (c : Char)
  | hole (key : Text)
deriving DecidableEq

/-- The text a piece was read from. -/
def Piece.source : Piece → Text
  | .char c => [c]
  | .hole key => placeholder key

/-- The role's text cut at its placeholders, from left to right. -/
def piecesFrom (keys : List Text) : ℕ → Text → List Piece
  | _, [] => []
  | skip + 1, _ :: text => piecesFrom keys skip text
  | 0, c :: text =>
    match keys.find? fun key => (placeholder key).isPrefixOf (c :: text) with
    | some key => .hole key :: piecesFrom keys ((placeholder key).length - 1) text
    | none => .char c :: piecesFrom keys 0 text

/-- The placeholders of a text are those a caller has something to write for. -/
def pieces (text : Text) (caller : Caller) : List Piece :=
  piecesFrom ((bindings caller).map Prod.fst) 0 text

/-- A piece with its value in place; a placeholder nobody gives a value stays as it is. -/
def Piece.read (bs : List (Text × Marked)) : Piece → Marked
  | .char c => [(c, false)]
  | .hole key => ((binding bs key).map Prod.snd).getD (own (placeholder key))

/-- The text as it should read: each placeholder once, with the value marked as the caller's. -/
def mark (text : Text) (caller : Caller) : Marked :=
  (pieces text caller).flatMap (Piece.read (bindings caller))

/-- Marked text with the marks taken off. -/
def plain (marked : Marked) : Text :=
  marked.map Prod.fst

/-- A glob in which only the author's `*` and `?` are wild. -/
def markedReading : Greedy.Reading (Char × Bool) where
  star b := !b.2 && b.1 == '*'
  spells b c := (!b.2 && b.1 == '?') || b.1 == c

/-- The characters a regular expression does not read as themselves. -/
def special (c : Char) : Bool :=
  c ∈ ['\\', '.', '+', '*', '?', '(', ')', '|', '[', ']', '{', '}', '^', '$']

/-- A character of a caller's value, escaped where it would mean something. -/
def escapedRegex (b : Char × Bool) : Text :=
  if b.2 && special b.1 then ['\\', b.1] else [b.1]

/-- Slashes count only where the author wrote them. -/
def slashedMarked (marked : Marked) : Bool :=
  decide (2 < marked.length) && marked.head? == some ('/', false) &&
    marked.getLast? == some ('/', false)

/-- The match that takes a caller's value for the letters it is. -/
def literallyMatches (regex : Text → Text → Bool) (marked : Marked) (candidate : Text) : Bool :=
  if marked = [('*', false)] then true
  else if slashedMarked marked then regex (marked.tail.dropLast.flatMap escapedRegex) candidate
  else if ('*', false) ∈ marked ∨ ('?', false) ∈ marked then
    Greedy.greedy markedReading marked candidate
  else plain marked == candidate

/-! ## When nothing written is read as a placeholder

The placeholders are replaced in turn. By the time it is a name's turn, what is written for the
names before it stands in the text, and its placeholder is replaced wherever the text spells it. -/

/-- A piece once the placeholders of `done` have been replaced. -/
def Piece.stage (done : List (Text × Marked)) (p : Piece) : Text :=
  plain (p.read done)

/-- Whether a placeholder begins in `text`, with `rest` behind it. -/
def begins (key : Text) : Text → Text → Bool
  | [], _ => false
  | c :: text, rest => (placeholder key).isPrefixOf (c :: (text ++ rest)) || begins key text rest

/-- At its turn, the placeholder of `key` begins nowhere but where the role put it. -/
def apart (done : List (Text × Marked)) (key : Text) : List Piece → Bool
  | [] => true
  | p :: ps =>
    (decide (p = .hole key ∧ (binding done key).isNone) ||
      !begins key (p.stage done) (ps.flatMap (Piece.stage done))) && apart done key ps

/-- Each replacement in turn finds the placeholders of the text and nothing else. -/
def turns (ps : List Piece) : List (Text × Marked) → List (Text × Marked) → Bool
  | _, [] => true
  | done, b :: bs => apart done b.1 ps && turns ps (done ++ [b]) bs

/-- The same caller with the attributes in the order some walk over the map gives. -/
def Caller.walked (caller : Caller) (attributes : List (Text × Text)) : Caller :=
  { caller with attributes }

/-- In whatever order the attributes are walked, no placeholder is read but those of the role,
and no two attributes answer to one of these with different values. -/
structure Clear (text : Text) (caller : Caller) : Prop where
  turns : ∀ attributes : List (Text × Text), attributes.Perm caller.attributes →
    turns (pieces text caller) [] (bindings (caller.walked attributes)) = true
  single : ∀ key, Piece.hole key ∈ pieces text caller →
    binding (userBindings caller) key = none →
    ∀ b ∈ attributeBindings caller.attributes, ∀ c ∈ attributeBindings caller.attributes,
      b.1 = key → c.1 = key → b.2 = c.2

/-! ## Replacing in turn -/

section Replace

variable {key by_ : Text} {text rest : Text}

/-- Characters of an occurrence just replaced are passed over. -/
theorem replaceFrom_skip (text rest : Text) {needle : Text} :
    replaceFrom needle by_ text.length (text ++ rest) = replaceFrom needle by_ 0 rest := by
  induction text with
  | nil => rfl
  | cons c text ih => exact ih

/-- A text without the needle is left as it is. -/
theorem replaceFrom_absent {needle by_ text : Text} (h : ¬ needle <:+: text) :
    replaceFrom needle by_ 0 text = text := by
  induction text with
  | nil => rfl
  | cons c text ih =>
    have not : needle.isPrefixOf (c :: text) = false := by
      rw [Bool.eq_false_iff, ne_eq, List.isPrefixOf_iff_prefix]
      exact fun begins => h begins.isInfix
    rw [replaceFrom, not, ih fun there => h (there.trans (List.suffix_cons c text).isInfix)]
    rfl

/-- No placeholder begins in a piece, so a replacement passes over it. -/
theorem replaceFrom_apart (h : begins key text rest = false) :
    replaceFrom (placeholder key) by_ 0 (text ++ rest) =
      text ++ replaceFrom (placeholder key) by_ 0 rest := by
  induction text with
  | nil => rfl
  | cons c text ih =>
    obtain ⟨here, later⟩ := Bool.or_eq_false_iff.mp h
    rw [List.cons_append, replaceFrom, here, ih later]
    rfl

/-- A placeholder at the head of the text is what a replacement replaces. -/
theorem replaceFrom_placeholder :
    replaceFrom (placeholder key) by_ 0 (placeholder key ++ rest) =
      by_ ++ replaceFrom (placeholder key) by_ 0 rest := by
  have begins : (placeholder key).isPrefixOf ('$' :: ('{' :: (key ++ ['}']) ++ rest)) = true :=
    List.isPrefixOf_iff_prefix.mpr (List.prefix_append (placeholder key) rest)
  show replaceFrom (placeholder key) by_ 0 ('$' :: ('{' :: (key ++ ['}']) ++ rest)) = _
  rw [replaceFrom, begins, if_pos rfl]
  exact congrArg (by_ ++ ·) (replaceFrom_skip ('{' :: (key ++ ['}'])) rest)

end Replace

/-- A placeholder with its value's bare text. -/
def unmarked (b : Text × Marked) : Text × Text :=
  (b.1, plain b.2)

/-- The replacements one after another, each over what the last one left. -/
def replaceAll (text : Text) (bs : List (Text × Text)) : Text :=
  bs.foldl (fun out b => replace out (placeholder b.1) b.2) text

/-- Looking before replacing makes no difference: what is not there is not replaced. -/
theorem replaceList_eq (text dotted plain by_ : Text) :
    replaceList text dotted plain by_ =
      replace (replace text (placeholder dotted) by_) (placeholder plain) by_ := by
  unfold replaceList
  split
  case isTrue => rfl
  case isFalse absent =>
    obtain ⟨first, second⟩ := not_or.mp absent
    unfold replace
    rw [replaceFrom_absent first, replaceFrom_absent second]

@[simp] theorem plain_written (text : Text) : plain (written text) = text := by
  simp [plain, written, Function.comp_def]

@[simp] theorem plain_own (text : Text) : plain (own text) = text := by
  simp [plain, own, Function.comp_def]

@[simp] theorem plain_append (a b : Marked) : plain (a ++ b) = plain a ++ plain b :=
  List.map_append

theorem plain_flatMap {α : Type} (l : List α) (f : α → Marked) :
    plain (l.flatMap f) = l.flatMap fun x => plain (f x) :=
  List.map_flatMap

/-- The marks of a list come off to the list as the source writes it. -/
theorem plain_writtenList (names : List Text) : plain (writtenList names) = quoted names := by
  have each (n : Text) :
      plain (('"', false) :: (written n ++ [('"', false)])) = '"' :: (n ++ ['"']) := by
    show '"' :: plain (written n ++ [('"', false)]) = _
    rw [plain_append, plain_written]
    rfl
  induction names with
  | nil => rfl
  | cons n names ih =>
    cases names with
    | nil =>
      show plain (('"', false) :: (written n ++ [('"', false)]) ++ []) = '"' :: (n ++ ['"']) ++ []
      rw [List.append_nil, List.append_nil, each]
    | cons m names =>
      show plain (('"', false) :: (written n ++ [('"', false)]) ++
        ([(',', false)] ++ writtenList (m :: names))) =
        '"' :: (n ++ ['"']) ++ ([','] ++ quoted (m :: names))
      rw [plain_append, plain_append, each, ih]
      rfl

/-- The walk over the attributes is two replacements for each of them. -/
theorem foldl_attributes (attributes : List (Text × Text)) (text : Text) :
    attributes.foldl (fun out a =>
      replace (replace out (placeholder a.1) a.2) (placeholder (underscored a.1)) a.2) text =
    replaceAll text ((attributeBindings attributes).map unmarked) := by
  induction attributes generalizing text with
  | nil => rfl
  | cons a attributes ih =>
    rw [List.foldl_cons, ih]
    simp [replaceAll, unmarked, attributeBindings]

/-- `substitute` is the replacements of `bindings`, one after another. -/
theorem substitute_eq (pattern : Text) (caller : Caller) :
    substitute pattern caller = replaceAll pattern ((bindings caller).map unmarked) := by
  unfold substitute bindings
  rw [foldl_attributes, replaceList_eq, replaceList_eq, List.map_append]
  simp [replaceAll, unmarked, plain_writtenList, userBindings]

section Pieces

theorem piecesFrom_source (keys : List Text) (skip : ℕ) (text : Text) :
    (piecesFrom keys skip text).flatMap Piece.source = text.drop skip := by
  fun_induction piecesFrom keys skip text with
  | case1 => simp
  | case2 skip _ text ih => exact ih
  | case3 c text key found ih =>
    have prefixed := List.find?_some found
    obtain ⟨rest, whole⟩ := List.isPrefixOf_iff_prefix.mp prefixed
    rw [List.flatMap_cons, ih, List.drop_zero, ← whole]
    show placeholder key ++ text.drop ((placeholder key).length - 1) = _
    have : text = ('{' :: (key ++ ['}'])) ++ rest := (List.cons.inj whole).2.symm
    rw [this]
    have left : (('{' :: (key ++ ['}'])) ++ rest).drop ('{' :: (key ++ ['}'])).length = rest :=
      List.drop_left
    exact congrArg (placeholder key ++ ·) left
  | case4 c text absent ih =>
    rw [List.flatMap_cons, ih]
    rfl

/-- Cutting a text at its placeholders loses nothing of it. -/
theorem pieces_source (text : Text) (caller : Caller) :
    (pieces text caller).flatMap Piece.source = text :=
  piecesFrom_source _ 0 text

variable {done bs : List (Text × Marked)} {key : Text}

/-- A value found for a placeholder is that placeholder's own. -/
theorem binding_key {b : Text × Marked} (found : binding bs key = some b) : b.1 = key := by
  have same := List.find?_some found
  exact beq_iff_eq.mp same

theorem binding_append : binding (done ++ bs) key = (binding done key).or (binding bs key) :=
  List.find?_append

/-- Before the first replacement a piece is the text it came from. -/
theorem stage_source (p : Piece) : p.stage [] = p.source := by
  cases p with
  | char c => rfl
  | hole key => exact plain_own _

/-- A replacement changes no piece but the placeholders it is for. -/
theorem stage_done {b : Text × Marked} (p : Piece)
    (h : p ≠ .hole b.1 ∨ (binding done b.1).isSome) :
    p.stage (done ++ [b]) = p.stage done := by
  cases p with
  | char c => rfl
  | hole key =>
    unfold Piece.stage
    rw [Piece.read, Piece.read, binding_append]
    cases here : binding done key with
    | some c => rfl
    | none =>
      have other : b.1 ≠ key := by
        rintro rfl
        rcases h with h | h
        · exact h rfl
        · rw [here] at h
          cases h
      have none : binding [b] key = none :=
        List.find?_cons_of_neg fun same => other (beq_iff_eq.mp same)
      rw [none]
      rfl

/-- The replacement a placeholder has been waiting for fills it. -/
theorem stage_turn {b : Text × Marked} (absent : binding done b.1 = none) :
    (Piece.hole b.1).stage (done ++ [b]) = plain b.2 := by
  have found : binding [b] b.1 = some b := List.find?_cons_of_pos (beq_self_eq_true _)
  unfold Piece.stage
  rw [Piece.read, binding_append, absent, found]
  rfl

/-- A placeholder whose turn has not come stands as it was written. -/
theorem stage_hole (absent : binding done key = none) :
    (Piece.hole key).stage done = placeholder key := by
  unfold Piece.stage
  rw [Piece.read, absent]
  exact plain_own _

/-- One replacement takes the text from one stage to the next, all pieces at once. -/
theorem replaceFrom_turn {b : Text × Marked} {ps : List Piece} (h : apart done b.1 ps = true) :
    replaceFrom (placeholder b.1) (plain b.2) 0 (ps.flatMap (Piece.stage done)) =
      ps.flatMap (Piece.stage (done ++ [b])) := by
  induction ps with
  | nil => rfl
  | cons p ps ih =>
    obtain ⟨here, later⟩ := (Bool.and_eq_true _ _).mp h
    rw [List.flatMap_cons, List.flatMap_cons, ← ih later]
    by_cases own : p = .hole b.1 ∧ (binding done b.1).isNone
    · obtain ⟨rfl, absent⟩ := own
      have absent := Option.isNone_iff_eq_none.mp absent
      rw [stage_hole absent, stage_turn absent, replaceFrom_placeholder]
    · rw [decide_eq_false own, Bool.false_or, Bool.not_eq_true'] at here
      rw [replaceFrom_apart here, stage_done p]
      rw [not_and_or] at own
      refine own.imp_right fun there => ?_
      rwa [Option.isNone_iff_eq_none, ← ne_eq, Option.ne_none_iff_isSome] at there

/-- The replacements one after another, by induction on those still to come. -/
theorem replaceAll_turns {ps : List Piece} (h : turns ps done bs = true) :
    replaceAll (ps.flatMap (Piece.stage done)) (bs.map unmarked) =
      ps.flatMap (Piece.stage (done ++ bs)) := by
  induction bs generalizing done with
  | nil => rw [List.append_nil]; rfl
  | cons b bs ih =>
    obtain ⟨here, later⟩ := (Bool.and_eq_true _ _).mp h
    have rest := ih later
    rw [List.append_assoc, List.singleton_append] at rest
    rw [← rest]
    exact congrArg (replaceAll · (bs.map unmarked)) (replaceFrom_turn here)

end Pieces

/-- Where a placeholder has one value, the order of the bindings does not decide it. -/
theorem binding_perm {bs bs' : List (Text × Marked)} {key : Text} (perm : bs'.Perm bs)
    (single : ∀ b ∈ bs, ∀ c ∈ bs, b.1 = key → c.1 = key → b.2 = c.2) :
    (binding bs' key).map Prod.snd = (binding bs key).map Prod.snd := by
  cases there : binding bs key with
  | none =>
    have none : binding bs' key = none := by
      refine List.find?_eq_none.mpr fun b mem => ?_
      exact List.find?_eq_none.mp there b (perm.subset mem)
    rw [none]
  | some b =>
    have mem := List.mem_of_find?_eq_some there
    cases other : binding bs' key with
    | none =>
      exact absurd (beq_iff_eq.mpr (binding_key there))
        (List.find?_eq_none.mp other b (perm.symm.subset mem))
    | some c =>
      have same := single c (perm.subset (List.mem_of_find?_eq_some other)) b mem
        (binding_key other) (binding_key there)
      exact congrArg some same

/-- No placeholder of the text takes another value when the map is walked another way. -/
theorem binding_walked {text : Text} {caller : Caller} (h : Clear text caller)
    {attributes : List (Text × Text)} (perm : attributes.Perm caller.attributes) {key : Text}
    (mem : Piece.hole key ∈ pieces text caller) :
    (binding (bindings (caller.walked attributes)) key).map Prod.snd =
      (binding (bindings caller) key).map Prod.snd := by
  unfold bindings
  rw [binding_append, binding_append,
    show userBindings (caller.walked attributes) = userBindings caller from rfl]
  cases user : binding (userBindings caller) key with
  | some b => rfl
  | none => exact binding_perm (perm.flatMap_right _) (h.single key mem user)

/-- A clear text comes out as the role and the written texts spell it, in every order. -/
theorem substitute_walked {text : Text} {caller : Caller} (h : Clear text caller)
    {attributes : List (Text × Text)} (perm : attributes.Perm caller.attributes) :
    substitute text (caller.walked attributes) = plain (mark text caller) := by
  have start : (pieces text caller).flatMap (Piece.stage []) = text := by
    rw [List.flatMap_congr fun p _ => stage_source p, pieces_source]
  have run := replaceAll_turns (h.turns attributes perm)
  rw [start, List.nil_append] at run
  rw [substitute_eq, run, mark, plain_flatMap]
  refine List.flatMap_congr fun p mem => congrArg plain ?_
  cases p with
  | char c => rfl
  | hole key => exact congrArg (·.getD (own (placeholder key))) (binding_walked h perm mem)

/-- On a clear text the replacements come to the pieces with their values in place. -/
theorem substitute_clear {text : Text} {caller : Caller} (h : Clear text caller) :
    substitute text caller = plain (mark text caller) :=
  substitute_walked h (List.Perm.refl _)

/-! ## Patterns with what is written -/

section Patterns

/-- What is written stays out of the pattern language. -/
structure Harmless (marked : Marked) : Prop where
  wild : slashed (plain marked) = false → ('*', true) ∉ marked ∧ ('?', true) ∉ marked
  slashes : slashed (plain marked) = true →
    slashedMarked marked = true ∧ ∀ c, (c, true) ∈ marked → special c = false

variable {marked : Marked} (regex : Text → Text → Bool) (candidate : Text)

/-- The author's slashes are slashes of the text. -/
theorem slashed_of_marked (h : slashedMarked marked = true) : slashed (plain marked) = true := by
  unfold slashedMarked at h
  rw [Bool.and_eq_true, Bool.and_eq_true, beq_iff_eq, beq_iff_eq] at h
  obtain ⟨⟨length, first⟩, last⟩ := h
  unfold slashed plain
  rw [List.length_map, length, List.head?_map, first, List.getLast?_map, last]
  rfl

/-- A text of one character no value brought in was written by the author. -/
theorem plain_single {c : Char} (own : (c, true) ∉ marked) :
    plain marked = [c] ↔ marked = [(c, false)] := by
  constructor
  · intro whole
    obtain ⟨b, rfl, same⟩ := List.map_eq_singleton_iff.mp whole
    obtain ⟨d, bit⟩ := b
    cases same
    cases bit with
    | false => rfl
    | true => exact absurd List.mem_cons_self own
  · rintro rfl
    rfl

/-- A character no value brought in is in the text where the author wrote it. -/
theorem mem_plain {c : Char} (own : (c, true) ∉ marked) :
    c ∈ plain marked ↔ (c, false) ∈ marked := by
  constructor
  · intro mem
    obtain ⟨⟨d, bit⟩, inside, rfl⟩ := List.mem_map.mp mem
    cases bit with
    | false => exact inside
    | true => exact absurd inside own
  · exact fun mem => List.mem_map_of_mem (f := Prod.fst) mem

/-- Values without special characters need no escaping. -/
theorem regex_eq (calm : ∀ c, (c, true) ∈ marked → special c = false) :
    (plain marked).tail.dropLast = marked.tail.dropLast.flatMap escapedRegex := by
  have inner : ∀ b ∈ marked.tail.dropLast, escapedRegex b = [b.1] := by
    rintro ⟨c, bit⟩ mem
    have inside := (marked.tail_sublist.subset ((marked.tail.dropLast_sublist).subset mem))
    cases bit with
    | false => rfl
    | true =>
      unfold escapedRegex
      rw [calm c inside]
      rfl
  rw [plain, ← List.map_tail, ← List.map_dropLast, List.flatMap_congr inner]
  exact List.map_eq_flatMap

/-- On harmless text the source's match and the literal one agree. -/
theorem matches_plain (h : Harmless marked) :
    patternMatches regex (plain marked) candidate = literallyMatches regex marked candidate := by
  unfold patternMatches literallyMatches
  cases kind : slashed (plain marked) with
  | true =>
    obtain ⟨own, calm⟩ := h.slashes kind
    have long : ∀ c, plain marked ≠ [c] := by
      intro c single
      rw [single] at kind
      cases kind
    have long' : ∀ b, marked ≠ [b] := fun b single => long b.1 (congrArg plain single)
    rw [if_neg (long _), if_pos rfl, if_neg (long' _), own, if_pos rfl, regex_eq calm]
  | false =>
    obtain ⟨star, any⟩ := h.wild kind
    have not : slashedMarked marked = false := by
      rw [Bool.eq_false_iff]
      intro yes
      rw [slashed_of_marked yes] at kind
      cases kind
    have alike : ∀ b ∈ marked, Greedy.Alike Prod.fst markedReading globReading b := by
      rintro ⟨c, bit⟩ mem
      cases bit with
      | false => exact ⟨rfl, fun d => rfl⟩
      | true =>
        have star' : (c == '*') = false := by
          rw [beq_eq_false_iff_ne]
          exact fun same => star (same ▸ mem)
        have any' : (c == '?') = false := by
          rw [beq_eq_false_iff_ne]
          exact fun same => any (same ▸ mem)
        constructor
        · show false = (c == '*')
          rw [star']
        · intro d
          show (false || c == d) = (c == '?' || c == d)
          rw [any']
    have glob : globMatches (plain marked) candidate =
        Greedy.greedy markedReading marked candidate :=
      Greedy.greedy_map Prod.fst alike candidate
    simp only [plain_single star, mem_plain star, mem_plain any, not, glob]
    rfl

/-- A candidate that follows a pattern letter by letter, with an `x` for what is wild. -/
def filled (c : Char) : Char :=
  if c = '*' ∨ c = '?' then 'x' else c

theorem filled_ne_star (c : Char) : filled c ≠ '*' := by
  unfold filled
  split
  · decide
  · next h => exact fun same => h (.inl same)

theorem filled_ne_any (c : Char) : filled c ≠ '?' := by
  unfold filled
  split
  · decide
  · next h => exact fun same => h (.inr same)

/-- A glob matches its own letters with its wildcards filled in. -/
theorem glob_filled (pattern : Text) :
    Greedy.Matches globReading pattern (pattern.map filled) := by
  induction pattern with
  | nil => rfl
  | cons c pattern ih =>
    cases star : globReading.star c with
    | true => exact (Greedy.matches_star star).mpr ⟨_, List.suffix_cons _ _, ih⟩
    | false =>
      refine (Greedy.matches_one star).mpr ⟨filled c, pattern.map filled, rfl, ?_, ih⟩
      have noStar : c ≠ '*' := beq_eq_false_iff_ne.mp star
      show (c == '?' || c == filled c) = true
      by_cases any : c = '?'
      · rw [any]
        rfl
      · rw [filled, if_neg (not_or.mpr ⟨noStar, any⟩), beq_self_eq_true, Bool.or_true]

/-- A caller's character is matched only by itself, so the candidate has it. -/
theorem mem_of_marked_match {marked : Marked} {c : Char} (mem : (c, true) ∈ marked)
    {candidate : Text} (h : Greedy.Matches markedReading marked candidate) : c ∈ candidate := by
  induction marked generalizing candidate with
  | nil => cases mem
  | cons b marked ih =>
    cases star : markedReading.star b with
    | true =>
      obtain ⟨rest, suffix, h⟩ := (Greedy.matches_star star).mp h
      rcases List.mem_cons.mp mem with rfl | mem
      · cases star
      · exact suffix.subset (ih mem h)
    | false =>
      obtain ⟨d, rest, rfl, spells, h⟩ := (Greedy.matches_one star).mp h
      rcases List.mem_cons.mp mem with rfl | mem
      · rw [show c = d from beq_iff_eq.mp spells]
        exact List.mem_cons_self
      · exact List.mem_cons_of_mem _ (ih mem h)

/-- The filled pattern has no wildcard left in it. -/
theorem not_mem_filled {c : Char} (wild : c = '*' ∨ c = '?') (pattern : Text) :
    c ∉ pattern.map filled := by
  intro mem
  obtain ⟨d, -, eq⟩ := List.mem_map.mp mem
  rcases wild with rfl | rfl
  · exact filled_ne_star d eq
  · exact filled_ne_any d eq

/-- The source's glob takes the filled pattern, whoever wrote its wildcards. -/
theorem glob_iff_filled (marked : Marked) :
    globMatches (plain marked) ((plain marked).map filled) = true := by
  refine (Greedy.greedy_iff fun a _ c mem star => ?_).mpr (glob_filled _)
  have same : a = '*' := beq_iff_eq.mp star
  subst same
  show ('*' == '?' || '*' == c) = false
  rw [Bool.or_eq_false_iff]
  exact ⟨rfl, beq_eq_false_iff_ne.mpr fun eq => not_mem_filled (.inl rfl) _ (eq ▸ mem)⟩

/-- A wildcard a value brought in matches what the letter itself would not. -/
theorem matches_filled {c : Char} (wild : c = '*' ∨ c = '?') (mem : (c, true) ∈ marked)
    (kind : slashed (plain marked) = false) :
    patternMatches regex (plain marked) ((plain marked).map filled) = true ∧
      literallyMatches regex marked ((plain marked).map filled) = false := by
  have there : c ∈ plain marked := List.mem_map_of_mem (f := Prod.fst) mem
  have absent := not_mem_filled wild (plain marked)
  constructor
  · unfold patternMatches
    rw [kind, if_neg Bool.false_ne_true, glob_iff_filled]
    have some : '*' ∈ plain marked ∨ '?' ∈ plain marked := by
      rcases wild with rfl | rfl
      · exact .inl there
      · exact .inr there
    rw [if_pos some, ite_self]
  · have not : slashedMarked marked = false := by
      rw [Bool.eq_false_iff]
      intro yes
      rw [slashed_of_marked yes] at kind
      cases kind
    have long : marked ≠ [('*', false)] := by
      rintro rfl
      cases List.mem_singleton.mp mem
    unfold literallyMatches
    rw [if_neg long, not, if_neg Bool.false_ne_true, Bool.eq_false_iff]
    intro yes
    split at yes
    case isTrue =>
      refine absent (mem_of_marked_match mem ((Greedy.greedy_iff ?_).mp yes))
      rintro ⟨a, bit⟩ _ d inside star
      cases bit with
      | true => cases star
      | false =>
        have same : a = '*' := beq_iff_eq.mp star
        subst same
        show ('*' == '?' || '*' == d) = false
        rw [Bool.or_eq_false_iff]
        exact ⟨rfl, beq_eq_false_iff_ne.mpr fun eq => not_mem_filled (.inl rfl) _ (eq ▸ inside)⟩
    case isFalse => exact absent ((beq_iff_eq.mp yes) ▸ there)

/-- Without a regular expression, harmless is exactly when the two matches agree. -/
theorem matches_iff_harmless (kind : slashed (plain marked) = false) :
    (∀ candidate, patternMatches regex (plain marked) candidate =
      literallyMatches regex marked candidate) ↔
    ('*', true) ∉ marked ∧ ('?', true) ∉ marked := by
  constructor
  · intro same
    have wild (c : Char) (which : c = '*' ∨ c = '?') : (c, true) ∉ marked := by
      intro mem
      obtain ⟨yes, no⟩ := matches_filled regex which mem kind
      rw [same, no] at yes
      cases yes
    exact ⟨wild '*' (.inl rfl), wild '?' (.inr rfl)⟩
  · intro h candidate
    refine matches_plain regex candidate ⟨fun _ => h, fun yes => ?_⟩
    rw [yes] at kind
    cases kind

end Patterns

end Security
end Velosearch

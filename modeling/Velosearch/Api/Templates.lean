import Velosearch.Api.Rendered

/-!
# What a template means

A template as a tree: text, variables, comments, and sections with a tree inside. Its text is
what `render` is given; what it means is said on the tree, with no text to search. `render` finds
a section's end by the first closing text there is, so that it follows the tree where that text
stands nowhere inside the section, for every section the rendering comes to (`Legible`); there the
two agree exactly where the strings written are strings JSON can hold as they are escaped and
what is charged for fits the budget (`renders_iff`).
-/

set_option autoImplicit false

namespace Velosearch
namespace Mustache

/-! ## Trees -/

/-- What a tag may begin with. -/
def marks : List Char := ['#', '^', '/', '!', '{', '&', '>', '=']

/-- A name a tag may have. -/
structure TagName where
  chars : List Char
  some_ : chars ≠ []
  trimmed : Text.trim chars = chars
  braceless : '{' ∉ chars ∧ '}' ∉ chars
  plain : ∀ c ∈ chars.head?, c ∉ marks

/-- The blanks of a tag. -/
structure Blanks where
  slash : ℕ
  before : ℕ
  after : ℕ

/-- A piece of a template. -/
inductive Node where
  | text (t : List Char)
  | variable (name : TagName)
  | raw (name : TagName)
  | comment (c : List Char)
  | section_ (inverted : Bool) (name : TagName) (inner : List Node) (blanks : Blanks)

/-- Blanks. -/
def blank (n : ℕ) : List Char :=
  List.replicate n ' '

/-- A tag that closes a section. -/
def closingTag (name : TagName) (b : Blanks) : List Char :=
  opening ++ blank b.slash ++ '/' :: (blank b.before ++ name.chars ++ blank b.after ++ closing)

mutual

/-- The text of a tree. -/
def write : Node → List Char
  | .text t => t
  | .variable name => opening ++ name.chars ++ closing
  | .raw name => opening ++ '{' :: (name.chars ++ '}' :: closing)
  | .comment c => opening ++ '!' :: (c ++ closing)
  | .section_ inverted name inner blanks =>
    opening ++ (if inverted then '^' else '#') :: (name.chars ++ closing) ++ writeAll inner ++
      closingTag name blanks

/-- The text of some pieces. -/
def writeAll : List Node → List Char
  | [] => []
  | node :: nodes => write node ++ writeAll nodes

end

mutual

/-- Sections inside sections. -/
def depth : Node → ℕ
  | .section_ _ _ inner _ => depthAll inner + 1
  | _ => 0

/-- How deep they nest. -/
def depthAll : List Node → ℕ
  | [] => 0
  | node :: nodes => max (depth node) (depthAll nodes)

end

mutual

/-- A tree that a template is: text opens no hole, and a comment ends where it is closed. -/
def WellFormed : Node → Prop
  | .text t => ¬ opening <:+: t
  | .comment c => ¬ closing <:+: c ++ ['}']
  | .section_ _ _ inner _ => WellFormedAll inner
  | _ => True

/-- They can be written down. -/
def WellFormedAll : List Node → Prop
  | [] => True
  | node :: nodes => WellFormed node ∧ WellFormedAll nodes

end

/-! ## What they mean -/

/-- A name looked up. -/
def resolve (path : List (List Char)) : List JsonValue → JsonValue
  | [] => .null
  | level :: outer =>
    match follow level path with
    | some v => v
    | none => resolve path outer

/-- What a name stands for: a point is the innermost scope itself. -/
def value (name : TagName) (scopes : List JsonValue) : JsonValue :=
  if name.chars = ['.'] then scopes.headD .null else resolve (name.chars.splitOn '.') scopes

/-- The turns of a section. -/
def passes (scopes : List JsonValue) : JsonValue → List (List JsonValue)
  | .arr items => items.map (· :: scopes)
  | .obj members => [.obj members :: scopes]
  | .null => []
  | .bool false => []
  | .str [] => []
  | _ => [scopes]

mutual

/-- What a tree means, with strings written as `esc` writes them. -/
def mean (esc : List Char → List Char) (scopes : List JsonValue) : Node → List Char
  | .text t => t
  | .variable name => esc (asText (value name scopes))
  | .raw name => asText (value name scopes)
  | .comment _ => []
  | .section_ false name inner _ =>
    (passes scopes (value name scopes)).flatMap fun pass => meanAll esc pass inner
  | .section_ true name inner _ =>
    if passes scopes (value name scopes) = [] then meanAll esc scopes inner else []

/-- What some pieces mean. -/
def meanAll (esc : List Char → List Char) (scopes : List JsonValue) : List Node → List Char
  | [] => []
  | node :: nodes => mean esc scopes node ++ meanAll esc scopes nodes

end

/-- A text within JSON. -/
def jsonEscaped (text : List Char) : List Char :=
  text.flatMap JsonValue.escape

/-- A value with holes in it. -/
inductive Shape where
  | hole (s : List Char)
  | fixed (v : JsonValue)
  | arr (items : List Shape)
  | obj (members : List (List Char × Shape))

mutual

/-- The document's text, with the strings put in as `esc` writes them. -/
def Shape.text (esc : List Char → List Char) : Shape → List Char
  | .hole s => '"' :: (esc s ++ ['"'])
  | .fixed v => v.print
  | .arr items => '[' :: (Shape.textItems esc items ++ [']'])
  | .obj members => '{' :: (Shape.textMembers esc members ++ ['}'])

/-- The text of a list. -/
def Shape.textItems (esc : List Char → List Char) : List Shape → List Char
  | [] => []
  | [v] => v.text esc
  | v :: w :: items => v.text esc ++ ',' :: Shape.textItems esc (w :: items)

/-- That of an object. -/
def Shape.textMembers (esc : List Char → List Char) : List (List Char × Shape) → List Char
  | [] => []
  | [(k, v)] => JsonValue.quoted k ++ ':' :: v.text esc
  | (k, v) :: m :: members =>
    JsonValue.quoted k ++ ':' :: (v.text esc ++ ',' :: Shape.textMembers esc (m :: members))

end

mutual

/-- The value, once its holes are filled. -/
def Shape.json : Shape → JsonValue
  | .hole s => .str s
  | .fixed v => v
  | .arr items => .arr (Shape.jsonItems items)
  | .obj members => .obj (Shape.jsonMembers members)

def Shape.jsonItems : List Shape → List JsonValue
  | [] => []
  | v :: items => v.json :: Shape.jsonItems items

def Shape.jsonMembers : List (List Char × Shape) → List (List Char × JsonValue)
  | [] => []
  | (k, v) :: members => (k, v.json) :: Shape.jsonMembers members

end

/-- The text of a tree is rendered to what the tree means. -/
structure RendersTo (nodes : List Node) (params : JsonValue) : Prop where
  means : render (writeAll nodes) params = .ok (meanAll jsonEscaped [params] nodes)
  reads : ∀ shape : Shape, (∀ esc, meanAll esc [params] nodes = shape.text esc) →
    ∃ text, render (writeAll nodes) params = .ok text ∧ JsonValue.Spells text shape.json

/-! ## What it is rendered from -/

/-- The tag that closes a section. -/
def closes (name : List Char) : List Char :=
  opening ++ '/' :: name ++ closing

/-- The closing tag of a section has no blanks, and its text is not found before its end. -/
def Closed (name : TagName) (inner : List Node) (blanks : Blanks) : Prop :=
  blanks = ⟨0, 0, 0⟩ ∧
    find (closes name.chars) (writeAll inner ++ closes name.chars) = some (writeAll inner, [])

mutual

/-- Where `render` follows the tree, of what it comes to: every section is closed where it ends,
and none that repeats is named as a function. -/
def Legible (scopes : List JsonValue) : Node → Prop
  | .section_ false name inner blanks =>
    name.chars ∉ [toJsonName, joinName, urlName] ∧ Closed name inner blanks ∧
      ∀ pass ∈ passes scopes (value name scopes), LegibleAll pass [] inner
  | .section_ true name inner blanks =>
    Closed name inner blanks ∧
      (passes scopes (value name scopes) = [] → LegibleAll scopes [] inner)
  | _ => True

/-- And the text up to a tag, of which there is `pre` so far, opens no hole and does not end in a
brace that would run into the tag's. -/
def LegibleAll (scopes : List JsonValue) (pre : List Char) : List Node → Prop
  | [] => ¬ opening <:+: pre
  | .text t :: nodes => LegibleAll scopes (pre ++ t) nodes
  | node :: nodes => (¬ opening <:+: pre ∧ pre.getLast? ≠ some '{') ∧ Legible scopes node ∧
    LegibleAll scopes [] nodes

end

mutual

/-- What a piece costs. -/
def cost (scopes : List JsonValue) : Node → ℕ
  | .text t => size t
  | .section_ false name inner _ =>
    ((passes scopes (value name scopes)).map fun pass => 64 + costAll pass inner).sum
  | .section_ true name inner _ =>
    if passes scopes (value name scopes) = [] then 64 + costAll scopes inner else 0
  | _ => 0

/-- What some cost. -/
def costAll (scopes : List JsonValue) : List Node → ℕ
  | [] => 0
  | node :: nodes => cost scopes node + costAll scopes nodes

end

/-- A character JSON does not allow as it is. -/
def Bare (c : Char) : Prop :=
  c.toNat < 32 ∧ c ≠ '\n' ∧ c ≠ '\r' ∧ c ≠ '\t'

mutual

/-- Every string an escaped variable writes is one that `escaped` writes as JSON does. -/
def Clean (scopes : List JsonValue) : Node → Prop
  | .variable name => ∀ c ∈ asText (value name scopes), ¬ Bare c
  | .section_ false name inner _ =>
    ∀ pass ∈ passes scopes (value name scopes), CleanAll pass inner
  | .section_ true name inner _ =>
    passes scopes (value name scopes) = [] → CleanAll scopes inner
  | _ => True

/-- None of them has such a value in it. -/
def CleanAll (scopes : List JsonValue) : List Node → Prop
  | [] => True
  | node :: nodes => Clean scopes node ∧ CleanAll scopes nodes

end

/-! ## Searching what is written -/

/-- Text in front. -/
def prepend (piece : List Char) (p : List Char × List Char) : List Char × List Char :=
  (piece ++ p.1, p.2)

/-- A tag does not begin within a piece. -/
def Apart (needle piece rest : List Char) : Prop :=
  ∀ a s, piece = a ++ s → s ≠ [] → ¬ needle <+: s ++ rest

variable {needle piece rest t : List Char}

theorem Apart.cons {c : Char} (here : ¬ needle <+: c :: (piece ++ rest))
    (h : Apart needle piece rest) : Apart needle (c :: piece) rest := by
  intro a s eq some_
  cases a with
  | nil =>
    obtain rfl : c :: piece = s := by simpa using eq
    simpa using here
  | cons d a =>
    simp only [List.cons_append, List.cons.injEq] at eq
    exact h a s eq.2 some_

theorem apart_free {d : Char} (free : d ∉ piece) : Apart (d :: needle) piece rest := by
  intro a s eq some_ begins
  cases s with
  | nil => exact some_ rfl
  | cons c s =>
    rw [List.cons_append, List.cons_prefix_cons] at begins
    apply free
    simp [eq, begins.1]

theorem find_apart (h : Apart needle piece rest) :
    find needle (piece ++ rest) = (find needle rest).map (prepend piece) := by
  induction piece with
  | nil =>
    rw [List.nil_append]
    cases find needle rest <;> rfl
  | cons c piece ih =>
    have here : ¬ needle <+: c :: (piece ++ rest) := by simpa using h [] (c :: piece) rfl (by simp)
    rw [List.cons_append, find, if_neg here, ih fun a s eq => h (c :: a) s (by simp [eq]),
      Option.map_map]
    rfl

theorem find_here {c : Char} : find (c :: needle) (c :: needle ++ rest) = some ([], rest) := by
  simp [find]

theorem find_after {c : Char} (h : Apart (c :: needle) piece (c :: needle ++ rest)) :
    find (c :: needle) (piece ++ (c :: needle ++ rest)) = some (piece, rest) := by
  rw [find_apart h, find_here]
  simp [prepend]

theorem apart_text (plain : ¬ opening <:+: t) (last : t.getLast? ≠ some '{') :
    Apart ('{' :: '{' :: needle) t rest := by
  intro a s eq some_ begins
  match s, some_ with
  | [c], _ =>
    rw [List.cons_append, List.cons_prefix_cons] at begins
    obtain ⟨rfl, -⟩ := begins
    apply last
    simp [eq]
  | c :: d :: s, _ =>
    simp only [List.cons_append, List.cons_prefix_cons] at begins
    obtain ⟨rfl, rfl, -⟩ := begins
    apply plain
    exact ⟨a, s, by simp [eq, opening]⟩

theorem TagName.head (name : TagName) :
    ∃ c rest, name.chars = c :: rest ∧ c ∉ marks ∧ c ≠ '}' := by
  obtain ⟨c, rest, eq⟩ := List.exists_cons_of_ne_nil name.some_
  refine ⟨c, rest, eq, name.plain c (by simp [eq]), ?_⟩
  intro brace
  apply name.braceless.2
  simp [eq, brace]

/-- What is found at the end of a text is found there whatever follows. -/
theorem find_more (found : find needle (piece ++ needle) = some (piece, [])) :
    find needle (piece ++ (needle ++ rest)) = some (piece, rest) := by
  rw [← List.append_assoc]
  obtain ⟨text, ht⟩ : ∃ text, text = piece ++ needle := ⟨_, rfl⟩
  have long : needle.length ≤ text.length := by
    rw [ht, List.length_append]
    omega
  rw [← ht] at found ⊢
  clear ht
  induction text generalizing piece with
  | nil =>
    unfold find at found
    split at found
    case isFalse => cases found
    case isTrue none =>
      cases found
      subst none
      cases rest <;> simp [find]
  | cons c text ih =>
    unfold find at found
    rw [List.cons_append, find]
    split at found
    case isTrue here =>
      obtain ⟨more, eq⟩ := here
      rw [← eq, List.drop_left] at found
      cases found
      rw [← List.cons_append, ← eq, List.append_nil, if_pos (List.prefix_append _ _),
        List.drop_left]
    case isFalse other =>
      rw [if_neg fun begins => other (List.prefix_of_prefix_length_le begins
        (by rw [← List.cons_append]; exact List.prefix_append _ _) long)]
      simp only [Option.map_eq_some_iff, Prod.exists, Prod.mk.injEq] at found
      obtain ⟨before, after, later, rfl, rfl⟩ := found
      rw [ih later ?_]
      · rfl
      · have := find_spec later
        rw [this, List.append_nil, List.length_append]
        omega

theorem Closed.sectionOf {name : TagName} {inner : List Node} {blanks : Blanks}
    (h : Closed name inner blanks) (rest : List Char) :
    Mustache.sectionOf (writeAll inner ++ (closes name.chars ++ rest)) name.chars =
      (writeAll inner, rest) := by
  have needle_eq : opening ++ '/' :: name.chars ++ closing = closes name.chars := rfl
  rw [Mustache.sectionOf, needle_eq, find_more h.2, Option.getD_some]

/-! ## Work that is paid for -/

variable {α β : Type} {k n n' : ℕ}

/-- The work comes to this, and costs so much. -/
structure Does (m : Work α) (a : α) (n : ℕ) : Prop where
  fits : ∀ {l : Ledger}, l.budget + n ≤ maxRendered → ∃ p, m l = (.ok a, ⟨l.budget + n, p⟩)
  refused : ∀ {l : Ledger}, l.budget ≤ maxRendered → maxRendered < l.budget + n →
    ∃ e l', m l = (.error e, l')

theorem does_pure (a : α) : Does (pure a) a 0 where
  fits {l} _ := ⟨l.produced, rfl⟩
  refused fits above := by omega

theorem does_push (text : List Char) : Does (push text) () 0 where
  fits {l} _ := ⟨l.produced + size text, rfl⟩
  refused fits above := by omega

theorem does_charge (n : ℕ) : Does (charge n) () n where
  fits {l} fits := by
    refine ⟨l.produced, ?_⟩
    simp only [charge]
    rw [if_neg (by simpa using fits)]
  refused {l} _ above := by
    refine ⟨.tooMuch (l.budget + n), ⟨l.budget + n, l.produced⟩, ?_⟩
    simp only [charge]
    rw [if_pos (by simpa using above)]

theorem Does.bind {m : Work α} {f : α → Work β} {a : α} {b : β} (first : Does m a n)
    (second : Does (f a) b n') : Does (m >>= f) b (n + n') where
  fits {l} fits := by
    obtain ⟨p, eq⟩ := first.fits (l := l) (by omega)
    obtain ⟨p', eq'⟩ := second.fits (l := ⟨l.budget + n, p⟩) (by simpa [Nat.add_assoc] using fits)
    refine ⟨p', ?_⟩
    simp only [Bind.bind, eq, eq', Nat.add_assoc]
  refused {l} fits above := by
    by_cases room : l.budget + n ≤ maxRendered
    · obtain ⟨p, eq⟩ := first.fits room
      obtain ⟨e, l', eq'⟩ := second.refused (l := ⟨l.budget + n, p⟩) room
        (by simpa [Nat.add_assoc] using above)
      refine ⟨e, l', ?_⟩
      simp only [Bind.bind, eq, eq']
    · obtain ⟨e, l', eq⟩ := first.refused fits (by omega)
      refine ⟨e, l', ?_⟩
      simp only [Bind.bind, eq]

theorem Does.cost {m : Work α} {a : α} (h : Does m a n) (same : n = n') : Does m a n' :=
  same ▸ h

/-! ## Values -/

variable {scopes : List JsonValue}

theorem lookUp_eq (name : TagName) (scopes : List JsonValue) :
    lookUp name.chars scopes = value name scopes := by
  have path : ∀ (path : List (List Char)) (scopes : List JsonValue),
      (scopes.findSome? fun level => follow level path).getD .null = resolve path scopes := by
    intro path scopes
    induction scopes with
    | nil => rfl
    | cons level outer ih =>
      rw [resolve, List.findSome?_cons]
      cases follow level path with
      | some v => rfl
      | none => exact ih
  unfold lookUp value
  rw [path]

theorem truthy_iff (v : JsonValue) : truthy v = true ↔ passes scopes v ≠ [] := by
  cases v with
  | null => simp [truthy, passes]
  | bool b => cases b <;> simp [truthy, passes]
  | number n => simp [truthy, passes]
  | str s => cases s <;> simp [truthy, passes]
  | arr items => cases items <;> simp [truthy, passes]
  | obj members => simp [truthy, passes]

variable {within : Within} {body : List Char}

theorem does_eachItem {out : List JsonValue → List Char} {charged : List JsonValue → ℕ} :
    ∀ {items : List JsonValue},
      (∀ item ∈ items, Does (within body (item :: scopes)) (out (item :: scopes))
        (charged (item :: scopes))) →
      Does (eachItem within body scopes items)
        ((items.map (· :: scopes)).flatMap out) ((items.map (· :: scopes)).map charged).sum
  | [], _ => does_pure []
  | item :: items, each => by
    have later := does_eachItem fun i mem => each i (List.mem_cons_of_mem _ mem)
    have first := each item List.mem_cons_self
    unfold eachItem
    refine Does.cost (first.bind (later.bind (does_pure _))) ?_
    simp

theorem does_filledBy {out : List JsonValue → List Char} {charged : List JsonValue → ℕ}
    (v : JsonValue)
    (each : ∀ pass ∈ passes scopes v, Does (within body pass) (out pass) (charged pass)) :
    Does (filledBy within v body scopes) ((passes scopes v).flatMap out)
      ((passes scopes v).map charged).sum := by
  cases v with
  | null => exact does_pure []
  | bool b =>
    cases b with
    | false => exact does_pure []
    | true => simpa [filledBy, truthy, passes] using each
  | number n => simpa [filledBy, truthy, passes] using each
  | str s =>
    cases s with
    | nil => exact does_pure []
    | cons c s => simpa [filledBy, truthy, passes] using each
  | arr items =>
    apply does_eachItem
    intro item mem
    exact each _ (List.mem_map_of_mem mem)
  | obj members => simpa [filledBy, passes] using each

/-! ## Rendering -/

/-- `within` renders trees of fewer than `k` levels. -/
def Follows (k : ℕ) (within : Within) : Prop :=
  ∀ {nodes scopes}, WellFormedAll nodes → LegibleAll scopes [] nodes → depthAll nodes < k →
    Does (within (writeAll nodes) scopes) (meanAll escaped scopes nodes)
      (64 + costAll scopes nodes)

theorem does_ending (rest : List Char) : Does (ending rest) rest (size rest) :=
  ((does_push rest).bind ((does_charge (size rest)).bind (does_pure rest))).cost (by simp)

theorem find_plain (plain : ¬ opening <:+: t) : find opening t = none := by
  cases found : find opening t with
  | none => rfl
  | some parts =>
    obtain ⟨before, after⟩ := parts
    exact absurd ⟨before, after, (find_spec found).symm⟩ plain

theorem turns_done (plain : ¬ opening <:+: rest) (n : ℕ) :
    turns within scopes n rest = ending rest := by
  cases n with
  | zero => rfl
  | succ n => simp [turns, find_plain plain]

theorem does_turn {pre inside tail text next more : List Char} {x y : ℕ}
    (plain : ¬ opening <:+: pre) (last : pre.getLast? ≠ some '{')
    (closed : find closing (inside ++ (closing ++ tail)) = some (inside, tail))
    (tag : Does (tagged within scopes (Text.trim inside) tail) (text, next) x)
    (later : Does (turns within scopes n next) more y) :
    Does (turns within scopes (n + 1) (pre ++ (opening ++ (inside ++ (closing ++ tail)))))
      (pre ++ text ++ more) (size pre + x + y) := by
  have found : find opening (pre ++ (opening ++ (inside ++ (closing ++ tail)))) =
      some (pre, inside ++ (closing ++ tail)) := find_after (apart_text plain last)
  have before : Does (literal pre) () (size pre) :=
    ((does_charge (size pre)).bind (does_push pre)).cost (by simp)
  have written : Does (placed within scopes (Text.trim inside) tail) (text, next) x :=
    (tag.bind ((does_push text).bind (does_pure (text, next)))).cost (by simp)
  unfold turns
  simp only [found, closed]
  refine Does.cost (before.bind (written.bind (later.bind (does_pure _)))) ?_
  omega

theorem find_closing {inside tail : List Char} (free : '}' ∉ inside) :
    find closing (inside ++ (closing ++ tail)) = some (inside, tail) :=
  find_after (apart_free free)

theorem apart_comment {c tail : List Char} (well : ¬ closing <:+: c ++ ['}']) :
    Apart closing ('!' :: c) (closing ++ tail) := by
  refine Apart.cons (fun begins => ?_) ?_
  · rw [closing, List.cons_prefix_cons] at begins
    exact absurd begins.1 (by decide)
  · intro a s eq some_ begins
    match s, some_ with
    | [d], _ =>
      rw [closing, List.cons_append, List.cons_prefix_cons] at begins
      obtain ⟨rfl, -⟩ := begins
      exact well ⟨a, [], by simp [eq, closing]⟩
    | d :: e :: s, _ =>
      rw [closing, List.cons_append, List.cons_append, List.cons_prefix_cons,
        List.cons_prefix_cons] at begins
      obtain ⟨rfl, rfl, -⟩ := begins
      exact well ⟨a, s ++ ['}'], by simp [eq, closing]⟩

theorem isWhiteSpace_mark {c : Char} (mark : c ∈ marks) : Text.isWhiteSpace c = false := by
  simp only [marks, List.mem_cons, List.not_mem_nil, or_false] at mark
  rcases mark with rfl | rfl | rfl | rfl | rfl | rfl | rfl | rfl <;> decide

theorem TagName.trim_mark (name : TagName) {c : Char} (mark : c ∈ marks) :
    Text.trim (c :: name.chars) = c :: name.chars :=
  Text.trim_cons (isWhiteSpace_mark mark) name.some_ name.trimmed

theorem tagged_variable (name : TagName) (tail : List Char) :
    tagged within scopes name.chars tail =
      pure (escaped (asText (value name scopes)), tail) := by
  obtain ⟨c, rest, eq, mark, -⟩ := name.head
  rw [← lookUp_eq, eq]
  simp only [marks, List.mem_cons, List.not_mem_nil, or_false, not_or] at mark
  unfold tagged
  split
  case h_7 => rfl
  all_goals simp_all

theorem trimEndBraces_free {t : List Char} (free : '}' ∉ t) : trimEndBraces t = t := by
  unfold trimEndBraces
  cases eq : t.reverse with
  | nil => simpa using eq.symm
  | cons c rest =>
    have other : c ≠ '}' := by
      intro h
      apply free
      rw [← List.mem_reverse, eq, h]
      exact List.mem_cons_self
    rw [List.dropWhile_cons_of_neg (by simp [other]), ← eq, List.reverse_reverse]

theorem does_filled {name : TagName} (plain : name.chars ∉ [toJsonName, joinName, urlName])
    {out : List JsonValue → List Char} {charged : List JsonValue → ℕ}
    (each : ∀ pass ∈ passes scopes (value name scopes),
      Does (within body pass) (out pass) (charged pass)) :
    Does (filled within name.chars body scopes)
      ((passes scopes (value name scopes)).flatMap out)
      ((passes scopes (value name scopes)).map charged).sum := by
  simp only [List.mem_cons, List.not_mem_nil, or_false, not_or] at plain
  have done := does_filledBy (value name scopes) each
  simpa [filled, plain.1, plain.2.1, plain.2.2, lookUp_eq] using done

theorem does_node (follows : Follows k within) :
    ∀ {node : Node} {rest : List Char}, WellFormed node → Legible scopes node → depth node ≤ k →
      (∀ t, node ≠ .text t) →
      ∃ inside tail, write node ++ rest = opening ++ (inside ++ (closing ++ tail)) ∧
        find closing (inside ++ (closing ++ tail)) = some (inside, tail) ∧
        Does (tagged within scopes (Text.trim inside) tail) (mean escaped scopes node, rest)
          (cost scopes node)
  | .text t, _, _, _, _, other => absurd rfl (other t)
  | .variable name, rest, _, _, _, _ => by
    refine ⟨name.chars, rest, by simp [write], find_closing name.braceless.2, ?_⟩
    rw [name.trimmed, tagged_variable]
    exact does_pure _
  | .raw name, rest, _, _, _, _ => by
    refine ⟨'{' :: name.chars, '}' :: rest, by simp [write, closing], find_closing ?_, ?_⟩
    · simp [name.braceless.2]
    · rw [name.trim_mark (by simp [marks])]
      simp only [tagged, List.head?_cons, if_true, List.tail_cons, name.trimmed,
        trimEndBraces_free name.braceless.2, lookUp_eq]
      exact does_pure _
  | .comment c, rest, well, _, _, _ => by
    refine ⟨'!' :: c, rest, by simp [write], ?_, ?_⟩
    · exact find_after (apart_comment well)
    · obtain ⟨t, eq⟩ := Text.trim_head (isWhiteSpace_mark (c := '!') (by simp [marks])) c
      rw [eq]
      exact does_pure _
  | .section_ false name inner blanks, rest, well, legible, deep, _ => by
    simp only [Legible] at legible
    obtain ⟨plain, closed, legible⟩ := legible
    obtain rfl := closed.1
    refine ⟨'#' :: name.chars, writeAll inner ++ (closes name.chars ++ rest),
      by simp [write, closingTag, closes, blank], find_closing ?_, ?_⟩
    · simp [name.braceless.2]
    · rw [name.trim_mark (by simp [marks])]
      have fewer : depthAll inner < k := by
        simp only [depth] at deep
        omega
      simp only [tagged, name.trimmed, closed.sectionOf]
      have done : Does (filled within name.chars (writeAll inner) scopes)
          (mean escaped scopes (.section_ false name inner ⟨0, 0, 0⟩))
          (cost scopes (.section_ false name inner ⟨0, 0, 0⟩)) := by
        simp only [mean, cost]
        exact does_filled plain fun pass mem => follows well (legible pass mem) fewer
      exact (Does.bind (f := fun text => pure (text, rest)) done (does_pure _)).cost
        (Nat.add_zero _)
  | .section_ true name inner blanks, rest, well, legible, deep, _ => by
    simp only [Legible] at legible
    obtain ⟨closed, legible⟩ := legible
    obtain rfl := closed.1
    refine ⟨'^' :: name.chars, writeAll inner ++ (closes name.chars ++ rest),
      by simp [write, closingTag, closes, blank], find_closing ?_, ?_⟩
    · simp [name.braceless.2]
    · rw [name.trim_mark (by simp [marks])]
      have fewer : depthAll inner < k := by
        simp only [depth] at deep
        omega
      simp only [tagged, name.trimmed, closed.sectionOf, lookUp_eq]
      by_cases none : passes scopes (value name scopes) = []
      · have falsy : truthy (value name scopes) = false := by
          rw [Bool.eq_false_iff, ne_eq, truthy_iff, not_not]
          exact none
        simp only [falsy, Bool.false_eq_true, if_false, mean, none, if_true, cost]
        have done : Does (within (writeAll inner) scopes) (meanAll escaped scopes inner)
            (64 + costAll scopes inner) := follows well (legible none) fewer
        exact (Does.bind (f := fun text => pure (text, rest)) done (does_pure _)).cost
          (Nat.add_zero _)
      · simp only [(truthy_iff _).mpr none, if_true, mean, none, if_false, cost]
        exact does_pure _

theorem does_turns (follows : Follows k within) :
    ∀ {nodes : List Node} {pre : List Char} {n : ℕ}, WellFormedAll nodes →
      LegibleAll scopes pre nodes → depthAll nodes ≤ k → (pre ++ writeAll nodes).length ≤ n →
      Does (turns within scopes n (pre ++ writeAll nodes)) (pre ++ meanAll escaped scopes nodes)
        (size pre + costAll scopes nodes)
  | [], pre, n, _, legible, _, _ => by
    simp only [LegibleAll] at legible
    simp only [writeAll, meanAll, costAll, List.append_nil, Nat.add_zero]
    rw [turns_done legible]
    exact does_ending pre
  | node :: nodes, pre, n, well, legible, deep, long => by
    simp only [depthAll, Nat.max_le] at deep
    by_cases text : ∃ t, node = .text t
    · -- the text runs on
      obtain ⟨t, rfl⟩ := text
      simp only [LegibleAll] at legible
      have later : Does (turns within scopes n (pre ++ t ++ writeAll nodes))
          (pre ++ t ++ meanAll escaped scopes nodes) (size (pre ++ t) + costAll scopes nodes) :=
        does_turns follows well.2 legible deep.2 (by simpa [writeAll, write] using long)
      simpa [writeAll, write, meanAll, mean, costAll, cost, Nat.add_assoc] using later
    · have other : ∀ t, node ≠ .text t := fun t eq => text ⟨t, eq⟩
      obtain ⟨⟨plain, last⟩, legibleNode, legibleNodes⟩ :
          (¬ opening <:+: pre ∧ pre.getLast? ≠ some '{') ∧ Legible scopes node ∧
            LegibleAll scopes [] nodes := by
        cases node with
        | text t => exact absurd rfl (other t)
        | _ => simpa only [LegibleAll] using legible
      obtain ⟨inside, tail, eq, closed, tag⟩ : ∃ inside tail,
          write node ++ writeAll nodes = opening ++ (inside ++ (closing ++ tail)) ∧
            find closing (inside ++ (closing ++ tail)) = some (inside, tail) ∧
              Does (tagged within scopes (Text.trim inside) tail)
                (mean escaped scopes node, writeAll nodes) (cost scopes node) :=
        does_node follows well.1 legibleNode deep.1 other
      have shape : pre ++ writeAll (node :: nodes) =
          pre ++ (opening ++ (inside ++ (closing ++ tail))) := by
        rw [writeAll, eq]
      have taken : 0 < (write node).length := by
        cases node with
        | text t => exact absurd rfl (other t)
        | _ => simp [write, opening, closingTag]
      simp only [writeAll, List.length_append] at long
      obtain ⟨m, rfl⟩ := Nat.exists_eq_add_one_of_ne_zero (n := n) (by omega)
      have later : Does (turns within scopes m ([] ++ writeAll nodes))
          ([] ++ meanAll escaped scopes nodes) (size [] + costAll scopes nodes) := by
        refine does_turns follows well.2 legibleNodes deep.2 ?_
        simp only [List.nil_append]
        omega
      rw [shape]
      have done := does_turn plain last closed tag later
      simpa [meanAll, costAll, Nat.add_assoc] using done

theorem follows_renderWithin : ∀ levels : ℕ, Follows levels (renderWithin levels)
  | 0, nodes, _, _, _, deep => absurd deep (Nat.not_lt_zero _)
  | levels + 1, nodes, scopes, well, legible, deep => by
    have later : Does (turns (renderWithin levels) scopes (writeAll nodes).length
        ([] ++ writeAll nodes)) ([] ++ meanAll escaped scopes nodes)
        (size [] + costAll scopes nodes) :=
      does_turns (follows_renderWithin levels) well legible (Nat.le_of_lt_succ deep) (by simp)
    have done := (does_charge 64).bind (f := fun _ => turns (renderWithin levels) scopes
      (writeAll nodes).length ([] ++ writeAll nodes)) later
    simpa [renderWithin] using done

/-! ## What is written -/

theorem escapedChar_clean {c : Char} (clean : ¬ Bare c) : escapedChar c = JsonValue.escape c := by
  unfold escapedChar JsonValue.escape
  repeat' split
  all_goals first
    | rfl
    | exact absurd ⟨by simp_all, by simp_all, by simp_all, by simp_all⟩ clean

/-- One is no longer than the other. -/
def Shorter (short long : List Char) (P : Prop) : Prop :=
  short.length ≤ long.length ∧ (short.length = long.length → P)

theorem Shorter.append {a b a' b' : List Char} {P Q : Prop} (h : Shorter a b P)
    (h' : Shorter a' b' Q) : Shorter (a ++ a') (b ++ b') (P ∧ Q) := by
  have first := h.1
  have second := h'.1
  refine ⟨by simp only [List.length_append]; omega, fun same => ?_⟩
  simp only [List.length_append] at same
  exact ⟨h.2 (by omega), h'.2 (by omega)⟩

theorem Shorter.refl (t : List Char) : Shorter t t True :=
  ⟨le_rfl, fun _ => trivial⟩

theorem shorter_flatMap {f g : α → List Char} {P : α → Prop} {xs : List α}
    (each : ∀ x ∈ xs, Shorter (f x) (g x) (P x)) :
    Shorter (xs.flatMap f) (xs.flatMap g) (∀ x ∈ xs, P x) := by
  induction xs with
  | nil => exact ⟨le_rfl, fun _ => by simp⟩
  | cons x xs ih =>
    have both := (each x List.mem_cons_self).append
      (ih fun y mem => each y (List.mem_cons_of_mem _ mem))
    refine ⟨both.1, fun same => ?_⟩
    rw [List.forall_mem_cons]
    exact both.2 same

theorem shorter_escapedChar (c : Char) :
    Shorter (escapedChar c) (JsonValue.escape c) (¬ Bare c) := by
  by_cases bare : Bare c
  · have longer : (escapedChar c).length < (JsonValue.escape c).length := by
      unfold escapedChar JsonValue.escape
      repeat' split
      all_goals simp_all [Bare]
    exact ⟨le_of_lt longer, fun same => absurd same (ne_of_lt longer)⟩
  · rw [escapedChar_clean bare]
    exact ⟨le_rfl, fun _ => bare⟩

mutual

theorem shorter_mean : ∀ (node : Node) (scopes : List JsonValue),
    Shorter (mean escaped scopes node) (mean jsonEscaped scopes node) (Clean scopes node)
  | .text t, _ => Shorter.refl t
  | .variable name, scopes => shorter_flatMap fun c _ => shorter_escapedChar c
  | .raw name, scopes => Shorter.refl _
  | .comment c, _ => Shorter.refl []
  | .section_ false name inner _, scopes => by
    simp only [mean, Clean]
    exact shorter_flatMap fun pass _ => shorter_meanAll inner pass
  | .section_ true name inner _, scopes => by
    simp only [mean, Clean]
    split
    case isTrue none =>
      have inside := shorter_meanAll inner scopes
      exact ⟨inside.1, fun same _ => inside.2 same⟩
    case isFalse some_ => exact ⟨le_rfl, fun _ none => absurd none some_⟩

theorem shorter_meanAll : ∀ (nodes : List Node) (scopes : List JsonValue),
    Shorter (meanAll escaped scopes nodes) (meanAll jsonEscaped scopes nodes)
      (CleanAll scopes nodes)
  | [], _ => Shorter.refl []
  | node :: nodes, scopes => (shorter_mean node scopes).append (shorter_meanAll nodes scopes)

end

theorem flatMap_congr {f g : α → List β} {xs : List α} (each : ∀ x ∈ xs, f x = g x) :
    xs.flatMap f = xs.flatMap g := by
  rw [List.flatMap, List.flatMap, List.map_congr_left each]

mutual

theorem mean_clean : ∀ (node : Node) {scopes : List JsonValue}, Clean scopes node →
    mean escaped scopes node = mean jsonEscaped scopes node
  | .text t, _, _ => rfl
  | .variable name, scopes, clean => flatMap_congr fun c mem => escapedChar_clean (clean c mem)
  | .raw name, scopes, _ => rfl
  | .comment c, _, _ => rfl
  | .section_ false name inner _, scopes, clean => by
    simp only [Clean] at clean
    simp only [mean]
    exact flatMap_congr fun pass mem => meanAll_clean inner (clean pass mem)
  | .section_ true name inner _, scopes, clean => by
    simp only [Clean] at clean
    simp only [mean]
    split
    case isTrue none => exact meanAll_clean inner (clean none)
    case isFalse some_ => rfl

theorem meanAll_clean : ∀ (nodes : List Node) {scopes : List JsonValue}, CleanAll scopes nodes →
    meanAll escaped scopes nodes = meanAll jsonEscaped scopes nodes
  | [], _, _ => rfl
  | node :: nodes, scopes, clean => by
    simp only [meanAll]
    rw [mean_clean node clean.1, meanAll_clean nodes clean.2]

end

/-! ## Documents -/

mutual

theorem spells_shape : ∀ shape : Shape, JsonValue.Spells (shape.text jsonEscaped) shape.json
  | .hole s => JsonValue.spells_quoted s
  | .fixed v => JsonValue.spells_print v
  | .arr items => .arr (spells_items items)
  | .obj members => .obj (spells_members members)

theorem spells_items : ∀ items : List Shape,
    JsonValue.SpellsItems (Shape.textItems jsonEscaped items) (Shape.jsonItems items)
  | [] => .none (by simp [JsonValue.White, Shape.textItems])
  | [v] => .one (spells_shape v)
  | v :: w :: items =>
    .more (spells_shape v) (by simp [Shape.jsonItems]) (spells_items (w :: items))

theorem spells_members : ∀ members : List (List Char × Shape),
    JsonValue.SpellsMembers (Shape.textMembers jsonEscaped members) (Shape.jsonMembers members)
  | [] => .none (by simp [JsonValue.White, Shape.textMembers])
  | [(k, v)] => .one (JsonValue.spells_quoted k) (spells_shape v)
  | (k, v) :: m :: members => by
    have first := spells_shape v
    have later := spells_members (m :: members)
    have some_ : Shape.jsonMembers (m :: members) ≠ [] := by simp [Shape.jsonMembers]
    simpa [Shape.textMembers, Shape.jsonMembers] using
      JsonValue.SpellsMembers.more (JsonValue.spells_quoted k) first some_ later

end

def nameOf (c : Char) (black : Text.isWhiteSpace c = false) (brace : c ≠ '{' ∧ c ≠ '}')
    (mark : c ∉ marks) : TagName where
  chars := [c]
  some_ := by simp
  trimmed := by simp [Text.trim, black]
  braceless := ⟨by simpa using brace.1.symm, by simpa using brace.2.symm⟩
  plain := by simpa using mark

def nameA : TagName :=
  nameOf 'a' (by decide) (by decide) (by decide)

def nameX : TagName :=
  nameOf 'x' (by decide) (by decide) (by decide)

def stringAndBlanks : List Node :=
  [.text ['"'], .variable nameX, .text ['"'], .section_ false nameA [.text [' ']] ⟨0, 0, 0⟩]

def blanksInClosing : List Node :=
  [.section_ false nameA [] ⟨0, 1, 1⟩, .text ['y']]

end Mustache
end Velosearch

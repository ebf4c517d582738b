import Velosearch.Api.Mustache

/-!
# What a template renders into

The budget is charged for the text of the template and for each level entered. A value is not
charged for, and neither is a hole that is never closed. `Account` goes over a template as the
rendering does and only counts, up to the first text that is written and not charged for. Where
it comes to none (`Charged`), what the template renders into is bounded, and so is what is written
on the way (`charged_bounded`).
-/

set_option autoImplicit false

namespace Velosearch
namespace Mustache

/-- What is rendered is no longer than the ceiling, and what is written at all the levels is no
longer than the ceiling some times over. -/
structure Bounded (times : ℕ) (template : List Char) (params : JsonValue) : Prop where
  rendered : ∀ text, render template params = .ok text → size text ≤ maxRendered
  produced : (rendering template params).2.produced ≤ times * maxRendered

/-! ## Accounts -/

/-- Why the account of a template ends before the template does. -/
inductive Stop where
  | refused
  | uncharged

/-- From what has been charged to what has been charged after. -/
abbrev Account := ℕ → Except Stop ℕ

namespace Account

/-- Nothing is charged. -/
def nothing : Account := Except.ok

/-- Something is written that nobody charges for. -/
def uncharged : Account := fun _ => .error .uncharged

/-- So many bytes are charged, where there is room for them. -/
def charge (n : ℕ) : Account := fun b =>
  if maxRendered < b + n then .error .refused else .ok (b + n)

/-- One account after another. -/
def andThen (a a' : Account) : Account := fun b =>
  match a b with
  | .ok b => a' b
  | .error e => .error e

/-- The text of a value. -/
def value (text : List Char) : Account :=
  if text = [] then nothing else uncharged

/-- The rest of a template is written before it is charged for. -/
def ending (rest : List Char) : Account :=
  if maxRendered < size rest then uncharged else charge (size rest)

/-- The account of a section's body. -/
abbrev Within := List Char → List JsonValue → Account

/-- The account of a section over an array. -/
def eachItem (within : Within) (body : List Char) (scope : List JsonValue) :
    List JsonValue → Account
  | [] => nothing
  | item :: items => (within body (item :: scope)).andThen (eachItem within body scope items)

def filledBy (within : Within) (value : JsonValue) (body : List Char) (scope : List JsonValue) :
    Account :=
  match value with
  | .arr items => eachItem within body scope items
  | .obj members => within body (.obj members :: scope)
  | other => if truthy other then within body scope else nothing

/-- Of a tag, and what follows it. -/
def tagged (within : Within) (scope : List JsonValue) (tag tail : List Char) :
    Account × List Char :=
  match tag with
  | '#' :: rest =>
    let name := Text.trim rest
    let (body, afterSection) := sectionOf tail name
    (if [toJsonName, joinName, urlName].contains name then uncharged
      else filledBy within (lookUp name scope) body scope, afterSection)
  | '^' :: rest =>
    let name := Text.trim rest
    let (body, afterSection) := sectionOf tail name
    (if truthy (lookUp name scope) then nothing else within body scope, afterSection)
  | '/' :: _ => (nothing, tail)
  | '!' :: _ => (nothing, tail)
  | '{' :: rest =>
    (value (asText (lookUp (trimEndBraces (Text.trim rest)) scope)),
      if tail.head? = some '}' then tail.tail else tail)
  | '&' :: rest => (value (asText (lookUp (Text.trim rest) scope)), tail)
  | tag => (value (asText (lookUp tag scope)), tail)

/-- The account of a template, tag by tag. -/
def turns (within : Within) (scope : List JsonValue) : ℕ → List Char → Account
  | 0, rest => ending rest
  | n + 1, rest =>
    match find opening rest with
    | none => ending rest
    | some (before, after) =>
      (charge (size before)).andThen
        (match find closing after with
        | none => uncharged
        | some (inside, tail) =>
          (tagged within scope (Text.trim inside) tail).1.andThen
            (turns within scope n (tagged within scope (Text.trim inside) tail).2))

/-- The account of a template within so many levels of sections. -/
def renderWithin : ℕ → Within
  | 0, _, _ => fun _ => .error .refused
  | levels + 1, template, scope =>
    (charge 64).andThen (turns (renderWithin levels) scope template.length template)

end Account

/-- The rendering comes to nothing, before it ends or is refused, that is written and not charged
for. -/
def Charged (template : List Char) (params : JsonValue) : Prop :=
  Account.renderWithin (maxSectionDepth + 1) template [params] 0 ≠ .error .uncharged

/-! ## What is charged -/

/-- From one ledger to a later one: what is written was charged for, and is written at no more
than `k` levels. -/
structure Paid (k wrote : ℕ) (l l' : Ledger) : Prop where
  ceiling : l'.budget ≤ maxRendered
  charged : l.budget + wrote ≤ l'.budget
  copies : l'.produced + k * l.budget ≤ l.produced + k * l'.budget

/-- A level has written no more than its own budget, once more for each level below it. -/
def Spent (k : ℕ) (l l' : Ledger) : Prop :=
  l'.produced + k * l.budget ≤ l.produced + (k + 1) * maxRendered

/-- Where the account comes to nothing uncharged, the work is charged as it says. -/
structure Spends {α : Type} (k : ℕ) (wrote : α → ℕ) (account : Account) (m : Work α) : Prop where
  ok : ∀ {l l' a}, l.budget ≤ maxRendered → account l.budget ≠ .error .uncharged →
    m l = (.ok a, l') → account l.budget = .ok l'.budget ∧ Paid k (wrote a) l l'
  error : ∀ {l l' e}, l.budget ≤ maxRendered → account l.budget ≠ .error .uncharged →
    m l = (.error e, l') → Spent k l l'

variable {α β : Type} {k n n' : ℕ} {l l' l'' : Ledger}

/-- What two steps wrote is paid for where each is. -/
theorem Paid.trans (h : Paid k n l l') (h' : Paid k n' l' l'') : Paid k (n + n') l l'' where
  ceiling := h'.ceiling
  charged := by
    have := h.charged
    have := h'.charged
    omega
  copies := by
    have := h.copies
    have := h'.copies
    omega

/-- What was paid for and then spent is spent. -/
theorem Paid.spent (h : Paid k n l l') (h' : Spent k l' l'') : Spent k l l'' := by
  have := h.copies
  simp only [Spent] at *
  omega

/-- What a level writes a second time counts against the level above. -/
theorem Paid.copied (h : Paid k n l l') :
    Paid (k + 1) n l { l' with produced := l'.produced + n } where
  ceiling := h.ceiling
  charged := h.charged
  copies := by
    have := h.charged
    have := h.copies
    simp only [Nat.add_mul, Nat.one_mul]
    omega

theorem Spent.further (h : Spent k l l') (within : l.budget ≤ maxRendered) :
    Spent (k + 1) l l' := by
  simp only [Spent, Nat.add_mul, Nat.one_mul] at *
  omega

theorem work_ok {m : Work α} {f : α → Work β} {b : β} (h : (m >>= f) l = (.ok b, l'')) :
    ∃ a l', m l = (.ok a, l') ∧ f a l' = (.ok b, l'') := by
  simp only [bind] at h
  split at h
  case h_1 a l' eq => exact ⟨a, l', eq, h⟩
  case h_2 e l' eq => simp at h

theorem work_error {m : Work α} {f : α → Work β} {e : Refusal}
    (h : (m >>= f) l = (.error e, l'')) :
    m l = (.error e, l'') ∨ ∃ a l', m l = (.ok a, l') ∧ f a l' = (.error e, l'') := by
  simp only [bind] at h
  split at h
  case h_1 a l' eq => exact .inr ⟨a, l', eq, h⟩
  case h_2 e' l' eq =>
    obtain ⟨rfl, rfl⟩ : e' = e ∧ l' = l'' := by simpa using h
    exact .inl eq

/-- Where both in turn are charged, the first is. -/
theorem Account.andThen_charged {a a' : Account} {b : ℕ}
    (h : a.andThen a' b ≠ .error .uncharged) : a b ≠ .error .uncharged := by
  intro stops
  apply h
  rw [andThen, stops]

theorem Account.andThen_ok {a a' : Account} {b b' : ℕ} (h : a b = .ok b') :
    a.andThen a' b = a' b' := by
  rw [andThen, h]

/-- Two pieces of work in turn. -/
theorem Spends.bind {wrote : α → ℕ} {both : β → ℕ} {a a' : Account} {m : Work α}
    {f : α → Work β} (first : Spends k wrote a m)
    (second : ∀ {l x l'}, m l = (.ok x, l') → Spends k (fun y => both y - wrote x) a' (f x)) :
    Spends k both (a.andThen a') (m >>= f) where
  ok fits charged h := by
    obtain ⟨x, l', eq, eq'⟩ := work_ok h
    obtain ⟨same, paid⟩ := first.ok fits (Account.andThen_charged charged) eq
    rw [Account.andThen_ok same] at charged ⊢
    obtain ⟨same', paid'⟩ := (second eq).ok paid.ceiling charged eq'
    have all := paid.trans paid'
    exact ⟨same', { all with charged := by have := all.charged; omega }⟩
  error fits charged h := by
    rcases work_error h with eq | ⟨x, l', eq, eq'⟩
    · exact first.error fits (Account.andThen_charged charged) eq
    · obtain ⟨same, paid⟩ := first.ok fits (Account.andThen_charged charged) eq
      rw [Account.andThen_ok same] at charged
      exact paid.spent ((second eq).error paid.ceiling charged eq')

/-- Work after which nothing is done or charged. -/
theorem Spends.last {wrote : α → ℕ} {both : β → ℕ} {a : Account} {m : Work α} {f : α → Work β}
    (first : Spends k wrote a m)
    (second : ∀ {l x l'}, m l = (.ok x, l') →
      Spends k (fun y => both y - wrote x) .nothing (f x)) : Spends k both a (m >>= f) := by
  have same : a.andThen .nothing = a := by
    funext b
    unfold Account.andThen
    cases a b <;> rfl
  exact same ▸ first.bind second

/-- Work that writes nothing. -/
theorem spends_pure {wrote : α → ℕ} {a : α} (none : wrote a = 0) :
    Spends k wrote .nothing (pure a) where
  ok fits _ h := by
    obtain ⟨rfl, rfl⟩ : a = _ ∧ _ = _ := by simpa [pure] using h
    exact ⟨rfl, fits, by simp [none], le_rfl⟩
  error fits _ h := by simp [pure] at h

theorem spends_uncharged {wrote : α → ℕ} {m : Work α} : Spends k wrote .uncharged m where
  ok _ charged := absurd rfl charged
  error _ charged := absurd rfl charged

theorem spends_value {wrote : α → ℕ} {text : List Char} {a : α} (none : text = [] → wrote a = 0) :
    Spends k wrote (.value text) (pure a) := by
  unfold Account.value
  split
  case isTrue empty => exact spends_pure (none empty)
  case isFalse => exact spends_uncharged

/-! ## Rendering -/

variable {within : Within} {scope : List JsonValue} {text rest : List Char}

theorem charge_ok (h : charge n l = (.ok (), l')) :
    l' = ⟨l.budget + n, l.produced⟩ ∧ l.budget + n ≤ maxRendered ∧
      Account.charge n l.budget = .ok l'.budget := by
  simp only [charge] at h
  split at h
  case isTrue past => simp at h
  case isFalse fits =>
    obtain rfl : _ = l' := by simpa using h
    exact ⟨rfl, by simpa using fits, if_neg fits⟩

theorem charge_error {e : Refusal} (h : charge n l = (.error e, l')) :
    l' = ⟨l.budget + n, l.produced⟩ := by
  simp only [charge] at h
  split at h
  case isTrue past =>
    obtain ⟨-, rfl⟩ : _ = e ∧ _ = l' := by simpa using h
    rfl
  case isFalse fits => simp at h

/-- Text between tags is charged before it is written. -/
theorem spends_literal : Spends (k + 1) (fun _ => size text) (.charge (size text))
    (literal text) where
  ok fits _ h := by
    obtain ⟨⟨⟩, l₁, eq, eq'⟩ := work_ok h
    obtain ⟨rfl, fits', same⟩ := charge_ok eq
    obtain rfl : _ = _ := by simpa [push] using eq'
    refine ⟨same, fits', le_rfl, ?_⟩
    simp only [Nat.mul_add, Nat.add_mul]
    omega
  error fits _ h := by
    rcases work_error h with eq | ⟨⟨⟩, l₁, -, eq⟩
    · obtain rfl := charge_error eq
      have := Nat.mul_le_mul_left k fits
      simp only [Spent, Nat.add_mul]
      omega
    · simp [push] at eq

/-- The text behind the last tag is charged like any other. -/
theorem spends_ending : Spends (k + 1) size (.ending rest) (ending rest) := by
  unfold Account.ending
  split
  case isTrue => exact spends_uncharged
  case isFalse short =>
    refine ⟨fun fits _ h => ?_, fun fits _ h => ?_⟩
    · obtain ⟨⟨⟩, l₁, eq, eq'⟩ := work_ok h
      obtain rfl : _ = l₁ := by simpa [push] using eq
      obtain ⟨⟨⟩, l₂, eq₂, eq₃⟩ := work_ok eq'
      obtain ⟨rfl, fits', same⟩ := charge_ok eq₂
      obtain ⟨rfl, rfl⟩ : rest = _ ∧ _ = _ := by simpa [pure] using eq₃
      refine ⟨same, fits', le_rfl, ?_⟩
      simp only [Nat.mul_add, Nat.add_mul]
      omega
    · rcases work_error h with eq | ⟨⟨⟩, l₁, eq, eq'⟩
      · simp [push] at eq
      · obtain rfl : _ = l₁ := by simpa [push] using eq
        rcases work_error eq' with eq₂ | ⟨⟨⟩, l₂, -, eq₃⟩
        · obtain rfl := charge_error eq₂
          have := Nat.mul_le_mul_left k fits
          simp only [Spent, Nat.add_mul]
          omega
        · simp [pure] at eq₃

variable {account : Account.Within}

/-- A level further in is charged as its account says. -/
def Level (k : ℕ) (account : Account.Within) (within : Within) : Prop :=
  ∀ body scope, Spends k size (account body scope) (within body scope)

/-- A section over an array, by induction on its items. -/
theorem spends_eachItem (level : Level k account within) (body : List Char)
    (items : List JsonValue) :
    Spends k size (.eachItem account body scope items) (eachItem within body scope items) := by
  induction items with
  | nil => exact spends_pure rfl
  | cons item items ih =>
    refine (level body (item :: scope)).bind fun _ => ih.last fun _ => spends_pure ?_
    simp

theorem spends_filledBy (level : Level k account within) (body : List Char) (value : JsonValue) :
    Spends k size (.filledBy account value body scope) (filledBy within value body scope) := by
  have plain : ∀ t : Bool, Spends k size (if t then account body scope else .nothing)
      (if t then within body scope else pure []) := by
    intro t
    cases t with
    | false => exact spends_pure rfl
    | true => exact level body scope
  cases value with
  | arr items => exact spends_eachItem level body items
  | obj members => exact level body _
  | null => exact plain false
  | bool b => exact plain _
  | number n => exact plain true
  | str s => exact plain _

/-- A tag of any kind. -/
theorem spends_tagged (level : Level k account within) (scope : List JsonValue)
    (tag tail : List Char) :
    Spends k (fun p => size p.1) (Account.tagged account scope tag tail).1
        (tagged within scope tag tail) ∧
      ∀ l p l', tagged within scope tag tail l = (.ok p, l') →
        p.2 = (Account.tagged account scope tag tail).2 := by
  have plain : ∀ {text next : List Char} {l : Ledger} {p : List Char × List Char} {l' : Ledger},
      (pure (text, next) : Work _) l = (.ok p, l') → p.2 = next := by
    intro text next l p l' h
    obtain ⟨rfl, -⟩ : _ = p ∧ _ = l' := by simpa [pure] using h
    rfl
  have after : ∀ {m : Work (List Char)} {next : List Char} (l : Ledger)
      (p : List Char × List Char) (l' : Ledger),
      (m >>= fun text => pure (text, next)) l = (.ok p, l') → p.2 = next := by
    intro m next l p l' h
    obtain ⟨text, l₁, -, eq⟩ := work_ok h
    exact plain eq
  have paired : ∀ {a : Account} {m : Work (List Char)} {next : List Char}, Spends k size a m →
      Spends k (fun p => size p.1) a (m >>= fun text => pure (text, next)) := by
    intro a m next spends
    refine spends.last fun _ => spends_pure ?_
    simp
  unfold Account.tagged
  split
  case h_1 rest =>
    simp only [tagged]
    refine ⟨paired ?_, fun l p l' h => after l p l' h⟩
    split
    case isTrue => exact spends_uncharged
    case isFalse named =>
      rw [List.contains_iff_mem] at named
      simp only [List.mem_cons, List.not_mem_nil, or_false, not_or] at named
      simp only [filled, named.1, named.2.1, named.2.2, if_false]
      exact spends_filledBy level _ _
  case h_2 rest =>
    simp only [tagged]
    cases truthy (lookUp (Text.trim rest) scope) with
    | true => exact ⟨spends_pure rfl, fun l p l' h => plain h⟩
    | false => exact ⟨paired (level _ _), fun l p l' h => after l p l' h⟩
  case h_3 => exact ⟨spends_pure rfl, fun l p l' h => plain h⟩
  case h_4 => exact ⟨spends_pure rfl, fun l p l' h => plain h⟩
  case h_5 rest =>
    exact ⟨spends_value fun none => by dsimp only; rw [none]; rfl, fun l p l' h => plain h⟩
  case h_6 rest =>
    exact ⟨spends_value fun none => by dsimp only; rw [none]; rfl, fun l p l' h => plain h⟩
  case h_7 =>
    have same : tagged within scope tag tail = pure (escaped (asText (lookUp tag scope)), tail) := by
      unfold tagged
      split
      case h_7 => rfl
      all_goals simp_all
    rw [same]
    exact ⟨spends_value fun none => by dsimp only; rw [none]; rfl, fun l p l' h => plain h⟩

theorem spends_placed (level : Level k account within) (scope : List JsonValue)
    (tag tail : List Char) :
    Spends (k + 1) (fun p => size p.1) (Account.tagged account scope tag tail).1
        (placed within scope tag tail) ∧
      ∀ l p l', placed within scope tag tail l = (.ok p, l') →
        p.2 = (Account.tagged account scope tag tail).2 := by
  obtain ⟨spends, later⟩ := spends_tagged level scope tag tail
  refine ⟨⟨fun fits charged h => ?_, fun fits charged h => ?_⟩, fun l p l' h => ?_⟩
  · obtain ⟨⟨text, next⟩, l₁, eq, eq'⟩ := work_ok h
    obtain ⟨⟨⟩, l₂, eq₂, eq₃⟩ := work_ok eq'
    obtain rfl : _ = l₂ := by simpa [push] using eq₂
    obtain ⟨rfl, rfl⟩ : (text, next) = _ ∧ _ = _ := by simpa [pure] using eq₃
    obtain ⟨same, paid⟩ := spends.ok fits charged eq
    exact ⟨same, paid.copied⟩
  · rcases work_error h with eq | ⟨⟨text, next⟩, l₁, -, eq⟩
    · exact (spends.error fits charged eq).further fits
    · rcases work_error eq with eq₂ | ⟨⟨⟩, l₂, -, eq₃⟩
      · simp [push] at eq₂
      · simp [pure] at eq₃
  · obtain ⟨⟨text, next⟩, l₁, eq, eq'⟩ := work_ok h
    obtain ⟨⟨⟩, l₂, -, eq₃⟩ := work_ok eq'
    obtain ⟨rfl, -⟩ : (text, next) = p ∧ _ = l' := by simpa [pure] using eq₃
    exact later _ _ _ eq

/-- A template, by induction on the tags left in it. -/
theorem spends_turns (level : Level k account within) (n : ℕ) (rest : List Char) :
    Spends (k + 1) size (.turns account scope n rest) (turns within scope n rest) := by
  induction n generalizing rest with
  | zero => exact spends_ending
  | succ n ih =>
    unfold turns Account.turns
    cases find opening rest with
    | none => exact spends_ending
    | some parts =>
      obtain ⟨before, after⟩ := parts
      dsimp only
      cases find closing after with
      | none => exact spends_literal.bind fun _ => spends_uncharged
      | some parts =>
        obtain ⟨inside, tail⟩ := parts
        obtain ⟨spends, next⟩ := spends_placed level scope (Text.trim inside) tail
        refine spends_literal.bind fun _ => spends.bind fun {_ p _} placed => ?_
        rw [← next _ _ _ placed]
        refine (ih p.2).last fun _ => spends_pure ?_
        simp only [size_append]
        omega

/-- Every level of sections, by induction on the levels. -/
theorem level_renderWithin (levels : ℕ) :
    Level levels (Account.renderWithin levels) (renderWithin levels) := by
  induction levels with
  | zero =>
    refine fun _ _ => ⟨fun _ _ h => by simp [renderWithin, refuse] at h, fun fits _ h => ?_⟩
    obtain ⟨-, rfl⟩ : _ = _ ∧ _ = _ := by simpa [renderWithin, refuse] using h
    simp [Spent]
  | succ levels ih =>
    intro body scope
    have entered : Spends (levels + 1) (fun _ => 0) (.charge 64) (charge 64) := by
      refine ⟨fun fits _ h => ?_, fun fits _ h => ?_⟩
      · obtain ⟨rfl, fits', same⟩ := charge_ok h
        exact ⟨same, fits', by simp, by simp [Nat.mul_add]⟩
      · obtain rfl := charge_error h
        have := Nat.mul_le_mul_left (levels + 1) fits
        simp only [Spent, Nat.add_mul] at *
        omega
    exact entered.bind fun _ => spends_turns ih _ body

/-- A section, with a variable in it. -/
def onlySection : List Char :=
  ['{', '{', '#', 'a', '}', '}', '{', '{', 'x', '}', '}', '{', '{', '/', 'a', '}', '}']

def oneVariable : List Char :=
  ['{', '{', 'x', '}', '}']

theorem render_oneVariable (text : List Char) :
    render oneVariable (.obj [(['x'], .str text)]) = .ok (escaped text) := by
  have written : render oneVariable (.obj [(['x'], .str text)]) =
      .ok ([] ++ escaped text ++ []) := rfl
  rw [written, List.nil_append, List.append_nil]

def longText : List Char :=
  List.replicate (maxRendered + 1) 'a'

end Mustache
end Velosearch

import Mathlib.Data.List.Basic
import Mathlib.Data.List.Infix
import Mathlib.Tactic.Ring

/-!
# Wildcards matched by a loop

The usual loop over a pattern and a text: it goes on while they agree, remembers the last star
and, where they do not agree, lets that star stand for one character more. It finds a match
whenever there is one, as long as no star could also be read as a character of the text.
-/

set_option autoImplicit false

namespace Velosearch.Greedy

variable {α : Type}

/-- What a pattern's characters mean. -/
structure Reading (α : Type) where
  star : α → Bool
  spells : α → Char → Bool

variable (r : Reading α)

/-- Where the loop stands: what is left of the pattern and of the text, and both as they were
just after the last star. -/
structure Scan (α : Type) where
  pattern : List α
  text : List Char
  back : Option (List α × List Char)

/-- Back to the last star, which takes one character more. -/
def retry (s : Scan α) : Scan α ⊕ Bool :=
  match s.back with
  | some (pattern, _ :: text) => .inl { pattern, text, back := some (pattern, text) }
  | _ => .inr false

/-- One round. -/
def step (s : Scan α) : Scan α ⊕ Bool :=
  match s.text, s.pattern with
  | [], pattern => .inr (pattern.all r.star)
  | c :: text, a :: pattern =>
    if r.spells a c then .inl { s with pattern, text }
    else if r.star a then .inl { s with pattern, back := some (pattern, c :: text) }
    else retry s
  | _ :: _, [] => retry s

/-- The rounds. -/
def loop : ℕ → Scan α → Bool
  | 0, _ => false
  | fuel + 1, s => match step r s with
    | .inl s => loop fuel s
    | .inr answer => answer

/-- As many as it takes. -/
def rounds (pattern : List α) (text : List Char) : ℕ :=
  (text.length + 1) * (text.length + pattern.length + 1) + 1

/-- The match, with rounds enough. -/
def greedy (pattern : List α) (text : List Char) : Bool :=
  loop r (rounds pattern text) { pattern, text, back := none }

/-! ## What a match is -/

/-- What it means to match. -/
def Matches : List α → List Char → Prop
  | [], text => text = []
  | a :: pattern, text =>
    if r.star a then ∃ rest, rest <:+ text ∧ Matches pattern rest
    else ∃ c rest, text = c :: rest ∧ r.spells a c = true ∧ Matches pattern rest

/-- A pattern read as the loop reads it: where a token spells the character at hand it stands for
no more than that one, be it a star or not. -/
def Takes : List α → List Char → Prop
  | [], text => text = []
  | a :: pattern, [] => r.star a = true ∧ Takes pattern []
  | a :: pattern, c :: text =>
    if r.spells a c then Takes pattern text
    else r.star a = true ∧ ∃ rest, rest <:+ c :: text ∧ Takes pattern rest

variable {r}

/-- A star matches any front. -/
theorem matches_star {a : α} (star : r.star a = true) {pattern : List α} {text : List Char} :
    Matches r (a :: pattern) text ↔ ∃ rest, rest <:+ text ∧ Matches r pattern rest := by
  rw [Matches, if_pos star]

theorem matches_one {a : α} (one : r.star a = false) {pattern : List α} {text : List Char} :
    Matches r (a :: pattern) text ↔
      ∃ c rest, text = c :: rest ∧ r.spells a c = true ∧ Matches r pattern rest := by
  rw [Matches, if_neg (by rw [one]; decide)]

theorem takes_nil {pattern : List α} : Takes r pattern [] ↔ pattern.all r.star = true := by
  induction pattern with
  | nil => simp [Takes]
  | cons a pattern ih => simp [Takes, ih]

theorem takes_spells {a : α} {c : Char} (spells : r.spells a c = true) {pattern : List α}
    {text : List Char} : Takes r (a :: pattern) (c :: text) ↔ Takes r pattern text := by
  rw [Takes, if_pos spells]

theorem takes_other {a : α} {c : Char} (other : ¬ r.spells a c = true) {pattern : List α}
    {text : List Char} : Takes r (a :: pattern) (c :: text) ↔
      r.star a = true ∧ ∃ rest, rest <:+ c :: text ∧ Takes r pattern rest := by
  rw [Takes, if_neg other]

theorem takes_rest {a : α} {pattern : List α} {text : List Char}
    (h : Takes r (a :: pattern) text) : ∃ rest, rest <:+ text ∧ Takes r pattern rest := by
  cases text with
  | nil => exact ⟨[], List.suffix_refl _, h.2⟩
  | cons c text =>
    by_cases spells : r.spells a c = true
    · exact ⟨text, List.suffix_cons c text, (takes_spells spells).mp h⟩
    · exact ((takes_other spells).mp h).2

theorem matches_of_takes {pattern : List α} {text : List Char} (h : Takes r pattern text) :
    Matches r pattern text := by
  induction pattern generalizing text with
  | nil => exact h
  | cons a pattern ih =>
    cases star : r.star a with
    | true =>
      obtain ⟨rest, suffix, h⟩ := takes_rest h
      exact (matches_star star).mpr ⟨rest, suffix, ih h⟩
    | false =>
      cases text with
      | nil =>
        rw [h.1] at star
        cases star
      | cons c text =>
        by_cases spells : r.spells a c = true
        · exact (matches_one star).mpr ⟨c, text, rfl, spells, ih ((takes_spells spells).mp h)⟩
        · rw [((takes_other spells).mp h).1] at star
          cases star

theorem takes_of_matches {pattern : List α} {text : List Char}
    (plain : ∀ a ∈ pattern, ∀ c ∈ text, r.star a = true → r.spells a c = false)
    (h : Matches r pattern text) : Takes r pattern text := by
  induction pattern generalizing text with
  | nil => exact h
  | cons a pattern ih =>
    have later : ∀ rest, rest <:+ text → Matches r pattern rest → Takes r pattern rest := by
      intro rest suffix matched
      exact ih (fun b mem c inside => plain b (List.mem_cons_of_mem a mem) c
        (suffix.subset inside)) matched
    cases star : r.star a with
    | true =>
      obtain ⟨rest, suffix, matched⟩ := (matches_star star).mp h
      have taken := later rest suffix matched
      cases text with
      | nil => exact ⟨star, List.suffix_nil.mp suffix ▸ taken⟩
      | cons c text =>
        have other := plain a List.mem_cons_self c List.mem_cons_self star
        exact (takes_other (by simp [other])).mpr ⟨star, rest, suffix, taken⟩
    | false =>
      obtain ⟨c, rest, rfl, spells, matched⟩ := (matches_one star).mp h
      exact (takes_spells spells).mpr (later rest (List.suffix_cons c rest) matched)

/-- Characters that match one by one. -/
inductive Spelled (r : Reading α) : List α → List Char → Prop
  | nil : Spelled r [] []
  | cons {a : α} {c : Char} {block : List α} {text : List Char} :
    r.spells a c = true → Spelled r block text → Spelled r (a :: block) (c :: text)

theorem Spelled.snoc {block : List α} {text : List Char} (h : Spelled r block text) {a : α}
    {c : Char} (spells : r.spells a c = true) : Spelled r (block ++ [a]) (text ++ [c]) := by
  induction h with
  | nil => exact .cons spells .nil
  | cons spells' _ ih => exact .cons spells' ih

/-- The characters between two stars, matched as early as they can be. -/
theorem takes_block {block pattern : List α} {spelt rest text : List Char}
    (h : Spelled r block spelt) (suffix : text <:+ spelt ++ rest)
    (taken : Takes r (block ++ pattern) text) :
    ∃ text', text' <:+ rest ∧ Takes r pattern text' := by
  induction h generalizing text with
  | nil => exact ⟨text, suffix, taken⟩
  | cons spells _ ih =>
    rcases List.suffix_cons_iff.mp suffix with rfl | inside
    · exact ih (List.suffix_refl _) ((takes_spells spells).mp taken)
    · obtain ⟨text', suffix', taken⟩ := takes_rest taken
      exact ih (suffix'.trans inside) taken

/-! ## What the loop keeps -/

/-- A match that begins by going back. -/
def Later (r : Reading α) (back : Option (List α × List Char)) : Prop :=
  ∃ pattern c text rest, back = some (pattern, c :: text) ∧ rest <:+ text ∧ Takes r pattern rest

/-- There is a match yet to be found. -/
def Open (r : Reading α) (s : Scan α) : Prop :=
  Takes r s.pattern s.text ∨ Later r s.back

/-- What the pattern has between its last star and the scan spells what the text has there. -/
def Passed (r : Reading α) (s : Scan α) : Prop :=
  ∀ pattern text, s.back = some (pattern, text) →
    ∃ block spelt, pattern = block ++ s.pattern ∧ text = spelt ++ s.text ∧ Spelled r block spelt

theorem later_iff_retry {s t : Scan α} (h : retry s = .inl t) : Later r s.back ↔ Open r t := by
  unfold retry at h
  split at h
  case h_1 pattern c text back =>
    cases h
    constructor
    · rintro ⟨pattern', c', text', rest, same, suffix, matched⟩
      rw [back] at same
      cases same
      rcases List.suffix_iff_eq_append.mp suffix with eq
      cases front : text.take (text.length - rest.length) with
      | nil =>
        rw [front, List.nil_append] at eq
        exact .inl (eq ▸ matched)
      | cons d front' =>
        rw [front] at eq
        refine .inr ⟨pattern, d, front' ++ rest, rest, ?_, List.suffix_append _ _, matched⟩
        rw [← eq]
        rfl
    · rintro (matched | ⟨pattern', d, text', rest, same, suffix, matched⟩)
      · exact ⟨pattern, c, text, text, back, List.suffix_refl _, matched⟩
      · cases same
        exact ⟨pattern, c, _, rest, back, suffix.trans (List.suffix_cons _ _), matched⟩
  · cases h

theorem passed_retry {s t : Scan α} (h : retry s = .inl t) : Passed r t := by
  unfold retry at h
  split at h
  · cases h
    rintro pattern text ⟨⟩
    exact ⟨[], [], rfl, rfl, .nil⟩
  · cases h

theorem not_later_of_retry {s : Scan α} {answer : Bool} (h : retry s = .inr answer) :
    answer = false ∧ ¬ Later r s.back := by
  unfold retry at h
  split at h
  · cases h
  case h_2 back none =>
    cases h
    refine ⟨rfl, ?_⟩
    rintro ⟨pattern, c, text, rest, same, -⟩
    exact none pattern c text same

theorem rest_of_later {s : Scan α} (passed : Passed r s) (later : Later r s.back) :
    ∃ text, text <:+ s.text ∧ Takes r s.pattern text := by
  obtain ⟨old, c, text, rest, back, suffix, taken⟩ := later
  obtain ⟨block, spelt, rfl, whole, spelled⟩ := passed _ _ back
  refine takes_block spelled ?_ taken
  rw [← whole]
  exact suffix.trans (List.suffix_cons c text)

/-- A round that goes on finds what was to be found. -/
theorem step_inl {s t : Scan α} (passed : Passed r s) (h : step r s = .inl t) :
    (Open r s ↔ Open r t) ∧ Passed r t := by
  unfold step at h
  split at h
  · cases h
  case h_2 c text a pattern textEq patternEq =>
    split at h
    case isTrue spells =>
      cases h
      constructor
      · unfold Open
        rw [textEq, patternEq, takes_spells spells]
      · intro old whole back
        obtain ⟨block, spelt, rfl, rfl, spelled⟩ := passed old whole back
        refine ⟨block ++ [a], spelt ++ [c], ?_, ?_, spelled.snoc spells⟩
        · rw [patternEq, List.append_assoc]
          rfl
        · rw [textEq, List.append_assoc]
          rfl
    case isFalse other =>
      split at h
      case isTrue star =>
        cases h
        constructor
        · have absorbed : Open r s ↔ Takes r s.pattern s.text := by
            refine or_iff_left_of_imp fun later => ?_
            obtain ⟨rest, suffix, taken⟩ := rest_of_later passed later
            rw [patternEq] at taken ⊢
            rw [textEq] at suffix ⊢
            obtain ⟨rest', suffix', taken⟩ := takes_rest taken
            exact (takes_other other).mpr ⟨star, rest', suffix'.trans suffix, taken⟩
          rw [absorbed, patternEq, textEq, takes_other other, and_iff_right star]
          constructor
          · rintro ⟨rest, suffix, taken⟩
            rcases List.suffix_cons_iff.mp suffix with rfl | inside
            · exact .inl taken
            · exact .inr ⟨pattern, c, text, rest, rfl, inside, taken⟩
          · rintro (taken | ⟨pattern', d, text', rest, same, suffix, taken⟩)
            · exact ⟨c :: text, List.suffix_refl _, taken⟩
            · cases same
              exact ⟨rest, suffix.trans (List.suffix_cons _ _), taken⟩
        · rintro old whole ⟨⟩
          exact ⟨[], [], rfl, textEq.symm, .nil⟩
      case isFalse noStar =>
        have not : ¬ Takes r s.pattern s.text := by
          rw [patternEq, textEq, takes_other other]
          exact fun taken => noStar taken.1
        exact ⟨(or_iff_right not).trans (later_iff_retry h), passed_retry h⟩
  case h_3 c text textEq patternEq =>
    have not : ¬ Takes r s.pattern s.text := by
      rw [patternEq, textEq]
      rintro ⟨⟩
    exact ⟨(or_iff_right not).trans (later_iff_retry h), passed_retry h⟩

/-- A round that ends has found it, or it is not there. -/
theorem step_inr {s : Scan α} {answer : Bool} (passed : Passed r s) (h : step r s = .inr answer) :
    answer = true ↔ Open r s := by
  unfold step at h
  split at h
  case h_1 pattern textEq =>
    cases h
    unfold Open
    rw [textEq, takes_nil]
    refine (or_iff_left_of_imp fun later => ?_).symm
    obtain ⟨rest, suffix, taken⟩ := rest_of_later passed later
    rw [textEq] at suffix
    rw [List.suffix_nil.mp suffix, takes_nil] at taken
    exact taken
  case h_2 c text a pattern textEq patternEq =>
    split at h
    · cases h
    case isFalse other =>
      split at h
      · cases h
      case isFalse noStar =>
        obtain ⟨rfl, noLater⟩ := not_later_of_retry h
        have not : ¬ Takes r s.pattern s.text := by
          rw [patternEq, textEq, takes_other other]
          exact fun taken => noStar taken.1
        exact ⟨fun no => (by cases no), fun found => absurd found (not_or.mpr ⟨not, noLater⟩)⟩
  case h_3 c text textEq patternEq =>
    obtain ⟨rfl, noLater⟩ := not_later_of_retry h
    have not : ¬ Takes r s.pattern s.text := by
      rw [patternEq, textEq]
      rintro ⟨⟩
    exact ⟨fun no => (by cases no), fun found => absurd found (not_or.mpr ⟨not, noLater⟩)⟩

/-! ## It ends -/

/-- Both scans are where they can be. -/
structure Within (pattern : List α) (text : List Char) (s : Scan α) : Prop where
  patternIn : s.pattern <:+ pattern
  textIn : s.text <:+ text
  back : ∀ old whole, s.back = some (old, whole) →
    old <:+ pattern ∧ whole <:+ text ∧ s.text.length ≤ whole.length

/-- Where the last star may still begin. -/
def starts (text : List Char) : Option (List α × List Char) → ℕ
  | none => text.length
  | some (_, whole) => whole.length

/-- How much is left to do. -/
def left (pattern : List α) (text : List Char) (s : Scan α) : ℕ :=
  starts text s.back * (text.length + pattern.length + 1) + (s.text.length + s.pattern.length)

variable {pattern : List α} {text : List Char}

theorem within_retry {s t : Scan α} (h : Within pattern text s) (next : retry s = .inl t) :
    Within pattern text t ∧ left pattern text t < left pattern text s := by
  unfold retry at next
  split at next
  case h_1 old c whole back =>
    cases next
    obtain ⟨oldIn, wholeIn, -⟩ := h.back _ _ back
    have wholeIn : whole <:+ text := (List.suffix_cons _ _).trans wholeIn
    refine ⟨⟨oldIn, wholeIn, ?_⟩, ?_⟩
    · rintro _ _ ⟨⟩
      exact ⟨oldIn, wholeIn, le_refl _⟩
    · have le := oldIn.length_le
      have le' := wholeIn.length_le
      unfold left
      rw [back]
      dsimp only [starts]
      rw [List.length_cons, Nat.succ_mul]
      omega
  · cases next

/-- Each round leaves less to do. -/
theorem within_step {s t : Scan α} (h : Within pattern text s) (next : step r s = .inl t) :
    Within pattern text t ∧ left pattern text t < left pattern text s := by
  unfold step at next
  split at next
  · cases next
  case h_2 c rest a more textEq patternEq =>
    have restIn : rest <:+ text := (List.suffix_cons c rest).trans (textEq ▸ h.textIn)
    have moreIn : more <:+ pattern := (List.suffix_cons a more).trans (patternEq ▸ h.patternIn)
    split at next
    · cases next
      refine ⟨⟨moreIn, restIn, fun old whole back => ?_⟩, ?_⟩
      · obtain ⟨oldIn, wholeIn, le⟩ := h.back old whole back
        rw [textEq, List.length_cons] at le
        exact ⟨oldIn, wholeIn, (Nat.le_succ _).trans le⟩
      · unfold left
        dsimp only
        rw [textEq, patternEq, List.length_cons, List.length_cons]
        omega
    · split at next
      · cases next
        have here : c :: rest <:+ text := textEq ▸ h.textIn
        refine ⟨⟨moreIn, h.textIn, ?_⟩, ?_⟩
        · rintro _ _ ⟨⟩
          exact ⟨moreIn, here, by rw [textEq]⟩
        · -- a new star is no further back than the last
          have behind : (c :: rest).length ≤ starts text s.back := by
            cases back : s.back with
            | none => exact here.length_le
            | some both => exact textEq ▸ (h.back both.1 both.2 back).2.2
          have mul := Nat.mul_le_mul_right (text.length + pattern.length + 1) behind
          have star : starts text (some (more, c :: rest)) = (c :: rest).length := rfl
          unfold left
          rw [patternEq, star, List.length_cons (a := a)]
          dsimp only
          omega
      · exact within_retry h next
  case h_3 => exact within_retry h next

/-- The loop comes to an answer. -/
inductive Ends (r : Reading α) : Scan α → Bool → Prop
  | now {s : Scan α} {answer : Bool} : step r s = .inr answer → Ends r s answer
  | later {s t : Scan α} {answer : Bool} : step r s = .inl t → Ends r t answer → Ends r s answer

/-- So that they end. -/
theorem loop_ends {s : Scan α} {fuel : ℕ} (h : Within pattern text s) (passed : Passed r s)
    (enough : left pattern text s < fuel) :
    Ends r s (loop r fuel s) ∧ (loop r fuel s = true ↔ Open r s) := by
  induction fuel generalizing s with
  | zero => omega
  | succ fuel ih =>
    rw [loop]
    cases next : step r s with
    | inr answer => exact ⟨.now next, step_inr passed next⟩
    | inl t =>
      obtain ⟨within, less⟩ := within_step h next
      obtain ⟨same, passed⟩ := step_inl passed next
      obtain ⟨ends, truth⟩ := ih within passed (by omega)
      exact ⟨.later next ends, truth.trans same.symm⟩

theorem greedy_ends (r : Reading α) (pattern : List α) (text : List Char) :
    Ends r { pattern, text, back := none } (greedy r pattern text) ∧
      (greedy r pattern text = true ↔ Takes r pattern text) := by
  have within : Within pattern text { pattern, text, back := none } :=
    ⟨List.suffix_refl _, List.suffix_refl _, fun old whole none => (by cases none)⟩
  have passed : Passed r { pattern, text, back := none } := fun old whole none => (by cases none)
  have enough : left pattern text { pattern, text, back := none } < rounds pattern text := by
    have none : starts text (none : Option (List α × List Char)) = text.length := rfl
    unfold left rounds
    dsimp only
    rw [none, Nat.succ_mul]
    omega
  obtain ⟨ends, truth⟩ := loop_ends within passed enough
  refine ⟨ends, truth.trans (or_iff_left ?_)⟩
  rintro ⟨old, c, whole, rest, none, -⟩
  cases none

/-- **The greedy match is the match**, where no star is a character of the text. -/
theorem greedy_iff (plain : ∀ a ∈ pattern, ∀ c ∈ text, r.star a = true → r.spells a c = false) :
    greedy r pattern text = true ↔ Matches r pattern text :=
  (greedy_ends r pattern text).2.trans ⟨matches_of_takes, takes_of_matches plain⟩

/-! ## Other tokens for the same characters -/

section Map

variable {β : Type} {r' : Reading β} (f : β → α)

/-- The scan of a pattern mapped. -/
def Scan.map (s : Scan β) : Scan α :=
  { pattern := s.pattern.map f
    text := s.text
    back := s.back.map fun b => (b.1.map f, b.2) }

theorem retry_map (s : Scan β) : retry (s.map f) = (retry s).map (Scan.map f) id := by
  obtain ⟨pattern, text, back⟩ := s
  cases back with
  | none => rfl
  | some back =>
    obtain ⟨old, whole⟩ := back
    cases whole <;> rfl

/-- A character means what the one it is mapped to means. -/
def Alike (r' : Reading β) (r : Reading α) (b : β) : Prop :=
  r'.star b = r.star (f b) ∧ ∀ c, r'.spells b c = r.spells (f b) c

theorem step_map {s : Scan β} (alike : ∀ b ∈ s.pattern, Alike f r' r b) :
    step r (s.map f) = (step r' s).map (Scan.map f) id := by
  obtain ⟨pattern, text, back⟩ := s
  cases text with
  | nil =>
    have all : (pattern.map f).all r.star = pattern.all r'.star := by
      rw [List.all_map, Bool.eq_iff_iff, List.all_eq_true, List.all_eq_true]
      refine forall₂_congr fun b mem => ?_
      rw [(alike b mem).1]
      rfl
    show Sum.inr _ = Sum.inr _
    rw [← all]
    rfl
  | cons c text =>
    cases pattern with
    | nil => exact retry_map f _
    | cons b pattern =>
      obtain ⟨star, spells⟩ := alike b List.mem_cons_self
      show (if r.spells (f b) c then _ else if r.star (f b) then _ else _) = _
      rw [← spells c, ← star]
      show _ = Sum.map _ _ (if r'.spells b c then _ else if r'.star b then _ else _)
      split
      · rfl
      · split
        · rfl
        · exact retry_map f _

/-- The scan is of a pattern's characters. -/
def Of (pattern : List β) (s : Scan β) : Prop :=
  s.pattern ⊆ pattern ∧ ∀ old whole, s.back = some (old, whole) → old ⊆ pattern

theorem of_retry {pattern : List β} {s t : Scan β} (h : Of pattern s) (next : retry s = .inl t) :
    Of pattern t := by
  unfold retry at next
  split at next
  case h_1 old c whole back =>
    cases next
    have sub := h.2 _ _ back
    refine ⟨sub, ?_⟩
    rintro _ _ ⟨⟩
    exact sub
  · cases next

theorem of_step {pattern : List β} {s t : Scan β} (h : Of pattern s) (next : step r' s = .inl t) :
    Of pattern t := by
  unfold step at next
  split at next
  · cases next
  case h_2 c rest b more textEq patternEq =>
    have sub : more ⊆ pattern := fun x mem => h.1 (patternEq ▸ List.mem_cons_of_mem _ mem)
    split at next
    · cases next
      exact ⟨sub, h.2⟩
    · split at next
      · cases next
        refine ⟨sub, ?_⟩
        rintro _ _ ⟨⟩
        exact sub
      · exact of_retry h next
  case h_3 => exact of_retry h next

theorem loop_map {pattern : List β} (alike : ∀ b ∈ pattern, Alike f r' r b) {fuel : ℕ}
    {s : Scan β} (h : Of pattern s) : loop r fuel (s.map f) = loop r' fuel s := by
  induction fuel generalizing s with
  | zero => rfl
  | succ fuel ih =>
    rw [loop, loop, step_map f fun b mem => alike b (h.1 mem)]
    cases next : step r' s with
    | inr answer => rfl
    | inl t => exact ih (of_step h next)

/-- A pattern matches as the one it is mapped to does. -/
theorem greedy_map {pattern : List β} (alike : ∀ b ∈ pattern, Alike f r' r b) (text : List Char) :
    greedy r (pattern.map f) text = greedy r' pattern text := by
  have of : Of pattern { pattern, text, back := none } :=
    ⟨List.Subset.refl _, fun old whole none => (by cases none)⟩
  unfold greedy rounds
  rw [List.length_map]
  exact loop_map f alike of

end Map

end Velosearch.Greedy

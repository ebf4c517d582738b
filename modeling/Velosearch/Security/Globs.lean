import Velosearch.Security.Substitute

/-!
# What a permission glob stands for

`glob_matches` is compared with what a glob says: a split of the text in which a star stands for
some run of characters. Where a star of the pattern meets a star of the text, the code takes the
two for the same character.
-/

set_option autoImplicit false

namespace Velosearch
namespace Security
namespace Globs

/-- The text split as the pattern says, where each star stands for a run that fits before what is
left. -/
inductive Split (fits : Text → Text → Prop) : Text → Text → Prop
  | done : Split fits [] []
  | star {pattern rest : Text} (run : Text) :
    fits run rest → Split fits pattern rest → Split fits ('*' :: pattern) (run ++ rest)
  | any {pattern rest : Text} {c : Char} :
    Split fits pattern rest → Split fits ('?' :: pattern) (c :: rest)
  | self {pattern rest : Text} {c : Char} :
    c ≠ '*' → c ≠ '?' → Split fits pattern rest → Split fits (c :: pattern) (c :: rest)

def Run (_ _ : Text) : Prop := True

/-- A star is not followed by another. -/
def Alone (run rest : Text) : Prop :=
  (run ++ rest).head? = some '*' → run = ['*']

theorem spells_iff {a c : Char} : globReading.spells a c = true ↔ a = '?' ∨ a = c := by
  simp [globReading]

theorem star_iff {a : Char} : globReading.star a = true ↔ a = '*' := by
  simp [globReading]

theorem split_iff_takes {pattern text : Text} :
    Split Alone pattern text ↔ Greedy.Takes globReading pattern text := by
  constructor
  · intro h
    induction h with
    | done => rfl
    | @star pattern rest run alone _ ih =>
      have star : globReading.star '*' = true := rfl
      cases front : run ++ rest with
      | nil => exact ⟨star, (List.append_eq_nil_iff.mp front).2 ▸ ih⟩
      | cons c text =>
        by_cases spells : globReading.spells '*' c = true
        · -- the run is the star at hand
          obtain rfl : '*' = c := (spells_iff.mp spells).resolve_left (by decide)
          rw [alone (by rw [front]; rfl)] at front
          cases front
          exact (Greedy.takes_spells spells).mpr ih
        · exact (Greedy.takes_other spells).mpr ⟨star, rest, ⟨run, front⟩, ih⟩
    | any _ ih => exact (Greedy.takes_spells (spells_iff.mpr (.inl rfl))).mpr ih
    | self _ _ _ ih => exact (Greedy.takes_spells (spells_iff.mpr (.inr rfl))).mpr ih
  · intro h
    induction pattern generalizing text with
    | nil =>
      obtain rfl : text = [] := h
      exact .done
    | cons a pattern ih =>
      cases text with
      | nil =>
        have alone : Alone [] [] := fun none => by cases none
        exact star_iff.mp h.1 ▸ Split.star [] alone (ih h.2)
      | cons c text =>
        by_cases spells : globReading.spells a c = true
        · have more := ih ((Greedy.takes_spells spells).mp h)
          rcases spells_iff.mp spells with rfl | rfl
          · exact .any more
          · by_cases star : a = '*'
            · subst star
              exact .star ['*'] (fun _ => rfl) more
            · by_cases any : a = '?'
              · exact any ▸ .any more
              · exact .self star any more
        · obtain ⟨star, rest, ⟨run, eq⟩, taken⟩ := (Greedy.takes_other spells).mp h
          obtain rfl := star_iff.mp star
          have alone : Alone run rest := fun head => by
            rw [eq] at head
            cases head
            exact absurd (spells_iff.mpr (.inr rfl)) spells
          exact eq ▸ .star run alone (ih taken)

theorem Split.mono {fits fits' : Text → Text → Prop}
    (weaker : ∀ run rest, fits run rest → fits' run rest) {pattern text : Text}
    (h : Split fits pattern text) : Split fits' pattern text := by
  induction h with
  | done => exact .done
  | star run fit _ ih => exact .star run (weaker _ _ fit) ih
  | any _ ih => exact .any ih
  | self noStar noAny _ ih => exact .self noStar noAny ih

/-- **A glob means what it says** of a text exactly when the text, if it can be split at all, can
be split so that a star of the pattern that meets a star of the text stands for just that one. -/
theorem globMatches_meaning_iff (pattern text : Text) :
    (Greedy.Ends globReading { pattern, text, back := none } (globMatches pattern text) ∧
      (globMatches pattern text = true ↔ Split Run pattern text)) ↔
      (Split Run pattern text → Split Alone pattern text) := by
  have found : globMatches pattern text = true ↔ Split Alone pattern text :=
    (Greedy.greedy_ends globReading pattern text).2.trans split_iff_takes.symm
  rw [found]
  refine (and_iff_right (Greedy.greedy_ends globReading pattern text).1).trans ?_
  exact ⟨Iff.mpr, fun enough => ⟨Split.mono fun _ _ _ => trivial, enough⟩⟩

/-- A star before a letter, and a text that begins with a star: the run `*a` would do. -/
theorem starred_text_refused :
    globMatches "*b".toList "*ab".toList = false ∧ Split Run "*b".toList "*ab".toList :=
  ⟨by decide, .star ['*', 'a'] trivial (.self (by decide) (by decide) .done)⟩

end Globs
end Security
end Velosearch

import Velosearch.Query.Conjunctions
import Mathlib.Tactic.Ring

/-!
# Words one right after another

The iterator tries each position of the first word. No walk is moved past a place that a phrase
from there, or from a later position, could need.
-/

set_option autoImplicit false

namespace Velosearch.Query

/-- A position of each of `n` words within the stretch, each right after the one before. -/
def Adjacent (n : Nat) (L : Nat → Places) (s e : Int) : Prop :=
  ∃ q : Nat → Int,
    (∀ k, k < n → q k ∈ (L k).items ∧ s ≤ q k ∧ q k ≤ e) ∧ ∀ k, k + 1 < n → q (k + 1) = q k + 1

/-- The words stand one after another from `s` on. -/
def Phrase (n : Nat) (L : Nat → Places) (s : Int) : Prop := ∀ k : Nat, k < n → s + k ∈ (L k).items

variable {n : Nat} {L : Nat → Places}

/-- Parts that follow each other, by where they begin. -/
theorem adjacent_eq {q : Nat → Int} (order : ∀ k, k + 1 < n → q (k + 1) = q k + 1) {k : Nat}
    (inside : k < n) : q k = q 0 + k := by
  induction k with
  | zero => simp
  | succ k ih =>
    rw [order k inside, ih (by omega)]
    push_cast
    ring

theorem adjacent_phrase {s : Int} (phrase : Phrase n L s) : Adjacent n L s (s + (n - 1 : Nat)) := by
  refine ⟨fun k => s + k, fun k inside => ⟨phrase k inside, ?_, ?_⟩, fun k _ => ?_⟩
  · dsimp only
    omega
  · dsimp only
    omega
  · push_cast
    ring

/-- **The shortest stretches** are those from the start of a phrase to its end. -/
theorem tight_adjacent {x : Interval} (some : 1 ≤ n) :
    Tight (Adjacent n L) x ↔ Phrase n L x.start ∧ x.end = x.start + (n - 1 : Nat) := by
  constructor
  · intro ⟨⟨q, there, order⟩, least⟩
    have phrase : Phrase n L (q 0) := fun k inside => adjacent_eq order inside ▸ (there k inside).1
    have last := there (n - 1) (by omega)
    rw [adjacent_eq order (show n - 1 < n by omega)] at last
    have same := least _ _ (there 0 some).2.1 last.2.2 (adjacent_phrase phrase)
    rw [← same.1, same.2]
    exact ⟨phrase, rfl⟩
  · intro ⟨phrase, end_⟩
    refine ⟨end_ ▸ adjacent_phrase phrase, ?_⟩
    intro s e after before ⟨q, there, order⟩
    have first := there 0 some
    have last := there (n - 1) (by omega)
    rw [adjacent_eq order (show n - 1 < n by omega)] at last
    omega

namespace BlockIt

variable {p : Nat → Int} {subs : Subs} {s m : Int} {i fuel : Nat} {it : BlockIt}

/-- Where the walks of the later words stand: on a position or before the first, and none past a
place that a phrase after `m` could need. -/
structure Behind (n : Nat) (L : Nat → Places) (m : Int) (p : Nat → Int) : Prop where
  placed : ∀ k, 1 ≤ k → k < n → p k ∈ (L k).items ∨ p k = -1
  short : ∀ k : Nat, 1 ≤ k → k < n → ∀ x ∈ (L k).items, m + k < x → p k ≤ x

theorem Behind.later {t : Int} (behind : Behind n L m p) (le : m ≤ t) : Behind n L t p where
  placed := behind.placed
  short := fun k some inside x there after => behind.short k some inside x there (by omega)

theorem Behind.update_zero (behind : Behind n L m p) (y : Int) :
    Behind n L m (Function.update p 0 y) where
  placed := by
    intro k some inside
    rw [Function.update_of_ne (by omega)]
    exact behind.placed k some inside
  short := by
    intro k some inside
    rw [Function.update_of_ne (by omega)]
    exact behind.short k some inside

/-- **A part moved past the one before it** stands at the first place after it. -/
theorem follow_spec (stands : Stands n L p subs) (inside : i + 1 < n) (before : 0 ≤ p i)
    (placed : p (i + 1) ∈ (L (i + 1)).items ∨ p (i + 1) = -1)
    (short : ∀ x ∈ (L (i + 1)).items, p i < x → p (i + 1) ≤ x)
    (enough : ((L (i + 1)).later (p (i + 1))).length < fuel) :
    ((follow (i + 1) fuel subs).1 = true ∧ ∀ x ∈ (L (i + 1)).items, ¬ p i < x) ∨
      ((follow (i + 1) fuel subs).1 = false ∧ ∃ y,
        Stands n L (Function.update p (i + 1) y) (follow (i + 1) fuel subs).2 ∧
          y ∈ (L (i + 1)).items ∧ p i < y ∧ ∀ x ∈ (L (i + 1)).items, p i < x → y ≤ x) := by
  induction fuel generalizing p subs with
  | zero => omega
  | succ fuel ih =>
    have moved := stands.step inside
    rw [follow, stands.start inside, Nat.add_sub_cancel, stands.end_ (by omega)]
    by_cases behind : p (i + 1) ≤ p i
    · rw [if_pos behind]
      dsimp only
      rw [moved.1]
      by_cases out : (L (i + 1)).after (p (i + 1)) = NO_MORE
      · rw [if_pos out]
        refine .inl ⟨rfl, fun x there after => ?_⟩
        have le := (L (i + 1)).after_le there (lt_of_le_of_lt behind after)
        have range := ((L (i + 1)).inside x there).2
        omega
      · rw [if_neg out]
        have size := (L (i + 1)).later_after out
        have here : Function.update p (i + 1) ((L (i + 1)).after (p (i + 1))) (i + 1) =
          (L (i + 1)).after (p (i + 1)) := Function.update_self ..
        have kept : Function.update p (i + 1) ((L (i + 1)).after (p (i + 1))) i = p i :=
          Function.update_of_ne (by omega) ..
        have later := ih moved.2 (by rw [kept]; exact before)
          (by rw [here]; exact .inl ((L (i + 1)).after_mem out))
          (by
            rw [here, kept]
            exact fun x there after => (L (i + 1)).after_le there (lt_of_le_of_lt behind after))
          (by rw [here]; omega)
        rw [kept] at later
        simpa only [Function.update_idem] using later
    · rw [if_neg behind]
      refine .inr ⟨rfl, p (i + 1), ?_, ?_, not_le.mp behind, short⟩
      · rw [Function.update_eq_self]
        exact stands
      · cases placed with
        | inl there => exact there
        | inr unset => omega

/-- **The loop over the parts**: it comes to the first phrase from `s` on, or there is none. -/
theorem line_spec (stands : Stands n L p subs) (inside : i < n) (first : p 0 ∈ (L 0).items)
    (lined : ∀ k : Nat, k ≤ i → p k = p 0 + k) (behind : Behind n L (p 0 - 1) p)
    (enough : ((L 0).later (p 0)).length * n + (n - (i + 1)) < fuel) :
    ((line fuel subs (i + 1)).1 = true ∧ ∀ t, p 0 ≤ t → ¬ Phrase n L t) ∨
      ((line fuel subs (i + 1)).1 = false ∧ ∃ p', Stands n L p' (line fuel subs (i + 1)).2 ∧
        p 0 ≤ p' 0 ∧ Phrase n L (p' 0) ∧ (∀ t, p 0 ≤ t → Phrase n L t → p' 0 ≤ t) ∧
        p' (n - 1) = p' 0 + (n - 1 : Nat) ∧ Behind n L (p' 0) p') := by
  induction fuel generalizing p subs i with
  | zero => omega
  | succ fuel ih =>
    rw [line, stands.size]
    have range := (L 0).inside _ first
    by_cases more : i + 1 < n
    · rw [if_pos more]
      dsimp only
      have here := lined i (Nat.le_refl i)
      have followed := follow_spec stands more (by omega)
        (behind.placed (i + 1) (by omega) more)
        (fun x there after => behind.short (i + 1) (by omega) more x there (by push_cast; omega))
        (Nat.lt_succ_self _)
      rw [← stands.left more] at followed
      rcases followed with ⟨yes, none⟩ | ⟨no, y, stands', there, after, least⟩
      · rw [if_pos yes]
        refine .inl ⟨rfl, fun t le phrase => none _ (phrase (i + 1) more) ?_⟩
        push_cast
        omega
      · rw [if_neg (by rw [no]; simp)]
        obtain ⟨p', moved, others, stands'⟩ : ∃ p', p' (i + 1) = y ∧
            (∀ k, k ≠ i + 1 → p' k = p k) ∧
            Stands n L p' (follow (i + 1) (left subs (i + 1) + 1) subs).2 :=
          ⟨_, Function.update_self .., fun k other => Function.update_of_ne other .., stands'⟩
        have zero : p' 0 = p 0 := others 0 (by omega)
        have behind' : Behind n L (p 0 - 1) p' := by
          refine ⟨fun k some within => ?_, fun k some within x held past => ?_⟩
          · by_cases same : k = i + 1
            · rw [same, moved]
              exact .inl there
            · rw [others k same]
              exact behind.placed k some within
          · by_cases same : k = i + 1
            · subst same
              rw [moved]
              exact least x held (by push_cast at past; omega)
            · rw [others k same]
              exact behind.short k some within x held past
        have wrapped : wrap (p' i + 1) = p i + 1 := by
          have inside_ := ((L (i + 1)).inside y there).2
          rw [others i (by omega), wrap_eq (by omega) (by rw [NO_MORE] at inside_; omega)]
        rw [stands'.start more, Nat.add_sub_cancel, stands'.end_ (by omega), wrapped, moved]
        by_cases next : y = p i + 1
        · rw [if_pos next]
          have later := ih stands' more (zero ▸ first) ?_ (zero ▸ behind') ?_
          · rw [zero] at later
            exact later
          · intro k le
            rw [zero]
            by_cases same : k = i + 1
            · rw [same, moved, next, here]
              push_cast
              ring
            · rw [others k same]
              exact lined k (by omega)
          · rw [zero]
            omega
        · rw [if_neg next]
          have gap : ¬ Phrase n L (p 0) := by
            intro phrase
            have le := least _ (phrase (i + 1) more) (by push_cast; omega)
            push_cast at le
            omega
          have beyond : ∀ t, p 0 ≤ t → Phrase n L t → (L 0).after (p 0) ≤ t := by
            intro t le phrase
            have start : t ∈ (L 0).items := by simpa using phrase 0 (by omega)
            refine (L 0).after_le start (lt_of_le_of_ne le fun same => ?_)
            exact gap (same ▸ phrase)
          have stepped := stands'.step (show 0 < n by omega)
          rw [stepped.1, zero]
          by_cases out : (L 0).after (p 0) = NO_MORE
          · rw [if_pos out]
            refine .inl ⟨rfl, fun t le phrase => ?_⟩
            have start : t ∈ (L 0).items := by simpa using phrase 0 (by omega)
            have range := (L 0).inside t start
            have le := beyond t le phrase
            omega
          · rw [if_neg out]
            have size := (L 0).later_after out
            have rises := (L 0).lt_after (range.2)
            obtain ⟨p'', here', stepped⟩ : ∃ p'', p'' 0 = (L 0).after (p 0) ∧
                Behind n L (p 0 - 1) p'' ∧ Stands n L p''
                  (step (follow (i + 1) (left subs (i + 1) + 1) subs).2 0).2 :=
              ⟨_, by rw [Function.update_self, zero], behind'.update_zero _, stepped.2⟩
            rw [← here'] at size beyond rises
            have start := (L 0).after_mem out
            rw [← here'] at start
            rcases ih stepped.2 (i := 0) (by omega) start
              (fun k le => by simp [Nat.le_zero.mp le]) (stepped.1.later (by omega))
              (by rw [size, Nat.succ_mul] at enough; omega) with ⟨yes, none⟩ | ⟨no, q, found⟩
            · exact .inl ⟨yes, fun t le phrase => none t (beyond t le phrase) phrase⟩
            · exact .inr ⟨no, q, found.1, le_trans (le_of_lt rises) found.2.1, found.2.2.1,
                fun t le phrase => found.2.2.2.1 t (beyond t le phrase) phrase, found.2.2.2.2⟩
    · rw [if_neg more]
      have last : i = n - 1 := by omega
      refine .inr ⟨rfl, p, stands, le_refl _, fun k within => ?_, fun t le _ => le, ?_, ?_⟩
      · have here := lined k (by omega)
        by_cases zero : k = 0
        · rw [zero]
          simpa using first
        · rw [← here]
          cases behind.placed k (by omega) within with
          | inl there => exact there
          | inr unset => omega
      · rw [← last]
        exact lined i (Nat.le_refl i)
      · exact behind.later (by omega)

def Between (n : Nat) (L : Nat → Places) (m : Int) (it : BlockIt) : Prop :=
  ∃ p, Stands n L p it.subs ∧ p 0 = m ∧ Behind n L m p

/-- **A call** returns the first phrase after the last one, if there is one. -/
theorem next_between (some : 1 ≤ n) (before : m < NO_MORE) (between : Between n L m it) :
    ((nextInterval it).1 = NO_MORE ∧ ∀ t, m < t → ¬ Phrase n L t) ∨
      ∃ t, nextInterval it = (t, (nextInterval it).2) ∧ m < t ∧ Phrase n L t ∧
        (∀ t', m < t' → Phrase n L t' → t ≤ t') ∧ (nextInterval it).2.start = t ∧
        (nextInterval it).2.end = t + (n - 1 : Nat) ∧ Between n L t (nextInterval it).2 := by
  obtain ⟨p, stands, at_, behind⟩ := between
  have moved := stands.step some
  have starts : ∀ t, m < t → Phrase n L t → (L 0).after m ≤ t := by
    intro t after phrase
    exact (L 0).after_le (by simpa using phrase 0 some) after
  rw [at_] at moved
  rw [nextInterval]
  dsimp only
  rw [moved.1]
  by_cases out : (L 0).after m = NO_MORE
  · rw [if_pos out]
    refine .inl ⟨rfl, fun t after phrase => ?_⟩
    have range := (L 0).inside t (by simpa using phrase 0 some)
    have le := starts t after phrase
    omega
  · rw [if_neg out]
    have start := (L 0).after_mem out
    have rises := (L 0).lt_after before
    obtain ⟨p', here, behind', stands'⟩ : ∃ p', p' 0 = (L 0).after m ∧ Behind n L m p' ∧
        Stands n L p' (step it.subs 0).2 :=
      ⟨_, Function.update_self .., behind.update_zero _, moved.2⟩
    have lined := line_spec stands' some (here ▸ start) (fun k le => by simp [Nat.le_zero.mp le])
      (behind'.later (by omega))
      (show ((L 0).later (p' 0)).length * n + (n - (0 + 1)) <
        (left (step it.subs 0).2 0 + 1) * (step it.subs 0).2.length + 1 by
          rw [stands'.left some, stands'.size, Nat.succ_mul]
          omega)
    rw [here] at lined
    rcases lined with ⟨yes, none⟩ | ⟨no, q, walked, le, phrase, least, last, behind''⟩
    · rw [if_pos yes]
      exact .inl ⟨rfl, fun t after phrase => none t (starts t after phrase) phrase⟩
    · rw [if_neg (by rw [no]; simp)]
      have first := walked.start some
      have end_ := walked.end_ (show n - 1 < n by omega)
      refine .inr ⟨q 0, ?_, by omega, phrase, ?_, first, ?_, q, walked, rfl, behind''⟩
      · rw [← first]
      · exact fun t after phrase => least t (starts t after phrase) phrase
      · dsimp only
        rw [walked.size, end_, last]

/-- The phrases are found, by induction on the places left. -/
theorem enumerates (some : 1 ≤ n) (before : m < NO_MORE) (between : Between n L m it) :
    Enumerates (Adjacent n L) m it := by
  obtain ⟨gap, bound⟩ : ∃ gap, (NO_MORE - m).toNat = gap := ⟨_, rfl⟩
  induction gap using Nat.strongRecOn generalizing m it with
  | ind gap ih =>
    rcases next_between some before between with ⟨ended, none⟩ |
      ⟨t, next, after, phrase, least, start, end_, between'⟩
    · exact .done ended fun x tight after => none _ after ((tight_adjacent some).mp tight).1
    · have range := (L 0).inside t (by simpa using phrase 0 some)
      refine .more ⟨t, t + (n - 1 : Nat)⟩ (nextInterval it).2 next (ne_of_lt range.2) start end_
        ((tight_adjacent some).mpr ⟨phrase, rfl⟩) after ?_ (ih _ ?_ range.2 between' rfl)
      · intro y tight later
        have parts := (tight_adjacent some).mp tight
        have le := least y.start later parts.1
        by_cases same : t < y.start
        · exact .inr same
        · left
          cases y with
          | mk s e =>
            have here : s = t := le_antisymm (not_lt.mp same) le
            have there : e = s + (n - 1 : Nat) := parts.2
            rw [there, here]
      · dsimp only
        omega

theorem iterator_between (first : Places) (others : List Places) :
    Between (first :: others).length ((first :: others).getD · default) (-1)
      (iterator ((first :: others).map Places.items)) := by
  refine ⟨_, Stands.iterators (first :: others), rfl, fun k _ _ => .inr rfl, ?_⟩
  intro k _ _ x there _
  have range := ((first :: others).getD k default).inside x there
  omega

end BlockIt

end Velosearch.Query

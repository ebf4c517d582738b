import Mathlib.Data.Prod.Lex
import Mathlib.Data.Set.Finite.Lemmas
import Mathlib.Logic.Relation
import Mathlib.Order.WellFounded
import Velosearch.Lib.Majority

/-!
# Succession: elected leaders over a changing electorate

The mathematics of a leader-based register whose electorate is part of what it
stores. A *state* carries a rank — a term and a version, ordered
lexicographically — and two configurations: the one it replaces (`oldConfig`)
and the one it brings in (`newConfig`). Leaders are elected per term over a
*base*, a state they have accepted or the beginning (`none`); they publish
states built on that base; a state that majorities of both its configurations
have accepted is committed; and only a committed state may be built on with
another `oldConfig`.

A `Record` is everything that ever happened, as sets that only grow. Nothing in
it is a step or a moment: the order of events enters once, in
`Lawful.elected`, which says that whoever voted for a leader had accepted
nothing of a lower term above that leader's base. Two theorems follow, by one
induction on terms, for every `Record` that is `Lawful` below a bound:

* `Lawful.leader_unique` — a term has at most one leader;
* `Lawful.base_above` — a leader's base descends from every state committed in
  a lower term.

The induction carries both, since each needs the other below: descent is what
gives two rival bases a configuration in common, and uniqueness is what makes
the states of one term a chain.
-/

set_option autoImplicit false

namespace Velosearch.Lib

/-- A history of states, each made over another. -/
structure Record (N S : Type) where
  term : S → ℕ
  version : S → ℕ
  oldConfig : S → List N
  newConfig : S → List N
  owner : S → N
  firstConfig : List N
  Published : S → Prop
  BuiltOn : S → Option S → Prop
  Committed : S → Prop
  Accepted : N → S → Prop
  Voted : N → ℕ → N → Prop
  Elected : N → ℕ → Option S → Prop

namespace Record

variable {N S : Type} (R : Record N S)

/-- The term of a state, or of the first. -/
def termOf (b : Option S) : ℕ := b.elim 0 R.term

/-- The configuration in force. -/
def oldOf (b : Option S) : List N := b.elim R.firstConfig R.oldConfig

/-- The configuration that is to be. -/
def newOf (b : Option S) : List N := b.elim R.firstConfig R.newConfig

/-- The order of publication. -/
def rank (b : Option S) : ℕ ×ₗ ℕ := toLex (b.elim (0, 0) fun s => (R.term s, R.version s))

/-- `b` lies on the way back from `x` to the beginning, or is `x`. -/
def Below : Option S → Option S → Prop :=
  Relation.ReflTransGen fun b x => ∃ s, x = some s ∧ R.BuiltOn s b

/-- How the configurations of a state follow from those of what it is built on:
they stay, or the base is committed and its new one is the state's old one. -/
def ConfigStep (s : S) (b : Option S) : Prop :=
  (R.oldConfig s = R.oldOf b ∧ R.newConfig s = R.newOf b) ∨
    (∃ s', b = some s' ∧ R.Committed s') ∧ R.oldConfig s = R.newOf b

/-- The rules the events of terms below `bound` keep. -/
structure Lawful (bound : ℕ) : Prop where
  voted_once : ∀ {n t m m'}, t < bound → R.Voted n t m → R.Voted n t m' → m = m'
  elected : ∀ {m t b}, t < bound → R.Elected m t b → ∃ V : Set N,
    (∀ n ∈ V, R.Voted n t m ∧
      ∀ s, R.Accepted n s → R.term s < t → R.rank (some s) ≤ R.rank b) ∧
    Lib.Majority (R.newOf b) V ∧
    (Lib.Majority (R.oldOf b) V ∨ ∃ s, b = some s ∧ R.Committed s)
  base : ∀ {m t b}, t < bound → R.Elected m t b →
    (∀ s, b = some s → R.Published s) ∧
    (R.termOf b < t ∨ ∃ s, b = some s ∧ R.term s = t ∧ R.owner s = m)
  built : ∀ {s}, R.Published s → R.term s < bound → ∃ b, R.BuiltOn s b
  step : ∀ {s b}, R.BuiltOn s b → R.term s < bound →
    R.rank b < R.rank (some s) ∧ R.ConfigStep s b ∧
    (R.Elected (R.owner s) (R.term s) b ∨
      ∃ s', b = some s' ∧ R.Published s' ∧ R.term s' = R.term s ∧ R.owner s' = R.owner s)
  chain : ∀ {s s' b}, R.Published s → R.Published s' → R.term s < bound →
    R.owner s = R.owner s' → R.term s = R.term s' → R.version s < R.version s' →
    R.BuiltOn s' b → R.rank (some s) ≤ R.rank b
  unique : ∀ {s s'}, R.Published s → R.Published s' → R.term s < bound →
    R.owner s = R.owner s' → R.term s = R.term s' → R.version s = R.version s' → s = s'
  committed : ∀ {s}, R.Committed s → R.term s < bound → R.Published s ∧
    Lib.Majority (R.oldConfig s) {n | R.Accepted n s} ∧
    Lib.Majority (R.newConfig s) {n | R.Accepted n s}
  finite : {s | R.Committed s}.Finite

variable {R}

/-! ## Ranks -/

theorem rank_some (s : S) : R.rank (some s) = toLex (R.term s, R.version s) := rfl

theorem rank_none_le (b : Option S) : R.rank none ≤ R.rank b := by
  unfold rank
  rw [Prod.Lex.toLex_le_toLex]
  rcases Nat.eq_zero_or_pos (b.elim (0, 0) fun s => (R.term s, R.version s)).1 with h | h
  · exact Or.inr ⟨h.symm, Nat.zero_le _⟩
  · exact Or.inl h

theorem termOf_le_of_rank_le {a b : Option S} (h : R.rank a ≤ R.rank b) :
    R.termOf a ≤ R.termOf b := by
  unfold rank at h
  rw [Prod.Lex.toLex_le_toLex] at h
  cases a <;> cases b <;> simp only [termOf, Option.elim] at h ⊢ <;> omega

theorem version_le_of_rank_le {a b : S} (ht : R.term a = R.term b)
    (h : R.rank (some a) ≤ R.rank (some b)) : R.version a ≤ R.version b := by
  rw [rank_some, rank_some, Prod.Lex.toLex_le_toLex] at h
  simp only at h
  omega

theorem Below.step {b : Option S} {s : S} (h : R.BuiltOn s b) : R.Below b (some s) :=
  Relation.ReflTransGen.single ⟨s, rfl, h⟩

namespace Lawful

variable {bound : ℕ} (hR : R.Lawful bound)

include hR

/-! ## Walking back

Every published state of a term below the bound is reached from the base of an
election of that term, and everything from the beginning. Both are inductions on
the rank, since what a state is built on is ranked below it. -/

theorem built_published {s : S} {b : Option S} (hb : R.BuiltOn s b)
    (ht : R.term s < bound) :
    (∀ s', b = some s' → R.Published s') ∧ R.termOf b ≤ R.term s := by
  obtain ⟨hlt, _, hor⟩ := hR.step hb ht
  refine ⟨?_, termOf_le_of_rank_le (b := some s) hlt.le⟩
  rcases hor with hel | ⟨s', rfl, hp, _, _⟩
  · exact (hR.base ht hel).1
  · intro s'' h
    cases h
    exact hp

theorem none_below {x : Option S} (hx : ∀ s, x = some s → R.Published s)
    (ht : R.termOf x < bound) : R.Below none x := by
  induction hr : R.rank x using WellFoundedLT.induction generalizing x with
  | ind r ih =>
    subst hr
    cases x with
    | none => exact Relation.ReflTransGen.refl
    | some s =>
      obtain ⟨b, hb⟩ := hR.built (hx s rfl) ht
      obtain ⟨hpub, hle⟩ := hR.built_published hb ht
      exact (ih _ (hR.step hb ht).1 hpub (Nat.lt_of_le_of_lt hle ht) rfl).trans
        (Below.step hb)

/-- A published state was made over one its owner was elected with. -/
theorem elected_below {s : S} (hs : R.Published s) (ht : R.term s < bound) :
    ∃ b, R.Elected (R.owner s) (R.term s) b ∧ R.termOf b < R.term s ∧
      R.Below b (some s) := by
  induction hr : R.rank (some s) using WellFoundedLT.induction generalizing s with
  | ind r ih =>
    subst hr
    obtain ⟨b, hb⟩ := hR.built hs ht
    obtain ⟨hlt, _, hor⟩ := hR.step hb ht
    -- both ways of staying inside the term go on from a state of the same owner
    have stay : ∀ s', b = some s' → R.Published s' → R.term s' = R.term s →
        R.owner s' = R.owner s →
        ∃ b, R.Elected (R.owner s) (R.term s) b ∧ R.termOf b < R.term s ∧
          R.Below b (some s) := by
      rintro s' rfl hp htm how
      obtain ⟨b₀, hel, hb₀, hbel⟩ := ih _ hlt hp (htm ▸ ht) rfl
      exact ⟨b₀, htm ▸ how ▸ hel, htm ▸ hb₀, hbel.trans (Below.step hb)⟩
    rcases hor with hel | ⟨s', hs', hp, htm, how⟩
    · obtain ⟨hpub, hbase⟩ := hR.base ht hel
      rcases hbase with hlow | ⟨s', hs', htm, how⟩
      · exact ⟨b, hel, hlow, Below.step hb⟩
      · exact stay s' hs' (hpub s' hs') htm how
    · exact stay s' hs' hp htm how

theorem elected_over_older {m : N} {t : ℕ} {b : Option S} (ht : t < bound)
    (h : R.Elected m t b) :
    ∃ b₀, R.Elected m t b₀ ∧ R.termOf b₀ < t ∧ R.Below b₀ b := by
  obtain ⟨hpub, hbase⟩ := hR.base ht h
  rcases hbase with hlow | ⟨s, rfl, htm, how⟩
  · exact ⟨b, h, hlow, Relation.ReflTransGen.refl⟩
  · obtain ⟨b₀, hel, hlt, hbel⟩ := hR.elected_below (hpub s rfl) (htm ▸ ht)
    exact ⟨b₀, htm ▸ how ▸ hel, htm ▸ hlt, hbel⟩

theorem below_rank {f x : Option S} (hfx : R.Below f x) (ht : R.termOf x < bound) :
    f = x ∨ R.rank f < R.rank x := by
  induction hfx with
  | refl => exact Or.inl rfl
  | tail _ hby ih =>
    obtain ⟨s, rfl, hb⟩ := hby
    have hlt := (hR.step hb ht).1
    have hbt := Nat.lt_of_le_of_lt (hR.built_published hb ht).2 ht
    rcases ih hbt with rfl | hf
    · exact Or.inr hlt
    · exact Or.inr (hf.trans hlt)

/-! ## A configuration in common

Between a committed state and the next one above it nothing may change the
configurations but the first step, and that step keeps the committed state's
`newConfig`. -/

theorem newConfig_kept {f x : Option S} (hfx : R.Below f x)
    (hterm : R.termOf x < bound)
    (hno : ∀ c, R.Committed c → R.rank f < R.rank (some c) →
      R.rank (some c) < R.rank x → False) :
    f = x ∨ R.newOf f = R.oldOf x ∨ R.newOf f = R.newOf x := by
  induction hfx with
  | refl => exact Or.inl rfl
  | @tail b y hfb hby ih =>
    obtain ⟨s, rfl, hb⟩ := hby
    obtain ⟨hlt, hcfg, _⟩ := hR.step hb hterm
    have hbt : R.termOf b < bound :=
      Nat.lt_of_le_of_lt (hR.built_published hb hterm).2 hterm
    refine Or.inr ?_
    rcases ih hbt fun c hc hl hu => hno c hc hl (hu.trans hlt) with rfl | hkeep
    · -- the first step above `f`
      rcases hcfg with ⟨_, hnew⟩ | ⟨_, hold⟩
      · exact Or.inr hnew.symm
      · exact Or.inl hold.symm
    · -- further up, where nothing built on is committed unless it is `f`
      rcases hcfg with ⟨hold, hnew⟩ | ⟨⟨s', rfl, hc⟩, hold⟩
      · exact hkeep.imp (·.trans hold.symm) (·.trans hnew.symm)
      · rcases hR.below_rank hfb hbt with rfl | hl
        · exact Or.inl hold.symm
        · exact (hno s' hc hl hlt).elim

/-! ## The induction on terms -/

/-- Every leader of term `t` has a base above what was committed before. -/
def Above (R : Record N S) (t : ℕ) : Prop :=
  ∀ m b, R.Elected m t b → ∀ p, R.Committed p → R.term p < t → R.Below (some p) b

/-- Term `t` has one leader. -/
def Sole (R : Record N S) (t : ℕ) : Prop :=
  ∀ m m' b b', R.Elected m t b → R.Elected m' t b' → m = m'

omit hR in
theorem published_rank_pos {s : S} (hR : R.Lawful bound) (hs : R.Published s)
    (ht : R.term s < bound) : R.rank none < R.rank (some s) := by
  obtain ⟨b, hb⟩ := hR.built hs ht
  exact lt_of_le_of_lt (rank_none_le b) (hR.step hb ht).1

/-- What was committed is below whatever a later term publishes. -/
theorem committed_below_of_term_lt {p s : S} (hp : R.Committed p) (hs : R.Published s)
    (hps : R.term p < R.term s) (hab : Above R (R.term s)) (ht : R.term s < bound) :
    R.Below (some p) (some s) := by
  obtain ⟨b, hel, _, hbel⟩ := hR.elected_below hs ht
  exact (hab _ _ hel p hp hps).trans hbel

theorem chain_below {s s' : S} (hs : R.Published s) (hs' : R.Published s')
    (htm : R.term s = R.term s') (hle : R.rank (some s) ≤ R.rank (some s'))
    (hso : Sole R (R.term s)) (ht : R.term s < bound) :
    R.Below (some s) (some s') := by
  induction hr : R.rank (some s') using WellFoundedLT.induction generalizing s' with
  | ind r ih =>
    subst hr
    have how : R.owner s = R.owner s' := by
      obtain ⟨b, hel, _, _⟩ := hR.elected_below hs ht
      obtain ⟨b', hel', _, _⟩ := hR.elected_below hs' (htm ▸ ht)
      exact hso _ _ b b' hel (htm ▸ hel')
    have hv := version_le_of_rank_le htm hle
    rcases Nat.lt_or_eq_of_le hv with hlt | heq
    · obtain ⟨b, hb⟩ := hR.built hs' (htm ▸ ht)
      have hsb := hR.chain hs hs' ht how htm hlt hb
      have hbs := (hR.step hb (htm ▸ ht)).1
      obtain ⟨hpub, htb⟩ := hR.built_published hb (htm ▸ ht)
      cases b with
      | none => exact absurd (hR.published_rank_pos hs ht) (not_lt.mpr hsb)
      | some s₁ =>
        -- between two states of one term there is nothing of another
        have hts := termOf_le_of_rank_le hsb
        simp only [termOf, Option.elim] at hts htb
        have : R.term s = R.term s₁ := by omega
        exact (ih _ hbs (hpub s₁ rfl) this hsb rfl).trans (Below.step hb)
    · rw [hR.unique hs hs' ht how htm heq]
      exact Relation.ReflTransGen.refl

theorem committed_below {t : ℕ} (hIH : ∀ t' < t, Above R t' ∧ Sole R t')
    (htb : t ≤ bound) {f : S} {x : Option S} (hf : R.Committed f)
    (hx : ∀ s, x = some s → R.Published s) (hxt : R.termOf x < t)
    (hle : R.rank (some f) ≤ R.rank x) : R.Below (some f) x := by
  have hft : R.term f < t := Nat.lt_of_le_of_lt (termOf_le_of_rank_le hle) hxt
  have hfp := (hR.committed hf (Nat.lt_of_lt_of_le hft htb)).1
  cases x with
  | none =>
    exact absurd (hR.published_rank_pos hfp (Nat.lt_of_lt_of_le hft htb)) (not_lt.mpr hle)
  | some s =>
    have hterm := termOf_le_of_rank_le hle
    simp only [termOf, Option.elim] at hterm hxt
    rcases Nat.lt_or_eq_of_le hterm with hlt | heq
    · exact hR.committed_below_of_term_lt hf (hx s rfl) hlt (hIH _ hxt).1
        (Nat.lt_of_lt_of_le hxt htb)
    · exact hR.chain_below hfp (hx s rfl) heq hle (hIH _ hft).2
        (Nat.lt_of_lt_of_le hft htb)

theorem exists_last_committed (P : S → Prop) :
    ∃ f : Option S, (∀ c, f = some c → R.Committed c ∧ P c) ∧
      ∀ c, R.Committed c → P c → R.rank (some c) ≤ R.rank f := by
  classical
  by_cases hne : {c | R.Committed c ∧ P c}.Nonempty
  · obtain ⟨f, hf, hmax⟩ := Set.exists_max_image {c | R.Committed c ∧ P c}
      (fun c => R.rank (some c)) (hR.finite.subset fun c hc => hc.1) hne
    refine ⟨some f, ?_, fun c hc hP => hmax c ⟨hc, hP⟩⟩
    intro c hc
    cases hc
    exact hf
  · exact ⟨none, by simp, fun c hc hP => (hne ⟨c, hc, hP⟩).elim⟩

theorem majority_of_last {t : ℕ} {m : N} {b f : Option S} (ht : t < bound)
    (hel : R.Elected m t b) (hfb : R.Below f b)
    (hno : ∀ c, R.Committed c → R.rank f < R.rank (some c) →
      R.rank (some c) ≤ R.rank b → False) (hbt : R.termOf b < bound) :
    ∃ V : Set N, (∀ n ∈ V, R.Voted n t m ∧
        ∀ s, R.Accepted n s → R.term s < t → R.rank (some s) ≤ R.rank b) ∧
      Lib.Majority (R.newOf f) V := by
  obtain ⟨V, hV, hnew, hold⟩ := hR.elected ht hel
  refine ⟨V, hV, ?_⟩
  rcases hR.newConfig_kept hfb hbt fun c hc hl hu => hno c hc hl hu.le with rfl | hk | hk
  · exact hnew
  · rcases hold with hold | ⟨s, rfl, hc⟩
    · exact hk ▸ hold
    · -- the base itself is committed, so it is the last one
      rcases hR.below_rank hfb hbt with rfl | hl
      · exact hnew
      · exact (hno s hc hl le_rfl).elim
  · exact hk ▸ hnew

/-- One term more, given those below. -/
theorem above_of_lower {t : ℕ} (ht : t < bound)
    (hIH : ∀ t' < t, Above R t' ∧ Sole R t') : Above R t := by
  intro m b hel p hp hpt
  obtain ⟨b₀, hel₀, hb₀, hbel⟩ := hR.elected_over_older ht hel
  refine Relation.ReflTransGen.trans ?_ hbel
  have hpub₀ := (hR.base ht hel₀).1
  by_cases hle : R.rank (some p) ≤ R.rank b₀
  · exact hR.committed_below hIH ht.le hp hpub₀ hb₀ hle
  -- `q` is the lowest committed state above the base
  exfalso
  obtain ⟨q, ⟨hq, hqt, hqb⟩, hmin⟩ := Set.exists_min_image
    {c | R.Committed c ∧ R.term c < t ∧ R.rank b₀ < R.rank (some c)}
    (fun c => R.rank (some c)) (hR.finite.subset fun c hc => hc.1)
    ⟨p, hp, hpt, not_le.mp hle⟩
  obtain ⟨hqp, hqold, hqnew⟩ := hR.committed hq (hqt.trans ht)
  obtain ⟨f, hf, hmax⟩ := hR.exists_last_committed fun c => R.rank (some c) ≤ R.rank b₀
  have hfb : R.Below f b₀ := by
    cases f with
    | none => exact hR.none_below hpub₀ (hb₀.trans ht)
    | some c => exact hR.committed_below hIH ht.le (hf c rfl).1 hpub₀ hb₀ (hf c rfl).2
  have hqpub : ∀ s, some q = some s → R.Published s := fun s h => Option.some.inj h ▸ hqp
  have hfq : R.Below f (some q) := by
    cases f with
    | none => exact hR.none_below hqpub (hqt.trans ht)
    | some c =>
      exact hR.committed_below hIH ht.le (hf c rfl).1 hqpub hqt
        ((hf c rfl).2.trans hqb.le)
  -- the base and `q` share `f`'s configuration, so a voter accepted `q`
  obtain ⟨V, hV, hVmaj⟩ := hR.majority_of_last ht hel₀ hfb
    (fun c hc hl hu => not_lt.mpr (hmax c hc hu) hl) (hb₀.trans ht)
  have hqmaj : Lib.Majority (R.newOf f) {n | R.Accepted n q} := by
    have hbetween : ∀ c, R.Committed c → R.rank f < R.rank (some c) →
        R.rank (some c) < R.rank (some q) → False := by
      intro c hc hl hu
      have hct : R.term c < t := Nat.lt_of_le_of_lt (termOf_le_of_rank_le hu.le) hqt
      rcases le_or_gt (R.rank (some c)) (R.rank b₀) with hcb | hcb
      · exact not_lt.mpr (hmax c hc hcb) hl
      · exact not_lt.mpr (hmin c ⟨hc, hct, hcb⟩) hu
    rcases hR.newConfig_kept hfq (hqt.trans ht) hbetween with rfl | hk | hk
    · exact hqnew
    · exact hk ▸ hqold
    · exact hk ▸ hqnew
  obtain ⟨n, _, hnV, hnq⟩ := hVmaj.meet hqmaj
  exact not_lt.mpr ((hV n hnV).2 q hnq hqt) hqb

/-- One leader for it. -/
theorem sole_of_above {t : ℕ} (ht : t < bound) (hab : Above R t) : Sole R t := by
  intro m m' b b' hel hel'
  obtain ⟨f, hf, hmax⟩ := hR.exists_last_committed fun c => R.term c < t
  -- a rival's voters are a majority of the last configuration committed before
  have key : ∀ k c, R.Elected k t c → ∃ V : Set N, (∀ n ∈ V, R.Voted n t k) ∧
      Lib.Majority (R.newOf f) V := by
    intro k c hk
    obtain ⟨c₀, hk₀, hc₀, _⟩ := hR.elected_over_older ht hk
    have hfc : R.Below f c₀ := by
      cases f with
      | none => exact hR.none_below (hR.base ht hk₀).1 (hc₀.trans ht)
      | some p => exact hab _ _ hk₀ p (hf p rfl).1 (hf p rfl).2
    obtain ⟨V, hV, hmaj⟩ := hR.majority_of_last ht hk₀ hfc
      (fun c hc hl hu => not_lt.mpr
        (hmax c hc (Nat.lt_of_le_of_lt (termOf_le_of_rank_le hu) hc₀)) hl) (hc₀.trans ht)
    exact ⟨V, fun n hn => (hV n hn).1, hmaj⟩
  obtain ⟨V, hV, hmaj⟩ := key m b hel
  obtain ⟨V', hV', hmaj'⟩ := key m' b' hel'
  obtain ⟨n, _, hn, hn'⟩ := hmaj.meet hmaj'
  exact hR.voted_once ht (hV n hn) (hV' n hn')

/-- Both, by induction on the term. -/
theorem above_and_sole (t : ℕ) (ht : t < bound) : Above R t ∧ Sole R t := by
  induction t using Nat.strong_induction_on with
  | _ t ih =>
    have hIH : ∀ t' < t, Above R t' ∧ Sole R t' := fun t' h => ih t' h (h.trans ht)
    have hab := hR.above_of_lower ht hIH
    exact ⟨hab, hR.sole_of_above ht hab⟩

/-- **One leader for a term.** -/
theorem leader_unique {m m' : N} {t : ℕ} {b b' : Option S} (ht : t < bound)
    (h : R.Elected m t b) (h' : R.Elected m' t b') : m = m' :=
  (hR.above_and_sole t ht).2 m m' b b' h h'

/-- **A leader's base descends from every state committed in a lower term.** -/
theorem base_above {m : N} {t : ℕ} {b : Option S} {p : S} (ht : t < bound)
    (h : R.Elected m t b) (hp : R.Committed p) (hpt : R.term p < t) :
    R.Below (some p) b :=
  (hR.above_and_sole t ht).1 m b h p hp hpt

/-- **One state for a version of a term.** -/
theorem published_unique {s s' : S} (hs : R.Published s) (hs' : R.Published s')
    (ht : R.term s < bound) (htm : R.term s = R.term s')
    (hv : R.version s = R.version s') : s = s' := by
  obtain ⟨b, hel, _, _⟩ := hR.elected_below hs ht
  obtain ⟨b', hel', _, _⟩ := hR.elected_below hs' (htm ▸ ht)
  exact hR.unique hs hs' ht (hR.leader_unique ht hel (htm ▸ hel')) htm hv

end Lawful
end Record
end Velosearch.Lib

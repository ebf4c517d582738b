import Velosearch.Query.SpanWalks

/-!
# Span clauses that filter

`span_first` and `span_not` pass on the matches of one clause that a check accepts, `span_containing`
and `span_within` those that stand right to a match of another clause. The other clause is only ever
moved forward: what it has moved past counts for no later match.
-/

set_option autoImplicit false

namespace Velosearch.Query

open Spans

/-! ## A check -/

section Filter

variable {σ τ : Type} {T : Spans σ} {U : Spans τ}

/-- A check that goes on: it can be asked about matches in order, and where a match is a good one it
accepts it if it has the property. -/
structure Judges (U : Spans τ) (inv : Check τ → Int → Prop) (Good P : Match → Prop) : Prop where
  accept : ∀ c a m, inv c a → a ≤ m.start → m.Fit → ∃ v c',
    c.accept U m.start m.end = some (v, c') ∧ inv c' m.start ∧
      (Good m → (v = .yes ↔ P m)) ∧
      (v = .noMoreInDocument → ∀ x : Match, x.Fit → m.start ≤ x.start → ¬P x)

namespace FilterSpans

variable {inv : Check τ → Int → Prop} {Good P : Match → Prop} {f : FilterSpans σ τ}
  {rest : List Match} {m : Match} {a : Int}

/-- A match is judged as it should be. -/
theorem accept_spec (judge : Judges U inv Good P) (held : inv f.check a) (on : T.On f.inner m rest)
    (le : a ≤ m.start) : ∃ v c', accept T U f = some (v, { f with check := c' }) ∧
      inv c' m.start ∧ (Good m → (v = .yes ↔ P m)) ∧
      (v = .noMoreInDocument → ∀ x ∈ m :: rest, ¬P x) := by
  obtain ⟨v, c', judged, again, iff, stops⟩ := judge.accept f.check a m held le on.orderly.head
  refine ⟨v, c', ?_, again, iff, ?_⟩
  · simp [accept, on.shows_.start, on.shows_.end, judged]
  · intro over_ x hx
    refine stops over_ x (on.orderly.fit x hx) ?_
    cases List.mem_cons.mp hx with
    | inl here => rw [here]
    | inr later => exact on.orderly.le x later

variable (T inv) in
/-- A filter that stands before some matches. -/
structure Ready (f : FilterSpans σ τ) (rest : List Match) (a : Int) : Prop where
  walks : T.Walks f.inner rest
  orderly : Orderly rest
  held : inv f.check a
  le : ∀ m ∈ rest, a ≤ m.start

variable (T inv) in
/-- A match that passes. -/
structure Passes (f : FilterSpans σ τ) (m : Match) (rest : List Match) : Prop where
  start : f.start = m.start
  shows_ : T.Shows f.inner m
  fit : m.Fit
  ready : Ready T inv f rest m.start

variable (T inv Good P) in
/-- What a look for the next match comes to. -/
inductive Outcome (f' : FilterSpans σ τ) (found : Bool) (rest : List Match) : Prop where
  | none (over_ : found = false) (fails : (∀ x ∈ rest, Good x) → ∀ x ∈ rest, ¬P x)
  | some (passed later : List Match) (m : Match) (yes : found = true)
      (all : rest = passed ++ m :: later) (passes : Passes T inv f' m later)
      (fails : (∀ x ∈ rest, Good x) → (∀ x ∈ passed, ¬P x) ∧ P m)

theorem Outcome.cons {f' : FilterSpans σ τ} {found : Bool}
    (h : Outcome T inv Good P f' found rest) (fails : Good m → ¬P m) :
    Outcome T inv Good P f' found (m :: rest) := by
  cases h with
  | none over_ others =>
    refine .none over_ fun good x hx => ?_
    cases List.mem_cons.mp hx with
    | inl here =>
      rw [here]
      exact fails (good m List.mem_cons_self)
    | inr later => exact others (fun y hy => good y (List.mem_cons_of_mem m hy)) x later
  | some passed later m' yes all passes others =>
    refine .some (m :: passed) later m' yes (congrArg (m :: ·) all) passes fun good => ?_
    obtain ⟨out, last⟩ := others fun y hy => good y (List.mem_cons_of_mem m hy)
    refine ⟨fun x hx => ?_, last⟩
    cases List.mem_cons.mp hx with
    | inl here =>
      rw [here]
      exact fails (good m List.mem_cons_self)
    | inr later => exact out x later

/-- The next match that passes is found. -/
theorem goOn_spec (judge : Judges U inv Good P) (ready : Ready T inv f rest a) {rounds : Nat}
    (enough : rest.length < rounds) :
    ∃ f' found, goOn T U rounds f = some (f'.start, f') ∧ f'.atFirst = f.atFirst ∧
      (found = false → f'.start = NO_MORE) ∧ Outcome T inv Good P f' found rest := by
  induction rounds generalizing f rest a with
  | zero => omega
  | succ rounds ih =>
    obtain ⟨walks, orderly, held, le⟩ := ready
    cases walks with
    | done inner _ next =>
      refine ⟨{ f with inner, start := NO_MORE }, false, ?_, rfl, fun _ => rfl,
        .none rfl fun _ => nofun⟩
      simp [goOn, next]
    | @more _ inner m rest _ _ next shows_ walks =>
      have fit := orderly.head
      have on : T.On inner m rest := ⟨shows_, walks, orderly⟩
      obtain ⟨v, c', judged, again, iff, stops⟩ :=
        accept_spec (f := { f with inner, start := m.start }) judge held on
          (le m List.mem_cons_self)
      cases v with
      | yes =>
        refine ⟨{ f with inner, start := m.start, check := c' }, true, ?_, rfl, nofun,
          .some [] rest m rfl rfl ⟨rfl, shows_, fit, walks, orderly.tail, again, orderly.le⟩ ?_⟩
        · simp [goOn, next, fit.ne, judged]
        · exact fun good => ⟨nofun, (iff (good m List.mem_cons_self)).mp rfl⟩
      | noMoreInDocument =>
        refine ⟨{ f with inner, start := NO_MORE, check := c' }, false, ?_, rfl, fun _ => rfl,
          .none rfl fun _ => stops rfl⟩
        simp [goOn, next, fit.ne, judged]
      | no =>
        obtain ⟨f', found, went, kept, ends, out⟩ :=
          ih (f := { f with inner, start := m.start, check := c' })
            ⟨walks, orderly.tail, again, orderly.le⟩ (Nat.lt_of_succ_lt_succ enough)
        refine ⟨f', found, ?_, kept, ends, out.cons ?_⟩
        · simp [goOn, next, fit.ne, judged, went]
        · intro good yes
          exact nomatch (iff good).mpr yes

theorem seek_spec (judge : Judges U inv Good P) (on : T.On f.inner m rest)
    (held : inv f.check a) (le : a ≤ m.start) (start : f.start = m.start) {rounds : Nat}
    (enough : rest.length < rounds) :
    ∃ f' found, seek T U rounds f = some (found, f') ∧ (found = true → f'.atFirst = true) ∧
      Outcome T inv Good P f' found (m :: rest) := by
  induction rounds generalizing f rest m a with
  | zero => omega
  | succ rounds ih =>
    have fit := on.orderly.head
    obtain ⟨v, c', judged, again, iff, stops⟩ := accept_spec judge held on le
    cases v with
    | yes =>
      refine ⟨{ f with check := c', atFirst := true }, true, ?_, fun _ => rfl,
        .some [] rest m rfl rfl
          ⟨start, on.shows_, fit, on.walks, on.orderly.tail, again, on.orderly.le⟩ ?_⟩
      · simp [seek, judged]
      · exact fun good => ⟨nofun, (iff (good m List.mem_cons_self)).mp rfl⟩
    | noMoreInDocument =>
      refine ⟨{ f with check := c', start := -1 }, false, ?_, nofun, .none rfl fun _ => stops rfl⟩
      simp [seek, judged]
    | no =>
      have fails : Good m → ¬P m := fun good yes => nomatch (iff good).mpr yes
      cases on.walks with
      | done inner _ next =>
        refine ⟨{ f with check := c', inner, start := -1 }, false, ?_, nofun,
          Outcome.cons (.none rfl fun _ => nofun) fails⟩
        simp [seek, judged, next]
      | @more _ inner m' rest _ _ next shows_ walks =>
        have fit' := on.orderly.tail.head
        obtain ⟨f', found, went, ends, out⟩ :=
          ih (f := { f with check := c', inner, start := m'.start })
            ⟨shows_, walks, on.orderly.tail⟩ again (on.orderly.le m' List.mem_cons_self) rfl
            (Nat.lt_of_succ_lt_succ enough)
        refine ⟨f', found, ?_, ends, out.cons fails⟩
        simp [seek, judged, next, fit'.ne, went]

theorem Passes.shows_spans (passes : Passes T inv f m rest) (moving : f.atFirst = false) :
    (spans T U).Shows f m := by
  refine ⟨?_, ?_, passes.shows_.width⟩
  · show (if f.atFirst then -1 else f.start) = m.start
    simp [moving, passes.start]
  · show (if f.atFirst then -1 else if f.start ≠ NO_MORE then T.end f.inner else NO_MORE) = m.end
    simp [moving, passes.start, passes.fit.ne, passes.shows_.end]

variable [DecidablePred P]

/-- A filter walks the matches that pass. -/
theorem walks_spec (judge : Judges U inv Good P) (ready : Ready T inv f rest a)
    (moving : f.atFirst = false) :
    ∃ l, (spans T U).Walks f l ∧ l.Sublist rest ∧ ((∀ x ∈ rest, Good x) → l = rest.filter P) := by
  induction size : rest.length using Nat.strongRecOn generalizing f rest a with
  | ind n ih =>
    have le := ready.walks.left
    have enough : rest.length < left T f + 1 := by
      simp only [left, moving, Bool.toNat_false]
      omega
    obtain ⟨f', found, went, kept, ends, out⟩ := goOn_spec judge ready enough
    have next : (spans T U).nextStart f = some (f'.start, f') := by
      show nextStart T U f = _
      simp [nextStart, moving, went]
    have still : f'.atFirst = false := kept.trans moving
    cases out with
    | none over_ fails =>
      refine ⟨[], .done f' (fun p => rfl) ((ends over_) ▸ next) ⟨?_, ?_⟩, List.nil_sublist _, ?_⟩
      · show (if f'.atFirst then -1 else f'.start) = NO_MORE
        simp [still, ends over_]
      · show (if f'.atFirst then -1 else if f'.start ≠ NO_MORE then T.end f'.inner else NO_MORE) =
          NO_MORE
        simp [still, ends over_]
      · intro good
        symm
        rw [List.filter_eq_nil_iff]
        intro x hx
        simpa using fails good x hx
    | some passed later m yes all passes fails =>
      have fewer : later.length < n := by
        rw [← size, all, List.length_append, List.length_cons]
        omega
      obtain ⟨l, walks, sub, filtered⟩ := ih later.length fewer passes.ready still rfl
      have short := sub.length_le
      refine ⟨m :: l, .more f' (fun p => rfl) ?_ (passes.start ▸ next) (passes.shows_spans still)
        walks, ?_, ?_⟩
      · show l.length < left T f
        simp only [left, moving, Bool.toNat_false]
        omega
      · rw [all]
        exact (sub.cons_cons m).trans (List.sublist_append_right passed (m :: later))
      · intro good
        obtain ⟨out, last⟩ := fails good
        have none : passed.filter P = [] := by
          rw [List.filter_eq_nil_iff]
          intro x hx
          simpa using out x hx
        have rest_ := filtered fun x hx => good x (by
          rw [all]
          exact List.mem_append_right passed (List.mem_cons_of_mem m hx))
        rw [all, List.filter_append, none, List.nil_append,
          List.filter_cons_of_pos (by simpa using last), rest_]

/-- **A filtering clause** passes on matches of its clause in their order: those that are accepted,
where they are good ones. -/
theorem means (judge : Judges U inv Good P) {l : List Match} (inner : T.Means f.inner l)
    (orderly : Orderly l) (held : inv f.check (-1)) :
    ∃ l', (spans T U).Means f l' ∧ l'.Sublist l ∧
      ((∀ x ∈ l, Good x) → l' = l.filter P) := by
  obtain ⟨inner', asked, fresh⟩ := inner
  cases l with
  | nil =>
    refine ⟨[], ⟨{ f with inner := inner' }, ?_, fun some_ => absurd rfl some_⟩, .slnil,
      fun _ => rfl⟩
    show «matches» T U f = _
    simp [«matches», asked]
  | cons m rest =>
    have fit := orderly.head
    have le : -1 ≤ m.start := by
      have low := fit.start
      omega
    cases (fresh (by simp)).walks with
    | more inner'' _ _ next shows_ walks =>
      have on : T.On inner'' m rest := ⟨shows_, walks, orderly⟩
      obtain ⟨f', found, went, first, out⟩ :=
        seek_spec (f := { f with inner := inner'', atFirst := false, start := m.start }) judge on
          held le rfl (Nat.lt_succ_of_le walks.left)
      have asked' : «matches» T U f = some (found, f') := by
        simp [«matches», asked, next, went]
      cases out with
      | none over_ fails =>
        refine ⟨[], ⟨f', ?_, fun some_ => absurd rfl some_⟩, List.nil_sublist _, ?_⟩
        · show «matches» T U f = _
          rw [asked', over_]
          rfl
        · intro good
          symm
          rw [List.filter_eq_nil_iff]
          intro x hx
          simpa using fails good x hx
      | some passed later m' yes all passes fails =>
        have ready : Ready T inv { f' with atFirst := false } later m'.start :=
          ⟨passes.ready.walks, passes.ready.orderly, passes.ready.held, passes.ready.le⟩
        obtain ⟨l', walks', sub, filtered⟩ := walks_spec judge ready rfl
        have stored := first yes
        have passes' : Passes T inv { f' with atFirst := false } m' later :=
          ⟨passes.start, passes.shows_, passes.fit, ready⟩
        refine ⟨m' :: l', ⟨f', ?_, fun _ => ⟨?_, ?_, .more { f' with atFirst := false }
          (fun p => rfl) ?_ ?_ (passes'.shows_spans rfl) walks'⟩⟩, ?_, ?_⟩
        · show «matches» T U f = _
          rw [asked', yes]
          rfl
        · show (if f'.atFirst then -1 else f'.start) = -1
          simp [stored]
        · show (if f'.atFirst then -1 else _) = -1
          simp [stored]
        · show l'.length < left T f'
          have le := sub.length_le
          have bound := ready.walks.left
          change later.length ≤ T.left f'.inner at bound
          simp only [left, stored, Bool.toNat_true]
          omega
        · show nextStart T U f' = _
          simp [nextStart, stored, passes.start]
        · rw [all]
          exact (sub.cons_cons m').trans (List.sublist_append_right passed (m' :: later))
        · intro good
          obtain ⟨out, last⟩ := fails good
          have none : passed.filter P = [] := by
            rw [List.filter_eq_nil_iff]
            intro x hx
            simpa using out x hx
          have rest_ := filtered fun x hx => good x (by
            rw [all]
            exact List.mem_append_right passed (List.mem_cons_of_mem m' hx))
          rw [all, List.filter_append, none, List.nil_append,
            List.filter_cons_of_pos (by simpa using last), rest_]

end FilterSpans

/-! ## The two checks -/

namespace Check

/-- A match that ends early enough. -/
theorem judges_first (limit : Int) :
    Judges U (fun c _ => c = .first limit) (fun _ => True) fun m => m.end ≤ limit := by
  constructor
  rintro _ a m rfl - fit
  have lt := fit.lt
  refine ⟨_, _, rfl, rfl, fun _ => ?_, ?_⟩
  · by_cases stops : m.start ≥ limit
    · rw [if_pos stops]
      constructor
      · exact nofun
      · intro inside
        omega
    · rw [if_neg stops]
      by_cases inside : m.end ≤ limit
      · simp [inside]
      · simp [inside]
  · intro stops x fitx le inside
    have ltx := fitx.lt
    by_cases over_ : m.start ≥ limit
    · omega
    · rw [if_neg over_] at stops
      split at stops
      · exact nomatch stops
      · exact nomatch stops

variable {s : τ} {m : Match} {l b : List Match} {pre post a : Int}

/-- The matches that are passed over are behind. -/
theorem passOver_spec (before : Int) (on : U.On s m l) {rounds : Nat}
    (enough : l.length < rounds) :
    ∃ s', (passOver U before rounds s = some (true, s') ∧ U.Ended s' ∧
        ∀ y ∈ m :: l, y.end ≤ before) ∨
      ∃ passed m' l', passOver U before rounds s = some (false, s') ∧
        m :: l = passed ++ m' :: l' ∧ (∀ y ∈ passed, y.end ≤ before) ∧ before < m'.end ∧
        U.On s' m' l' := by
  induction rounds generalizing s m l with
  | zero => omega
  | succ rounds ih =>
    by_cases behind : m.end ≤ before
    · have goes : U.end s ≤ before := by
        rw [on.shows_.end]
        exact behind
      cases on.walks with
      | done s' _ next ended =>
        refine ⟨s', .inl ⟨?_, ended, ?_⟩⟩
        · simp [passOver, goes, next]
        · intro y hy
          rw [List.mem_singleton.mp hy]
          exact behind
      | @more _ s' m' l _ _ next shows_ walks =>
        have fit' := on.orderly.tail.head
        have moved : passOver U before (rounds + 1) s = passOver U before rounds s' := by
          simp [passOver, goes, next, fit'.ne]
        rw [moved]
        obtain ⟨s'', ends | stays⟩ := ih ⟨shows_, walks, on.orderly.tail⟩
          (Nat.lt_of_succ_lt_succ enough)
        · obtain ⟨out, ended, all⟩ := ends
          refine ⟨s'', .inl ⟨out, ended, fun y hy => ?_⟩⟩
          cases List.mem_cons.mp hy with
          | inl here =>
            rw [here]
            exact behind
          | inr later => exact all y later
        · obtain ⟨passed, m'', l'', out, split_, all, past, on'⟩ := stays
          refine ⟨s'', .inr ⟨m :: passed, m'', l'', out, congrArg (m :: ·) split_, fun y hy => ?_,
            past, on'⟩⟩
          cases List.mem_cons.mp hy with
          | inl here =>
            rw [here]
            exact behind
          | inr later => exact all y later
    · have stays : ¬U.end s ≤ before := by
        rw [on.shows_.end]
        exact behind
      refine ⟨s, .inr ⟨[], m, l, ?_, rfl, nofun, by omega, on⟩⟩
      simp [passOver, stays]

variable (U) in
/-- What `span_not` has asked of its excluded clause, whose matches are `b`, once it was asked about
matches up to position `a`. -/
inductive Excludes (pre post : Int) (b : List Match) : Check τ → Int → Prop where
  | unasked {s : τ} {a : Int} (present : Bool) (means : U.Means s b) :
      Excludes pre post b (.not s pre post false present) a
  | absent (s : τ) {a : Int} (none : b = []) : Excludes pre post b (.not s pre post true false) a
  | on {s : τ} {a : Int} (passed : List Match) (m : Match) (l : List Match)
      (all : b = passed ++ m :: l) (before : ∀ y ∈ passed, y.end ≤ a - pre) (on : U.On s m l) :
      Excludes pre post b (.not s pre post true true) a
  | ended {s : τ} {a : Int} (before : ∀ y ∈ b, y.end ≤ a - pre) (ended : U.Ended s) :
      Excludes pre post b (.not s pre post true true) a

/-- No excluded match within `pre` before or `post` after. -/
def Apart (pre post : Int) (b : List Match) (m : Match) : Prop :=
  ∀ y ∈ b, y.end + pre ≤ m.start ∨ m.end + post ≤ y.start

instance (pre post : Int) (b : List Match) : DecidablePred (Apart pre post b) :=
  fun m => inferInstanceAs (Decidable (∀ y ∈ b, y.end + pre ≤ m.start ∨ m.end + post ≤ y.start))

theorem apart_iff {passed : List Match} {y : Match} (orderly : Orderly (y :: l))
    (behind : ∀ x ∈ passed, x.end ≤ m.start - pre) (past : m.start - pre < y.end) :
    Apart pre post (passed ++ y :: l) m ↔ y.start - post ≥ m.end := by
  constructor
  · intro apart
    have here := apart y (List.mem_append_right passed List.mem_cons_self)
    omega
  · intro far x hx
    cases List.mem_append.mp hx with
    | inl before =>
      have le := behind x before
      omega
    | inr after =>
      have le : y.start ≤ x.start := by
        cases List.mem_cons.mp after with
        | inl here => rw [here]
        | inr later => exact orderly.le x later
      omega

/-- A match is apart from the other spans' matches. -/
theorem accept_on {passed : List Match} {y : Match}
    (all : b = passed ++ y :: l) (behind : ∀ x ∈ passed, x.end ≤ m.start - pre) (on : U.On s y l)
    (fit : m.Fit) :
    ∃ out s', passOver U (m.start - pre) (U.left s + 1) s = some (out, s') ∧
      Excludes U pre post b (.not s' pre post true true) m.start ∧
      ((out = true ∨ U.start s' - post ≥ m.end) ↔ Apart pre post b m) := by
  have lt := fit.lt
  have high := fit.end
  obtain ⟨s', ends | stays⟩ := passOver_spec (m.start - pre) on
    (Nat.lt_succ_of_le on.walks.left)
  · obtain ⟨out, ended, rest⟩ := ends
    have every : ∀ x ∈ b, x.end ≤ m.start - pre := by
      intro x hx
      rw [all] at hx
      cases List.mem_append.mp hx with
      | inl before => exact behind x before
      | inr after => exact rest x after
    refine ⟨true, s', out, .ended every ended, ?_⟩
    simp only [true_or, true_iff]
    intro x hx
    have le := every x hx
    omega
  · obtain ⟨more, y', l', out, split_, le, past, on'⟩ := stays
    have all' : b = (passed ++ more) ++ y' :: l' := by
      rw [all, List.append_assoc, split_]
    have every : ∀ x ∈ passed ++ more, x.end ≤ m.start - pre := by
      intro x hx
      cases List.mem_append.mp hx with
      | inl before => exact behind x before
      | inr after => exact le x after
    refine ⟨false, s', out, .on (passed ++ more) y' l' all' every on', ?_⟩
    rw [on'.shows_.start, all', apart_iff on'.orderly every past]
    simp

/-- **`span_not`** accepts the matches every excluded one keeps away from, as long as there is room
behind them up to where no more matches stand. -/
theorem judges_not (post : Int) (orderly : Orderly b) (pos : 0 ≤ pre) :
    Judges U (Excludes U pre post b) (fun m => m.end + post ≤ NO_MORE) (Apart pre post b) := by
  constructor
  intro c a m held le fit
  have lt := fit.lt
  have low := fit.start
  have high := fit.end
  -- the answer, with the excluded walk on a match of its own
  have decided : ∀ (s : τ) (passed : List Match) {y : Match} {l : List Match},
      b = passed ++ y :: l → (∀ x ∈ passed, x.end ≤ m.start - pre) → U.On s y l →
      ∃ v c', ((passOver U (m.start - pre) (U.left s + 1) s).bind fun r =>
          some (if r.1 = true ∨ U.start r.2 - post ≥ m.end then Accept.yes else .no,
            Check.not r.2 pre post true true)) = some (v, c') ∧
        Excludes U pre post b c' m.start ∧
        (m.end + post ≤ NO_MORE → (v = .yes ↔ Apart pre post b m)) ∧
        (v = .noMoreInDocument → ∀ x : Match, x.Fit → m.start ≤ x.start →
          ¬Apart pre post b x) := by
    intro s passed y l all behind on
    obtain ⟨out, s', went, kept, iff⟩ := accept_on all behind on fit
    refine ⟨if out = true ∨ U.start s' - post ≥ m.end then Accept.yes else .no,
      .not s' pre post true true, ?_, kept, fun _ => ?_, ?_⟩
    · simp [went]
    · rw [← iff]
      split
      · next yes => simp [yes]
      · next no => simp [no]
    · split
      · rintro ⟨⟩
      · rintro ⟨⟩
  have nothing : b = [] → Apart pre post b m := by
    rintro rfl _ ⟨⟩
  cases held with
  | unasked present means =>
    rename_i s
    obtain ⟨s', asked, fresh⟩ := means
    by_cases none : b = []
    · refine ⟨.yes, .not s' pre post true false, ?_, .absent s' none, fun _ => ?_, by rintro ⟨⟩⟩
      · simp [accept, asked, none]
      · simp [nothing none]
    · have fresh := fresh none
      obtain ⟨y, l, rfl⟩ := List.exists_cons_of_ne_nil none
      cases fresh.walks with
      | more s'' _ _ next shows_ walks =>
        obtain ⟨v, c', answered, rest⟩ := decided s'' [] rfl (by rintro _ ⟨⟩)
          ⟨shows_, walks, orderly⟩
        refine ⟨v, c', ?_, rest⟩
        rw [← answered]
        simp [accept, asked, fresh.start, next]
  | absent s none =>
    refine ⟨.yes, .not s pre post true false, ?_, .absent s none, fun _ => ?_, by rintro ⟨⟩⟩
    · simp [accept]
    · simp [nothing none]
  | on passed y l all before on =>
    rename_i s
    have started : U.start s ≠ -1 := by
      have low := on.orderly.head.start
      rw [on.shows_.start]
      omega
    obtain ⟨v, c', answered, rest⟩ := decided s passed all (fun x hx => by
      have le := before x hx
      omega) on
    refine ⟨v, c', ?_, rest⟩
    rw [← answered]
    simp [accept, started]
  | ended before ended =>
    rename_i s
    have started : U.start s ≠ -1 := by
      rw [ended.start]
      decide
    have past : ¬U.end s ≤ m.start - pre := by
      rw [ended.end]
      omega
    have stays : passOver U (m.start - pre) (U.left s + 1) s = some (false, s) := by
      simp [passOver, past]
    have before' : ∀ y ∈ b, y.end ≤ m.start - pre := by
      intro y hy
      have le := before y hy
      omega
    refine ⟨if U.start s - post ≥ m.end then .yes else .no, .not s pre post true true, ?_,
      .ended before' ended, ?_, ?_⟩
    · simp [accept, started, stays]
    · intro room
      have far : U.start s - post ≥ m.end := by
        rw [ended.start]
        omega
      rw [if_pos far]
      simp only [true_iff]
      intro y hy
      have le := before' y hy
      omega
    · split
      · rintro ⟨⟩
      · rintro ⟨⟩

end Check

end Filter

/-! ## One match beside another -/

namespace ContainSpans

variable {σ τ : Type} {T : Spans σ} {U : Spans τ}

theorem passOver_walks {s : τ} {l : List Match} (behind : τ → Bool) (walks : U.Walks s l)
    (orderly : Orderly l) (opened : U.Open s) {rounds : Nat} (enough : l.length < rounds) :
    ∃ out s', passOver U behind rounds s = some (out, s') ∧ (out = false → U.Open s') := by
  induction walks generalizing rounds with
  | @done s s' _ next =>
    obtain ⟨rounds, rfl⟩ : ∃ k, rounds = k + 1 := ⟨rounds - 1, by omega⟩
    by_cases back : behind s = true
    · exact ⟨true, s', by simp [passOver, back, next], nofun⟩
    · exact ⟨false, s, by simp [passOver, back], fun _ => opened⟩
  | @more s s' m l _ _ next shows_ walks ih =>
    obtain ⟨rounds, rfl⟩ : ∃ k, rounds = k + 1 := ⟨rounds - 1, by omega⟩
    by_cases back : behind s = true
    · have moved : passOver U behind (rounds + 1) s = passOver U behind rounds s' := by
        simp [passOver, back, next, orderly.head.ne]
      rw [moved]
      exact ih orderly.tail (.on m l ⟨shows_, walks, orderly⟩) (Nat.lt_of_succ_lt_succ enough)
    · exact ⟨false, s, by simp [passOver, back], fun _ => opened⟩

theorem passOver_spec {s : τ} (behind : τ → Bool) (opened : U.Open s) :
    ∃ out s', passOver U behind (U.left s + 1) s = some (out, s') ∧ (out = false → U.Open s') := by
  cases opened with
  | fresh l fresh orderly =>
    exact passOver_walks behind fresh.walks orderly (.fresh l fresh orderly)
      (Nat.lt_succ_of_le fresh.walks.left)
  | on m l on =>
    exact passOver_walks behind on.walks on.orderly.tail (.on m l on)
      (Nat.lt_succ_of_le on.walks.left)

theorem seek_spec {s : σ} {other : τ} {rest : List Match} (behind allows : σ → τ → Bool)
    (walks : T.Walks s rest) (orderly : Orderly rest) (opened : U.Open other) {rounds : Nat}
    (enough : rest.length < rounds) :
    ∃ s' other', seek T U behind allows rounds s other = some (false, s', other') ∨
      ∃ passed m later, seek T U behind allows rounds s other = some (true, s', other') ∧
        rest = passed ++ m :: later ∧ T.On s' m later ∧ U.Open other' := by
  induction walks generalizing other rounds with
  | done s' _ next =>
    obtain ⟨rounds, rfl⟩ : ∃ k, rounds = k + 1 := ⟨rounds - 1, by omega⟩
    exact ⟨s', other, .inl (by simp [seek, next])⟩
  | @more s s' m rest _ _ next shows_ walks ih =>
    obtain ⟨rounds, rfl⟩ : ∃ k, rounds = k + 1 := ⟨rounds - 1, by omega⟩
    obtain ⟨out, other', passed, still⟩ := passOver_spec (behind s') opened
    have ne := orderly.head.ne
    cases out with
    | true => exact ⟨s', other', .inl (by simp [seek, next, ne, passed])⟩
    | false =>
      by_cases good : allows s' other' = true
      · refine ⟨s', other', .inr ⟨[], m, rest, ?_, rfl, ⟨shows_, walks, orderly⟩, still rfl⟩⟩
        simp [seek, next, ne, passed, good]
      · have moved : seek T U behind allows (rounds + 1) s other =
            seek T U behind allows rounds s' other' := by
          simp [seek, next, ne, passed, good]
        rw [moved]
        obtain ⟨s'', other'', ends | goes⟩ :=
          ih orderly.tail (still rfl) (Nat.lt_of_succ_lt_succ enough)
        · exact ⟨s'', other'', .inl ends⟩
        · obtain ⟨passed', m', later, went, all, on⟩ := goes
          exact ⟨s'', other'', .inr ⟨m :: passed', m', later, went, congrArg (m :: ·) all, on⟩⟩

variable {c : ContainSpans σ τ} {rest : List Match}

variable (T U) in
inductive Ready : ContainSpans σ τ → List Match → Prop where
  | within {c : ContainSpans σ τ} {rest : List Match} (kind : c.within = true)
      (walks : U.Walks c.little rest) (opened : T.Open c.big) : Ready c rest
  | containing {c : ContainSpans σ τ} {rest : List Match} (kind : c.within = false)
      (walks : T.Walks c.big rest) (opened : U.Open c.little) : Ready c rest

variable (T U) in
/-- The match the source stands at. -/
structure Source (c : ContainSpans σ τ) (m : Match) : Prop where
  start : sourceStart T U c = m.start
  «end» : (if c.within then U.end c.little else T.end c.big) = m.end
  width : (if c.within then U.width c.little else T.width c.big) = m.width

theorem Source.shows_ {m : Match} (source : Source T U c m) (moving : c.atFirst = false)
    (still : c.exhausted = false) : (spans T U).Shows c m := by
  refine ⟨?_, ?_, source.width⟩
  · show startOf T U c = m.start
    simp [startOf, moving, still, source.start]
  · show (if c.atFirst then -1 else if c.exhausted then NO_MORE else
      if c.within then U.end c.little else T.end c.big) = m.end
    simp [moving, still, source.end]

theorem Ready.left (ready : Ready T U c rest) : rest.length + c.atFirst.toNat ≤ left T U c := by
  cases ready with
  | within kind walks =>
    have le := walks.left
    simp only [ContainSpans.left, kind, if_true]
    omega
  | containing kind walks =>
    have le := walks.left
    simp only [ContainSpans.left, kind, Bool.false_eq_true, if_false]
    omega

/-- The next match that contains, or is contained. -/
theorem advance_spec (ready : Ready T U c rest) (orderly : Orderly rest) :
    ∃ c', c'.atFirst = c.atFirst ∧
      (advance T U c = some (false, c') ∧ c'.exhausted = true ∨
        ∃ passed m later, advance T U c = some (true, c') ∧ c'.exhausted = c.exhausted ∧
          rest = passed ++ m :: later ∧ Source T U c' m ∧ Ready T U c' later) := by
  cases ready with
  | within kind walks opened =>
    obtain ⟨little, big, ends | goes⟩ := seek_spec
      (fun little big => decide (T.end big < U.end little))
      (fun little big => decide (T.start big ≤ U.start little)) walks orderly opened
      (Nat.lt_succ_of_le walks.left)
    · exact ⟨{ c with little, big, exhausted := true }, rfl, .inl ⟨by simp [advance, kind, ends],
        rfl⟩⟩
    · obtain ⟨passed, m, later, went, all, on, opened'⟩ := goes
      refine ⟨{ c with little, big }, rfl, .inr ⟨passed, m, later, ?_, rfl, all, ⟨?_, ?_, ?_⟩,
        .within kind on.walks opened'⟩⟩
      · simp [advance, kind, went]
      · simp [sourceStart, kind, on.shows_.start]
      · simp [kind, on.shows_.end]
      · simp [kind, on.shows_.width]
  | containing kind walks opened =>
    obtain ⟨big, little, ends | goes⟩ := seek_spec
      (fun big little => decide (U.start little < T.start big))
      (fun big little => decide (T.end big ≥ U.end little)) walks orderly opened
      (Nat.lt_succ_of_le walks.left)
    · exact ⟨{ c with little, big, exhausted := true }, rfl, .inl ⟨by simp [advance, kind, ends],
        rfl⟩⟩
    · obtain ⟨passed, m, later, went, all, on, opened'⟩ := goes
      refine ⟨{ c with little, big }, rfl, .inr ⟨passed, m, later, ?_, rfl, all, ⟨?_, ?_, ?_⟩,
        .containing kind on.walks opened'⟩⟩
      · simp [advance, kind, went]
      · simp [sourceStart, kind, on.shows_.start]
      · simp [kind, on.shows_.end]
      · simp [kind, on.shows_.width]

/-- They are walked, in order. -/
theorem walks_exist (ready : Ready T U c rest) (orderly : Orderly rest)
    (moving : c.atFirst = false) (still : c.exhausted = false) {a : Int}
    (above : ∀ m ∈ rest, a ≤ m.start) :
    ∃ l, (spans T U).Walks c l ∧ Orderly l ∧ (∀ m ∈ l, a ≤ m.start) ∧ l.length ≤ rest.length := by
  refine Spans.exists_walks (fun c n a => c.atFirst = false ∧ c.exhausted = false ∧
    ∃ rest, Ready T U c rest ∧ Orderly rest ∧ n = rest.length ∧ ∀ m ∈ rest, a ≤ m.start) ?_ ?_
    ⟨moving, still, rest, ready, orderly, rfl, above⟩
  · rintro c n a ⟨moving, still, rest, ready, -, rfl, -⟩
    refine ⟨fun p => rfl, ?_⟩
    have le := ready.left
    exact (Nat.le_add_right _ _).trans le
  · rintro c n a ⟨moving, still, rest, ready, orderly, rfl, above⟩
    obtain ⟨c', kept, ends | goes⟩ := advance_spec ready orderly
    · left
      obtain ⟨went, out⟩ := ends
      have moving' : c'.atFirst = false := kept.trans moving
      refine ⟨c', ?_, ?_, ?_⟩
      · show nextStart T U c = _
        simp [nextStart, moving, went]
      · show startOf T U c' = NO_MORE
        simp [startOf, moving', out]
      · show (if c'.atFirst then -1 else if c'.exhausted then NO_MORE else _) = NO_MORE
        simp [moving', out]
    · right
      obtain ⟨passed, m, later, went, same, all, source, ready'⟩ := goes
      have sub : (m :: later).Sublist rest := by
        rw [all]
        exact List.sublist_append_right passed (m :: later)
      have orderly' := orderly.sublist sub
      have short := sub.length_le
      refine ⟨m, c', later.length, short, ?_,
        source.shows_ (kept.trans moving) (same.trans still),
        above m (sub.subset List.mem_cons_self), orderly'.head, kept.trans moving,
        same.trans still, later, ready', orderly'.tail, rfl, orderly'.le⟩
      show nextStart T U c = _
      simp [nextStart, moving, went, source.start]

/-- **A clause beside another** walks its matches in order, and has one only where both have. -/
theorem means {a b : List Match} (big : T.Means c.big a) (little : U.Means c.little b)
    (orderlyBig : Orderly a) (orderlyLittle : Orderly b) :
    ∃ l, (spans T U).Means c l ∧ Orderly l ∧ (l ≠ [] → a ≠ [] ∧ b ≠ []) := by
  obtain ⟨big', askedBig, freshBig⟩ := big
  obtain ⟨little', askedLittle, freshLittle⟩ := little
  by_cases noBig : a = []
  · refine ⟨[], ⟨{ c with big := big' }, ?_, fun some_ => absurd rfl some_⟩, .nil,
      fun some_ => absurd rfl some_⟩
    show «matches» T U c = _
    simp [«matches», askedBig, noBig]
  · by_cases noLittle : b = []
    · refine ⟨[], ⟨{ c with big := big', little := little' }, ?_, fun some_ => absurd rfl some_⟩,
        .nil, fun some_ => absurd rfl some_⟩
      show «matches» T U c = _
      simp [«matches», askedBig, noBig, askedLittle, noLittle]
    · have freshBig := freshBig noBig
      have freshLittle := freshLittle noLittle
      have ready : ∃ rest, Orderly rest ∧ Ready T U
          { c with big := big', little := little', atFirst := false, exhausted := false } rest := by
        cases kind : c.within with
        | true => exact ⟨b, orderlyLittle, .within rfl freshLittle.walks (.fresh a freshBig orderlyBig)⟩
        | false =>
          exact ⟨a, orderlyBig, .containing rfl freshBig.walks (.fresh b freshLittle orderlyLittle)⟩
      obtain ⟨rest, orderly, ready⟩ := ready
      obtain ⟨c', kept, ends | goes⟩ := advance_spec ready orderly
      · refine ⟨[], ⟨c', ?_, fun some_ => absurd rfl some_⟩, .nil, fun some_ => absurd rfl some_⟩
        show «matches» T U c = _
        simp [«matches», askedBig, noBig, askedLittle, noLittle, ends.1]
      · obtain ⟨passed, m, later, went, same, all, source, ready'⟩ := goes
        have sub : (m :: later).Sublist rest := by
          rw [all]
          exact List.sublist_append_right passed (m :: later)
        have orderly' := orderly.sublist sub
        obtain ⟨l, walks, orderly'', above, short⟩ :=
          walks_exist ready' orderly'.tail kept same orderly'.le
        refine ⟨m :: l, ⟨{ c' with atFirst := true }, ?_, fun _ => ⟨rfl, rfl, ?_⟩⟩,
          orderly''.cons orderly'.head above, fun _ => ⟨noBig, noLittle⟩⟩
        · show «matches» T U c = _
          simp [«matches», askedBig, noBig, askedLittle, noLittle, went]
        · refine .more c' (fun p => rfl) ?_ ?_ (source.shows_ kept same) walks
          · have le := walks.left
            change l.length ≤ ContainSpans.left T U c' at le
            show l.length < ContainSpans.left T U { c' with atFirst := true }
            have kept : c'.atFirst = false := kept
            simp only [ContainSpans.left, kept, Bool.toNat_false, Bool.toNat_true] at le ⊢
            omega
          · have kept : c'.atFirst = false := kept
            show some (sourceStart T U c', { c' with atFirst := false }) = some (m.start, c')
            rw [source.start, ← kept]

end ContainSpans

end Velosearch.Query

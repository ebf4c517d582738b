import Velosearch.Query.Conjunctions

/-!
# Words in order

From a position of the first word the stretch that ends soonest takes of each later word the first
position after the one before. The iterator finds it, and then tries whether the stretch can start
later and still end there: as long as a chain meets the one before it at some word it goes on as
that one did, so the end is the same.
-/

set_option autoImplicit false

namespace Velosearch.Query

/-- A position of each of `n` words within the stretch, each after the one before. -/
def InOrder (n : Nat) (L : Nat → Places) (s e : Int) : Prop :=
  ∃ q : Nat → Int,
    (∀ k, k < n → q k ∈ (L k).items ∧ s ≤ q k ∧ q k ≤ e) ∧ ∀ k, k + 1 < n → q k < q (k + 1)

variable {n : Nat} {L : Nat → Places}

/-- The chain from `s`: of each word the first position after the one before. -/
def chain (L : Nat → Places) : Nat → Int → Int
  | 0, s => s
  | k + 1, s => (L (k + 1)).after (chain L k s)

section Chain

variable {s t : Int} {j k : Nat}

/-- Beginning later, the parts end no earlier. -/
theorem chain_mono (le : s ≤ t) : chain L k s ≤ chain L k t := by
  induction k with
  | zero => exact le
  | succ k ih => exact (L (k + 1)).after_mono ih

theorem chain_no_more (out : NO_MORE ≤ chain L k s) (le : k ≤ j) : NO_MORE ≤ chain L j s := by
  induction le with
  | refl => exact out
  | step _ ih => exact le_of_eq ((L _).after_no_more ih).symm

/-- Each part is behind the one before. -/
theorem chain_lt (short : chain L k s < NO_MORE) (lt : k < j) : chain L k s < chain L j s := by
  induction lt with
  | refl => exact (L (k + 1)).lt_after short
  | step le ih =>
    rename_i m
    by_cases out : chain L m s < NO_MORE
    · exact lt_trans ih ((L (m + 1)).lt_after out)
    · have still := chain_no_more (not_lt.mp out) (Nat.le_succ m)
      omega

theorem chain_short (short : chain L j s < NO_MORE) (le : k ≤ j) : chain L k s < NO_MORE := by
  by_contra out
  have still := chain_no_more (not_lt.mp out) le
  omega

theorem chain_mem (start : s ∈ (L 0).items) (short : chain L k s < NO_MORE) :
    chain L k s ∈ (L k).items := by
  cases k with
  | zero => exact start
  | succ k => exact (L (k + 1)).after_mem (ne_of_lt short)

theorem chain_meet (meet : chain L k s = chain L k t) (le : k ≤ j) : chain L j s = chain L j t := by
  induction le with
  | refl => exact meet
  | step _ ih => rw [Nat.succ_eq_add_one, chain, chain, ih]

/-- **The chain is soonest**: no positions of the words in order come before it. -/
theorem chain_le {q : Nat → Int} (start : s ≤ q 0) (there : ∀ k, k < n → q k ∈ (L k).items)
    (order : ∀ k, k + 1 < n → q k < q (k + 1)) (inside : k < n) : chain L k s ≤ q k := by
  induction k with
  | zero => exact start
  | succ k ih =>
    exact (L (k + 1)).after_le (there _ inside) (lt_of_le_of_lt (ih (by omega)) (order k inside))

theorem rising_le {q : Nat → Int} (order : ∀ k, k + 1 < n → q k < q (k + 1)) (le : j ≤ k)
    (inside : k < n) : q j ≤ q k := by
  induction le with
  | refl => exact le_refl _
  | step _ ih => exact le_trans (ih (by omega)) (le_of_lt (order _ inside))

/-- Put one behind the other, they are in order. -/
theorem inOrder_chain (start : s ∈ (L 0).items) (short : chain L (n - 1) s < NO_MORE) :
    InOrder n L s (chain L (n - 1) s) := by
  refine ⟨fun k => chain L k s, fun k inside => ?_, fun k inside => ?_⟩
  · have here := chain_short short (show k ≤ n - 1 by omega)
    refine ⟨chain_mem start here, ?_, ?_⟩
    · by_cases first : k = 0
      · rw [first]
        rfl
      · exact le_of_lt (chain_lt (chain_short here (Nat.zero_le k)) (Nat.pos_of_ne_zero first))
    · by_cases last : k = n - 1
      · rw [last]
      · exact le_of_lt (chain_lt here (by omega))
  · exact chain_lt (chain_short short (by omega)) (Nat.lt_succ_self k)

/-- **The shortest stretches in order** are the chains whose end no later chain meets. -/
theorem tight_inOrder {x : Interval} (some : 1 ≤ n) :
    Tight (InOrder n L) x ↔
      x.start ∈ (L 0).items ∧ x.end = chain L (n - 1) x.start ∧ x.end < NO_MORE ∧
        x.end < chain L (n - 1) ((L 0).after x.start) := by
  constructor
  · intro ⟨⟨q, there, order⟩, least⟩
    have first := there 0 some
    have last := there (n - 1) (by omega)
    have same := least (q 0) (q (n - 1)) first.2.1 last.2.2
      ⟨q, fun k inside => ⟨(there k inside).1, ?_, ?_⟩, order⟩
    · have soonest := chain_le (le_of_eq same.1.symm) (fun k inside => (there k inside).1) order
        (show n - 1 < n by omega)
      have short : x.end < NO_MORE := same.2 ▸ ((L (n - 1)).inside _ last.1).2
      have start : x.start ∈ (L 0).items := same.1 ▸ first.1
      have met := least x.start (chain L (n - 1) x.start) (le_refl _) (by omega)
        (inOrder_chain start (by omega))
      refine ⟨start, met.2.symm, short, ?_⟩
      by_contra sooner
      have found : chain L 0 ((L 0).after x.start) < NO_MORE :=
        chain_short (j := n - 1) (by omega) (Nat.zero_le _)
      have inner := inOrder_chain (n := n) ((L 0).after_mem (ne_of_lt found)) (by omega)
      have after := (L 0).lt_after ((L 0).inside _ start).2
      have again := least _ _ (le_of_lt after) (by omega) inner
      omega
    · exact rising_le order (Nat.zero_le k) inside
    · exact rising_le order (show k ≤ n - 1 by omega) (by omega)
  · intro ⟨start, end_, short, later⟩
    rw [end_] at short later
    refine ⟨end_ ▸ inOrder_chain start short, ?_⟩
    intro s e after before ⟨q, there, order⟩
    have first := there 0 some
    have last := there (n - 1) (by omega)
    by_cases same : q 0 = x.start
    · have soonest := chain_le (le_of_eq same.symm) (fun k inside => (there k inside).1) order
        (show n - 1 < n by omega)
      omega
    · have next := (L 0).after_le first.1 (show x.start < q 0 by omega)
      have soonest := chain_le next (fun k inside => (there k inside).1) order
        (show n - 1 < n by omega)
      omega

end Chain

namespace OrderedIt

variable {p : Nat → Int} {subs : Subs} {s t lastStart prevEnd : Int} {c fuel : Nat}

/-- **A part moved past the one before it** stands at the first position after. -/
theorem pass_spec (stands : Stands n L p subs) (inside : c < n) (behind : p c ≤ prevEnd)
    (before : prevEnd < lastStart) (enough : ((L c).later (p c)).length < fuel) :
    (pass c lastStart prevEnd fuel subs).1 = decide ((L c).after prevEnd = NO_MORE) ∧
      Stands n L (Function.update p c ((L c).after prevEnd))
        (pass c lastStart prevEnd fuel subs).2 := by
  induction fuel generalizing p subs with
  | zero => omega
  | succ fuel ih =>
    have moved := stands.step inside
    have here : ¬ (sub subs c).end ≥ lastStart := by
      rw [stands.end_ inside]
      omega
    rw [pass, if_neg here]
    dsimp only
    rw [moved.1]
    by_cases out : (L c).after (p c) = NO_MORE
    · have still : (L c).after prevEnd = NO_MORE :=
        le_antisymm (L c).after_le_no_more (out ▸ (L c).after_mono behind)
      rw [if_pos out, still, ← out]
      exact ⟨by simp [out], moved.2⟩
    · rw [if_neg out]
      by_cases past : (L c).after (p c) > prevEnd
      · rw [if_pos past, (L c).after_eq behind past]
        exact ⟨by simp [out], moved.2⟩
      · rw [if_neg past]
        have size := (L c).later_after out
        have later := ih moved.2 (by rw [Function.update_self]; omega)
          (by rw [Function.update_self]; omega)
        rwa [Function.update_idem] at later

def Dead (n : Nat) (p : Nat → Int) (c : Nat) : Prop :=
  NO_MORE ≤ p c ∨ (c + 1 < n ∧ NO_MORE ≤ p (c + 1))

/-- Where the walks stand between two calls: those up to part `c` on the chain from `s`, and none
of the others past it. -/
structure Ready (n : Nat) (L : Nat → Places) (s : Int) (c : Nat) (p : Nat → Int) : Prop where
  inside : c < n
  chain : ∀ k, k ≤ c → p k = chain L k s
  behind : ∀ k, c < k → k < n → p k ≤ p c

/-- **The loop over the parts, where no stretch was found yet**: it goes through if the chain does
not run out. -/
theorem align_first (stands : Stands n L p subs) (ready : Ready n L s c p) (enough : n ≤ c + fuel)
    (any : 1 ≤ fuel) :
    ∃ stopped c' subs' p', align NO_MORE false fuel subs (c + 1) (p c) = (stopped, c', subs') ∧
      Stands n L p' subs' ∧
      (stopped = true ∧ NO_MORE ≤ chain L (n - 1) s ∧ (∃ c'', c' = c'' + 1 ∧ c'' < n ∧ Dead n p' c'') ∨
        stopped = false ∧ chain L (n - 1) s < NO_MORE ∧ ∀ k, k < n → p' k = chain L k s) := by
  induction fuel generalizing p subs c with
  | zero => omega
  | succ fuel ih =>
    have inside := ready.inside
    have here := ready.chain c (Nat.le_refl c)
    rw [align]
    by_cases out : p c ≥ NO_MORE
    · rw [if_pos out]
      refine ⟨true, c + 1, subs, p, rfl, stands, .inl ⟨rfl, ?_, c, rfl, inside, .inl out⟩⟩
      exact chain_no_more (here ▸ out) (by omega)
    · rw [if_neg out]
      by_cases last : c + 1 = subs.length
      · rw [if_pos last]
        rw [stands.size] at last
        have all : ∀ k, k < n → p k = chain L k s := fun k within => ready.chain k (by omega)
        refine ⟨false, c + 1, subs, p, rfl, stands, .inr ⟨rfl, ?_, all⟩⟩
        rw [← all (n - 1) (by omega), show n - 1 = c by omega]
        omega
      · rw [if_neg last]
        rw [stands.size] at last
        have next : c + 1 < n := by omega
        have passed := pass_spec stands next (ready.behind (c + 1) (Nat.lt_succ_self c) next)
          (not_le.mp out) (Nat.lt_succ_self _)
        rw [if_neg (by simp), stands.left next]
        dsimp only
        rw [passed.1]
        have value : (L (c + 1)).after (p c) = chain L (c + 1) s := by rw [here]; rfl
        by_cases ended : (L (c + 1)).after (p c) = NO_MORE
        · rw [decide_eq_true ended, if_pos rfl]
          refine ⟨true, c + 1, _, _, rfl, passed.2, .inl ⟨rfl, ?_, c, rfl, inside, .inr ⟨next, ?_⟩⟩⟩
          · exact chain_no_more (k := c + 1) (by rw [← value, ended]) (by omega)
          · rw [Function.update_self, ended]
        · rw [decide_eq_false ended, if_neg (by simp)]
          obtain ⟨p', moved, others, stands'⟩ : ∃ p', p' (c + 1) = (L (c + 1)).after (p c) ∧
              (∀ k, k ≠ c + 1 → p' k = p k) ∧ Stands n L p' (pass (c + 1) NO_MORE (p c)
                (((L (c + 1)).later (p (c + 1))).length + 1) subs).2 :=
            ⟨_, Function.update_self .., fun k other => Function.update_of_ne other .., passed.2⟩
          rw [stands'.end_ next]
          refine ih stands' ⟨next, ?_, ?_⟩ (by omega) (by omega)
          · intro k le
            by_cases same : k = c + 1
            · rw [same, moved, value]
            · rw [others k same]
              exact ready.chain k (by omega)
          · intro k after within
            rw [moved, others k (by omega)]
            exact le_of_lt (lt_of_le_of_lt (ready.behind k (by omega) within)
              ((L (c + 1)).lt_after (not_le.mp out)))

/-- **The loop over the parts, once a stretch was found** from `s`: it goes through if the chain
from `t` ends where the one from `s` does. -/
theorem align_again (stands : Stands n L p subs) (inside : c < n) (only : n = 1 ∨ c + 1 < n)
    (later : s < t) (short : chain L (n - 1) s < NO_MORE)
    (first : ∀ k, k ≤ c → p k = chain L k t) (others : ∀ k, c < k → k < n → p k = chain L k s)
    (last : lastStart = if n = 1 then t else chain L (n - 1) s) (enough : n ≤ c + fuel)
    (any : 1 ≤ fuel) :
    ∃ stopped c' subs' p', align lastStart true fuel subs (c + 1) (p c) = (stopped, c', subs') ∧
      Stands n L p' subs' ∧
      (stopped = true ∧ chain L (n - 1) s < chain L (n - 1) t ∧
          (∃ c'', c' = c'' + 1 ∧ Ready n L t c'' p') ∨
        stopped = true ∧ NO_MORE ≤ chain L (n - 1) t ∧
          (∃ c'', c' = c'' + 1 ∧ c'' < n ∧ Dead n p' c'') ∨
        stopped = false ∧ chain L (n - 1) t = chain L (n - 1) s ∧
          ∀ k, k < n → p' k = chain L k t) := by
  induction fuel generalizing p subs c with
  | zero => omega
  | succ fuel ih =>
    have here := first c (Nat.le_refl c)
    rw [align]
    by_cases met : p c ≥ lastStart
    · -- the chain from `t` has come to the last word's position, or past it
      rw [if_pos met]
      refine ⟨true, c + 1, subs, p, rfl, stands, .inl ⟨rfl, ?_, c, rfl, inside, first, ?_⟩⟩
      · by_cases one : n = 1
        · subst one
          exact later
        · rw [if_neg one] at last
          by_cases out : chain L c t < NO_MORE
          · have rises := chain_lt out (show c < n - 1 by omega)
            omega
          · have still := chain_no_more (not_lt.mp out) (show c ≤ n - 1 by omega)
            omega
      · intro k after within
        have one : n ≠ 1 := by omega
        rw [if_neg one] at last
        rw [others k after within]
        refine le_trans ?_ (last ▸ met)
        by_cases end_ : k = n - 1
        · rw [end_]
        · exact le_of_lt (chain_lt (chain_short short (by omega)) (by omega))
    · rw [if_neg met]
      have many : n ≠ 1 := by
        intro one
        rw [if_pos one] at last
        have zero : c = 0 := by omega
        subst zero
        rw [last, here] at met
        exact met (le_refl t)
      rw [if_neg many] at last
      have next : c + 1 < n := only.resolve_left many
      have start : (sub subs (c + 1)).start = chain L (c + 1) s := by
        rw [stands.start next, others (c + 1) (Nat.lt_succ_self c) next]
      rw [if_neg (by rw [stands.size]; omega)]
      by_cases meets : (sub subs (c + 1)).start > p c
      · -- the chain from `s` goes on from here
        rw [if_pos ⟨rfl, meets⟩]
        rw [start, here] at meets
        have same : chain L (c + 1) t = chain L (c + 1) s :=
          (L (c + 1)).after_eq (chain_mono (le_of_lt later)) meets
        refine ⟨false, c + 1, subs, p, rfl, stands, .inr (.inr ⟨rfl, ?_, fun k within => ?_⟩)⟩
        · exact chain_meet same (by omega)
        · by_cases before : k ≤ c
          · exact first k before
          · rw [others k (by omega) within]
            exact (chain_meet same (by omega)).symm
      · rw [if_neg (fun both => meets both.2)]
        rw [stands.start next] at meets
        have passed := pass_spec stands next (not_lt.mp meets) (not_le.mp met) (Nat.lt_succ_self _)
        rw [stands.left next]
        dsimp only
        rw [passed.1]
        have value : (L (c + 1)).after (p c) = chain L (c + 1) t := by rw [here]; rfl
        obtain ⟨p', moved, kept, stands'⟩ : ∃ p', p' (c + 1) = (L (c + 1)).after (p c) ∧
            (∀ k, k ≠ c + 1 → p' k = p k) ∧ Stands n L p' (pass (c + 1) lastStart (p c)
              (((L (c + 1)).later (p (c + 1))).length + 1) subs).2 :=
          ⟨_, Function.update_self .., fun k other => Function.update_of_ne other .., passed.2⟩
        by_cases ended : (L (c + 1)).after (p c) = NO_MORE
        · rw [decide_eq_true ended, if_pos rfl]
          refine ⟨true, c + 1, _, p', rfl, stands', .inr (.inl ⟨rfl, ?_, c, rfl, inside,
            .inr ⟨next, ?_⟩⟩)⟩
          · exact chain_no_more (k := c + 1) (by rw [← value, ended]) (by omega)
          · rw [moved, ended]
        · rw [decide_eq_false ended, if_neg (by simp), stands'.end_ next]
          refine ih stands' next (.inr ?_) ?_ ?_ (by omega) (by omega)
          · -- the last word is where the last stretch ends, so it is met before it is moved
            by_contra end_
            have final : c + 1 = n - 1 := by omega
            rw [← stands.start next, start, final] at meets
            omega
          · intro k le
            by_cases same : k = c + 1
            · rw [same, moved, value]
            · rw [kept k same]
              exact first k (by omega)
          · intro k after within
            rw [kept k (by omega)]
            exact others k (by omega) within

/-- What is left for the calls after a stretch from `m`. -/
def Next (n : Nat) (L : Nat → Places) (m : Int) (it : OrderedIt) : Prop :=
  ∃ c p, it.i = c + 1 ∧ c < n ∧ Stands n L p it.subs ∧
    (Ready n L ((L 0).after m) c p ∧ (L 0).after m ∈ (L 0).items ∨
      NO_MORE ≤ chain L (n - 1) ((L 0).after m) ∧ Dead n p c)

/-- A call that finds a stretch, with the end of the chain from `s`, as late as it can start. -/
def Found (n : Nat) (L : Nat → Places) (s : Int) (it : OrderedIt) : Prop :=
  ∃ m, s ≤ m ∧ m ∈ (L 0).items ∧ chain L (n - 1) m = chain L (n - 1) s ∧
    chain L (n - 1) s < chain L (n - 1) ((L 0).after m) ∧ it.start = m ∧
    it.end = chain L (n - 1) s ∧ Next n L m it

variable {it : OrderedIt} {minimizing : Bool}

theorem search_found {c' : Nat} {subs' : Subs} (some : 1 ≤ n) (start : s ∈ (L 0).items)
    (size : it.subs.length = n)
    (aligned : align lastStart minimizing (n + 1 - (c + 1)) it.subs (c + 1) (sub it.subs c).end =
      (false, c', subs'))
    (stands : Stands n L p subs') (all : ∀ k, k < n → p k = chain L k s)
    (short : chain L (n - 1) s < NO_MORE)
    (again : (L 0).after s ≠ NO_MORE → ∀ (it : OrderedIt) (p : Nat → Int),
      it.start = s → it.end = chain L (n - 1) s → Stands n L p it.subs → p 0 = (L 0).after s →
      (∀ k, 0 < k → k < n → p k = chain L k s) →
      Found n L s (search fuel it 1 (sub it.subs (n - 1)).start true)) :
    Found n L s (search (fuel + 1) it (c + 1) lastStart minimizing) := by
  have moved := stands.step some
  have here : (sub subs' 0).start = s := by rw [stands.start some, all 0 some]; rfl
  have inside := ((L 0).inside s start).2
  rw [search]
  dsimp only
  rw [size, Nat.add_sub_cancel c 1, aligned]
  dsimp only
  rw [if_neg (by simp), here, if_neg (by omega)]
  rw [moved.1, all 0 some, show chain L 0 s = s from rfl]
  have stepped := moved.2
  rw [all 0 some, show chain L 0 s = s from rfl] at stepped
  have end_ : (sub subs' (n - 1)).end = chain L (n - 1) s := by
    rw [stands.end_ (by omega), all (n - 1) (by omega)]
  by_cases out : (L 0).after s = NO_MORE
  · have gone : NO_MORE ≤ chain L (n - 1) ((L 0).after s) :=
      chain_no_more (k := 0) (le_of_eq out.symm) (Nat.zero_le _)
    rw [if_pos out]
    refine ⟨s, le_refl s, start, rfl, by omega, rfl, end_, 0, _, rfl, some, stepped,
      .inr ⟨gone, .inl ?_⟩⟩
    rw [Function.update_self, out]
  · rw [if_neg out]
    refine again out _ _ rfl end_ stepped (Function.update_self ..) fun k after within => ?_
    rw [Function.update_of_ne (by omega)]
    exact all k within

/-- **The rounds after the first** move the start on as long as the end stays. -/
theorem search_again (some : 1 ≤ n) (start : s ∈ (L 0).items)
    (short : chain L (n - 1) s < NO_MORE) (more : (L 0).after s ≠ NO_MORE)
    (from_ : it.start = s) (to_ : it.end = chain L (n - 1) s) (stands : Stands n L p it.subs)
    (first : p 0 = (L 0).after s) (others : ∀ k, 0 < k → k < n → p k = chain L k s)
    (enough : ((L 0).later s).length ≤ fuel) :
    Found n L s (search fuel it 1 (sub it.subs (n - 1)).start true) := by
  induction fuel generalizing s it p with
  | zero =>
    have left := (L 0).later_after more
    omega
  | succ fuel ih =>
    have later : s < (L 0).after s := (L 0).lt_after ((L 0).inside s start).2
    have last : (sub it.subs (n - 1)).start =
        if n = 1 then (L 0).after s else chain L (n - 1) s := by
      rw [stands.start (by omega)]
      by_cases one : n = 1
      · rw [if_pos one, one]
        exact first
      · rw [if_neg one]
        exact others (n - 1) (by omega) (by omega)
    have chained : ∀ k, k ≤ 0 → p k = chain L k ((L 0).after s) := by
      intro k zero
      rw [Nat.le_zero.mp zero]
      exact first
    have aligned := align_again stands some (by omega) later short chained others last
      (show n ≤ 0 + (n + 1 - (0 + 1)) by omega) (by omega)
    rw [← stands.end_ some] at aligned
    obtain ⟨stopped, c', subs', p', aligned, stands', cases_⟩ := aligned
    have start' := (L 0).after_mem more
    rcases cases_ with ⟨yes, ends, c, same, ready⟩ | ⟨yes, ends, c, same, within, dead⟩ |
      ⟨no, ends, all⟩
    · rw [search]
      dsimp only
      rw [stands.size, show 1 - 1 = 0 from rfl, show (1 : Nat) = 0 + 1 from rfl, aligned, yes]
      exact ⟨s, le_refl s, start, rfl, ends, from_, to_, c, p', same, ready.inside, stands',
        .inl ⟨ready, start'⟩⟩
    · rw [search]
      dsimp only
      rw [stands.size, show 1 - 1 = 0 from rfl, show (1 : Nat) = 0 + 1 from rfl, aligned, yes]
      exact ⟨s, le_refl s, start, rfl, by omega, from_, to_, c, p', same, within, stands',
        .inr ⟨ends, dead⟩⟩
    · rw [no] at aligned
      have size := (L 0).later_after more
      obtain ⟨m, le, mem, same, rest⟩ := search_found some start' stands.size aligned stands' all
        (ends ▸ short) fun more' it p from_ to_ stands first others =>
          ih start' (ends ▸ short) more' from_ to_ stands first others (by omega)
      rw [ends] at same rest
      exact ⟨m, le_trans (le_of_lt later) le, mem, same, rest⟩

/-- There is no more. -/
theorem next_dead (inside : c < n) (stands : Stands n L p it.subs) (at_ : it.i = c + 1)
    (dead : Dead n p c) : (nextInterval it).1 = NO_MORE := by
  have stopped : (align NO_MORE false (it.subs.length + 1 - (c + 1)) it.subs (c + 1)
      (sub it.subs c).end).1 = true := by
    rw [stands.size, stands.end_ inside, show n + 1 - (c + 1) = (n - (c + 1)) + 1 by omega, align]
    cases dead with
    | inl out => rw [if_pos out]
    | inr out =>
      by_cases here : p c ≥ NO_MORE
      · rw [if_pos here]
      · rw [if_neg here, if_neg (by rw [stands.size]; omega), if_neg (by simp), pass,
          if_pos (by rw [stands.end_ out.1]; exact out.2)]
        rfl
  simp only [nextInterval, search, at_, Nat.add_sub_cancel, stopped, if_true]

/-- **A call**: it finds the stretch that ends where the chain does, if the chain does not run
out. -/
theorem next_ready (some : 1 ≤ n) (stands : Stands n L p it.subs) (at_ : it.i = c + 1)
    (ready : Ready n L s c p) (start : s ∈ (L 0).items) :
    (NO_MORE ≤ chain L (n - 1) s ∧ (nextInterval it).1 = NO_MORE) ∨
      (chain L (n - 1) s < NO_MORE ∧ Found n L s (nextInterval it).2) := by
  obtain ⟨stopped, c', subs', p', aligned, stands', cases_⟩ :=
    align_first stands ready (show n ≤ c + (n + 1 - (c + 1)) by omega)
      (by have := ready.inside; omega)
  rw [← stands.end_ ready.inside] at aligned
  rcases cases_ with ⟨yes, ends, -⟩ | ⟨no, ends, all⟩
  · left
    refine ⟨ends, ?_⟩
    simp only [nextInterval, search, at_, Nat.add_sub_cancel, stands.size, aligned, yes, if_true]
  · right
    refine ⟨ends, ?_⟩
    rw [no] at aligned
    have first : p 0 = s := ready.chain 0 (Nat.zero_le c)
    have size := stands.left some
    rw [first] at size
    show Found n L s (search (left it.subs 0 + 1 + 1)
      { it with start := NO_MORE, «end» := NO_MORE, slop := NO_MORE } it.i NO_MORE false)
    rw [at_]
    exact search_found some start stands.size aligned stands' all ends
      fun more it p from_ to_ stands first others =>
        search_again some start ends more from_ to_ stands first others (by omega)

/-- **Every run** returns just the shortest stretches. -/
theorem enumerates (some : 1 ≤ n) {m : Int} (next : Next n L m it) :
    Enumerates (InOrder n L) m it := by
  obtain ⟨gap, bound⟩ : ∃ gap, (NO_MORE - m).toNat = gap := ⟨_, rfl⟩
  induction gap using Nat.strongRecOn generalizing m it with
  | ind gap ih =>
    have none : NO_MORE ≤ chain L (n - 1) ((L 0).after m) →
        ∀ x, Tight (InOrder n L) x → ¬ m < x.start := by
      intro out x tight after
      have parts := (tight_inOrder some).mp tight
      have le : chain L (n - 1) ((L 0).after m) ≤ chain L (n - 1) x.start :=
        chain_mono ((L 0).after_le parts.1 after)
      omega
    obtain ⟨c, p, at_, inside, stands, cases_⟩ := next
    cases cases_ with
    | inr dead => exact .done (next_dead inside stands at_ dead.2) (none dead.1)
    | inl ready =>
      rcases next_ready some stands at_ ready.1 ready.2 with ⟨out, ended⟩ | ⟨short, found⟩
      · exact .done ended (none out)
      · obtain ⟨m', le, mem, same, later, start, end_, next'⟩ := found
        have after : m < m' := by
          have risen := (L 0).lt_after (p := m) (by
            have range := ((L 0).inside _ ready.2)
            cases (L 0).after_cases (p := m) with
            | inl none => omega
            | inr some => omega)
          omega
        have range := (L 0).inside m' mem
        refine .more ⟨m', chain L (n - 1) ((L 0).after m)⟩ (nextInterval it).2 ?_ ?_ start end_ ?_
          after ?_ (ih _ ?_ next' rfl)
        · rw [← start]
          rfl
        · exact ne_of_lt range.2
        · exact (tight_inOrder some).mpr ⟨mem, same.symm, short, later⟩
        · intro y tight start
          have parts := (tight_inOrder some).mp tight
          by_cases same_ : y.start = m'
          · left
            cases y with
            | mk s e =>
              have here : s = m' := same_
              have end_ : e = chain L (n - 1) s := parts.2.1
              rw [end_, here, same]
          · right
            by_contra before
            -- an earlier start goes on to one that ends at the same place
            have least := (L 0).after_le parts.1 start
            have next : (L 0).after y.start ≤ m' := (L 0).after_le mem (by
              show y.start < m'
              have : y.start ≤ m' := not_lt.mp before
              omega)
            have low : chain L (n - 1) ((L 0).after m) ≤ chain L (n - 1) y.start := chain_mono least
            have high : chain L (n - 1) ((L 0).after y.start) ≤ chain L (n - 1) m' := chain_mono next
            have more := parts.2.2.2
            have end_ := parts.2.1
            omega
        · show (NO_MORE - m').toNat < gap
          omega

theorem iterator_next (first : Places) (others : List Places) :
    Next (first :: others).length ((first :: others).getD · default) (-1)
      (iterator ((first :: others).map Places.items)) := by
  have stepped := (Stands.iterators (first :: others)).step (k := 0) (Nat.succ_pos _)
  refine ⟨0, _, rfl, Nat.succ_pos _, stepped.2, ?_⟩
  by_cases out : ((first :: others).getD 0 default).after (-1) = NO_MORE
  · right
    refine ⟨chain_no_more (k := 0) (le_of_eq out.symm) (Nat.zero_le _), .inl ?_⟩
    rw [Function.update_self, out]
  · left
    have mem := ((first :: others).getD 0 default).after_mem out
    have range := ((first :: others).getD 0 default).inside _ mem
    refine ⟨⟨Nat.succ_pos _, ?_, ?_⟩, mem⟩
    · intro k zero
      rw [Nat.le_zero.mp zero, Function.update_self]
      rfl
    · intro k after within
      rw [Function.update_self, Function.update_of_ne (by omega)]
      omega

end OrderedIt

end Velosearch.Query

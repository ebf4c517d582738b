import Mathlib.Logic.Function.Basic
import Mathlib.Data.Nat.Notation

/-!
# Programs that may stop anywhere

A program is made of acts on a state that outlives the process. An act runs whole, or the
process stops inside it and leaves one of the states it says it may leave. `Triple` is a
precondition, a postcondition and a crash condition, and `Recovered` a program started over and
over until it is let finish.
-/

namespace Crash

variable {σ ι : Type}

/-- One act: what it does, and what a stop inside it may leave. -/
structure Act (σ : Type) where
  run : σ → σ
  stops : σ → σ → Prop

/-- An act that cannot be cut in two. -/
def Act.atomic (run : σ → σ) : Act σ :=
  { run, stops := fun _ _ => False }

/-- Acts one after another, with looks at the state in between. -/
inductive Prog (σ : Type) where
  | skip
  | act (a : Act σ)
  | seq (p q : Prog σ)
  | look (k : σ → Prog σ)

namespace Prog

/-- The program to its end. -/
def run : Prog σ → σ → σ
  | skip, s => s
  | act a, s => a.run s
  | seq p q, s => q.run (p.run s)
  | look k, s => (k s).run s

/-- The states a crash may leave. -/
def Halts : Prog σ → σ → σ → Prop
  | skip, s, s' => s' = s
  | act a, s, s' => s' = s ∨ s' = a.run s ∨ a.stops s s'
  | seq p q, s, s' => p.Halts s s' ∨ q.Halts (p.run s) s'
  | look k, s, s' => (k s).Halts s s'

/-- Acts one after another. -/
def acts : List (Act σ) → Prog σ
  | [] => skip
  | a :: rest => seq (act a) (acts rest)

/-- The body for each of some items. -/
def forEach (body : ι → Prog σ) : List ι → Prog σ
  | [] => skip
  | x :: rest => seq (body x) (forEach body rest)

/-- A program on one of many states. -/
def at_ [DecidableEq ι] (n : ι) : Prog σ → Prog (ι → σ)
  | skip => skip
  | act a => act {
      run := fun f => Function.update f n (a.run (f n))
      stops := fun f f' => ∃ c, a.stops (f n) c ∧ f' = Function.update f n c }
  | seq p q => seq (at_ n p) (at_ n q)
  | look k => look fun f => at_ n (k (f n))

/-- A crash may come before anything is done. -/
theorem halts_start (p : Prog σ) (s : σ) : p.Halts s s := by
  induction p generalizing s with
  | skip => rfl
  | act a => exact .inl rfl
  | seq p q ihp _ => exact .inl (ihp s)
  | look k ih => exact ih s s

/-- Acts in two parts. -/
theorem run_acts_append (l l' : List (Act σ)) (s : σ) :
    (acts (l ++ l')).run s = (acts l').run ((acts l).run s) := by
  induction l generalizing s with
  | nil => rfl
  | cons a l ih => exact ih (a.run s)

/-- A crash comes in the first part, or in the second. -/
theorem halts_acts_append {l l' : List (Act σ)} {s s' : σ} (h : (acts (l ++ l')).Halts s s') :
    (acts l).Halts s s' ∨ (acts l').Halts ((acts l).run s) s' := by
  induction l generalizing s with
  | nil => exact .inr h
  | cons a l ih =>
    rcases h with first | rest
    · exact .inl (.inl first)
    · rcases ih rest with before | after
      · exact .inl (.inr before)
      · exact .inr after

theorem halts_take_run (l : List (Act σ)) (n : ℕ) (s : σ) :
    (acts l).Halts s ((acts (l.take n)).run s) := by
  induction l generalizing n s with
  | nil =>
    rw [List.take_nil]
    exact halts_start _ s
  | cons a l ih =>
    cases n with
    | zero => exact halts_start _ s
    | succ n => exact .inr (ih n (a.run s))

theorem halts_of_take {l : List (Act σ)} {n : ℕ} {s s' : σ}
    (h : (acts (l.take n)).Halts s s') : (acts l).Halts s s' := by
  induction l generalizing n s with
  | nil =>
    rw [List.take_nil] at h
    exact h
  | cons a l ih =>
    cases n with
    | zero =>
      cases h
      exact halts_start _ _
    | succ n =>
      rcases h with first | rest
      · exact .inl first
      · exact .inr (ih rest)

end Prog

/-! ## Triples -/

/-- From `P` the program ends in `Q`, and stopped anywhere it leaves `C`. -/
structure Triple (P : σ → Prop) (p : Prog σ) (Q C : σ → Prop) : Prop where
  done : ∀ s, P s → Q (p.run s)
  halt : ∀ s s', P s → p.Halts s s' → C s'

namespace Triple

variable {P Q R C : σ → Prop} {p q : Prog σ}

theorem skip (post : ∀ s, P s → Q s) (crash : ∀ s, P s → C s) : Triple P .skip Q C where
  done := post
  halt := by
    intro s s' pre halts
    cases halts
    exact crash s pre

theorem act {a : Act σ} (post : ∀ s, P s → Q (a.run s)) (before : ∀ s, P s → C s)
    (after : ∀ s, Q s → C s) (inside : ∀ s s', P s → a.stops s s' → C s') :
    Triple P (.act a) Q C where
  done := post
  halt := by
    intro s s' pre halts
    rcases halts with rfl | rfl | stopped
    · exact before _ pre
    · exact after _ (post s pre)
    · exact inside s s' pre stopped

theorem atomic {f : σ → σ} (post : ∀ s, P s → Q (f s)) (before : ∀ s, P s → C s)
    (after : ∀ s, Q s → C s) : Triple P (.act (.atomic f)) Q C :=
  act post before after fun _ _ _ stopped => stopped.elim

/-- One program after another: what the first ensures the second needs. -/
theorem seq (first : Triple P p Q C) (second : Triple Q q R C) : Triple P (.seq p q) R C where
  done s pre := second.done _ (first.done s pre)
  halt := by
    intro s s' pre halts
    rcases halts with inFirst | inSecond
    · exact first.halt s s' pre inFirst
    · exact second.halt _ s' (first.done s pre) inSecond

/-- A program that looks at the state, and goes on as that is. -/
theorem look {k : σ → Prog σ} (each : ∀ s, P s → Triple (fun t => t = s) (k s) Q C) :
    Triple P (.look k) Q C where
  done s pre := (each s pre).done s rfl
  halt s s' pre halts := (each s pre).halt s s' rfl halts

/-- The rule of consequence. -/
theorem weaken {P' Q' C' : σ → Prop} (h : Triple P p Q C) (pre : ∀ s, P' s → P s)
    (post : ∀ s, Q s → Q' s) (crash : ∀ s, C s → C' s) : Triple P' p Q' C' where
  done s held := post _ (h.done s (pre s held))
  halt s s' held halts := crash s' (h.halt s s' (pre s held) halts)

theorem acts_append {l l' : List (Act σ)} (first : Triple P (.acts l) Q C)
    (second : Triple Q (.acts l') R C) : Triple P (.acts (l ++ l')) R C where
  done := by
    intro s pre
    rw [Prog.run_acts_append]
    exact second.done _ (first.done s pre)
  halt := by
    intro s s' pre halts
    rcases Prog.halts_acts_append halts with inFirst | inSecond
    · exact first.halt s s' pre inFirst
    · exact second.halt _ s' (first.done s pre) inSecond

theorem take {l : List (Act σ)} (h : Triple P (.acts l) Q C) (n : ℕ) :
    Triple P (.acts (l.take n)) C C where
  done s pre := h.halt s _ pre (Prog.halts_take_run l n s)
  halt s s' pre halts := h.halt s s' pre (Prog.halts_of_take halts)

/-- A loop, with an invariant over what is left to do. -/
theorem forEach {body : ι → Prog σ} {I : List ι → σ → Prop}
    (crash : ∀ l s, I l s → C s) :
    ∀ l, (∀ x rest, (x :: rest) <:+ l → Triple (I (x :: rest)) (body x) (I rest) C) →
      Triple (I l) (.forEach body l) (I []) C
  | [], _ => skip (fun _ pre => pre) (crash [])
  | x :: rest, each => by
    refine seq (each x rest (List.suffix_refl _)) (forEach crash rest ?_)
    intro y more suffix
    exact each y more (suffix.trans (List.suffix_cons x rest))

end Triple

/-! ## One state of many -/

section At

variable [DecidableEq ι] {n : ι}

@[simp] theorem run_at (p : Prog σ) (f : ι → σ) :
    (p.at_ n).run f = Function.update f n (p.run (f n)) := by
  induction p generalizing f with
  | skip => exact (Function.update_eq_self n f).symm
  | act a => rfl
  | seq p q ihp ihq =>
    simp only [Prog.at_, Prog.run, ihp, ihq, Function.update_self, Function.update_idem]
  | look k ih => exact ih (f n) f

/-- A crash on one of many states leaves the others alone. -/
theorem halts_at {p : Prog σ} {f f' : ι → σ} (h : (p.at_ n).Halts f f') :
    ∃ c, p.Halts (f n) c ∧ f' = Function.update f n c := by
  induction p generalizing f with
  | skip => exact ⟨f n, rfl, h.trans (Function.update_eq_self n f).symm⟩
  | act a =>
    rcases h with rfl | rfl | ⟨c, stopped, rfl⟩
    · exact ⟨f' n, .inl rfl, (Function.update_eq_self n f').symm⟩
    · exact ⟨_, .inr (.inl rfl), rfl⟩
    · exact ⟨c, .inr (.inr stopped), rfl⟩
  | seq p q ihp ihq =>
    rcases h with first | second
    · obtain ⟨c, halts, rfl⟩ := ihp first
      exact ⟨c, .inl halts, rfl⟩
    · obtain ⟨c, halts, rfl⟩ := ihq second
      simp only [run_at, Function.update_self] at halts
      exact ⟨c, .inr halts, by rw [run_at, Function.update_idem]⟩
  | look k ih => exact ih (f n) h

/-- Something of every one of them. -/
def Each (I : ι → σ → Prop) (f : ι → σ) : Prop :=
  ∀ n, I n (f n)

theorem Each.update {I J : ι → σ → Prop} {f : ι → σ} (h : Each I f) {c : σ} (here : J n c)
    (others : ∀ m, m ≠ n → ∀ c, I m c → J m c) : Each J (Function.update f n c) := by
  intro m
  by_cases same : m = n
  · subst same
    rwa [Function.update_self]
  · rw [Function.update_of_ne same]
    exact others m same _ (h m)

/-- What holds on one holds on it among many. -/
theorem Triple.at_ {I J C : ι → σ → Prop} {p : Prog σ} (h : Triple (I n) p (J n) (C n))
    (others : ∀ m, m ≠ n → ∀ c, I m c → J m c) (crash : ∀ m, m ≠ n → ∀ c, I m c → C m c) :
    Triple (Each I) (p.at_ n) (Each J) (Each C) where
  done := by
    intro f each
    rw [run_at]
    exact each.update (h.done _ (each n)) others
  halt := by
    intro f f' each halts
    obtain ⟨c, stopped, rfl⟩ := halts_at halts
    exact each.update (h.halt _ _ (each n) stopped) crash

end At

/-! ## Recovery -/

/-- A recovery begun again after every stop, until one runs to its end. -/
inductive Recovered (starts : σ → Prog σ → Prop) : σ → σ → Prop
  | done {s : σ} {p : Prog σ} : starts s p → Recovered starts s (p.run s)
  | again {s s' s'' : σ} {p : Prog σ} : starts s p → p.Halts s s' → Recovered starts s' s'' →
      Recovered starts s s''

/-- A recovery that may crash ends, given that each of its tries keeps what the next one needs. -/
theorem Recovered.ends {starts : σ → Prog σ → Prop} {C Q : σ → Prop}
    (each : ∀ s p, starts s p → C s → Triple (fun t => t = s) p Q C) {s s' : σ} (begun : C s)
    (h : Recovered starts s s') : Q s' := by
  induction h with
  | done start => exact (each _ _ start begun).done _ rfl
  | again start halts _ ih => exact ih ((each _ _ start begun).halt _ _ rfl halts)

end Crash

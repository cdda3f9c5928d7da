import Mathlib

/-!
# Runs of a partial step function

A system is a predicate for its initial states and a step function that returns
`none` where an action is not possible. `Reaches` collects the states of the
runs whose steps all meet a condition on the state before the step.
-/
namespace Transition

variable {σ α : Type}

/-- States that a run from an initial state reaches, each step meeting `ok`. -/
inductive Reaches (init : σ → Prop) (step : σ → α → Option σ) (ok : σ → α → Prop) : σ → Prop where
  | start {s : σ} (h : init s) : Reaches init step ok s
  | next {s t : σ} {a : α} (hs : Reaches init step ok s) (ha : ok s a) (h : step s a = some t) :
    Reaches init step ok t

/-- The condition that every step meets. -/
def anyStep : σ → α → Prop := fun _ _ => True

instance (s : σ) (a : α) : Decidable (anyStep s a) := .isTrue trivial

/-- What holds initially and is kept by every admitted step holds of every reached state. -/
theorem Reaches.invariant {init : σ → Prop} {step : σ → α → Option σ} {ok : σ → α → Prop}
    {I : σ → Prop} (h₀ : ∀ s, init s → I s)
    (hstep : ∀ s a t, Reaches init step ok s → I s → ok s a → step s a = some t → I t)
    {s : σ} (h : Reaches init step ok s) : I s := by
  induction h with
  | start h => exact h₀ _ h
  | next hs ha h ih => exact hstep _ _ _ hs ih ha h

/-- A weaker condition on the steps reaches at least as many states. -/
theorem Reaches.weaken {init : σ → Prop} {step : σ → α → Option σ} {ok ok' : σ → α → Prop}
    (hok : ∀ s a, ok s a → ok' s a) {s : σ} (h : Reaches init step ok s) : Reaches init step ok' s := by
  induction h with
  | start h => exact .start h
  | next _ ha h ih => exact .next ih (hok _ _ ha) h

/-- Run a list of actions, stopping where one is not possible or does not meet `ok`. -/
def run (step : σ → α → Option σ) (ok : σ → α → Prop) [∀ s a, Decidable (ok s a)] :
    List α → σ → Option σ
  | [], s => some s
  | a :: rest, s => if ok s a then (step s a).bind (run step ok rest) else none

theorem run_cons_eq_some {step : σ → α → Option σ} {ok : σ → α → Prop} [∀ s a, Decidable (ok s a)] {a : α}
    {rest : List α} {s t : σ} : run step ok (a :: rest) s = some t ↔
      ok s a ∧ ∃ u, step s a = some u ∧ run step ok rest u = some t := by
  simp only [run, Option.ite_none_right_eq_some, Option.bind_eq_some_iff]

/-- The end of an executable run is a reached state. -/
theorem Reaches.run {init : σ → Prop} {step : σ → α → Option σ} {ok : σ → α → Prop}
    [∀ s a, Decidable (ok s a)] (actions : List α) {s t : σ} (hs : Reaches init step ok s)
    (h : Transition.run step ok actions s = some t) : Reaches init step ok t := by
  induction actions generalizing s with
  | nil =>
    simp only [Transition.run, Option.some.injEq] at h
    exact h ▸ hs
  | cons a rest ih =>
    simp only [Transition.run] at h
    split at h
    · rename_i ha
      obtain ⟨u, hu, ht⟩ := Option.bind_eq_some_iff.mp h
      exact ih (.next hs ha hu) ht
    · cases h

/-- The state where an executable run ends. -/
theorem Reaches.run_get {init : σ → Prop} {step : σ → α → Option σ} {ok : σ → α → Prop}
    [∀ s a, Decidable (ok s a)] {actions : List α} {s : σ} (hs : init s)
    (h : (Transition.run step ok actions s).isSome) :
    Reaches init step ok ((Transition.run step ok actions s).get h) :=
  (Reaches.start hs).run actions (Option.some_get h).symm

/-- Whatever admitted steps are made next, the system comes to `P`. -/
inductive Inevitable (step : σ → α → Option σ) (ok : σ → α → Prop) (P : σ → Prop) : σ → Prop where
  | here {s : σ} (h : P s) : Inevitable step ok P s
  | later {s : σ} (hsome : ∃ a t, ok s a ∧ step s a = some t)
      (hall : ∀ a t, ok s a → step s a = some t → Inevitable step ok P t) : Inevitable step ok P s

/-- Where an invariant leaves a step to make until `P` holds, and every step lowers a measure. -/
theorem Inevitable.of_measure {step : σ → α → Option σ} {ok : σ → α → Prop} {P I : σ → Prop} (left : σ → Nat)
    (hsome : ∀ s, I s → ¬ P s → ∃ a t, ok s a ∧ step s a = some t)
    (hall : ∀ s a t, I s → ¬ P s → ok s a → step s a = some t → I t ∧ left t < left s)
    {s : σ} (h : I s) : Inevitable step ok P s := by
  induction hn : left s using Nat.strong_induction_on generalizing s with
  | _ n ih =>
    subst hn
    by_cases hP : P s
    · exact .here hP
    · refine .later (hsome s h hP) fun a t hok hs => ?_
      obtain ⟨ht, hlt⟩ := hall s a t h hP hok hs
      exact ih (left t) hlt ht rfl

end Transition

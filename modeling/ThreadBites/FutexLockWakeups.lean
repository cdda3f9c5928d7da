import ThreadBites.FutexLock

/-!
# No lost wakeup in the low-level lock

A release wakes one sleeper, and a newcomer may take the word before that
sleeper retries. Whoever finds the word taken is awake until it is taken again,
and whoever frees it is awake until it woke somebody.
-/
namespace ThreadBites.FutexLock

open Transition WaitQueue

variable {τ : Type}

/-- About to wake a sleeper, or on the way back to the compare-and-swap. -/
def attends (c : Pc) : Bool := c = .futexWake || contends c

structure Inv (s : State τ) : Prop where
  word : s.futex = 1 ∧ (∃ t, s.holds t = true) ∨ s.futex = 0 ∧ ∀ t, s.holds t = false
  one : ∀ t u, s.holds t = true → s.holds u = true → t = u
  unlocking : ∀ t, s.pc t = .unlockCas → s.holds t = true
  attended : s.futex = 0 → (∃ t, asleep (s.pc t) = true) → ∃ t, attends (s.pc t) = true

theorem inv_start : Inv (State.start : State τ) where
  word := .inr ⟨rfl, fun _ => rfl⟩
  one := by simp [State.start]
  unlocking := by simp [State.start]
  attended := by simp [State.start, asleep]

theorem Inv.word_of_holds {s : State τ} (h : Inv s) {t : τ} (ht : s.holds t = true) : s.futex = 1 := by
  rcases h.word with ⟨hw, -⟩ | ⟨-, hn⟩
  · exact hw
  · rw [hn t] at ht; cases ht

theorem Inv.free {s : State τ} (h : Inv s) (hw : s.futex = 0) (t : τ) : s.holds t = false := by
  by_contra ht
  have := h.word_of_holds (by simpa using ht)
  omega

theorem Inv.word_iff {s : State τ} (h : Inv s) : s.futex = 1 ↔ ∃ t, s.holds t = true :=
  ⟨fun hw => by
    rcases h.word with ⟨-, ht⟩ | ⟨hz, -⟩
    · exact ht
    · omega, fun ⟨_, ht⟩ => h.word_of_holds ht⟩

/-- While a thread sleeps on the free word, somebody is about to wake a sleeper, or is on its
way back to the compare-and-swap. -/
theorem Inv.noLostWakeup {s : State τ} (h : Inv s) (hw : s.futex = 0) (hs : ∃ t, s.pc t = .asleep) :
    (∃ t, s.pc t = .futexWake) ∨ ∃ t, contends (s.pc t) = true := by
  obtain ⟨u, hu⟩ := hs
  obtain ⟨v, hv⟩ := h.attended hw ⟨u, by rw [hu]; rfl⟩
  simp only [attends, Bool.or_eq_true, decide_eq_true_eq] at hv
  exact hv.imp (fun hv => ⟨v, hv⟩) (fun hv => ⟨v, hv⟩)

variable [DecidableEq τ]

/-- Moving one thread, which does not sleep on a free word nor turn its back on a sleeper. -/
theorem Inv.goto {s : State τ} (h : Inv s) {t : τ} {c : Pc} (hu : c = .unlockCas → s.holds t = true)
    (ha : s.futex = 0 → asleep c = false ∧ (attends (s.pc t) = true → attends c = true)) :
    Inv (s.goto t c) where
  word := h.word
  one := h.one
  unlocking := by
    intro u hpc
    by_cases he : u = t
    · subst u; exact hu (by simpa [State.goto] using hpc)
    · exact h.unlocking u (by simpa [State.goto, he] using hpc)
  attended := by
    rintro hw ⟨u, hs⟩
    obtain ⟨hc, hk⟩ := ha hw
    have hut : u ≠ t := by
      rintro rfl
      simp [State.goto, hc] at hs
    obtain ⟨v, hv⟩ := h.attended hw ⟨u, by simpa [State.goto, hut] using hs⟩
    by_cases he : v = t
    · subst v; exact ⟨t, by simpa [State.goto] using hk hv⟩
    · exact ⟨v, by simpa [State.goto, he] using hv⟩

/-- A thread that swaps in 1 is the only holder, and nobody needs to attend to the sleepers. -/
theorem Inv.acquired {s : State τ} (h : Inv s) {t : τ} (hw : s.futex = 0) :
    Inv ((s.swap t 1 true).goto t (.out 0)) where
  word := .inl ⟨rfl, t, by simp [State.goto, State.swap]⟩
  one := by
    have only : ∀ u, (s.swap t 1 true).holds u = true → u = t := by
      intro u hu
      by_contra he
      simp [State.swap, he, h.free hw u] at hu
    intro u v hu hv
    rw [only u hu, only v hv]
  unlocking := by
    intro u hpc
    by_cases he : u = t
    · subst u; simp [State.goto] at hpc
    · have hu := h.unlocking u (by simpa [State.goto, State.swap, he] using hpc)
      rw [h.free hw u] at hu
      cases hu
  attended := fun hz => absurd hz (by simp [State.goto, State.swap])

/-- The holder that swaps in 0 is about to wake a sleeper. -/
theorem Inv.released {s : State τ} (h : Inv s) {t : τ} (ht : s.holds t = true) :
    Inv ((s.swap t 0 false).goto t .futexWake) := by
  have free : ∀ u, (s.swap t 0 false).holds u = false := by
    intro u
    by_cases he : u = t
    · subst u; simp [State.swap]
    · by_contra hu
      exact he (h.one u t (by simpa [State.swap, he] using hu) ht)
  refine ⟨.inr ⟨rfl, free⟩, ?_, ?_, ?_⟩
  · intro u v hu
    rw [show ((s.swap t 0 false).goto t .futexWake).holds u = false from free u] at hu
    cases hu
  · intro u hpc
    by_cases he : u = t
    · subst u; simp [State.goto] at hpc
    · have hu := h.unlocking u (by simpa [State.goto, State.swap, he] using hpc)
      exact absurd (h.one u t hu ht) he
  · exact fun _ _ => ⟨t, by simp [State.goto, attends]⟩

variable [Fintype τ]

/-- A wake leaves some thread on its way back if it leaves another asleep. -/
theorem Inv.woke {s : State τ} (h : Inv s) {t : τ} {woken : Option τ} {pc : τ → Pc}
    (hwake : wakeOne asleep (fun _ => .lockCas) (s.goto t (.out 0)).pc woken = some pc) :
    Inv { s with pc := pc } where
  word := h.word
  one := h.one
  unlocking := by
    intro u hpc
    have hpc : pc u = .unlockCas := hpc
    rcases wakeOne_woken hwake u with he | ⟨-, he⟩
    · by_cases hut : u = t
      · subst u; simp [he, State.goto] at hpc
      · exact h.unlocking u (by simpa [he, State.goto, hut] using hpc)
    · simp [he] at hpc
  attended := by
    rintro - ⟨u, hs⟩
    have hs : asleep (pc u) = true := hs
    have hb : asleep ((s.goto t (.out 0)).pc u) = true := by
      rcases wakeOne_woken hwake u with he | ⟨hb, -⟩
      · rwa [he] at hs
      · exact hb
    obtain ⟨v, -, he⟩ := wakeOne_finds hwake ⟨u, hb⟩
    exact ⟨v, by simp [he, attends, contends]⟩

/-- One step keeps the invariant, if only a holder unlocks. -/
theorem inv_step {s s' : State τ} {a : Action τ} (h : Inv s) (ha : HolderUnlocks s a)
    (hs : Stepped s a s') : Inv s' := by
  cases hs with
  | @call t f r hpc =>
    refine h.goto ?_ (fun _ => ⟨by cases f <;> rfl, by simp [hpc, attends, contends]⟩)
    cases f with
    | unlock => exact fun _ => ha
    | _ => simp [Call.entry]
  | locked hpc hw => exact h.acquired hw
  | lockFailed hpc hw => exact h.goto (by simp) (fun hz => absurd hz hw)
  | slept hpc hw => exact h.goto (by simp) (fun hz => by omega)
  | missed hpc hw => exact h.goto (by simp) (by simp [asleep, attends, contends])
  | interrupted hpc => exact h.goto (by simp) (by simp [asleep, attends, contends])
  | trylocked hpc hw => exact h.acquired hw
  | tryFailed hpc hw => exact h.goto (by simp) (fun hz => absurd hz hw)
  | @unlocked t hpc hw => exact h.released (h.unlocking t hpc)
  | @unlockFailed t hpc hw => exact absurd (h.word_of_holds (h.unlocking t hpc)) hw
  | woke hpc hwake => exact h.woke hwake

theorem reaches_inv {s : State τ} (h : Reaches Initial step HolderUnlocks s) : Inv s :=
  h.invariant (fun _ h₀ => h₀ ▸ inv_start) fun _ _ _ _ hi ha hs => inv_step hi ha (step_stepped hs)

end ThreadBites.FutexLock

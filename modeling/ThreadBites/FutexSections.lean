import ThreadBites.FutexLockWakeups
import ThreadBites.AtomicSections

/-!
# Sections under the low-level lock

`tb_futex_lock` and `tb_futex_unlock`, step by step, as a lock that sections can
be under: between its return from the one and its call of the other, a thread is
the only one.
-/
namespace ThreadBites.FutexLock

open Transition WaitQueue CriticalSections

variable {τ : Type}

/-- Where a thread is that calls `tb_futex_lock` and `tb_futex_unlock` only. -/
def phase (s : State τ) (t : τ) : Phase :=
  match s.pc t with
  | .out _ => if s.holds t then .held else .free
  | .unlockCas | .futexWake => .releasing
  | _ => .acquiring

/-- The thread that makes a step. -/
def Action.mover : Action τ → τ
  | .call t _ | .lockCas t | .futexWait t | .interrupt t | .trylockCas t | .unlockCas t | .futexWake t _ => t

/-- Nobody tries, and who wakes a sleeper gave up the lock. -/
structure Paired (s : State τ) : Prop where
  inv : Inv s
  locks : ∀ t, s.pc t ≠ .trylockCas
  woke : ∀ t, s.pc t = .futexWake → s.holds t = false

theorem paired_start : Paired (State.start : State τ) := ⟨inv_start, nofun, nofun⟩

theorem phase_held {s : State τ} {t : τ} (h : phase s t = .held) : s.holds t = true := by
  unfold phase at h
  split at h
  · by_contra hn
    rw [if_neg hn] at h
    cases h
  · cases h
  · cases h
  · cases h

/-- What a step does not change for the others, they do not see. -/
theorem phase_other {s s' : State τ} {u : τ} (hpc : s'.pc u = s.pc u) (hholds : s'.holds u = s.holds u) :
    phase s' u = phase s u := by
  simp only [phase, hpc, hholds]

variable [DecidableEq τ]

/-- One thread goes to another place. -/
theorem Paired.goto {s s' : State τ} (h : Paired s) (hinv : Inv s') {t : τ} {c : Pc}
    (hpc : s'.pc = Function.update s.pc t c) (hholds : ∀ u, u ≠ t → s'.holds u = s.holds u) (hc : c ≠ .trylockCas)
    (hw : c = .futexWake → s'.holds t = false) : Paired s' := by
  refine ⟨hinv, fun u => ?_, fun u hu => ?_⟩
  · rw [hpc]
    by_cases he : u = t
    · subst u; simpa using hc
    · simpa [he] using h.locks u
  · rw [hpc] at hu
    by_cases he : u = t
    · subst u; exact hw (by simpa using hu)
    · rw [hholds u he]
      exact h.woke u (by simpa [he] using hu)

variable [Fintype τ]

theorem Paired.call {s s' : State τ} (h : Paired s) {t : τ} (f : Call) (hf : f ≠ .trylock)
    (hholds : f = .unlock → s.holds t = true) (hs : step s (.call t f) = some s') :
    Paired s' ∧ s'.pc t = f.entry ∧ ∀ u, u ≠ t → phase s' u = phase s u := by
  have hadm : HolderUnlocks s (.call t f) := by
    cases f with
    | unlock => exact hholds rfl
    | _ => trivial
  have hinv := inv_step h.inv hadm (step_stepped hs)
  cases step_stepped hs with
  | call hpc =>
    refine ⟨h.goto hinv rfl (fun _ _ => rfl) ?_ ?_, Function.update_self .., fun u hu => ?_⟩
    · cases f with
      | trylock => exact absurd rfl hf
      | _ => nofun
    · cases f <;> nofun
    · exact phase_other (Function.update_of_ne hu _ _) rfl

/-- A step inside of the two calls. -/
def inner (s : State τ) : Action τ → Option (State τ)
  | .call _ _ => none
  | a => step s a

theorem Paired.inner {s s' : State τ} (h : Paired s) {a : Action τ} (hs : inner s a = some s') :
    Paired s' ∧ (phase s a.mover).Goes (phase s' a.mover) ∧ ∀ u, u ≠ a.mover → phase s' u = phase s u := by
  have hstep : step s a = some s' ∧ HolderUnlocks s a := by
    cases a with
    | call t f => cases hs
    | _ => exact ⟨hs, trivial⟩
  obtain ⟨hstep, hadm⟩ := hstep
  have hinv := inv_step h.inv hadm (step_stepped hstep)
  have hother : ∀ {t u : τ} {c : Pc}, u ≠ t → phase (s.goto t c) u = phase s u :=
    fun hu => phase_other (Function.update_of_ne hu _ _) rfl
  cases step_stepped hstep with
  | call => cases hs
  | @locked t hpc hw =>
    refine ⟨h.goto hinv rfl (fun u hu => Function.update_of_ne hu _ _) (by simp) (by simp), ?_, fun u hu => ?_⟩
    · simp only [Action.mover, phase, hpc, State.goto, State.swap, Function.update_self, if_true]
      exact .acquired
    · exact phase_other (Function.update_of_ne hu _ _) (Function.update_of_ne hu _ _)
  | @lockFailed t hpc hw =>
    refine ⟨h.goto hinv rfl (fun _ _ => rfl) (by simp) (by simp), ?_, fun u hu => hother hu⟩
    simp only [Action.mover, phase, hpc, State.goto, Function.update_self]
    exact .waits
  | @slept t hpc hw =>
    refine ⟨h.goto hinv rfl (fun _ _ => rfl) (by simp) (by simp), ?_, fun u hu => hother hu⟩
    simp only [Action.mover, phase, hpc, State.goto, Function.update_self]
    exact .waits
  | @missed t hpc hw =>
    refine ⟨h.goto hinv rfl (fun _ _ => rfl) (by simp) (by simp), ?_, fun u hu => hother hu⟩
    simp only [Action.mover, phase, hpc, State.goto, Function.update_self]
    exact .waits
  | @interrupted t hpc =>
    refine ⟨h.goto hinv rfl (fun _ _ => rfl) (by simp) (by simp), ?_, fun u hu => hother hu⟩
    simp only [Action.mover, phase, hpc, State.goto, Function.update_self]
    exact .waits
  | @trylocked t hpc hw => exact absurd hpc (h.locks t)
  | @tryFailed t hpc hw => exact absurd hpc (h.locks t)
  | @unlocked t hpc hw =>
    refine ⟨h.goto hinv rfl (fun u hu => Function.update_of_ne hu _ _) (by simp) fun _ => Function.update_self .., ?_,
      fun u hu => ?_⟩
    · simp only [Action.mover, phase, hpc, State.goto, State.swap, Function.update_self]
      exact .works
    · exact phase_other (Function.update_of_ne hu _ _) (Function.update_of_ne hu _ _)
  | @unlockFailed t hpc hw => exact absurd (h.inv.word_of_holds (h.inv.unlocking t hpc)) hw
  | @woke t woken pc hpc hwake =>
    have hwoken := wakeOne_woken hwake
    have hself : pc t = .out 0 := (hwoken.of_not_asleep (u := t) (by simp [State.goto, asleep])).trans
      (Function.update_self ..)
    refine ⟨⟨hinv, fun u hu => ?_, fun u hu => ?_⟩, ?_, fun u hu => ?_⟩
    · have hu : pc u = .trylockCas := hu
      rcases hwoken u with he | ⟨-, he⟩
      · by_cases hut : u = t
        · subst u; rw [hself] at hu; cases hu
        · exact h.locks u (by simpa [he, State.goto, hut] using hu)
      · rw [he] at hu; cases hu
    · have hu : pc u = .futexWake := hu
      rcases hwoken u with he | ⟨-, he⟩
      · by_cases hut : u = t
        · subst u; rw [hself] at hu; cases hu
        · exact h.woke u (by simpa [he, State.goto, hut] using hu)
      · rw [he] at hu; cases hu
    · simp only [Action.mover, phase, hpc, hself, h.woke t hpc]
      exact .released
    · have hu : u ≠ t := hu
      rcases hwoken u with he | ⟨ha, he⟩
      · exact phase_other (he.trans (Function.update_of_ne hu _ _)) rfl
      · have hsleep : s.pc u = .asleep := by
          simp only [State.goto, Function.update_of_ne hu] at ha
          cases hx : s.pc u <;> rw [hx] at ha <;> first | rfl | cases ha
        simp only [phase, he, hsleep]

/-- The lock that the sections of the library are under. -/
def sectionLock : Lock τ where
  State := State τ
  Action := Action τ
  start := State.start
  lock s t := step s (.call t .lock)
  unlock s t := step s (.call t .unlock)
  step := inner
  mover := Action.mover
  phase := phase
  Inv := Paired
  inv_start := paired_start
  free_start _ := rfl
  exclusive h ht hu := h.inv.one _ _ (phase_held ht) (phase_held hu)
  lock_spec h _ hs := by
    obtain ⟨hp, hpc, hother⟩ := h.call .lock nofun nofun hs
    exact ⟨hp, by simp [phase, hpc, Call.entry], hother⟩
  unlock_spec h hheld hs := by
    obtain ⟨hp, hpc, hother⟩ := h.call .unlock nofun (fun _ => phase_held hheld) hs
    exact ⟨hp, by simp [phase, hpc, Call.entry], hother⟩
  step_spec h hs := h.inner hs

end ThreadBites.FutexLock

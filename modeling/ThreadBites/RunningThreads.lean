import ThreadBites.DescriptorRuns
import ThreadBites.Scheduling

/-!
# The descriptors of the threads that run

Five functions take a thread to exist if its descriptor is in `used_desc`. A
created thread is there from before its clone until its own end of
`tbthread_exit` or its joiner releases the descriptor. `tbthread_init` sets up
the descriptor of the initial thread and does not add it.
-/
namespace ThreadBites.Threads

open Transition

variable {τ δ : Type} [DecidableEq δ]

/-- The error of `tbthread_cancel`. -/
def cancelError (s : Shared τ δ) (d : δ) : Option Int :=
  if d ∉ s.used then some (-ESRCH) else none

/-- The error of `tbthread_setschedparam`, `ret` being what `sched_setscheduler` returns. -/
def setschedparamError (s : Shared τ δ) (d : δ) (policy priority ret : Int) : Option Int :=
  match Sched.schedParam policy priority with
  | .error e => some e
  | .ok _ => if d ∉ s.used then some (-ESRCH) else if ret = 0 then none else some ret

/-- The error of `tbthread_getschedparam`. -/
def getschedparamError (s : Shared τ δ) (d : δ) : Option Int :=
  if d ∉ s.used then some (-ESRCH) else none

/-- The descriptor is found, and no function that looks for it says otherwise. -/
structure Found (s : Shared τ δ) (d : δ) : Prop where
  used : d ∈ s.used
  free : d ∉ s.free
  cancel : cancelError s d ≠ some (-ESRCH)
  setschedparam : ∀ policy priority ret, ret ≠ -ESRCH → setschedparamError s d policy priority ret ≠ some (-ESRCH)
  getschedparam : getschedparamError s d ≠ some (-ESRCH)
  detach : detachError s d ≠ some (-ESRCH)

/-- Being in `used_desc` is all that the functions look at. -/
theorem found_of_used {s : Shared τ δ} {d : δ} (hu : d ∈ s.used) (hf : d ∉ s.free) : Found s d where
  used := hu
  free := hf
  cancel := by simp [cancelError, hu]
  setschedparam := by
    intro policy priority ret hret
    unfold setschedparamError
    split
    · rename_i e he
      rw [Sched.schedParam_error he]
      decide
    · rw [if_neg (not_not.mpr hu)]
      split
      · simp
      · simpa using hret
  getschedparam := by simp [getschedparamError, hu]
  detach := by
    unfold detachError
    rw [if_neg (not_not.mpr hu)]
    split <;> decide

variable [DecidableEq τ] [Fintype τ] {main : τ} {s : State τ δ}

/-- In an orderly run a thread in user code, or in a call other than the end of `tbthread_exit`,
is found exactly if it is not the initial thread. -/
theorem running_found_iff (h : Reaches (Initial main) step Orderly s) {u : τ} (hu : s.phase u = .running) :
    Found s.toShared (s.self u) ↔ u ≠ main := by
  have hi : Inv main s := reaches_inv (fun _ _ ha => ha) h
  constructor
  · rintro hfound rfl
    have hused := (hi.lists.used _).mp hfound.used
    rw [hi.initial.role] at hused
    cases hused
  · intro hne
    have hrole := (hi.thread u).active hne (by rw [hu]; rfl)
    apply found_of_used
    · rw [hi.lists.used, hrole]
      rfl
    · rw [hi.lists.free, hrole]
      simp

/-- The initial thread creates a thread that comes to user code. -/
def createOne (main u : τ) (d : δ) (tid : BitVec 32) : List (Action τ δ) :=
  [Action.create main ⟨true, true⟩ true, Action.mprotect main true, Action.next main, Action.allocate main d,
    Action.next main, Action.next main, Action.next main, Action.clone main (some (u, tid)), Action.start u,
    Action.next main, Action.next u]

theorem running_found_created : ∃ s : State (Fin 2) (Fin 2),
    Reaches (Initial 0) step Orderly s ∧ s.pc 1 = .user ∧ Found s.toShared (s.self 1) := by
  obtain ⟨s, hr, hu⟩ : ∃ s : State (Fin 2) (Fin 2), Reaches (Initial 0) step Orderly s ∧ s.pc 1 = .user := by
    have hr := Reaches.run_get (boot_initial (0 : Fin 2) (0 : Fin 2) 7)
      (show (run step Orderly (createOne 0 1 1 8) (boot (0 : Fin 2) (0 : Fin 2) 7)).isSome from by decide)
    exact ⟨_, hr, by decide⟩
  exact ⟨s, hr, hu, (running_found_iff hr (by rw [State.phase, hu]; rfl)).mpr (by decide)⟩

/-- `tbthread_setschedparam(tbthread_self(), SCHED_FIFO, 99)` in the initial thread. -/
theorem initial_thread_unfound : ∃ s : State (Fin 1) (Fin 1), Reaches (Initial 0) step Orderly s ∧
    s.pc 0 = .user ∧ s.self 0 ∉ s.used ∧ setschedparamError s.toShared (s.self 0) 1 99 0 = some (-ESRCH) ∧
    ¬ Found s.toShared (s.self 0) := by
  refine ⟨_, .start (boot_initial 0 0 7), rfl, by decide, by decide, fun h => ?_⟩
  exact absurd h.used (by decide)

end ThreadBites.Threads

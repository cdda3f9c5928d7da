import ThreadBites.Transition
import ThreadBites.WaitQueue

/-!
# The low-level lock

Every compare-and-swap is a step, `FUTEX_WAIT` is one that compares and sleeps,
and it may return with nobody waking it. `FUTEX_WAKE` wakes any one sleeper.
`holds` is history: a thread is between a successful acquire and its release.
-/
namespace ThreadBites.FutexLock

open Transition WaitQueue

variable {τ : Type}

def EBUSY : Int := 16

/-- `__sync_bool_compare_and_swap`: the word after it, and whether it was swapped. -/
def compareAndSwap (futex old new : Int) : Int × Bool :=
  if futex = old then (new, true) else (futex, false)

/-- Where a thread is; `ret` is what its last call returned, 0 if it returned nothing. -/
inductive Pc where
  | out (ret : Int)
  | lockCas
  | futexWait
  | asleep
  | trylockCas
  | unlockCas
  | futexWake
  deriving DecidableEq, Repr

inductive Call where
  | lock
  | trylock
  | unlock
  deriving DecidableEq, Repr

def Call.entry : Call → Pc
  | .lock => .lockCas
  | .trylock => .trylockCas
  | .unlock => .unlockCas

def asleep : Pc → Bool
  | .asleep => true
  | _ => false

/-- Awake, and on the way back to the compare-and-swap of `tb_futex_lock`. -/
def contends : Pc → Bool
  | .lockCas => true
  | .futexWait => true
  | _ => false

structure State (τ : Type) where
  futex : Int
  pc : τ → Pc
  holds : τ → Bool

def State.start : State τ where
  futex := 0
  pc := fun _ => .out 0
  holds := fun _ => false

def Initial (s : State τ) : Prop := s = State.start

inductive Action (τ : Type) where
  | call (t : τ) (f : Call)
  | lockCas (t : τ)
  | futexWait (t : τ)
  | interrupt (t : τ)
  | trylockCas (t : τ)
  | unlockCas (t : τ)
  | futexWake (t : τ) (woken : Option τ)
  deriving DecidableEq, Repr

variable [DecidableEq τ]

def State.goto (s : State τ) (t : τ) (c : Pc) : State τ :=
  { s with pc := Function.update s.pc t c }

/-- A swap that thread `t` made: the word, and from then on whether it holds the lock. -/
def State.swap (s : State τ) (t : τ) (futex : Int) (hold : Bool) : State τ :=
  { s with futex := futex, holds := Function.update s.holds t hold }

variable [Fintype τ]

def step (s : State τ) : Action τ → Option (State τ)
  | .call t f => match s.pc t with
    | .out _ => some (s.goto t f.entry)
    | _ => none
  | .lockCas t => match s.pc t with
    | .lockCas => match compareAndSwap s.futex 0 1 with
      | (w, true) => some ((s.swap t w true).goto t (.out 0))
      | (_, false) => some (s.goto t .futexWait)
    | _ => none
  | .futexWait t => match s.pc t with
    | .futexWait => some (s.goto t (if s.futex = 1 then .asleep else .lockCas))
    | _ => none
  | .interrupt t => match s.pc t with
    | .asleep => some (s.goto t .lockCas)
    | _ => none
  | .trylockCas t => match s.pc t with
    | .trylockCas => match compareAndSwap s.futex 0 1 with
      | (w, true) => some ((s.swap t w true).goto t (.out 0))
      | (_, false) => some (s.goto t (.out (-EBUSY)))
    | _ => none
  | .unlockCas t => match s.pc t with
    | .unlockCas => match compareAndSwap s.futex 1 0 with
      | (w, true) => some ((s.swap t w false).goto t .futexWake)
      | (_, false) => some (s.goto t (.out 0))
    | _ => none
  | .futexWake t woken => match s.pc t with
    | .futexWake => (wakeOne asleep (fun _ => .lockCas) (s.goto t (.out 0)).pc woken).map fun pc =>
        { s with pc := pc }
    | _ => none

/-- What a step does, case by case. -/
inductive Stepped (s : State τ) : Action τ → State τ → Prop where
  | call {t f r} (hpc : s.pc t = .out r) : Stepped s (.call t f) (s.goto t f.entry)
  | locked {t} (hpc : s.pc t = .lockCas) (hw : s.futex = 0) :
      Stepped s (.lockCas t) ((s.swap t 1 true).goto t (.out 0))
  | lockFailed {t} (hpc : s.pc t = .lockCas) (hw : s.futex ≠ 0) :
      Stepped s (.lockCas t) (s.goto t .futexWait)
  | slept {t} (hpc : s.pc t = .futexWait) (hw : s.futex = 1) : Stepped s (.futexWait t) (s.goto t .asleep)
  | missed {t} (hpc : s.pc t = .futexWait) (hw : s.futex ≠ 1) : Stepped s (.futexWait t) (s.goto t .lockCas)
  | interrupted {t} (hpc : s.pc t = .asleep) : Stepped s (.interrupt t) (s.goto t .lockCas)
  | trylocked {t} (hpc : s.pc t = .trylockCas) (hw : s.futex = 0) :
      Stepped s (.trylockCas t) ((s.swap t 1 true).goto t (.out 0))
  | tryFailed {t} (hpc : s.pc t = .trylockCas) (hw : s.futex ≠ 0) :
      Stepped s (.trylockCas t) (s.goto t (.out (-EBUSY)))
  | unlocked {t} (hpc : s.pc t = .unlockCas) (hw : s.futex = 1) :
      Stepped s (.unlockCas t) ((s.swap t 0 false).goto t .futexWake)
  | unlockFailed {t} (hpc : s.pc t = .unlockCas) (hw : s.futex ≠ 1) :
      Stepped s (.unlockCas t) (s.goto t (.out 0))
  | woke {t woken pc} (hpc : s.pc t = .futexWake)
      (hwake : wakeOne asleep (fun _ => .lockCas) (s.goto t (.out 0)).pc woken = some pc) :
      Stepped s (.futexWake t woken) { s with pc := pc }

theorem step_stepped {s s' : State τ} {a : Action τ} (h : step s a = some s') : Stepped s a s' := by
  cases a with
  | call t f =>
    simp only [step] at h
    split at h
    · rename_i hpc; cases h; exact .call hpc
    · cases h
  | lockCas t =>
    simp only [step] at h
    split at h
    · rename_i hpc
      by_cases hw : s.futex = 0
      · simp only [compareAndSwap, hw, if_true, Option.some.injEq] at h
        exact h ▸ .locked hpc hw
      · simp only [compareAndSwap, hw, if_false, Option.some.injEq] at h
        exact h ▸ .lockFailed hpc hw
    · cases h
  | futexWait t =>
    simp only [step] at h
    split at h
    · rename_i hpc
      cases h
      split
      · rename_i hw; exact .slept hpc hw
      · rename_i hw; exact .missed hpc hw
    · cases h
  | interrupt t =>
    simp only [step] at h
    split at h
    · rename_i hpc; cases h; exact .interrupted hpc
    · cases h
  | trylockCas t =>
    simp only [step] at h
    split at h
    · rename_i hpc
      by_cases hw : s.futex = 0
      · simp only [compareAndSwap, hw, if_true, Option.some.injEq] at h
        exact h ▸ .trylocked hpc hw
      · simp only [compareAndSwap, hw, if_false, Option.some.injEq] at h
        exact h ▸ .tryFailed hpc hw
    · cases h
  | unlockCas t =>
    simp only [step] at h
    split at h
    · rename_i hpc
      by_cases hw : s.futex = 1
      · simp only [compareAndSwap, hw, if_true, Option.some.injEq] at h
        exact h ▸ .unlocked hpc hw
      · simp only [compareAndSwap, hw, if_false, Option.some.injEq] at h
        exact h ▸ .unlockFailed hpc hw
    · cases h
  | futexWake t woken =>
    simp only [step] at h
    split at h
    · rename_i hpc
      obtain ⟨pc, hwake, he⟩ := Option.map_eq_some_iff.mp h
      exact he ▸ .woke hpc hwake
    · cases h

/-- Only a holder calls `tb_futex_unlock`. -/
def HolderUnlocks (s : State τ) : Action τ → Prop
  | .call t .unlock => s.holds t = true
  | _ => True

instance (s : State τ) (a : Action τ) : Decidable (HolderUnlocks s a) := by
  unfold HolderUnlocks
  split <;> infer_instance

end ThreadBites.FutexLock

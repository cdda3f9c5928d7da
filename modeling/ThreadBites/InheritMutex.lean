import ThreadBites.FutexLockWakeups

/-!
# The futex word of a priority-inheriting mutex

`lock_prio_inherit`, `trylock_prio_inherit` and `unlock_prio_inherit`, with the
accesses made under `internal_futex` one step each and `internal_futex` a
low-level lock of its own. The scheduling functions called in a section take the
lock of a descriptor and touch no field of the mutex, so they are steps that only
move on.
-/
namespace ThreadBites.InheritMutex

open Transition WaitQueue

variable {τ : Type}

inductive Call where
  | lock
  | trylock
  | unlock
  deriving DecidableEq, Repr

/-- Where a thread is. `enter` and `leave` are about to lock and unlock `internal_futex`,
`entering` and `leaving` do; `locked` is the local of the two locking functions. -/
inductive Pc where
  | out (ret : Int)
  | enter (f : Call)
  | entering (f : Call)
  | setOwner (f : Call)
  | setFutex (f : Call)
  | inheritAdd (f : Call)
  | inheritSched
  | inheritUnsched
  | clearOwner
  | clearFutex
  | futexWake
  | leave (f : Call) (locked : Bool)
  | leaving (f : Call) (locked : Bool)
  | futexWait
  | asleep
  deriving DecidableEq, Repr

/-- What a thread does once it is inside: `if(mutex->futex == 0)`, or unschedule. -/
def check (futex : Int) : Call → Pc
  | .unlock => .inheritUnsched
  | .lock => if futex = 0 then .setOwner .lock else .inheritSched
  | .trylock => if futex = 0 then .setOwner .trylock else .leave .trylock false

/-- Where a thread goes once it is outside again. -/
def afterSection : Call → Bool → Pc
  | .lock, false => .futexWait
  | .trylock, false => .out (-FutexLock.EBUSY)
  | _, _ => .out 0

def asleep : Pc → Bool
  | .asleep => true
  | _ => false

/-- Not asleep on the futex word, and on the way back to `if(mutex->futex == 0)`. -/
def contends : Pc → Bool
  | .enter .lock => true
  | .entering .lock => true
  | .setOwner .lock => true
  | .setFutex .lock => true
  | .inheritSched => true
  | .leave .lock false => true
  | .leaving .lock false => true
  | .futexWait => true
  | _ => false

/-- `holds` is history: a thread is between writing 1 and writing 0 to the futex word. -/
structure State (τ : Type) where
  internal : FutexLock.State τ
  futex : Int
  owner : Option τ
  pc : τ → Pc
  holds : τ → Bool

def State.start : State τ where
  internal := .start
  futex := 0
  owner := none
  pc := fun _ => .out 0
  holds := fun _ => false

def Initial (s : State τ) : Prop := s = State.start

/-- A call, a step inside a call on `internal_futex`, the next access of a thread, or a
`FUTEX_WAIT` that returns by itself. -/
inductive Action (τ : Type) where
  | call (t : τ) (f : Call)
  | internal (a : FutexLock.Action τ)
  | next (t : τ) (woken : Option τ)
  | interrupt (t : τ)
  deriving DecidableEq, Repr

/-- The call on `internal_futex` has returned. -/
def returned : FutexLock.Pc → Bool
  | .out _ => true
  | _ => false

variable [DecidableEq τ]

def State.goto (s : State τ) (t : τ) (c : Pc) : State τ :=
  { s with pc := Function.update s.pc t c }

/-- Thread `t` writes the futex word, and from then on holds the mutex or does not. -/
def State.write (s : State τ) (t : τ) (futex : Int) (hold : Bool) : State τ :=
  { s with futex := futex, holds := Function.update s.holds t hold }

variable [Fintype τ]

/-- Call a function of the low-level lock on `internal_futex`. -/
def State.callInternal (s : State τ) (t : τ) (f : FutexLock.Call) (c : Pc) : Option (State τ) :=
  (FutexLock.step s.internal (.call t f)).map fun i => { s with internal := i }.goto t c

/-- The next access of thread `t`. -/
def next (s : State τ) (t : τ) (woken : Option τ) : Option (State τ) :=
  match s.pc t with
  | .enter f => s.callInternal t .lock (.entering f)
  | .entering f => if returned (s.internal.pc t) then some (s.goto t (check s.futex f)) else none
  | .setOwner f => some ({ s with owner := some t }.goto t (.setFutex f))
  | .setFutex f => some ((s.write t 1 true).goto t (.inheritAdd f))
  | .inheritAdd f => some (s.goto t (.leave f true))
  | .inheritSched => some (s.goto t (.leave .lock false))
  | .inheritUnsched => some (s.goto t .clearOwner)
  | .clearOwner => some ({ s with owner := none }.goto t .clearFutex)
  | .clearFutex => some ((s.write t 0 false).goto t .futexWake)
  | .futexWake =>
      (wakeOne asleep (fun _ => .enter .lock) (s.goto t (.leave .unlock true)).pc woken).map fun pc =>
        { s with pc := pc }
  | .leave f locked => s.callInternal t .unlock (.leaving f locked)
  | .leaving f locked =>
      if returned (s.internal.pc t) then some (s.goto t (afterSection f locked)) else none
  | .futexWait => some (s.goto t (if s.futex = 1 then .asleep else .enter .lock))
  | .out _ => none
  | .asleep => none

def step (s : State τ) : Action τ → Option (State τ)
  | .call t f => match s.pc t with
    | .out _ => some (s.goto t (.enter f))
    | _ => none
  | .internal (.call _ _) => none
  | .internal a => (FutexLock.step s.internal a).map fun i => { s with internal := i }
  | .next t woken => next s t woken
  | .interrupt t => match s.pc t with
    | .asleep => some (s.goto t (.enter .lock))
    | _ => none

/-- The scheduling functions, and where a thread goes after them. -/
def scheduled : Pc → Option Pc
  | .inheritAdd f => some (.leave f true)
  | .inheritSched => some (.leave .lock false)
  | .inheritUnsched => some .clearOwner
  | _ => none

/-- What a step does, case by case. -/
inductive Stepped (s : State τ) : Action τ → State τ → Prop where
  | call {t f r} (hpc : s.pc t = .out r) : Stepped s (.call t f) (s.goto t (.enter f))
  | internal {a i} (ha : ∀ t f, a ≠ .call t f) (hi : FutexLock.Stepped s.internal a i) :
      Stepped s (.internal a) { s with internal := i }
  | enter {t f w i} (hpc : s.pc t = .enter f) (hi : FutexLock.Stepped s.internal (.call t .lock) i) :
      Stepped s (.next t w) ({ s with internal := i }.goto t (.entering f))
  | check {t f w} (hpc : s.pc t = .entering f) (hr : returned (s.internal.pc t) = true) :
      Stepped s (.next t w) (s.goto t (check s.futex f))
  | setOwner {t f w} (hpc : s.pc t = .setOwner f) :
      Stepped s (.next t w) ({ s with owner := some t }.goto t (.setFutex f))
  | setFutex {t f w} (hpc : s.pc t = .setFutex f) :
      Stepped s (.next t w) ((s.write t 1 true).goto t (.inheritAdd f))
  | scheduled {t c w} (hpc : scheduled (s.pc t) = some c) : Stepped s (.next t w) (s.goto t c)
  | clearOwner {t w} (hpc : s.pc t = .clearOwner) :
      Stepped s (.next t w) ({ s with owner := none }.goto t .clearFutex)
  | clearFutex {t w} (hpc : s.pc t = .clearFutex) :
      Stepped s (.next t w) ((s.write t 0 false).goto t .futexWake)
  | woke {t w pc} (hpc : s.pc t = .futexWake)
      (hwake : wakeOne asleep (fun _ => .enter .lock) (s.goto t (.leave .unlock true)).pc w = some pc) :
      Stepped s (.next t w) { s with pc := pc }
  | leave {t f l w i} (hpc : s.pc t = .leave f l) (hi : FutexLock.Stepped s.internal (.call t .unlock) i) :
      Stepped s (.next t w) ({ s with internal := i }.goto t (.leaving f l))
  | left {t f l w} (hpc : s.pc t = .leaving f l) (hr : returned (s.internal.pc t) = true) :
      Stepped s (.next t w) (s.goto t (afterSection f l))
  | slept {t w} (hpc : s.pc t = .futexWait) (hf : s.futex = 1) : Stepped s (.next t w) (s.goto t .asleep)
  | missed {t w} (hpc : s.pc t = .futexWait) (hf : s.futex ≠ 1) :
      Stepped s (.next t w) (s.goto t (.enter .lock))
  | interrupted {t} (hpc : s.pc t = .asleep) : Stepped s (.interrupt t) (s.goto t (.enter .lock))

theorem callInternal_stepped {s s' : State τ} {t : τ} {f : FutexLock.Call} {c : Pc}
    (h : s.callInternal t f c = some s') :
    ∃ i, FutexLock.Stepped s.internal (.call t f) i ∧ s' = { s with internal := i }.goto t c := by
  obtain ⟨i, hi, he⟩ := Option.map_eq_some_iff.mp h
  exact ⟨i, FutexLock.step_stepped hi, he.symm⟩

theorem next_stepped {s s' : State τ} {t : τ} {w : Option τ} (h : next s t w = some s') :
    Stepped s (.next t w) s' := by
  cases hpc : s.pc t <;> simp only [next, hpc] at h
  case enter f =>
    obtain ⟨i, hi, rfl⟩ := callInternal_stepped h
    exact .enter hpc hi
  case entering f =>
    simp only [Option.ite_none_right_eq_some, Option.some.injEq] at h
    exact h.2 ▸ .check hpc h.1
  case setOwner f => cases h; exact .setOwner hpc
  case setFutex f => cases h; exact .setFutex hpc
  case inheritAdd f => cases h; exact .scheduled (by rw [hpc]; rfl)
  case inheritSched => cases h; exact .scheduled (by rw [hpc]; rfl)
  case inheritUnsched => cases h; exact .scheduled (by rw [hpc]; rfl)
  case clearOwner => cases h; exact .clearOwner hpc
  case clearFutex => cases h; exact .clearFutex hpc
  case futexWake =>
    obtain ⟨pc, hwake, rfl⟩ := Option.map_eq_some_iff.mp h
    exact .woke hpc hwake
  case leave f l =>
    obtain ⟨i, hi, rfl⟩ := callInternal_stepped h
    exact .leave hpc hi
  case leaving f l =>
    simp only [Option.ite_none_right_eq_some, Option.some.injEq] at h
    exact h.2 ▸ .left hpc h.1
  case futexWait =>
    cases h
    split
    · rename_i hf; exact .slept hpc hf
    · rename_i hf; exact .missed hpc hf
  all_goals cases h

theorem step_stepped {s s' : State τ} {a : Action τ} (h : step s a = some s') : Stepped s a s' := by
  cases a with
  | call t f =>
    simp only [step] at h
    split at h
    · rename_i hpc; cases h; exact .call hpc
    · cases h
  | internal a =>
    cases a with
    | call t f => cases h
    | _ =>
      obtain ⟨i, hi, rfl⟩ := Option.map_eq_some_iff.mp h
      exact .internal (by simp) (FutexLock.step_stepped hi)
  | next t w => exact next_stepped h
  | interrupt t =>
    simp only [step] at h
    split at h
    · rename_i hpc; cases h; exact .interrupted hpc
    · cases h

/-- Only a holder calls `unlock_prio_inherit`. -/
def HolderUnlocks (s : State τ) : Action τ → Prop
  | .call t .unlock => s.holds t = true
  | _ => True

instance (s : State τ) (a : Action τ) : Decidable (HolderUnlocks s a) := by
  unfold HolderUnlocks
  split <;> infer_instance

end ThreadBites.InheritMutex

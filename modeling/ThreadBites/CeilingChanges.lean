import ThreadBites.MutexCalls
import ThreadBites.Transition

/-!
# Ceilings that change

Threads lock, try and unlock `TBTHREAD_PRIO_PROTECT` mutexes that are not
recursive, and set their ceilings. Taking the futex word, putting the mutex on the
list of its owner, writing the ceiling, taking the mutex off and giving the word
back are one step each; the store of `owner` goes with the swap of the word, for
others only compare it with themselves. `malloc` and `sched_setscheduler` succeed.
-/
namespace ThreadBites.Ceilings

open Transition
open Mutex (EPERM EDEADLK)
open FutexLock (EBUSY)
open Sched (SchedInfo EINVAL)
open MutexCalls (World lockPrioNone protectSched protectUnsched unlockPrioNone)

variable {τ μ : Type}

inductive Call (μ : Type) where
  | lock (m : μ)
  | trylock (m : μ)
  | unlock (m : μ)
  | setprioceiling (m : μ) (ceiling : Int)
  deriving DecidableEq, Repr

/-- Where a thread is. `ceiling` is what `tbthread_mutex_setprioceiling` writes once it has the mutex,
and `locked` is its local. -/
inductive Pc (μ : Type) where
  | out (ret : Int)
  | futexLock (m : μ) (ceiling : Option Nat)
  | futexTrylock (m : μ)
  | protectSched (m : μ) (ceiling : Option Nat)
  | setCeiling (m : μ) (ceiling : Nat) (locked : Bool)
  | protectUnsched (m : μ)
  | futexUnlock (m : μ)
  deriving DecidableEq, Repr

structure State (τ μ : Type) where
  world : World τ μ
  pc : τ → Pc μ

/-- Free mutexes with any ceilings, and threads with any settings. -/
structure Initial (s : State τ μ) : Prop where
  out : ∀ t, s.pc t = .out 0
  free : ∀ m, (s.world.mutex m).futex = 0 ∧ (s.world.mutex m).owner = none
  kind : ∀ m, (s.world.mutex m).kind ≠ .recursive
  protocol : ∀ m, (s.world.mutex m).protocol = .prioProtect
  list : ∀ t, (s.world.thread t).protectMutexes = []

inductive Action (τ μ : Type) where
  | call (t : τ) (f : Call μ)
  | next (t : τ)
  deriving DecidableEq, Repr

variable [DecidableEq τ] [DecidableEq μ]

def State.goto (s : State τ μ) (t : τ) (c : Pc μ) : State τ μ :=
  { s with pc := Function.update s.pc t c }

/-- The first looks of a call: at the arguments and at the owner. -/
def entry (w : World τ μ) (t : τ) : Call μ → Pc μ
  | .lock m =>
    if (w.mutex m).kind = .errorcheck ∧ (w.mutex m).owner = some t then .out (-EDEADLK) else .futexLock m none
  | .trylock m => .futexTrylock m
  | .unlock m =>
    if (w.mutex m).kind = .errorcheck ∧ ((w.mutex m).owner ≠ some t ∨ (w.mutex m).futex = 0) then .out (-EPERM)
    else .protectUnsched m
  | .setprioceiling m ceiling =>
    if (w.mutex m).protocol ≠ .prioProtect then .out (-EINVAL)
    else if ceiling < 0 ∨ 99 < ceiling then .out (-EINVAL)
    else if (w.mutex m).owner ≠ some t then .futexLock m (some ceiling.toNat)
    else .setCeiling m ceiling.toNat false

/-- Where `lock_prio_protect` and `trylock_prio_protect` return to. -/
def afterSched (m : μ) : Option Nat → Pc μ
  | none => .out 0
  | some ceiling => .setCeiling m ceiling true

/-- `mutex->sched_info = SCHED_INFO_PACK(SCHED_FIFO, ceiling)`. -/
def setCeiling (w : World τ μ) (m : μ) (ceiling : Nat) : World τ μ :=
  { w with info := Function.update w.info m ⟨.fifo, ceiling⟩ }

omit [DecidableEq τ] in
@[simp] theorem setCeiling_thread (w : World τ μ) (m : μ) (ceiling : Nat) :
    (setCeiling w m ceiling).thread = w.thread := rfl

/-- The next step of a thread; one that waits for the word has none. -/
def next (s : State τ μ) (t : τ) : Option (State τ μ) :=
  match s.pc t with
  | .out _ => none
  | .futexLock m ceiling => match lockPrioNone s.world m t with
    | (w, true) => some ({ s with world := w }.goto t (.protectSched m ceiling))
    | (_, false) => none
  | .futexTrylock m => match lockPrioNone s.world m t with
    | (w, true) => some ({ s with world := w }.goto t (.protectSched m none))
    | (_, false) => some (s.goto t (.out (-EBUSY)))
  | .protectSched m ceiling => (protectSched s.world m 0).map fun w => { s with world := w }.goto t (afterSched m ceiling)
  | .setCeiling m ceiling locked =>
    some ({ s with world := setCeiling s.world m ceiling }.goto t (if locked then .protectUnsched m else .out 0))
  | .protectUnsched m => (protectUnsched s.world m 0).map fun w => { s with world := w }.goto t (.futexUnlock m)
  | .futexUnlock m => some ({ s with world := unlockPrioNone s.world m }.goto t (.out 0))

def step (s : State τ μ) : Action τ μ → Option (State τ μ)
  | .call t f => match s.pc t with
    | .out _ => some (s.goto t (entry s.world t f))
    | _ => none
  | .next t => next s t

/-- The mutex is swapped to locked and has its owner. -/
def take (w : World τ μ) (m : μ) (t : τ) : World τ μ :=
  w.put m { w.mutex m with futex := 1, owner := some t }

omit [DecidableEq τ] in
@[simp] theorem take_mutex_same (w : World τ μ) (m : μ) (t : τ) :
    (take w m t).mutex m = { w.mutex m with futex := 1, owner := some t } :=
  MutexCalls.put_mutex_same _ _ _

omit [DecidableEq τ] in
theorem take_mutex_other (w : World τ μ) {m k : μ} (t : τ) (h : k ≠ m) : (take w m t).mutex k = w.mutex k :=
  MutexCalls.put_mutex_other _ _ h

omit [DecidableEq τ] in
@[simp] theorem take_info (w : World τ μ) (m : μ) (t : τ) : (take w m t).info = w.info := rfl

omit [DecidableEq τ] in
@[simp] theorem take_thread (w : World τ μ) (m : μ) (t : τ) : (take w m t).thread = w.thread := rfl

/-- What a step does, case by case. -/
inductive Stepped (s : State τ μ) : Action τ μ → State τ μ → Prop where
  | call {t f ret} (hpc : s.pc t = .out ret) : Stepped s (.call t f) (s.goto t (entry s.world t f))
  | took {t m ceiling} (hpc : s.pc t = .futexLock m ceiling ∨ s.pc t = .futexTrylock m ∧ ceiling = none)
      (hfree : (s.world.mutex m).futex = 0) :
      Stepped s (.next t) ({ s with world := take s.world m t }.goto t (.protectSched m ceiling))
  | busy {t m} (hpc : s.pc t = .futexTrylock m) : Stepped s (.next t) (s.goto t (.out (-EBUSY)))
  | listed {t m ceiling w} (hpc : s.pc t = .protectSched m ceiling) (hw : protectSched s.world m 0 = some w) :
      Stepped s (.next t) ({ s with world := w }.goto t (afterSched m ceiling))
  | wrote {t m ceiling locked} (hpc : s.pc t = .setCeiling m ceiling locked) :
      Stepped s (.next t) ({ s with world := setCeiling s.world m ceiling }.goto t
        (if locked then .protectUnsched m else .out 0))
  | unlisted {t m w} (hpc : s.pc t = .protectUnsched m) (hw : protectUnsched s.world m 0 = some w) :
      Stepped s (.next t) ({ s with world := w }.goto t (.futexUnlock m))
  | gave {t m} (hpc : s.pc t = .futexUnlock m) :
      Stepped s (.next t) ({ s with world := unlockPrioNone s.world m }.goto t (.out 0))

omit [DecidableEq τ] in
theorem lockPrioNone_cases (w : World τ μ) (m : μ) (t : τ) :
    (w.mutex m).futex = 0 ∧
      lockPrioNone w m t = (take w m t, true) ∨
    (w.mutex m).futex ≠ 0 ∧ lockPrioNone w m t = (w, false) := by
  unfold lockPrioNone FutexLock.compareAndSwap take
  by_cases h : (w.mutex m).futex = 0
  · simp [h]
  · simp [h]

theorem step_stepped {s s' : State τ μ} {a : Action τ μ} (h : step s a = some s') : Stepped s a s' := by
  cases a with
  | call t f =>
    simp only [step] at h
    split at h
    · rename_i hpc
      cases h
      exact .call hpc
    · cases h
  | next t =>
    simp only [step, next] at h
    cases hpc : s.pc t with
    | out ret => simp [hpc] at h
    | futexLock m ceiling =>
      obtain ⟨hfree, he⟩ | ⟨-, he⟩ := lockPrioNone_cases s.world m t
      · simp only [hpc, he, Option.some.injEq] at h
        exact h ▸ .took (.inl hpc) hfree
      · simp [hpc, he] at h
    | futexTrylock m =>
      obtain ⟨hfree, he⟩ | ⟨-, he⟩ := lockPrioNone_cases s.world m t
      · simp only [hpc, he, Option.some.injEq] at h
        exact h ▸ .took (.inr ⟨hpc, rfl⟩) hfree
      · simp only [hpc, he, Option.some.injEq] at h
        exact h ▸ .busy hpc
    | protectSched m ceiling =>
      simp only [hpc] at h
      obtain ⟨w, hw, rfl⟩ := Option.map_eq_some_iff.mp h
      exact .listed hpc hw
    | setCeiling m ceiling locked =>
      simp only [hpc, Option.some.injEq] at h
      exact h ▸ .wrote hpc
    | protectUnsched m =>
      simp only [hpc] at h
      obtain ⟨w, hw, rfl⟩ := Option.map_eq_some_iff.mp h
      exact .unlisted hpc hw
    | futexUnlock m =>
      simp only [hpc, Option.some.injEq] at h
      exact h ▸ .gave hpc

end ThreadBites.Ceilings

import ThreadBites.Scheduling
import ThreadBites.WaitQueue

/-!
# The boost that a sleeper gives

A thread that finds a `PRIO_INHERIT` mutex taken records its priority with the
owner and goes to sleep after the section in which it did. The entry is the
owner's: the next owner starts with a cleared one, and only threads that go
through the section again raise it.
-/
namespace ThreadBites.InheritBoost

open Transition WaitQueue Sched

variable {τ μ : Type}

def EBUSY : Int := 16

/-- The functions of `tb-sched.c` that may run on a thread for other reasons than the mutex. -/
inductive Section (μ : Type) where
  | protectMutexSched (k : μ)
  | protectMutexUnsched (k : μ)
  | inheritMutexAdd (k : μ)
  | inheritMutexUnsched (k : μ)
  | inheritMutexSched (k : μ) (info : SchedInfo)
  | setUser (info : SchedInfo)
  | computeSched
  deriving DecidableEq, Repr

/-- The mutex whose entry a function is about. -/
def Section.entry : Section μ → Option μ
  | .inheritMutexAdd k => some k
  | .inheritMutexUnsched k => some k
  | .inheritMutexSched k _ => some k
  | _ => none

inductive Call where
  | lock
  | trylock
  | unlock
  deriving DecidableEq, Repr

/-- Where a thread is: outside with what its last call returned, before the section of a call under
`internal_futex`, before `FUTEX_WAIT`, or asleep in it. -/
inductive Pc where
  | out (ret : Int)
  | enter (f : Call)
  | futexWait
  | asleep
  deriving DecidableEq, Repr

def asleep : Pc → Bool
  | .asleep => true
  | _ => false

/-- `checked` and `takenSince` are history: the setting that a thread had when it last went through
`tb_inherit_mutex_sched` for the mutex, and whether anybody has taken the mutex since. -/
structure State (τ μ : Type) where
  futex : Int
  owner : Option τ
  pc : τ → Pc
  thread : τ → Thread μ
  checked : τ → SchedInfo
  takenSince : τ → Bool

/-- The mutex is free and nobody has any inherit mutex. -/
def Initial (s : State τ μ) : Prop :=
  s.futex = 0 ∧ s.owner = none ∧ s.pc = (fun _ => .out 0) ∧ ∀ t, (s.thread t).inheritMutexes = []

/-- A call, its section with the sleeper that it wakes, `FUTEX_WAIT`, a `FUTEX_WAIT` that returns by itself,
or a function that runs on a thread for other reasons. -/
inductive Action (τ μ : Type) where
  | call (t : τ) (f : Call)
  | enter (t : τ) (woken : Option τ)
  | futexWait (t : τ)
  | interrupt (t : τ)
  | other (t : τ) (f : Section μ)
  deriving DecidableEq, Repr

/-- The entries for a mutex. -/
def entries [DecidableEq μ] (m : μ) (th : Thread μ) : List (μ × SchedInfo) :=
  th.inheritMutexes.filter fun im => im.1 = m

variable [DecidableEq μ]

def Section.run (mutexInfo : μ → SchedInfo) (th : Thread μ) : Section μ → Thread μ
  | .protectMutexSched k => Sched.protectMutexSched mutexInfo k th 0
  | .protectMutexUnsched k => Sched.protectMutexUnsched mutexInfo k th 0
  | .inheritMutexAdd k => Sched.inheritMutexAdd k th
  | .inheritMutexUnsched k => Sched.inheritMutexUnsched mutexInfo k th 0
  | .inheritMutexSched k info => Sched.inheritMutexSched mutexInfo k info th 0
  | .setUser info => { th with userSchedInfo := info }
  | .computeSched => th.computeSched mutexInfo 0

variable [DecidableEq τ]

def State.goto (s : State τ μ) (t : τ) (c : Pc) : State τ μ :=
  { s with pc := Function.update s.pc t c }

def State.setThread (s : State τ μ) (t : τ) (th : Thread μ) : State τ μ :=
  { s with thread := Function.update s.thread t th }

/-- Thread `t` finds the mutex free and takes it. -/
def State.acquire (m : μ) (s : State τ μ) (t : τ) : State τ μ :=
  ({ s with owner := some t, futex := 1, takenSince := fun _ => true }.setThread t
    (inheritMutexAdd m (s.thread t))).goto t (.out 0)

/-- Thread `t` finds the mutex taken by `o` and records its setting. -/
def State.check (mutexInfo : μ → SchedInfo) (m : μ) (s : State τ μ) (t o : τ) : State τ μ :=
  ({ s with
      checked := Function.update s.checked t (s.thread t).schedInfo
      takenSince := Function.update s.takenSince t false }.setThread o
    (inheritMutexSched mutexInfo m (s.thread t).schedInfo (s.thread o) 0)).goto t .futexWait

/-- Thread `t` gives back the mutex of `o`. -/
def State.release (mutexInfo : μ → SchedInfo) (m : μ) (s : State τ μ) (t o : τ) : State τ μ :=
  ({ s with owner := none, futex := 0 }.setThread o (inheritMutexUnsched mutexInfo m (s.thread o) 0)).goto t (.out 0)

variable [Fintype τ]

def step (mutexInfo : μ → SchedInfo) (m : μ) (s : State τ μ) : Action τ μ → Option (State τ μ)
  | .call t f => match s.pc t with
    | .out _ => some (s.goto t (.enter f))
    | _ => none
  | .enter t woken => match s.pc t with
    | .enter .lock =>
        if s.futex = 0 then some (s.acquire m t)
        else s.owner.map fun o => s.check mutexInfo m t o
    | .enter .trylock => some (if s.futex = 0 then s.acquire m t else s.goto t (.out (-EBUSY)))
    | .enter .unlock =>
        s.owner.bind fun o =>
          (wakeOne asleep (fun _ => .enter .lock) (s.release mutexInfo m t o).pc woken).map fun pc =>
            { s.release mutexInfo m t o with pc := pc }
    | _ => none
  | .futexWait t => match s.pc t with
    | .futexWait => some (s.goto t (if s.futex = 1 then .asleep else .enter .lock))
    | _ => none
  | .interrupt t => match s.pc t with
    | .asleep => some (s.goto t (.enter .lock))
    | _ => none
  | .other t f => if f.entry = some m then none else some (s.setThread t (f.run mutexInfo (s.thread t)))

/-- Who takes the mutex leaves nobody asleep that had a priority, and who had one goes to sleep only if
nobody has taken the mutex since. -/
def SeenOwner (s : State τ μ) : Action τ μ → Prop
  | .enter t _ => s.futex = 0 → (s.pc t = .enter .lock ∨ s.pc t = .enter .trylock) →
      ∀ u, s.pc u = .asleep → (s.checked u).priority = 0
  | .futexWait t => s.futex = 1 → s.takenSince t = true → (s.checked t).priority = 0
  | _ => True

instance (s : State τ μ) (a : Action τ μ) : Decidable (SeenOwner s a) := by
  cases a <;> unfold SeenOwner <;> infer_instance

/-- What a step does, case by case. -/
inductive Stepped (mutexInfo : μ → SchedInfo) (m : μ) (s : State τ μ) : Action τ μ → State τ μ → Prop where
  | called {t f r} (hpc : s.pc t = .out r) : Stepped mutexInfo m s (.call t f) (s.goto t (.enter f))
  | acquired {t w} (hpc : s.pc t = .enter .lock ∨ s.pc t = .enter .trylock) (hf : s.futex = 0) :
      Stepped mutexInfo m s (.enter t w) (s.acquire m t)
  | checked {t w o} (hpc : s.pc t = .enter .lock) (hf : s.futex ≠ 0) (ho : s.owner = some o) :
      Stepped mutexInfo m s (.enter t w) (s.check mutexInfo m t o)
  | busy {t w} (hpc : s.pc t = .enter .trylock) (hf : s.futex ≠ 0) :
      Stepped mutexInfo m s (.enter t w) (s.goto t (.out (-EBUSY)))
  | released {t w o pc} (hpc : s.pc t = .enter .unlock) (ho : s.owner = some o)
      (hw : Woken asleep (fun _ => .enter .lock) (s.release mutexInfo m t o).pc pc) :
      Stepped mutexInfo m s (.enter t w) { s.release mutexInfo m t o with pc := pc }
  | slept {t} (hpc : s.pc t = .futexWait) (hf : s.futex = 1) :
      Stepped mutexInfo m s (.futexWait t) (s.goto t .asleep)
  | missed {t} (hpc : s.pc t = .futexWait) (hf : s.futex ≠ 1) :
      Stepped mutexInfo m s (.futexWait t) (s.goto t (.enter .lock))
  | interrupted {t} (hpc : s.pc t = .asleep) : Stepped mutexInfo m s (.interrupt t) (s.goto t (.enter .lock))
  | other {t f} (hf : f.entry ≠ some m) :
      Stepped mutexInfo m s (.other t f) (s.setThread t (f.run mutexInfo (s.thread t)))

theorem step_stepped {mutexInfo : μ → SchedInfo} {m : μ} {s s' : State τ μ} {a : Action τ μ}
    (h : step mutexInfo m s a = some s') : Stepped mutexInfo m s a s' := by
  cases a with
  | call t f =>
    simp only [step] at h
    split at h
    · rename_i hpc; cases h; exact .called hpc
    · cases h
  | enter t woken =>
    simp only [step] at h
    split at h
    · rename_i hpc
      split at h
      · rename_i hf; cases h; exact .acquired (.inl hpc) hf
      · rename_i hf
        obtain ⟨o, ho, rfl⟩ := Option.map_eq_some_iff.mp h
        exact .checked hpc hf ho
    · rename_i hpc
      cases h
      split
      · rename_i hf; exact .acquired (.inr hpc) hf
      · rename_i hf; exact .busy hpc hf
    · rename_i hpc
      obtain ⟨o, ho, h⟩ := Option.bind_eq_some_iff.mp h
      obtain ⟨pc, hw, rfl⟩ := Option.map_eq_some_iff.mp h
      exact .released hpc ho (wakeOne_woken hw)
    · cases h
  | futexWait t =>
    simp only [step] at h
    split at h
    · rename_i hpc
      cases h
      split
      · rename_i hf; exact .slept hpc hf
      · rename_i hf; exact .missed hpc hf
    · cases h
  | interrupt t =>
    simp only [step] at h
    split at h
    · rename_i hpc; cases h; exact .interrupted hpc
    · cases h
  | other t f =>
    simp only [step, Option.ite_none_left_eq_some, Option.some.injEq] at h
    exact h.2 ▸ .other h.1

end ThreadBites.InheritBoost

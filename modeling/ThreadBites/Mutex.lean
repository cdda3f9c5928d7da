import ThreadBites.FutexLock

/-!
# The mutex

`tbthread_mutex_lock`, `trylock` and `unlock` dispatch on the type of the mutex,
and what they call dispatches on its protocol. Every access to `futex`, `owner`
and `counter` is a step; a section under `internal_futex` is one step, with the
`FUTEX_WAKE` it issues. The scheduling functions read `owner`, take the lock of
that descriptor and touch no field of the mutex: a null `owner` is a fault, which
has no result.
-/
namespace ThreadBites.Mutex

open Transition WaitQueue
open FutexLock (compareAndSwap EBUSY)

variable {τ : Type}

def EPERM : Int := 1
def EAGAIN : Int := 11
def EDEADLK : Int := 35

/-- `mutex->type`. -/
inductive Kind where
  | normal
  | errorcheck
  | recursive
  deriving DecidableEq, Repr

/-- `mutex->protocol`. -/
inductive Protocol where
  | prioNone
  | prioInherit
  | prioProtect
  deriving DecidableEq, Repr

inductive Op where
  | lock
  | trylock
  | unlock
  deriving DecidableEq, Repr

/-- `tbthread_mutex_t`; the word `internal_futex` is what makes a section one step. -/
structure Fields (τ : Type) where
  futex : Int
  kind : Kind
  protocol : Protocol
  owner : Option τ
  counter : BitVec 64
  deriving DecidableEq

/-- Where a thread is: the access it makes next, or what its last call returned. The first group
is the layer of the types, the second that of the protocols; `f` is the call when two share it. -/
inductive Pc where
  | idle
  | returned (f : Op) (ret : Int)
  | lockOwner
  | trylockOwner
  | unlockOwner
  | unlockFutex
  | takeOwner
  | checkCounter (f : Op)
  | readCounter (f : Op)
  | writeCounter (f : Op) (v : BitVec 64)
  | recheckOwner
  | retakeOwner
  | resetCounter
  | readDown
  | writeDown (v : BitVec 64)
  | checkDown
  | dropOwner
  | futexCas
  | futexWait
  | asleep
  | trylockCas
  | setOwner (f : Op)
  | protectSched (f : Op)
  | protectUnsched
  | clearOwner
  | unlockCas
  | futexWake
  | inheritLock
  | inheritWait
  | inheritAsleep
  | inheritTrylock
  | inheritUnlock
  deriving DecidableEq, Repr

/-- `(*lockers[mutex->protocol])(mutex)` and its like. -/
def protoEntry : Protocol → Op → Pc
  | .prioInherit, .lock => .inheritLock
  | .prioInherit, .trylock => .inheritTrylock
  | .prioInherit, .unlock => .inheritUnlock
  | _, .lock => .futexCas
  | _, .trylock => .trylockCas
  | .prioProtect, .unlock => .protectUnsched
  | .prioNone, .unlock => .clearOwner

/-- `(*lockers[mutex->type])(mutex)` and its like. -/
def entry (k : Kind) (p : Protocol) (f : Op) : Pc :=
  match k, f with
  | .normal, _ => protoEntry p f
  | _, .lock => .lockOwner
  | .errorcheck, .trylock => protoEntry p .trylock
  | .recursive, .trylock => .trylockOwner
  | _, .unlock => .unlockOwner

/-- Back in the layer of the types, when the function of the protocol has returned `ret`. -/
def afterProto (k : Kind) (f : Op) (ret : Int) : Pc :=
  match k, f with
  | .normal, _ => .returned f ret
  | .errorcheck, .trylock => .returned .trylock ret
  | .errorcheck, _ => .returned f 0
  | .recursive, .lock => .takeOwner
  | .recursive, .trylock => if ret ≠ 0 then .returned .trylock (-EBUSY) else .recheckOwner
  | .recursive, .unlock => .returned .unlock ret

def inCall : Pc → Bool
  | .idle => false
  | .returned _ _ => false
  | _ => true

/-- The call that a thread is in, or that it returned from last. -/
def Pc.op : Pc → Option Op
  | .idle => none
  | .returned f _ => some f
  | .lockOwner | .takeOwner | .futexCas | .futexWait | .asleep => some .lock
  | .inheritLock | .inheritWait | .inheritAsleep => some .lock
  | .trylockOwner | .recheckOwner | .retakeOwner | .resetCounter | .trylockCas | .inheritTrylock => some .trylock
  | .checkCounter f | .readCounter f | .writeCounter f _ | .setOwner f | .protectSched f => some f
  | _ => some .unlock

/-- Asleep on `mutex->futex`. -/
def asleep : Pc → Bool
  | .asleep => true
  | .inheritAsleep => true
  | _ => false

/-- A `FUTEX_WAIT` returns. -/
def resume : Pc → Pc
  | .asleep => .futexCas
  | .inheritAsleep => .inheritLock
  | c => c

/-- The steps that issue a `FUTEX_WAKE` of 1 on `mutex->futex`. -/
def wakes : Pc → Bool
  | .futexWake => true
  | .inheritUnlock => true
  | _ => false

variable [DecidableEq τ]

/-- The access that thread `self` makes at its place: the mutex after it, and where it goes. -/
def access (m : Fields τ) (self : τ) : Pc → Option (Fields τ × Pc)
  | .idle | .returned _ _ | .asleep | .inheritAsleep => none
  -- if(mutex->owner == self) of lock_errorcheck and lock_recursive
  | .lockOwner => some (m, if m.owner = some self then
      if m.kind = .errorcheck then .returned .lock (-EDEADLK) else .checkCounter .lock
    else protoEntry m.protocol .lock)
  -- trylock_recursive, up to its second look at the owner
  | .trylockOwner => some (m, if m.owner = some self then .recheckOwner else protoEntry m.protocol .trylock)
  -- if(mutex->owner != tbthread_self()) of unlock_errorcheck and unlock_recursive
  | .unlockOwner => some (m, if m.owner = some self then
      if m.kind = .errorcheck then .unlockFutex else .readDown
    else .returned .unlock (-EPERM))
  | .unlockFutex => some (m, if m.futex = 0 then .returned .unlock (-EPERM) else protoEntry m.protocol .unlock)
  | .takeOwner => some ({ m with owner := some self }, .checkCounter .lock)
  | .checkCounter f => some (m, if m.counter = -1 then .returned f (-EAGAIN) else .readCounter f)
  | .readCounter f => some (m, .writeCounter f m.counter)
  | .writeCounter f v => some ({ m with counter := v + 1 }, .returned f 0)
  | .recheckOwner => some (m, if m.owner ≠ some self then .retakeOwner else .checkCounter .trylock)
  | .retakeOwner => some ({ m with owner := some self }, .resetCounter)
  | .resetCounter => some ({ m with counter := 1 }, .returned .trylock 0)
  | .readDown => some (m, .writeDown m.counter)
  | .writeDown v => some ({ m with counter := v - 1 }, .checkDown)
  | .checkDown => some (m, if m.counter = 0 then .dropOwner else .returned .unlock 0)
  | .dropOwner => some ({ m with owner := none }, protoEntry m.protocol .unlock)
  | .futexCas => match compareAndSwap m.futex 0 1 with
    | (w, true) => some ({ m with futex := w }, .setOwner .lock)
    | (_, false) => some (m, .futexWait)
  | .futexWait => some (m, if m.futex = 1 then .asleep else .futexCas)
  | .trylockCas => match compareAndSwap m.futex 0 1 with
    | (w, true) => some ({ m with futex := w }, .setOwner .trylock)
    | (_, false) => some (m, afterProto m.kind .trylock (-EBUSY))
  | .setOwner f => some ({ m with owner := some self },
      if m.protocol = .prioProtect then .protectSched f else afterProto m.kind f 0)
  | .protectSched f => m.owner.map fun _ => (m, afterProto m.kind f 0)
  | .protectUnsched => m.owner.map fun _ => (m, .clearOwner)
  | .clearOwner => some ({ m with owner := none }, .unlockCas)
  | .unlockCas => match compareAndSwap m.futex 1 0 with
    | (w, true) => some ({ m with futex := w }, .futexWake)
    | (_, false) => some (m, afterProto m.kind .unlock 0)
  | .futexWake => some (m, afterProto m.kind .unlock 0)
  | .inheritLock => if m.futex = 0 then
        some ({ m with owner := some self, futex := 1 }, afterProto m.kind .lock 0)
      else m.owner.map fun _ => (m, .inheritWait)
  | .inheritWait => some (m, if m.futex = 1 then .inheritAsleep else .inheritLock)
  | .inheritTrylock => if m.futex = 0 then
        some ({ m with owner := some self, futex := 1 }, afterProto m.kind .trylock 0)
      else some (m, afterProto m.kind .trylock (-EBUSY))
  | .inheritUnlock => m.owner.map fun _ =>
      ({ m with owner := none, futex := 0 }, afterProto m.kind .unlock 0)

/-- What no step reads, of one thread: whether it swapped or wrote 1 into `futex` and not yet 0,
how many of its calls returned 0, and of its last call whether it held the mutex when it
made it and whether an access of it changed the mutex. -/
structure History where
  holds : Bool
  locks : Nat
  unlocks : Nat
  held : Bool
  changed : Bool
  deriving DecidableEq, Repr

def History.call (h : History) : History := { h with held := h.holds, changed := false }

/-- A thread went from mutex `m` to mutex `m'` and to place `c`. -/
def History.record (h : History) (m m' : Fields τ) (c : Pc) : History where
  holds := if m'.futex = m.futex then h.holds else decide (m'.futex = 1)
  locks := if c = .returned .lock 0 ∨ c = .returned .trylock 0 then h.locks + 1 else h.locks
  unlocks := if c = .returned .unlock 0 then h.unlocks + 1 else h.unlocks
  held := h.held
  changed := h.changed || decide (m' ≠ m)

structure State (τ : Type) where
  mutex : Fields τ
  pc : τ → Pc
  hist : τ → History

/-- A mutex of a given type and protocol as `tbthread_mutex_init` leaves it, and no call yet. -/
def State.start (k : Kind) (p : Protocol) : State τ where
  mutex := ⟨0, k, p, none, 0⟩
  pc := fun _ => .idle
  hist := fun _ => ⟨false, 0, 0, false, false⟩

/-- Recursive mutexes with protocol `TBTHREAD_PRIO_NONE` only. -/
def Supported (k : Kind) (p : Protocol) : Prop := k = .recursive → p = .prioNone

def Initial (s : State τ) : Prop := ∃ k p, Supported k p ∧ s = State.start k p

inductive Action (τ : Type) where
  | call (t : τ) (f : Op)
  | next (t : τ) (woken : Option τ)
  | interrupt (t : τ)
  deriving DecidableEq, Repr

/-- Thread `t` makes the access that leaves mutex `m` and takes it to `c`. -/
def State.accessed (s : State τ) (t : τ) (m : Fields τ) (c : Pc) : State τ where
  mutex := m
  pc := Function.update s.pc t c
  hist := Function.update s.hist t ((s.hist t).record s.mutex m c)

variable [Fintype τ]

def step (s : State τ) : Action τ → Option (State τ)
  | .call t f => if inCall (s.pc t) then none else some { s with
      pc := Function.update s.pc t (entry s.mutex.kind s.mutex.protocol f)
      hist := Function.update s.hist t (s.hist t).call }
  | .next t woken => (access s.mutex t (s.pc t)).bind fun r =>
      if wakes (s.pc t) then (wakeOne asleep resume (s.accessed t r.1 r.2).pc woken).map fun pc =>
        { s.accessed t r.1 r.2 with pc := pc }
      else some (s.accessed t r.1 r.2)
  | .interrupt t => if asleep (s.pc t) then
      some { s with pc := Function.update s.pc t (resume (s.pc t)) } else none

/-- What a step does: a call, an access with a wake of sleepers, or a wait that returns. -/
inductive Stepped (s : State τ) : Action τ → State τ → Prop where
  | call {t f} (hpc : inCall (s.pc t) = false) : Stepped s (.call t f) { s with
      pc := Function.update s.pc t (entry s.mutex.kind s.mutex.protocol f)
      hist := Function.update s.hist t (s.hist t).call }
  | next {t woken m c pc} (ha : access s.mutex t (s.pc t) = some (m, c))
      (hw : Woken asleep resume (s.accessed t m c).pc pc) :
      Stepped s (.next t woken) { s.accessed t m c with pc := pc }
  | interrupt {t} (hpc : asleep (s.pc t) = true) :
      Stepped s (.interrupt t) { s with pc := Function.update s.pc t (resume (s.pc t)) }

theorem step_stepped {s s' : State τ} {a : Action τ} (h : step s a = some s') : Stepped s a s' := by
  cases a with
  | call t f =>
    simp only [step] at h
    split at h
    · cases h
    · rename_i hpc; cases h; exact .call (by simpa using hpc)
  | next t woken =>
    obtain ⟨⟨m, c⟩, ha, h⟩ := Option.bind_eq_some_iff.mp h
    simp only at h
    split at h
    · obtain ⟨pc, hpc, he⟩ := Option.map_eq_some_iff.mp h
      exact he ▸ .next ha (wakeOne_woken hpc)
    · cases h; exact .next ha fun _ => .inl rfl
  | interrupt t =>
    simp only [step, Option.ite_none_right_eq_some, Option.some.injEq] at h
    exact h.2 ▸ .interrupt h.1

/-- A normal mutex is unlocked only by its holder. -/
def HolderUnlocks (s : State τ) : Action τ → Prop
  | .call t .unlock => s.mutex.kind = .normal → (s.hist t).holds = true
  | _ => True

instance (s : State τ) (a : Action τ) : Decidable (HolderUnlocks s a) := by
  unfold HolderUnlocks
  split <;> infer_instance

end ThreadBites.Mutex

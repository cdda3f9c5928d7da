import ThreadBites.CancelStatus

/-!
# tbthread_once

Any number of threads with one control word. Each thread has its status of
cancellation and its list of cleanup handlers, in which `once_cleanup` of the
word is told from all others. `tbthread_testcancel` and the handler of
`SIGCANCEL` act in one step, and `tbthread_exit` does not return.
-/
namespace ThreadBites.Once

open Transition Cancel

/-- The control word. -/
inductive Word where
  | new
  | inProgress
  | done
  deriving DecidableEq, Repr

/-- A cleanup handler: `once_cleanup` with the word, or another one. -/
inductive Entry where
  | once
  | other
  deriving DecidableEq, Repr

/-- Code of the program: of the thread outside the call, of `func`, of a handler that `tbthread_exit` calls
before those of `rest`. -/
inductive Code where
  | user
  | func
  | handler (rest : List Entry)
  deriving DecidableEq, Repr

/-- What comes after `tbthread_setcancelstate(cancel_state, 0)`: the call of `func`, `FUTEX_WAIT`, the return. -/
inductive Cont where
  | call
  | futexWait
  | ret
  deriving DecidableEq, Repr

/-- What `once_cleanup` was called from. -/
inductive Caller where
  | pop (c : Code)
  | exit (rest : List Entry)
  deriving DecidableEq, Repr

/-- Where a thread is. The places of `tbthread_once` are before what they are named after, `returned` is
after `func`. `testCode` and `testCont` are before `tbthread_testcancel`, `leave` and `clear` are those of
`start_thread`, `exit` has the handlers from the cursor on. -/
inductive Pc where
  | code (c : Code)
  | testCode (c : Code)
  | load
  | disable
  | cas
  | push
  | restore (k : Cont)
  | testCont (k : Cont)
  | cont (k : Cont)
  | returned
  | pop
  | store
  | wakeDone
  | asleep
  | recheck
  | reset (c : Caller)
  | wakeReset (c : Caller)
  | leave
  | clear
  | exit (rest : List Entry)
  | ended
  deriving DecidableEq, Repr

def Code.ending : Code → Bool
  | .handler _ => true
  | _ => false

def Caller.ending : Caller → Bool
  | .pop c => c.ending
  | .exit _ => true

/-- In `tbthread_exit`. -/
def Pc.ending : Pc → Bool
  | .code c => c.ending
  | .testCode c => c.ending
  | .reset c => c.ending
  | .wakeReset c => c.ending
  | .exit _ => true
  | .ended => true
  | _ => false

/-- `cancel_state` is kept in `saved`. `cuts` and `resets` count the calls of `tbthread_exit` with
`once_cleanup` in the list, and the calls of `once_cleanup`; no step reads them. -/
structure Thread where
  status : BitVec 8
  blocked : Bool
  saved : Bool
  stack : List Entry
  pc : Pc
  cuts : Nat
  resets : Nat
  deriving DecidableEq, Repr

def Thread.start (status : BitVec 8) : Thread where
  status := status
  blocked := false
  saved := false
  stack := []
  pc := .code .user
  cuts := 0
  resets := 0

/-- What a step does to the word and to the other threads, or that an execution of `func` starts or
completes, or that a call returns 0. -/
inductive Event where
  | quiet
  | claim
  | start
  | complete
  | done
  | reset
  | wake
  | returned
  deriving DecidableEq, Repr

/-- A call or a return of code of the program, the next step of the library, a request of
`tbthread_cancel`, `SIGCANCEL`, or a return of `FUTEX_WAIT` with nobody waking it. -/
inductive Act where
  | once
  | push
  | pop (execute : Bool)
  | setcancelstate (enable : Bool)
  | setcanceltype (deferred : Bool)
  | testcancel
  | exit
  | ret
  | next
  | request
  | signal
  | interrupt
  deriving DecidableEq, Repr

def Thread.goto (th : Thread) (pc : Pc) : Thread := { th with pc := pc }

/-- `tbthread_exit`. -/
def Thread.exit (th : Thread) : Thread :=
  { th with
    pc := .exit th.stack
    cuts := if th.pc.ending then th.cuts else th.cuts + th.stack.count .once }

/-- `tbthread_testcancel`, which goes on at `pc` if it does not act. -/
def Thread.test (th : Thread) (pc : Pc) : Thread :=
  if acts th.status then { th with status := put .canceled true th.status }.exit else th.goto pc

def Caller.pc : Caller → Pc
  | .pop c => .code c
  | .exit rest => .exit rest

/-- The next step of the library. -/
def Thread.next (word : Word) (th : Thread) : Option (Thread × Event) :=
  match th.pc with
  | .code (.handler rest) => some (th.goto (.exit rest), .quiet)
  | .code _ => none
  | .testCode c => some (th.test (.code c), .quiet)
  | .load => if word = .done then some (th.goto (.code .user), .returned) else some (th.goto .disable, .quiet)
  | .disable =>
      some ({ th with saved := has .enabled th.status, status := put .enabled false th.status }.goto .cas, .quiet)
  | .cas => if word = .new then some (th.goto .push, .claim) else some (th.goto (.restore .futexWait), .quiet)
  | .push => some ({ th with stack := .once :: th.stack }.goto (.restore .call), .quiet)
  | .restore k =>
      some ({ th with status := put .enabled th.saved th.status }.goto (if th.saved then .testCont k else .cont k),
        .quiet)
  | .testCont k => some (th.test (.cont k), .quiet)
  | .cont .call => some (th.goto (.code .func), .start)
  | .cont .futexWait => some (th.goto (if word = .inProgress then .asleep else .recheck), .quiet)
  | .cont .ret => some (th.goto (.code .user), .returned)
  | .returned =>
      some ({ th with saved := has .enabled th.status, status := put .enabled false th.status }.goto .pop, .quiet)
  | .pop => some ({ th with stack := th.stack.tail }.goto .store, .quiet)
  | .store => some (th.goto .wakeDone, .done)
  | .wakeDone => some (th.goto (.restore .ret), .wake)
  | .asleep => none
  | .recheck => some (th.goto (if word = .inProgress then .cont .futexWait else .load), .quiet)
  | .reset c => some ({ th with resets := th.resets + 1 }.goto (.wakeReset c), .reset)
  | .wakeReset c => some (th.goto c.pc, .wake)
  | .leave => some ({ th with status := put .enabled false th.status }.goto .clear, .quiet)
  | .clear => some ({ th with stack := [] }.goto (.exit []), .quiet)
  | .exit (.once :: rest) => some (th.goto (.reset (.exit rest)), .quiet)
  | .exit (.other :: rest) => some (th.goto (.code (.handler rest)), .quiet)
  | .exit [] => some ({ th with stack := [] }.goto .ended, .quiet)
  | .ended => none

/-- `tbthread_cleanup_pop`. A handler that is not `once_cleanup` runs as part of the code that pops it. -/
def Thread.pop (th : Thread) (c : Code) (execute : Bool) : Thread :=
  match th.stack with
  | [] => th
  | .once :: rest => { th with stack := rest }.goto (if execute then .reset (.pop c) else .code c)
  | .other :: rest => { th with stack := rest }

/-- A return of `FUTEX_WAIT`, if the thread is in it. -/
def Thread.woken (th : Thread) : Thread := if th.pc = .asleep then th.goto .recheck else th

/-- `SIGCANCEL` is delivered. It ends a `FUTEX_WAIT`. -/
def Thread.signal (th : Thread) : Thread :=
  if has .deferred th.status = false ∧ acts th.status = true then
    { th with status := put .canceled true th.status, blocked := true }.exit
  else th.woken

/-- A call that code of the program makes. -/
def Thread.calls (th : Thread) (c : Code) : Act → Option (Thread × Event)
  | .once => if c = .user then some (th.goto .load, .quiet) else none
  | .push => if c.ending then none else some ({ th with stack := .other :: th.stack }, .quiet)
  | .pop execute => if c.ending then none else some (th.pop c execute, .quiet)
  | .setcancelstate enable => some
      ({ th with status := put .enabled enable th.status }.goto (if enable then .testCode c else .code c), .quiet)
  | .setcanceltype deferred => some
      ({ th with status := put .deferred deferred th.status }.goto (.testCode c), .quiet)
  | .testcancel => some (th.goto (.testCode c), .quiet)
  | .exit => if c.ending then none else some (th.exit, .quiet)
  | .ret => match c with
      | .user => some (th.goto .leave, .quiet)
      | .func => some (th.goto .returned, .complete)
      | .handler _ => none
  | _ => none

def Thread.step (word : Word) (th : Thread) : Act → Option (Thread × Event)
  | .next => th.next word
  | .request => some ({ th with status := put .canceling true th.status }, .quiet)
  | .signal => if th.blocked then none else some (th.signal, .quiet)
  | .interrupt => if th.pc = .asleep then some (th.goto .recheck, .quiet) else none
  | a => match th.pc with
      | .code c => th.calls c a
      | _ => none

/-- The counts and `stored`, which says that some call has stored `TB_ONCE_DONE`, are history. -/
structure State (τ : Type) where
  word : Word
  thread : τ → Thread
  starts : Nat
  completions : Nat
  returns : Nat
  stored : Bool

def State.start (τ : Type) (status : τ → BitVec 8) : State τ where
  word := .new
  thread := fun t => Thread.start (status t)
  starts := 0
  completions := 0
  returns := 0
  stored := false

/-- Threads as `tbthread_create` makes them, or the one of `tbthread_init`. -/
def Initial {τ : Type} (s : State τ) : Prop :=
  ∃ status : τ → BitVec 8, (∀ t, status t = createdStatus ∨ status t = 0) ∧ s = State.start τ status

structure Action (τ : Type) where
  thread : τ
  act : Act
  deriving DecidableEq, Repr

variable {τ : Type} [DecidableEq τ]

/-- What a step of a thread does to the state; `FUTEX_WAKE` wakes all. -/
def State.happens (s : State τ) : Event → State τ
  | .quiet => s
  | .claim => { s with word := .inProgress }
  | .start => { s with starts := s.starts + 1 }
  | .complete => { s with completions := s.completions + 1 }
  | .done => { s with word := .done, stored := true }
  | .reset => { s with word := .new }
  | .wake => { s with thread := fun t => (s.thread t).woken }
  | .returned => { s with returns := s.returns + 1 }

def step (s : State τ) (a : Action τ) : Option (State τ) :=
  ((s.thread a.thread).step s.word a.act).map fun r =>
    { s with thread := Function.update s.thread a.thread r.1 }.happens r.2

end ThreadBites.Once

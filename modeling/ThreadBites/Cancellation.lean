import ThreadBites.CancelStatus

/-!
# Cancellation

One thread and any number of calls of `tbthread_cancel` on it. Each read of
`cancel_status` and each compare-and-swap is a step. The handler of `SIGCANCEL`
interrupts the thread between any two steps, and the signal is blocked while the
handler runs; a thread that ended takes no more steps.
-/
namespace ThreadBites.Cancel

open Transition

/-- A call that sets a bit, with arguments that are not refused. -/
inductive Call where
  | setcancelstate (enable : Bool)
  | setcanceltype (deferred : Bool)
  deriving DecidableEq, Repr

def Call.bit : Call → Bit
  | .setcancelstate _ => .enabled
  | .setcanceltype _ => .deferred

def Call.value : Call → Bool
  | .setcancelstate enable => enable
  | .setcanceltype deferred => deferred

/-- `tbthread_testcancel` is called before the call returns. -/
def Call.tests : Call → Bool
  | .setcancelstate enable => enable
  | .setcanceltype _ => true

/-- Where `tbthread_testcancel` is: before its read, before the compare-and-swap, before `tbthread_exit`. -/
inductive TestPc where
  | read
  | swap (val : { val : BitVec 8 // acts val = true })
  | exit
  deriving DecidableEq

/-- Where the thread is. `read` and `swap` are in `set_cancelation_bit`; `user` is code of the program,
cleanup handlers among it. -/
inductive Pc where
  | user
  | read (c : Call)
  | swap (c : Call) (val : BitVec 8)
  | test (p : TestPc)
  deriving DecidableEq

/-- Where `tb_cancel_handler` is. -/
inductive HandlerPc where
  | check
  | test (p : TestPc)
  deriving DecidableEq

/-- `SIGCANCEL` can be delivered, is blocked by the handler, or stays blocked as the handler called
`tbthread_exit`. -/
inductive Signal where
  | unblocked
  | handling (p : HandlerPc)
  | blocked
  deriving DecidableEq

/-- Where a call of `tbthread_cancel` is. -/
inductive CancelPc where
  | out (ret : Int)
  | lock
  | find
  | read
  | swap (val : BitVec 8)
  | send
  | unlock (ret : Int)
  deriving DecidableEq, Repr

def Signal.handles : Signal → Bool
  | .handling _ => true
  | _ => false

/-- `oldbit` and `ret` are what the thread's last call returned, and `exits` counts the calls of
`tbthread_exit` by `tbthread_testcancel`. -/
structure State (γ : Type) where
  status : BitVec 8
  pc : Pc
  signal : Signal
  pending : Bool
  cancel : γ → CancelPc
  mutex : Option γ
  oldbit : Bool
  ret : Int
  exits : Nat

def State.start (γ : Type) (status : BitVec 8) : State γ where
  status := status
  pc := .user
  signal := .unblocked
  pending := false
  cancel := fun _ => .out 0
  mutex := none
  oldbit := false
  ret := 0
  exits := 0

/-- A thread as `tbthread_create` makes it, or the one of `tbthread_init`. -/
def Initial {γ : Type} (s : State γ) : Prop :=
  s = State.start γ createdStatus ∨ s = State.start γ 0

/-- A call of the thread, its next access, the delivery of a signal, or a step of a call of
`tbthread_cancel`; `found` says whether the thread is in `used_desc`. -/
inductive Action (γ : Type) where
  | setcancelstate (state : Int)
  | setcanceltype (type : Int)
  | testcancel
  | own
  | deliver
  | cancel (c : γ)
  | find (c : γ) (found : Bool)
  | next (c : γ)
  deriving DecidableEq, Repr

def EINVAL : Int := 22

def ESRCH : Int := 3

/-- The next access of `tbthread_testcancel`: the status, and where it is after that, if it did not return. -/
def TestPc.next (status : BitVec 8) : TestPc → BitVec 8 × Option TestPc
  | .read => (status, if h : acts status = true then some (.swap ⟨status, h⟩) else none)
  | .swap val => if status = val then (put .canceled true status, some .exit) else (status, some .read)
  | .exit => (status, none)

/-- `set_cancelation_bit` is done. -/
def Call.after (c : Call) : Pc := if c.tests then .test .read else .user

variable {γ : Type}

/-- The next access of the thread itself. -/
def State.main (s : State γ) : Option (State γ) :=
  match s.pc with
  | .user => none
  | .read c => some { s with pc := .swap c s.status }
  | .swap c val =>
      if s.status = val then
        some { s with status := put c.bit c.value s.status, oldbit := has c.bit val, ret := 0, pc := c.after }
      else some { s with pc := .read c }
  | .test .exit => some { s with exits := s.exits + 1, pc := .user }
  | .test p => some { s with
      status := (p.next s.status).1
      pc := match (p.next s.status).2 with
        | some q => .test q
        | none => .user }

/-- The next access of the handler. It unblocks the signal when it returns, and what it interrupted is
left behind when it calls `tbthread_exit`. -/
def State.handle (s : State γ) : HandlerPc → State γ
  | .check => { s with signal := if has .deferred s.status then .unblocked else .handling (.test .read) }
  | .test .exit => { s with exits := s.exits + 1, signal := .blocked, pc := .user }
  | .test p => { s with
      status := (p.next s.status).1
      signal := match (p.next s.status).2 with
        | some q => .handling (.test q)
        | none => .unblocked }

/-- The thread runs code of the program. -/
def State.inUser (s : State γ) : Prop := s.pc = .user ∧ s.signal.handles = false

instance (s : State γ) : Decidable s.inUser := by
  unfold State.inUser
  infer_instance

variable [DecidableEq γ]

def State.goto (s : State γ) (c : γ) (p : CancelPc) : State γ :=
  { s with cancel := Function.update s.cancel c p }

/-- The next access of `tbthread_cancel`. -/
def State.canceller (s : State γ) (c : γ) : Option (State γ) :=
  match s.cancel c with
  | .lock => if s.mutex = none then some ({ s with mutex := some c }.goto c .find) else none
  | .read => some (s.goto c (if has .canceling s.status then .unlock 0 else .swap s.status))
  | .swap val =>
      if s.status = val then
        some ({ s with status := put .canceling true val }.goto c (if signals val then .send else .unlock 0))
      else some (s.goto c .read)
  | .send => some ({ s with pending := true }.goto c (.unlock 0))
  | .unlock ret => some ({ s with mutex := none }.goto c (.out ret))
  | _ => none

/-- A call with an argument that is neither of the two constants is refused. -/
def State.call (s : State γ) (arg : Int) (c : Bool → Call) : State γ :=
  if arg = 0 then { s with pc := .read (c false) }
  else if arg = 1 then { s with pc := .read (c true) }
  else { s with ret := -EINVAL }

def step (s : State γ) : Action γ → Option (State γ)
  | .setcancelstate state => if s.inUser then some (s.call state .setcancelstate) else none
  | .setcanceltype type => if s.inUser then some (s.call type .setcanceltype) else none
  | .testcancel => if s.inUser then some { s with pc := .test .read } else none
  | .own => match s.signal with
      | .handling p => some (s.handle p)
      | _ => s.main
  | .deliver =>
      if s.pending = true ∧ s.signal = .unblocked then
        some { s with pending := false, signal := .handling .check }
      else none
  | .cancel c => match s.cancel c with
      | .out _ => some (s.goto c .lock)
      | _ => none
  | .find c found =>
      if s.cancel c = .find then some (s.goto c (if found then .read else .unlock (-ESRCH))) else none
  | .next c => s.canceller c

/-- The thread runs `tbthread_testcancel` before anything else of the program. -/
def Pc.willTest : Pc → Bool
  | .user => false
  | .read c => c.tests
  | .swap c _ => c.tests
  | .test _ => true

def HandlerPc.willTest (status : BitVec 8) : HandlerPc → Bool
  | .check => !has .deferred status
  | .test _ => true

def State.willTest (s : State γ) : Prop :=
  s.pc.willTest = true ∨ ∃ p, s.signal = .handling p ∧ p.willTest s.status = true

/-- A request that the thread has to act on at once. -/
def Urgent (status : BitVec 8) : Prop :=
  has .canceling status = true ∧ has .enabled status = true ∧ has .deferred status = false ∧
    has .canceled status = false

/-- What cancellation promises in a state. -/
structure Answered (s : State γ) : Prop where
  heard : Urgent s.status → s.pending = true ∨ (∃ c, s.cancel c = .send) ∨ s.willTest
  kept : ∀ a t, step s a = some t → (has .canceling s.status = true → has .canceling t.status = true) ∧
    (has .canceled s.status = true → has .canceled t.status = true)
  once : s.exits ≤ 1
  rightly : ∀ a t, step s a = some t → s.exits < t.exits →
    has .enabled s.status = true ∧ has .canceling s.status = true

end ThreadBites.Cancel

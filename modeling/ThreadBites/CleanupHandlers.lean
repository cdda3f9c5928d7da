import ThreadBites.CancelStatus

/-!
# Cleanup handlers

One thread, its list of handlers, and the ways in which it ends. The handlers are
called while they are still in the list. `tbthread_exit` does not return, so what
it was called from is left behind. `tbthread_testcancel` acts in one step, as only
the thread itself changes the bits that it and the requests of others leave alone.
-/
namespace ThreadBites.Cleanup

open Transition Cancel

/-- What the thread is in: its function, `start_thread` after that has returned and after cancellation
was disabled, or `tbthread_exit` with the handlers from the cursor on, before `list_clear`, and after. -/
inductive Base (η : Type) where
  | fn
  | returned
  | disabled
  | exit (rest : List η)
  | release
  | cleared
  deriving DecidableEq, Repr

/-- What interrupts it or was called in it: a handler, `tbthread_cleanup_pop` before the handler is
called, `tbthread_testcancel`, `tb_cancel_handler` before and after its test. -/
inductive Frame (η : Type) where
  | func (h : η)
  | pop (h : η)
  | test
  | signal (tested : Bool)
  deriving DecidableEq, Repr

/-- `invoked` has the handlers that were called, and `due` those that should be called by the time the
thread is done with them, both in order; no step reads them. -/
structure State (η : Type) where
  status : BitVec 8
  blocked : Bool
  base : Base η
  frames : List (Frame η)
  handlers : List η
  invoked : List η
  due : List η
  deriving DecidableEq, Repr

def State.start (η : Type) (status : BitVec 8) : State η where
  status := status
  blocked := false
  base := .fn
  frames := []
  handlers := []
  invoked := []
  due := []

/-- A thread as `tbthread_create` makes it, or the one of `tbthread_init`. -/
def Initial {η : Type} (s : State η) : Prop := s = State.start η createdStatus ∨ s = State.start η 0

/-- A call of the thread, the return of its function or of a handler, the next step of the library, a
request of `tbthread_cancel`, or a signal. -/
inductive Action (η : Type) where
  | push (h : η)
  | pop (execute : Bool)
  | exit
  | ret
  | setcancelstate (enable : Bool)
  | setcanceltype (deferred : Bool)
  | testcancel
  | finish
  | next
  | request
  | deliver
  deriving DecidableEq, Repr

variable {η : Type}

/-- The thread is ending. -/
def Base.ending : Base η → Bool
  | .fn => false
  | _ => true

/-- Code of the program runs that may ask about its cancellation: the function of the thread, one of the
handlers, or what `tbthread_exit` calls after them. -/
def State.inUser (s : State η) : Bool :=
  match s.frames with
  | [] => match s.base with
      | .fn => true
      | .cleared => true
      | _ => false
  | .func _ :: _ => true
  | _ => false

/-- `tbthread_exit`. The handlers that are in the list are due if the thread is not ending already. -/
def State.exit (s : State η) : State η :=
  { s with
    base := .exit s.handlers
    frames := []
    due := if s.base.ending then s.due else s.due ++ s.handlers }

/-- The next step of what was called, or interrupts. -/
def State.frame (s : State η) (rest : List (Frame η)) : Frame η → Option (State η)
  | .func _ => none
  | .pop h => some { s with frames := .func h :: rest, invoked := s.invoked ++ [h] }
  | .test =>
      if acts s.status then some ({ s with status := put .canceled true s.status }.exit)
      else some { s with frames := rest }
  | .signal false =>
      if has .deferred s.status then some { s with frames := rest, blocked := false }
      else some { s with frames := .test :: .signal true :: rest }
  | .signal true => some { s with frames := rest, blocked := false }

/-- The next step of `start_thread` or `tbthread_exit`. -/
def State.ended (s : State η) : Base η → Option (State η)
  | .fn => none
  | .returned => some { s with status := put .enabled false s.status, base := .disabled }
  | .disabled => some { s with handlers := [], base := .exit [] }
  | .exit (h :: rest) => some { s with base := .exit rest, frames := [.func h], invoked := s.invoked ++ [h] }
  | .exit [] => some { s with base := .release }
  | .release => some { s with handlers := [], base := .cleared }
  | .cleared => none

/-- `tbthread_cleanup_pop`. -/
def State.pop (s : State η) (execute : Bool) : State η :=
  match s.handlers with
  | [] => s
  | h :: rest =>
      if execute then { s with handlers := rest, frames := [.pop h], due := s.due ++ [h] }
      else { s with handlers := rest }

def step (s : State η) : Action η → Option (State η)
  | .push h => match s.base, s.frames with
      | .fn, [] => some { s with handlers := h :: s.handlers }
      | _, _ => none
  | .pop execute => match s.base, s.frames with
      | .fn, [] => some (s.pop execute)
      | _, _ => none
  | .exit => match s.base, s.frames with
      | .fn, [] => some s.exit
      | _, _ => none
  | .ret => match s.base, s.frames with
      | .fn, [] => some { s with base := .returned }
      | _, _ => none
  | .setcancelstate enable =>
      if s.inUser then
        some { s with
          status := put .enabled enable s.status
          frames := if enable then .test :: s.frames else s.frames }
      else none
  | .setcanceltype deferred =>
      if s.inUser then some { s with status := put .deferred deferred s.status, frames := .test :: s.frames }
      else none
  | .testcancel => if s.inUser then some { s with frames := .test :: s.frames } else none
  | .finish => match s.frames with
      | .func _ :: rest => some { s with frames := rest }
      | _ => none
  | .next => match s.frames with
      | [] => s.ended s.base
      | f :: rest => s.frame rest f
  | .request => some { s with status := put .canceling true s.status }
  | .deliver =>
      if s.blocked then none else some { s with frames := .signal false :: s.frames, blocked := true }

/-- The thread is done with the handlers for now: its function runs or has returned, or the list was
cleared. -/
def Settled (s : State η) : Prop :=
  s.frames = [] ∧ (s.base = .fn ∨ s.base = .returned ∨ s.base = .cleared)

/-- No handler is called that is not due, none twice, and none out of order; where the thread is done with
them, all that are due were called. -/
def CalledOnce (s : State η) : Prop := s.invoked <+: s.due ∧ (Settled s → s.invoked = s.due)

/-- A cancellation that takes effect does no harm here: in `tbthread_exit` none of the handlers was called
yet or the list is empty, after the return of the function no handler is left. -/
def Base.spares (handlers : List η) : Base η → Prop
  | .exit rest => rest = handlers
  | .fn => True
  | _ => handlers = []

/-- Between the removal of a handler and its call a cancellation loses it. -/
def Frame.spares : Frame η → Prop
  | .pop _ => False
  | _ => True

/-- The condition on steps: where `tbthread_testcancel` is about to act, that does no harm. -/
def Spared (s : State η) : Action η → Prop
  | .next => s.frames.head? = some .test → acts s.status = true →
      s.base.spares s.handlers ∧ ∀ f ∈ s.frames, f.spares
  | _ => True

variable [DecidableEq η]

instance (handlers : List η) : ∀ b : Base η, Decidable (b.spares handlers)
  | .exit rest => inferInstanceAs (Decidable (rest = handlers))
  | .fn => .isTrue trivial
  | .returned => inferInstanceAs (Decidable (handlers = []))
  | .disabled => inferInstanceAs (Decidable (handlers = []))
  | .release => inferInstanceAs (Decidable (handlers = []))
  | .cleared => inferInstanceAs (Decidable (handlers = []))

instance : ∀ f : Frame η, Decidable f.spares
  | .pop _ => .isFalse id
  | .func _ => .isTrue trivial
  | .test => .isTrue trivial
  | .signal _ => .isTrue trivial

instance (s : State η) : ∀ a : Action η, Decidable (Spared s a)
  | .next => inferInstanceAs (Decidable (s.frames.head? = some .test → acts s.status = true →
      s.base.spares s.handlers ∧ ∀ f ∈ s.frames, f.spares))
  | .push _ => .isTrue trivial
  | .pop _ => .isTrue trivial
  | .exit => .isTrue trivial
  | .ret => .isTrue trivial
  | .setcancelstate _ => .isTrue trivial
  | .setcanceltype _ => .isTrue trivial
  | .testcancel => .isTrue trivial
  | .finish => .isTrue trivial
  | .request => .isTrue trivial
  | .deliver => .isTrue trivial

end ThreadBites.Cleanup

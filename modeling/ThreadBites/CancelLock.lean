import ThreadBites.Cancellation

/-!
# Cancellation and the descriptor lock

Every thread may cancel every thread, itself included. `tbthread_cancel` keeps
`desc_mutex` while it signals; the handler of the signal may run `tbthread_exit`,
which takes the same mutex, which is not recursive. A signal that a thread sends
to itself is delivered before its system call returns, unless it is blocked; one
for another thread at any time. The sections of other functions are there as well.
-/
namespace ThreadBites.CancelLock

open Transition
open Cancel (has put acts signals Bit Call TestPc HandlerPc Signal ESRCH)

variable {τ : Type}

/-- Where a thread is; `user` is code of the program, cleanup handlers and destructors among it.
`lock` and `unlock` are the sections of other functions. -/
inductive Pc (τ : Type) where
  | user
  | test (p : TestPc)
  | cancelLock (thread : τ)
  | find (thread : τ)
  | read (thread : τ)
  | swap (thread : τ) (val : BitVec 8)
  | tgkill (thread : τ)
  | signalled (thread : τ)
  | cancelUnlock (ret : Int)
  | lock
  | unlock
  | exitLock
  | exitUnlock
  | gone
  deriving DecidableEq

/-- What `desc_mutex` was locked for. -/
inductive Site where
  | cancel
  | other
  deriving DecidableEq, Repr

/-- `ret` is what the last `tbthread_cancel` of a thread returned; `exiting` says that the code of the
program that it runs was called by `tbthread_exit`. -/
structure State (τ : Type) where
  status : τ → BitVec 8
  pc : τ → Pc τ
  signal : τ → Signal
  pending : τ → Bool
  exiting : τ → Bool
  mutex : Option (τ × Site)
  ret : τ → Int

/-- Threads in code of the program, each with any status. -/
structure Initial (s : State τ) : Prop where
  user : ∀ t, s.pc t = .user
  signal : ∀ t, s.signal t = .unblocked
  pending : ∀ t, s.pending t = false
  exiting : ∀ t, s.exiting t = false
  mutex : s.mutex = none

/-- Calls, the delivery of a signal, and the next access of a thread. `found` says whether the thread
is in `used_desc`; `set` is the compare-and-swap by which a call sets a bit. -/
inductive Action (τ : Type) where
  | cancel (t thread : τ)
  | find (t : τ) (found : Bool)
  | guarded (t : τ)
  | set (t : τ) (c : Call)
  | testcancel (t : τ)
  | exit (t : τ)
  | finish (t : τ)
  | deliver (t : τ)
  | next (t : τ)
  deriving DecidableEq, Repr

/-- The thread runs code of the program. -/
def State.inUser (s : State τ) (t : τ) : Prop := s.pc t = .user ∧ (s.signal t).handles = false

variable [DecidableEq τ]

instance (s : State τ) (t : τ) : Decidable (s.inUser t) :=
  inferInstanceAs (Decidable (_ ∧ _))

def State.goto (s : State τ) (t : τ) (c : Pc τ) : State τ := { s with pc := Function.update s.pc t c }

def State.setStatus (s : State τ) (t : τ) (val : BitVec 8) : State τ :=
  { s with status := Function.update s.status t val }

def State.setSignal (s : State τ) (t : τ) (signal : Signal) : State τ :=
  { s with signal := Function.update s.signal t signal }

/-- `tbthread_exit` runs the cleanup handlers and the destructors first. -/
def State.beginExit (s : State τ) (t : τ) : State τ :=
  { s with exiting := Function.update s.exiting t true }.goto t .user

/-- The next access of a thread that handles no signal. -/
def main (s : State τ) (t : τ) : Option (State τ) :=
  match s.pc t with
  | .cancelLock u => if s.mutex = none then some ({ s with mutex := some (t, .cancel) }.goto t (.find u)) else none
  | .read u => some (s.goto t (if has .canceling (s.status u) then .cancelUnlock 0 else .swap u (s.status u)))
  | .swap u val =>
    if s.status u = val then
      some ((s.setStatus u (put .canceling true val)).goto t (if signals val then .tgkill u else .cancelUnlock 0))
    else some (s.goto t (.read u))
  | .tgkill u => some ({ s with pending := Function.update s.pending u true }.goto t (.signalled u))
  -- a signal to itself comes before the system call returns
  | .signalled u =>
    if u = t ∧ s.pending t = true ∧ s.signal t = .unblocked then none else some (s.goto t (.cancelUnlock 0))
  | .cancelUnlock ret => some ({ s with mutex := none, ret := Function.update s.ret t ret }.goto t .user)
  | .lock => if s.mutex = none then some ({ s with mutex := some (t, .other) }.goto t .unlock) else none
  | .unlock => some ({ s with mutex := none }.goto t .user)
  | .exitLock => if s.mutex = none then some ({ s with mutex := some (t, .other) }.goto t .exitUnlock) else none
  | .exitUnlock => some ({ s with mutex := none }.goto t .gone)
  | .test .exit => some (s.beginExit t)
  | .test p => some ((s.setStatus t (p.next (s.status t)).1).goto t (match (p.next (s.status t)).2 with
    | some q => .test q
    | none => .user))
  | .user => none
  | .find _ => none
  | .gone => none

/-- The next access of the handler. What it interrupted is left behind when it calls `tbthread_exit`. -/
def handle (s : State τ) (t : τ) : HandlerPc → State τ
  | .check => s.setSignal t (if has .deferred (s.status t) then .unblocked else .handling (.test .read))
  | .test .exit => (s.setSignal t .blocked).beginExit t
  | .test p => (s.setStatus t (p.next (s.status t)).1).setSignal t (match (p.next (s.status t)).2 with
    | some q => .handling (.test q)
    | none => .unblocked)

def step (s : State τ) : Action τ → Option (State τ)
  | .cancel t u => if s.inUser t then some (s.goto t (.cancelLock u)) else none
  | .find t found => match s.pc t, s.signal t with
    | .find _, .handling _ => none
    | .find u, _ => some (s.goto t (if found then .read u else .cancelUnlock (-ESRCH)))
    | _, _ => none
  | .guarded t => if s.inUser t then some (s.goto t .lock) else none
  | .set t c => if s.inUser t then
      some ((s.setStatus t (put c.bit c.value (s.status t))).goto t (if c.tests then .test .read else .user))
    else none
  | .testcancel t => if s.inUser t then some (s.goto t (.test .read)) else none
  | .exit t => if s.inUser t then some (s.beginExit t) else none
  | .finish t => if s.inUser t ∧ s.exiting t = true then some (s.goto t .exitLock) else none
  | .deliver t =>
    if s.pending t = true ∧ s.signal t = .unblocked ∧ s.pc t ≠ .gone then
      some ({ s with pending := Function.update s.pending t false }.setSignal t (.handling .check))
    else none
  | .next t => match s.signal t with
    | .handling p => some (handle s t p)
    | _ => main s t

/-- Between the lock and the unlock of `tbthread_cancel`. -/
def Pc.cancelling : Pc τ → Bool
  | .find _ => true
  | .read _ => true
  | .swap _ _ => true
  | .tgkill _ => true
  | .signalled _ => true
  | .cancelUnlock _ => true
  | _ => false

/-- `SIGCANCEL` makes the thread exit. -/
def fatal (val : BitVec 8) : Bool := !has .deferred val && acts val

/-- No signal that makes it exit is delivered to a thread that has the lock in `tbthread_cancel`. -/
def Spared (s : State τ) : Action τ → Prop
  | .deliver t => (s.pc t).cancelling = true → fatal (s.status t) = false
  | _ => True

instance (s : State τ) : (a : Action τ) → Decidable (Spared s a)
  | .deliver _ => inferInstanceAs (Decidable (_ → _))
  | .cancel _ _ => isTrue trivial
  | .find _ _ => isTrue trivial
  | .guarded _ => isTrue trivial
  | .set _ _ => isTrue trivial
  | .testcancel _ => isTrue trivial
  | .exit _ => isTrue trivial
  | .finish _ => isTrue trivial
  | .next _ => isTrue trivial

/-- No thread is back in the program, or about to lock the mutex again, with the lock of a
`tbthread_cancel` of its own. -/
structure Apart (s : State τ) : Prop where
  exits : ∀ t, s.pc t = .exitLock → s.mutex ≠ some (t, .cancel)
  returns : ∀ t, s.pc t = .user → s.mutex ≠ some (t, .cancel)

/-- In the section of another function. -/
def Pc.guarded : Pc τ → Bool
  | .unlock => true
  | .exitUnlock => true
  | _ => false

/-- A thread has the lock for a cancel exactly in its section, where no handler makes it exit. -/
structure Inv (s : State τ) : Prop where
  mutex : ∀ t, s.mutex = some (t, .cancel) ↔ (s.pc t).cancelling = true
  other : ∀ t, (s.pc t).guarded = true → s.mutex = some (t, .other)
  check : ∀ t, (s.pc t).cancelling = true → s.signal t = .handling .check → fatal (s.status t) = false
  test : ∀ t p, (s.pc t).cancelling = true → s.signal t = .handling (.test p) → p = .read ∧ acts (s.status t) = false

section Moves

omit [DecidableEq τ]

theorem Initial.inv {s : State τ} (h : Initial s) : Inv s := by
  constructor
  · intro t
    simp [h.mutex, h.user, Pc.cancelling]
  all_goals
    intro t
    simp [h.user, Pc.cancelling, Pc.guarded]

theorem Inv.apart {s : State τ} (h : Inv s) : Apart s := by
  constructor
  · intro t hpc hm
    have hc := (h.mutex t).mp hm
    rw [hpc] at hc
    cases hc
  · intro t hpc hm
    have hc := (h.mutex t).mp hm
    rw [hpc] at hc
    cases hc

/-- Only the thread itself is in its section. -/
theorem Inv.alone {s : State τ} (h : Inv s) {t u : τ} (ht : (s.pc t).cancelling = true)
    (hu : (s.pc u).cancelling = true) : u = t := by
  have h₁ := (h.mutex t).mpr ht
  have h₂ := (h.mutex u).mpr hu
  rw [h₁] at h₂
  simpa using h₂.symm

/-- One thread moves; the status of a thread in its section stays. -/
theorem Inv.move {s s' : State τ} (h : Inv s) (t : τ)
    (hother : ∀ u, u ≠ t → s'.pc u = s.pc u ∧ s'.signal u = s.signal u ∧
      ((s.pc u).cancelling = true → s'.status u = s.status u) ∧
      ∀ site, s'.mutex = some (u, site) ↔ s.mutex = some (u, site))
    (hmutex : s'.mutex = some (t, .cancel) ↔ (s'.pc t).cancelling = true)
    (hguarded : (s'.pc t).guarded = true → s'.mutex = some (t, .other))
    (hcheck : (s'.pc t).cancelling = true → s'.signal t = .handling .check → fatal (s'.status t) = false)
    (htest : ∀ p, (s'.pc t).cancelling = true → s'.signal t = .handling (.test p) →
      p = .read ∧ acts (s'.status t) = false) : Inv s' := by
  constructor
  · intro u
    by_cases hu : u = t
    · subst u
      exact hmutex
    · obtain ⟨hpc, -, -, hm⟩ := hother u hu
      rw [hm, hpc]
      exact h.mutex u
  · intro u hg
    by_cases hu : u = t
    · subst u
      exact hguarded hg
    · obtain ⟨hpc, -, -, hm⟩ := hother u hu
      rw [hpc] at hg
      exact (hm _).mpr (h.other u hg)
  · intro u hc hs
    by_cases hu : u = t
    · subst u
      exact hcheck hc hs
    · obtain ⟨hpc, hsig, hst, -⟩ := hother u hu
      rw [hpc] at hc
      rw [hst hc]
      exact h.check u hc (hsig ▸ hs)
  · intro u p hc hs
    by_cases hu : u = t
    · subst u
      exact htest p hc hs
    · obtain ⟨hpc, hsig, hst, -⟩ := hother u hu
      rw [hpc] at hc
      rw [hst hc]
      exact h.test u p hc (hsig ▸ hs)

end Moves

section Main

variable {s : State τ} {t : τ} {c : Pc τ}

/-- A thread that handles no signal moves, and its place agrees with the mutex. -/
theorem Inv.goto (h : Inv s) {mutex : Option (τ × Site)} {status : τ → BitVec 8}
    {pending exiting : τ → Bool} {ret : τ → Int} (hsig : (s.signal t).handles = false)
    (hmutex : mutex = some (t, .cancel) ↔ c.cancelling = true) (hguarded : c.guarded = true → mutex = some (t, .other))
    (hothers : ∀ u, u ≠ t → ∀ site, mutex = some (u, site) ↔ s.mutex = some (u, site))
    (hstatus : ∀ u, u ≠ t → (s.pc u).cancelling = true → status u = s.status u) :
    Inv ({ s with
      mutex := mutex, status := status, pending := pending, exiting := exiting, ret := ret }.goto t c) := by
  have hno : ∀ p, s.signal t ≠ .handling p := fun p hp => by
    rw [hp] at hsig
    cases hsig
  apply h.move t
  · intro u hu
    exact ⟨by simp [State.goto, hu], rfl, hstatus u hu, hothers u hu⟩
  · simpa [State.goto] using hmutex
  · simpa [State.goto] using hguarded
  · exact fun _ hs => absurd hs (hno _)
  · exact fun p _ hs => absurd hs (hno _)

/-- A move that leaves the mutex, between places that are alike to it. -/
theorem Inv.walk (h : Inv s) {status : τ → BitVec 8} {pending exiting : τ → Bool}
    (hsig : (s.signal t).handles = false) (hpc : c.cancelling = (s.pc t).cancelling) (hguarded : c.guarded = false)
    (hstatus : ∀ u, u ≠ t → (s.pc u).cancelling = true → status u = s.status u) :
    Inv ({ s with status := status, pending := pending, exiting := exiting }.goto t c) := by
  have hm := h.mutex t
  rw [← hpc] at hm
  exact h.goto hsig hm (by simp [hguarded]) (fun _ _ _ => Iff.rfl) hstatus

/-- Taking the free lock. -/
theorem Inv.lock (h : Inv s) {site : Site} (hsig : (s.signal t).handles = false) (hfree : s.mutex = none)
    (hc : site = .cancel ↔ c.cancelling = true) (hguarded : c.guarded = true → site = .other) :
    Inv ({ s with mutex := some (t, site) }.goto t c) := by
  apply h.goto hsig
  · simpa using hc
  · simpa using hguarded
  · intro u hu site
    simp [hfree, Ne.symm hu]
  · exact fun _ _ _ => rfl

/-- Giving the lock back. -/
theorem Inv.unlock (h : Inv s) {ret : τ → Int} {site : Site} (hsig : (s.signal t).handles = false)
    (hheld : s.mutex = some (t, site)) (hc : c.cancelling = false) (hguarded : c.guarded = false) :
    Inv ({ s with mutex := none, ret := ret }.goto t c) := by
  apply h.goto hsig
  · simp [hc]
  · simp [hguarded]
  · intro u hu site
    simp [hheld, Ne.symm hu]
  · exact fun _ _ _ => rfl

theorem main_inv (h : Inv s) {s' : State τ} (hsig : (s.signal t).handles = false) (hs : main s t = some s') : Inv s' := by
  unfold main at hs
  split at hs <;> rename_i hpc
  · rename_i u
    split at hs <;> cases hs
    rename_i hfree
    exact h.lock hsig hfree (by simp [Pc.cancelling]) (by simp [Pc.guarded])
  · rename_i u
    cases hs
    apply h.walk hsig
    · rw [hpc]
      split <;> rfl
    · split <;> rfl
    · exact fun _ _ _ => rfl
  · rename_i u val
    split at hs <;> cases hs
    · apply h.walk hsig
      · rw [hpc]
        split <;> rfl
      · split <;> rfl
      · -- whoever else is in the section would have the lock as well
        intro v hv hc
        exact absurd (h.alone (by rw [hpc]; rfl) hc) hv
    · exact h.walk hsig (by rw [hpc]; rfl) rfl fun _ _ _ => rfl
  · cases hs
    exact h.walk hsig (by rw [hpc]; rfl) rfl fun _ _ _ => rfl
  · split at hs <;> cases hs
    exact h.walk hsig (by rw [hpc]; rfl) rfl fun _ _ _ => rfl
  · cases hs
    exact h.unlock hsig ((h.mutex t).mpr (by rw [hpc]; rfl)) rfl rfl
  · split at hs <;> cases hs
    rename_i hfree
    exact h.lock hsig hfree (by simp [Pc.cancelling]) fun _ => rfl
  · cases hs
    exact h.unlock hsig (h.other t (by rw [hpc]; rfl)) rfl rfl
  · split at hs <;> cases hs
    rename_i hfree
    exact h.lock hsig hfree (by simp [Pc.cancelling]) fun _ => rfl
  · cases hs
    exact h.unlock hsig (h.other t (by rw [hpc]; rfl)) rfl rfl
  · cases hs
    exact h.walk hsig (by rw [hpc]; rfl) rfl fun _ _ _ => rfl
  · cases hs
    apply h.walk hsig
    · rw [hpc]
      split <;> rfl
    · split <;> rfl
    · exact fun v hv _ => by simp [hv]
  all_goals cases hs

end Main

section Handler

variable {s : State τ} {t : τ}

/-- The handler moves on, and the thread it interrupted stays. -/
theorem Inv.handling (h : Inv s) {signal : Signal} {status : BitVec 8} {pending : τ → Bool}
    (hstatus : (s.pc t).cancelling = true → status = s.status t)
    (hcheck : (s.pc t).cancelling = true → signal = .handling .check → fatal (s.status t) = false)
    (htest : ∀ p, (s.pc t).cancelling = true → signal = .handling (.test p) → p = .read ∧ acts (s.status t) = false) :
    Inv ({ s with status := Function.update s.status t status, pending := pending }.setSignal t signal) := by
  apply h.move t
  · intro u hu
    exact ⟨rfl, by simp [State.setSignal, hu], fun _ => by simp [State.setSignal, hu], fun _ => Iff.rfl⟩
  · exact h.mutex t
  · exact h.other t
  · intro hc hs
    have hsig : signal = .handling .check := by simpa [State.setSignal] using hs
    simpa [State.setSignal, hstatus hc] using hcheck hc hsig
  · intro p hc hs
    have hsig : signal = .handling (.test p) := by simpa [State.setSignal] using hs
    simpa [State.setSignal, hstatus hc] using htest p hc hsig

theorem handle_inv (h : Inv s) {p : HandlerPc} (hsig : s.signal t = .handling p) : Inv (handle s t p) := by
  have hself : s.status = Function.update s.status t (s.status t) := (Function.update_eq_self ..).symm
  cases p with
  | check =>
    have hstep : Inv ({ s with status := Function.update s.status t (s.status t), pending := s.pending }.setSignal t
        (if has .deferred (s.status t) then .unblocked else .handling (.test .read))) := by
      apply h.handling (fun _ => rfl)
      · intro _ he
        split at he <;> cases he
      · intro p hc he
        have hf := h.check t hc hsig
        split at he
        · cases he
        · rename_i hdeferred
          cases he
          simp only [fatal, hdeferred, Bool.not_false, Bool.true_and] at hf
          exact ⟨rfl, hf⟩
    rwa [← hself] at hstep
  | test p =>
    -- in the section the test finds that it does not act, and the handler returns
    cases hp : p with
    | exit =>
      have hc : (s.pc t).cancelling = false := by
        by_contra hc
        have := (h.test t p (by simpa using hc) hsig).1
        rw [hp] at this
        cases this
      have hm := h.mutex t
      rw [hc] at hm
      apply h.move t
      · intro u hu
        exact ⟨by simp [handle, State.beginExit, State.goto, State.setSignal, hu],
          by simp [handle, State.beginExit, State.goto, State.setSignal, hu], fun _ => rfl, fun _ => Iff.rfl⟩
      · simpa [handle, State.beginExit, State.goto, State.setSignal, Pc.cancelling] using hm
      · simp [handle, State.beginExit, State.goto, Pc.guarded]
      · simp [handle, State.beginExit, State.goto, Pc.cancelling]
      · simp [handle, State.beginExit, State.goto, Pc.cancelling]
    | read =>
      apply h.handling
      · exact fun _ => rfl
      · intro _ he
        split at he <;> cases he
      · intro q hc he
        have hacts := (h.test t p hc hsig).2
        simp [TestPc.next, hacts] at he
    | swap val =>
      have hc : (s.pc t).cancelling = false := by
        by_contra hc
        have := (h.test t p (by simpa using hc) hsig).1
        rw [hp] at this
        cases this
      apply h.handling
      · intro hc'
        rw [hc] at hc'
        cases hc'
      · intro hc'
        rw [hc] at hc'
        cases hc'
      · intro q hc'
        rw [hc] at hc'
        cases hc'

end Handler

theorem step_inv {s s' : State τ} {a : Action τ} (h : Inv s) (ha : Spared s a) (hs : step s a = some s') : Inv s' := by
  have huser : ∀ {t : τ} {c : Pc τ} {status : τ → BitVec 8} {exiting : τ → Bool}, s.inUser t → c.cancelling = false →
      c.guarded = false → (∀ u, u ≠ t → status u = s.status u) →
      Inv ({ s with status := status, exiting := exiting }.goto t c) := by
    intro t c status exiting hu hc hg hst
    exact h.walk hu.2 (by rw [hu.1]; exact hc) hg fun u hne _ => hst u hne
  cases a with
  | cancel t u =>
    simp only [step, Option.ite_none_right_eq_some, Option.some.injEq] at hs
    exact hs.2 ▸ huser hs.1 rfl rfl fun _ _ => rfl
  | find t found =>
    simp only [step] at hs
    split at hs
    · cases hs
    · rename_i u hpc hsig
      cases hs
      apply h.walk
      · cases hsig' : s.signal t with
        | handling p => exact absurd hsig' (hsig p)
        | unblocked | blocked => rfl
      · rw [hpc]
        cases found <;> rfl
      · cases found <;> rfl
      · exact fun _ _ _ => rfl
    · cases hs
  | guarded t =>
    simp only [step, Option.ite_none_right_eq_some, Option.some.injEq] at hs
    exact hs.2 ▸ huser hs.1 rfl rfl fun _ _ => rfl
  | set t c =>
    simp only [step, Option.ite_none_right_eq_some, Option.some.injEq] at hs
    obtain ⟨hu, rfl⟩ := hs
    apply huser hu
    · split <;> rfl
    · split <;> rfl
    · exact fun u hne => by simp [hne]
  | testcancel t =>
    simp only [step, Option.ite_none_right_eq_some, Option.some.injEq] at hs
    exact hs.2 ▸ huser hs.1 rfl rfl fun _ _ => rfl
  | exit t =>
    simp only [step, Option.ite_none_right_eq_some, Option.some.injEq] at hs
    exact hs.2 ▸ huser hs.1 rfl rfl fun _ _ => rfl
  | finish t =>
    simp only [step, Option.ite_none_right_eq_some, Option.some.injEq] at hs
    exact hs.2 ▸ huser hs.1.1 rfl rfl fun _ _ => rfl
  | deliver t =>
    simp only [step, Option.ite_none_right_eq_some, Option.some.injEq] at hs
    obtain ⟨-, rfl⟩ := hs
    have hstep : Inv ({ s with
        status := Function.update s.status t (s.status t)
        pending := Function.update s.pending t false }.setSignal t (.handling .check)) := by
      apply h.handling (fun _ => rfl)
      · exact fun hc _ => ha hc
      · exact fun p _ he => by cases he
    rwa [Function.update_eq_self] at hstep
  | next t =>
    simp only [step] at hs
    split at hs
    · rename_i p hsig
      cases hs
      exact handle_inv h hsig
    · rename_i hsig
      refine main_inv h ?_ hs
      cases hsig' : s.signal t with
      | handling p => exact absurd hsig' (hsig p)
      | unblocked | blocked => rfl

/-- In every run in which no thread is made to exit between the lock and the unlock of its own
`tbthread_cancel`, nobody locks the mutex again, and nobody returns with it. -/
theorem cancel_lock_apart {s : State τ} (h : Reaches Initial step Spared s) : Apart s :=
  (h.invariant (I := Inv) (fun _ h₀ => h₀.inv) fun _ _ _ _ hi ha hs => step_inv hi ha hs).apart

/-- Threads in code of the program, all with one status. -/
def quiet (status : BitVec 8) : State τ where
  status _ := status
  pc _ := .user
  signal _ := .unblocked
  pending _ := false
  exiting _ := false
  mutex := none
  ret _ := 0

omit [DecidableEq τ] in
theorem quiet_initial (status : BitVec 8) : Initial (quiet status : State τ) :=
  ⟨fun _ => rfl, fun _ => rfl, fun _ => rfl, fun _ => rfl, rfl⟩

/-- `tbthread_cancel` on a thread that is to be signalled, up to the signal. -/
def request (t u : τ) : List (Action τ) :=
  [Action.cancel t u, Action.next t, Action.find t true, Action.next t, Action.next t, Action.next t]

/-- Another thread handles the signal while the lock is held, and waits for it to exit. -/
theorem cancel_lock_apart_other : ∃ s : State (Fin 2), s.pc 1 = .exitLock ∧ s.pc 0 = .cancelUnlock 0 ∧ Apart s := by
  obtain ⟨s, hr, h₁, h₀⟩ : ∃ s : State (Fin 2), Reaches Initial step Spared s ∧
      s.pc 1 = .exitLock ∧ s.pc 0 = .cancelUnlock 0 := by
    have hr := Reaches.run_get (quiet_initial 1)
      (show (run step Spared (request (0 : Fin 2) 1 ++ [Action.deliver 1, Action.next 1, Action.next 1, Action.next 1,
        Action.next 1, Action.next 0, Action.finish 1]) (quiet 1)).isSome from by decide)
    exact ⟨_, hr, by decide, by decide⟩
  exact ⟨s, h₁, h₀, cancel_lock_apart hr⟩

/-- A thread with asynchronous cancellation cancels itself: it comes to `tbthread_exit` with the lock. -/
theorem cancel_lock_held : ∃ s : State Unit, Reaches Initial step anyStep s ∧ s.pc () = .exitLock ∧
    s.mutex = some ((), .cancel) ∧ ¬ Apart s := by
  have hr := Reaches.run_get (quiet_initial 1)
    (show (run step anyStep (request () () ++ [Action.deliver (), Action.next (), Action.next (), Action.next (),
      Action.next (), Action.finish ()]) (quiet 1)).isSome from by decide)
  exact ⟨_, hr, by decide, by decide, fun h => h.exits () (by decide) (by decide)⟩

end ThreadBites.CancelLock

import ThreadBites.Transition

/-!
# The start of a thread with a schedule of its own

One call of `tbthread_create` with explicit scheduling, and the thread that it
spawns. They share `start_status`, the word of the thread and the stack. The
thread's `FUTEX_WAIT` compares the status with `TB_START_WAIT`; it returns when
it is woken or when a signal was handled. What `mmap`, `mprotect`, `clone` and
`sched_setscheduler` return is up to the environment.
-/
namespace ThreadBites.StartHandshake

open Transition

inductive StartStatus where
  | ok
  | wait
  | exit
  deriving DecidableEq, Repr

/-- Where `tbthread_create` is. `ret` is its local, and `desc` says whether `*thread` is set. -/
inductive Parent where
  | mmap
  | mprotect
  | pack
  | clone
  | storeTid
  | setSched
  | storeStart (ret : Int)
  | wakeStart (ret : Int)
  | readTid (ret : Int)
  | futexWait (tid : BitVec 32) (ret : Int)
  | asleep (tid : BitVec 32) (ret : Int)
  | munmap (ret : Int) (desc : Bool)
  | release (ret : Int) (desc : Bool)
  | crashed
  | returned (ret : Int)
  deriving DecidableEq, Repr

/-- Where the thread is: before the kernel stores its id, in `start_thread`, in the user's function, or
at the end of `tbthread_exit`. -/
inductive Child where
  | unborn
  | born
  | checkStart
  | futexWait
  | asleep
  | recheck
  | user
  | munmap
  | leaving
  | dead
  deriving DecidableEq, Repr

/-- `id` is the kernel's id of the thread. History: what `tb_set_sched` returned, whether the user's
function was started, whether the stack was mapped and how often it was unmapped, and whether
`tbthread_create` unmapped it while the thread was there. -/
structure State where
  startStatus : StartStatus
  tid : BitVec 32
  id : BitVec 32
  parent : Parent
  child : Child
  sched : Option Int
  started : Bool
  mapped : Bool
  unmaps : Nat
  early : Bool
  deriving DecidableEq, Repr

/-- `tbthread_create` is called; its descriptor may have been used before. -/
structure Initial (s : State) : Prop where
  parent : s.parent = .mmap
  child : s.child = .unborn
  sched : s.sched = none
  started : s.started = false
  mapped : s.mapped = false
  unmaps : s.unmaps = 0
  early : s.early = false

/-- The answers of the kernel, the steps with one outcome, a `FUTEX_WAIT` that returns `-EINTR`, and
the end of the user's function. -/
inductive Action where
  | mmap (status : Int)
  | mprotect (status : Int)
  | clone (tid : Int)
  | setSched (ret : Int)
  | parent
  | parentInterrupt
  | child
  | childInterrupt
  | finish
  deriving DecidableEq, Repr

/-- `FUTEX_WAKE` on `start_status`. -/
def wake : Child → Child
  | .asleep => .recheck
  | c => c

/-- The kernel clears the word of a thread that ends and wakes who waits for it. -/
def resume : Parent → Parent
  | .asleep _ ret => .munmap ret true
  | p => p

/-- There is no thread, or it has terminated. -/
def Child.gone : Child → Bool
  | .unborn => true
  | .dead => true
  | _ => false

def nextParent (s : State) : Option State :=
  match s.parent with
  | .pack => some { s with parent := .clone, startStatus := .wait, tid := 0 }
  | .storeTid => some { s with parent := .setSched, tid := s.id }
  | .storeStart ret => some { s with
      parent := .wakeStart ret, startStatus := if ret ≠ 0 then .exit else .ok }
  | .wakeStart ret => some { s with
      parent := if ret ≠ 0 then .readTid ret else .returned 0, child := wake s.child }
  | .readTid ret => some { s with parent := if s.tid ≠ 0 then .futexWait s.tid ret else .munmap ret true }
  | .futexWait tid ret => some { s with parent := if s.tid = tid then .asleep tid ret else .munmap ret true }
  | .munmap ret desc => some { s with
      parent := .release ret desc, unmaps := s.unmaps + 1, early := !s.child.gone }
  -- release_descriptor of a null pointer finds no node and takes it out of the list
  | .release ret desc => some { s with parent := if desc then .returned ret else .crashed }
  | _ => none

def nextChild (s : State) : Option State :=
  match s.child with
  | .born => some { s with child := .checkStart, tid := s.id }
  | .checkStart =>
    if s.startStatus ≠ .ok then some { s with child := .futexWait }
    else some { s with child := .user, started := true }
  | .futexWait => some { s with child := if s.startStatus = .wait then .asleep else .recheck }
  | .recheck =>
    if s.startStatus = .exit then some { s with child := .leaving }
    else some { s with child := .user, started := true }
  | .munmap => some { s with child := .leaving, unmaps := s.unmaps + 1 }
  | .leaving => some { s with child := .dead, tid := 0, parent := resume s.parent }
  | _ => none

def step (s : State) : Action → Option State
  | .mmap status => if s.parent = .mmap then
      some (if status < 0 then { s with parent := .returned status }
        else { s with parent := .mprotect, mapped := true })
    else none
  | .mprotect status => if s.parent = .mprotect then
      some { s with parent := if status < 0 then .munmap status false else .pack }
    else none
  | .clone tid => if s.parent = .clone then
      if tid < 0 then some { s with parent := .munmap tid true }
      else if BitVec.ofInt 32 tid = 0 then none
      else some { s with parent := .storeTid, child := .born, id := BitVec.ofInt 32 tid }
    else none
  | .setSched ret => if s.parent = .setSched then
      some { s with parent := .storeStart ret, sched := some ret } else none
  | .parent => nextParent s
  | .parentInterrupt => match s.parent with
    | .asleep tid ret => some { s with parent := .futexWait tid ret }
    | _ => none
  | .child => nextChild s
  | .childInterrupt => if s.child = .asleep then some { s with child := .recheck } else none
  | .finish => if s.child = .user then some { s with child := .munmap } else none

/-- What a step of the thread does, case by case. -/
inductive Ran (s : State) : State → Prop where
  | born (hc : s.child = .born) : Ran s { s with child := .checkStart, tid := s.id }
  | wait (hc : s.child = .checkStart) (hw : s.startStatus ≠ .ok) : Ran s { s with child := .futexWait }
  | start (hc : s.child = .checkStart) (hw : s.startStatus = .ok) : Ran s { s with child := .user, started := true }
  | sleep (hc : s.child = .futexWait) (hw : s.startStatus = .wait) : Ran s { s with child := .asleep }
  | wouldBlock (hc : s.child = .futexWait) (hw : s.startStatus ≠ .wait) : Ran s { s with child := .recheck }
  | told (hc : s.child = .recheck) (hw : s.startStatus = .exit) : Ran s { s with child := .leaving }
  | run (hc : s.child = .recheck) (hw : s.startStatus ≠ .exit) : Ran s { s with child := .user, started := true }
  | munmap (hc : s.child = .munmap) : Ran s { s with child := .leaving, unmaps := s.unmaps + 1 }
  | ended (hc : s.child = .leaving) : Ran s { s with child := .dead, tid := 0, parent := resume s.parent }

theorem nextChild_ran {s s' : State} (hs : nextChild s = some s') : Ran s s' := by
  unfold nextChild at hs
  split at hs <;> rename_i hc
  · cases hs; exact .born hc
  · split at hs <;> rename_i hw <;> cases hs
    · exact .wait hc hw
    · exact .start hc (not_not.mp hw)
  · cases hs
    split <;> rename_i hw
    · exact .sleep hc hw
    · exact .wouldBlock hc hw
  · split at hs <;> rename_i hw <;> cases hs
    · exact .told hc hw
    · exact .run hc hw
  · cases hs; exact .munmap hc
  · cases hs; exact .ended hc
  · cases hs

theorem Ran.parent {s s' : State} (hr : Ran s s') : s'.parent = s.parent ∨ s'.parent = resume s.parent := by
  cases hr with
  | ended hc => exact .inr rfl
  | _ => exact .inl rfl

/-- What a step other than the creator's own does, case by case. -/
inductive Answered (s : State) : Action → State → Prop where
  | unmapped {status : Int} (hp : s.parent = .mmap) (hneg : status < 0) :
      Answered s (.mmap status) { s with parent := .returned status }
  | mapped {status : Int} (hp : s.parent = .mmap) (hpos : ¬ status < 0) :
      Answered s (.mmap status) { s with parent := .mprotect, mapped := true }
  | unguarded {status : Int} (hp : s.parent = .mprotect) (hneg : status < 0) :
      Answered s (.mprotect status) { s with parent := .munmap status false }
  | guarded {status : Int} (hp : s.parent = .mprotect) (hpos : ¬ status < 0) :
      Answered s (.mprotect status) { s with parent := .pack }
  | uncloned {tid : Int} (hp : s.parent = .clone) (hneg : tid < 0) :
      Answered s (.clone tid) { s with parent := .munmap tid true }
  | cloned {tid : Int} (hp : s.parent = .clone) (hpos : ¬ tid < 0) (hid : BitVec.ofInt 32 tid ≠ 0) :
      Answered s (.clone tid) { s with parent := .storeTid, child := .born, id := BitVec.ofInt 32 tid }
  | scheduled {ret : Int} (hp : s.parent = .setSched) :
      Answered s (.setSched ret) { s with parent := .storeStart ret, sched := some ret }
  | interrupted {tid : BitVec 32} {ret : Int} (hp : s.parent = .asleep tid ret) :
      Answered s .parentInterrupt { s with parent := .futexWait tid ret }
  | ran {s' : State} (hr : Ran s s') : Answered s .child s'
  | childInterrupted (hc : s.child = .asleep) : Answered s .childInterrupt { s with child := .recheck }
  | finished (hc : s.child = .user) : Answered s .finish { s with child := .munmap }

theorem answered {s s' : State} {a : Action} (ha : a ≠ .parent) (hs : step s a = some s') : Answered s a s' := by
  cases a with
  | mmap status =>
    simp only [step, Option.ite_none_right_eq_some, Option.some.injEq] at hs
    obtain ⟨hp, rfl⟩ := hs
    split <;> rename_i hneg
    · exact .unmapped hp hneg
    · exact .mapped hp hneg
  | mprotect status =>
    simp only [step, Option.ite_none_right_eq_some, Option.some.injEq] at hs
    obtain ⟨hp, rfl⟩ := hs
    by_cases hneg : status < 0
    · simpa only [hneg, if_true] using Answered.unguarded hp hneg
    · simpa only [hneg, if_false] using Answered.guarded hp hneg
  | clone tid =>
    simp only [step, Option.ite_none_right_eq_some] at hs
    obtain ⟨hp, hs⟩ := hs
    split at hs <;> rename_i hneg
    · cases hs
      exact .uncloned hp hneg
    · split at hs <;> cases hs
      rename_i hid
      exact .cloned hp hneg hid
  | setSched ret =>
    simp only [step, Option.ite_none_right_eq_some, Option.some.injEq] at hs
    obtain ⟨hp, rfl⟩ := hs
    exact .scheduled hp
  | parent => exact absurd rfl ha
  | parentInterrupt =>
    simp only [step] at hs
    split at hs <;> cases hs
    exact .interrupted ‹_›
  | child => exact .ran (nextChild_ran hs)
  | childInterrupt =>
    simp only [step, Option.ite_none_right_eq_some, Option.some.injEq] at hs
    obtain ⟨hc, rfl⟩ := hs
    exact .childInterrupted hc
  | finish =>
    simp only [step, Option.ite_none_right_eq_some, Option.some.injEq] at hs
    obtain ⟨hc, rfl⟩ := hs
    exact .finished hc

theorem Answered.started {s s' : State} {a : Action} (h : Answered s a s') (hs : s.started = true) :
    s'.started = true := by
  cases h with
  | ran hr =>
    cases hr with
    | start hc hw => rfl
    | run hc hw => rfl
    | _ => exact hs
  | _ => exact hs

/-- A thread whose `FUTEX_WAIT` has returned finds a status that its creator has stored. -/
def Told (s : State) : Action → Prop
  | .child => s.child = .recheck → s.startStatus ≠ .wait
  | _ => True

instance (s : State) : (a : Action) → Decidable (Told s a)
  | .child => inferInstanceAs (Decidable (_ → _))
  | .mmap _ => isTrue trivial
  | .mprotect _ => isTrue trivial
  | .clone _ => isTrue trivial
  | .setSched _ => isTrue trivial
  | .parent => isTrue trivial
  | .parentInterrupt => isTrue trivial
  | .childInterrupt => isTrue trivial
  | .finish => isTrue trivial

/-- The user's function runs with its schedule only; a create that fails lets it not run, and unmaps
the stack, if it mapped one, once and when the thread has terminated. -/
structure Agreed (s : State) : Prop where
  started : s.started = true → s.sched = some 0 ∧ s.startStatus = .ok
  unmapped : s.early = false
  failed : ∀ ret, s.parent = .returned ret → ret ≠ 0 →
    s.started = false ∧ s.unmaps = s.mapped.toNat ∧ s.child.gone = true

/-- On its way from the kernel through the wait. -/
def Child.waits : Child → Bool
  | .born => true
  | .checkStart => true
  | .futexWait => true
  | .asleep => true
  | .recheck => true
  | _ => false

/-- A thread that never gets beyond the wait. -/
def Child.leaves : Child → Bool
  | .leaving => true
  | .dead => true
  | c => c.waits

/-- The thread does not run and never has. -/
structure Still (s : State) (unmaps : Nat) : Prop where
  gone : s.child.gone = true
  started : s.started = false
  unmaps : s.unmaps = unmaps

/-- The status is not decided yet. -/
structure Waiting (s : State) : Prop where
  status : s.startStatus = .wait
  child : s.child.waits = true
  id : s.id ≠ 0
  started : s.started = false
  unmaps : s.unmaps = 0
  mapped : s.mapped = true

structure Granted (s : State) : Prop where
  status : s.startStatus = .ok
  sched : s.sched = some 0

structure Refused (s : State) : Prop where
  status : s.startStatus = .exit
  child : s.child.leaves = true
  id : s.id ≠ 0
  word : s.tid = if s.child = .dead then 0 else s.id
  started : s.started = false
  unmaps : s.unmaps = 0
  mapped : s.mapped = true

/-- What each place of `tbthread_create` says of the thread. -/
def Placed (s : State) : Parent → Prop
  | .mmap => s.child = .unborn ∧ Still s 0 ∧ s.mapped = false
  | .mprotect => s.child = .unborn ∧ Still s 0 ∧ s.mapped = true
  | .pack => s.child = .unborn ∧ Still s 0 ∧ s.mapped = true
  | .clone => s.child = .unborn ∧ Still s 0 ∧ s.mapped = true ∧ s.startStatus = .wait
  | .storeTid => Waiting s
  | .setSched => Waiting s ∧ s.tid = s.id
  | .storeStart ret => Waiting s ∧ s.tid = s.id ∧ s.sched = some ret
  | .wakeStart ret => if ret = 0 then Granted s else Refused s
  | .readTid ret => ret ≠ 0 ∧ Refused s
  | .futexWait tid ret => ret ≠ 0 ∧ Refused s ∧ tid = s.id
  | .asleep tid ret => ret ≠ 0 ∧ Refused s ∧ tid = s.id
  | .munmap ret _ => ret ≠ 0 ∧ Still s 0 ∧ s.mapped = true
  | .release ret _ => ret ≠ 0 ∧ Still s 1 ∧ s.mapped = true
  | .crashed => Still s 1
  | .returned ret => if ret = 0 then Granted s else Still s s.mapped.toNat

structure Inv (s : State) : Prop where
  placed : Placed s s.parent
  early : s.early = false

theorem Initial.inv {s : State} (h : Initial s) : Inv s := by
  constructor
  · have hstill : Still s 0 := ⟨by rw [h.child]; rfl, h.started, h.unmaps⟩
    rw [h.parent]
    exact ⟨h.child, hstill, h.mapped⟩
  · exact h.early

/-- `start_status` is `TB_START_OK` and `tb_set_sched` has succeeded. -/
def Parent.granted : Parent → Bool
  | .wakeStart ret => ret = 0
  | .returned ret => ret = 0
  | _ => false

theorem Placed.granted {s : State} {p : Parent} (h : Placed s p) (hp : p.granted = true) : Granted s := by
  cases p with
  | wakeStart ret => simpa [Placed, show ret = 0 by simpa [Parent.granted] using hp] using h
  | returned ret => simpa [Placed, show ret = 0 by simpa [Parent.granted] using hp] using h
  | _ => cases hp

theorem Placed.unstarted {s : State} {p : Parent} (h : Placed s p) (hp : p.granted = false) : s.started = false := by
  cases p with
  | mmap => exact h.2.1.started
  | mprotect => exact h.2.1.started
  | pack => exact h.2.1.started
  | clone => exact h.2.1.started
  | storeTid => exact h.started
  | setSched => exact h.1.started
  | storeStart ret => exact h.1.started
  | wakeStart ret =>
    have hret : ret ≠ 0 := by simpa [Parent.granted] using hp
    simp only [Placed, hret, if_false] at h
    exact h.started
  | readTid ret => exact h.2.started
  | futexWait tid ret => exact h.2.1.started
  | asleep tid ret => exact h.2.1.started
  | munmap ret desc => exact h.2.1.started
  | release ret desc => exact h.2.1.started
  | crashed => exact h.started
  | returned ret =>
    have hret : ret ≠ 0 := by simpa [Parent.granted] using hp
    simp only [Placed, hret, if_false] at h
    exact h.started

theorem Inv.agreed {s : State} (h : Inv s) : Agreed s := by
  constructor
  · intro hstarted
    cases hp : s.parent.granted with
    | false =>
      rw [h.placed.unstarted hp] at hstarted
      cases hstarted
    | true =>
      have hg := h.placed.granted hp
      exact ⟨hg.sched, hg.status⟩
  · exact h.early
  · intro ret hpc hret
    have hp := h.placed
    simp only [hpc, Placed, hret, if_false] at hp
    exact ⟨hp.started, hp.unmaps, hp.gone⟩

theorem Waiting.move {s : State} (h : Waiting s) {c : Child} (hc : c.waits = true) : Waiting { s with child := c } :=
  ⟨h.status, hc, h.id, h.started, h.unmaps, h.mapped⟩

/-- A thread that waits comes no further than the wait when it finds a status that was stored. -/
theorem Waiting.ran {s s' : State} (h : Waiting s) (htold : Told s .child) (hr : Ran s s') :
    Waiting s' ∧ s'.parent = s.parent ∧ s'.sched = s.sched ∧ s'.early = s.early ∧ (s.tid = s.id → s'.tid = s'.id) := by
  have hchild := h.child
  cases hr with
  | born hc => exact ⟨⟨h.status, rfl, h.id, h.started, h.unmaps, h.mapped⟩, rfl, rfl, rfl, fun _ => rfl⟩
  | wait hc hw => exact ⟨h.move rfl, rfl, rfl, rfl, fun hid => hid⟩
  | sleep hc hw => exact ⟨h.move rfl, rfl, rfl, rfl, fun hid => hid⟩
  | start hc hw => rw [h.status] at hw; cases hw
  | wouldBlock hc hw => exact absurd h.status hw
  | told hc hw => rw [h.status] at hw; cases hw
  | run hc hw => exact absurd h.status (htold hc)
  | munmap hc => rw [hc] at hchild; cases hchild
  | ended hc => rw [hc] at hchild; cases hchild

/-- A thread that is granted its schedule does as it likes, but stores no status. -/
theorem Granted.ran {s s' : State} (h : Granted s) (hr : Ran s s') :
    Granted s' ∧ s'.early = s.early ∧ (s'.parent = s.parent ∨ s'.parent = resume s.parent) := by
  refine ⟨?_, ?_, hr.parent⟩ <;> cases hr <;> first | exact ⟨h.status, h.sched⟩ | rfl

theorem Refused.move {s : State} (h : Refused s) {c : Child} (hc : c.leaves = true) (hs : s.child ≠ .dead)
    (hdead : c ≠ .dead) : Refused { s with child := c } := by
  have hword : s.tid = s.id := by simpa [hs] using h.word
  exact ⟨h.status, hc, h.id, by simp [hword, hdead], h.started, h.unmaps, h.mapped⟩

/-- A thread that is refused leaves; its end is the only step that its creator notices. -/
theorem Refused.ran {s s' : State} (h : Refused s) (hr : Ran s s') :
    Refused s' ∧ s'.id = s.id ∧ s'.early = s.early ∧
      (s'.parent = s.parent ∨ s'.child = .dead ∧ s'.parent = resume s.parent) := by
  have hchild := h.child
  cases hr with
  | born hc => exact ⟨⟨h.status, rfl, h.id, rfl, h.started, h.unmaps, h.mapped⟩, rfl, rfl, .inl rfl⟩
  | wait hc hw => exact ⟨h.move rfl (by simp [hc]) (by simp), rfl, rfl, .inl rfl⟩
  | wouldBlock hc hw => exact ⟨h.move rfl (by simp [hc]) (by simp), rfl, rfl, .inl rfl⟩
  | told hc hw => exact ⟨h.move rfl (by simp [hc]) (by simp), rfl, rfl, .inl rfl⟩
  | ended hc => exact ⟨⟨h.status, rfl, h.id, rfl, h.started, h.unmaps, h.mapped⟩, rfl, rfl, .inr ⟨rfl, rfl⟩⟩
  | start hc hw => rw [h.status] at hw; cases hw
  | sleep hc hw => rw [h.status] at hw; cases hw
  | run hc hw => exact absurd h.status hw
  | munmap hc => rw [hc] at hchild; cases hchild

/-- A refused thread that has ended is as good as none. -/
theorem Refused.still {s : State} (h : Refused s) (hc : s.child = .dead) : Still s 0 :=
  ⟨by rw [hc]; rfl, h.started, h.unmaps⟩

theorem Ran.there {s s' : State} (hr : Ran s s') : s.child.gone = false := by
  cases hr <;> simp_all [Child.gone]

theorem Still.not_ran {s s' : State} {n : Nat} (h : Still s n) (hr : Ran s s') : False :=
  Bool.false_ne_true (hr.there.symm.trans h.gone)

/-- The thread moves. -/
theorem Placed.child {s s' : State} {p : Parent} (h : Placed s p) (hp : s.parent = p) (htold : Told s .child)
    (hran : Ran s s') : Placed s' s'.parent ∧ s'.early = s.early := by
  have still {n : Nat} (hn : Still s n) : False := hn.not_ran hran
  have granted (hg : Granted s) (hr : resume p = p) (hplaced : Granted s' → Placed s' p) :
      Placed s' s'.parent ∧ s'.early = s.early := by
    obtain ⟨hg', hearly, hpar⟩ := hg.ran hran
    have hpar : s'.parent = p := by
      cases hpar with
      | inl hpar => rw [hpar, hp]
      | inr hpar => rw [hpar, hp, hr]
    rw [hpar]
    exact ⟨hplaced hg', hearly⟩
  have refused (hr : Refused s) (hres : resume p = p) (hplaced : Refused s' → s'.id = s.id → Placed s' p) :
      Placed s' s'.parent ∧ s'.early = s.early := by
    obtain ⟨hr', hid, hearly, hpar⟩ := hr.ran hran
    have hpar : s'.parent = p := by
      cases hpar with
      | inl hpar => rw [hpar, hp]
      | inr hpar => rw [hpar.2, hp, hres]
    rw [hpar]
    exact ⟨hplaced hr' hid, hearly⟩
  cases p with
  | mmap => exact (still h.2.1).elim
  | mprotect => exact (still h.2.1).elim
  | pack => exact (still h.2.1).elim
  | clone => exact (still h.2.1).elim
  | storeTid =>
    obtain ⟨h', hpar, -, hearly, -⟩ := Waiting.ran h htold hran
    rw [hpar, hp]
    exact ⟨h', hearly⟩
  | setSched =>
    obtain ⟨h', hpar, -, hearly, hid⟩ := h.1.ran htold hran
    rw [hpar, hp]
    exact ⟨⟨h', hid h.2⟩, hearly⟩
  | storeStart ret =>
    obtain ⟨h', hpar, hsched, hearly, hid⟩ := h.1.ran htold hran
    rw [hpar, hp]
    exact ⟨⟨h', hid h.2.1, hsched.trans h.2.2⟩, hearly⟩
  | wakeStart ret =>
    simp only [Placed] at h
    split at h <;> rename_i hret
    · exact granted h rfl fun hg => by simpa [Placed, hret] using hg
    · exact refused h rfl fun hr _ => by simpa [Placed, hret] using hr
  | readTid ret => exact refused h.2 rfl fun hr _ => ⟨h.1, hr⟩
  | futexWait tid ret => exact refused h.2.1 rfl fun hr hid => ⟨h.1, hr, h.2.2.trans hid.symm⟩
  | asleep tid ret =>
    obtain ⟨hret, hrefused, htid⟩ := h
    obtain ⟨h', hid, hearly, hpar⟩ := hrefused.ran hran
    refine ⟨?_, hearly⟩
    cases hpar with
    | inl hpar =>
      rw [hpar, hp]
      exact ⟨hret, h', htid.trans hid.symm⟩
    | inr hdead =>
      -- the kernel wakes the creator when the thread has ended
      rw [hdead.2, hp]
      exact ⟨hret, h'.still hdead.1, h'.mapped⟩
  | munmap ret desc => exact (still h.2.1).elim
  | release ret desc => exact (still h.2.1).elim
  | crashed => exact (still h).elim
  | returned ret =>
    simp only [Placed] at h
    split at h <;> rename_i hret
    · exact granted h rfl fun hg => by simpa [Placed, hret] using hg
    · exact (still h).elim

theorem Child.leaves_of_waits {c : Child} (h : c.waits = true) : c.leaves = true ∧ c ≠ .dead := by
  cases c <;> simp_all [Child.waits, Child.leaves]

theorem Child.wake_leaves {c : Child} (h : c.leaves = true) : (wake c).leaves = true ∧ (wake c = .dead ↔ c = .dead) := by
  cases c <;> simp_all [Child.leaves, Child.waits, wake]

/-- `start_status` is stored. -/
theorem Waiting.stored {s : State} (h : Waiting s) (htid : s.tid = s.id) {ret : Int} (hsched : s.sched = some ret) :
    Placed { s with parent := .wakeStart ret, startStatus := if ret ≠ 0 then .exit else .ok } (.wakeStart ret) := by
  by_cases hret : ret = 0
  · subst ret
    exact ⟨rfl, hsched⟩
  · obtain ⟨hleaves, halive⟩ := Child.leaves_of_waits h.child
    simp only [Placed, ne_eq, hret, not_false_eq_true, if_true, if_false]
    exact ⟨rfl, hleaves, h.id, by simp [halive, htid], h.started, h.unmaps, h.mapped⟩

/-- A `FUTEX_WAKE` that comes when the status is stored. -/
theorem Refused.woken {s : State} (h : Refused s) {p : Parent} : Refused { s with parent := p, child := wake s.child } := by
  obtain ⟨hleaves, hdead⟩ := Child.wake_leaves h.child
  exact ⟨h.status, hleaves, h.id, by simp only [hdead]; exact h.word, h.started, h.unmaps, h.mapped⟩

theorem Refused.goto {s : State} (h : Refused s) (p : Parent) : Refused { s with parent := p } :=
  ⟨h.status, h.child, h.id, h.word, h.started, h.unmaps, h.mapped⟩

/-- The kernel has cleared the word of a thread that has ended, and of no other. -/
theorem Refused.ended {s : State} (h : Refused s) (htid : s.tid ≠ s.id) (p : Parent) : Still { s with parent := p } 0 := by
  have hdead : s.child = .dead := by
    by_contra hc
    exact htid (by simpa [hc] using h.word)
  exact (h.goto p).still hdead

theorem Inv.parent {s s' : State} (h : Inv s) (hs : nextParent s = some s') : Inv s' := by
  have hp := h.placed
  cases hpc : s.parent with
  | pack =>
    simp only [nextParent, hpc, Option.some.injEq] at hs
    subst hs
    rw [hpc] at hp
    obtain ⟨hunborn, hstill, hmapped⟩ := hp
    exact ⟨⟨hunborn, ⟨hstill.gone, hstill.started, hstill.unmaps⟩, hmapped, rfl⟩, h.early⟩
  | storeTid =>
    simp only [nextParent, hpc, Option.some.injEq] at hs
    subst hs
    rw [hpc] at hp
    have hw : Waiting s := hp
    exact ⟨⟨⟨hw.status, hw.child, hw.id, hw.started, hw.unmaps, hw.mapped⟩, rfl⟩, h.early⟩
  | storeStart ret =>
    simp only [nextParent, hpc, Option.some.injEq] at hs
    subst hs
    rw [hpc] at hp
    obtain ⟨hw, htid, hsched⟩ := hp
    exact ⟨hw.stored htid hsched, h.early⟩
  | wakeStart ret =>
    simp only [nextParent, hpc, Option.some.injEq] at hs
    subst hs
    rw [hpc] at hp
    refine ⟨?_, h.early⟩
    by_cases hret : ret = 0
    · subst ret
      have hg : Granted s := hp
      exact ⟨hg.status, hg.sched⟩
    · simp only [Placed, hret, if_false] at hp
      simp only [ne_eq, hret, not_false_eq_true, if_true]
      exact ⟨hret, hp.woken⟩
  | readTid ret =>
    simp only [nextParent, hpc, Option.some.injEq] at hs
    subst hs
    rw [hpc] at hp
    obtain ⟨hret, hr⟩ := hp
    refine ⟨?_, h.early⟩
    by_cases htid : s.tid = 0
    · simp only [htid, ne_eq, not_true_eq_false, if_false]
      rw [← htid]
      exact ⟨hret, hr.ended (htid ▸ hr.id.symm) _, hr.mapped⟩
    · have hword : s.tid = s.id := by
        have hw := hr.word
        split at hw
        · exact absurd hw htid
        · exact hw
      simp only [ne_eq, htid, not_false_eq_true, if_true]
      exact ⟨hret, hr.goto _, hword⟩
  | futexWait tid ret =>
    simp only [nextParent, hpc, Option.some.injEq] at hs
    subst hs
    rw [hpc] at hp
    obtain ⟨hret, hr, htid⟩ := hp
    refine ⟨?_, h.early⟩
    split <;> rename_i hword
    · exact ⟨hret, hr.goto _, htid⟩
    · exact ⟨hret, hr.ended (htid ▸ hword) _, hr.mapped⟩
  | munmap ret desc =>
    simp only [nextParent, hpc, Option.some.injEq] at hs
    subst hs
    rw [hpc] at hp
    obtain ⟨hret, hstill, hmapped⟩ := hp
    exact ⟨⟨hret, ⟨hstill.gone, hstill.started, by simp [hstill.unmaps]⟩, hmapped⟩, by simp [hstill.gone]⟩
  | release ret desc =>
    simp only [nextParent, hpc, Option.some.injEq] at hs
    subst hs
    rw [hpc] at hp
    obtain ⟨hret, hstill, hmapped⟩ := hp
    refine ⟨?_, h.early⟩
    cases desc with
    | true =>
      simp only [if_true, Placed, hret, if_false]
      exact ⟨hstill.gone, hstill.started, by simp [hstill.unmaps, hmapped]⟩
    | false => exact ⟨hstill.gone, hstill.started, hstill.unmaps⟩
  | _ => simp [nextParent, hpc] at hs

/-- The thread comes to a place that is as far as the one it was at. -/
theorem Placed.move {s : State} {p : Parent} (h : Placed s p) {c : Child} (hthere : s.child.gone = false)
    (hwaits : s.child.waits = true → c.waits = true) (hleaves : s.child.leaves = true → c.leaves = true)
    (hdead : c ≠ .dead) : Placed { s with child := c } p := by
  have still {n : Nat} (hn : Still s n) : False := by
    have hgone := hn.gone
    rw [hthere] at hgone
    cases hgone
  have hlive : s.child ≠ .dead := by
    intro hc
    rw [hc] at hthere
    cases hthere
  have granted (hg : Granted s) : Granted { s with child := c } := ⟨hg.status, hg.sched⟩
  have refused (hr : Refused s) : Refused { s with child := c } := hr.move (hleaves hr.child) hlive hdead
  cases p with
  | mmap => exact (still h.2.1).elim
  | mprotect => exact (still h.2.1).elim
  | pack => exact (still h.2.1).elim
  | clone => exact (still h.2.1).elim
  | storeTid =>
    have hw : Waiting s := h
    exact hw.move (hwaits hw.child)
  | setSched => exact ⟨h.1.move (hwaits h.1.child), h.2⟩
  | storeStart ret => exact ⟨h.1.move (hwaits h.1.child), h.2⟩
  | wakeStart ret =>
    simp only [Placed] at h ⊢
    split at h <;> rename_i hret
    · simpa [hret] using granted h
    · simpa [hret] using refused h
  | readTid ret => exact ⟨h.1, refused h.2⟩
  | futexWait tid ret => exact ⟨h.1, refused h.2.1, h.2.2⟩
  | asleep tid ret => exact ⟨h.1, refused h.2.1, h.2.2⟩
  | munmap ret desc => exact (still h.2.1).elim
  | release ret desc => exact (still h.2.1).elim
  | crashed => exact (still h).elim
  | returned ret =>
    simp only [Placed] at h ⊢
    split at h <;> rename_i hret
    · simpa [hret] using granted h
    · exact (still h).elim

theorem Inv.answer {s s' : State} {a : Action} (h : Inv s) (hok : Told s a) (hans : Answered s a s') : Inv s' := by
  have hp := h.placed
  cases hans with
  | @unmapped status hpc hneg =>
    rw [hpc] at hp
    obtain ⟨hunborn, hstill, hmapped⟩ := hp
    refine ⟨?_, h.early⟩
    simp only [Placed, show status ≠ 0 by omega, if_false, hmapped]
    exact ⟨hstill.gone, hstill.started, hstill.unmaps⟩
  | mapped hpc hpos =>
    rw [hpc] at hp
    obtain ⟨hunborn, hstill, hmapped⟩ := hp
    exact ⟨⟨hunborn, ⟨hstill.gone, hstill.started, hstill.unmaps⟩, rfl⟩, h.early⟩
  | unguarded hpc hneg =>
    rw [hpc] at hp
    obtain ⟨hunborn, hstill, hmapped⟩ := hp
    exact ⟨⟨by omega, ⟨hstill.gone, hstill.started, hstill.unmaps⟩, hmapped⟩, h.early⟩
  | guarded hpc hpos =>
    rw [hpc] at hp
    obtain ⟨hunborn, hstill, hmapped⟩ := hp
    exact ⟨⟨hunborn, ⟨hstill.gone, hstill.started, hstill.unmaps⟩, hmapped⟩, h.early⟩
  | uncloned hpc hneg =>
    rw [hpc] at hp
    obtain ⟨hunborn, hstill, hmapped, hstatus⟩ := hp
    exact ⟨⟨by omega, ⟨hstill.gone, hstill.started, hstill.unmaps⟩, hmapped⟩, h.early⟩
  | cloned hpc hpos hid =>
    rw [hpc] at hp
    obtain ⟨hunborn, hstill, hmapped, hstatus⟩ := hp
    exact ⟨⟨hstatus, rfl, hid, hstill.started, hstill.unmaps, hmapped⟩, h.early⟩
  | scheduled hpc =>
    rw [hpc] at hp
    obtain ⟨hw, htid⟩ := hp
    exact ⟨⟨⟨hw.status, hw.child, hw.id, hw.started, hw.unmaps, hw.mapped⟩, htid, rfl⟩, h.early⟩
  | interrupted hpc =>
    rw [hpc] at hp
    exact ⟨⟨hp.1, hp.2.1.goto _, hp.2.2⟩, h.early⟩
  | ran hr =>
    obtain ⟨hplaced, hearly⟩ := hp.child rfl hok hr
    exact ⟨hplaced, hearly.trans h.early⟩
  | childInterrupted hc =>
    refine ⟨hp.move ?_ ?_ ?_ (by simp), h.early⟩ <;> simp [hc, Child.gone, Child.waits, Child.leaves]
  | finished hc =>
    refine ⟨hp.move ?_ ?_ ?_ (by simp), h.early⟩ <;> simp [hc, Child.gone, Child.waits, Child.leaves]

theorem step_inv {s s' : State} {a : Action} (h : Inv s) (hok : Told s a) (hs : step s a = some s') : Inv s' := by
  by_cases ha : a = .parent
  · subst ha
    exact h.parent hs
  · exact h.answer hok (answered ha hs)

/-- Where no thread comes out of its wait before the status is stored, the user's function runs only
after the grant, and a create that fails cleans up after the thread. -/
theorem start_handshake {s : State} (h : Reaches Initial step Told s) : Agreed s := by
  have hinv : Inv s := h.invariant (I := Inv) (fun _ h₀ => h₀.inv) fun _ _ _ _ hs hok h => step_inv hs hok h
  exact hinv.agreed

/-- A new descriptor. -/
def fresh : State :=
  { startStatus := .ok, tid := 0, id := 0, parent := .mmap, child := .unborn, sched := none, started := false,
    mapped := false, unmaps := 0, early := false }

theorem fresh_initial : Initial fresh := ⟨rfl, rfl, rfl, rfl, rfl, rfl, rfl⟩

/-- The thread is made, and sleeps before its schedule is set. -/
def spawn : List Action :=
  [.mmap 1, .mprotect 0, .parent, .clone 7, .child, .child, .child, .parent]

/-- The schedule is refused; the thread leaves and its creator cleans up. -/
def refuse : List Action :=
  [.setSched (-1), .parent, .parent, .parent, .parent, .child, .child, .parent, .parent]

/-- The signal comes before the wake. -/
theorem start_handshake_refused : ∃ s, Reaches Initial step Told s ∧ s.parent = .returned (-1) ∧ Agreed s := by
  obtain ⟨s, hr, hpc⟩ : ∃ s, Reaches Initial step Told s ∧ s.parent = .returned (-1) := by
    have hr := Reaches.run_get fresh_initial (show (run step Told (spawn ++ refuse) fresh).isSome from by decide)
    exact ⟨_, hr, by decide⟩
  exact ⟨s, hr, hpc, start_handshake hr⟩

/-- A signal ends the wait before the schedule is set: the user's function runs, and the create that
fails waits for it to end and unmaps the stack once more. -/
theorem start_handshake_signal : ∃ s, Reaches Initial step anyStep s ∧ s.started = true ∧
    s.sched = some (-1) ∧ s.parent = .returned (-1) ∧ s.unmaps = 2 ∧ ¬ Agreed s := by
  have hr := Reaches.run_get fresh_initial (show (run step anyStep (spawn ++ [.childInterrupt, .child, .finish, .child,
    .setSched (-1), .parent, .parent, .parent, .parent, .child, .parent, .parent]) fresh).isSome from by decide)
  refine ⟨_, hr, by decide, by decide, by decide, by decide, ?_⟩
  intro ha
  exact absurd (ha.started (by decide)).1 (by decide)

end ThreadBites.StartHandshake

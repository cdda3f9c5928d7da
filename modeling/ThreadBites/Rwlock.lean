import ThreadBites.Transition
import ThreadBites.WaitQueue

/-!
# The read-write lock

Critical sections under `rwlock->lock` are one step, with the `FUTEX_WAKE` they
issue; the `FUTEX_WAIT` between two sections is a step of its own that compares
and sleeps. The counters are C `int`: a step that would overflow one is undefined
and has no result. `FUTEX_WAKE` of `INT_MAX` wakes every sleeper, as Linux has
far fewer threads.
-/
namespace ThreadBites.Rwlock

open Transition Tally WaitQueue

variable {τ : Type}

def EBUSY : Int := 16

/-- `++` on an `int`, undefined on overflow. -/
def incr (n : Int) : Option Int := if n < 2147483647 then some (n + 1) else none

/-- `--` on an `int`, undefined on overflow. -/
def decr (n : Int) : Option Int := if -2147483648 < n then some (n - 1) else none

/-- `tbthread_rwlock_t`; the word `lock` is what makes a section one step. -/
structure Lock (τ : Type) where
  writersQueued : Int
  rdFutex : BitVec 32
  wrFutex : BitVec 32
  writer : Option τ
  readers : Int
  deriving DecidableEq

/-- What a locking section ends with: the lock, or the futex value to sleep on. -/
inductive Attempt where
  | acquired
  | sleep (sleepStatus : BitVec 32)
  deriving DecidableEq, Repr

/-- The `FUTEX_WAKE` that `unlock` issues. -/
inductive Wake where
  | nobody
  | oneWriter
  | allReaders
  deriving DecidableEq, Repr

/-- One round of `tbthread_rwlock_rdlock`. -/
def rdlock (rw : Lock τ) : Option (Lock τ × Attempt) :=
  if rw.writer = none ∧ rw.writersQueued = 0 then
    (incr rw.readers).map fun n => ({ rw with readers := n }, .acquired)
  else some (rw, .sleep rw.rdFutex)

/-- One round of `tbthread_rwlock_wrlock`, which joins the queue in its first round. -/
def wrlock (rw : Lock τ) (self : τ) (queued : Bool) : Option (Lock τ × Attempt) :=
  (if queued then some rw.writersQueued else incr rw.writersQueued).bind fun q =>
    if rw.writer = none ∧ rw.readers = 0 then
      (decr q).map fun q' => ({ rw with writer := some self, writersQueued := q' }, .acquired)
    else some ({ rw with writersQueued := q }, .sleep rw.wrFutex)

/-- `tbthread_rwlock_unlock`. -/
def unlock (rw : Lock τ) : Option (Lock τ × Wake) :=
  if rw.writer ≠ none then
    if rw.writersQueued ≠ 0 then
      some ({ rw with writer := none, wrFutex := rw.wrFutex + 1 }, .oneWriter)
    else some ({ rw with writer := none, rdFutex := rw.rdFutex + 1 }, .allReaders)
  else (decr rw.readers).map fun n =>
    if n = 0 ∧ rw.writersQueued ≠ 0 then
      ({ rw with readers := n, wrFutex := rw.wrFutex + 1 }, .oneWriter)
    else ({ rw with readers := n }, .nobody)

/-- `tbthread_rwlock_tryrdlock`. -/
def tryrdlock (rw : Lock τ) : Option (Lock τ × Int) :=
  if rw.writer = none ∧ rw.writersQueued = 0 then
    (incr rw.readers).map fun n => ({ rw with readers := n }, 0)
  else some (rw, -EBUSY)

/-- `tbthread_rwlock_trywrlock`. -/
def trywrlock (rw : Lock τ) (self : τ) : Lock τ × Int :=
  if rw.writer = none ∧ rw.readers = 0 then ({ rw with writer := some self }, 0) else (rw, -EBUSY)

theorem incr_eq {n m : Int} (h : incr n = some m) : m = n + 1 := by
  simp only [incr, Option.ite_none_right_eq_some, Option.some.injEq] at h
  exact h.2.symm

theorem decr_eq {n m : Int} (h : decr n = some m) : m = n - 1 := by
  simp only [decr, Option.ite_none_right_eq_some, Option.some.injEq] at h
  exact h.2.symm

theorem rdlock_cases {rw rw' : Lock τ} {o : Attempt} (h : rdlock rw = some (rw', o)) :
    (rw.writer = none ∧ rw.writersQueued = 0) ∧ rw' = { rw with readers := rw.readers + 1 } ∧ o = .acquired ∨
    ¬ (rw.writer = none ∧ rw.writersQueued = 0) ∧ rw' = rw ∧ o = .sleep rw.rdFutex := by
  unfold rdlock at h
  split at h
  · rename_i hfree
    obtain ⟨n, hn, he⟩ := Option.map_eq_some_iff.mp h
    cases he
    exact .inl ⟨hfree, by rw [incr_eq hn], rfl⟩
  · rename_i hbusy
    cases h
    exact .inr ⟨hbusy, rfl, rfl⟩

theorem wrlock_cases {rw rw' : Lock τ} {t : τ} {q : Bool} {o : Attempt}
    (h : wrlock rw t q = some (rw', o)) :
    (rw.writer = none ∧ rw.readers = 0) ∧ o = .acquired ∧
      rw' = { rw with writer := some t, writersQueued := rw.writersQueued - q.toNat } ∨
    ¬ (rw.writer = none ∧ rw.readers = 0) ∧ o = .sleep rw.wrFutex ∧
      rw' = { rw with writersQueued := rw.writersQueued + (!q).toNat } := by
  obtain ⟨n, hn, h⟩ := Option.bind_eq_some_iff.mp h
  have hn : n = rw.writersQueued + (!q).toNat := by
    cases q with
    | false => exact incr_eq hn
    | true => simpa using hn.symm
  subst hn
  split at h
  · rename_i hfree
    obtain ⟨m, hm, he⟩ := Option.map_eq_some_iff.mp h
    cases he
    refine .inl ⟨hfree, rfl, ?_⟩
    have hm := decr_eq hm
    cases q <;> simp at hm ⊢ <;> omega
  · rename_i hbusy
    cases h
    exact .inr ⟨hbusy, rfl, rfl⟩

theorem tryrdlock_cases {rw rw' : Lock τ} {st : Int} (h : tryrdlock rw = some (rw', st)) :
    (rw.writer = none ∧ rw.writersQueued = 0) ∧ rw' = { rw with readers := rw.readers + 1 } ∧ st = 0 ∨
    rw' = rw ∧ st = -EBUSY := by
  unfold tryrdlock at h
  split at h
  · rename_i hfree
    obtain ⟨n, hn, he⟩ := Option.map_eq_some_iff.mp h
    cases he
    exact .inl ⟨hfree, by rw [incr_eq hn], rfl⟩
  · cases h
    exact .inr ⟨rfl, rfl⟩

theorem trywrlock_cases (rw : Lock τ) (t : τ) :
    (rw.writer = none ∧ rw.readers = 0) ∧ trywrlock rw t = ({ rw with writer := some t }, 0) ∨
    trywrlock rw t = (rw, -EBUSY) := by
  unfold trywrlock
  split
  · rename_i hfree
    exact .inl ⟨hfree, rfl⟩
  · exact .inr rfl

/-- An unlock with a writer wakes one writer if any is queued, else the readers; the last
of the readers wakes a queued writer. -/
theorem unlock_cases {rw rw' : Lock τ} {k : Wake} (h : unlock rw = some (rw', k)) :
    rw.writer ≠ none ∧ rw.writersQueued ≠ 0 ∧ k = .oneWriter ∧
      rw' = { rw with writer := none, wrFutex := rw.wrFutex + 1 } ∨
    rw.writer ≠ none ∧ rw.writersQueued = 0 ∧ k = .allReaders ∧
      rw' = { rw with writer := none, rdFutex := rw.rdFutex + 1 } ∨
    rw.writer = none ∧ (rw.readers = 1 ∧ rw.writersQueued ≠ 0) ∧ k = .oneWriter ∧
      rw' = { rw with readers := rw.readers - 1, wrFutex := rw.wrFutex + 1 } ∨
    rw.writer = none ∧ ¬ (rw.readers = 1 ∧ rw.writersQueued ≠ 0) ∧ k = .nobody ∧
      rw' = { rw with readers := rw.readers - 1 } := by
  unfold unlock at h
  split at h
  · rename_i hw
    split at h
    · rename_i hq
      cases h
      exact .inl ⟨hw, hq, rfl, rfl⟩
    · rename_i hq
      cases h
      exact .inr (.inl ⟨hw, by simpa using hq, rfl, rfl⟩)
  · rename_i hw
    obtain ⟨n, hn, h⟩ := Option.map_eq_some_iff.mp h
    have hn := decr_eq hn
    subst hn
    split at h
    · rename_i hq
      cases h
      exact .inr (.inr (.inl ⟨by simpa using hw, ⟨by omega, hq.2⟩, rfl, rfl⟩))
    · rename_i hq
      cases h
      exact .inr (.inr (.inr ⟨by simpa using hw, fun hl => hq ⟨by omega, hl.2⟩, rfl, rfl⟩))

/-- Where a thread is. The second component of the waits is history: how often the
futex word had been bumped when it was sampled. -/
inductive Pc where
  | out (status : Int)
  | rdlock
  | rdWait (sleepStatus : BitVec 32) (sampled : Nat)
  | rdAsleep
  | wrlock (queued : Bool)
  | wrWait (sleepStatus : BitVec 32) (sampled : Nat)
  | wrAsleep
  | tryrdlock
  | trywrlock
  | unlock
  deriving DecidableEq, Repr

inductive Call where
  | rdlock | wrlock | tryrdlock | trywrlock | unlock
  deriving DecidableEq, Repr

/-- Where a call starts. -/
def Call.entry : Call → Pc
  | .rdlock => .rdlock
  | .wrlock => .wrlock false
  | .tryrdlock => .tryrdlock
  | .trywrlock => .trywrlock
  | .unlock => .unlock

def rdAsleep (c : Pc) : Bool := c = .rdAsleep
def wrAsleep (c : Pc) : Bool := c = .wrAsleep

/-- Inside `tbthread_rwlock_wrlock`, past the first section and without the lock. -/
def queued : Pc → Bool
  | .wrlock q => q
  | .wrWait _ _ => true
  | .wrAsleep => true
  | _ => false

@[simp] theorem queued_out (st : Int) : queued (.out st) = false := rfl
@[simp] theorem queued_wrlock (q : Bool) : queued (.wrlock q) = q := rfl

/-- The lock, the threads, and what no step reads: the holds of each thread and
the number of bumps of the two futex words. -/
structure State (τ : Type) where
  rw : Lock τ
  pc : τ → Pc
  reads : τ → Nat
  writes : τ → Nat
  rdBumps : Nat
  wrBumps : Nat

/-- `TBTHREAD_RWLOCK_INIT`, and nobody inside a call. -/
def State.start : State τ where
  rw := ⟨0, 0, 0, none, 0⟩
  pc := fun _ => .out 0
  reads := fun _ => 0
  writes := fun _ => 0
  rdBumps := 0
  wrBumps := 0

def Initial (s : State τ) : Prop := s = State.start

variable [DecidableEq τ]

def State.goto (s : State τ) (t : τ) (c : Pc) : State τ := { s with pc := Function.update s.pc t c }

/-- A successful read lock, with the lock it leaves. -/
def State.addRead (s : State τ) (t : τ) (rw : Lock τ) : State τ :=
  { s with rw := rw, reads := Function.update s.reads t (s.reads t + 1) }

/-- A successful write lock, with the lock it leaves. -/
def State.addWrite (s : State τ) (t : τ) (rw : Lock τ) : State τ :=
  { s with rw := rw, writes := Function.update s.writes t (s.writes t + 1) }

/-- The hold that the caller gives up: its write hold if it has one, else a read hold. -/
def State.dropHold (s : State τ) (t : τ) : State τ :=
  if 0 < s.writes t then { s with writes := Function.update s.writes t (s.writes t - 1) }
  else { s with reads := Function.update s.reads t (s.reads t - 1) }

variable [Fintype τ]

/-- The `FUTEX_WAKE` of an unlock, `woken` being the sleeper that a wake of one finds. -/
def State.wake (s : State τ) (woken : Option τ) : Wake → Option (State τ)
  | .nobody => some s
  | .oneWriter => (wakeOne wrAsleep (fun _ => .wrlock true) s.pc woken).map fun pc =>
      { s with pc := pc, wrBumps := s.wrBumps + 1 }
  | .allReaders => some { s with pc := wakeAll rdAsleep (fun _ => .rdlock) s.pc, rdBumps := s.rdBumps + 1 }

inductive Action (τ : Type) where
  | call (t : τ) (f : Call)
  | enter (t : τ) (woken : Option τ)
  | wait (t : τ)
  | interrupt (t : τ)
  deriving DecidableEq

/-- A critical section of `t`. -/
def enter (s : State τ) (t : τ) (woken : Option τ) : Option (State τ) :=
  match s.pc t with
  | .rdlock => (rdlock s.rw).map fun
      | (rw, .acquired) => (s.addRead t rw).goto t (.out 0)
      | (rw, .sleep v) => { s with rw := rw }.goto t (.rdWait v s.rdBumps)
  | .wrlock q => (wrlock s.rw t q).map fun
      | (rw, .acquired) => (s.addWrite t rw).goto t (.out 0)
      | (rw, .sleep v) => { s with rw := rw }.goto t (.wrWait v s.wrBumps)
  | .tryrdlock => (tryrdlock s.rw).map fun (rw, st) =>
      (if st = 0 then s.addRead t rw else s).goto t (.out st)
  | .trywrlock =>
      let (rw, st) := trywrlock s.rw t
      some ((if st = 0 then s.addWrite t rw else s).goto t (.out st))
  | .unlock => (unlock s.rw).bind fun (rw, w) =>
      { (s.dropHold t).goto t (.out 0) with rw := rw }.wake woken w
  | _ => none

/-- One step: a call, a critical section, the compare-and-sleep of `FUTEX_WAIT`, or a
`FUTEX_WAIT` that returns without a wake. -/
def step (s : State τ) : Action τ → Option (State τ)
  | .call t f => match s.pc t with
    | .out _ => some (s.goto t f.entry)
    | _ => none
  | .enter t woken => enter s t woken
  | .wait t => match s.pc t with
    | .rdWait v _ => some (s.goto t (if s.rw.rdFutex = v then .rdAsleep else .rdlock))
    | .wrWait v _ => some (s.goto t (if s.rw.wrFutex = v then .wrAsleep else .wrlock true))
    | _ => none
  | .interrupt t => match s.pc t with
    | .rdAsleep => some (s.goto t .rdlock)
    | .wrAsleep => some (s.goto t (.wrlock true))
    | _ => none

/-- What a step does, case by case. -/
inductive Stepped (s : State τ) : Action τ → State τ → Prop where
  | call {t f st} (hpc : s.pc t = .out st) : Stepped s (.call t f) (s.goto t f.entry)
  | readAcquired {t w} (hpc : s.pc t = .rdlock ∨ s.pc t = .tryrdlock)
      (hfree : s.rw.writer = none ∧ s.rw.writersQueued = 0) :
      Stepped s (.enter t w) ((s.addRead t { s.rw with readers := s.rw.readers + 1 }).goto t (.out 0))
  | readBlocked {t w} (hpc : s.pc t = .rdlock) (hbusy : ¬ (s.rw.writer = none ∧ s.rw.writersQueued = 0)) :
      Stepped s (.enter t w) (s.goto t (.rdWait s.rw.rdFutex s.rdBumps))
  | writeAcquired {t w q} (hpc : s.pc t = .wrlock q) (hfree : s.rw.writer = none ∧ s.rw.readers = 0) :
      Stepped s (.enter t w) ((s.addWrite t { s.rw with
        writer := some t, writersQueued := s.rw.writersQueued - q.toNat }).goto t (.out 0))
  | writeBlocked {t w q} (hpc : s.pc t = .wrlock q) (hbusy : ¬ (s.rw.writer = none ∧ s.rw.readers = 0)) :
      Stepped s (.enter t w) ({ s with rw := { s.rw with
        writersQueued := s.rw.writersQueued + (!q).toNat } }.goto t (.wrWait s.rw.wrFutex s.wrBumps))
  | tryWriteAcquired {t w} (hpc : s.pc t = .trywrlock) (hfree : s.rw.writer = none ∧ s.rw.readers = 0) :
      Stepped s (.enter t w) ((s.addWrite t { s.rw with writer := some t }).goto t (.out 0))
  | tryFailed {t w} (hpc : s.pc t = .tryrdlock ∨ s.pc t = .trywrlock) :
      Stepped s (.enter t w) (s.goto t (.out (-EBUSY)))
  | unlocked {t w rw k s'} (hpc : s.pc t = .unlock) (hu : unlock s.rw = some (rw, k))
      (hw : { (s.dropHold t).goto t (.out 0) with rw := rw }.wake w k = some s') :
      Stepped s (.enter t w) s'
  | readSlept {t v n} (hpc : s.pc t = .rdWait v n) (hv : s.rw.rdFutex = v) :
      Stepped s (.wait t) (s.goto t .rdAsleep)
  | readRetried {t v n} (hpc : s.pc t = .rdWait v n) (hv : s.rw.rdFutex ≠ v) :
      Stepped s (.wait t) (s.goto t .rdlock)
  | writeSlept {t v n} (hpc : s.pc t = .wrWait v n) (hv : s.rw.wrFutex = v) :
      Stepped s (.wait t) (s.goto t .wrAsleep)
  | writeRetried {t v n} (hpc : s.pc t = .wrWait v n) (hv : s.rw.wrFutex ≠ v) :
      Stepped s (.wait t) (s.goto t (.wrlock true))
  | readInterrupted {t} (hpc : s.pc t = .rdAsleep) : Stepped s (.interrupt t) (s.goto t .rdlock)
  | writeInterrupted {t} (hpc : s.pc t = .wrAsleep) : Stepped s (.interrupt t) (s.goto t (.wrlock true))

theorem enter_stepped {s s' : State τ} {t : τ} {w : Option τ} (h : enter s t w = some s') :
    Stepped s (.enter t w) s' := by
  unfold enter at h
  split at h
  · rename_i hpc
    obtain ⟨⟨rw, o⟩, ho, he⟩ := Option.map_eq_some_iff.mp h
    rcases rdlock_cases ho with ⟨hfree, rfl, rfl⟩ | ⟨hbusy, rfl, rfl⟩
    · exact he ▸ .readAcquired (.inl hpc) hfree
    · exact he ▸ .readBlocked hpc hbusy
  · rename_i q hpc
    obtain ⟨⟨rw, o⟩, ho, he⟩ := Option.map_eq_some_iff.mp h
    rcases wrlock_cases ho with ⟨hfree, rfl, rfl⟩ | ⟨hbusy, rfl, rfl⟩
    · exact he ▸ .writeAcquired hpc hfree
    · exact he ▸ .writeBlocked hpc hbusy
  · rename_i hpc
    obtain ⟨⟨rw, st⟩, ho, he⟩ := Option.map_eq_some_iff.mp h
    rcases tryrdlock_cases ho with ⟨hfree, rfl, rfl⟩ | ⟨rfl, rfl⟩
    · exact he ▸ .readAcquired (.inr hpc) hfree
    · exact he ▸ .tryFailed (.inl hpc)
  · rename_i hpc
    rcases trywrlock_cases s.rw t with ⟨hfree, he⟩ | he
    · simp only [he] at h
      cases h
      exact .tryWriteAcquired hpc hfree
    · simp only [he] at h
      cases h
      exact .tryFailed (.inr hpc)
  · rename_i hpc
    obtain ⟨⟨rw, k⟩, hu, hw⟩ := Option.bind_eq_some_iff.mp h
    exact .unlocked hpc hu hw
  · cases h

theorem step_stepped {s s' : State τ} {a : Action τ} (h : step s a = some s') : Stepped s a s' := by
  cases a with
  | call t f =>
    simp only [step] at h
    split at h
    · rename_i hpc
      cases h
      exact .call hpc
    · cases h
  | enter t w => exact enter_stepped h
  | wait t =>
    simp only [step] at h
    split at h
    · rename_i hpc
      cases h
      split
      · rename_i hv; exact .readSlept hpc hv
      · rename_i hv; exact .readRetried hpc hv
    · rename_i hpc
      cases h
      split
      · rename_i hv; exact .writeSlept hpc hv
      · rename_i hv; exact .writeRetried hpc hv
    · cases h
  | interrupt t =>
    simp only [step] at h
    split at h
    · rename_i hpc; cases h; exact .readInterrupted hpc
    · rename_i hpc; cases h; exact .writeInterrupted hpc
    · cases h
/-- A thread unlocks only what it holds. -/
def Disciplined (s : State τ) : Action τ → Prop
  | .call t f => f = .unlock → 0 < s.reads t + s.writes t
  | _ => True

/-- How often the futex word was bumped since a waiting thread sampled it. -/
def State.bumpsSince (s : State τ) : Pc → Nat
  | .rdWait _ n => s.rdBumps - n
  | .wrWait _ n => s.wrBumps - n
  | _ => 0

/-- Fewer than `2^32` bumps between the sample of a futex word and the sleep on it. -/
def Prompt (s : State τ) : Action τ → Prop
  | .wait t => s.bumpsSince (s.pc t) < 2 ^ 32
  | _ => True

instance (s : State τ) : (a : Action τ) → Decidable (Disciplined s a)
  | .call _ _ => inferInstanceAs (Decidable (_ → _))
  | .enter _ _ => isTrue trivial
  | .wait _ => isTrue trivial
  | .interrupt _ => isTrue trivial

instance (s : State τ) : (a : Action τ) → Decidable (Prompt s a)
  | .call _ _ => isTrue trivial
  | .enter _ _ => isTrue trivial
  | .wait _ => inferInstanceAs (Decidable (_ < _))
  | .interrupt _ => isTrue trivial

end ThreadBites.Rwlock

import ThreadBites.Transition
import ThreadBites.WaitQueue

/-!
# The condition variable

Critical sections under `cond->lock` are one step, with the `FUTEX_WAKE` they
issue. `FUTEX_WAIT` compares the futex word with the value sampled when the wait
began; it returns on a wake, at once on a mismatch, or with `-EINTR`. What
`tbthread_mutex_unlock` returns on the user's mutex is up to the environment.
`waiters` and `signal_num` count threads, of which there are fewer than `2^64`.
-/
namespace ThreadBites.CondVar

open Transition Tally WaitQueue

variable {τ μ : Type}

def EINVAL : Int := 22
def EWOULDBLOCK : Int := 11

/-- `tbthread_cond_t`; the word `lock` is what makes a section one step. -/
structure Cond (μ : Type) where
  futex : BitVec 32
  waiters : Nat
  signalNum : Nat
  broadcastSeq : BitVec 64
  mutex : Option μ
  deriving DecidableEq

/-- The section of `tbthread_cond_broadcast`, and whether it wakes. -/
def broadcast (c : Cond μ) : Cond μ × Bool :=
  if c.waiters = 0 then (c, false)
  else ({ c with futex := c.futex + 1, broadcastSeq := c.broadcastSeq + 1 }, true)

/-- The section of `tbthread_cond_signal`, and whether it wakes. -/
def signal (c : Cond μ) : Cond μ × Bool :=
  if c.waiters = c.signalNum then (c, false)
  else ({ c with futex := c.futex + 1, signalNum := c.signalNum + 1 }, true)

/-- The locals of a wait: `int bseq` and `int futex`. -/
structure Sample where
  bseq : BitVec 32
  futex : BitVec 32
  deriving DecidableEq, Repr

/-- The first section of `tbthread_cond_wait`, `st` being what unlocking the mutex returns:
the sample the wait goes on with, or the error it returns. -/
def waitBegin [DecidableEq μ] (c : Cond μ) (mutex : μ) (st : Int) : Cond μ × Except Int Sample :=
  let bound := if c.mutex = none then some mutex else c.mutex
  let failed := { c with mutex := if c.waiters = 0 then none else bound }
  if bound ≠ some mutex then (failed, .error (-EINVAL))
  else if st ≠ 0 then (failed, .error st)
  else ({ c with mutex := bound, waiters := c.waiters + 1 },
    .ok ⟨c.broadcastSeq.truncate 32, c.futex⟩)

/-- `exit:` of `tbthread_cond_wait`. -/
def leave (c : Cond μ) : Cond μ :=
  { c with waiters := c.waiters - 1, mutex := if c.waiters - 1 = 0 then none else c.mutex }

/-- A section of the wait loop, and whether the thread leaves the loop. Comparing `bseq`
with `broadcast_seq` extends its sign. -/
def recheck (c : Cond μ) (bseq : BitVec 32) : Cond μ × Bool :=
  if c.signalNum ≠ 0 then (leave { c with signalNum := c.signalNum - 1 }, true)
  else if bseq.signExtend 64 ≠ c.broadcastSeq then (leave c, true)
  else (c, false)

/-- A wait that fails changes no field but the mutex it may have bound. -/
theorem waitBegin_cases [DecidableEq μ] (c : Cond μ) (m : μ) (st : Int) :
    (∃ e bound, waitBegin c m st = ({ c with mutex := bound }, .error e)) ∨
    (c.mutex = none ∨ c.mutex = some m) ∧ st = 0 ∧
      waitBegin c m st = ({ c with mutex := some m, waiters := c.waiters + 1 },
        .ok ⟨c.broadcastSeq.truncate 32, c.futex⟩) := by
  have hbound : (if c.mutex = none then some m else c.mutex) = some m ↔
      c.mutex = none ∨ c.mutex = some m := by
    split <;> simp_all
  unfold waitBegin
  by_cases hm : (if c.mutex = none then some m else c.mutex) = some m
  · by_cases hst : st = 0
    · exact .inr ⟨hbound.mp hm, hst, by simp only [hm, hst, ne_eq, not_true, if_false]⟩
    · exact .inl ⟨st, if c.waiters = 0 then none else some m, by
        simp only [hm, hst, ne_eq, not_true, not_false_eq_true, if_false, if_true]⟩
  · exact .inl ⟨-EINVAL, if c.waiters = 0 then none else if c.mutex = none then some m else c.mutex, by
      simp only [hm, ne_eq, not_false_eq_true, if_true]⟩

/-- A wait in progress. `casts` and `bumps` are history: the broadcasts that had run and the
increments of the futex word when the wait began. -/
structure Wait (μ : Type) where
  mutex : μ
  sample : Sample
  casts : Nat
  bumps : Nat
  deriving DecidableEq

/-- Where a thread is. `st` is what the last `FUTEX_WAIT` returned. -/
inductive Pc (μ : Type) where
  | out (st : Int)
  | broadcast
  | signal
  | waitBegin (mutex : μ)
  | futexWait (w : Wait μ)
  | asleep (w : Wait μ)
  | recheck (w : Wait μ) (st : Int)
  | relock (mutex : μ) (st : Int)
  deriving DecidableEq

inductive Call (μ : Type) where
  | broadcast
  | signal
  | wait (mutex : μ)
  deriving DecidableEq

def Call.entry : Call μ → Pc μ
  | .broadcast => .broadcast
  | .signal => .signal
  | .wait m => .waitBegin m

/-- The wait of a thread that released its mutex and has not left the loop. -/
def waitOf : Pc μ → Option (Wait μ)
  | .futexWait w => some w
  | .asleep w => some w
  | .recheck w _ => some w
  | _ => none

def waiting (c : Pc μ) : Bool := (waitOf c).isSome

def asleep : Pc μ → Bool
  | .asleep _ => true
  | _ => false

/-- A wake makes `FUTEX_WAIT` return 0. -/
def resume : Pc μ → Pc μ
  | .asleep w => .recheck w 0
  | c => c

/-- A signal that was counted and not consumed: the broadcasts that had run and the increments of
the futex word when it was sent, and whether uncovered waiters outnumbered the outstanding signals then. -/
structure Sent where
  casts : Nat
  bumps : Nat
  guarded : Bool
  deriving DecidableEq, Repr

/-- The condition variable, the threads, and what no step reads: the broadcasts that ran, also those
that found nobody to wake, the increments of the futex word and the outstanding signals. -/
structure State (τ μ : Type) where
  cond : Cond μ
  pc : τ → Pc μ
  casts : Nat
  bumps : Nat
  sent : List Sent

/-- `TBTHREAD_COND_INITIALIZER`, but for the sequence number to start from. -/
def State.start (seq : BitVec 64) : State τ μ where
  cond := ⟨0, 0, 0, seq, none⟩
  pc := fun _ => .out 0
  casts := 0
  bumps := 0
  sent := []

def Initial (s : State τ μ) : Prop := s = State.start 0

/-- Waiting, and no broadcast ran since the wait began. -/
def uncovered (casts : Nat) (c : Pc μ) : Bool := (waitOf c).any fun w => w.casts = casts

variable [DecidableEq τ]

def State.goto (s : State τ μ) (t : τ) (c : Pc μ) : State τ μ :=
  { s with pc := Function.update s.pc t c }

/-- Steps of thread `t`. `woken` is the sleeper that a wake of one finds, `st` what unlocking
the mutex returns, `pick` the outstanding signal that a decrement is put down to. -/
inductive Action (τ μ : Type) where
  | call (t : τ) (f : Call μ)
  | broadcast (t : τ)
  | signal (t : τ) (woken : Option τ)
  | waitBegin (t : τ) (st : Int)
  | futexWait (t : τ)
  | interrupt (t : τ)
  | recheck (t : τ) (pick : Nat)
  | relock (t : τ)

variable [Fintype τ] [DecidableEq μ]

def stepSignal (s : State τ μ) (t : τ) (woken : Option τ) : Option (State τ μ) :=
  match signal s.cond with
  | (_, false) => some (s.goto t (.out 0))
  | (c, true) => (wakeOne asleep resume (s.goto t (.out 0)).pc woken).map fun pc =>
      { s with
        cond := c
        pc := pc
        bumps := s.bumps + 1
        sent := s.sent ++ [⟨s.casts, s.bumps, s.sent.length < tally (uncovered s.casts) s.pc⟩] }

def stepRecheck (s : State τ μ) (t : τ) (w : Wait μ) (st : Int) (pick : Nat) : Option (State τ μ) :=
  match recheck s.cond w.sample.bseq with
  | (_, false) => some (s.goto t (.futexWait w))
  | (c, true) =>
      if s.cond.signalNum = 0 then some ({ s with cond := c }.goto t (.relock w.mutex st))
      else if pick < s.sent.length then
        some ({ s with cond := c, sent := s.sent.eraseIdx pick }.goto t (.relock w.mutex st))
      else none

def step (s : State τ μ) : Action τ μ → Option (State τ μ)
  | .call t f => match s.pc t with
    | .out _ => some (s.goto t f.entry)
    | _ => none
  | .broadcast t => match s.pc t, broadcast s.cond with
    | .broadcast, (_, false) => some ({ s with casts := s.casts + 1 }.goto t (.out 0))
    | .broadcast, (c, true) => some { s with
        cond := c
        pc := wakeAll asleep resume (s.goto t (.out 0)).pc
        casts := s.casts + 1
        bumps := s.bumps + 1 }
    | _, _ => none
  | .signal t woken => match s.pc t with
    | .signal => stepSignal s t woken
    | _ => none
  | .waitBegin t st => match s.pc t with
    | .waitBegin m => match waitBegin s.cond m st with
      | (c, .ok v) => some ({ s with cond := c }.goto t (.futexWait ⟨m, v, s.casts, s.bumps⟩))
      | (c, .error e) => some ({ s with cond := c }.goto t (.out e))
    | _ => none
  | .futexWait t => match s.pc t with
    | .futexWait w =>
        some (s.goto t (if s.cond.futex = w.sample.futex then .asleep w else .recheck w (-EWOULDBLOCK)))
    | _ => none
  | .interrupt t => match s.pc t with
    | .asleep w => some (s.goto t (.futexWait w))
    | _ => none
  | .recheck t pick => match s.pc t with
    | .recheck w st => stepRecheck s t w st pick
    | _ => none
  | .relock t => match s.pc t with
    | .relock _ st => some (s.goto t (.out st))
    | _ => none

/-- What a step does, case by case. -/
inductive Stepped (s : State τ μ) : Action τ μ → State τ μ → Prop where
  | call {t f st} (hpc : s.pc t = .out st) : Stepped s (.call t f) (s.goto t f.entry)
  | broadcastIdle {t} (hpc : s.pc t = .broadcast) (hw : s.cond.waiters = 0) :
      Stepped s (.broadcast t) ({ s with casts := s.casts + 1 }.goto t (.out 0))
  | broadcast {t} (hpc : s.pc t = .broadcast) (hw : s.cond.waiters ≠ 0) :
      Stepped s (.broadcast t) { s with
        cond := { s.cond with futex := s.cond.futex + 1, broadcastSeq := s.cond.broadcastSeq + 1 }
        pc := wakeAll asleep resume (s.goto t (.out 0)).pc
        casts := s.casts + 1
        bumps := s.bumps + 1 }
  | signalIdle {t woken} (hpc : s.pc t = .signal) (hw : s.cond.waiters = s.cond.signalNum) :
      Stepped s (.signal t woken) (s.goto t (.out 0))
  | signal {t woken pc} (hpc : s.pc t = .signal) (hw : s.cond.waiters ≠ s.cond.signalNum)
      (hwake : wakeOne asleep resume (s.goto t (.out 0)).pc woken = some pc) :
      Stepped s (.signal t woken) { s with
        cond := { s.cond with futex := s.cond.futex + 1, signalNum := s.cond.signalNum + 1 }
        pc := pc
        bumps := s.bumps + 1
        sent := s.sent ++ [⟨s.casts, s.bumps, s.sent.length < tally (uncovered s.casts) s.pc⟩] }
  | waitFailed {t st m e bound} (hpc : s.pc t = .waitBegin m)
      (he : waitBegin s.cond m st = ({ s.cond with mutex := bound }, .error e)) :
      Stepped s (.waitBegin t st) ({ s with cond := { s.cond with mutex := bound } }.goto t (.out e))
  | waitBegun {t m} (hpc : s.pc t = .waitBegin m) (hm : s.cond.mutex = none ∨ s.cond.mutex = some m) :
      Stepped s (.waitBegin t 0) ({ s with
          cond := { s.cond with mutex := some m, waiters := s.cond.waiters + 1 } }.goto t
        (.futexWait ⟨m, ⟨s.cond.broadcastSeq.truncate 32, s.cond.futex⟩, s.casts, s.bumps⟩))
  | slept {t w} (hpc : s.pc t = .futexWait w) (hf : s.cond.futex = w.sample.futex) :
      Stepped s (.futexWait t) (s.goto t (.asleep w))
  | missed {t w} (hpc : s.pc t = .futexWait w) (hf : s.cond.futex ≠ w.sample.futex) :
      Stepped s (.futexWait t) (s.goto t (.recheck w (-EWOULDBLOCK)))
  | interrupted {t w} (hpc : s.pc t = .asleep w) : Stepped s (.interrupt t) (s.goto t (.futexWait w))
  | consumed {t w st pick} (hpc : s.pc t = .recheck w st) (hn : s.cond.signalNum ≠ 0)
      (hp : pick < s.sent.length) :
      Stepped s (.recheck t pick) ({ s with
        cond := leave { s.cond with signalNum := s.cond.signalNum - 1 }
        sent := s.sent.eraseIdx pick }.goto t (.relock w.mutex st))
  | released {t w st pick} (hpc : s.pc t = .recheck w st) (hn : s.cond.signalNum = 0)
      (hb : w.sample.bseq.signExtend 64 ≠ s.cond.broadcastSeq) :
      Stepped s (.recheck t pick) ({ s with cond := leave s.cond }.goto t (.relock w.mutex st))
  | stayed {t w st pick} (hpc : s.pc t = .recheck w st) (hn : s.cond.signalNum = 0)
      (hb : w.sample.bseq.signExtend 64 = s.cond.broadcastSeq) :
      Stepped s (.recheck t pick) (s.goto t (.futexWait w))
  | relocked {t m st} (hpc : s.pc t = .relock m st) : Stepped s (.relock t) (s.goto t (.out st))

theorem stepSignal_stepped {s s' : State τ μ} {t : τ} {woken : Option τ} (hpc : s.pc t = .signal)
    (h : stepSignal s t woken = some s') : Stepped s (.signal t woken) s' := by
  unfold stepSignal signal at h
  by_cases hw : s.cond.waiters = s.cond.signalNum
  · simp only [hw, if_true, Option.some.injEq] at h
    exact h ▸ .signalIdle hpc hw
  · simp only [hw, if_false] at h
    obtain ⟨pc, hwake, he⟩ := Option.map_eq_some_iff.mp h
    exact he ▸ .signal hpc hw hwake

theorem stepRecheck_stepped {s s' : State τ μ} {t : τ} {w : Wait μ} {st : Int} {pick : Nat}
    (hpc : s.pc t = .recheck w st) (h : stepRecheck s t w st pick = some s') :
    Stepped s (.recheck t pick) s' := by
  unfold stepRecheck recheck at h
  by_cases hn : s.cond.signalNum = 0
  · by_cases hb : w.sample.bseq.signExtend 64 = s.cond.broadcastSeq
    · simp only [hn, hb, ne_eq, not_true, if_false, Option.some.injEq] at h
      exact h ▸ .stayed hpc hn hb
    · simp only [hn, hb, ne_eq, not_true, not_false_eq_true, if_true, if_false, Option.some.injEq] at h
      exact h ▸ .released hpc hn hb
  · simp only [hn, ne_eq, not_false_eq_true, if_true, if_false, Option.ite_none_right_eq_some,
      Option.some.injEq] at h
    exact h.2 ▸ .consumed hpc hn h.1

theorem step_stepped {s s' : State τ μ} {a : Action τ μ} (h : step s a = some s') : Stepped s a s' := by
  cases a with
  | call t f =>
    simp only [step] at h
    split at h
    · rename_i hpc; cases h; exact .call hpc
    · cases h
  | broadcast t =>
    simp only [step] at h
    by_cases hw : s.cond.waiters = 0
    · simp only [broadcast, hw, if_true] at h
      split at h
      · rename_i hpc _; cases h; exact .broadcastIdle hpc hw
      · rename_i he; cases he
      · cases h
    · simp only [broadcast, hw, if_false] at h
      split at h
      · rename_i he; cases he
      · rename_i hpc he; cases he; cases h; exact .broadcast hpc hw
      · cases h
  | signal t woken =>
    simp only [step] at h
    split at h
    · rename_i hpc; exact stepSignal_stepped hpc h
    · cases h
  | waitBegin t st =>
    simp only [step] at h
    split at h
    · rename_i m hpc
      rcases waitBegin_cases s.cond m st with ⟨e, bound, he⟩ | ⟨hm, rfl, he⟩
      · simp only [he, Option.some.injEq] at h
        exact h ▸ .waitFailed hpc he
      · simp only [he, Option.some.injEq] at h
        exact h ▸ .waitBegun hpc hm
    · cases h
  | futexWait t =>
    simp only [step] at h
    split at h
    · rename_i w hpc
      cases h
      split
      · rename_i hf; exact .slept hpc hf
      · rename_i hf; exact .missed hpc hf
    · cases h
  | interrupt t =>
    simp only [step] at h
    split at h
    · rename_i hpc; cases h; exact .interrupted hpc
    · cases h
  | recheck t pick =>
    simp only [step] at h
    split at h
    · rename_i hpc; exact stepRecheck_stepped hpc h
    · cases h
  | relock t =>
    simp only [step] at h
    split at h
    · rename_i hpc; cases h; exact .relocked hpc
    · cases h

end ThreadBites.CondVar

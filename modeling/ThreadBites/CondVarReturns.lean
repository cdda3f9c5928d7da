import ThreadBites.CondVar
import ThreadBites.MutexCalls

/-!
# What a condition wait returns

The condition variable with the mutexes of its waiters, of any type and protocol,
which the threads also lock and unlock outside of waits. The mutex is unlocked in
the first section of a wait and locked at its end, where the thread may have to
wait once more. `ret` is what `sched_setscheduler` returns in a call on a mutex.
-/
namespace ThreadBites.CondVar

open Transition
open Mutex (Op)
open MutexCalls (World lock trylock unlock lock_owner)

variable {τ μ : Type}

/-- `locking` is the mutex that a thread waits for outside of a condition wait. -/
structure Monitor (τ μ : Type) where
  state : State τ μ
  world : World τ μ
  locking : τ → Option μ

/-- Mutexes and threads in any state, and a condition variable that nobody has used. -/
def Monitor.Initial (s : Monitor τ μ) : Prop :=
  (∃ seq, s.state = State.start seq) ∧ ∀ t, s.locking t = none

/-- A step of the condition variable that calls no function of a mutex, the two that do, and what
threads outside of it do with the mutexes. -/
inductive Monitor.Action (τ μ : Type) where
  | cond (a : CondVar.Action τ μ)
  | waitBegin (t : τ) (ret : Int)
  | relock (t : τ) (ret : Int)
  | mutex (t : τ) (f : Op) (m : μ) (ret : Int)
  | retry (t : τ) (ret : Int)

/-- What the last `FUTEX_WAIT` of a thread returned. -/
def lastStatus : Pc μ → Int
  | .recheck _ st => st
  | .relock _ st => st
  | _ => 0

theorem lastStatus_resume {c : Pc μ} (h : lastStatus c = 0) : lastStatus (resume c) = 0 := by
  cases c with
  | asleep w => rfl
  | _ => exact h

theorem resume_out {c : Pc μ} {e : Int} (h : resume c = .out e) : c = .out e := by
  cases c with
  | asleep w => cases h
  | _ => exact h

variable [DecidableEq τ] [DecidableEq μ]

/-- A lock that goes on waiting is taken up again by `retry`. -/
def Monitor.lock (s : Monitor τ μ) (t : τ) (m : μ) (ret : Int) : Option (Monitor τ μ) :=
  (MutexCalls.lock s.world m t ret).map fun r =>
    { s with world := r.1, locking := Function.update s.locking t (if r.2 = none then some m else none) }

def Monitor.call (s : Monitor τ μ) (t : τ) (m : μ) (ret : Int) : Op → Option (Monitor τ μ)
  | .lock => s.lock t m ret
  | .trylock => (trylock s.world m t ret).map fun r => { s with world := r.1 }
  | .unlock => (unlock s.world m t ret).map fun r => { s with world := r.1 }

variable [Fintype τ]

def Monitor.step (s : Monitor τ μ) : Monitor.Action τ μ → Option (Monitor τ μ)
  | .cond a => match a with
    | .waitBegin _ _ => none
    | .relock _ => none
    | .call t _ =>
        if s.locking t = none then (CondVar.step s.state a).map fun state => { s with state := state } else none
    | _ => (CondVar.step s.state a).map fun state => { s with state := state }
  | .waitBegin t ret => match s.state.pc t with
    | .waitBegin m =>
        -- another mutex is refused before the mutex is unlocked
        if s.state.cond.mutex = none ∨ s.state.cond.mutex = some m then
          (unlock s.world m t ret).bind fun r => (CondVar.step s.state (.waitBegin t r.2)).map fun state =>
            { s with state := state, world := r.1 }
        else (CondVar.step s.state (.waitBegin t 0)).map fun state => { s with state := state }
    | _ => none
  | .relock t ret => match s.state.pc t with
    | .relock m _ => (MutexCalls.lock s.world m t ret).bind fun r => match r.2 with
        | none => some { s with world := r.1 }
        | some _ => (CondVar.step s.state (.relock t)).map fun state => { s with state := state, world := r.1 }
    | _ => none
  | .mutex t f m ret => match s.state.pc t, s.locking t with
    | .out _, none => s.call t m ret f
    | _, _ => none
  | .retry t ret => match s.locking t with
    | some m => s.lock t m ret
    | none => none

/-- The futex word that a thread is about to hand to `FUTEX_WAIT`. -/
def expected : Pc μ → Option (BitVec 32)
  | .futexWait w => some w.sample.futex
  | _ => none

/-- `FUTEX_WAIT` is entered only while the futex word is what the wait sampled. -/
def Monitor.SleepsCurrent (s : Monitor τ μ) : Monitor.Action τ μ → Prop
  | .cond (.futexWait t) => expected (s.state.pc t) = some s.state.cond.futex
  | _ => True

instance (s : Monitor τ μ) : (a : Monitor.Action τ μ) → Decidable (s.SleepsCurrent a)
  | .cond (.futexWait _) => inferInstanceAs (Decidable (_ = _))
  | .cond (.call _ _) => isTrue trivial
  | .cond (.broadcast _) => isTrue trivial
  | .cond (.signal _ _) => isTrue trivial
  | .cond (.waitBegin _ _) => isTrue trivial
  | .cond (.interrupt _) => isTrue trivial
  | .cond (.recheck _ _) => isTrue trivial
  | .cond (.relock _) => isTrue trivial
  | .waitBegin _ _ => isTrue trivial
  | .relock _ _ => isTrue trivial
  | .mutex _ _ _ _ => isTrue trivial
  | .retry _ _ => isTrue trivial

/-- The step returns 0 from a wait and with the mutex, or an error from a call that did not wait. -/
structure ReturnsRight (s s' : Monitor τ μ) : Prop where
  waited : ∀ t m st e, s.state.pc t = .relock m st → s'.state.pc t = .out e →
    e = 0 ∧ (s'.world.mutex m).owner = some t
  refused : ∀ t m e, s.state.pc t = .waitBegin m → s'.state.pc t = .out e →
    e = -EINVAL ∧ s.state.cond.mutex ≠ none ∧ s.state.cond.mutex ≠ some m ∨
      e ≠ 0 ∧ ∃ ret w, unlock s.world m t ret = some (w, e)
  within : ∀ t w e, waitOf (s.state.pc t) = some w → s'.state.pc t ≠ .out e

/-- A waiter that does not miss a wakeup leaves the loop with 0. -/
theorem lastStatus_step {s s' : State τ μ} {a : CondVar.Action τ μ} (h : ∀ t, lastStatus (s.pc t) = 0)
    (ha : ∀ t w, a = .futexWait t → s.pc t = .futexWait w → s.cond.futex = w.sample.futex)
    (hs : Stepped s a s') (u : τ) : lastStatus (s'.pc u) = 0 := by
  have hgoto : ∀ (t : τ) (c : Pc μ), lastStatus c = 0 → lastStatus ((s.goto t c).pc u) = 0 := by
    intro t c hc
    by_cases hu : u = t
    · subst u
      simpa [State.goto] using hc
    · simpa [State.goto, hu] using h u
  cases hs with
  | @call t f st hpc => exact hgoto t _ (by cases f <;> rfl)
  | @broadcast t hpc hw =>
    rcases WaitQueue.wakeAll_woken asleep resume (s.goto t (.out 0)).pc u with he | ⟨-, he⟩
    · exact (congrArg lastStatus he).trans (hgoto t _ rfl)
    · exact (congrArg lastStatus he).trans (lastStatus_resume (hgoto t _ rfl))
  | @signal t woken pc hpc hw hwake =>
    rcases WaitQueue.wakeOne_woken hwake u with he | ⟨-, he⟩
    · exact (congrArg lastStatus he).trans (hgoto t _ rfl)
    · exact (congrArg lastStatus he).trans (lastStatus_resume (hgoto t _ rfl))
  | @missed t w hpc hf => exact absurd (ha t w rfl hpc) hf
  | @consumed t w st pick hpc hn hp => exact hgoto t _ (by simpa [hpc, lastStatus] using h t)
  | @released t w st pick hpc hn hb => exact hgoto t _ (by simpa [hpc, lastStatus] using h t)
  | @relocked t m st hpc => exact hgoto t _ rfl
  | @broadcastIdle t hpc hw => exact hgoto t _ rfl
  | @signalIdle t woken hpc hw => exact hgoto t _ rfl
  | @waitFailed t st m e bound hpc he => exact hgoto t _ rfl
  | @waitBegun t m hpc hm => exact hgoto t _ rfl
  | @slept t w hpc hf => exact hgoto t _ rfl
  | @interrupted t w hpc => exact hgoto t _ rfl
  | @stayed t w st pick hpc hn hb => exact hgoto t _ rfl

/-- Who returns in a step of the condition variable, and with what. -/
theorem returned_by {s s' : State τ μ} {a : CondVar.Action τ μ} (hs : Stepped s a s') {u : τ} {e : Int}
    (he : s'.pc u = .out e) : s.pc u = .out e ∨ s.pc u = .broadcast ∨ s.pc u = .signal ∨
      (∃ m, s.pc u = .relock m e ∧ a = .relock u) ∨
      ∃ m st bound, s.pc u = .waitBegin m ∧ a = .waitBegin u st ∧ waitBegin s.cond m st = (bound, .error e) := by
  have hgoto : ∀ {t : τ} {c : Pc μ}, (s.goto t c).pc u = .out e → s.pc u = .out e ∨ u = t ∧ c = .out e := by
    intro t c h
    by_cases hu : u = t
    · subst u
      exact .inr ⟨rfl, by simpa [State.goto] using h⟩
    · exact .inl (by simpa [State.goto, hu] using h)
  have hwake : ∀ {t : τ} {pc : τ → Pc μ}, WaitQueue.Woken asleep resume (s.goto t (.out 0)).pc pc →
      pc u = .out e → s.pc u = .out e ∨ u = t := by
    intro t pc hwoken h
    rcases hwoken u with hsame | ⟨-, hres⟩
    · exact (hgoto (hsame ▸ h)).imp id And.left
    · exact (hgoto (resume_out (hres ▸ h))).imp id And.left
  cases hs with
  | @call t f st hpc =>
    rcases hgoto he with h | ⟨-, h⟩
    · exact .inl h
    · cases f <;> cases h
  | @broadcastIdle t hpc hw =>
    rcases hgoto he with h | ⟨rfl, -⟩
    · exact .inl h
    · exact .inr (.inl hpc)
  | @broadcast t hpc hw =>
    rcases hwake (WaitQueue.wakeAll_woken asleep resume _) he with h | rfl
    · exact .inl h
    · exact .inr (.inl hpc)
  | @signalIdle t woken hpc hw =>
    rcases hgoto he with h | ⟨rfl, -⟩
    · exact .inl h
    · exact .inr (.inr (.inl hpc))
  | @signal t woken pc hpc hw hone =>
    rcases hwake (WaitQueue.wakeOne_woken hone) he with h | rfl
    · exact .inl h
    · exact .inr (.inr (.inl hpc))
  | @waitFailed t st m e' bound hpc hb =>
    rcases hgoto he with h | ⟨rfl, h⟩
    · exact .inl h
    · cases h
      exact .inr (.inr (.inr (.inr ⟨m, st, _, hpc, rfl, hb⟩)))
  | @relocked t m st hpc =>
    rcases hgoto he with h | ⟨rfl, h⟩
    · exact .inl h
    · cases h
      exact .inr (.inr (.inr (.inl ⟨m, hpc, rfl⟩)))
  | _ =>
    rcases hgoto he with h | ⟨-, h⟩
    · exact .inl h
    · cases h

theorem relock_returns {s s' : State τ μ} {a : CondVar.Action τ μ} (hs : Stepped s a s') {t : τ} {m : μ}
    {st e : Int} (hpc : s.pc t = .relock m st) (he : s'.pc t = .out e) : a = .relock t ∧ e = st := by
  have h := returned_by hs he
  simp only [hpc, reduceCtorEq, false_or, Pc.relock.injEq, false_and, exists_false, or_false] at h
  obtain ⟨m', ⟨-, rfl⟩, ha⟩ := h
  exact ⟨ha, rfl⟩

theorem waitBegin_returns {s s' : State τ μ} {a : CondVar.Action τ μ} (hs : Stepped s a s') {t : τ} {m : μ}
    {e : Int} (hpc : s.pc t = .waitBegin m) (he : s'.pc t = .out e) :
    ∃ st bound, a = .waitBegin t st ∧ waitBegin s.cond m st = (bound, .error e) := by
  have h := returned_by hs he
  simp only [hpc, reduceCtorEq, false_or, Pc.waitBegin.injEq, false_and, exists_false] at h
  obtain ⟨m', st, bound, rfl, ha, hb⟩ := h
  exact ⟨st, bound, ha, hb⟩

theorem waiting_goes_on {s s' : State τ μ} {a : CondVar.Action τ μ} (hs : Stepped s a s') {t : τ} {w : Wait μ}
    (hw : waitOf (s.pc t) = some w) (e : Int) : s'.pc t ≠ .out e := by
  intro he
  rcases returned_by hs he with h | h | h | ⟨m, h, -⟩ | ⟨m, st, bound, h, -⟩ <;>
    · rw [h] at hw
      cases hw

/-- The two errors of the first section: another mutex, and what unlocking the mutex returned. -/
theorem waitBegin_error {c : Cond μ} {m : μ} {st e : Int} {bound : Cond μ}
    (h : waitBegin c m st = (bound, .error e)) :
    e = -EINVAL ∧ c.mutex ≠ none ∧ c.mutex ≠ some m ∨ (c.mutex = none ∨ c.mutex = some m) ∧ e = st ∧ st ≠ 0 := by
  unfold waitBegin at h
  by_cases hn : c.mutex = none
  · simp only [hn, if_true] at h
    split at h
    · contradiction
    · split at h
      · rename_i hst
        cases h
        exact .inr ⟨.inl hn, rfl, hst⟩
      · cases h
  · simp only [hn, if_false] at h
    split at h
    · rename_i hm
      cases h
      exact .inl ⟨rfl, hn, hm⟩
    · rename_i hm
      split at h
      · rename_i hst
        cases h
        exact .inr ⟨.inr (by simpa using hm), rfl, hst⟩
      · cases h

/-- What a step of the monitor does, case by case. -/
inductive Monitor.Stepped (s : Monitor τ μ) : Monitor.Action τ μ → Monitor τ μ → Prop where
  | cond {a state} (hw : ∀ t st, a ≠ .waitBegin t st) (hr : ∀ t, a ≠ .relock t)
      (h : CondVar.Stepped s.state a state) : Stepped s (.cond a) { s with state := state }
  | refused {t m ret state} (hpc : s.state.pc t = .waitBegin m)
      (hm : ¬ (s.state.cond.mutex = none ∨ s.state.cond.mutex = some m))
      (h : CondVar.Stepped s.state (.waitBegin t 0) state) :
      Stepped s (.waitBegin t ret) { s with state := state }
  | unlocked {t m ret st w state} (hpc : s.state.pc t = .waitBegin m)
      (hu : unlock s.world m t ret = some (w, st))
      (h : CondVar.Stepped s.state (.waitBegin t st) state) :
      Stepped s (.waitBegin t ret) { s with state := state, world := w }
  | relocked {t m st ret w e state} (hpc : s.state.pc t = .relock m st)
      (hl : MutexCalls.lock s.world m t ret = some (w, some e)) (h : CondVar.Stepped s.state (.relock t) state) :
      Stepped s (.relock t ret) { s with state := state, world := w }
  | mutexes {a w locking} (h : ∀ b, a ≠ .cond b) : Stepped s a { s with world := w, locking := locking }

theorem Monitor.step_stepped {s s' : Monitor τ μ} {a : Monitor.Action τ μ} (h : s.step a = some s') :
    s.Stepped a s' := by
  have hcond : ∀ {b : CondVar.Action τ μ}, (∀ t st, b ≠ .waitBegin t st) → (∀ t, b ≠ .relock t) →
      ((CondVar.step s.state b).map fun state => { s with state := state }) = some s' →
        s.Stepped (.cond b) s' := by
    intro b hw hr hb
    obtain ⟨state, hstate, rfl⟩ := Option.map_eq_some_iff.mp hb
    exact .cond hw hr (CondVar.step_stepped hstate)
  cases a with
  | cond b =>
    cases b with
    | waitBegin | relock => cases h
    | call t f =>
      simp only [Monitor.step] at h
      split at h
      · exact hcond (fun _ _ he => by cases he) (fun _ he => by cases he) h
      · cases h
    | _ => exact hcond (fun _ _ he => by cases he) (fun _ he => by cases he) h
  | waitBegin t ret =>
    simp only [Monitor.step] at h
    split at h
    · rename_i m hpc
      split at h
      · obtain ⟨⟨w, st⟩, hu, h⟩ := Option.bind_eq_some_iff.mp h
        obtain ⟨state, hstate, rfl⟩ := Option.map_eq_some_iff.mp h
        exact .unlocked hpc hu (CondVar.step_stepped hstate)
      · rename_i hm
        obtain ⟨state, hstate, rfl⟩ := Option.map_eq_some_iff.mp h
        exact .refused hpc hm (CondVar.step_stepped hstate)
    · cases h
  | relock t ret =>
    simp only [Monitor.step] at h
    split at h
    · rename_i m st hpc
      obtain ⟨⟨w, e⟩, hl, h⟩ := Option.bind_eq_some_iff.mp h
      cases e with
      | none =>
        cases h
        exact .mutexes fun b hb => by cases hb
      | some e =>
        obtain ⟨state, hstate, rfl⟩ := Option.map_eq_some_iff.mp h
        exact .relocked hpc hl (CondVar.step_stepped hstate)
    · cases h
  | mutex t f m ret =>
    simp only [Monitor.step] at h
    split at h
    · cases f with
      | lock | trylock | unlock =>
        obtain ⟨r, -, rfl⟩ := Option.map_eq_some_iff.mp h
        exact .mutexes fun b hb => by cases hb
    · cases h
  | retry t ret =>
    simp only [Monitor.step] at h
    split at h
    · obtain ⟨r, -, rfl⟩ := Option.map_eq_some_iff.mp h
      exact .mutexes fun b hb => by cases hb
    · cases h

theorem Monitor.lastStatus_step {s s' : Monitor τ μ} {a : Monitor.Action τ μ}
    (h : ∀ t, lastStatus (s.state.pc t) = 0) (ha : s.SleepsCurrent a) (hs : s.Stepped a s') :
    ∀ t, lastStatus (s'.state.pc t) = 0 := by
  cases hs with
  | @cond b state hw hr hb =>
    refine CondVar.lastStatus_step h (fun t w he hpc => ?_) hb
    subst he
    have hsome : some w.sample.futex = some s.state.cond.futex := by
      rw [← (ha : expected _ = _), hpc]
      rfl
    exact (Option.some.inj hsome).symm
  | refused hpc hm hb => exact CondVar.lastStatus_step h (fun t w he => by cases he) hb
  | unlocked hpc hu hb => exact CondVar.lastStatus_step h (fun t w he => by cases he) hb
  | relocked hpc hl hb => exact CondVar.lastStatus_step h (fun t w he => by cases he) hb
  | mutexes => exact h

theorem Monitor.reaches_lastStatus {s : Monitor τ μ}
    (h : Reaches Monitor.Initial Monitor.step Monitor.SleepsCurrent s) :
    ∀ t, lastStatus (s.state.pc t) = 0 := by
  apply h.invariant (I := fun s => ∀ t, lastStatus (s.state.pc t) = 0)
  · rintro s ⟨⟨seq, hseq⟩, -⟩ t
    rw [hseq]
    rfl
  · exact fun s a t _ hi ha hs => Monitor.lastStatus_step hi ha (Monitor.step_stepped hs)

/-- In a run in which `FUTEX_WAIT` is entered only with a current sample, a wait returns 0 and
the mutex, and an error comes only from a wait that did not begin. -/
theorem cond_wait_returns {s s' : Monitor τ μ} {a : Monitor.Action τ μ}
    (h : Reaches Monitor.Initial Monitor.step Monitor.SleepsCurrent s) (hs : s.step a = some s') :
    ReturnsRight s s' := by
  have hzero := Monitor.reaches_lastStatus h
  have hstep := Monitor.step_stepped hs
  constructor
  · intro t m st e hpc he
    have hst : st = 0 := by simpa [hpc, lastStatus] using hzero t
    cases hstep with
    | cond hw hr hb => exact absurd (relock_returns hb hpc he).1 (hr t)
    | refused hpc' hm hb | unlocked hpc' hu hb => cases (relock_returns hb hpc he).1
    | relocked hpc' hl hb =>
      obtain ⟨ha, rfl⟩ := relock_returns hb hpc he
      cases ha
      rw [hpc] at hpc'
      cases hpc'
      exact ⟨hst, lock_owner hl⟩
    | mutexes =>
      rw [hpc] at he
      cases he
  · intro t m e hpc he
    cases hstep with
    | cond hw hr hb =>
      obtain ⟨st, bound, ha, -⟩ := waitBegin_returns hb hpc he
      exact absurd ha (hw t st)
    | refused hpc' hm hb =>
      obtain ⟨st, bound, ha, hb⟩ := waitBegin_returns hb hpc he
      cases ha
      rw [hpc] at hpc'
      cases hpc'
      rcases waitBegin_error hb with hother | ⟨hsame, -⟩
      · exact .inl hother
      · exact absurd hsame hm
    | unlocked hpc' hu hb =>
      obtain ⟨st, bound, ha, hb⟩ := waitBegin_returns hb hpc he
      cases ha
      rw [hpc] at hpc'
      cases hpc'
      rcases waitBegin_error hb with hother | ⟨-, rfl, hne⟩
      · exact .inl hother
      · exact .inr ⟨hne, _, _, hu⟩
    | relocked hpc' hl hb =>
      obtain ⟨st, bound, ha, -⟩ := waitBegin_returns hb hpc he
      cases ha
    | mutexes =>
      rw [hpc] at he
      cases he
  · intro t w e hw
    cases hstep with
    | cond _ _ hb | refused _ _ hb | unlocked _ _ hb | relocked _ _ hb => exact waiting_goes_on hb hw e
    | mutexes =>
      intro he
      rw [he] at hw
      cases hw

/-- One condition variable, and mutexes that nobody has used. -/
def Monitor.fresh (k : Mutex.Kind) (p : Mutex.Protocol) : Monitor τ μ := ⟨.start 0, .fresh k p, fun _ => none⟩

omit [DecidableEq τ] [DecidableEq μ] [Fintype τ] in
theorem Monitor.fresh_initial (k : Mutex.Kind) (p : Mutex.Protocol) :
    Monitor.Initial (Monitor.fresh k p : Monitor τ μ) := ⟨⟨0, rfl⟩, fun _ => rfl⟩

/-- A thread locks the mutex, waits, sleeps and is woken by a signal. -/
def signalled (t u : τ) (m : μ) : List (Monitor.Action τ μ) :=
  [.mutex t .lock m 0, .cond (.call t (.wait m)), .waitBegin t 0, .cond (.futexWait t),
    .cond (.call u .signal), .cond (.signal u (some t)), .cond (.recheck t 0)]

/-- The signal comes between the release of the mutex and `FUTEX_WAIT`. -/
def signalledFirst (t u : τ) (m : μ) : List (Monitor.Action τ μ) :=
  [.mutex t .lock m 0, .cond (.call t (.wait m)), .waitBegin t 0,
    .cond (.call u .signal), .cond (.signal u none), .cond (.futexWait t), .cond (.recheck t 0)]

set_option maxRecDepth 2000 in
theorem cond_wait_returns_woken : ∃ s s' : Monitor (Fin 2) Unit, s.step (.relock 0 0) = some s' ∧
    s'.state.pc 0 = .out 0 ∧ ReturnsRight s s' := by
  obtain ⟨s, hr, s', hs, hout⟩ : ∃ s : Monitor (Fin 2) Unit,
      Reaches Monitor.Initial Monitor.step Monitor.SleepsCurrent s ∧
        ∃ s', s.step (.relock 0 0) = some s' ∧ s'.state.pc 0 = .out 0 := by
    have hr := Reaches.run_get (Monitor.fresh_initial .normal .prioNone)
      (show (run Monitor.step Monitor.SleepsCurrent (signalled (0 : Fin 2) 1 ())
        (Monitor.fresh .normal .prioNone)).isSome from by decide)
    exact ⟨_, hr, _, rfl, by decide⟩
  exact ⟨s, s', hs, hout, cond_wait_returns hr hs⟩

set_option maxRecDepth 2000 in
/-- The wait consumed the signal and holds the mutex, and returns `-EWOULDBLOCK`. -/
theorem cond_wait_reports_wouldblock : ∃ s s' : Monitor (Fin 2) Unit,
    Reaches Monitor.Initial Monitor.step anyStep s ∧ s.step (.relock 0 0) = some s' ∧
    s'.state.pc 0 = .out (-EWOULDBLOCK) ∧ s'.state.cond.signalNum = 0 ∧ ¬ ReturnsRight s s' := by
  have hr := Reaches.run_get (Monitor.fresh_initial .normal .prioNone)
    (show (run Monitor.step anyStep (signalledFirst (0 : Fin 2) 1 ())
      (Monitor.fresh .normal .prioNone)).isSome from by decide)
  refine ⟨_, _, hr, rfl, by decide, by decide, fun h => ?_⟩
  have he := (h.waited 0 () (-EWOULDBLOCK) (-EWOULDBLOCK) (by decide) (by decide)).1
  cases he

end ThreadBites.CondVar

import ThreadBites.CondVarWaiters
import ThreadBites.CondVarSignals

/-!
# Every signal is taken

As long as a signal is outstanding, a waiter that rechecks takes one and leaves the
loop, and some waiter is on its way to do so. No calls and no `-EINTR` come in
between here: a waiter that nobody woke could keep the others from running.
-/
namespace ThreadBites.CondVar

open Transition Tally WaitQueue

variable {τ μ : Type}

/-- How many steps a thread may make while a signal is outstanding. -/
def left : Pc μ → Nat
  | .out _ => 0
  | .broadcast | .signal | .relock _ _ => 1
  | .recheck _ _ => 2
  | .asleep _ => 3
  | .futexWait _ => 4
  | .waitBegin _ => 5

/-- No calls are made, and no `FUTEX_WAIT` returns `-EINTR`. -/
def Undisturbed (s : State τ μ) (a : Action τ μ) : Prop :=
  FewBumps s a ∧ match a with
    | .call _ _ => False
    | .interrupt _ => False
    | _ => True

variable [Fintype τ]

def leftOver (s : State τ μ) : Nat := total fun t => left (s.pc t)

/-- What is left until no signal is outstanding. -/
def untilTaken (s : State τ μ) : Nat := if s.cond.signalNum = 0 then 0 else leftOver s + 1

theorem left_resume {c : Pc μ} (h : asleep c = true) : left (resume c) ≤ left c := by
  cases c with
  | asleep w => exact Nat.le_succ 2
  | _ => cases h

variable [DecidableEq τ]

/-- One thread goes further, and others are woken at most. -/
theorem leftOver_lt {s s' : State τ μ} {t : τ} {c : Pc μ} (hlt : left c < left (s.pc t))
    (hw : Woken asleep resume (s.goto t c).pc s'.pc) : leftOver s' < leftOver s := by
  have hself : (s.goto t c).pc t = c := Function.update_self ..
  have hother : ∀ u, u ≠ t → (s.goto t c).pc u = s.pc u := fun u hu => Function.update_of_ne hu ..
  have hle : ∀ u, left (s'.pc u) ≤ left ((s.goto t c).pc u) := by
    intro u
    rcases hw u with he | ⟨ha, he⟩
    · rw [he]
    · rw [he]
      exact left_resume ha
  refine total_lt_total (t := t) (fun u hu => ?_) ?_
  · rw [← hother u hu]
    exact hle u
  · rw [← hself] at hlt
    exact (hle t).trans_lt hlt

variable [DecidableEq μ]

/-- A step while a signal is outstanding leaves less to do. -/
theorem undisturbed_lt {s s' : State τ μ} {a : Action τ μ} (hn : s.cond.signalNum ≠ 0) (ha : Undisturbed s a)
    (hs : Stepped s a s') : leftOver s' < leftOver s := by
  have hsame : ∀ f : τ → Pc μ, Woken asleep resume f f := fun _ _ => .inl rfl
  cases hs with
  | call => exact ha.2.elim
  | interrupted => exact ha.2.elim
  | @broadcastIdle t hpc => exact leftOver_lt (t := t) (c := .out 0) (by rw [hpc]; simp [left]) (hsame _)
  | @broadcast t hpc =>
    exact leftOver_lt (t := t) (c := .out 0) (by rw [hpc]; simp [left]) (wakeAll_woken asleep resume _)
  | @signalIdle t _ hpc => exact leftOver_lt (t := t) (c := .out 0) (by rw [hpc]; simp [left]) (hsame _)
  | @signal t _ _ hpc _ hwake =>
    exact leftOver_lt (t := t) (c := .out 0) (by rw [hpc]; simp [left]) (wakeOne_woken hwake)
  | @waitFailed t _ _ _ _ hpc => exact leftOver_lt (t := t) (c := .out _) (by rw [hpc]; simp [left]) (hsame _)
  | @waitBegun t _ hpc => exact leftOver_lt (t := t) (c := .futexWait _) (by rw [hpc]; simp [left]) (hsame _)
  | @slept t w hpc => exact leftOver_lt (t := t) (c := .asleep w) (by rw [hpc]; simp [left]) (hsame _)
  | @missed t w hpc => exact leftOver_lt (t := t) (c := .recheck w _) (by rw [hpc]; simp [left]) (hsame _)
  | @consumed t w st _ hpc => exact leftOver_lt (t := t) (c := .relock w.mutex st) (by rw [hpc]; simp [left]) (hsame _)
  | released _ hz => exact absurd hz hn
  | stayed _ hz => exact absurd hz hn
  | @relocked t _ _ hpc => exact leftOver_lt (t := t) (c := .out _) (by rw [hpc]; simp [left]) (hsame _)

/-- Some waiter is on its way to take a signal that is outstanding. -/
theorem taker_steps {s : State τ μ} (h : Counted s) (hi : Issued s) (hn : s.cond.signalNum ≠ 0) :
    ∃ a s', Undisturbed s a ∧ step s a = some s' := by
  have hpos : 0 < tally (stale s.bumps) s.pc := Nat.lt_of_lt_of_le (Nat.pos_of_ne_zero hn) h.signals
  obtain ⟨u, hu⟩ := (tally_pos_iff _ _).mp hpos
  cases hpc : s.pc u with
  | futexWait w =>
    have hstep : (step s (.futexWait u)).isSome := by simp [step, hpc]
    exact ⟨.futexWait u, _, ⟨trivial, trivial⟩, (Option.some_get hstep).symm⟩
  | recheck w st =>
    have hlength : 0 < s.sent.length := by
      rw [hi.count]
      exact Nat.pos_of_ne_zero hn
    have hstep : (step s (.recheck u 0)).isSome := by simp [step, hpc, stepRecheck, recheck, hn, hlength]
    exact ⟨.recheck u 0, _, ⟨trivial, trivial⟩, (Option.some_get hstep).symm⟩
  | _ => rw [hpc] at hu; cases hu

/-- In whatever order the threads that are in calls go on, it comes to no outstanding signal. -/
theorem cond_signals_taken {s : State τ μ} (h : Reaches Initial step FewBumps s) :
    Inevitable step Undisturbed (fun s => s.cond.signalNum = 0) s := by
  refine Inevitable.of_measure (I := fun s => Counted s ∧ Issued s) untilTaken (fun s hs hn => ?_)
    (fun s a s' hs hn ha hstep => ?_) ⟨reaches_counted h, reaches_issued h⟩
  · exact taker_steps hs.1 hs.2 hn
  · have hlt := undisturbed_lt hn ha (step_stepped hstep)
    refine ⟨⟨counted_step hs.1 ha.1 (step_stepped hstep), issued_step hs.2 (step_stepped hstep)⟩, ?_⟩
    simp only [untilTaken, if_neg hn]
    split <;> omega

/-- One thread sleeps and another has yet to compare the word, when a signal is sent and finds the sleeper. -/
def signalledOne (t u v : τ) : List (Action τ Unit) :=
  [.call t (.wait ()), .waitBegin t 0, .futexWait t, .call u (.wait ()), .waitBegin u 0, .call v .signal,
    .signal v (some t)]

theorem cond_signals_taken_one : ∃ s : State (Fin 3) Unit, s.cond.signalNum = 1 ∧ s.cond.waiters = 2 ∧
    Inevitable step Undisturbed (fun s => s.cond.signalNum = 0) s := by
  have hr := Reaches.run_get (show Initial (State.start 0 : State (Fin 3) Unit) from rfl)
    (show (run step FewBumps (signalledOne 0 1 2) (State.start 0)).isSome from by decide)
  exact ⟨_, by decide, by decide, cond_signals_taken hr⟩

end ThreadBites.CondVar

import ThreadBites.CondVarWaiters

/-!
# How often a waiter rechecks

`tbthread_cond_wait` samples the futex word once, before its loop. A waiter that
rechecks and finds nothing goes back to `FUTEX_WAIT` with the sample that it
already has, so it does not sleep there any more.
-/
namespace ThreadBites.CondVar

open Transition WaitQueue

variable {τ μ : Type}

/-- The condition variable and what no step reads: the sections of signals and broadcasts that ran, how
many had run when a thread began to wait, its rechecks since then that found nothing, and how many
sections had run at the last of these, or else when it began. -/
structure Watch (τ μ : Type) where
  state : State τ μ
  sections : Nat
  began : τ → Nat
  rechecks : τ → Nat
  checked : τ → Nat

def Watch.start (seq : BitVec 64) : Watch τ μ := ⟨.start seq, 0, fun _ => 0, fun _ => 0, fun _ => 0⟩

def Watch.Initial (w : Watch τ μ) : Prop := ∃ seq, w = .start seq

theorem Watch.start_initial (seq : BitVec 64) : Watch.Initial (Watch.start seq : Watch τ μ) := ⟨seq, rfl⟩

/-- Waiting, with a sample that equals the futex word. -/
def current (futex : BitVec 32) (c : Pc μ) : Bool := (waitOf c).any fun v => v.sample.futex = futex

/-- What the history says of a thread at a place. -/
structure Seen (futex : BitVec 32) (sections rechecks checked : Nat) (c : Pc μ) : Prop where
  past : checked ≤ sections
  first : waiting c = true → rechecks = 0 → checked = sections → current futex c = true
  sleep : asleep c = true → checked = sections → current futex c = true
  recheck : ∀ v st, c = .recheck v st → checked < sections

/-- After one more section a thread may be anywhere. -/
theorem seen_of_lt {futex : BitVec 32} {sections rechecks checked : Nat} {c : Pc μ} (h : checked < sections) :
    Seen futex sections rechecks checked c :=
  ⟨by omega, fun _ _ he => by omega, fun _ he => by omega, fun _ _ _ => h⟩

theorem seen_of_not_waiting {futex : BitVec 32} {sections rechecks checked : Nat} {c : Pc μ}
    (h : checked ≤ sections) (hc : waiting c = false) : Seen futex sections rechecks checked c := by
  cases c with
  | futexWait v | asleep v | recheck v st => cases hc
  | _ => exact ⟨h, nofun, nofun, nofun⟩

/-- Every vain recheck came after a section of its own. -/
structure Watch.Inv (w : Watch τ μ) : Prop where
  seen : ∀ t, Seen w.state.cond.futex w.sections (w.rechecks t) (w.checked t) (w.state.pc t)
  spent : ∀ t, w.rechecks t + w.began t ≤ w.checked t

theorem Watch.start_inv (seq : BitVec 64) : (Watch.start seq : Watch τ μ).Inv where
  seen _ := seen_of_not_waiting (Nat.le_refl 0) rfl
  spent _ := Nat.le_refl 0

theorem Watch.Inv.bounded {w : Watch τ μ} (h : w.Inv) (t : τ) : w.rechecks t ≤ w.sections - w.began t := by
  have hspent := h.spent t
  have hpast := (h.seen t).past
  omega

/-- A section ran. -/
theorem Watch.Inv.ran {w : Watch τ μ} (h : w.Inv) (s' : State τ μ) :
    ({ w with state := s', sections := w.sections + 1 } : Watch τ μ).Inv where
  seen t := seen_of_lt (Nat.lt_succ_of_le (h.seen t).past)
  spent := h.spent

variable [DecidableEq τ]

/-- Enter a step to `s'` in the history. -/
def Watch.record (w : Watch τ μ) (s' : State τ μ) : Action τ μ → Watch τ μ
  | .broadcast _ => { w with state := s', sections := w.sections + 1 }
  | .signal _ _ => { w with state := s', sections := w.sections + 1 }
  | .waitBegin t _ =>
      if waiting (s'.pc t) then
        { w with
          state := s'
          began := Function.update w.began t w.sections
          rechecks := Function.update w.rechecks t 0
          checked := Function.update w.checked t w.sections }
      else { w with state := s' }
  | .recheck t _ =>
      if waiting (s'.pc t) then
        { w with
          state := s'
          rechecks := Function.update w.rechecks t (w.rechecks t + 1)
          checked := Function.update w.checked t w.sections }
      else { w with state := s' }
  | _ => { w with state := s' }

/-- A waiter that found nothing gets to `FUTEX_WAIT` after one more section, or the futex word is what it
sampled when it began to wait. -/
def Watch.Resampled (w : Watch τ μ) : Action τ μ → Prop
  | .futexWait t => 0 < w.rechecks t → w.checked t = w.sections → current w.state.cond.futex (w.state.pc t) = true
  | _ => True

instance (w : Watch τ μ) : (a : Action τ μ) → Decidable (w.Resampled a)
  | .futexWait _ => inferInstanceAs (Decidable (_ → _ → _))
  | .broadcast _ => isTrue trivial
  | .signal _ _ => isTrue trivial
  | .call _ _ => isTrue trivial
  | .waitBegin _ _ => isTrue trivial
  | .interrupt _ => isTrue trivial
  | .recheck _ _ => isTrue trivial
  | .relock _ => isTrue trivial

variable [Fintype τ] [DecidableEq μ]

def Watch.step (w : Watch τ μ) (a : Action τ μ) : Option (Watch τ μ) :=
  (CondVar.step w.state a).map fun s' => w.record s' a

/-- No thread rechecked in vain more often than sections ran since it began to wait, and the step does not
take one straight through `FUTEX_WAIT` if none ran since its last recheck. -/
structure Sleeps (w : Watch τ μ) (a : Action τ μ) (w' : Watch τ μ) : Prop where
  bounded : ∀ t, w'.rechecks t ≤ w'.sections - w'.began t
  sleeps : ∀ t, a = .futexWait t → 0 < w.rechecks t → w.checked t = w.sections → asleep (w'.state.pc t) = true

omit [Fintype τ] [DecidableEq μ] in
/-- A thread moves, and the futex word and the history stay as they are. -/
theorem Watch.Inv.moved {w : Watch τ μ} (h : w.Inv) {cond : Cond μ} {sent : List Sent} {t : τ} {c : Pc μ}
    (hfutex : cond.futex = w.state.cond.futex)
    (hc : Seen w.state.cond.futex w.sections (w.rechecks t) (w.checked t) c) :
    ({ w with state := { w.state with cond := cond, sent := sent }.goto t c } : Watch τ μ).Inv where
  seen u := by
    by_cases hu : u = t
    · subst u
      simpa [State.goto, hfutex] using hc
    · simpa [State.goto, hfutex, hu] using h.seen u
  spent := h.spent

omit [Fintype τ] [DecidableEq μ] in
/-- A thread that moves gets an entry of its own in the history. -/
theorem Watch.Inv.entered {w : Watch τ μ} (h : w.Inv) {cond : Cond μ} {t : τ} {v : Wait μ} {began rechecks : Nat}
    (hfutex : cond.futex = w.state.cond.futex) (hspent : rechecks + began ≤ w.sections)
    (hfirst : rechecks = 0 → v.sample.futex = cond.futex) :
    ({ state := { w.state with cond := cond }.goto t (.futexWait v)
       sections := w.sections
       began := Function.update w.began t began
       rechecks := Function.update w.rechecks t rechecks
       checked := Function.update w.checked t w.sections } : Watch τ μ).Inv where
  seen u := by
    by_cases hu : u = t
    · subst u
      have hseen : Seen cond.futex w.sections rechecks w.sections (.futexWait v) := by
        refine ⟨Nat.le_refl _, fun _ hz _ => ?_, nofun, nofun⟩
        simpa [current, waitOf] using hfirst hz
      simpa [State.goto] using hseen
    · simpa [State.goto, hfutex, hu] using h.seen u
  spent u := by
    by_cases hu : u = t
    · subst u
      simpa using hspent
    · simpa [hu] using h.spent u

theorem Watch.Inv.step {w : Watch τ μ} {s' : State τ μ} {a : Action τ μ} (h : w.Inv) (ha : w.Resampled a)
    (hs : Stepped w.state a s') : (w.record s' a).Inv := by
  have hpast := fun t => (h.seen t).past
  cases hs with
  | @call t f st hpc => exact h.moved rfl (seen_of_not_waiting (hpast t) (by cases f <;> rfl))
  | broadcastIdle | broadcast | signalIdle | signal => exact h.ran _
  | @waitFailed t st m e bound hpc he =>
    simp only [Watch.record, State.goto, Function.update_self, waiting, waitOf, Option.isSome_none,
      Bool.false_eq_true, if_false]
    exact h.moved rfl (seen_of_not_waiting (hpast t) rfl)
  | @waitBegun t m hpc hm =>
    simp only [Watch.record, State.goto, Function.update_self, waiting, waitOf, Option.isSome_some, if_true]
    exact h.entered rfl (Nat.le_of_eq (Nat.zero_add _)) fun _ => rfl
  | @slept t v hpc hf =>
    refine h.moved rfl ⟨hpast t, fun _ _ _ => ?_, fun _ _ => ?_, fun _ _ hp => by cases hp⟩ <;>
      simp [current, waitOf, hf]
  | @missed t v hpc hf =>
    -- with no section since the last recheck the word would be the sample
    refine h.moved rfl (seen_of_lt (Nat.lt_of_le_of_ne (hpast t) fun he => ?_))
    have hcurrent : current w.state.cond.futex (w.state.pc t) = true := by
      rcases Nat.eq_zero_or_pos (w.rechecks t) with hz | hpos
      · exact (h.seen t).first (by rw [hpc]; rfl) hz he
      · exact ha hpos he
    rw [hpc] at hcurrent
    exact hf (by simpa [current, waitOf, eq_comm] using hcurrent)
  | @interrupted t v hpc =>
    refine h.moved rfl ⟨hpast t, fun _ _ he => ?_, fun hp => absurd hp (by simp [asleep]), fun _ _ hp => by cases hp⟩
    have hcurrent := (h.seen t).sleep (by rw [hpc]; rfl) he
    rw [hpc] at hcurrent
    exact hcurrent
  | @consumed t v st pick hpc hn hp =>
    simp only [Watch.record, State.goto, Function.update_self, waiting, waitOf, Option.isSome_none,
      Bool.false_eq_true, if_false]
    exact h.moved rfl (seen_of_not_waiting (hpast t) rfl)
  | @released t v st pick hpc hn hb =>
    simp only [Watch.record, State.goto, Function.update_self, waiting, waitOf, Option.isSome_none,
      Bool.false_eq_true, if_false]
    exact h.moved rfl (seen_of_not_waiting (hpast t) rfl)
  | @stayed t v st pick hpc hn hb =>
    simp only [Watch.record, State.goto, Function.update_self, waiting, waitOf, Option.isSome_some, if_true]
    have hlt := (h.seen t).recheck v st hpc
    have hspent := h.spent t
    have hbegan : Function.update w.began t (w.began t) = w.began := Function.update_eq_self t w.began
    have hwithin : w.rechecks t + 1 + w.began t ≤ w.sections := by omega
    have hfirst : w.rechecks t + 1 = 0 → v.sample.futex = w.state.cond.futex := by omega
    have hentered := h.entered (t := t) (v := v) rfl hwithin hfirst
    rw [hbegan] at hentered
    exact hentered
  | @relocked t m st hpc => exact h.moved rfl (seen_of_not_waiting (hpast t) rfl)

theorem Watch.reaches_inv {w : Watch τ μ} (h : Reaches Watch.Initial Watch.step Watch.Resampled w) : w.Inv := by
  refine h.invariant ?_ ?_
  · rintro w ⟨seq, rfl⟩
    exact Watch.start_inv seq
  · intro w a w' _ hi ha hs
    obtain ⟨s', hs', rfl⟩ := Option.map_eq_some_iff.mp hs
    exact hi.step ha (step_stepped hs')

/-- In a run in which nobody comes back to `FUTEX_WAIT` with a sample that nothing but older sections made
stale, a waiter rechecks in vain at most as often as there were sections, and sleeps in between. -/
theorem cond_rechecks_bounded {w w' : Watch τ μ} {a : Action τ μ}
    (h : Reaches Watch.Initial Watch.step Watch.Resampled w) (ha : w.Resampled a) (hs : w.step a = some w') :
    Sleeps w a w' := by
  have hi := Watch.reaches_inv (h.next ha hs)
  refine ⟨hi.bounded, ?_⟩
  rintro t rfl hpos he
  have hcurrent : current w.state.cond.futex (w.state.pc t) = true := ha hpos he
  obtain ⟨s', hs', rfl⟩ := Option.map_eq_some_iff.mp hs
  cases step_stepped hs' with
  | slept hpc hf => simp [Watch.record, State.goto, asleep]
  | missed hpc hf =>
    rw [hpc] at hcurrent
    exact absurd (by simpa [current, waitOf, eq_comm] using hcurrent) hf

/-- A waiter is woken by a signal that another one, on its way to `FUTEX_WAIT`, gets hold of first. -/
def robbed (t u v : τ) : List (Action τ Unit) :=
  [.call t (.wait ()), .waitBegin t 0, .futexWait t, .call u (.wait ()), .waitBegin u 0,
    .call v .signal, .signal v (some t), .futexWait u, .recheck u 0, .recheck t 0]

/-- A broadcast comes before the robbed waiter is back at `FUTEX_WAIT`. -/
theorem cond_rechecks_bounded_broadcast : ∃ w w' : Watch (Fin 3) Unit, w.step (.futexWait 0) = some w' ∧
    w.rechecks 0 = 1 ∧ w.sections = 2 ∧ Sleeps w (.futexWait 0) w' := by
  have hr := Reaches.run_get (Watch.start_initial 0)
    (show (run Watch.step Watch.Resampled (robbed (0 : Fin 3) 1 2 ++ [.call 2 .broadcast, .broadcast 2])
      (Watch.start 0)).isSome from by decide)
  exact ⟨_, _, rfl, by decide, by decide, cond_rechecks_bounded hr (by decide) rfl⟩

/-- Nothing comes after the signal, and the robbed waiter does not go to sleep again. -/
theorem cond_rechecks_spin : ∃ w w' : Watch (Fin 3) Unit, Reaches Watch.Initial Watch.step anyStep w ∧
    w.step (.futexWait 0) = some w' ∧ w.sections = 1 ∧ w.rechecks 0 = 3 ∧ ¬ Sleeps w (.futexWait 0) w' := by
  have hr := Reaches.run_get (Watch.start_initial 0)
    (show (run Watch.step anyStep (robbed (0 : Fin 3) 1 2 ++ [.futexWait 0, .recheck 0 0, .futexWait 0,
      .recheck 0 0]) (Watch.start 0)).isSome from by decide)
  exact ⟨_, _, hr, rfl, by decide, by decide, fun h => absurd (h.bounded 0) (by decide)⟩

end ThreadBites.CondVar

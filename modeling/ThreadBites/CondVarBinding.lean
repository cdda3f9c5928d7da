import ThreadBites.CondVarReturns
import ThreadBites.CondVarWaiters

/-!
# The mutex of a condition variable

A condition variable is bound to the mutex of its waiters while it has any. A
wait binds it before it unlocks the mutex, and one that fails takes that back.
-/
namespace ThreadBites.CondVar

open Transition Tally WaitQueue
open MutexCalls (World unlock)

variable {τ μ : Type}

/-- Bound while somebody waits, to the mutex that everybody who waits came with. -/
structure Bound [Fintype τ] (s : State τ μ) : Prop where
  waiters : s.cond.waiters = tally waiting s.pc
  mutex : s.cond.mutex = none ↔ s.cond.waiters = 0
  same : ∀ t w, waitOf (s.pc t) = some w → s.cond.mutex = some w.mutex

/-- The first section of a wait that fails leaves the condition variable as it was. -/
theorem waitBegin_failed [DecidableEq μ] {c c' : Cond μ} {m : μ} {st e : Int}
    (h : c.mutex = none ↔ c.waiters = 0) (he : waitBegin c m st = (c', .error e)) : c' = c := by
  have hsame : (if c.waiters = 0 then none else if c.mutex = none then some m else c.mutex) = c.mutex := by
    split
    · rename_i hw
      exact (h.mpr hw).symm
    · rename_i hw
      exact if_neg fun hn => hw (h.mp hn)
  unfold waitBegin at he
  simp only [hsame] at he
  generalize (if c.mutex = none then some m else c.mutex) = bound at he
  by_cases hb : bound = some m
  · by_cases hst : st = 0
    · simp [hb, hst] at he
    · simp only [hb, hst, ne_eq, not_true, not_false_eq_true, if_false, if_true, Prod.mk.injEq] at he
      exact he.1.symm
  · simp only [hb, ne_eq, not_false_eq_true, if_true, Prod.mk.injEq] at he
    exact he.1.symm

section Mutexes

variable [DecidableEq μ] [DecidableEq τ] {w w' : World τ μ} {m : μ} {self : τ} {ret e : Int}

/-- An unlock that fails changes nothing. -/
theorem unlock_failed (h : unlock w m self ret = some (w', e)) (he : e ≠ 0) : w' = w := by
  have hmap : ∀ {v : Option (World τ μ)}, (v.map fun w => (w, (0 : Int))) = some (w', e) → w' = w := by
    intro v hv
    obtain ⟨u, -, hu⟩ := Option.map_eq_some_iff.mp hv
    cases hu
    exact absurd rfl he
  unfold unlock at h
  cases hk : (w.mutex m).kind with
  | normal =>
    rw [hk] at h
    exact hmap h
  | errorcheck =>
    simp only [hk] at h
    split at h
    · cases h
      rfl
    · exact hmap h
  | recursive =>
    simp only [hk] at h
    split at h
    · cases h
      rfl
    · split at h
      · exact hmap h
      · cases h
        exact absurd rfl he

end Mutexes

variable [Fintype τ]

theorem bound_start (seq : BitVec 64) : Bound (State.start seq : State τ μ) where
  waiters := by simp [State.start, tally, waiting, waitOf]
  mutex := by simp [State.start]
  same := by simp [State.start, waitOf]

theorem Bound.pos {s : State τ μ} (h : Bound s) {t : τ} (ht : waiting (s.pc t) = true) : 0 < s.cond.waiters := by
  rw [h.waiters]
  exact (tally_pos_iff _ _).mpr ⟨t, ht⟩

/-- Sleepers that are woken go on waiting. -/
theorem Bound.woken {s : State τ μ} (h : Bound s) {cond : Cond μ} {pc : τ → Pc μ} {casts bumps : Nat}
    {sent : List Sent} (hwoken : Woken asleep resume s.pc pc) (hw : cond.waiters = s.cond.waiters)
    (hm : cond.mutex = s.cond.mutex) : Bound ⟨cond, pc, casts, bumps, sent⟩ where
  waiters := by simpa only [hwoken.tally waiting_resume, hw] using h.waiters
  mutex := by simpa only [hw, hm] using h.mutex
  same := by
    intro t w ht
    have hsame : waitOf (pc t) = waitOf (s.pc t) := hwoken.same (fun x _ => waitOf_resume x) t
    simpa only [hm] using h.same t w (hsame ▸ ht)

variable [DecidableEq τ]

/-- A thread goes on to a place where it waits as before. -/
theorem Bound.goto {s : State τ μ} (h : Bound s) {t : τ} {c : Pc μ} (hc : waitOf c = waitOf (s.pc t)) :
    Bound (s.goto t c) where
  waiters := by
    have ht := tally_update waiting s.pc t c
    have := h.waiters
    have hw : waiting c = waiting (s.pc t) := congrArg Option.isSome hc
    simp only [State.goto]
    rw [hw] at ht
    omega
  mutex := h.mutex
  same := by
    intro u w hu
    by_cases he : u = t
    · subst u
      exact h.same t w (by simpa [State.goto, hc] using hu)
    · exact h.same u w (by simpa [State.goto, he] using hu)

/-- A thread begins to wait with the mutex that the others have, if there are any. -/
theorem Bound.begun {s : State τ μ} (h : Bound s) {t : τ} {w : Wait μ}
    (hm : s.cond.mutex = none ∨ s.cond.mutex = some w.mutex) (ht : waitOf (s.pc t) = none) :
    Bound ({ s with cond := { s.cond with mutex := some w.mutex, waiters := s.cond.waiters + 1 } }.goto t
      (.futexWait w)) where
  waiters := by
    have hcount := tally_update waiting s.pc t (.futexWait w)
    have := h.waiters
    have hnew : waiting (.futexWait w : Pc μ) = true := rfl
    have hold : waiting (s.pc t) = false := by rw [waiting, ht]; rfl
    rw [hnew, hold, Bool.toNat_true, Bool.toNat_false] at hcount
    simp only [State.goto]
    omega
  mutex := by simp [State.goto]
  same := by
    intro u v hu
    by_cases he : u = t
    · subst u
      have hv : w = v := by simpa [State.goto, waitOf] using hu
      subst v
      rfl
    · have hv := h.same u v (by simpa [State.goto, he] using hu)
      rcases hm with hm | hm
      · rw [hm] at hv
        cases hv
      · exact hm.symm.trans hv

/-- A thread leaves the wait loop; the last one takes the mutex off. -/
theorem Bound.left {s : State τ μ} (h : Bound s) {t : τ} {w : Wait μ} {cond : Cond μ} {sent : List Sent} {c : Pc μ}
    (ht : waitOf (s.pc t) = some w) (hc : waitOf c = none) (hw : cond.waiters = s.cond.waiters)
    (hm : cond.mutex = s.cond.mutex) : Bound ({ s with cond := leave cond, sent := sent }.goto t c) := by
  have hcount := tally_update waiting s.pc t c
  have hwaiters := h.waiters
  have hpos := h.pos (t := t) (by rw [waiting, ht]; rfl)
  simp only [waiting, ht, hc, Option.isSome_none, Option.isSome_some, Bool.toNat_true, Bool.toNat_false] at hcount
  have hbound : s.cond.mutex ≠ none := fun hn => by
    rw [h.same t w ht] at hn
    cases hn
  constructor
  · simp only [State.goto, leave]
    omega
  · simp only [State.goto, leave]
    split
    · simp_all
    · simp_all
  · intro u v hu
    have hut : u ≠ t := by
      rintro rfl
      simp [State.goto, hc] at hu
    have hu : waitOf (s.pc u) = some v := by simpa [State.goto, hut] using hu
    -- `u` is still counted
    have hrest : 0 < tally waiting (Function.update s.pc t c) :=
      (tally_pos_iff _ _).mpr ⟨u, by rw [Function.update_of_ne hut, waiting, hu]; rfl⟩
    have hne : ¬ cond.waiters - 1 = 0 := by omega
    simpa only [State.goto, leave, if_neg hne, hm] using h.same u v hu

variable [DecidableEq μ]

theorem bound_step {s s' : State τ μ} {a : Action τ μ} (h : Bound s) (hs : Stepped s a s') : Bound s' := by
  cases hs with
  | @call t f st hpc => exact h.goto (by rw [hpc]; cases f <;> rfl)
  | @broadcastIdle t hpc hw =>
    have hg : Bound (s.goto t (.out 0)) := h.goto (by rw [hpc]; rfl)
    exact ⟨hg.waiters, hg.mutex, hg.same⟩
  | @broadcast t hpc hw =>
    have hg : Bound (s.goto t (.out 0)) := h.goto (by rw [hpc]; rfl)
    exact hg.woken (wakeAll_woken asleep resume _) rfl rfl
  | signalIdle hpc hw => exact h.goto (by rw [hpc]; rfl)
  | @signal t woken pc hpc hw hwake =>
    have hg : Bound (s.goto t (.out 0)) := h.goto (by rw [hpc]; rfl)
    exact hg.woken (wakeOne_woken hwake) rfl rfl
  | @waitFailed t st m e bound hpc he =>
    rw [waitBegin_failed h.mutex he]
    exact h.goto (by rw [hpc]; rfl)
  | @waitBegun t m hpc hm =>
    exact h.begun (w := ⟨m, ⟨s.cond.broadcastSeq.truncate 32, s.cond.futex⟩, s.casts, s.bumps⟩) hm (by rw [hpc]; rfl)
  | slept hpc hf => exact h.goto (by rw [hpc]; rfl)
  | missed hpc hf => exact h.goto (by rw [hpc]; rfl)
  | interrupted hpc => exact h.goto (by rw [hpc]; rfl)
  | consumed hpc hn hp => exact h.left (by rw [hpc]; rfl) rfl rfl rfl
  | released hpc hn hb => exact h.left (by rw [hpc]; rfl) rfl rfl rfl
  | stayed hpc hn hb => exact h.goto (by rw [hpc]; rfl)
  | relocked hpc => exact h.goto (by rw [hpc]; rfl)

theorem Monitor.reaches_bound {s : Monitor τ μ} (h : Reaches Monitor.Initial Monitor.step anyStep s) :
    Bound s.state := by
  refine h.invariant (I := fun s : Monitor τ μ => Bound s.state) ?_ ?_
  · rintro s ⟨⟨seq, hseq⟩, -⟩
    rw [hseq]
    exact bound_start seq
  · intro s a s' _ hi _ hs
    cases Monitor.step_stepped hs with
    | cond _ _ hb | refused _ _ hb | unlocked _ _ hb | relocked _ _ hb => exact bound_step hi hb
    | mutexes => exact hi

/-- What a wait that fails leaves: the condition variable and the mutexes as they were, and the thread
back with its error. -/
structure FailedWait (s s' : Monitor τ μ) (t : τ) (e : Int) : Prop where
  error : e ≠ 0
  cond : s'.state.cond = s.state.cond
  mutexes : s'.world = s.world
  others : ∀ u, u ≠ t → s'.state.pc u = s.state.pc u

theorem failed_cond {s s' : State τ μ} {t : τ} {st e : Int} (h : Bound s) (hs : Stepped s (.waitBegin t st) s')
    (he : s'.pc t = .out e) : s'.cond = s.cond ∧ ∀ u, u ≠ t → s'.pc u = s.pc u := by
  cases hs with
  | waitFailed hpc hb =>
    have hsame := waitBegin_failed h.mutex hb
    exact ⟨hsame, fun u hu => Function.update_of_ne hu _ _⟩
  | waitBegun hpc hm =>
    simp only [State.goto, Function.update_self] at he
    cases he

theorem failed_wait {s s' : Monitor τ μ} {t : τ} {ret : Int} {m : μ} {e : Int} (h : Bound s.state)
    (hs : s.step (.waitBegin t ret) = some s') (hpc : s.state.pc t = .waitBegin m) (he : s'.state.pc t = .out e) :
    FailedWait s s' t e := by
  simp only [Monitor.step, hpc] at hs
  split at hs
  · rename_i hm
    obtain ⟨⟨w, st⟩, hu, hs⟩ := Option.bind_eq_some_iff.mp hs
    obtain ⟨state, hstate, rfl⟩ := Option.map_eq_some_iff.mp hs
    have hstep := step_stepped hstate
    obtain ⟨hcond, hothers⟩ := failed_cond h hstep he
    obtain ⟨st', bound, ha, hbegin⟩ := waitBegin_returns hstep hpc he
    cases ha
    rcases waitBegin_error hbegin with ⟨-, hnone, hother⟩ | ⟨-, rfl, hst⟩
    · exact absurd hm (not_or.mpr ⟨hnone, hother⟩)
    · exact ⟨hst, hcond, unlock_failed hu hst, hothers⟩
  · obtain ⟨state, hstate, rfl⟩ := Option.map_eq_some_iff.mp hs
    have hstep := step_stepped hstate
    obtain ⟨hcond, hothers⟩ := failed_cond h hstep he
    obtain ⟨st, bound, ha, hbegin⟩ := waitBegin_returns hstep hpc he
    cases ha
    rcases waitBegin_error hbegin with ⟨rfl, -⟩ | ⟨-, rfl, hst⟩
    · exact ⟨by decide, hcond, rfl, hothers⟩
    · exact absurd rfl hst

/-- In every reached state the condition variable is bound exactly while it has waiters, to the mutex of
all of them, and a wait that fails changes nothing. -/
theorem cond_binding {s : Monitor τ μ} (h : Reaches Monitor.Initial Monitor.step anyStep s) :
    Bound s.state ∧ ∀ a s' t m e, s.step a = some s' → s.state.pc t = .waitBegin m → s'.state.pc t = .out e →
      FailedWait s s' t e := by
  have hb := Monitor.reaches_bound h
  refine ⟨hb, fun a s' t m e hs hpc he => ?_⟩
  cases Monitor.step_stepped hs with
  | cond hw hr hstep =>
    obtain ⟨st, bound, ha, -⟩ := waitBegin_returns hstep hpc he
    exact absurd ha (hw t st)
  | refused _ _ hstep | unlocked _ _ hstep =>
    obtain ⟨st, bound, ha, -⟩ := waitBegin_returns hstep hpc he
    cases ha
    exact failed_wait hb hs hpc he
  | relocked _ _ hstep =>
    obtain ⟨st, bound, ha, -⟩ := waitBegin_returns hstep hpc he
    cases ha
  | mutexes =>
    rw [hpc] at he
    cases he

/-- One thread waits with the mutex; another one, which does not own it, calls a wait. -/
def intruded (t u : τ) : List (Monitor.Action τ Bool) :=
  [.mutex t .lock true 0, .cond (.call t (.wait true)), .waitBegin t 0, .cond (.futexWait t),
    .cond (.call u (.wait true))]

set_option maxRecDepth 2000 in
theorem cond_binding_failed : ∃ s s' : Monitor (Fin 2) Bool, s.step (.waitBegin 1 0) = some s' ∧
    s.state.cond.waiters = 1 ∧ Bound s.state ∧ FailedWait s s' 1 (-Mutex.EPERM) := by
  obtain ⟨s, hr, s', hs, hwaiters, hpc, hout⟩ : ∃ s : Monitor (Fin 2) Bool,
      Reaches Monitor.Initial Monitor.step anyStep s ∧ ∃ s', s.step (.waitBegin 1 0) = some s' ∧
        s.state.cond.waiters = 1 ∧ s.state.pc 1 = .waitBegin true ∧ s'.state.pc 1 = .out (-Mutex.EPERM) := by
    have hr := Reaches.run_get (Monitor.fresh_initial .errorcheck .prioNone)
      (show (run Monitor.step anyStep (intruded (0 : Fin 2) 1) (Monitor.fresh .errorcheck .prioNone)).isSome
        from by decide)
    exact ⟨_, hr, _, rfl, by decide, by decide, by decide⟩
  obtain ⟨hbound, hfailed⟩ := cond_binding hr
  exact ⟨s, s', hs, hwaiters, hbound, hfailed _ _ _ _ _ hs hpc hout⟩

end ThreadBites.CondVar

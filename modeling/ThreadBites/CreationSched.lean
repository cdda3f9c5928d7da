import ThreadBites.SchedulingRuns

/-!
# The scheduling that a thread was created with

`tbthread_create` stores it as the setting of the thread and leaves the user
setting cleared, so `tb_compute_sched` does not find it when it runs for the
first time.
-/
namespace ThreadBites.Sched

open Transition

variable {μ : Type}

/-- The record that `tbthread_create` makes: `inherit` is the attribute, `attr` has its policy and priority,
and `self` is the setting of the caller. -/
def createThread (inherit : Bool) (attr self : SchedInfo) : Thread μ :=
  let th : Thread μ := ⟨.zero, .zero, [], []⟩
  if inherit then { th with schedInfo := self } else th.setSched attr 0

/-- A thread right after its creation. -/
def State.created (inherit : Bool) (attr self : SchedInfo) : State μ :=
  ⟨createThread inherit attr self, fun _ => false, false⟩

theorem createThread_fields (inherit : Bool) (attr self : SchedInfo) :
    (createThread inherit attr self : Thread μ) = ⟨.zero, if inherit then self else attr, [], []⟩ := by
  cases inherit <;> rfl

/-- `tbthread_setschedparam` is not called, and the threads that block have settings that the kernel
accepts. -/
def Ordinary (_ : State μ) : Action μ → Prop
  | .boost _ info => info.Valid
  | .setUser _ _ => False
  | .recompute => False
  | _ => True

instance (s : State μ) : ∀ a : Action μ, Decidable (Ordinary s a)
  | .boost _ info => inferInstanceAs (Decidable info.Valid)
  | .setUser _ _ => .isFalse id
  | .recompute => .isFalse id
  | .lock _ => .isTrue trivial
  | .unlock _ => .isTrue trivial

/-- Neither does a `PRIO_PROTECT` mutex come in nor a boost by a thread that has a priority. -/
def Quiet (ms : Mutexes μ) : Action μ → Prop
  | .lock m => ms.protects m = false
  | .boost _ info => info.priority = 0
  | _ => True

instance (ms : Mutexes μ) : ∀ a : Action μ, Decidable (Quiet ms a)
  | .lock m => inferInstanceAs (Decidable (ms.protects m = false))
  | .boost _ info => inferInstanceAs (Decidable (info.priority = 0))
  | .unlock _ => .isTrue trivial
  | .setUser _ _ => .isTrue trivial
  | .recompute => .isTrue trivial

/-- What a thread has as long as nothing has been computed for it. -/
structure Untouched (setting : SchedInfo) (s : State μ) : Prop where
  setting : s.thread.schedInfo = setting
  protect : s.thread.protectMutexes = []
  entries : ∀ im ∈ s.thread.inheritMutexes, im.2 = .zero

/-- The user setting is cleared, and no call of `tbthread_setschedparam` is on its way. -/
structure Cleared (ms : Mutexes μ) (s : State μ) : Prop where
  recorded : Recorded ms s
  user : s.thread.userSchedInfo = .zero
  pending : s.pending = false

variable {ms : Mutexes μ} {s s' : State μ} {a : Action μ}

/-- A computation that looks at cleared settings only finds the cleared one. -/
theorem foldl_raise_zero (l : List SchedInfo) (h : ∀ i ∈ l, i = .zero) : l.foldl raise .zero = .zero := by
  induction l with
  | nil => rfl
  | cons i l ih =>
    rw [List.foldl_cons, h i (List.mem_cons_self ..)]
    exact ih fun x hx => h x (List.mem_cons_of_mem i hx)

/-- A thread without mutexes whose setting is the computed one has its user setting. -/
theorem Cleared.released (h : Cleared ms s) (hs : Settled ms.info s.thread) (hfree : ∀ m, s.holds m = false) :
    s.thread.schedInfo = .zero := by
  have hp : s.thread.protectMutexes = [] := by
    refine List.eq_nil_iff_forall_not_mem.mpr fun m hm => ?_
    have := ((h.recorded.protect m).mp hm).1
    rw [hfree m] at this
    cases this
  have hi : s.thread.inheritMutexes = [] := by
    refine List.eq_nil_iff_forall_not_mem.mpr fun im him => ?_
    have := ((h.recorded.inherit im.1).mp (List.mem_map_of_mem him)).1
    rw [hfree im.1] at this
    cases this
  rw [hs, Thread.effective, hp, hi]
  exact h.user

theorem created_cleared (ms : Mutexes μ) (inherit : Bool) (attr self : SchedInfo) :
    Cleared ms (State.created inherit attr self) := by
  refine ⟨?_, ?_, rfl⟩
  · constructor <;> simp [State.created, createThread_fields, zero_valid]
  · simp [State.created, createThread_fields]

theorem created_untouched (inherit : Bool) (attr self : SchedInfo) :
    Untouched (if inherit then self else attr) (State.created inherit attr self : State μ) := by
  constructor <;> simp [State.created, createThread_fields]

variable [DecidableEq μ]

theorem Cleared.step (h : Cleared ms s) (ha : Ordinary s a) (hs : Stepped ms s a s') : Cleared ms s' := by
  have hacc : Accepted s a := by
    cases a with
    | boost m info => exact ha
    | setUser policy priority => exact ha.elim
    | _ => trivial
  refine ⟨h.recorded.step hacc hs, ?_, ?_⟩
  · cases hs with
    | wroteUser hi => exact ha.elim
    | recomputed hp => exact ha.elim
    | refused hi => exact h.user
    | lockedInherit hm hp => exact h.user
    | _ => simpa using h.user
  · cases hs with
    | wroteUser hi => exact ha.elim
    | recomputed hp => exact ha.elim
    | _ => exact h.pending

theorem find_isSome {th : Thread μ} {m : μ} (h : m ∈ th.inheritMutexes.map (·.1)) :
    ∃ im, th.find m = some im ∧ im ∈ th.inheritMutexes := by
  obtain ⟨e, he, hem⟩ := List.mem_map.mp h
  have hsome : (th.find m).isSome := List.find?_isSome.mpr ⟨e, he, by simpa using hem⟩
  obtain ⟨im, him⟩ := Option.isSome_iff_exists.mp hsome
  exact ⟨im, him, List.mem_of_find?_eq_some him⟩

/-- A quiet step computes nothing, or computes the cleared setting for a thread that has it. -/
theorem Untouched.quiet {setting : SchedInfo} (h : Untouched setting s) (hc : Cleared ms s) (ha : Ordinary s a)
    (hq : Quiet ms a) (hs : Stepped ms s a s') : Untouched setting s' := by
  cases hs with
  | @lockedProtect m hm hp => exact absurd (hp.symm.trans hq) (by decide)
  | @lockedInherit m hm hp =>
    refine ⟨h.setting, h.protect, fun im him => ?_⟩
    rcases List.mem_append.mp him with him | him
    · exact h.entries im him
    · rw [List.mem_singleton.mp him]
  | @unlockedProtect m hm hp =>
    have := (hc.recorded.protect m).mpr ⟨hm, hp⟩
    rw [h.protect] at this
    cases this
  | @unlockedInherit m hm hp =>
    refine ⟨?_, by simpa using h.protect, fun im him => ?_⟩
    · obtain ⟨im, hfind, him⟩ := find_isSome ((hc.recorded.inherit m).mpr ⟨hm, hp⟩)
      simp only [inheritMutexUnsched, hfind]
      split
      · rename_i he
        have hnone : ∀ i ∈ ((s.thread.inheritMutexes.eraseP fun im => im.1 = m).map (·.2)), i = .zero := by
          intro i hi
          obtain ⟨e, hmem, rfl⟩ := List.mem_map.mp hi
          exact h.entries e (List.mem_of_mem_eraseP hmem)
        simp only [Thread.computeSched, Thread.effective, setSched_schedInfo, h.protect, hc.user]
        rw [foldl_raise_zero _ hnone, ← h.setting, ← he, h.entries im him]
      · exact h.setting
    · rw [inheritMutexUnsched_inheritMutexes] at him
      exact h.entries im (List.mem_of_mem_eraseP him)
  | @boosted m info hm hp =>
    obtain ⟨im, hfind, him⟩ := find_isSome ((hc.recorded.inherit m).mpr ⟨hm, hp⟩)
    have hno : raises im.2 info = false := by
      have hprio : info.priority = 0 := hq
      rw [h.entries im him]
      simp [raises, hprio, SchedInfo.zero]
    have hsame : inheritMutexSched ms.info m info s.thread 0 = s.thread := by
      simp [inheritMutexSched, hfind, hno]
    simp only [hsame]
    exact ⟨h.setting, h.protect, h.entries⟩
  | refused hi => exact h
  | wroteUser hi => exact ha.elim
  | recomputed hp => exact ha.elim

/-- The first step that is not quiet computes the setting. -/
theorem Untouched.loud {setting : SchedInfo} (h : Untouched setting s) (hc : Cleared ms s)
    (hq : ¬ Quiet ms a) (hs : Stepped ms s a s') : Settled ms.info s'.thread := by
  cases hs with
  | @lockedProtect m hm hp =>
    simp only [protectMutexSched, h.protect, listAddHere, List.head?_cons, if_true]
    exact computeSched_settled
  | @lockedInherit m hm hp => exact absurd hp hq
  | @boosted m info hm hp =>
    obtain ⟨im, hfind, him⟩ := find_isSome ((hc.recorded.inherit m).mpr ⟨hm, hp⟩)
    have hprio : 0 < info.priority := Nat.pos_of_ne_zero hq
    have hraises : raises im.2 info = true := by
      rw [h.entries im him]
      simp [raises, SchedInfo.zero, hprio]
    simp only [inheritMutexSched, hfind, hraises, if_true]
    exact computeSched_settled
  | _ => exact absurd trivial hq

theorem Cleared.run {actions : List (Action μ)} (h : Cleared ms s)
    (hr : run (Sched.step ms) Ordinary actions s = some s') : Cleared ms s' := by
  induction actions generalizing s with
  | nil =>
    cases hr
    exact h
  | cons a rest ih =>
    obtain ⟨ha, u, hu, hr⟩ := run_cons_eq_some.mp hr
    exact ih (h.step ha (step_stepped hu)) hr

theorem Untouched.run {setting : SchedInfo} {actions : List (Action μ)} (h : Untouched setting s)
    (hc : Cleared ms s) (hq : ∀ a ∈ actions, Quiet ms a)
    (hr : run (Sched.step ms) Ordinary actions s = some s') : Untouched setting s' := by
  induction actions generalizing s with
  | nil =>
    cases hr
    exact h
  | cons a rest ih =>
    obtain ⟨ha, u, hu, hr⟩ := run_cons_eq_some.mp hr
    have hu := step_stepped hu
    exact ih (h.quiet hc ha (hq a (List.mem_cons_self ..)) hu) (hc.step ha hu)
      (fun b hb => hq b (List.mem_cons_of_mem a hb)) hr

theorem settled_run {actions : List (Action μ)} (h : Settled ms.info s.thread) (hc : Cleared ms s)
    (hr : run (Sched.step ms) Ordinary actions s = some s') : Settled ms.info s'.thread := by
  induction actions generalizing s with
  | nil =>
    cases hr
    exact h
  | cons a rest ih =>
    obtain ⟨ha, u, hu, hr⟩ := run_cons_eq_some.mp hr
    have hu := step_stepped hu
    have hcu := hc.step ha hu
    exact ih (settled_step hc.recorded (fun _ => h) hu hcu.pending) hcu hr

/-- From the first step on that is not quiet the setting is the computed one. -/
theorem Untouched.run_loud {setting : SchedInfo} {actions : List (Action μ)} (h : Untouched setting s)
    (hc : Cleared ms s) (hq : ¬ ∀ a ∈ actions, Quiet ms a)
    (hr : Transition.run (Sched.step ms) Ordinary actions s = some s') : Settled ms.info s'.thread := by
  induction actions generalizing s with
  | nil => exact absurd (fun a ha => by cases ha) hq
  | cons a rest ih =>
    obtain ⟨ha, u, hu, hr⟩ := run_cons_eq_some.mp hr
    have hu := step_stepped hu
    have hcu := hc.step ha hu
    by_cases hqa : Quiet ms a
    · refine ih (h.quiet hc ha hqa hu) hcu (fun hrest => hq fun b hb => ?_) hr
      rcases List.mem_cons.mp hb with rfl | hb
      · exact hqa
      · exact hrest b hb
    · exact settled_run (h.loud hc hqa hu) hcu hr

/-- A thread that has given all mutexes back has the scheduling that it was created with, and never had a
lower priority in between, exactly if that is `SCHED_NORMAL` or all steps were quiet. -/
theorem creation_sched_kept_iff (inherit : Bool) (attr self : SchedInfo) (actions : List (Action μ))
    (hr : run (step ms) Ordinary actions (State.created inherit attr self) = some s)
    (hfree : ∀ m, s.holds m = false) :
    (s.thread.schedInfo = (State.created inherit attr self : State μ).thread.schedInfo ∧
      ∀ front back u, actions = front ++ back →
        run (step ms) Ordinary front (State.created inherit attr self) = some u →
        (State.created inherit attr self : State μ).thread.schedInfo.priority ≤ u.thread.schedInfo.priority) ↔
    ((State.created inherit attr self : State μ).thread.schedInfo = .zero ∨ ∀ a ∈ actions, Quiet ms a) := by
  have hc := created_cleared ms inherit attr self
  have hu : Untouched (if inherit then self else attr) (State.created inherit attr self : State μ) :=
    created_untouched inherit attr self
  have he : (State.created inherit attr self : State μ).thread.schedInfo = if inherit then self else attr := hu.setting
  rw [he]
  constructor
  · rintro ⟨hend, -⟩
    by_cases hq : ∀ a ∈ actions, Quiet ms a
    · exact .inr hq
    · left
      rw [← hend]
      exact (hc.run hr).released (hu.run_loud hc hq hr) hfree
  · rintro (hzero | hq)
    · have hs : Settled ms.info (State.created inherit attr self).thread := by
        simp only [Settled, Thread.effective, State.created, createThread_fields, hzero]
        rfl
      rw [hzero]
      exact ⟨(hc.run hr).released (settled_run hs hc hr) hfree, fun _ _ _ _ _ => Nat.zero_le _⟩
    · refine ⟨(hu.run hc hq hr).setting, fun front back u hab hf => ?_⟩
      have hqf : ∀ a ∈ front, Quiet ms a := fun a ha => hq a (hab ▸ List.mem_append_left back ha)
      rw [(hu.run hc hqf hf).setting]

/-- A thread takes a mutex and gives it back. -/
def once (m : μ) : List (Action μ) := [.lock m, .unlock m]

theorem creation_sched_kept_inherit : ∃ (ms : Mutexes Bool) (s : State Bool),
    run (step ms) Ordinary (once false) (State.created false ⟨.fifo, 50⟩ .zero) = some s ∧
    s.thread.schedInfo = ⟨.fifo, 50⟩ := by
  let ms : Mutexes Bool := ⟨id, fun _ => 10, fun _ => by decide⟩
  obtain ⟨s, hr, hfree⟩ : ∃ s : State Bool,
      run (step ms) Ordinary (once false) (State.created false ⟨.fifo, 50⟩ .zero) = some s ∧
      ∀ m, s.holds m = false :=
    ⟨_, (Option.some_get (show (run (step ms) Ordinary (once false)
      (State.created false ⟨.fifo, 50⟩ .zero)).isSome from by decide)).symm, by decide⟩
  exact ⟨ms, s, hr, ((creation_sched_kept_iff false ⟨.fifo, 50⟩ .zero (once false) hr hfree).mpr
    (.inr (by decide))).1⟩

/-- A thread that was created with priority 50 takes a mutex with ceiling 10, runs with priority 10, and has
no priority when it has given it back. -/
theorem creation_sched_lost : ∃ (ms : Mutexes Bool) (u s : State Bool),
    run (step ms) Ordinary [.lock true] (State.created false ⟨.fifo, 50⟩ .zero) = some u ∧
    run (step ms) Ordinary (once true) (State.created false ⟨.fifo, 50⟩ .zero) = some s ∧
    (∀ m, s.holds m = false) ∧ (State.created false ⟨.fifo, 50⟩ .zero : State Bool).thread.schedInfo = ⟨.fifo, 50⟩ ∧
    u.thread.schedInfo = ⟨.fifo, 10⟩ ∧ s.thread.schedInfo = .zero := by
  let ms : Mutexes Bool := ⟨id, fun _ => 10, fun _ => by decide⟩
  refine ⟨ms, _, _, (Option.some_get (show (run (step ms) Ordinary [.lock true]
    (State.created false ⟨.fifo, 50⟩ .zero)).isSome from by decide)).symm, (Option.some_get (show (run (step ms)
    Ordinary (once true) (State.created false ⟨.fifo, 50⟩ .zero)).isSome from by decide)).symm, ?_, rfl, ?_, ?_⟩
  · decide
  · decide
  · decide

end ThreadBites.Sched

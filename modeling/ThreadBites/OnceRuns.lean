import ThreadBites.OnceExecutor

/-!
# Once done, always done

Where a place leads is said once. With the part that threads play it gives what
holds of the word: the executor is alone, and has it in progress.
-/
namespace ThreadBites.Once

open Transition Cancel

/-- Where a thread can go, and what happens. -/
inductive Goes (word : Word) : Pc → Pc → Event → Prop where
  | stay (p) : Goes word p p .quiet
  | exit (p rest) : Goes word p (.exit rest) .quiet
  | call : Goes word (.code .user) .load .quiet
  | popOnce (c) : Goes word (.code c) (.reset (.pop c)) .quiet
  | asks (c) : Goes word (.code c) (.testCode c) .quiet
  | asked (c) : Goes word (.testCode c) (.code c) .quiet
  | leave : Goes word (.code .user) .leave .quiet
  | complete : Goes word (.code .func) .returned .complete
  | loadDone (h : word = .done) : Goes word .load (.code .user) .returned
  | load : Goes word .load .disable .quiet
  | disable : Goes word .disable .cas .quiet
  | claim (h : word = .new) : Goes word .cas .push .claim
  | lost : Goes word .cas (.restore .futexWait) .quiet
  | push : Goes word .push (.restore .call) .quiet
  | restored (k) : Goes word (.restore k) (.cont k) .quiet
  | restoredTest (k) : Goes word (.restore k) (.testCont k) .quiet
  | tested (k) : Goes word (.testCont k) (.cont k) .quiet
  | start : Goes word (.cont .call) (.code .func) .start
  | sleep (h : word = .inProgress) : Goes word (.cont .futexWait) .asleep .quiet
  | unslept : Goes word (.cont .futexWait) .recheck .quiet
  | ret : Goes word (.cont .ret) (.code .user) .returned
  | disableAgain : Goes word .returned .pop .quiet
  | pop : Goes word .pop .store .quiet
  | done : Goes word .store .wakeDone .done
  | wakeDone : Goes word .wakeDone (.restore .ret) .wake
  | woken : Goes word .asleep .recheck .quiet
  | again : Goes word .recheck (.cont .futexWait) .quiet
  | retry : Goes word .recheck .load .quiet
  | reset (c) : Goes word (.reset c) (.wakeReset c) .reset
  | wakeReset (c) : Goes word (.wakeReset c) c.pc .wake
  | clear : Goes word .leave .clear .quiet
  | invoke (rest) : Goes word (.exit (.once :: rest)) (.reset (.exit rest)) .quiet
  | handle (rest) : Goes word (.exit (.other :: rest)) (.code (.handler rest)) .quiet
  | ended : Goes word (.exit []) .ended .quiet

theorem goes_test {word : Word} {th : Thread} {p : Pc} (h : Goes word th.pc p .quiet) :
    Goes word th.pc (th.test p).pc .quiet := by
  unfold Thread.test
  split
  · exact .exit _ _
  · exact h

theorem goes_woken (word : Word) (th : Thread) : Goes word th.pc th.woken.pc .quiet := by
  unfold Thread.woken
  split
  · rename_i hpc
    rw [hpc]
    exact .woken
  · exact .stay _

theorem next_goes {word : Word} {th th' : Thread} {ev : Event} (hs : th.next word = some (th', ev)) :
    Goes word th.pc th'.pc ev := by
  unfold Thread.next at hs
  split at hs
  · cases hs; exact .exit _ _
  · cases hs
  · rename_i c hpc; cases hs; exact goes_test (hpc ▸ .asked c)
  · rename_i hpc
    split at hs <;> cases hs
    · rename_i hword; rw [hpc]; exact .loadDone hword
    · rw [hpc]; exact .load
  · rename_i hpc; cases hs; rw [hpc]; exact .disable
  · rename_i hpc
    split at hs <;> cases hs
    · rename_i hword; rw [hpc]; exact .claim hword
    · rw [hpc]; exact .lost
  · rename_i hpc; cases hs; rw [hpc]; exact .push
  · rename_i k hpc
    cases hs
    split
    · rw [hpc]; exact .restoredTest k
    · rw [hpc]; exact .restored k
  · rename_i k hpc; cases hs; exact goes_test (hpc ▸ .tested k)
  · rename_i hpc; cases hs; rw [hpc]; exact .start
  · rename_i hpc
    cases hs
    split
    · rename_i hword; rw [hpc]; exact .sleep hword
    · rw [hpc]; exact .unslept
  · rename_i hpc; cases hs; rw [hpc]; exact .ret
  · rename_i hpc; cases hs; rw [hpc]; exact .disableAgain
  · rename_i hpc; cases hs; rw [hpc]; exact .pop
  · rename_i hpc; cases hs; rw [hpc]; exact .done
  · rename_i hpc; cases hs; rw [hpc]; exact .wakeDone
  · cases hs
  · rename_i hpc
    cases hs
    split
    · rw [hpc]; exact .again
    · rw [hpc]; exact .retry
  · rename_i c hpc; cases hs; rw [hpc]; exact .reset c
  · rename_i c hpc; cases hs; rw [hpc]; exact .wakeReset c
  · rename_i hpc; cases hs; rw [hpc]; exact .clear
  · cases hs; exact .exit _ _
  · rename_i rest hpc; cases hs; rw [hpc]; exact .invoke rest
  · rename_i rest hpc; cases hs; rw [hpc]; exact .handle rest
  · rename_i hpc; cases hs; rw [hpc]; exact .ended
  · cases hs

theorem calls_goes {word : Word} {th th' : Thread} {ev : Event} {c : Code} {a : Act} (hpc : th.pc = .code c)
    (hs : th.calls c a = some (th', ev)) : Goes word th.pc th'.pc ev := by
  cases a with
  | once =>
    obtain ⟨rfl, he⟩ := Option.ite_none_right_eq_some.mp hs
    cases he
    rw [hpc]
    exact .call
  | push =>
    obtain ⟨-, he⟩ := Option.ite_none_left_eq_some.mp hs
    cases he
    exact .stay _
  | pop execute =>
    obtain ⟨-, he⟩ := Option.ite_none_left_eq_some.mp hs
    cases he
    unfold Thread.pop
    split
    · exact .stay _
    · rw [hpc]
      cases execute with
      | true => exact .popOnce c
      | false => exact .stay _
    · exact .stay _
  | setcancelstate enable =>
    cases hs
    rw [hpc]
    cases enable with
    | true => exact .asks c
    | false => exact .stay _
  | setcanceltype deferred => cases hs; rw [hpc]; exact .asks c
  | testcancel => cases hs; rw [hpc]; exact .asks c
  | exit =>
    obtain ⟨-, he⟩ := Option.ite_none_left_eq_some.mp hs
    cases he
    exact .exit _ _
  | ret =>
    cases c with
    | user => cases hs; rw [hpc]; exact .leave
    | func => cases hs; rw [hpc]; exact .complete
    | handler rest => cases hs
  | next => cases hs
  | request => cases hs
  | signal => cases hs
  | interrupt => cases hs

theorem step_goes {word : Word} {th th' : Thread} {ev : Event} {a : Act} (hs : th.step word a = some (th', ev)) :
    Goes word th.pc th'.pc ev := by
  unfold Thread.step at hs
  split at hs
  · exact next_goes hs
  · cases hs; exact .stay _
  · obtain ⟨-, he⟩ := Option.ite_none_left_eq_some.mp hs
    cases he
    unfold Thread.signal
    split
    · exact .exit _ _
    · exact goes_woken word th
  · obtain ⟨hpc, he⟩ := Option.ite_none_right_eq_some.mp hs
    cases he
    rw [hpc]
    exact .woken
  · split at hs
    · rename_i c hpc
      exact calls_goes hpc hs
    · cases hs

/-- After the store of `TB_ONCE_DONE` in the call. -/
def Pc.late : Pc → Bool
  | .wakeDone => true
  | .restore .ret => true
  | .testCont .ret => true
  | .cont .ret => true
  | _ => false

/-- After `func` in the call, and before the store. -/
def Pc.finished : Pc → Bool
  | .returned => true
  | .pop => true
  | .store => true
  | _ => false

/-- Before `FUTEX_WAKE`. -/
def Pc.wakes : Pc → Bool
  | .wakeDone => true
  | .wakeReset _ => true
  | _ => false

theorem Pc.owns_of_finished {p : Pc} (h : p.finished = true) : p.owns = true := by
  cases p <;> first | rfl | cases h

theorem Goes.late {word : Word} {p q : Pc} {ev : Event} (h : Goes word p q ev) (hq : q.late = true) :
    p.late = true ∨ ev = .done := by
  cases h with
  | done => exact .inr rfl
  | wakeReset c => cases c <;> cases hq
  | stay => exact .inl hq
  | restored k => cases k <;> first | exact .inl rfl | cases hq
  | restoredTest k => cases k <;> first | exact .inl rfl | cases hq
  | tested k => cases k <;> first | exact .inl rfl | cases hq
  | wakeDone => exact .inl rfl
  | _ => cases hq

theorem Goes.finished {word : Word} {p q : Pc} {ev : Event} (h : Goes word p q ev) (hq : q.finished = true) :
    p.finished = true ∨ ev = .complete := by
  cases h with
  | complete => exact .inr rfl
  | wakeReset c => cases c <;> cases hq
  | stay => exact .inl hq
  | disableAgain => exact .inl rfl
  | pop => exact .inl rfl
  | _ => cases hq

theorem Goes.asleep {word : Word} {p q : Pc} {ev : Event} (h : Goes word p q ev) (hq : q = .asleep) :
    p = .asleep ∨ word = .inProgress := by
  cases h with
  | sleep hword => exact .inr hword
  | wakeReset c => cases c <;> cases hq
  | stay => exact .inl hq
  | _ => cases hq

/-- A step that changes the word to something else than in progress is followed by a `FUTEX_WAKE`. -/
theorem Goes.wakes {word : Word} {p q : Pc} {ev : Event} (h : Goes word p q ev) (hev : ev = .done ∨ ev = .reset) :
    q.wakes = true := by
  cases h <;> first | rfl | simp at hev

theorem Goes.returned {word : Word} {p q : Pc} {ev : Event} (h : Goes word p q ev) (hev : ev = .returned) :
    word = .done ∨ p.late = true := by
  cases h with
  | loadDone hword => exact .inl hword
  | ret => exact .inr rfl
  | _ => cases hev

theorem Goes.owns_of_start {word : Word} {p q : Pc} {ev : Event} (h : Goes word p q ev) (hev : ev = .start) :
    p.owns = true := by
  cases h with
  | start => rfl
  | _ => cases hev

theorem Goes.owns_of_claim {word : Word} {p q : Pc} {ev : Event} (h : Goes word p q ev) (hev : ev = .claim) :
    q.owns = true := by
  cases h with
  | claim => rfl
  | _ => cases hev

theorem Goes.finished_of_complete {word : Word} {p q : Pc} {ev : Event} (h : Goes word p q ev) (hev : ev = .complete) :
    p.owns = true ∧ p.finished = false ∧ q.finished = true := by
  cases h with
  | complete => exact ⟨rfl, rfl, rfl⟩
  | _ => cases hev

theorem Goes.resets {word : Word} {p q : Pc} {ev : Event} (h : Goes word p q ev) (hev : ev = .reset) :
    ∃ c, p = .reset c := by
  cases h with
  | reset c => exact ⟨c, rfl⟩
  | _ => cases hev

theorem Goes.finished_of_done {word : Word} {p q : Pc} {ev : Event} (h : Goes word p q ev) (hev : ev = .done) :
    p.finished = true := by
  cases h with
  | done => rfl
  | _ => cases hev

/-- Under the conditions, the `FUTEX_WAKE` that is to follow is not cancelled. -/
theorem Sound.wakes {word : Word} {th th' : Thread} {ev : Event} {a : Act} (h : Sound th) (hc : th.Clean a)
    (hs : th.step word a = some (th', ev)) (hw : th.pc.wakes = true) : th'.pc.wakes = true ∨ ev = .wake := by
  have hcut := hc.1
  cases hpc : th.pc with
  | wakeDone =>
    have hoff := h.held (by rw [hpc]; rfl)
    cases a with
    | next => simp [Thread.step, Thread.next, hpc] at hs; exact .inr hs.2.symm
    | request => cases hs; exact .inl hw
    | signal =>
      obtain ⟨-, he⟩ := Option.ite_none_left_eq_some.mp hs
      cases he
      simp [Thread.signal, acts, hoff, Thread.woken, hpc, Pc.wakes]
    | _ => simp [Thread.step, hpc] at hs
  | wakeReset c =>
    obtain ⟨hending, hone, hzero⟩ := h.reset c (.inr hpc)
    cases a with
    | next => simp [Thread.step, Thread.next, hpc] at hs; exact .inr hs.2.symm
    | request => cases hs; exact .inl hw
    | signal =>
      obtain ⟨hb, he⟩ := Option.ite_none_left_eq_some.mp hs
      cases he
      have hno : ¬ (has .deferred th.status = false ∧ acts th.status = true) := fun hacts => by
        have hsame := hcut (by simp [Thread.cutBy, hb, hacts]) (by rw [hpc]; exact hending)
        rw [hpc, hone] at hsame
        simp only [Pc.pending] at hsame
        omega
      simp [Thread.signal, hno, Thread.woken, hpc, Pc.wakes]
    | _ => simp [Thread.step, hpc] at hs
  | _ => simp [hpc, Pc.wakes] at hw

theorem woken_owner {th : Thread} (h : th.woken.owner) : th.owner := by
  unfold Thread.woken at h
  split at h
  · rcases h with h | h <;> cases h
  · exact h

@[simp] theorem woken_cuts (th : Thread) : th.woken.cuts = th.cuts := by
  unfold Thread.woken
  split <;> rfl

@[simp] theorem woken_resets (th : Thread) : th.woken.resets = th.resets := by
  unfold Thread.woken
  split <;> rfl

theorem woken_awake (th : Thread) : th.woken.pc ≠ .asleep := by
  unfold Thread.woken
  split
  · simp [Thread.goto]
  · assumption

theorem woken_place {th : Thread} {f : Pc → Bool} (hf : f .recheck = false) (h : f th.woken.pc = true) :
    f th.pc = true := by
  unfold Thread.woken at h
  split at h
  · simp [Thread.goto, hf] at h
  · exact h

theorem woken_of_place {th : Thread} {f : Pc → Bool} (hf : f .asleep = false) (h : f th.pc = true) : th.woken = th := by
  unfold Thread.woken
  split
  · rename_i hpc
    rw [hpc, hf] at h
    cases h
  · rfl

variable {τ : Type}

/-- The executor is alone with the word in progress, and what is said about the history. -/
structure Inv (s : State τ) : Prop where
  sound : ∀ t, Sound (s.thread t)
  one : ∀ t u, (s.thread t).owner → (s.thread u).owner → t = u
  word : ∀ t, (s.thread t).owner → s.word = .inProgress
  stored : s.word = .done ↔ s.stored = true
  late : ∀ t, (s.thread t).pc.late = true → s.stored = true
  returns : 0 < s.returns → s.stored = true
  finished : ∀ t, (s.thread t).pc.finished = true → 0 < s.completions
  completed : s.stored = true → 0 < s.completions
  asleep : ∀ t, (s.thread t).pc = .asleep → s.word ≠ .inProgress → ∃ u, (s.thread u).pc.wakes = true

theorem inv_start (status : τ → BitVec 8) : Inv (State.start τ status) where
  sound := fun t => sound_start (status t)
  one := by
    rintro t u (h | h) <;> cases h
  word := by
    rintro t (h | h) <;> cases h
  stored := by simp [State.start]
  late := fun t h => by cases h
  returns := fun h => by cases h
  finished := fun t h => by cases h
  completed := fun h => by cases h
  asleep := fun t h => by cases h

/-- While `TB_ONCE_DONE` is stored no execution starts. -/
theorem Inv.owner_not_stored {s : State τ} (h : Inv s) {t : τ} (ht : (s.thread t).owner) : s.stored = false := by
  by_contra hs
  have hdone := h.stored.mpr (by simpa using hs)
  rw [h.word t ht] at hdone
  cases hdone

variable [DecidableEq τ]

/-- The conditions on a step, said of the thread that takes it. -/
def Clean (s : State τ) (a : Action τ) : Prop := (s.thread a.thread).Clean a.act

/-- The state after a step of a thread. -/
def State.after (s : State τ) (t : τ) (th : Thread) (ev : Event) : State τ :=
  { s with thread := Function.update s.thread t th }.happens ev

theorem step_eq {s u : State τ} {a : Action τ} (hs : step s a = some u) :
    ∃ th ev, (s.thread a.thread).step s.word a.act = some (th, ev) ∧ u = s.after a.thread th ev := by
  obtain ⟨r, hr, rfl⟩ := Option.map_eq_some_iff.mp hs
  exact ⟨r.1, r.2, hr, rfl⟩

/-- The thread of the step, and the others, as they were or woken. -/
theorem after_thread (s : State τ) (t : τ) (th : Thread) (ev : Event) (u : τ) :
    ∃ x, (u = t ∧ x = th ∨ u ≠ t ∧ x = s.thread u) ∧
      (ev ≠ .wake ∧ (s.after t th ev).thread u = x ∨ ev = .wake ∧ (s.after t th ev).thread u = x.woken) := by
  refine ⟨Function.update s.thread t th u, ?_, by cases ev <;> simp [State.after, State.happens]⟩
  by_cases hu : u = t
  · subst hu
    exact .inl ⟨rfl, Function.update_self ..⟩
  · exact .inr ⟨hu, Function.update_of_ne hu ..⟩

/-- A thread that is in a place after the step, other than where a wait returns to, was there before or
is the one that took the step. -/
theorem place_before {s : State τ} {t u : τ} {th : Thread} {ev : Event} {f : Pc → Bool} (hf : f .recheck = false)
    (h : f ((s.after t th ev).thread u).pc = true) :
    u = t ∧ f th.pc = true ∨ u ≠ t ∧ f (s.thread u).pc = true := by
  obtain ⟨x, hx, he⟩ := after_thread s t th ev u
  have hplace : f x.pc = true := by
    rcases he with ⟨-, he⟩ | ⟨-, he⟩
    · rwa [he] at h
    · rw [he] at h
      exact woken_place hf h
  rcases hx with ⟨hu, rfl⟩ | ⟨hu, rfl⟩
  · exact .inl ⟨hu, hplace⟩
  · exact .inr ⟨hu, hplace⟩

theorem owner_before {s : State τ} {t u : τ} {th : Thread} {ev : Event} (h : ((s.after t th ev).thread u).owner) :
    u = t ∧ th.owner ∨ u ≠ t ∧ (s.thread u).owner := by
  obtain ⟨x, hx, he⟩ := after_thread s t th ev u
  have howner : x.owner := by
    rcases he with ⟨-, he⟩ | ⟨-, he⟩
    · rwa [he] at h
    · rw [he] at h
      exact woken_owner h
  rcases hx with ⟨hu, rfl⟩ | ⟨hu, rfl⟩
  · exact .inl ⟨hu, howner⟩
  · exact .inr ⟨hu, howner⟩

theorem sound_after {s : State τ} {t : τ} {th : Thread} {ev : Event} (h : ∀ u, Sound (s.thread u)) (hth : Sound th)
    (u : τ) : Sound ((s.after t th ev).thread u) := by
  obtain ⟨x, hx, he⟩ := after_thread s t th ev u
  have hsound : Sound x := by
    rcases hx with ⟨-, rfl⟩ | ⟨-, rfl⟩
    · exact hth
    · exact h u
  rcases he with ⟨-, he⟩ | ⟨-, he⟩
  · rwa [he]
  · rw [he]
    have hmoved : Moved s.word x x.woken .quiet := hsound.moved_woken
    exact hmoved.sound

/-- A place other than in a wait is the one of the thread after the step too. -/
theorem place_after {s : State τ} {t u : τ} {th : Thread} {ev : Event} {f : Pc → Bool} (hf : f .asleep = false)
    (hth : u = t → f th.pc = true) (hu : u ≠ t → f (s.thread u).pc = true) :
    f ((s.after t th ev).thread u).pc = true := by
  obtain ⟨x, hx, he⟩ := after_thread s t th ev u
  have hplace : f x.pc = true := by
    rcases hx with ⟨hut, rfl⟩ | ⟨hut, rfl⟩
    · exact hth hut
    · exact hu hut
  rcases he with ⟨-, he⟩ | ⟨-, he⟩
  · rwa [he]
  · rwa [he, woken_of_place hf hplace]

theorem Inv.step {s u : State τ} {a : Action τ} (h : Inv s) (hc : Clean s a) (hs : step s a = some u) : Inv u := by
  obtain ⟨th, ev, hstep, rfl⟩ := step_eq hs
  have hmoved := (h.sound a.thread).step hc hstep
  have hgoes := step_goes hstep
  have howner : ∀ v, ((s.after a.thread th ev).thread v).owner →
      ev = .claim ∧ v = a.thread ∨ ev ≠ .claim ∧ (s.thread v).owner := by
    intro v hv
    by_cases hev : ev = .claim
    · have hnew := hmoved.claims hev
      rcases owner_before hv with ⟨hva, -⟩ | ⟨-, ho⟩
      · exact .inl ⟨hev, hva⟩
      · rw [h.word v ho] at hnew
        cases hnew
    · rcases owner_before hv with ⟨rfl, ho⟩ | ⟨-, ho⟩
      · exact .inr ⟨hev, hmoved.keeps hev ho⟩
      · exact .inr ⟨hev, ho⟩
  have hends : ev = .done ∨ ev = .reset → ∀ v, ¬ ((s.after a.thread th ev).thread v).owner := by
    intro hev v hv
    obtain ⟨hbefore, hafter⟩ := hmoved.ends hev
    rcases owner_before hv with ⟨-, ho⟩ | ⟨hne, ho⟩
    · exact hafter ho
    · exact hne (h.one v a.thread ho hbefore)
  have hstored : s.stored = true → (s.after a.thread th ev).stored = true := by
    cases ev <;> simp [State.after, State.happens]
  have hcompletions : s.completions ≤ (s.after a.thread th ev).completions := by
    cases ev <;> simp [State.after, State.happens]
  refine ⟨sound_after h.sound hmoved.sound, ?_, ?_, ?_, ?_, ?_, ?_, ?_, ?_⟩
  · intro v w hv hw
    rcases howner v hv with ⟨hev, rfl⟩ | ⟨hev, hv⟩ <;> rcases howner w hw with ⟨hev', rfl⟩ | ⟨hev', hw⟩
    · rfl
    · exact absurd hev hev'
    · exact absurd hev' hev
    · exact h.one v w hv hw
  · intro v hv
    cases ev with
    | claim => rfl
    | done => exact absurd hv (hends (.inl rfl) v)
    | reset => exact absurd hv (hends (.inr rfl) v)
    | _ =>
      rcases howner v hv with ⟨hev, -⟩ | ⟨-, ho⟩
      · cases hev
      · exact h.word v ho
  · cases ev with
    | claim =>
      have hnew := hmoved.claims rfl
      have hno : s.stored ≠ true := fun hs => by rw [h.stored.mpr hs] at hnew; cases hnew
      simp [State.after, State.happens, hno]
    | reset =>
      have hno := h.owner_not_stored (hmoved.ends (.inr rfl)).1
      simp [State.after, State.happens, hno]
    | done => simp [State.after, State.happens]
    | _ => exact h.stored
  · intro v hv
    rcases place_before rfl hv with ⟨rfl, hp⟩ | ⟨-, hp⟩
    · rcases hgoes.late hp with hl | rfl
      · exact hstored (h.late _ hl)
      · rfl
    · exact hstored (h.late v hp)
  · intro hr
    by_cases hev : ev = .returned
    · rcases hgoes.returned hev with hw | hl
      · exact hstored (h.stored.mp hw)
      · exact hstored (h.late _ hl)
    · have hsame : (s.after a.thread th ev).returns = s.returns := by
        cases ev <;> first | rfl | exact absurd rfl hev
      exact hstored (h.returns (hsame ▸ hr))
  · intro v hv
    rcases place_before rfl hv with ⟨rfl, hp⟩ | ⟨-, hp⟩
    · rcases hgoes.finished hp with hf | rfl
      · exact Nat.lt_of_lt_of_le (h.finished _ hf) hcompletions
      · exact Nat.succ_pos _
    · exact Nat.lt_of_lt_of_le (h.finished v hp) hcompletions
  · intro hst
    by_cases hev : ev = .done
    · exact Nat.lt_of_lt_of_le (h.finished _ (hgoes.finished_of_done hev)) hcompletions
    · have hsame : (s.after a.thread th ev).stored = s.stored := by
        cases ev <;> first | rfl | exact absurd rfl hev
      exact Nat.lt_of_lt_of_le (h.completed (hsame ▸ hst)) hcompletions
  · intro v hv hw
    have hnowake : ev ≠ .wake := by
      rintro rfl
      obtain ⟨x, -, ⟨hno, -⟩ | ⟨-, he⟩⟩ := after_thread s a.thread th .wake v
      · exact hno rfl
      · rw [he] at hv
        exact woken_awake x hv
    by_cases hev : ev = .done ∨ ev = .reset
    · exact ⟨a.thread, place_after rfl (fun _ => hgoes.wakes hev) fun hne => absurd rfl hne⟩
    · have hword : s.word ≠ .inProgress := by
        cases ev <;> first | exact hw | exact absurd rfl hw | simp at hev
      have hbefore : (s.thread v).pc = .asleep := by
        rcases place_before (f := fun p => decide (p = .asleep)) rfl (by simpa using hv) with ⟨rfl, hp⟩ | ⟨-, hp⟩
        · exact (hgoes.asleep (of_decide_eq_true hp)).resolve_right hword
        · exact of_decide_eq_true hp
      obtain ⟨w, hwakes⟩ := h.asleep v hbefore hword
      refine ⟨w, place_after rfl ?_ fun _ => hwakes⟩
      rintro rfl
      exact ((h.sound _).wakes hc hstep hwakes).resolve_right hnowake

theorem reaches_inv {s : State τ} (h : Reaches Initial step Clean s) : Inv s :=
  h.invariant (I := Inv) (fun _ ⟨status, _, h₀⟩ => h₀ ▸ inv_start status) fun _ _ _ _ hi hc hs => hi.step hc hs

/-- After some call has stored `TB_ONCE_DONE` the word stays, and no execution of `func` starts. -/
def StaysDone (s : State τ) : Prop :=
  s.stored = true → s.word = .done ∧ ∀ a u, step s a = some u → u.starts = s.starts

theorem Inv.staysDone {s : State τ} (h : Inv s) : StaysDone s := by
  refine fun hstored => ⟨h.stored.mpr hstored, fun a u hs => ?_⟩
  obtain ⟨th, ev, hstep, rfl⟩ := step_eq hs
  cases ev with
  | start =>
    have hno := h.owner_not_stored (.inl ((step_goes hstep).owns_of_start rfl))
    rw [hno] at hstored
    cases hstored
  | _ => rfl

instance (s : State τ) (a : Action τ) : Decidable (Clean s a) :=
  inferInstanceAs (Decidable ((s.thread a.thread).Clean a.act))

/-- A call of `tbthread_once` up to `func`, cancellation being enabled. -/
def entered (t : τ) : List (Action τ) := ⟨t, .once⟩ :: List.replicate 7 ⟨t, .next⟩

/-- The rest of the call. -/
def left (t : τ) : List (Action τ) := ⟨t, .ret⟩ :: List.replicate 7 ⟨t, .next⟩

end ThreadBites.Once

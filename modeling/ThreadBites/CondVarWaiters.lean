import ThreadBites.CondVar

/-!
# No wakeup of the condition variable is missed

A waiter is stale once the futex word was incremented after it sampled the word.
A stale waiter that is awake does not go to sleep, so it will recheck; there are
at least as many of these as there are outstanding signals.
-/
namespace ThreadBites.CondVar

open Transition Tally WaitQueue

variable {τ μ : Type}

/-- Awake in the wait loop, with a sample older than the last increment. -/
def stale (bumps : Nat) : Pc μ → Bool
  | .futexWait w => w.bumps < bumps
  | .recheck w _ => w.bumps < bumps
  | _ => false

/-- Awake in the wait loop, with a sample that differs from the futex word. -/
def staleAwake (futex : BitVec 32) : Pc μ → Bool
  | .futexWait w => w.sample.futex ≠ futex
  | .recheck w _ => w.sample.futex ≠ futex
  | _ => false

/-- A place that is consistent with the broadcasts and increments so far. -/
structure Placed (casts bumps : Nat) (c : Pc μ) : Prop where
  sample : ∀ w, waitOf c = some w → w.sample.futex = BitVec.ofNat 32 w.bumps ∧ w.bumps ≤ bumps ∧
    w.casts ≤ casts ∧ (w.casts < casts → w.bumps < bumps)
  sleep : ∀ w, c = .asleep w → w.casts = casts
  check : ∀ w st, c = .recheck w st → w.bumps < bumps

structure Counted [Fintype τ] (s : State τ μ) : Prop where
  word : s.cond.futex = BitVec.ofNat 32 s.bumps
  few : s.bumps < 2 ^ 32
  placed : ∀ t, Placed s.casts s.bumps (s.pc t)
  waiters : s.cond.waiters = tally waiting s.pc
  signals : s.cond.signalNum ≤ tally (stale s.bumps) s.pc

theorem stale_waiting {bumps : Nat} {c : Pc μ} (h : stale bumps c = true) : waiting c = true := by
  cases c <;> simp_all [stale, waiting, waitOf]

theorem stale_mono {b b' : Nat} {c : Pc μ} (hb : b ≤ b') (h : stale b c = true) : stale b' c = true := by
  cases c <;> simp_all [stale] <;> omega

/-- Whoever waits and does not sleep is stale after one more increment. -/
theorem stale_of_waiting {casts bumps : Nat} {c : Pc μ} (h : Placed casts bumps c)
    (hw : waiting c = true) (ha : asleep c = false) : stale (bumps + 1) c = true := by
  cases c with
  | futexWait w =>
    have := (h.sample w rfl).2.1
    simp only [stale, decide_eq_true_eq]
    omega
  | recheck w st =>
    have := (h.sample w rfl).2.1
    simp only [stale, decide_eq_true_eq]
    omega
  | asleep w => cases ha
  | _ => cases hw

theorem stale_resume {casts bumps : Nat} {c : Pc μ} (h : Placed casts bumps c)
    (ha : asleep c = true) : stale (bumps + 1) (resume c) = true ∧ stale (bumps + 1) c = false := by
  cases c with
  | asleep w =>
    have := (h.sample w rfl).2.1
    simp only [resume, stale, decide_eq_true_eq, and_true]
    omega
  | _ => cases ha

theorem placed_of_not_waiting {casts bumps : Nat} {c : Pc μ} (h : waiting c = false) :
    Placed casts bumps c := by
  constructor <;> intros <;> simp_all [waiting, waitOf]

/-- More increments keep a place consistent. -/
theorem Placed.bump {casts bumps : Nat} {c : Pc μ} (h : Placed casts bumps c) :
    Placed casts (bumps + 1) c := by
  refine ⟨fun w hw => ?_, h.sleep, fun w st hc => ?_⟩
  · obtain ⟨hf, hb, hc, hlt⟩ := h.sample w hw
    exact ⟨hf, by omega, hc, by omega⟩
  · have := h.check w st hc
    omega

/-- A wake lets a sleeper recheck; the increment that comes with it makes its sample stale. -/
theorem Placed.resume {casts bumps : Nat} {c : Pc μ} (h : Placed casts bumps c) (ha : asleep c = true) :
    Placed casts (bumps + 1) (resume c) := by
  cases c with
  | asleep w =>
    obtain ⟨hf, hb, hc, hlt⟩ := h.sample w rfl
    refine ⟨fun v hv => ?_, by simp [CondVar.resume], fun v st hv => ?_⟩
    · cases hv
      exact ⟨hf, by omega, hc, by omega⟩
    · cases hv
      omega
  | _ => cases ha

/-- A broadcast covers everybody who waits and lets nobody sleep. -/
theorem Placed.cast {casts bumps : Nat} {c : Pc μ} (h : Placed casts (bumps + 1) c)
    (hold : ∀ w, waitOf c = some w → w.bumps ≤ bumps) (ha : asleep c = false) :
    Placed (casts + 1) (bumps + 1) c := by
  refine ⟨fun w hw => ?_, fun w hc => ?_, h.check⟩
  · obtain ⟨hf, hb, hc, -⟩ := h.sample w hw
    have := hold w hw
    exact ⟨hf, hb, by omega, by omega⟩
  · rw [hc] at ha
    cases ha

theorem waiting_resume (c : Pc μ) (h : asleep c = true) : waiting (resume c) = waiting c := by
  cases c <;> simp_all [resume, asleep, waiting, waitOf]

theorem asleep_resume (c : Pc μ) : asleep (resume c) = false := by
  cases c <;> rfl

theorem waitOf_resume (c : Pc μ) : waitOf (resume c) = waitOf c := by
  cases c <;> rfl

variable [Fintype τ]

theorem Counted.signals_le_waiters {s : State τ μ} (h : Counted s) : s.cond.signalNum ≤ s.cond.waiters := by
  rw [h.waiters]
  exact Nat.le_trans h.signals (tally_le_tally fun _ hu => stale_waiting hu)

theorem counted_start : Counted (State.start 0 : State τ μ) where
  word := rfl
  few := Nat.two_pow_pos 32
  placed := fun _ => placed_of_not_waiting rfl
  waiters := by simp [State.start, tally, waiting, waitOf]
  signals := Nat.zero_le _

/-- A broadcast wakes every sleeper, and every waiter is stale after it. -/
theorem Counted.broadcast {s : State τ μ} (h : Counted s) {seq : BitVec 64}
    (hfew : s.bumps + 1 < 2 ^ 32) :
    Counted { s with
      cond := { s.cond with futex := s.cond.futex + 1, broadcastSeq := seq }
      pc := wakeAll asleep resume s.pc, casts := s.casts + 1, bumps := s.bumps + 1 } := by
  have hwoken : Woken asleep resume s.pc _ := wakeAll_woken asleep resume s.pc
  have hawake := wakeAll_awake asleep_resume s.pc
  have hplaced : ∀ u, Placed (s.casts + 1) (s.bumps + 1) (wakeAll asleep resume s.pc u) := by
    intro u
    have hold : ∀ w, waitOf (s.pc u) = some w → w.bumps ≤ s.bumps := fun w hw => ((h.placed u).sample w hw).2.1
    rcases hwoken u with he | ⟨ha, he⟩
    · exact Placed.cast (by rw [he]; exact (h.placed u).bump) (by rw [he]; exact hold) (hawake u)
    · exact Placed.cast (by rw [he]; exact (h.placed u).resume ha) (by rw [he, waitOf_resume]; exact hold) (hawake u)
  refine ⟨word_bump h.word, hfew, hplaced, ?_, ?_⟩
  · simpa only [hwoken.tally waiting_resume] using h.waiters
  · change s.cond.signalNum ≤ tally (stale (s.bumps + 1)) (wakeAll asleep resume s.pc)
    have hall : tally waiting s.pc ≤ tally (stale (s.bumps + 1)) (wakeAll asleep resume s.pc) := by
      refine tally_le_tally fun u hu => ?_
      rcases hwoken u with he | ⟨ha, he⟩
      · have := hawake u
        rw [he] at this ⊢
        exact stale_of_waiting (h.placed u) hu this
      · rw [he]
        exact (stale_resume (h.placed u) ha).1
    have := h.signals_le_waiters
    have := h.waiters
    omega

/-- A broadcast that finds nobody waiting has nobody to cover. -/
theorem Counted.castIdle {s : State τ μ} (h : Counted s) (hw : s.cond.waiters = 0) :
    Counted { s with casts := s.casts + 1 } := by
  refine ⟨h.word, h.few, fun u => placed_of_not_waiting ?_, h.waiters, h.signals⟩
  by_contra hu
  have := (tally_pos_iff waiting s.pc).mpr ⟨u, by simpa using hu⟩
  have := h.waiters
  omega

variable [DecidableEq τ]

/-- Moving one thread: the counts of waiters and of outstanding signals follow it. -/
theorem Counted.goto {s : State τ μ} (h : Counted s) {t : τ} {c : Pc μ} {cond : Cond μ} {sent : List Sent}
    (hf : cond.futex = s.cond.futex) (hc : Placed s.casts s.bumps c)
    (hw : cond.waiters + (waiting (s.pc t)).toNat = s.cond.waiters + (waiting c).toNat)
    (hs : cond.signalNum + (stale s.bumps (s.pc t)).toNat ≤ s.cond.signalNum + (stale s.bumps c).toNat ∨
      cond.signalNum = 0) :
    Counted ({ s with cond := cond, sent := sent }.goto t c) where
  word := hf.trans h.word
  few := h.few
  placed := by
    intro u
    by_cases hu : u = t
    · subst u; simpa [State.goto] using hc
    · simpa [State.goto, hu] using h.placed u
  waiters := by
    have ht := tally_update waiting s.pc t c
    have := h.waiters
    simp only [State.goto]
    omega
  signals := by
    have ht := tally_update (stale s.bumps) s.pc t c
    have := h.signals
    simp only [State.goto]
    rcases hs with hs | hs <;> omega

/-- A move that changes no count. -/
theorem Counted.move {s : State τ μ} (h : Counted s) {t : τ} {c : Pc μ} (hc : Placed s.casts s.bumps c)
    (hw : waiting c = waiting (s.pc t)) (hs : stale s.bumps (s.pc t) = true → stale s.bumps c = true) :
    Counted (s.goto t c) := by
  refine show Counted ({ s with cond := s.cond, sent := s.sent }.goto t c) from
    h.goto rfl hc (by rw [hw]) (.inl ?_)
  cases hst : stale s.bumps (s.pc t) with
  | false => simp
  | true => simp [hs hst]

/-- A move of a thread that does not wait. -/
theorem Counted.quiet {s : State τ μ} (h : Counted s) {t : τ} {c : Pc μ} (ht : waiting (s.pc t) = false)
    (hc : waiting c = false) : Counted (s.goto t c) := by
  refine h.move (placed_of_not_waiting hc) (hc.trans ht.symm) (fun hs => ?_)
  rw [stale_waiting hs] at ht
  cases ht

/-- A counted signal wakes a sleeper if there is one; else all waiters are awake and now stale. -/
theorem Counted.signal {s : State τ μ} (h : Counted s) {sent : List Sent} {woken : Option τ} {pc : τ → Pc μ}
    (hw : s.cond.waiters ≠ s.cond.signalNum) (hwake : wakeOne asleep resume s.pc woken = some pc)
    (hfew : s.bumps + 1 < 2 ^ 32) :
    Counted { s with
      cond := { s.cond with futex := s.cond.futex + 1, signalNum := s.cond.signalNum + 1 }
      pc := pc, bumps := s.bumps + 1, sent := sent } := by
  have hwoken := wakeOne_woken hwake
  have hle := h.signals_le_waiters
  have hsig := h.signals
  refine ⟨word_bump h.word, hfew, ?_, ?_, ?_⟩
  · intro u
    rcases hwoken u with he | ⟨ha, he⟩
    · simpa only [he] using (h.placed u).bump
    · simpa only [he] using (h.placed u).resume ha
  · simpa only [hwoken.tally waiting_resume] using h.waiters
  · change s.cond.signalNum + 1 ≤ tally (stale (s.bumps + 1)) pc
    have hmono : tally (stale s.bumps) s.pc ≤ tally (stale (s.bumps + 1)) s.pc :=
      tally_le_tally fun _ hu => stale_mono (Nat.le_succ _) hu
    by_cases hsl : ∃ v, asleep (s.pc v) = true
    · obtain ⟨v, hv, he⟩ := wakeOne_finds hwake hsl
      have ht := tally_update (stale (s.bumps + 1)) s.pc v (resume (s.pc v))
      obtain ⟨hnew, hold⟩ := stale_resume (h.placed v) hv
      rw [hold, hnew, ← he] at ht
      simp only [Bool.toNat_true, Bool.toNat_false] at ht
      omega
    · have hall : tally waiting s.pc ≤ tally (stale (s.bumps + 1)) pc := by
        refine tally_le_tally fun u hu => ?_
        have hna : asleep (s.pc u) = false := by
          by_contra hn
          exact hsl ⟨u, by simpa using hn⟩
        rw [hwoken.of_not_asleep hna]
        exact stale_of_waiting (h.placed u) hu hna
      have := h.waiters
      omega

variable [DecidableEq μ]

/-- Fewer than `2^32` increments of the futex word. -/
def FewBumps (s : State τ μ) : Action τ μ → Prop
  | .broadcast _ => s.bumps + 1 < 2 ^ 32
  | .signal _ _ => s.bumps + 1 < 2 ^ 32
  | _ => True

instance (s : State τ μ) : (a : Action τ μ) → Decidable (FewBumps s a)
  | .broadcast _ => inferInstanceAs (Decidable (_ < _))
  | .signal _ _ => inferInstanceAs (Decidable (_ < _))
  | .call _ _ => isTrue trivial
  | .waitBegin _ _ => isTrue trivial
  | .futexWait _ => isTrue trivial
  | .interrupt _ => isTrue trivial
  | .recheck _ _ => isTrue trivial
  | .relock _ => isTrue trivial

theorem counted_step {s s' : State τ μ} {a : Action τ μ} (h : Counted s) (ha : FewBumps s a)
    (hs : Stepped s a s') : Counted s' := by
  cases hs with
  | @call t f st hpc => exact h.quiet (by rw [hpc]; rfl) (by cases f <;> rfl)
  | broadcastIdle hpc hw => exact (h.quiet (by rw [hpc]; rfl) rfl).castIdle hw
  | @broadcast t hpc hw =>
    have hg : Counted (s.goto t (.out 0)) := h.quiet (by rw [hpc]; rfl) rfl
    exact hg.broadcast ha
  | signalIdle hpc hw => exact h.quiet (by rw [hpc]; rfl) rfl
  | @signal t woken pc hpc hw hwake =>
    have hg : Counted (s.goto t (.out 0)) := h.quiet (by rw [hpc]; rfl) rfl
    exact hg.signal hw hwake ha
  | waitFailed hpc he =>
    exact h.goto rfl (placed_of_not_waiting rfl) (by simp [hpc, waiting, waitOf]) (.inl (by simp [hpc, stale]))
  | waitBegun hpc hm =>
    refine h.goto rfl ⟨?_, by simp, by simp⟩ (by simp [hpc, waiting, waitOf]) (.inl (by simp [hpc, stale]))
    intro w hw
    cases hw
    exact ⟨h.word, Nat.le_refl _, Nat.le_refl _, fun hlt => absurd hlt (lt_irrefl _)⟩
  | @slept t w hpc hf =>
    obtain ⟨hsample, hb, hc, hlt⟩ := (h.placed t).sample w (by rw [hpc]; rfl)
    have hcur : w.bumps = s.bumps := by
      have hfew := h.few
      exact sample_current hb (by omega) (by rw [← h.word, hf, hsample])
    refine h.move ⟨?_, ?_, by simp⟩ (by simp [hpc, waiting, waitOf]) ?_
    · intro v hv
      cases hv
      exact ⟨hsample, hb, hc, hlt⟩
    · intro v hv
      cases hv
      omega
    · simp [hpc, stale, hcur]
  | @missed t w hpc hf =>
    obtain ⟨hsample, hb, hc, hlt⟩ := (h.placed t).sample w (by rw [hpc]; rfl)
    have hne : w.bumps ≠ s.bumps := by
      intro he
      exact hf (by rw [h.word, hsample, he])
    refine h.move ⟨?_, by simp, ?_⟩ (by simp [hpc, waiting, waitOf]) (by simp [hpc, stale])
    · intro v hv
      cases hv
      exact ⟨hsample, hb, hc, hlt⟩
    · intro v st hv
      cases hv
      omega
  | @interrupted t w hpc =>
    have hp := h.placed t
    rw [hpc] at hp
    refine h.move ⟨fun v hv => ?_, by simp, by simp⟩ (by simp [hpc, waiting, waitOf]) (by simp [hpc, stale])
    cases hv
    exact hp.sample _ rfl
  | @consumed t w st pick hpc hn hp =>
    have hst : stale s.bumps (s.pc t) = true := by
      simpa [hpc, stale] using (h.placed t).check w st hpc
    have hpos : 0 < s.cond.waiters := by
      rw [h.waiters]
      exact (tally_pos_iff _ _).mpr ⟨t, by simp [hpc, waiting, waitOf]⟩
    refine h.goto rfl (placed_of_not_waiting rfl) ?_ (.inl ?_)
    · simp only [leave, hpc, waiting, waitOf, Option.isSome_some, Option.isSome_none, Bool.toNat_true,
        Bool.toNat_false]
      omega
    · rw [hst]
      simp only [leave, stale, Bool.toNat_true, Bool.toNat_false]
      omega
  | @released t w st pick hpc hn hb =>
    have hpos : 0 < s.cond.waiters := by
      rw [h.waiters]
      exact (tally_pos_iff _ _).mpr ⟨t, by simp [hpc, waiting, waitOf]⟩
    refine h.goto rfl (placed_of_not_waiting rfl) ?_ (.inr hn)
    simp only [leave, hpc, waiting, waitOf, Option.isSome_some, Option.isSome_none, Bool.toNat_true,
      Bool.toNat_false]
    omega
  | @stayed t w st pick hpc hn hb =>
    have hp := h.placed t
    rw [hpc] at hp
    refine h.move ⟨fun v hv => ?_, by simp, by simp⟩ (by simp [hpc, waiting, waitOf]) (by simp [hpc, stale])
    cases hv
    exact hp.sample _ rfl
  | relocked hpc => exact h.quiet (by rw [hpc]; rfl) rfl

theorem reaches_counted {s : State τ μ} (h : Reaches Initial step FewBumps s) : Counted s :=
  h.invariant (fun _ h₀ => h₀ ▸ counted_start) fun _ _ _ _ hi ha hs => counted_step hi ha (step_stepped hs)

/-- `waiters` counts the threads that released their mutex and have not left the loop, also
before they reach `FUTEX_WAIT`; each outstanding signal has an awake waiter with a stale sample;
and nobody who sleeps was covered by a broadcast. -/
theorem cond_no_missed_wakeup {s : State τ μ} (h : Reaches Initial step FewBumps s) :
    s.cond.waiters = tally waiting s.pc ∧ s.cond.signalNum ≤ s.cond.waiters ∧
    s.cond.signalNum ≤ tally (staleAwake s.cond.futex) s.pc ∧
    (∀ t w, s.pc t = .asleep w → w.casts = s.casts) ∧
    ∀ t, waiting (s.pc t) = true → 0 < s.cond.waiters := by
  have hi := reaches_counted h
  refine ⟨hi.waiters, hi.signals_le_waiters, Nat.le_trans hi.signals (tally_le_tally fun u hu => ?_),
    fun t w hc => (hi.placed t).sleep w hc, fun t ht => ?_⟩
  · -- an older sample is a different word, the counts being below `2^32`
    have hne : ∀ w, waitOf (s.pc u) = some w → w.bumps < s.bumps → w.sample.futex ≠ s.cond.futex := by
      intro w hw hlt he
      obtain ⟨hf, hb, -⟩ := (hi.placed u).sample w hw
      have hfew := hi.few
      have := sample_current hb (by omega) (by rw [← hi.word, ← hf, he])
      omega
    cases hc : s.pc u with
    | futexWait w => simpa [staleAwake] using hne w (by rw [hc]; rfl) (by simpa [hc, stale] using hu)
    | recheck w st => simpa [staleAwake] using hne w (by rw [hc]; rfl) (by simpa [hc, stale] using hu)
    | _ => simp [hc, stale] at hu
  · rw [hi.waiters]
    exact (tally_pos_iff _ _).mpr ⟨t, ht⟩

/-- A signal between the release of the mutex and `FUTEX_WAIT`. -/
def signalledEarly : State (Fin 2) Unit :=
  (run step FewBumps [.call 0 (.wait ()), .waitBegin 0 0, .call 1 .signal, .signal 1 none]
    (State.start 0)).get (by decide)

theorem cond_no_missed_wakeup_early : signalledEarly.cond.signalNum = 1 ∧
    1 ≤ tally (staleAwake signalledEarly.cond.futex) signalledEarly.pc := by
  have hr : Reaches Initial step FewBumps signalledEarly :=
    Reaches.run_get (show Initial (State.start 0) from rfl) _
  have hn : signalledEarly.cond.signalNum = 1 := by decide
  exact ⟨hn, hn ▸ (cond_no_missed_wakeup hr).2.2.1⟩

end ThreadBites.CondVar

import ThreadBites.RwlockSafety

/-!
# Nobody is left asleep on a free read-write lock

A sample of a futex word is stale once the word was bumped. While the lock is
free, every sample that could put a thread to sleep on it is stale.
-/
namespace ThreadBites.Rwlock

open Transition Tally WaitQueue

variable {τ : Type}

/-- Queued and not asleep: on the way back to the section. -/
def alert : Pc → Bool
  | .wrlock q => q
  | .wrWait _ _ => true
  | _ => false

/-- A queued thread is alert, or it sleeps. -/
theorem alert_or_asleep {c : Pc} (h : queued c = true) : alert c = true ∨ wrAsleep c = true := by
  cases c <;> simp_all [queued, alert, wrAsleep]

/-- Readers may enter. -/
def FreeToRead (rw : Lock τ) : Prop := rw.writer = none ∧ rw.writersQueued = 0

/-- A writer may enter. -/
def FreeToWrite (rw : Lock τ) : Prop := rw.writer = none ∧ rw.readers = 0

/-- A place that is consistent with the bumps so far, and out of harm while the lock is free. -/
structure Placed (rw : Lock τ) (rdBumps wrBumps : Nat) (c : Pc) : Prop where
  rdSample : ∀ v n, c = .rdWait v n → v = BitVec.ofNat 32 n ∧ n ≤ rdBumps ∧ (FreeToRead rw → n < rdBumps)
  wrSample : ∀ v n, c = .wrWait v n → v = BitVec.ofNat 32 n ∧ n ≤ wrBumps ∧ (FreeToWrite rw → n < wrBumps)
  rdSleep : c = .rdAsleep → ¬ FreeToRead rw

structure Wakeful (s : State τ) : Prop where
  rdWord : s.rw.rdFutex = BitVec.ofNat 32 s.rdBumps
  wrWord : s.rw.wrFutex = BitVec.ofNat 32 s.wrBumps
  placed : ∀ t, Placed s.rw s.rdBumps s.wrBumps (s.pc t)
  writer : FreeToWrite s.rw → 0 < s.rw.writersQueued → ∃ t, alert (s.pc t) = true

/-- Places where no futex word matters. -/
def settled : Pc → Bool
  | .rdWait _ _ => false
  | .wrWait _ _ => false
  | .rdAsleep => false
  | _ => true

theorem placed_of_settled {rw : Lock τ} {rb wb : Nat} {c : Pc} (h : settled c = true) :
    Placed rw rb wb c := by
  constructor <;> intros <;> simp_all [settled]

/-- Calls start outside the waits. -/
theorem entry_settled (f : Call) : settled f.entry = true ∧ alert f.entry = false := by
  cases f <;> exact ⟨rfl, rfl⟩

/-- A place stays consistent when the lock gets no freer for it, or the word it sampled is bumped. -/
theorem Placed.mono {rw rw' : Lock τ} {rb wb rb' wb' : Nat} {c : Pc} (h : Placed rw rb wb c)
    (hrb : rb ≤ rb') (hwb : wb ≤ wb')
    (hr : FreeToRead rw' → FreeToRead rw ∨ rb < rb' ∧ c ≠ .rdAsleep)
    (hw : FreeToWrite rw' → FreeToWrite rw ∨ wb < wb' ∨ queued c = false) : Placed rw' rb' wb' c := by
  constructor
  · intro v n hc
    obtain ⟨hv, hn, hf⟩ := h.rdSample v n hc
    refine ⟨hv, by omega, fun hfree => ?_⟩
    rcases hr hfree with hfree | ⟨hlt, -⟩
    · have := hf hfree; omega
    · omega
  · intro v n hc
    obtain ⟨hv, hn, hf⟩ := h.wrSample v n hc
    refine ⟨hv, by omega, fun hfree => ?_⟩
    rcases hw hfree with hfree | hlt | hq
    · have := hf hfree; omega
    · omega
    · rw [hc] at hq; cases hq
  · intro hc hfree
    rcases hr hfree with hfree | ⟨-, hne⟩
    · exact h.rdSleep hc hfree
    · exact hne hc

theorem wakeful_start : Wakeful (State.start : State τ) where
  rdWord := rfl
  wrWord := rfl
  placed := fun _ => placed_of_settled rfl
  writer := fun _ hq => absurd hq (by simp [State.start])

/-- A change of the lock that bumps nothing and frees it for nobody who waits. -/
theorem Wakeful.setLock {s : State τ} (h : Wakeful s) {rw : Lock τ} (reads writes : τ → Nat)
    (hrd : rw.rdFutex = s.rw.rdFutex) (hwr : rw.wrFutex = s.rw.wrFutex)
    (hr : FreeToRead rw → FreeToRead s.rw)
    (hw : FreeToWrite rw → rw.writersQueued = 0 ∧ ∀ u, queued (s.pc u) = false) :
    Wakeful { s with rw := rw, reads := reads, writes := writes } where
  rdWord := hrd.trans h.rdWord
  wrWord := hwr.trans h.wrWord
  placed := fun u => (h.placed u).mono (Nat.le_refl _) (Nat.le_refl _) (fun hf => .inl (hr hf))
    (fun hf => .inr (.inr ((hw hf).2 u)))
  writer := fun hf hq => absurd (hw hf).1 (ne_of_gt hq)

/-- A bump of `rdFutex` with a wake of all, when no writer is queued. -/
theorem Wakeful.wakeReaders {s : State τ} (h : Wakeful s) {rw : Lock τ}
    (reads writes : τ → Nat) (hrd : rw.rdFutex = s.rw.rdFutex + 1) (hwr : rw.wrFutex = s.rw.wrFutex)
    (hq : rw.writersQueued = 0 ∧ ∀ u, queued (s.pc u) = false) :
    Wakeful ⟨rw, wakeAll rdAsleep (fun _ => .rdlock) s.pc, reads, writes, s.rdBumps + 1, s.wrBumps⟩ := by
  refine ⟨?_, hwr.trans h.wrWord, ?_, ?_⟩
  · exact hrd.trans (word_bump h.rdWord)
  · intro u
    have hna : rdAsleep (wakeAll rdAsleep (fun _ => .rdlock) s.pc u) = false := wakeAll_awake (fun _ => rfl) s.pc u
    rcases wakeAll_woken rdAsleep (fun _ => .rdlock) s.pc u with he | ⟨-, he⟩
    · simp only [he] at hna ⊢
      refine (h.placed u).mono (Nat.le_succ _) (Nat.le_refl _) (fun _ => .inr ⟨Nat.lt_succ_self _, ?_⟩)
        (fun _ => .inr (.inr (hq.2 u)))
      intro hc
      rw [hc] at hna
      cases hna
    · simp only [he]
      exact placed_of_settled rfl
  · intro _ hpos
    simp only [hq.1, lt_self_iff_false] at hpos

variable [DecidableEq τ]

/-- Moving one thread to a consistent place, on its way back if it was needed there. -/
theorem Wakeful.goto {s : State τ} (h : Wakeful s) {t : τ} {c : Pc}
    (hc : Placed s.rw s.rdBumps s.wrBumps c)
    (ha : FreeToWrite s.rw → alert (s.pc t) = true → alert c = true) : Wakeful (s.goto t c) where
  rdWord := h.rdWord
  wrWord := h.wrWord
  placed := by
    intro u
    by_cases hu : u = t
    · subst u; simpa [State.goto] using hc
    · simpa [State.goto, hu] using h.placed u
  writer := by
    intro hf hq
    obtain ⟨u, hu⟩ := h.writer hf hq
    by_cases he : u = t
    · subst u; exact ⟨t, by simpa [State.goto] using ha hf hu⟩
    · exact ⟨u, by simpa [State.goto, he] using hu⟩

/-- With a writer inside there is nothing to enter. -/
theorem Wakeful.addWrite {s : State τ} (h : Wakeful s) {t : τ} {rw : Lock τ}
    (hrd : rw.rdFutex = s.rw.rdFutex) (hwr : rw.wrFutex = s.rw.wrFutex) (hw : rw.writer = some t) :
    Wakeful ((s.addWrite t rw).goto t (.out 0)) := by
  have hbusy : rw.writer ≠ none := by simp [hw]
  have hl : Wakeful (s.addWrite t rw) :=
    h.setLock _ _ hrd hwr (fun hf => absurd hf.1 hbusy) (fun hf => absurd hf.1 hbusy)
  exact hl.goto (placed_of_settled rfl) (fun hf => absurd hf.1 hbusy)

variable [Fintype τ]

theorem queued_nonneg {s : State τ} (h : Safe s) : 0 ≤ s.rw.writersQueued := by
  rw [h.queue]
  exact Int.natCast_nonneg _

/-- The queue is empty exactly when no thread is in it. -/
theorem queue_eq_zero_iff {s : State τ} (h : Safe s) :
    s.rw.writersQueued = 0 ↔ ∀ u, queued (s.pc u) = false := by
  rw [h.queue, Int.natCast_eq_zero]
  exact tally_eq_zero_iff queued s.pc

/-- A bump of `wrFutex` with a wake of one leaves every sample stale and a queued thread alert. -/
theorem Wakeful.wakeWriter {s : State τ} (h : Wakeful s) {rw : Lock τ} {w : Option τ} {pc : τ → Pc}
    (reads writes : τ → Nat) (hrd : rw.rdFutex = s.rw.rdFutex) (hwr : rw.wrFutex = s.rw.wrFutex + 1)
    (hq : rw.writersQueued = tally queued s.pc) (hbusy : ¬ FreeToRead rw)
    (hpc : wakeOne wrAsleep (fun _ => .wrlock true) s.pc w = some pc) :
    Wakeful ⟨rw, pc, reads, writes, s.rdBumps, s.wrBumps + 1⟩ := by
  have hwoken := wakeOne_woken hpc
  refine ⟨hrd.trans h.rdWord, ?_, ?_, ?_⟩
  · exact hwr.trans (word_bump h.wrWord)
  · intro u
    rcases hwoken u with he | ⟨-, he⟩
    · simp only [he]
      exact (h.placed u).mono (Nat.le_refl _) (Nat.le_succ _) (fun hf => absurd hf hbusy)
        (fun _ => .inr (.inl (Nat.lt_succ_self _)))
    · simp only [he]
      exact placed_of_settled rfl
  · intro _ hpos
    have hpos' : 0 < tally queued s.pc := by simp only at hpos; omega
    by_cases hsl : ∃ v, wrAsleep (s.pc v) = true
    · obtain ⟨v, -, he⟩ := wakeOne_finds hpc hsl
      exact ⟨v, by simp [he, alert]⟩
    · -- nobody sleeps, so the queued thread that the count promises is alert already
      obtain ⟨u, hu⟩ := (tally_pos_iff _ _).mp hpos'
      have hna : wrAsleep (s.pc u) = false := by
        by_contra hn
        exact hsl ⟨u, by simpa using hn⟩
      refine ⟨u, ?_⟩
      rcases alert_or_asleep hu with ha | ha
      · simpa only [hwoken.of_not_asleep hna] using ha
      · rw [hna] at ha; cases ha

/-- An unlock leaves nobody asleep on what it frees. -/
theorem Wakeful.unlocked {s s' : State τ} (hs : Safe s) (h : Wakeful s) {t : τ} {w : Option τ}
    {rw : Lock τ} {k : Wake} (hpc : s.pc t = .unlock) (hu : unlock s.rw = some (rw, k))
    (hw : { (s.dropHold t).goto t (.out 0) with rw := rw }.wake w k = some s') : Wakeful s' := by
  have hsafe := hs.unlocked hpc hu
  have hg : Wakeful (s.goto t (.out 0)) :=
    h.goto (placed_of_settled rfl) (by simp [hpc, alert])
  have hdrop : { (s.dropHold t).goto t (.out 0) with rw := rw } =
      { s.goto t (.out 0) with rw := rw, reads := (s.dropHold t).reads, writes := (s.dropHold t).writes } := by
    simp only [State.dropHold]
    split <;> rfl
  rw [hdrop] at hsafe hw
  have hqueue := queue_eq_zero_iff hsafe
  rcases unlock_cases hu with ⟨-, hq, rfl, rfl⟩ | ⟨-, hq, rfl, rfl⟩ | ⟨-, hl, rfl, rfl⟩ | ⟨hn, hl, rfl, rfl⟩
  · obtain ⟨pc, hpc', he⟩ := Option.map_eq_some_iff.mp hw
    rw [← he]
    exact hg.wakeWriter _ _ rfl rfl hsafe.queue (fun hf => hq hf.2) hpc'
  · cases hw
    exact hg.wakeReaders _ _ rfl rfl ⟨hq, hqueue.mp hq⟩
  · obtain ⟨pc, hpc', he⟩ := Option.map_eq_some_iff.mp hw
    rw [← he]
    exact hg.wakeWriter _ _ rfl rfl hsafe.queue (fun hf => hl.2 hf.2) hpc'
  · cases hw
    refine hg.setLock _ _ rfl rfl (fun hf => hf) (fun hf => ?_)
    have hz : s.rw.writersQueued = 0 := by
      by_contra hq
      have hr := hf.2
      simp only at hr
      exact hl ⟨by omega, hq⟩
    exact ⟨hz, hqueue.mp hz⟩

/-- One step keeps the invariant, if no sample is too old when its thread compares. -/
theorem wakeful_step {s s' : State τ} {a : Action τ} (hs : Safe s) (h : Wakeful s)
    (ha : Prompt s a) (hstep : Stepped s a s') : Wakeful s' := by
  have hq := queued_nonneg hs
  have hr := hs.reads
  cases hstep with
  | @call t f st hpc =>
    exact h.goto (placed_of_settled (entry_settled f).1) (by simp [hpc, alert])
  | @readAcquired t w hpc hfree =>
    have hbusy : ¬ FreeToWrite { s.rw with readers := s.rw.readers + 1 } := by
      intro hf
      have := hf.2
      simp only at this
      omega
    have hl : Wakeful (s.addRead t { s.rw with readers := s.rw.readers + 1 }) :=
      h.setLock _ _ rfl rfl (fun _ => hfree) (fun hf => absurd hf hbusy)
    exact hl.goto (placed_of_settled rfl) (fun hf => absurd hf hbusy)
  | @readBlocked t w hpc hbusy =>
    refine h.goto ⟨?_, by simp, by simp⟩ (by simp [hpc, alert])
    intro v n hc
    cases hc
    exact ⟨h.rdWord, Nat.le_refl _, fun hf => absurd hf hbusy⟩
  | @writeAcquired t w q hpc hfree =>
    exact h.addWrite rfl rfl rfl
  | @writeBlocked t w q hpc hbusy =>
    have hpos : 0 < s.rw.writersQueued + ((!q).toNat : Int) := by
      cases q with
      | false => simp; omega
      | true =>
        have := (queue_eq_zero_iff hs).not.mpr (fun hall => by simpa [hpc, queued] using hall t)
        simp
        omega
    have hl : Wakeful { s with rw := { s.rw with writersQueued := s.rw.writersQueued + (!q).toNat } } :=
      h.setLock s.reads s.writes rfl rfl (fun hf => absurd hf.2 (ne_of_gt hpos)) (fun hf => absurd hf hbusy)
    refine hl.goto ⟨by simp, ?_, by simp⟩ (fun hf => absurd hf hbusy)
    intro v n hc
    cases hc
    exact ⟨h.wrWord, Nat.le_refl _, fun hf => absurd hf hbusy⟩
  | @tryWriteAcquired t w hpc hfree =>
    exact h.addWrite rfl rfl rfl
  | tryFailed hpc =>
    exact h.goto (placed_of_settled rfl)
      (by rcases hpc with hpc | hpc <;> simp [hpc, alert])
  | unlocked hpc hu hw => exact h.unlocked hs hpc hu hw
  | @readSlept t v n hpc hv =>
    obtain ⟨hvn, hle, hfree⟩ := (h.placed t).rdSample v n hpc
    refine h.goto ⟨by simp, by simp, fun _ hf => ?_⟩ (by simp [hpc, alert])
    have hlt := hfree hf
    have := sample_current hle (by simpa [Prompt, State.bumpsSince, hpc] using ha)
      (by rw [← h.rdWord, hv, hvn])
    omega
  | readRetried hpc hv => exact h.goto (placed_of_settled rfl) (by simp [hpc, alert])
  | @writeSlept t v n hpc hv =>
    obtain ⟨hvn, hle, hfree⟩ := (h.placed t).wrSample v n hpc
    refine h.goto ⟨by simp, by simp, by simp⟩ (fun hf => ?_)
    have hlt := hfree hf
    have := sample_current hle (by simpa [Prompt, State.bumpsSince, hpc] using ha)
      (by rw [← h.wrWord, hv, hvn])
    omega
  | writeRetried hpc hv => exact h.goto (placed_of_settled rfl) (by simp [alert])
  | readInterrupted hpc => exact h.goto (placed_of_settled rfl) (by simp [hpc, alert])
  | writeInterrupted hpc => exact h.goto (placed_of_settled rfl) (by simp [alert])

/-- Threads unlock what they hold, and compare before their sample is `2^32` bumps old. -/
def Admitted (s : State τ) (a : Action τ) : Prop := Disciplined s a ∧ Prompt s a

instance (s : State τ) (a : Action τ) : Decidable (Admitted s a) := inferInstanceAs (Decidable (_ ∧ _))

theorem reaches_wakeful {s : State τ} (h : Reaches Initial step Admitted s) : Wakeful s :=
  h.invariant (fun _ h₀ => h₀ ▸ wakeful_start) fun _ _ _ hr hi ha hs =>
    wakeful_step (reaches_safe (hr.weaken fun _ _ ha => ha.1)) hi ha.2 (step_stepped hs)

/-- No reader sleeps while readers may enter; and while a writer may enter and some are queued,
one of them is awake and sampled, if at all, before the last bump, so it will recheck. -/
theorem rwlock_no_sleeper_left {s : State τ} (h : Reaches Initial step Admitted s) :
    (s.rw.writer = none ∧ s.rw.writersQueued = 0 → ∀ t, s.pc t ≠ .rdAsleep) ∧
    (s.rw.writer = none ∧ s.rw.readers = 0 ∧ 0 < s.rw.writersQueued →
      ∃ t, s.pc t = .wrlock true ∨ ∃ v n, s.pc t = .wrWait v n ∧ n < s.wrBumps) := by
  have hi := reaches_wakeful h
  constructor
  · intro hf t hc
    exact (hi.placed t).rdSleep hc hf
  · rintro ⟨hw, hr, hq⟩
    obtain ⟨t, ht⟩ := hi.writer ⟨hw, hr⟩ hq
    refine ⟨t, ?_⟩
    cases hc : s.pc t with
    | wrlock q =>
      rw [hc] at ht
      exact .inl (congrArg Pc.wrlock ht)
    | wrWait v n => exact .inr ⟨v, n, rfl, ((hi.placed t).wrSample v n hc).2.2 ⟨hw, hr⟩⟩
    | _ => simp [hc, alert] at ht

/-- A queued writer is woken, loses the lock to a `trywrlock` and sleeps again; the next
unlock finds the lock free and wakes it once more. -/
def overtaken (t u : τ) : List (Action τ) :=
  [.call t .trywrlock, .enter t none, .call u .wrlock, .enter u none, .wait u, .call t .unlock, .enter t (some u),
    .call t .trywrlock, .enter t none, .enter u none, .wait u, .call t .unlock, .enter t (some u)]

theorem rwlock_no_sleeper_left_overtaken : ∃ s : State (Fin 2), s.rw.writersQueued = 1 ∧
    ∃ t, s.pc t = .wrlock true ∨ ∃ v n, s.pc t = .wrWait v n ∧ n < s.wrBumps := by
  have hr := Reaches.run_get (show Initial (State.start : State (Fin 2)) from rfl)
    (show (run step Admitted (overtaken 0 1) State.start).isSome from by decide)
  exact ⟨_, by decide, (rwlock_no_sleeper_left hr).2 (by decide)⟩

end ThreadBites.Rwlock

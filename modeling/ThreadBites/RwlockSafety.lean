import ThreadBites.Rwlock

/-!
# Safety of the read-write lock

The fields of the lock say who holds it. The invariant ties them to the holds of
the threads; what a section may do to the holds follows from it.
-/
namespace ThreadBites.Rwlock

open Transition Tally WaitQueue

variable {τ : Type} [Fintype τ] [DecidableEq τ]

/-- The lock as the threads see it. -/
structure Safe (s : State τ) : Prop where
  writes : ∀ t, s.writes t = if s.rw.writer = some t then 1 else 0
  reads : s.rw.readers = total s.reads
  apart : s.rw.writer ≠ none → total s.reads = 0
  queue : s.rw.writersQueued = tally queued s.pc
  unlocking : ∀ t, s.pc t = .unlock → 0 < s.reads t + s.writes t

theorem Safe.writer_of_writes {s : State τ} (h : Safe s) {t : τ} (ht : 0 < s.writes t) :
    s.rw.writer = some t := by
  have hw := h.writes t
  by_contra hn
  rw [if_neg hn] at hw
  omega

/-- Moving a thread between places that the queue does not tell apart. -/
theorem Safe.goto {s : State τ} (h : Safe s) {t : τ} {c : Pc} (hq : queued c = queued (s.pc t))
    (hu : c = .unlock → 0 < s.reads t + s.writes t) : Safe (s.goto t c) where
  writes := h.writes
  reads := h.reads
  apart := h.apart
  queue := by
    have ht := tally_update queued s.pc t c
    rw [hq] at ht
    have hk := h.queue
    simp only [State.goto]
    omega
  unlocking := by
    intro u hu'
    by_cases he : u = t
    · subst u
      exact hu (by simpa [State.goto] using hu')
    · exact h.unlocking u (by simpa [State.goto, he] using hu')

theorem Safe.readAcquired {s : State τ} (h : Safe s) {t : τ} (hfree : s.rw.writer = none)
    (hpc : queued (s.pc t) = false) :
    Safe ((s.addRead t { s.rw with readers := s.rw.readers + 1 }).goto t (.out 0)) := by
  have ht := total_update s.reads t (s.reads t + 1)
  have hr := h.reads
  have hs : Safe (s.addRead t { s.rw with readers := s.rw.readers + 1 }) :=
    { writes := h.writes
      reads := by simp only [State.addRead]; omega
      apart := fun hw => absurd hfree hw
      queue := h.queue
      unlocking := by
        intro u hu
        have := h.unlocking u hu
        by_cases he : u = t
        · subst u; simp [State.addRead]
        · simpa [State.addRead, he] using this }
  exact hs.goto hpc.symm (by simp)

theorem Safe.addWrite {s : State τ} (h : Safe s) {t : τ} {n : Int}
    (hfree : s.rw.writer = none ∧ s.rw.readers = 0)
    (hn : n = s.rw.writersQueued - (queued (s.pc t)).toNat) :
    Safe ((s.addWrite t { s.rw with writer := some t, writersQueued := n }).goto t (.out 0)) := by
  have hr := h.reads
  have hq := h.queue
  have ht := tally_update queued s.pc t (.out 0)
  have hz : ∀ u, s.writes u = 0 := fun u => by simpa [hfree.1] using h.writes u
  constructor
  · intro u
    by_cases he : u = t
    · subst u; simp [State.addWrite, State.goto, hz]
    · simp [State.addWrite, State.goto, he, hz, Ne.symm he]
  · exact hr
  · intro _
    simp only [State.addWrite, State.goto]
    omega
  · simp only [State.addWrite, State.goto]
    simp only [queued_out, Bool.toNat_false] at ht
    omega
  · intro u hu
    by_cases he : u = t
    · subst u; simp [State.addWrite, State.goto] at hu
    · have := h.unlocking u (by simpa [State.addWrite, State.goto, he] using hu)
      simpa [State.addWrite, State.goto, he] using this

/-- A wake moves sleepers between places that the invariant does not tell apart. -/
theorem Safe.wake {s s' : State τ} (h : Safe s) {w : Option τ} {k : Wake}
    (hw : s.wake w k = some s') : Safe s' := by
  have hq : ∀ (asleep : Pc → Bool) (c : Pc) (pc : τ → Pc), Woken asleep (fun _ => c) s.pc pc →
      (∀ x, asleep x = true → queued c = queued x) → c ≠ .unlock → tally queued pc = tally queued s.pc ∧
      ∀ u, pc u = .unlock → s.pc u = .unlock := by
    intro asleep c pc hwk hc hne
    refine ⟨hwk.tally hc, ?_⟩
    intro u hu
    rcases hwk u with he | ⟨-, he⟩
    · rw [← he]; exact hu
    · rw [he] at hu; exact absurd hu hne
  cases k with
  | nobody =>
    cases hw
    exact h
  | oneWriter =>
    obtain ⟨pc, hpc, he⟩ := Option.map_eq_some_iff.mp hw
    subst he
    obtain ⟨ht, hu⟩ := hq _ _ _ (wakeOne_woken hpc) (by intro x hx; simp_all [wrAsleep, queued]) (by simp)
    exact ⟨h.writes, h.reads, h.apart, by rw [ht]; exact h.queue, fun u hc => h.unlocking u (hu u hc)⟩
  | allReaders =>
    cases hw
    obtain ⟨ht, hu⟩ := hq _ _ _ (wakeAll_woken rdAsleep (fun _ => .rdlock) s.pc)
      (by intro x hx; simp_all [rdAsleep, queued]) (by simp)
    exact ⟨h.writes, h.reads, h.apart, by rw [ht]; exact h.queue, fun u hc => h.unlocking u (hu u hc)⟩

/-- An unlock gives up the hold that the fields say it gives up. -/
theorem Safe.unlocked {s : State τ} (h : Safe s) {t : τ} {rw : Lock τ} {k : Wake}
    (hpc : s.pc t = .unlock) (hu : unlock s.rw = some (rw, k)) :
    Safe { (s.dropHold t).goto t (.out 0) with rw := rw } := by
  have hold := h.unlocking t hpc
  have hr := h.reads
  have hq := h.queue
  have ht := tally_update queued s.pc t (.out 0)
  have hrd := total_update s.reads t (s.reads t - 1)
  have hle := le_total s.reads t
  have hqueue : s.rw.writersQueued = tally queued (Function.update s.pc t (.out 0)) := by
    simp only [hpc, queued, Bool.toNat_false] at ht
    omega
  have hother : ∀ u, Function.update s.pc t (.out 0) u = .unlock → u ≠ t ∧ 0 < s.reads u + s.writes u := by
    intro u hu'
    by_cases he : u = t
    · subst u; simp at hu'
    · exact ⟨he, h.unlocking u (by simpa [he] using hu')⟩
  by_cases hw : s.rw.writer = none
  · -- a read hold: nobody writes, so the caller has no write hold to give up
    have hz : ∀ u, s.writes u = 0 := fun u => by simpa [hw] using h.writes u
    have hrw : rw.writer = none ∧ rw.readers = s.rw.readers - 1 ∧
        rw.writersQueued = s.rw.writersQueued := by
      rcases unlock_cases hu with ⟨hn, -⟩ | ⟨hn, -⟩ | ⟨-, -, -, rfl⟩ | ⟨-, -, -, rfl⟩
      · exact absurd hw hn
      · exact absurd hw hn
      · exact ⟨hw, rfl, rfl⟩
      · exact ⟨hw, rfl, rfl⟩
    have hz' := hz t
    refine ⟨?_, ?_, ?_, ?_, ?_⟩
    · intro u
      simp [State.dropHold, State.goto, hz, hrw.1]
    · simp only [State.dropHold, State.goto, hz', lt_self_iff_false, if_false, hrw.2.1]
      omega
    · exact fun hn => absurd hrw.1 hn
    · simpa [State.dropHold, State.goto, hz', hrw.2.2] using hqueue
    · intro u hu'
      simp only [State.dropHold, State.goto, hz', lt_self_iff_false, if_false] at hu' ⊢
      have := hother u hu'
      simpa [this.1] using this.2
  · -- the write hold: with a writer nobody reads, so the caller is the writer
    have hno := h.apart hw
    have hzero := (total_eq_zero_iff _).mp hno
    have hzt := hzero t
    have hself := h.writer_of_writes (t := t) (by omega)
    have hone : 0 < s.writes t := by omega
    have hrw : rw.writer = none ∧ rw.readers = s.rw.readers ∧
        rw.writersQueued = s.rw.writersQueued := by
      rcases unlock_cases hu with ⟨-, -, -, rfl⟩ | ⟨-, -, -, rfl⟩ | ⟨hn, -⟩ | ⟨hn, -⟩
      · exact ⟨rfl, rfl, rfl⟩
      · exact ⟨rfl, rfl, rfl⟩
      · exact absurd hn hw
      · exact absurd hn hw
    refine ⟨?_, ?_, ?_, ?_, ?_⟩
    · intro u
      have hu' := h.writes u
      by_cases he : u = t
      · subst u
        simp [State.dropHold, State.goto, hrw.1, hu', hself]
      · simp [State.dropHold, State.goto, hone, hrw.1, he, hu', hself, Ne.symm he]
    · simpa [State.dropHold, State.goto, hone, hrw.2.1] using hr
    · exact fun hn => absurd hrw.1 hn
    · simpa [State.dropHold, State.goto, hone, hrw.2.2] using hqueue
    · intro u hu'
      simp only [State.dropHold, State.goto, hone, if_true] at hu' ⊢
      have := hother u hu'
      simpa [this.1] using this.2

theorem safe_start : Safe (State.start : State τ) := by
  constructor <;> simp [State.start, total, tally, queued]

/-- One step of threads that unlock only what they hold keeps the invariant. -/
theorem safe_step {s s' : State τ} {a : Action τ} (h : Safe s) (ha : Disciplined s a)
    (hs : Stepped s a s') : Safe s' := by
  cases hs with
  | @call t f st hpc =>
    apply h.goto
    · cases f <;> simp [Call.entry, queued, hpc]
    · intro hf
      exact ha (by cases f <;> simp_all [Call.entry])
  | readAcquired hpc hfree =>
    exact h.readAcquired hfree.1 (by rcases hpc with hpc | hpc <;> simp [hpc, queued])
  | readBlocked hpc hbusy => exact h.goto (by simp [hpc, queued]) (by simp)
  | writeAcquired hpc hfree => exact h.addWrite hfree (by simp [hpc, queued])
  | @writeBlocked t w q hpc hbusy =>
    have ht := tally_update queued s.pc t (.wrWait s.rw.wrFutex s.wrBumps)
    have hq := h.queue
    refine ⟨h.writes, h.reads, h.apart, ?_, ?_⟩
    · simp only [State.goto]
      simp only [hpc, queued, Bool.toNat_true] at ht
      cases q <;> simp at ht ⊢ <;> omega
    · intro u hu
      by_cases he : u = t
      · subst u; simp [State.goto] at hu
      · exact h.unlocking u (by simpa [State.goto, he] using hu)
  | tryWriteAcquired hpc hfree => exact h.addWrite hfree (by simp [hpc, queued])
  | tryFailed hpc => exact h.goto (by rcases hpc with hpc | hpc <;> simp [hpc, queued]) (by simp)
  | unlocked hpc hu hw => exact (h.unlocked hpc hu).wake hw
  | readSlept hpc hv => exact h.goto (by simp [hpc, queued]) (by simp)
  | readRetried hpc hv => exact h.goto (by simp [hpc, queued]) (by simp)
  | writeSlept hpc hv => exact h.goto (by simp [hpc, queued]) (by simp)
  | writeRetried hpc hv => exact h.goto (by simp [hpc, queued]) (by simp)
  | readInterrupted hpc => exact h.goto (by simp [hpc, queued]) (by simp)
  | writeInterrupted hpc => exact h.goto (by simp [hpc, queued]) (by simp)

/-- Read holds are counted, and read and write holds exclude each other, at every step. -/
theorem reaches_safe {s : State τ} (h : Reaches Initial step Disciplined s) : Safe s :=
  h.invariant (fun _ h₀ => h₀ ▸ safe_start) fun _ _ _ _ hi ha hs => safe_step hi ha (step_stepped hs)

/-- The only steps that add a read hold are sections that find no writer and no queue. -/
theorem read_acquired {s s' : State τ} {a : Action τ} {t : τ} (hs : Stepped s a s')
    (hr : s.reads t < s'.reads t) : s.rw.writersQueued = 0 := by
  have wake_reads : ∀ (r r' : State τ) (w : Option τ) (k : Wake), r.wake w k = some r' →
      r'.reads = r.reads := by
    intro r r' w k hw
    cases k with
    | nobody => cases hw; rfl
    | oneWriter => obtain ⟨pc, -, he⟩ := Option.map_eq_some_iff.mp hw; rw [← he]
    | allReaders => cases hw; rfl
  cases hs with
  | readAcquired hpc hfree => exact hfree.2
  | @unlocked u w rw k s' hpc hu hw =>
    rw [wake_reads _ _ _ _ hw] at hr
    simp only [State.goto, State.dropHold] at hr
    split at hr
    · exact absurd hr (lt_irrefl _)
    · by_cases he : t = u
      · subst t
        simp only [Function.update_self] at hr
        omega
      · simp [he] at hr
  | _ => exact absurd hr (lt_irrefl _)

/-- Threads that unlock only what they hold: `writer` names the one thread with the write
hold, `readers` counts the read holds, the two kinds exclude each other, `writersQueued`
counts the writers that entered and did not acquire, and no reader passes a queue. -/
theorem rwlock_safety {s : State τ} (h : Reaches Initial step Disciplined s) :
    (s.rw.writer ≠ none ↔ ∃! t, 0 < s.writes t) ∧
    (∀ t, s.rw.writer = some t ↔ s.writes t = 1) ∧ (∀ t, s.writes t ≤ 1) ∧
    s.rw.readers = total s.reads ∧ ¬ (s.rw.writer ≠ none ∧ 0 < s.rw.readers) ∧
    s.rw.writersQueued = tally queued s.pc ∧
    ∀ a s' t, step s a = some s' → s.reads t < s'.reads t → s.rw.writersQueued = 0 := by
  have hi := reaches_safe h
  refine ⟨?_, ?_, ?_, hi.reads, ?_, hi.queue, fun a s' t hs => read_acquired (step_stepped hs)⟩
  · constructor
    · intro hw
      obtain ⟨t, ht⟩ := Option.ne_none_iff_exists'.mp hw
      refine ⟨t, by simp [hi.writes, ht], ?_⟩
      intro u hu
      have hu' := hi.writer_of_writes hu
      simpa [ht, eq_comm] using hu'
    · rintro ⟨t, ht, -⟩
      simp [hi.writer_of_writes ht]
  · intro t
    rw [hi.writes t]
    split <;> simp_all
  · intro t
    rw [hi.writes t]
    split <;> omega
  · rintro ⟨hw, hr⟩
    have := hi.apart hw
    have := hi.reads
    omega

/-- A writer queues behind a reader, sleeps, is woken by the reader's unlock and acquires. -/
def handover (t u : τ) : List (Action τ) :=
  [.call t .rdlock, .enter t none, .call u .wrlock, .enter u none, .wait u, .call t .unlock, .enter t (some u),
    .enter u none]

theorem rwlock_safety_handover : ∃ s : State (Fin 2), s.rw.writer = some 1 ∧ (∃! t, 0 < s.writes t) ∧
    s.rw.readers = total s.reads ∧ s.rw.writersQueued = tally queued s.pc := by
  obtain ⟨s, hr, hw⟩ : ∃ s : State (Fin 2), Reaches Initial step Disciplined s ∧ s.rw.writer = some 1 :=
    ⟨_, Reaches.run_get (show Initial State.start from rfl)
      (show (run step Disciplined (handover (0 : Fin 2) 1) State.start).isSome from by decide), by decide⟩
  have h := rwlock_safety hr
  exact ⟨s, hw, h.1.mp (by simp [hw]), h.2.2.2.1, h.2.2.2.2.2.1⟩

end ThreadBites.Rwlock

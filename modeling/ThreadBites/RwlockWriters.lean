import ThreadBites.RwlockWakeups

/-!
# Readers do not starve a writer

A queued writer turns arriving readers away, and they sleep until a writer has had
the lock. So there is only so much left to do before one has it: the readers inside
leave, and the writer that the last of them wakes, or another one, finds the lock
free.
-/
namespace ThreadBites.Rwlock

open Transition Tally WaitQueue

variable {τ : Type}

/-- Threads that hold the lock unlock it next, and others do not unlock. -/
def Single (s : State τ) : Action τ → Prop
  | .call t f => 0 < s.reads t + s.writes t ↔ f = .unlock
  | _ => True

def Orderly (s : State τ) (a : Action τ) : Prop := Single s a ∧ Prompt s a

instance (s : State τ) : (a : Action τ) → Decidable (Single s a)
  | .call _ _ => inferInstanceAs (Decidable (_ ↔ _))
  | .enter _ _ => isTrue trivial
  | .wait _ => isTrue trivial
  | .interrupt _ => isTrue trivial

instance (s : State τ) (a : Action τ) : Decidable (Orderly s a) := inferInstanceAs (Decidable (_ ∧ _))

theorem Single.disciplined {s : State τ} {a : Action τ} (h : Single s a) : Disciplined s a := by
  cases a with
  | call t f => exact h.mpr
  | _ => trivial

/-- Where a thread may be that holds the lock. -/
def resting : Pc → Bool
  | .out _ | .unlock => true
  | _ => false

/-- No thread holds the lock twice, or waits for it while it holds it. -/
structure OneHold (s : State τ) : Prop where
  rests : ∀ t, 0 < s.reads t + s.writes t → resting (s.pc t) = true
  reads : ∀ t, s.reads t ≤ 1

/-- A thread that waits for the lock, or tries it, has no hold. -/
theorem OneHold.none {s : State τ} (h : OneHold s) {t : τ} (hc : resting (s.pc t) = false) :
    s.reads t = 0 ∧ s.writes t = 0 := by
  have hn : ¬0 < s.reads t + s.writes t := fun hp => by
    rw [h.rests t hp] at hc
    cases hc
  omega

variable [DecidableEq τ]

/-- One thread goes to a place where it may hold what it holds. -/
theorem OneHold.goto {s : State τ} (h : OneHold s) {t : τ} {c : Pc}
    (hc : 0 < s.reads t + s.writes t → resting c = true) : OneHold (s.goto t c) where
  rests u hu := by
    by_cases he : u = t
    · subst u
      simpa [State.goto] using hc hu
    · simpa [State.goto, he] using h.rests u hu
  reads := h.reads

variable [Fintype τ]

/-- What a wake leaves as it is. -/
theorem wake_spec {s s' : State τ} {w : Option τ} {k : Wake} (h : s.wake w k = some s') :
    s'.rw = s.rw ∧ s'.reads = s.reads ∧ s'.writes = s.writes ∧ s'.wrBumps ≤ s.wrBumps + 1 ∧
      ∀ u, resting (s.pc u) = true → s'.pc u = s.pc u := by
  have hrests : ∀ {asleep : Pc → Bool} {resume : Pc → Pc} {pc : τ → Pc}, (∀ c, asleep c = true → resting c = false) →
      Woken asleep resume s.pc pc → ∀ u, resting (s.pc u) = true → pc u = s.pc u := by
    intro asleep resume pc hasleep hw u hu
    refine hw.of_not_asleep ?_
    by_contra hn
    rw [hasleep _ (by simpa using hn)] at hu
    cases hu
  cases k with
  | nobody =>
    cases h
    exact ⟨rfl, rfl, rfl, Nat.le_succ _, fun _ _ => rfl⟩
  | oneWriter =>
    obtain ⟨pc, hpc, rfl⟩ := Option.map_eq_some_iff.mp h
    exact ⟨rfl, rfl, rfl, le_rfl, hrests (fun c hc => by cases c <;> first | rfl | cases hc) (wakeOne_woken hpc)⟩
  | allReaders =>
    cases h
    exact ⟨rfl, rfl, rfl, Nat.le_succ _,
      hrests (fun c hc => by cases c <;> first | rfl | cases hc) (wakeAll_woken rdAsleep (fun _ => .rdlock) s.pc)⟩

omit [Fintype τ] in
/-- Whoever waits for the lock goes anywhere without it. -/
theorem OneHold.pass {s : State τ} (h : OneHold s) {t : τ} {c : Pc} (hc : resting (s.pc t) = false) :
    OneHold (s.goto t c) :=
  h.goto fun hp => absurd (h.none hc) (by omega)

omit [DecidableEq τ] [Fintype τ] in
/-- One thread is out of its call, with what holds it may have. -/
theorem OneHold.left {s s' : State τ} (h : OneHold s) {t : τ} (hpc : s'.pc t = .out 0) (hone : s'.reads t ≤ 1)
    (hother : ∀ u, u ≠ t → s'.pc u = s.pc u ∧ s'.reads u = s.reads u ∧ s'.writes u = s.writes u) : OneHold s' where
  rests u hu := by
    by_cases he : u = t
    · subst u
      rw [hpc]
      rfl
    · obtain ⟨hpc', hreads, hwrites⟩ := hother u he
      rw [hpc']
      exact h.rests u (by omega)
  reads u := by
    by_cases he : u = t
    · subst u
      exact hone
    · rw [(hother u he).2.1]
      exact h.reads u

omit [Fintype τ] in
/-- What an unlock gives up, and what it leaves to the others. -/
theorem dropHold_spec (s : State τ) (t : τ) : (s.dropHold t).pc = s.pc ∧ (s.dropHold t).wrBumps = s.wrBumps ∧
    (s.dropHold t).reads t ≤ s.reads t ∧
    ∀ u, u ≠ t → (s.dropHold t).reads u = s.reads u ∧ (s.dropHold t).writes u = s.writes u := by
  unfold State.dropHold
  split <;> exact ⟨rfl, rfl, by simp, fun u hu => by simp [hu]⟩

theorem oneHold_step {s s' : State τ} {a : Action τ} (h : OneHold s) (ha : Single s a) (hs : Stepped s a s') :
    OneHold s' := by
  cases hs with
  | @call t f st hpc =>
    refine h.goto fun hp => ?_
    rw [ha.mp hp]
    rfl
  | @readAcquired t w hpc hfree =>
    have hnone := h.none (t := t) (by rcases hpc with hpc | hpc <;> rw [hpc] <;> rfl)
    exact h.left (t := t) (by simp [State.goto]) (by simp [State.goto, State.addRead, hnone.1])
      fun u hu => by simp [State.goto, State.addRead, hu]
  | @writeAcquired t w q hpc hfree =>
    exact h.left (t := t) (by simp [State.goto]) (h.reads t) fun u hu => by simp [State.goto, State.addWrite, hu]
  | @tryWriteAcquired t w hpc hfree =>
    exact h.left (t := t) (by simp [State.goto]) (h.reads t) fun u hu => by simp [State.goto, State.addWrite, hu]
  | @unlocked t w rw k s' hpc hu hw =>
    obtain ⟨-, hreads, hwrites, -, hpc'⟩ := wake_spec hw
    obtain ⟨hdrop, -, hle, hother⟩ := dropHold_spec s t
    have hleft : OneHold { (s.dropHold t).goto t (.out 0) with rw := rw } :=
      h.left (t := t) (by simp [State.goto]) (hle.trans (h.reads t))
        fun u hu => by simpa [State.goto, hu, hdrop] using hother u hu
    refine ⟨fun u hp => ?_, fun u => hreads ▸ hleft.reads u⟩
    rw [hreads, hwrites] at hp
    rw [hpc' u (hleft.rests u hp)]
    exact hleft.rests u hp
  | @writeBlocked t w q hpc hbusy =>
    have hl : OneHold { s with rw := { s.rw with writersQueued := s.rw.writersQueued + (!q).toNat } } :=
      ⟨h.rests, h.reads⟩
    exact hl.pass (by simp only [hpc]; rfl)
  | tryFailed hpc => exact h.goto fun _ => rfl
  | readBlocked hpc => exact h.pass (by rw [hpc]; rfl)
  | readSlept hpc => exact h.pass (by rw [hpc]; rfl)
  | readRetried hpc => exact h.pass (by rw [hpc]; rfl)
  | writeSlept hpc => exact h.pass (by rw [hpc]; rfl)
  | writeRetried hpc => exact h.pass (by rw [hpc]; rfl)
  | readInterrupted hpc => exact h.pass (by rw [hpc]; rfl)
  | writeInterrupted hpc => exact h.pass (by rw [hpc]; rfl)

theorem reaches_oneHold {s : State τ} (h : Reaches Initial step Orderly s) : OneHold s :=
  h.invariant (fun s h₀ => by
    obtain rfl : s = State.start := h₀
    exact ⟨fun t ht => by simp [State.start] at ht, fun t => by simp [State.start]⟩)
    fun _ _ _ _ hi ha hs => oneHold_step hi ha.1 (step_stepped hs)

/-- Calls of `rdlock`, `wrlock` and `unlock`, and the steps in them; no `FUTEX_WAIT` returns by itself. -/
def Arriving (s : State τ) (a : Action τ) : Prop :=
  Orderly s a ∧ match a with
    | .call _ f => f ≠ .tryrdlock ∧ f ≠ .trywrlock
    | .interrupt _ => False
    | _ => True

/-- How many steps a thread may make before a writer has the lock, while the words stay as they are. -/
def rank (rw : Lock τ) (hold : Nat) : Pc → Nat
  | .out _ => if hold = 0 then 5 else 7
  | .unlock | .tryrdlock | .trywrlock => 6
  | .rdlock | .wrlock _ => 3
  | .rdWait v _ => if rw.rdFutex = v then 2 else 4
  | .wrWait v _ => if rw.wrFutex = v then 2 else 4
  | .rdAsleep | .wrAsleep => 1

omit [Fintype τ] [DecidableEq τ] in
theorem rank_le (rw : Lock τ) (hold : Nat) (c : Pc) : rank rw hold c ≤ 7 := by
  cases c <;> simp only [rank] <;> first | omega | split <;> omega

/-- What is left to all threads. -/
def ranks (s : State τ) : Nat := total fun t => rank s.rw (s.reads t) (s.pc t)

/-- The readers inside count for more than whatever else is left. -/
def toWriter (s : State τ) : Nat :=
  if s.rw.writer = none then total s.reads * (7 * Fintype.card τ + 1) + ranks s + 1 else 0

omit [DecidableEq τ] in
theorem ranks_le (s : State τ) : ranks s ≤ 7 * Fintype.card τ := total_le_card _ fun _ => rank_le ..

omit [DecidableEq τ] in
/-- A step that leaves the words and the holds as they are, and takes one thread further. -/
theorem toWriter_lt {s s' : State τ} {t : τ} (hfree : s.rw.writer = none) (hrd : s'.rw.rdFutex = s.rw.rdFutex)
    (hwr : s'.rw.wrFutex = s.rw.wrFutex) (hreads : s'.reads = s.reads) (hother : ∀ u, u ≠ t → s'.pc u = s.pc u)
    (hlt : rank s.rw (s.reads t) (s'.pc t) < rank s.rw (s.reads t) (s.pc t)) : toWriter s' < toWriter s := by
  have hsame : ∀ n c, rank s'.rw n c = rank s.rw n c := by
    intro n c
    cases c <;> simp only [rank, hrd, hwr]
  have hranks : ranks s' < ranks s := by
    refine total_lt_total (t := t) (fun u hu => ?_) ?_
    · rw [hsame, hreads, hother u hu]
    · rw [hsame, hreads]
      exact hlt
  simp only [toWriter, if_pos hfree, hreads]
  split <;> omega

/-- While no writer has the lock some are queued, and the futex word of the writers has not come round. -/
structure Waiting (s : State τ) : Prop where
  safe : Safe s
  wakeful : Wakeful s
  one : OneHold s
  queue : s.rw.writer = none → 0 < s.rw.writersQueued
  bumps : s.rw.writer = none → s.wrBumps + (if s.rw.readers = 0 then 0 else 1) < 2 ^ 32

/-- A reader leaves: there is one less of those that count most. -/
theorem toWriter_unlocked {s s' : State τ} (h : Waiting s) (hfree : s.rw.writer = none) {t : τ} {w : Option τ}
    {rw : Lock τ} {k : Wake} (hpc : s.pc t = .unlock) (hu : unlock s.rw = some (rw, k))
    (hw : { (s.dropHold t).goto t (.out 0) with rw := rw }.wake w k = some s') :
    toWriter s' < toWriter s ∧ 0 < s'.rw.writersQueued ∧
      s'.wrBumps + (if s'.rw.readers = 0 then 0 else 1) < 2 ^ 32 := by
  have hwrites : s.writes t = 0 := by simpa [hfree] using h.safe.writes t
  have hhold := h.safe.unlocking t hpc
  have hdrop : s.dropHold t = { s with reads := Function.update s.reads t (s.reads t - 1) } := by
    simp [State.dropHold, hwrites]
  obtain ⟨hrw, hreads, -, hbumps, -⟩ := wake_spec hw
  have htotal := total_update s.reads t (s.reads t - 1)
  have hcount := h.safe.reads
  have hle := le_total s.reads t
  have hqueue := h.queue hfree
  have hbound := h.bumps hfree
  rw [if_neg (by omega)] at hbound
  have hfewer : total s'.reads + 1 = total s.reads := by
    rw [hreads, hdrop]
    simp only [State.goto]
    omega
  have hless : toWriter s' < toWriter s := by
    have hranks := ranks_le s'
    simp only [toWriter, if_pos hfree, ← hfewer, Nat.add_mul, Nat.one_mul]
    split <;> omega
  have hrest : rw.writersQueued = s.rw.writersQueued ∧
      (k = .oneWriter ∧ rw.readers = 0 ∨ k = .nobody) := by
    rcases unlock_cases hu with ⟨hn, -⟩ | ⟨hn, -⟩ | ⟨-, ⟨hr, -⟩, hk, rfl⟩ | ⟨-, -, hk, rfl⟩
    · exact absurd hfree hn
    · exact absurd hfree hn
    · exact ⟨rfl, .inl ⟨hk, by simp only; omega⟩⟩
    · exact ⟨rfl, .inr hk⟩
  refine ⟨hless, ?_, ?_⟩
  · rw [hrw]
    exact hrest.1 ▸ hqueue
  · rw [hrw]
    rcases hrest.2 with ⟨-, hr⟩ | rfl
    · simp only [hr, if_true]
      rw [hdrop] at hbumps
      simp only [State.goto] at hbumps
      omega
    · cases hw
      rw [hdrop]
      simp only [State.goto]
      split <;> omega

/-- A step while writers are queued and none has the lock: one gets it, or there is less left to do. -/
theorem Waiting.step {s s' : State τ} (h : Waiting s) (hfree : s.rw.writer = none) {a : Action τ} (ha : Arriving s a)
    (hs : Stepped s a s') : Waiting s' ∧ toWriter s' < toWriter s := by
  have hqueue := h.queue hfree
  have hbound := h.bumps hfree
  have hsafe := safe_step h.safe ha.1.1.disciplined hs
  have hwakeful := wakeful_step h.safe h.wakeful ha.1.2 hs
  have hone := oneHold_step h.one ha.1.1 hs
  have hwaiting : ∀ {t : τ}, resting (s.pc t) = false → s.reads t = 0 := fun hc => (h.one.none hc).1
  -- a step that takes one thread further and leaves the lock as it is
  have hgoes : ∀ {t : τ} {c : Pc}, s' = s.goto t c → rank s.rw (s.reads t) c < rank s.rw (s.reads t) (s.pc t) →
      Waiting s' ∧ toWriter s' < toWriter s := by
    intro t c he hlt
    subst he
    exact ⟨⟨hsafe, hwakeful, hone, h.queue, h.bumps⟩, toWriter_lt (t := t) hfree rfl rfl rfl
      (fun u hu => by simp [State.goto, hu]) (by simpa [State.goto] using hlt)⟩
  have htaken : s'.rw.writer ≠ none → Waiting s' ∧ toWriter s' < toWriter s := by
    intro hw
    refine ⟨⟨hsafe, hwakeful, hone, fun hn => absurd hn hw, fun hn => absurd hn hw⟩, ?_⟩
    simp only [toWriter, if_neg hw, if_pos hfree]
    omega
  cases hs with
  | @call t f st hpc =>
    refine hgoes rfl ?_
    rw [hpc]
    have hsingle : 0 < s.reads t + s.writes t ↔ f = .unlock := ha.1.1
    have hwrites : s.writes t = 0 := by simpa [hfree] using h.safe.writes t
    by_cases hf : f = .unlock
    · subst hf
      have hr : s.reads t ≠ 0 := by
        have := hsingle.mpr rfl
        omega
      simp [rank, Call.entry, hr]
    · have hr : s.reads t = 0 := by
        by_contra hn
        exact hf (hsingle.mp (by omega))
      cases f with
      | unlock => exact absurd rfl hf
      | tryrdlock => exact absurd rfl ha.2.1
      | trywrlock => exact absurd rfl ha.2.2
      | _ => simp [rank, Call.entry, hr]
  | readAcquired hpc hread => exact absurd hread.2 (by omega)
  | readBlocked hpc => exact hgoes rfl (by simp [rank, hpc])
  | writeAcquired hpc hwrite => exact htaken (by simp [State.goto, State.addWrite])
  | tryWriteAcquired hpc hwrite => exact htaken (by simp [State.goto, State.addWrite])
  | @writeBlocked t w q hpc hbusy =>
    refine ⟨⟨hsafe, hwakeful, hone, fun _ => ?_, fun _ => h.bumps hfree⟩, ?_⟩
    · simp only [State.goto]
      omega
    · exact toWriter_lt (t := t) hfree rfl rfl rfl (fun u hu => by simp [State.goto, hu])
        (by simp [State.goto, rank, hpc])
  | @tryFailed t w hpc =>
    refine hgoes rfl ?_
    have hr : s.reads t = 0 := hwaiting (by rcases hpc with hpc | hpc <;> rw [hpc] <;> rfl)
    rcases hpc with hpc | hpc <;> simp [rank, hpc, hr]
  | unlocked hpc hu hw =>
    obtain ⟨hless, hq, hb⟩ := toWriter_unlocked h hfree hpc hu hw
    exact ⟨⟨hsafe, hwakeful, hone, fun _ => hq, fun _ => hb⟩, hless⟩
  | readSlept hpc hv => exact hgoes rfl (by simp [rank, hpc, hv])
  | readRetried hpc hv => exact hgoes rfl (by simp [rank, hpc, hv])
  | writeSlept hpc hv => exact hgoes rfl (by simp [rank, hpc, hv])
  | writeRetried hpc hv => exact hgoes rfl (by simp [rank, hpc, hv])
  | readInterrupted hpc => exact ha.2.elim
  | writeInterrupted hpc => exact ha.2.elim

/-- A thread that reads can unlock, or is doing so. -/
theorem Waiting.unlocks {s : State τ} (h : Waiting s) (hfree : s.rw.writer = none) {t : τ} (ht : 0 < s.reads t) :
    ∃ a s', Arriving s a ∧ Rwlock.step s a = some s' := by
  have hrests := h.one.rests t (by omega)
  cases hpc : s.pc t with
  | out st =>
    refine ⟨.call t .unlock, s.goto t .unlock, ⟨⟨⟨fun _ => rfl, fun _ => by omega⟩, trivial⟩, by simp⟩, ?_⟩
    simp only [Rwlock.step, hpc, Call.entry]
  | unlock =>
    have hcount := h.safe.reads
    have hle := le_total s.reads t
    have hdecr : decr s.rw.readers = some (s.rw.readers - 1) := if_pos (by omega)
    obtain ⟨rw, k, hu⟩ : ∃ rw k, unlock s.rw = some (rw, k) := by
      simp only [unlock, hfree, ne_eq, not_true_eq_false, if_false, hdecr, Option.map_some]
      split <;> exact ⟨_, _, rfl⟩
    obtain ⟨woken, s', hw⟩ :
        ∃ woken s', { (s.dropHold t).goto t (.out 0) with rw := rw }.wake woken k = some s' := by
      cases k with
      | nobody => exact ⟨none, _, rfl⟩
      | allReaders => exact ⟨none, _, rfl⟩
      | oneWriter =>
        obtain ⟨woken, pc, hpc⟩ :=
          wakeOne_possible wrAsleep (fun _ => .wrlock true) ((s.dropHold t).goto t (.out 0)).pc
        exact ⟨woken, _, by simp only [State.wake, hpc, Option.map_some]; rfl⟩
    refine ⟨.enter t woken, s', ⟨⟨trivial, trivial⟩, trivial⟩, ?_⟩
    simp only [Rwlock.step, enter, hpc, hu, Option.bind_some, hw]
  | _ => rw [hpc] at hrests; cases hrests

/-- A queued writer that is awake can take the free lock, or look at its futex word. -/
theorem Waiting.takes {s : State τ} (h : Waiting s) (hfree : s.rw.writer = none) (hread : s.rw.readers = 0) :
    ∃ a s', Arriving s a ∧ Rwlock.step s a = some s' := by
  obtain ⟨t, ht⟩ := h.wakeful.writer ⟨hfree, hread⟩ (h.queue hfree)
  cases hpc : s.pc t with
  | wrlock q =>
    have hqueue := h.queue hfree
    have hdecr : decr s.rw.writersQueued = some (s.rw.writersQueued - 1) := if_pos (by omega)
    rw [hpc] at ht
    obtain rfl : q = true := ht
    have hstep : (Rwlock.step s (.enter t none)).isSome := by
      simp [Rwlock.step, enter, hpc, wrlock, hfree, hread, hdecr]
    exact ⟨.enter t none, _, ⟨⟨trivial, trivial⟩, trivial⟩, (Option.some_get hstep).symm⟩
  | wrWait v n =>
    have hbound := h.bumps hfree
    have hstep : (Rwlock.step s (.wait t)).isSome := by simp [Rwlock.step, hpc]
    refine ⟨.wait t, _, ⟨⟨trivial, ?_⟩, trivial⟩, (Option.some_get hstep).symm⟩
    simp only [Prompt, State.bumpsSince, hpc]
    omega
  | _ => simp [hpc, alert] at ht

/-- A queued writer, or another, has the lock in the end, whatever calls of `rdlock`, `wrlock` and `unlock`
are made meanwhile, by any number of readers and at any time. -/
theorem rwlock_writer_not_starved {s : State τ} (h : Reaches Initial step Orderly s) (hq : 0 < s.rw.writersQueued)
    (hb : s.wrBumps + 1 < 2 ^ 32) : Inevitable step Arriving (fun s => s.rw.writer ≠ none) s := by
  have hwaiting : Waiting s := by
    refine ⟨reaches_safe (h.weaken fun _ _ ha => ha.1.disciplined),
      reaches_wakeful (h.weaken fun _ _ ha => ⟨ha.1.disciplined, ha.2⟩), reaches_oneHold h, fun _ => hq, fun _ => ?_⟩
    split <;> omega
  refine Inevitable.of_measure (I := Waiting) toWriter (fun s hs hw => ?_) (fun s a s' hs hw ha hstep => ?_) hwaiting
  · have hfree : s.rw.writer = none := by simpa using hw
    by_cases hread : total s.reads = 0
    · exact hs.takes hfree (by rw [hs.safe.reads, hread]; rfl)
    · obtain ⟨t, ht⟩ : ∃ t, 0 < s.reads t := by
        by_contra hn
        exact hread ((total_eq_zero_iff _).mpr fun t => by simpa using (not_exists.mp hn) t)
      exact hs.unlocks hfree ht
  · exact hs.step (by simpa using hw) ha (step_stepped hstep)

/-- A reader is in, a writer queues and sleeps, and another reader is turned away and sleeps. -/
def queuedBehind (t u v : τ) : List (Action τ) :=
  [.call t .rdlock, .enter t none, .call u .wrlock, .enter u none, .wait u, .call v .rdlock, .enter v none, .wait v]

theorem rwlock_writer_not_starved_asleep : ∃ s : State (Fin 3), s.rw.readers = 1 ∧ s.pc 1 = .wrAsleep ∧
    s.pc 2 = .rdAsleep ∧ Inevitable step Arriving (fun s => s.rw.writer ≠ none) s := by
  have hr := Reaches.run_get (show Initial (State.start : State (Fin 3)) from rfl)
    (show (run step Orderly (queuedBehind 0 1 2) State.start).isSome from by decide)
  exact ⟨_, by decide, by decide, by decide, rwlock_writer_not_starved hr (by decide) (by decide)⟩

end ThreadBites.Rwlock

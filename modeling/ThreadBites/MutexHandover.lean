import ThreadBites.Mutex

/-!
# A free mutex is handed over

Nothing is asked of the callers here: unlocks of threads that do not hold the
mutex, and recursive mutexes of every protocol, are runs as well. While the futex
word is 0, every access leads a thread closer to the end of its call, and whoever
looks at the word again takes it.
-/
namespace ThreadBites.Mutex

open Transition Tally WaitQueue
open FutexLock (compareAndSwap)

variable {τ : Type}

/-- Awake in one of the two loops that wait for the futex word. -/
def contends : Pc → Bool
  | .futexCas | .futexWait | .inheritLock | .inheritWait => true
  | _ => false

/-- In one of the loops, awake or not. -/
def waits (c : Pc) : Bool := asleep c || contends c

/-- About to wake a sleeper, or awake in a loop. -/
def attends (c : Pc) : Bool := c = .futexWake || contends c

/-- How many accesses a thread may make before the word is taken, or it has left its call. -/
def left : Pc → Nat
  | .idle | .returned _ _ => 0
  | .futexCas | .inheritLock | .trylockCas | .inheritTrylock | .futexWake | .inheritUnlock => 1
  | .writeCounter _ _ | .resetCounter => 1
  | .futexWait | .asleep | .inheritWait | .inheritAsleep | .readCounter _ | .retakeOwner | .unlockCas => 2
  | .checkCounter _ | .clearOwner => 3
  | .takeOwner | .recheckOwner | .protectUnsched => 4
  | .lockOwner | .trylockOwner | .protectSched _ | .dropOwner | .unlockFutex => 5
  | .setOwner _ | .checkDown => 6
  | .writeDown _ => 7
  | .readDown => 8
  | .unlockOwner => 9

theorem left_protoEntry (p : Protocol) (f : Op) : left (protoEntry p f) ≤ 4 := by
  cases p <;> cases f <;> decide

theorem left_afterProto (k : Kind) (f : Op) (ret : Int) : left (afterProto k f ret) ≤ 4 := by
  cases k <;> cases f <;> simp only [afterProto] <;> try split
  all_goals simp [left]

theorem asleep_protoEntry (p : Protocol) (f : Op) : asleep (protoEntry p f) = false := by
  cases p <;> cases f <;> rfl

theorem asleep_afterProto (k : Kind) (f : Op) (ret : Int) : asleep (afterProto k f ret) = false := by
  cases k <;> cases f <;> simp only [afterProto] <;> try split
  all_goals rfl

theorem left_afterProto_unlock (k : Kind) : left (afterProto k .unlock 0) = 0 := by
  cases k <;> rfl

theorem resume_spec {c : Pc} (h : asleep c = true) : contends (resume c) = true ∧ left (resume c) < left c := by
  cases c <;> first | exact ⟨rfl, by decide⟩ | cases h

variable [DecidableEq τ]

/-- What an access does to a word that is 0, and to the place of the thread where it leaves the word so. -/
theorem access_free {m m' : Fields τ} {t : τ} {c c' : Pc} (ha : access m t c = some (m', c')) (hw : m.futex = 0) :
    m'.futex = 1 ∨
      m'.futex = 0 ∧ left c' < left c ∧ asleep c' = false ∧ (contends c = true → contends c' = true) := by
  have hproto : ∀ p f, left (protoEntry p f) < 5 := fun p f => Nat.lt_succ_of_le (left_protoEntry p f)
  have hafter : ∀ k f ret, left (afterProto k f ret) < 5 := fun k f ret => Nat.lt_succ_of_le (left_afterProto k f ret)
  cases c with
  | idle | returned | asleep | inheritAsleep => cases ha
  | futexCas | trylockCas =>
    simp only [access, compareAndSwap, if_pos hw] at ha
    cases ha
    exact .inl rfl
  | inheritLock | inheritTrylock =>
    simp only [access, if_pos hw] at ha
    cases ha
    exact .inl rfl
  | futexWait | inheritWait =>
    cases ha
    rw [if_neg (by omega)]
    exact .inr ⟨hw, by decide, rfl, fun _ => rfl⟩
  | lockOwner =>
    cases ha
    refine .inr ⟨hw, ?_, ?_, by simp [contends]⟩ <;> split
    · split <;> decide
    · exact hproto ..
    · split <;> rfl
    · exact asleep_protoEntry ..
  | trylockOwner =>
    cases ha
    refine .inr ⟨hw, ?_, ?_, by simp [contends]⟩ <;> split
    · decide
    · exact hproto ..
    · rfl
    · exact asleep_protoEntry ..
  | unlockOwner =>
    cases ha
    refine .inr ⟨hw, ?_, ?_, by simp [contends]⟩ <;> split
    · split <;> decide
    · decide
    · split <;> rfl
    · rfl
  | unlockFutex =>
    cases ha
    rw [if_pos hw]
    exact .inr ⟨hw, by decide, rfl, by simp [contends]⟩
  | checkCounter | recheckOwner | checkDown =>
    cases ha
    refine .inr ⟨hw, ?_, ?_, by simp [contends]⟩ <;> split <;> first | rfl | simp [left]
  | takeOwner | readCounter | retakeOwner | resetCounter | writeCounter | readDown | writeDown | clearOwner =>
    cases ha
    exact .inr ⟨hw, by simp [left], rfl, by simp [contends]⟩
  | dropOwner =>
    cases ha
    exact .inr ⟨hw, hproto .., asleep_protoEntry .., by simp [contends]⟩
  | setOwner f =>
    cases ha
    refine .inr ⟨hw, ?_, ?_, by simp [contends]⟩ <;> split
    · simp [left]
    · exact (hafter ..).trans (by simp [left])
    · rfl
    · exact asleep_afterProto ..
  | protectSched f =>
    obtain ⟨o, -, he⟩ := Option.map_eq_some_iff.mp ha
    cases he
    exact .inr ⟨hw, hafter .., asleep_afterProto .., by simp [contends]⟩
  | protectUnsched =>
    obtain ⟨o, -, he⟩ := Option.map_eq_some_iff.mp ha
    cases he
    exact .inr ⟨hw, by decide, rfl, by simp [contends]⟩
  | unlockCas =>
    simp only [access, compareAndSwap, if_neg (show ¬m.futex = 1 by omega)] at ha
    cases ha
    exact .inr ⟨hw, by rw [left_afterProto_unlock]; decide, asleep_afterProto .., by simp [contends]⟩
  | futexWake =>
    cases ha
    exact .inr ⟨hw, by rw [left_afterProto_unlock]; decide, asleep_afterProto .., by simp [contends]⟩
  | inheritUnlock =>
    obtain ⟨o, -, he⟩ := Option.map_eq_some_iff.mp ha
    cases he
    exact .inr ⟨rfl, by rw [left_afterProto_unlock]; decide, asleep_afterProto .., by simp [contends]⟩

/-- The word goes from 1 to 0 where a wake is made next, or in the same step. -/
theorem access_taken {m m' : Fields τ} {t : τ} {c c' : Pc} (ha : access m t c = some (m', c')) (hw : m.futex = 1) :
    m'.futex = 1 ∨ m'.futex = 0 ∧ (c' = .futexWake ∨ wakes c = true) := by
  cases c with
  | idle | returned | asleep | inheritAsleep => cases ha
  | futexCas | trylockCas =>
    simp only [access, compareAndSwap, if_neg (show ¬m.futex = 0 by omega)] at ha
    cases ha
    exact .inl hw
  | inheritLock =>
    simp only [access, if_neg (show ¬m.futex = 0 by omega)] at ha
    obtain ⟨o, -, he⟩ := Option.map_eq_some_iff.mp ha
    cases he
    exact .inl hw
  | inheritTrylock =>
    simp only [access, if_neg (show ¬m.futex = 0 by omega)] at ha
    cases ha
    exact .inl hw
  | protectSched | protectUnsched =>
    obtain ⟨o, -, he⟩ := Option.map_eq_some_iff.mp ha
    cases he
    exact .inl hw
  | unlockCas =>
    simp only [access, compareAndSwap, if_pos hw] at ha
    cases ha
    exact .inr ⟨rfl, .inl rfl⟩
  | inheritUnlock =>
    obtain ⟨o, -, he⟩ := Option.map_eq_some_iff.mp ha
    cases he
    exact .inr ⟨rfl, .inr rfl⟩
  | _ => cases ha; exact .inl hw

/-- While the word is 0 and somebody sleeps, somebody is awake who will look at it, or who will wake a sleeper. -/
structure Attended (s : State τ) : Prop where
  word : s.mutex.futex = 0 ∨ s.mutex.futex = 1
  attended : s.mutex.futex = 0 → (∃ t, asleep (s.pc t) = true) → ∃ t, attends (s.pc t) = true

/-- A thread that attends has an access to make, whatever the mutex is like otherwise. -/
theorem attends_access {m : Fields τ} (t : τ) {c : Pc} (hw : m.futex = 0) (h : attends c = true) :
    ∃ r, access m t c = some r := by
  cases c with
  | futexCas =>
    refine ⟨({ m with futex := 1 }, .setOwner .lock), ?_⟩
    simp only [access, compareAndSwap, if_pos hw]
  | inheritLock => exact ⟨_, if_pos hw⟩
  | futexWait | futexWake | inheritWait => exact ⟨_, rfl⟩
  | _ => simp [attends, contends] at h

variable [Fintype τ]

/-- The two ways that an access is a step. -/
theorem step_next {s s' : State τ} {t : τ} {woken : Option τ} (h : step s (.next t woken) = some s') :
    ∃ m c, access s.mutex t (s.pc t) = some (m, c) ∧
      (wakes (s.pc t) = false ∧ s' = s.accessed t m c ∨
        wakes (s.pc t) = true ∧ ∃ pc, wakeOne asleep resume (s.accessed t m c).pc woken = some pc ∧
          s' = { s.accessed t m c with pc := pc }) := by
  obtain ⟨⟨m, c⟩, ha, h⟩ := Option.bind_eq_some_iff.mp h
  refine ⟨m, c, ha, ?_⟩
  simp only at h
  split at h
  · rename_i hwakes
    obtain ⟨pc, hpc, rfl⟩ := Option.map_eq_some_iff.mp h
    exact .inr ⟨hwakes, pc, hpc, rfl⟩
  · rename_i hwakes
    cases h
    exact .inl ⟨by simpa using hwakes, rfl⟩

theorem Attended.next {s s' : State τ} (h : Attended s) {t : τ} {woken : Option τ}
    (hs : step s (.next t woken) = some s') : Attended s' := by
  obtain ⟨m, c, ha, hs⟩ := step_next hs
  have hword : m.futex = 0 ∨ m.futex = 1 := by
    rcases h.word with hw | hw
    · exact (access_free ha hw).elim .inr fun hr => .inl hr.1
    · exact (access_taken ha hw).elim .inr fun hr => .inl hr.1
  rcases hs with ⟨hwakes, rfl⟩ | ⟨-, pc, hpc, rfl⟩
  · refine ⟨hword, fun hfree => ?_⟩
    rintro ⟨u, hu⟩
    have hfree : m.futex = 0 := hfree
    rcases h.word with hw | hw
    · obtain hone | ⟨-, -, hawake, hcontends⟩ := access_free ha hw
      · omega
      · have hut : u ≠ t := by
          rintro rfl
          simp [State.accessed, hawake] at hu
        obtain ⟨v, hv⟩ := h.attended hw ⟨u, by simpa [State.accessed, hut] using hu⟩
        by_cases hvt : v = t
        · subst v
          simp only [attends, Bool.or_eq_true, decide_eq_true_eq] at hv
          rcases hv with hv | hv
          · rw [hv] at hwakes
            cases hwakes
          · exact ⟨t, by simp [State.accessed, attends, hcontends hv]⟩
        · exact ⟨v, by simpa [State.accessed, hvt] using hv⟩
    · obtain hone | ⟨-, rfl | hw'⟩ := access_taken ha hw
      · omega
      · exact ⟨t, by simp [State.accessed, attends]⟩
      · rw [hwakes] at hw'
        cases hw'
  · refine ⟨hword, fun _ => ?_⟩
    rintro ⟨u, hu⟩
    have hbefore : asleep ((s.accessed t m c).pc u) = true := by
      rcases wakeOne_woken hpc u with he | ⟨hsleep, -⟩
      · rw [← he]
        exact hu
      · exact hsleep
    obtain ⟨v, hv, rfl⟩ := wakeOne_finds hpc ⟨u, hbefore⟩
    exact ⟨v, by simp [attends, (resume_spec hv).1]⟩

omit [Fintype τ] in
/-- One thread that does not attend goes to a place where it does not sleep, or one that attends anyhow. -/
theorem Attended.goto {s : State τ} (h : Attended s) {t : τ} {c : Pc} {hist : τ → History}
    (hc : asleep c = false ∧ attends (s.pc t) = false ∨ attends c = true) :
    Attended { s with pc := Function.update s.pc t c, hist := hist } where
  word := h.word
  attended hfree := by
    rintro ⟨u, hu⟩
    rcases hc with ⟨hawake, hno⟩ | hc
    · have hut : u ≠ t := by
        rintro rfl
        simp [hawake] at hu
      obtain ⟨v, hv⟩ := h.attended hfree ⟨u, by simpa [hut] using hu⟩
      have hvt : v ≠ t := by
        rintro rfl
        rw [hno] at hv
        cases hv
      exact ⟨v, by simpa [hvt] using hv⟩
    · exact ⟨t, by simpa using hc⟩

omit [DecidableEq τ] [Fintype τ] in
theorem asleep_entry (k : Kind) (p : Protocol) (f : Op) : asleep (entry k p f) = false := by
  cases k <;> cases f <;> first | rfl | exact asleep_protoEntry ..

omit [DecidableEq τ] [Fintype τ] in
theorem attends_of_out {c : Pc} (h : inCall c = false) : attends c = false := by
  cases c <;> first | rfl | cases h

theorem Attended.step {s s' : State τ} (h : Attended s) {a : Action τ} (hs : step s a = some s') : Attended s' := by
  cases a with
  | next t woken => exact h.next hs
  | call t f =>
    cases step_stepped hs with
    | call hpc => exact h.goto (.inl ⟨asleep_entry .., attends_of_out hpc⟩)
  | interrupt t =>
    cases step_stepped hs with
    | interrupt hpc => exact h.goto (.inr (by simp [attends, (resume_spec hpc).1]))

/-- A mutex of any type and protocol, and no call yet. -/
def Begins (s : State τ) : Prop := ∃ k p, s = State.start k p

theorem reaches_attended {s : State τ} (h : Reaches Begins step anyStep s) : Attended s :=
  h.invariant (fun _ ⟨_, _, h₀⟩ => h₀ ▸ ⟨.inl rfl, fun _ ⟨_, ht⟩ => by cases ht⟩) fun _ _ _ _ hi _ hs =>
    hi.step hs

/-- No call is made; a `FUTEX_WAIT` returns by itself where `may` says so. -/
def NoCalls (may : State τ → τ → Prop) (s : State τ) : Action τ → Prop
  | .call _ _ => False
  | .next _ _ => True
  | .interrupt t => may s t

/-- What is left to all threads. -/
def leftOver (s : State τ) : Nat := total fun t => left (s.pc t)

/-- Nothing, once the word is taken. -/
def untilTaken (s : State τ) : Nat := if s.mutex.futex = 1 then 0 else leftOver s + 1

/-- Some thread waits for a word that is 0. -/
def Wanted (s : State τ) : Prop := s.mutex.futex = 0 → ∃ t, waits (s.pc t) = true

/-- Whoever waits goes on waiting while the word is 0, or takes it. -/
theorem waits_resume {c : Pc} (h : asleep c = true) : waits (resume c) = true := by
  simp [waits, (resume_spec h).1]

/-- A step that is no call, from a state where the word is 0, takes the word or leaves less to do. -/
theorem free_step {s s' : State τ} {may : State τ → τ → Prop} {a : Action τ} (hw : s.mutex.futex = 0)
    (hwaits : ∃ t, waits (s.pc t) = true) (ha : NoCalls may s a) (hs : step s a = some s') :
    s'.mutex.futex = 1 ∨ leftOver s' < leftOver s ∧ ∃ t, waits (s'.pc t) = true := by
  obtain ⟨u, hu⟩ := hwaits
  cases step_stepped hs with
  | call => exact ha.elim
  | @next t woken m c pc hacc hwoken =>
    rcases access_free hacc hw with hone | ⟨-, hlt, hawake, hcontends⟩
    · exact .inl hone
    · have hself : (s.accessed t m c).pc t = c := Function.update_self ..
      have hpc : pc t = c := (hwoken.of_not_asleep (hself.symm ▸ hawake)).trans hself
      have hother : ∀ v, v ≠ t → pc v = s.pc v ∨ asleep (s.pc v) = true ∧ pc v = resume (s.pc v) := by
        intro v hv
        simpa [State.accessed, hv] using hwoken v
      refine .inr ⟨total_lt_total (t := t) (fun v hv => ?_) (by rwa [← hpc] at hlt), u, ?_⟩
      · change left (pc v) ≤ _
        rcases hother v hv with he | ⟨hsleep, he⟩
        · rw [he]
        · rw [he]
          exact (resume_spec hsleep).2.le
      · change waits (pc u) = true
        by_cases hut : u = t
        · subst u
          have hsleep : asleep (s.pc t) = false := by
            cases hx : s.pc t <;> rw [hx] at hacc <;> first | rfl | cases hacc
          rw [waits, hsleep, Bool.false_or] at hu
          rw [hpc, waits, hcontends hu, Bool.or_true]
        · rcases hother u hut with he | ⟨hsleep, he⟩
          · rw [he, hu]
          · rw [he]
            exact waits_resume hsleep
  | @interrupt t hpc =>
    refine .inr ⟨total_lt_total (t := t) (fun v hv => ?_) ?_, t, ?_⟩
    · simp [hv]
    · simpa using (resume_spec hpc).2
    · simpa using waits_resume hpc

/-- A mutex of any type and protocol that a thread waits for is taken, or is going to be, in whatever order
the threads that are in calls make their accesses, and whether or not sleepers return that nobody woke. -/
theorem mutex_handed_over {s : State τ} (h : Reaches Begins step anyStep s) (hwaits : ∃ t, waits (s.pc t) = true)
    (may : State τ → τ → Prop) : Inevitable step (NoCalls may) (fun s => s.mutex.futex = 1) s := by
  refine Inevitable.of_measure (I := fun s => Attended s ∧ Wanted s) untilTaken ?_ ?_
    ⟨reaches_attended h, fun _ => hwaits⟩
  · rintro s ⟨hatt, hwanted⟩ hfree
    have hw : s.mutex.futex = 0 := hatt.word.resolve_right hfree
    obtain ⟨t, ht⟩ : ∃ t, attends (s.pc t) = true := by
      obtain ⟨u, hu⟩ := hwanted hw
      rw [waits, Bool.or_eq_true] at hu
      rcases hu with hu | hu
      · exact hatt.attended hw ⟨u, hu⟩
      · exact ⟨u, by simp [attends, hu]⟩
    obtain ⟨⟨m, c⟩, hacc⟩ := attends_access t hw ht
    obtain ⟨woken, pc, hpc⟩ := wakeOne_possible asleep resume (s.accessed t m c).pc
    refine ⟨.next t woken, ?_⟩
    by_cases hwakes : wakes (s.pc t) = true
    · refine ⟨{ s.accessed t m c with pc := pc }, trivial, ?_⟩
      simp only [step, hacc, Option.bind_some, if_pos hwakes, hpc, Option.map_some]
    · refine ⟨s.accessed t m c, trivial, ?_⟩
      simp only [step, hacc, Option.bind_some, if_neg hwakes]
  · rintro s a s' ⟨hatt, hwanted⟩ hfree ha hs
    have hw : s.mutex.futex = 0 := hatt.word.resolve_right hfree
    rcases free_step hw (hwanted hw) ha hs with hone | ⟨hlt, hwaits⟩
    · exact ⟨⟨hatt.step hs, fun hz => by omega⟩, by simp [untilTaken, hone, hfree]⟩
    · refine ⟨⟨hatt.step hs, fun _ => hwaits⟩, ?_⟩
      simp only [untilTaken, if_neg hfree]
      split <;> omega

/-- `t` has the mutex, `u` sleeps for it, and `t` writes 0 to the word. -/
def releasedBefore (t u : τ) : List (Action τ) :=
  [.call t .lock, .next t none, .next t none, .call u .lock, .next u none, .next u none, .call t .unlock,
    .next t none, .next t none]

theorem mutex_handed_over_asleep : ∃ s : State (Fin 2), s.mutex.futex = 0 ∧ s.pc 0 = .futexWake ∧ s.pc 1 = .asleep ∧
    Inevitable step (NoCalls fun _ _ => False) (fun s => s.mutex.futex = 1) s := by
  have hr := Reaches.run_get (show Begins (State.start .normal .prioNone : State (Fin 2)) from ⟨_, _, rfl⟩)
    (show (run step anyStep (releasedBefore 0 1) (State.start .normal .prioNone)).isSome from by decide)
  exact ⟨_, by decide, by decide, by decide, mutex_handed_over hr ⟨1, by decide⟩ _⟩

end ThreadBites.Mutex

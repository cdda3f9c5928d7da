import ThreadBites.RwlockWakeups
import ThreadBites.FutexSections

/-!
# The sections of the read-write lock, access by access

Under `rwlock->lock` every field is read and written in an instruction of its own,
and the compare of a `FUTEX_WAIT` and calls of other threads come in between.
Counting holds and bumps is history, made with the access that it counts.
-/
namespace ThreadBites.Rwlock

open Transition Tally WaitQueue CriticalSections

variable {τ : Type}

/-- What the threads share: the lock, and the history that no access reads. -/
structure Shared (τ : Type) where
  rw : Lock τ
  reads : τ → Nat
  writes : τ → Nat
  rdBumps : Nat
  wrBumps : Nat

/-- Who sleeps on which futex word. -/
inductive Queue where
  | readers
  | writers
  deriving DecidableEq, Repr

def Queue.asleep : Queue → Pc → Bool
  | .readers => rdAsleep
  | .writers => wrAsleep

def Queue.resume : Queue → Pc → Pc
  | .readers, _ => .rdlock
  | .writers, _ => .wrlock true

def Shared.setQueued (q : Int) (d : Shared τ) : Shared τ := { d with rw := { d.rw with writersQueued := q } }

/-- `__sync_fetch_and_add(&rwlock->rd_futex, 1)`. -/
def Shared.bumpRd (d : Shared τ) : Shared τ :=
  { d with rw := { d.rw with rdFutex := d.rw.rdFutex + 1 }, rdBumps := d.rdBumps + 1 }

/-- `__sync_fetch_and_add(&rwlock->wr_futex, 1)`. -/
def Shared.bumpWr (d : Shared τ) : Shared τ :=
  { d with rw := { d.rw with wrFutex := d.rw.wrFutex + 1 }, wrBumps := d.wrBumps + 1 }

section Sections

variable [DecidableEq τ]

/-- `++rwlock->readers`, which is a read lock. -/
def Shared.addRead (t : τ) (n : Int) (d : Shared τ) : Shared τ :=
  { d with rw := { d.rw with readers := n }, reads := Function.update d.reads t (d.reads t + 1) }

/-- `rwlock->writer = tbthread_self()`, which is a write lock. -/
def Shared.addWrite (t : τ) (d : Shared τ) : Shared τ :=
  { d with rw := { d.rw with writer := some t }, writes := Function.update d.writes t (d.writes t + 1) }

/-- A hold is given up, with the lock that leaves. -/
def Shared.dropHold (t : τ) (rw : Lock τ → Lock τ) (d : Shared τ) : Shared τ :=
  if 0 < d.writes t then { d with rw := rw d.rw, writes := Function.update d.writes t (d.writes t - 1) }
  else { d with rw := rw d.rw, reads := Function.update d.reads t (d.reads t - 1) }

/-- `if(!rwlock->writer && !rwlock->writers_queued)`, in the order of the reads. -/
def ifFreeToRead (free busy : Body (Shared τ) Pc Queue Empty) : Body (Shared τ) Pc Queue Empty :=
  .load (·.rw.writer) fun writer =>
    if writer = none then .load (·.rw.writersQueued) fun q => if q = 0 then free else busy
    else busy

/-- `if(!rwlock->writer && !rwlock->readers)`. -/
def ifFreeToWrite (free busy : Body (Shared τ) Pc Queue Empty) : Body (Shared τ) Pc Queue Empty :=
  .load (·.rw.writer) fun writer =>
    if writer = none then .load (·.rw.readers) fun n => if n = 0 then free else busy
    else busy

/-- One round of `tbthread_rwlock_rdlock`. -/
def rdlockSection (t : τ) : Body (Shared τ) Pc Queue Empty :=
  ifFreeToRead
    (.load (·.rw.readers) fun n => .need (incr n) fun n => .store (·.addRead t n) (.done .nobody (.out 0)))
    (.load (fun d => (d.rw.rdFutex, d.rdBumps)) fun v => .done .nobody (.rdWait v.1 v.2))

/-- `if(!queued) ++rwlock->writers_queued`. -/
def joinQueue (queued : Bool) (rest : Body (Shared τ) Pc Queue Empty) : Body (Shared τ) Pc Queue Empty :=
  if queued then rest
  else .load (·.rw.writersQueued) fun q => .need (incr q) fun q => .store (·.setQueued q) rest

/-- One round of `tbthread_rwlock_wrlock`. -/
def wrlockSection (t : τ) (queued : Bool) : Body (Shared τ) Pc Queue Empty :=
  joinQueue queued <| ifFreeToWrite
    (.store (·.addWrite t) <| .load (·.rw.writersQueued) fun q => .need (decr q) fun q =>
      .store (·.setQueued q) (.done .nobody (.out 0)))
    (.load (fun d => (d.rw.wrFutex, d.wrBumps)) fun v => .done .nobody (.wrWait v.1 v.2))

/-- `tbthread_rwlock_unlock`. -/
def unlockSection (t : τ) : Body (Shared τ) Pc Queue Empty :=
  .load (·.rw.writer) fun writer =>
    if writer = none then
      .load (·.rw.readers) fun n => .need (decr n) fun n =>
        .store (·.dropHold t ({ · with readers := n })) <| .load (·.rw.readers) fun n =>
          if n = 0 then .load (·.rw.writersQueued) fun q =>
            if q = 0 then .done .nobody (.out 0) else .store (·.bumpWr) (.done (.one .writers) (.out 0))
          else .done .nobody (.out 0)
    else
      .store (·.dropHold t ({ · with writer := none })) <| .load (·.rw.writersQueued) fun q =>
        if q = 0 then .store (·.bumpRd) (.done (.all .readers) (.out 0))
        else .store (·.bumpWr) (.done (.one .writers) (.out 0))

/-- `tbthread_rwlock_tryrdlock`. -/
def tryrdlockSection (t : τ) : Body (Shared τ) Pc Queue Empty :=
  ifFreeToRead
    (.load (·.rw.readers) fun n => .need (incr n) fun n => .store (·.addRead t n) (.done .nobody (.out 0)))
    (.done .nobody (.out (-EBUSY)))

/-- `tbthread_rwlock_trywrlock`. -/
def trywrlockSection (t : τ) : Body (Shared τ) Pc Queue Empty :=
  ifFreeToWrite (.store (·.addWrite t) (.done .nobody (.out 0))) (.done .nobody (.out (-EBUSY)))

def sectionAt (t : τ) : Pc → Option (Body (Shared τ) Pc Queue Empty)
  | .rdlock => some (rdlockSection t)
  | .wrlock queued => some (wrlockSection t queued)
  | .tryrdlock => some (tryrdlockSection t)
  | .trywrlock => some (trywrlockSection t)
  | .unlock => some (unlockSection t)
  | _ => none

end Sections

/-- What a thread does outside of sections. -/
inductive Outside where
  | call (f : Call)
  | wait
  | interrupt
  deriving DecidableEq, Repr

def outside (d : Shared τ) (_ : τ) : Pc → Outside → Option (Shared τ × Pc)
  | .out _, .call f => some (d, f.entry)
  | .rdWait v _, .wait => some (d, if d.rw.rdFutex = v then .rdAsleep else .rdlock)
  | .wrWait v _, .wait => some (d, if d.rw.wrFutex = v then .wrAsleep else .wrlock true)
  | .rdAsleep, .interrupt => some (d, .rdlock)
  | .wrAsleep, .interrupt => some (d, .wrlock true)
  | _, _ => none

/-- Between a sample and the compare that it is for. -/
def waits : Pc → Bool
  | .rdWait _ _ | .wrWait _ _ => true
  | _ => false

def code [DecidableEq τ] : Code τ (Shared τ) Pc Queue Empty Outside where
  enter := sectionAt
  outer := outside
  waits := waits
  asleep := Queue.asleep
  resume := Queue.resume

/-- How often the futex word was bumped since a waiting thread sampled it. -/
def Shared.bumpsSince (d : Shared τ) : Pc → Nat
  | .rdWait _ n => d.rdBumps - n
  | .wrWait _ n => d.wrBumps - n
  | _ => 0

/-- Threads unlock what they hold, and compare before their sample is `2^32` bumps old. -/
def demands : Demands τ (Shared τ) Pc Outside where
  outer d t p o := (o = .call .unlock → 0 < d.reads t + d.writes t) ∧ (o = .wait → d.bumpsSince p < 2 ^ 32)
  leave _ := True

instance (d : Shared τ) (t : τ) (p : Pc) (o : Outside) : Decidable (demands.outer d t p o) :=
  inferInstanceAs (Decidable (_ ∧ _))

instance (d : Shared τ) : Decidable ((demands : Demands τ (Shared τ) Pc Outside).leave d) :=
  inferInstanceAs (Decidable True)

/-- The state of whole sections that data and places are. -/
def view (s : CriticalSections.State τ (Shared τ) Pc) : State τ where
  rw := s.data.rw
  pc := s.place
  reads := s.data.reads
  writes := s.data.writes
  rdBumps := s.data.rdBumps
  wrBumps := s.data.wrBumps

def Begins (s : CriticalSections.State τ (Shared τ) Pc) : Prop := Initial (view s)

@[simp] theorem exec_ifFreeToRead {free busy : Body (Shared τ) Pc Queue Empty} {answers : List Empty} {d : Shared τ} :
    (ifFreeToRead free busy).exec answers d =
      if d.rw.writer = none ∧ d.rw.writersQueued = 0 then free.exec answers d else busy.exec answers d := by
  by_cases hw : d.rw.writer = none <;> by_cases hq : d.rw.writersQueued = 0 <;> simp [ifFreeToRead, hw, hq]

@[simp] theorem exec_ifFreeToWrite {free busy : Body (Shared τ) Pc Queue Empty} {answers : List Empty} {d : Shared τ} :
    (ifFreeToWrite free busy).exec answers d =
      if d.rw.writer = none ∧ d.rw.readers = 0 then free.exec answers d else busy.exec answers d := by
  by_cases hw : d.rw.writer = none <;> by_cases hn : d.rw.readers = 0 <;> simp [ifFreeToWrite, hw, hn]

@[simp] theorem exec_joinQueue {queued : Bool} {rest : Body (Shared τ) Pc Queue Empty} {answers : List Empty}
    {d : Shared τ} : (joinQueue queued rest).exec answers d =
      (if queued then some d.rw.writersQueued else incr d.rw.writersQueued).bind fun q =>
        rest.exec answers (d.setQueued q) := by
  cases queued <;> simp [joinQueue, Shared.setQueued]

theorem view_bumpsSince (s : CriticalSections.State τ (Shared τ) Pc) (p : Pc) :
    (view s).bumpsSince p = s.data.bumpsSince p := by
  cases p <;> rfl

section Outcomes

variable [DecidableEq τ]

/-- Where `tbthread_rwlock_rdlock` has come to after a round. -/
def rdlocked (t : τ) (d : Shared τ) : Lock τ × Attempt → Shared τ × CriticalSections.Wake Queue × Pc
  | (rw, .acquired) => (d.addRead t rw.readers, .nobody, .out 0)
  | (_, .sleep v) => (d, .nobody, .rdWait v d.rdBumps)

theorem exec_rdlock (t : τ) (answers : List Empty) (d : Shared τ) :
    (rdlockSection t).exec answers d = (rdlock d.rw).map (rdlocked t d) := by
  simp only [rdlockSection, rdlock, exec_ifFreeToRead]
  split
  · cases hn : incr d.rw.readers <;> simp [rdlocked, hn]
  · simp [rdlocked]

/-- Where `tbthread_rwlock_wrlock` has come to after a round. -/
def wrlocked (t : τ) (d : Shared τ) : Lock τ × Attempt → Shared τ × CriticalSections.Wake Queue × Pc
  | (rw, .acquired) => ((d.addWrite t).setQueued rw.writersQueued, .nobody, .out 0)
  | (rw, .sleep v) => (d.setQueued rw.writersQueued, .nobody, .wrWait v d.wrBumps)

theorem exec_wrlock (t : τ) (queued : Bool) (answers : List Empty) (d : Shared τ) :
    (wrlockSection t queued).exec answers d = (wrlock d.rw t queued).map (wrlocked t d) := by
  simp only [wrlockSection, wrlock, exec_joinQueue, exec_ifFreeToWrite]
  cases hq : (if queued then some d.rw.writersQueued else incr d.rw.writersQueued) with
  | none => rfl
  | some q =>
    simp only [Option.bind_some]
    split
    · rename_i hfree
      rw [if_pos (by simpa [Shared.setQueued] using hfree)]
      cases hn : decr q <;> simp [Shared.addWrite, Shared.setQueued, wrlocked, hn]
    · rename_i hbusy
      rw [if_neg (by simpa [Shared.setQueued] using hbusy)]
      simp [Shared.setQueued, wrlocked]

/-- Where `tbthread_rwlock_tryrdlock` has come to. -/
def tryrdlocked (t : τ) (d : Shared τ) : Lock τ × Int → Shared τ × CriticalSections.Wake Queue × Pc
  | (rw, st) => (if st = 0 then d.addRead t rw.readers else d, .nobody, .out st)

theorem exec_tryrdlock (t : τ) (answers : List Empty) (d : Shared τ) :
    (tryrdlockSection t).exec answers d = (tryrdlock d.rw).map (tryrdlocked t d) := by
  simp only [tryrdlockSection, tryrdlock, exec_ifFreeToRead]
  split
  · cases hn : incr d.rw.readers <;> simp [tryrdlocked, hn]
  · simp [tryrdlocked, EBUSY]

theorem exec_trywrlock (t : τ) (answers : List Empty) (d : Shared τ) :
    (trywrlockSection t).exec answers d =
      some (if (trywrlock d.rw t).2 = 0 then d.addWrite t else d, .nobody, .out (trywrlock d.rw t).2) := by
  simp only [trywrlockSection, trywrlock, exec_ifFreeToWrite]
  split <;> simp [EBUSY]

/-- What a wake of the read-write lock wakes, and bumps before. -/
def woken (d : Shared τ) : Wake → Shared τ × CriticalSections.Wake Queue
  | .nobody => (d, .nobody)
  | .oneWriter => ({ d with wrBumps := d.wrBumps + 1 }, .one .writers)
  | .allReaders => ({ d with rdBumps := d.rdBumps + 1 }, .all .readers)

/-- Where `tbthread_rwlock_unlock` has come to. -/
def unlocked (t : τ) (d : Shared τ) : Lock τ × Wake → Shared τ × CriticalSections.Wake Queue × Pc
  | (rw, w) => ((woken (d.dropHold t fun _ => rw) w).1, (woken d w).2, .out 0)

theorem exec_unlock (t : τ) (answers : List Empty) (d : Shared τ) :
    (unlockSection t).exec answers d = (unlock d.rw).map (unlocked t d) := by
  by_cases hw : d.rw.writer = none
  · cases hn : decr d.rw.readers with
    | none => simp [unlockSection, unlock, hw, hn]
    | some n =>
      by_cases h0 : n = 0 <;> by_cases hq : d.rw.writersQueued = 0 <;> by_cases ht : 0 < d.writes t <;>
        simp [unlockSection, unlock, unlocked, woken, Shared.dropHold, Shared.bumpWr, hw, hn, h0, hq, ht]
  · by_cases hq : d.rw.writersQueued = 0 <;> by_cases ht : 0 < d.writes t <;>
      simp [unlockSection, unlock, unlocked, woken, Shared.dropHold, Shared.bumpRd, Shared.bumpWr, hw, hq, ht]

variable [Fintype τ]

/-- A step outside is a step of the lock with whole sections. -/
theorem outside_step {s : CriticalSections.State τ (Shared τ) Pc} {t : τ} {o : Outside} {r : Shared τ × Pc}
    (hok : demands.outer s.data t (s.place t) o) (h : outside s.data t (s.place t) o = some r) :
    ∃ a, Admitted (view s) a ∧ step (view s) a = some ((view s).goto t r.2) ∧ r.1 = s.data := by
  obtain ⟨hunlock, hprompt⟩ := hok
  have hpc : (view s).pc t = s.place t := rfl
  cases o with
  | call f =>
    cases hp : s.place t <;> rw [hp] at h hpc <;> cases h
    refine ⟨.call t f, ⟨fun hf => hunlock (by rw [hf]), trivial⟩, ?_, rfl⟩
    simp only [step, hpc]
  | wait =>
    have hadm : Admitted (view s) (.wait t) := ⟨trivial, (view_bumpsSince s _).trans_lt (hprompt rfl)⟩
    cases hp : s.place t <;> rw [hp] at h hpc <;> cases h
    · exact ⟨.wait t, hadm, by simp only [step, hpc]; rfl, rfl⟩
    · exact ⟨.wait t, hadm, by simp only [step, hpc]; rfl, rfl⟩
  | interrupt =>
    cases hp : s.place t <;> rw [hp] at h hpc <;> cases h
    · exact ⟨.interrupt t, ⟨trivial, trivial⟩, by simp only [step, hpc], rfl⟩
    · exact ⟨.interrupt t, ⟨trivial, trivial⟩, by simp only [step, hpc], rfl⟩

/-- The wake of an unlock is that of the lock with whole sections. -/
theorem unlocked_view {s : CriticalSections.State τ (Shared τ) Pc} {t : τ} {w : Option τ} {rw : Lock τ} {k : Wake}
    {place : τ → Pc} (hw : CriticalSections.wake Queue.asleep Queue.resume (unlocked t s.data (rw, k)).2.1 w
      (Function.update s.place t (.out 0)) = some place) :
    { ((view s).dropHold t).goto t (.out 0) with rw := rw }.wake w k =
      some (view ⟨(unlocked t s.data (rw, k)).1, place⟩) := by
  by_cases ht : 0 < s.data.writes t
  all_goals
    cases k with
    | nobody =>
      cases hw
      simp [State.wake, State.dropHold, State.goto, unlocked, woken, Shared.dropHold, view, ht]
    | oneWriter =>
      change wakeOne wrAsleep (fun _ => .wrlock true) (Function.update s.place t (.out 0)) w = some place at hw
      simp [State.wake, State.dropHold, State.goto, unlocked, woken, Shared.dropHold, view, ht, hw]
    | allReaders =>
      cases hw
      simp [State.wake, State.dropHold, State.goto, unlocked, woken, Shared.dropHold, view, ht]
      rfl

/-- A section with its wake is a section of the lock with whole sections. -/
theorem section_step {s : CriticalSections.State τ (Shared τ) Pc} {t : τ} {b : Body (Shared τ) Pc Queue Empty}
    {answers : List Empty} {r : Shared τ × CriticalSections.Wake Queue × Pc} {w : Option τ} {place : τ → Pc}
    (hb : sectionAt t (s.place t) = some b) (hr : b.exec answers s.data = some r)
    (hw : CriticalSections.wake Queue.asleep Queue.resume r.2.1 w (Function.update s.place t r.2.2) = some place) :
    enter (view s) t w = some (view ⟨r.1, place⟩) := by
  have hpc : (view s).pc t = s.place t := rfl
  cases hp : s.place t <;> rw [hp] at hb hpc <;> cases hb
  · rw [exec_rdlock] at hr
    obtain ⟨⟨rw, o⟩, ho, rfl⟩ := Option.map_eq_some_iff.mp hr
    have ho' : rdlock (view s).rw = some (rw, o) := ho
    simp only [enter, hpc, ho', Option.map_some]
    rcases rdlock_cases ho with ⟨-, rfl, rfl⟩ | ⟨-, rfl, rfl⟩ <;> cases hw <;> rfl
  · rw [exec_wrlock] at hr
    obtain ⟨⟨rw, o⟩, ho, rfl⟩ := Option.map_eq_some_iff.mp hr
    have ho' : wrlock (view s).rw t _ = some (rw, o) := ho
    simp only [enter, hpc, ho', Option.map_some]
    rcases wrlock_cases ho with ⟨-, rfl, rfl⟩ | ⟨-, rfl, rfl⟩ <;> cases hw <;> rfl
  · rw [exec_tryrdlock] at hr
    obtain ⟨⟨rw, st⟩, ho, rfl⟩ := Option.map_eq_some_iff.mp hr
    have ho' : tryrdlock (view s).rw = some (rw, st) := ho
    simp only [enter, hpc, ho', Option.map_some]
    rcases tryrdlock_cases ho with ⟨-, rfl, rfl⟩ | ⟨rfl, rfl⟩ <;> cases hw <;> rfl
  · rw [exec_trywrlock] at hr
    cases hr
    cases hw
    simp only [enter, hpc]
    change some _ = some _
    have hrw : trywrlock (view s).rw t = trywrlock s.data.rw t := rfl
    rw [hrw]
    rcases trywrlock_cases s.data.rw t with ⟨-, he⟩ | he
    · rw [he]; rfl
    · rw [he]; rfl
  · rw [exec_unlock] at hr
    obtain ⟨⟨rw, k⟩, ho, rfl⟩ := Option.map_eq_some_iff.mp hr
    have ho' : unlock (view s).rw = some (rw, k) := ho
    simp only [enter, hpc, ho', Option.bind_some]
    exact unlocked_view hw

/-- Whole sections reach what the read-write lock reaches. -/
theorem reaches_view {s : CriticalSections.State τ (Shared τ) Pc}
    (h : Reaches Begins (CriticalSections.step code) (CriticalSections.Admitted code demands) s) :
    Reaches Initial step Admitted (view s) := by
  induction h with
  | start h => exact .start h
  | next _ hok hstep ih =>
    rename_i s s' a _
    cases a with
    | outer t o =>
      obtain ⟨r, hr, rfl⟩ := Option.map_eq_some_iff.mp hstep
      obtain ⟨a, ha, hs, hd⟩ := outside_step hok hr
      refine ih.next ha ?_
      rw [hd]
      exact hs
    | enter t answers w =>
      obtain ⟨b, hb, hstep⟩ := Option.bind_eq_some_iff.mp hstep
      obtain ⟨r, hr, hstep⟩ := Option.bind_eq_some_iff.mp hstep
      obtain ⟨place, hw, rfl⟩ := Option.map_eq_some_iff.mp hstep
      exact ih.next (a := .enter t w) ⟨trivial, trivial⟩ (section_step hb hr hw)

end Outcomes

/-- The futex word that the sleepers of a queue compare. -/
def Shared.word (d : Shared τ) : Queue → BitVec 32
  | .readers => d.rw.rdFutex
  | .writers => d.rw.wrFutex

def Shared.bumps (d : Shared τ) : Queue → Nat
  | .readers => d.rdBumps
  | .writers => d.wrBumps

/-- A section of `t` has left the futex words and the holds of others as they were. -/
structure Untouched (t : τ) (d₀ d : Shared τ) : Prop where
  others : ∀ u, u ≠ t → d.reads u = d₀.reads u ∧ d.writes u = d₀.writes u
  words : ∀ q, d.word q = d₀.word q ∧ d.bumps q = d₀.bumps q

/-- What a section of `t` has done so far: a futex word is bumped at most once, and that is the last thing
before the wake. -/
structure Passing (t : τ) (d₀ : Shared τ) (b : Body (Shared τ) Pc Queue Empty) (d : Shared τ) : Prop where
  others : ∀ u, u ≠ t → d.reads u = d₀.reads u ∧ d.writes u = d₀.writes u
  words : ∀ q, d.word q = d₀.word q ∧ d.bumps q = d₀.bumps q ∨
    (∃ w p, b = .done w p) ∧ d.word q = d₀.word q + 1 ∧ d.bumps q = d₀.bumps q + 1
  exit : ∀ w p, b = .done w p → ∀ q : Queue, q.asleep p = false

theorem Untouched.refl (t : τ) (d : Shared τ) : Untouched t d d := ⟨fun _ _ => ⟨rfl, rfl⟩, fun _ => ⟨rfl, rfl⟩⟩

theorem Untouched.instr {t : τ} {d₀ d : Shared τ} (h : Untouched t d₀ d) {effect : Shared τ → Shared τ}
    {rest : Shared τ → Body (Shared τ) Pc Queue Empty} : Passing t d₀ (.instr effect rest) d :=
  ⟨h.others, fun q => .inl (h.words q), nofun⟩

theorem Untouched.fault {t : τ} {d₀ d : Shared τ} (h : Untouched t d₀ d) : Passing t d₀ .fault d :=
  ⟨h.others, fun q => .inl (h.words q), nofun⟩

theorem Untouched.done {t : τ} {d₀ d : Shared τ} (h : Untouched t d₀ d) {w : CriticalSections.Wake Queue} {p : Pc}
    (hp : ∀ q : Queue, q.asleep p = false) : Passing t d₀ (.done w p) d := by
  refine ⟨h.others, fun q => .inl (h.words q), fun _ _ he => ?_⟩
  cases he
  exact hp

theorem Untouched.setQueued {t : τ} {d₀ d : Shared τ} (h : Untouched t d₀ d) (n : Int) :
    Untouched t d₀ (d.setQueued n) :=
  ⟨h.others, fun q => by have hq := h.words q; cases q <;> exact hq⟩

/-- The last bump before a wake. -/
theorem Untouched.bumped {t : τ} {d₀ d : Shared τ} (h : Untouched t d₀ d) {w : CriticalSections.Wake Queue} :
    Passing t d₀ (.done w (.out 0)) d.bumpRd ∧ Passing t d₀ (.done w (.out 0)) d.bumpWr := by
  have hr := h.words .readers
  have hw := h.words .writers
  simp only [Shared.word, Shared.bumps] at hr hw
  constructor
  all_goals
    refine ⟨h.others, fun q => ?_, fun _ _ he q => ?_⟩
    · cases q <;> simp [Shared.word, Shared.bumps, Shared.bumpRd, Shared.bumpWr, hr, hw]
    · cases he
      cases q <;> rfl

theorem out_awake (st : Int) (q : Queue) : q.asleep (.out st) = false := by
  cases q <;> rfl

/-- What is so at each of two tests is so of a section that begins with them. -/
theorem always_ifFreeToRead {φ : Body (Shared τ) Pc Queue Empty → Shared τ → Prop}
    {free busy : Body (Shared τ) Pc Queue Empty} {d : Shared τ} (htest : ∀ effect rest, φ (.instr effect rest) d)
    (hfree : d.rw.writer = none → d.rw.writersQueued = 0 → free.Always φ d) (hbusy : busy.Always φ d) :
    (ifFreeToRead free busy).Always φ d := by
  simp only [ifFreeToRead, always_load]
  refine ⟨htest _ _, ?_⟩
  split
  · rename_i hw
    rw [always_load]
    refine ⟨htest _ _, ?_⟩
    split
    · rename_i hq
      exact hfree hw hq
    · exact hbusy
  · exact hbusy

theorem always_ifFreeToWrite {φ : Body (Shared τ) Pc Queue Empty → Shared τ → Prop}
    {free busy : Body (Shared τ) Pc Queue Empty} {d : Shared τ} (htest : ∀ effect rest, φ (.instr effect rest) d)
    (hfree : d.rw.writer = none → d.rw.readers = 0 → free.Always φ d) (hbusy : busy.Always φ d) :
    (ifFreeToWrite free busy).Always φ d := by
  simp only [ifFreeToWrite, always_load]
  refine ⟨htest _ _, ?_⟩
  split
  · rename_i hw
    rw [always_load]
    refine ⟨htest _ _, ?_⟩
    split
    · rename_i hq
      exact hfree hw hq
    · exact hbusy
  · exact hbusy

section Steadiness

variable [DecidableEq τ]

theorem Untouched.addRead {t : τ} {d₀ d : Shared τ} (h : Untouched t d₀ d) (n : Int) : Untouched t d₀ (d.addRead t n) :=
  ⟨fun u hu => by simpa [Shared.addRead, hu] using h.others u hu, fun q => by have hq := h.words q; cases q <;> exact hq⟩

theorem Untouched.addWrite {t : τ} {d₀ d : Shared τ} (h : Untouched t d₀ d) : Untouched t d₀ (d.addWrite t) :=
  ⟨fun u hu => by simpa [Shared.addWrite, hu] using h.others u hu, fun q => by have hq := h.words q; cases q <;> exact hq⟩

theorem Untouched.dropHold {t : τ} {d₀ d : Shared τ} (h : Untouched t d₀ d) {rw : Lock τ → Lock τ}
    (hrw : ∀ l, (rw l).rdFutex = l.rdFutex ∧ (rw l).wrFutex = l.wrFutex) : Untouched t d₀ (d.dropHold t rw) := by
  refine ⟨fun u hu => ?_, fun q => ?_⟩
  · by_cases ht : 0 < d.writes t <;> simpa [Shared.dropHold, ht, hu] using h.others u hu
  · have hq := h.words q
    by_cases ht : 0 < d.writes t <;> cases q <;> simpa [Shared.dropHold, Shared.word, Shared.bumps, ht, hrw] using hq

theorem rdlock_passing (t : τ) (d : Shared τ) : (rdlockSection t).Always (Passing t d) d := by
  have h := Untouched.refl t d
  refine always_ifFreeToRead (fun _ _ => h.instr) (fun _ _ => ?_) ⟨h.instr, h.done fun q => by cases q <;> rfl⟩
  exact ⟨h.instr, always_need (fun _ => h.fault) fun n _ => ⟨h.instr, (h.addRead n).done (out_awake 0)⟩⟩

theorem tryrdlock_passing (t : τ) (d : Shared τ) : (tryrdlockSection t).Always (Passing t d) d := by
  have h := Untouched.refl t d
  refine always_ifFreeToRead (fun _ _ => h.instr) (fun _ _ => ?_) (h.done (out_awake _))
  exact ⟨h.instr, always_need (fun _ => h.fault) fun n _ => ⟨h.instr, (h.addRead n).done (out_awake 0)⟩⟩

theorem trywrlock_passing (t : τ) (d : Shared τ) : (trywrlockSection t).Always (Passing t d) d := by
  have h := Untouched.refl t d
  exact always_ifFreeToWrite (fun _ _ => h.instr) (fun _ _ => ⟨h.instr, h.addWrite.done (out_awake 0)⟩)
    (h.done (out_awake _))

/-- What is left of `tbthread_rwlock_wrlock` when the caller is in the queue. -/
theorem wrlock_passing (t : τ) (queued : Bool) (d : Shared τ) : (wrlockSection t queued).Always (Passing t d) d := by
  have hrest : ∀ d', Untouched t d d' → (ifFreeToWrite
      (.store (·.addWrite t) <| .load (·.rw.writersQueued) fun q => .need (decr q) fun q =>
        .store (·.setQueued q) (.done .nobody (.out 0)))
      (.load (fun d => (d.rw.wrFutex, d.wrBumps)) fun v => .done .nobody (.wrWait v.1 v.2))).Always (Passing t d) d' := by
    intro d' h
    refine always_ifFreeToWrite (fun _ _ => h.instr) (fun _ _ => ⟨h.instr, h.addWrite.instr, ?_⟩)
      ⟨h.instr, h.done fun q => by cases q <;> rfl⟩
    exact always_need (fun _ => h.addWrite.fault) fun n _ =>
      ⟨h.addWrite.instr, (h.addWrite.setQueued n).done (out_awake 0)⟩
  have h := Untouched.refl t d
  cases queued with
  | true => exact hrest d h
  | false => exact ⟨h.instr, always_need (fun _ => h.fault) fun n _ => ⟨h.instr, hrest _ (h.setQueued n)⟩⟩

theorem unlock_passing (t : τ) (d : Shared τ) : (unlockSection t).Always (Passing t d) d := by
  have h := Untouched.refl t d
  simp only [unlockSection, always_load]
  refine ⟨h.instr, ?_⟩
  split
  · refine ⟨h.instr, always_need (fun _ => h.fault) fun n _ => ?_⟩
    have hd : Untouched t d (d.dropHold t ({ · with readers := n })) := h.dropHold fun _ => ⟨rfl, rfl⟩
    simp only [always_store, always_load]
    refine ⟨h.instr, hd.instr, ?_⟩
    split
    · refine ⟨hd.instr, ?_⟩
      dsimp only
      split
      · exact hd.done (out_awake 0)
      · exact ⟨hd.instr, hd.bumped.2⟩
    · exact hd.done (out_awake 0)
  · have hd : Untouched t d (d.dropHold t ({ · with writer := none })) := h.dropHold fun _ => ⟨rfl, rfl⟩
    simp only [always_store, always_load]
    refine ⟨h.instr, hd.instr, ?_⟩
    split
    · exact ⟨hd.instr, hd.bumped.1⟩
    · exact ⟨hd.instr, hd.bumped.2⟩

theorem section_passing {t : τ} {p : Pc} {b : Body (Shared τ) Pc Queue Empty} (hb : sectionAt t p = some b)
    (d : Shared τ) : b.Always (Passing t d) d := by
  cases p <;> cases hb
  · exact rdlock_passing t d
  · exact wrlock_passing t _ d
  · exact tryrdlock_passing t d
  · exact trywrlock_passing t d
  · exact unlock_passing t d

/-- A step outside that sees nothing of what the section has written. -/
theorem commutes_of_same {d₀ d : Shared τ} {b₀ b : Body (Shared τ) Pc Queue Empty} {u : τ} {p p' : Pc} {o : Outside}
    (hruns : b₀.Runs d₀ b d) (hok : demands.outer d₀ u p o) (hstep : outside d₀ u p o = some (d₀, p')) :
    Commutes code demands d₀ b₀ b u p o (d, p') :=
  ⟨d₀, hok, hstep, hruns⟩

/-- A section that is over but for its wake has only the outcome that it has. -/
theorem put_off {d : Shared τ} {w : CriticalSections.Wake Queue} {p₀ p p' : Pc} {u : τ} (hwaits : waits p = true)
    (hp' : ∃ q, p' = .rdlock ∨ p' = .wrlock q) (hok : demands.outer d u p .wait)
    (hstep : outside d u p .wait = some (d, p')) :
    PutOff code demands d (.done w p₀ : Body (Shared τ) Pc Queue Empty) u p p' := by
  refine ⟨hwaits, fun q => ?_, ⟨fun d o => ?_, fun q => ?_⟩, .wait, fun r hr => ?_⟩
  · cases p with
    | rdWait => cases q <;> rfl
    | wrWait => cases q <;> rfl
    | _ => cases hwaits
  · obtain ⟨q, rfl | rfl⟩ := hp' <;> cases o <;> rfl
  · obtain ⟨_, rfl | rfl⟩ := hp' <;> cases q <;> rfl
  · rw [ends_done] at hr
    subst hr
    exact ⟨hok, hstep⟩

/-- A sample from before a bump is not the word after it. -/
theorem missed {v w : BitVec 32} {n m : Nat} (hw : w = BitVec.ofNat 32 m) (hv : v = BitVec.ofNat 32 n) (hn : n ≤ m)
    (hlt : m + 1 - n < 2 ^ 32) : w + 1 ≠ v := by
  intro he
  have := sample_current (Nat.le_succ_of_le hn) hlt (by rw [← word_bump hw, he, hv])
  omega

variable [Fintype τ]

/-- Calls and compares of the others are made before a section under way, but for the compare with
a word that it has bumped: that one comes after it. -/
theorem steady : Steady (code (τ := τ)) demands Begins where
  entry_awake := by
    intro t p hp q
    cases p <;> cases q <;> first | rfl | cases hp
  exit_awake := by
    intro t p b d r hb hr
    exact (hr.runs.always (section_passing hb d)).here.exit _ _ rfl
  keeps := by
    intro d t p o r hr
    left
    cases p <;> cases o <;> cases hr <;> rfl
  outside := by
    intro s t b₀ b d u o r hs hb₀ hruns hu hok hstep
    obtain ⟨hothers, hwords, -⟩ := (hruns.always (section_passing hb₀ s.data)).here
    have hwakeful := reaches_wakeful (reaches_view hs)
    cases o with
    | call f =>
      left
      cases hp : s.place u <;> rw [hp] at hok hstep <;> cases hstep
      exact commutes_of_same hruns ⟨fun he => by rw [← (hothers u hu).1, ← (hothers u hu).2]; exact hok.1 he, nofun⟩ rfl
    | wait =>
      have hlt := hok.2 rfl
      cases hp : s.place u <;> rw [hp] at hok hstep hlt <;> cases hstep
      · rename_i v n
        obtain ⟨hv, hn, -⟩ := (hwakeful.placed u).rdSample v n hp
        rcases hwords .readers with ⟨hword, hbumps⟩ | ⟨⟨w, p, rfl⟩, hword, hbumps⟩
        · left
          rw [show d.bumpsSince (.rdWait v n) = s.data.bumpsSince (.rdWait v n) from congrArg (· - n) hbumps] at hlt
          rw [show d.rw.rdFutex = s.data.rw.rdFutex from hword]
          exact commutes_of_same hruns ⟨nofun, fun _ => hlt⟩ rfl
        · right
          have hne : d.rw.rdFutex ≠ v := by
            rw [show d.rw.rdFutex = s.data.rw.rdFutex + 1 from hword]
            exact missed hwakeful.rdWord hv hn
              (by rwa [show d.bumpsSince (.rdWait v n) = s.data.rdBumps + 1 - n from congrArg (· - n) hbumps] at hlt)
          rw [if_neg hne]
          exact ⟨rfl, put_off rfl ⟨true, .inl rfl⟩ ⟨nofun, fun _ => hlt⟩ (by rw [outside, if_neg hne])⟩
      · rename_i v n
        obtain ⟨hv, hn, -⟩ := (hwakeful.placed u).wrSample v n hp
        rcases hwords .writers with ⟨hword, hbumps⟩ | ⟨⟨w, p, rfl⟩, hword, hbumps⟩
        · left
          rw [show d.bumpsSince (.wrWait v n) = s.data.bumpsSince (.wrWait v n) from congrArg (· - n) hbumps] at hlt
          rw [show d.rw.wrFutex = s.data.rw.wrFutex from hword]
          exact commutes_of_same hruns ⟨nofun, fun _ => hlt⟩ rfl
        · right
          have hne : d.rw.wrFutex ≠ v := by
            rw [show d.rw.wrFutex = s.data.rw.wrFutex + 1 from hword]
            exact missed hwakeful.wrWord hv hn
              (by rwa [show d.bumpsSince (.wrWait v n) = s.data.wrBumps + 1 - n from congrArg (· - n) hbumps] at hlt)
          rw [if_neg hne]
          exact ⟨rfl, put_off rfl ⟨true, .inr rfl⟩ ⟨nofun, fun _ => hlt⟩ (by rw [outside, if_neg hne])⟩
    | interrupt =>
      left
      cases hp : s.place u <;> rw [hp] at hok hstep <;> cases hstep
      · exact commutes_of_same hruns ⟨nofun, nofun⟩ rfl
      · exact commutes_of_same hruns ⟨nofun, nofun⟩ rfl

/-- At every access the fields of the lock say who holds it. -/
structure Counted (d : Shared τ) : Prop where
  writes : ∀ t, d.writes t = if d.rw.writer = some t then 1 else 0
  reads : d.rw.readers = total d.reads
  apart : d.rw.writer ≠ none → total d.reads = 0

theorem Counted.addRead {d : Shared τ} (h : Counted d) (t : τ) {n : Int} (hfree : d.rw.writer = none)
    (hn : incr d.rw.readers = some n) : Counted (d.addRead t n) := by
  have ht := total_update d.reads t (d.reads t + 1)
  have hr := h.reads
  have hn := incr_eq hn
  refine ⟨h.writes, ?_, fun hw => absurd hfree hw⟩
  simp only [Shared.addRead]
  omega

theorem Counted.addWrite {d : Shared τ} (h : Counted d) (t : τ) (hw : d.rw.writer = none) (hr : d.rw.readers = 0) :
    Counted (d.addWrite t) := by
  have hreads := h.reads
  have hz : ∀ u, d.writes u = 0 := fun u => by simpa [hw] using h.writes u
  refine ⟨fun u => ?_, hreads, fun _ => ?_⟩
  · by_cases hu : u = t
    · subst u; simp [Shared.addWrite, hz]
    · simp [Shared.addWrite, hu, hz, Ne.symm hu]
  · simp only [Shared.addWrite]
    omega

/-- A reader gives up its hold. -/
theorem Counted.dropRead {d : Shared τ} (h : Counted d) {t : τ} {n : Int} (hold : 0 < d.reads t + d.writes t)
    (hw : d.rw.writer = none) (hn : decr d.rw.readers = some n) :
    Counted (d.dropHold t ({ · with readers := n })) := by
  have hz : ∀ u, d.writes u = 0 := fun u => by simpa [hw] using h.writes u
  have ht := total_update d.reads t (d.reads t - 1)
  have hr := h.reads
  have hn := decr_eq hn
  have hzt := hz t
  refine ⟨fun u => ?_, ?_, fun hne => ?_⟩
  · simp [Shared.dropHold, hz, hw]
  · simp only [Shared.dropHold, hzt, lt_self_iff_false, if_false]
    omega
  · simp [Shared.dropHold, hz, hw] at hne

/-- The writer gives up its hold. -/
theorem Counted.dropWrite {d : Shared τ} (h : Counted d) {t : τ} (hold : 0 < d.reads t + d.writes t)
    (hw : d.rw.writer ≠ none) : Counted (d.dropHold t ({ · with writer := none })) := by
  have hzero := (total_eq_zero_iff _).mp (h.apart hw) t
  have hself : d.rw.writer = some t := by
    have hwt := h.writes t
    by_contra hn
    rw [if_neg hn] at hwt
    omega
  have hone : 0 < d.writes t := by omega
  refine ⟨fun u => ?_, ?_, fun hne => ?_⟩
  · by_cases hu : u = t
    · subst u
      simp [Shared.dropHold, h.writes, hself]
    · simp [Shared.dropHold, hu, h.writes, hself, Ne.symm hu]
  · simpa [Shared.dropHold, hone] using h.reads
  · simp [Shared.dropHold, hone] at hne

theorem section_counted {t : τ} {p : Pc} {b : Body (Shared τ) Pc Queue Empty} {d : Shared τ}
    (hb : sectionAt t p = some b) (h : Counted d) (hold : p = .unlock → 0 < d.reads t + d.writes t) :
    b.Always (fun _ d => Counted d) d := by
  cases p <;> cases hb
  · refine always_ifFreeToRead (fun _ _ => h) (fun hw _ => ⟨h, always_need (fun _ => h) fun n hn => ?_⟩) ⟨h, h⟩
    exact ⟨h, h.addRead t hw hn⟩
  · rename_i queued
    have hrest : ∀ d', Counted d' → (ifFreeToWrite
        (.store (·.addWrite t) <| .load (·.rw.writersQueued) fun q => .need (decr q) fun q =>
          .store (·.setQueued q) (.done .nobody (.out 0)))
        (.load (fun d => (d.rw.wrFutex, d.wrBumps)) fun v => .done .nobody (.wrWait v.1 v.2))).Always
          (fun _ d => Counted d) d' := by
      intro d' h
      refine always_ifFreeToWrite (fun _ _ => h) (fun hw hr => ?_) ⟨h, h⟩
      have hadd := h.addWrite t hw hr
      exact ⟨h, hadd, always_need (fun _ => hadd) fun n _ => ⟨hadd, hadd.1, hadd.2, hadd.3⟩⟩
    cases queued with
    | true => exact hrest d h
    | false => exact ⟨h, always_need (fun _ => h) fun n _ => ⟨h, hrest _ ⟨h.1, h.2, h.3⟩⟩⟩
  · refine always_ifFreeToRead (fun _ _ => h) (fun hw _ => ⟨h, always_need (fun _ => h) fun n hn => ?_⟩) h
    exact ⟨h, h.addRead t hw hn⟩
  · exact always_ifFreeToWrite (fun _ _ => h) (fun hw hr => ⟨h, h.addWrite t hw hr⟩) h
  · simp only [unlockSection, always_load]
    refine ⟨h, ?_⟩
    split
    · rename_i hw
      refine ⟨h, always_need (fun _ => h) fun n hn => ?_⟩
      have hd := h.dropRead (hold rfl) hw hn
      simp only [always_store, always_load]
      refine ⟨h, hd, ?_⟩
      split
      · refine ⟨hd, ?_⟩
        dsimp only
        split
        · exact hd
        · exact ⟨hd, hd.1, hd.2, hd.3⟩
      · exact hd
    · rename_i hw
      have hd := h.dropWrite (hold rfl) hw
      simp only [always_store, always_load]
      refine ⟨h, hd, ?_⟩
      split
      · exact ⟨hd, hd.1, hd.2, hd.3⟩
      · exact ⟨hd, hd.1, hd.2, hd.3⟩

/-- Every access finds the fields in agreement with the holds. -/
theorem reaches_counted {L : CriticalSections.Lock τ} {c : Fine L (Shared τ) Pc Queue Empty}
    (h : Reaches (FineInitial Begins) (fineStep code) (FineAdmitted demands) c) : Counted c.data := by
  obtain ⟨s, hs⟩ := reaches_atomic steady h
  have hsafe := reaches_safe ((reaches_view hs.reached).weaken fun _ _ ha => ha.1)
  have hcounted : Counted s.data := ⟨hsafe.writes, hsafe.reads, hsafe.apart⟩
  by_cases hq : c.Quiet
  · rw [(hs.matched.quiet hq).1]
    exact hcounted
  · obtain ⟨t, b, ht⟩ : ∃ t b, c.spot t = .inside b := by simpa [Fine.Quiet] using hq
    obtain ⟨b₀, hb₀, hruns⟩ := hs.matched.inside t b ht
    exact (hruns.always (section_counted hb₀ hcounted (hsafe.unlocking t))).here

/-- Access by access, under `tb_futex_lock`: at every moment `writer` names the one thread with the write
hold, `readers` counts the read holds, and the two kinds of holds exclude each other. -/
theorem rwlock_accesses_safe {c : Fine FutexLock.sectionLock (Shared τ) Pc Queue Empty}
    (h : Reaches (FineInitial Begins) (fineStep code) (FineAdmitted demands) c) :
    (∀ t, c.data.rw.writer = some t ↔ c.data.writes t = 1) ∧ (∀ t, c.data.writes t ≤ 1) ∧
    c.data.rw.readers = total c.data.reads ∧
    ∀ t u, 0 < c.data.writes t → c.data.reads u = 0 ∧ (0 < c.data.writes u → u = t) := by
  have hi := reaches_counted h
  refine ⟨fun t => ?_, fun t => ?_, hi.reads, fun t u ht => ?_⟩
  · rw [hi.writes t]
    split <;> simp_all
  · rw [hi.writes t]
    split <;> omega
  · have hself : ∀ v, 0 < c.data.writes v → c.data.rw.writer = some v := by
      intro v hv
      by_contra hn
      rw [hi.writes v, if_neg hn] at hv
      cases hv
    have hw := hself t ht
    refine ⟨(total_eq_zero_iff _).mp (hi.apart (by rw [hw]; nofun)) u, fun hu => ?_⟩
    exact Option.some.inj ((hself u hu).symm.trans hw)

/-- A section of `t` that is called at one place, of `n` instructions. -/
def inSection (t : τ) (n : Nat) : List (FineAction (FutexLock.sectionLock (τ := τ)) Empty Outside) :=
  [.lock t, .within (.lockCas t), .enter t] ++ List.replicate n (.instr t)

/-- The end of a section. -/
def afterSection (t : τ) : List (FineAction (FutexLock.sectionLock (τ := τ)) Empty Outside) :=
  [.leave t none, .within (.unlockCas t), .within (.futexWake t none), .finish t]

/-- `t` writes; `u` samples the word to sleep on, and compares when the unlock of `t` has bumped it. -/
def bumpedBefore (t u : τ) : List (FineAction (FutexLock.sectionLock (τ := τ)) Empty Outside) :=
  [.outer t (.call .wrlock)] ++ inSection t 7 ++ afterSection t ++ [.outer u (.call .rdlock)] ++ inSection u 2 ++
    afterSection u ++ [.outer t (.call .unlock)] ++ inSection t 4 ++ [.outer u .wait]

/-- All threads outside of calls, and the lock as `TBTHREAD_RWLOCK_INIT` has it. -/
def atRest : Fine (FutexLock.sectionLock (τ := τ)) (Shared τ) Pc Queue Empty :=
  ⟨FutexLock.State.start, ⟨⟨0, 0, 0, none, 0⟩, fun _ => 0, fun _ => 0, 0, 0⟩, fun _ => .out (.out 0)⟩

theorem atRest_initial : FineInitial Begins (atRest (τ := τ)) := ⟨⟨atRest.data, fun _ => .out 0⟩, rfl, rfl⟩

theorem rwlock_accesses_safe_bumped :
    ∃ c : Fine (FutexLock.sectionLock (τ := Fin 2)) (Shared (Fin 2)) Pc Queue Empty, ¬c.Quiet ∧ c.data.rw.rdFutex = 1 ∧
      ∀ t, c.data.rw.writer = some t ↔ c.data.writes t = 1 := by
  have hr := Reaches.run_get (atRest_initial (τ := Fin 2))
    (show (run (fineStep code) (FineAdmitted demands) (bumpedBefore (0 : Fin 2) 1) atRest).isSome from by decide)
  exact ⟨_, by decide, by decide, (rwlock_accesses_safe hr).1⟩

/-- Access by access: whenever nobody is in a section, no reader sleeps on a lock that is free to
read, and of the writers queued for one that is free to write, one is awake and will look again. -/
theorem rwlock_accesses_wake {c : Fine FutexLock.sectionLock (Shared τ) Pc Queue Empty}
    (h : Reaches (FineInitial Begins) (fineStep code) (FineAdmitted demands) c) (hq : c.Quiet) :
    (c.data.rw.writer = none ∧ c.data.rw.writersQueued = 0 → ∀ t, c.spot t ≠ .out .rdAsleep) ∧
    (c.data.rw.writer = none ∧ c.data.rw.readers = 0 ∧ 0 < c.data.rw.writersQueued →
      ∃ t, (c.spot t).place = some (.wrlock true) ∨
        ∃ v n, (c.spot t).place = some (.wrWait v n) ∧ n < c.data.wrBumps) := by
  obtain ⟨s, hs⟩ := reaches_atomic steady h
  obtain ⟨hdata, hplace⟩ := hs.matched.quiet hq
  have hi := reaches_wakeful (reaches_view hs.reached)
  rw [hdata]
  constructor
  · intro hf t hc
    have hp := hplace t
    rw [hc] at hp
    exact (hi.placed t).rdSleep (Option.some.inj hp).symm hf
  · rintro ⟨hw, hr, hpos⟩
    obtain ⟨t, ht⟩ := hi.writer ⟨hw, hr⟩ hpos
    refine ⟨t, ?_⟩
    rw [hplace t]
    change alert (s.place t) = true at ht
    cases hc : s.place t with
    | wrlock q =>
      rw [hc] at ht
      exact .inl (congrArg (some ∘ Pc.wrlock) ht)
    | wrWait v n => exact .inr ⟨v, n, rfl, ((hi.placed t).wrSample v n hc).2.2 ⟨hw, hr⟩⟩
    | _ => simp [hc, alert] at ht

theorem rwlock_accesses_wake_bumped :
    ∃ c : Fine (FutexLock.sectionLock (τ := Fin 2)) (Shared (Fin 2)) Pc Queue Empty, c.spot 1 = .out .rdlock ∧
      ∀ t, c.spot t ≠ .out .rdAsleep := by
  have hr := Reaches.run_get (atRest_initial (τ := Fin 2)) (show (run (fineStep code) (FineAdmitted demands)
    (bumpedBefore (0 : Fin 2) 1 ++ afterSection 0) atRest).isSome from by decide)
  exact ⟨_, by rfl, (rwlock_accesses_wake hr (by decide)).1 (by decide)⟩

end Steadiness

end ThreadBites.Rwlock

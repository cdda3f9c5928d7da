import ThreadBites.CondVarWaiters
import ThreadBites.CondVarSignals
import ThreadBites.FutexSections

/-!
# The sections of the condition variable, access by access

Under `cond->lock` every field is read and written in an instruction of its own;
the increment of the futex word is no atomic one. Counting broadcasts and
increments is history, made with the access that it counts.
-/
namespace ThreadBites.CondVar

open Transition Tally WaitQueue CriticalSections

variable {τ μ : Type}

/-- What the threads share: the condition variable, and the history that no access reads. -/
structure Shared (μ : Type) where
  cond : Cond μ
  casts : Nat
  bumps : Nat

def Shared.setWaiters (n : Nat) (d : Shared μ) : Shared μ := { d with cond := { d.cond with waiters := n } }

def Shared.setSignalNum (n : Nat) (d : Shared μ) : Shared μ := { d with cond := { d.cond with signalNum := n } }

def Shared.setMutex (m : Option μ) (d : Shared μ) : Shared μ := { d with cond := { d.cond with mutex := m } }

/-- The second half of `++cond->futex`. -/
def Shared.bump (v : BitVec 32) (d : Shared μ) : Shared μ :=
  { d with cond := { d.cond with futex := v }, bumps := d.bumps + 1 }

/-- The second half of `++cond->broadcast_seq`. -/
def Shared.cast (v : BitVec 64) (d : Shared μ) : Shared μ :=
  { d with cond := { d.cond with broadcastSeq := v }, casts := d.casts + 1 }

/-- A broadcast that reads that nobody waits. -/
def Shared.castIdle (d : Shared μ) : Shared μ := if d.cond.waiters = 0 then { d with casts := d.casts + 1 } else d

/-- `tbthread_cond_broadcast`. -/
def broadcastSection : Body (Shared μ) (Pc μ) Unit Int :=
  .instr Shared.castIdle fun d =>
    if d.cond.waiters = 0 then .done .nobody (.out 0)
    else .load (·.cond.futex) fun v => .store (·.bump (v + 1)) <| .load (·.cond.broadcastSeq) fun q =>
      .store (·.cast (q + 1)) (.done (.all ()) (.out 0))

/-- `tbthread_cond_signal`. -/
def signalSection : Body (Shared μ) (Pc μ) Unit Int :=
  .load (·.cond.waiters) fun n => .load (·.cond.signalNum) fun k =>
    if n = k then .done .nobody (.out 0)
    else .load (·.cond.futex) fun v => .store (·.bump (v + 1)) <| .load (·.cond.signalNum) fun k =>
      .store (·.setSignalNum (k + 1)) (.done (.one ()) (.out 0))

/-- `if(!cond->waiters) cond->mutex = 0`, and out of the section. -/
def unbind (p : Pc μ) : Body (Shared μ) (Pc μ) Unit Int :=
  .load (·.cond.waiters) fun n =>
    if n = 0 then .store (·.setMutex none) (.done .nobody p) else .done .nobody p

/-- `if(!cond->mutex) cond->mutex = mutex`. -/
def bindMutex (m : μ) (rest : Body (Shared μ) (Pc μ) Unit Int) : Body (Shared μ) (Pc μ) Unit Int :=
  .load (·.cond.mutex) fun bound => if bound = none then .store (·.setMutex (some m)) rest else rest

/-- What a wait does with the mutex bound: it unlocks it, asking what `tbthread_mutex_unlock` returns. -/
def unlockAndSample [DecidableEq μ] (m : μ) : Body (Shared μ) (Pc μ) Unit Int :=
  .load (·.cond.mutex) fun bound =>
    if bound ≠ some m then unbind (.out (-EINVAL))
    else .ask fun st =>
      if st ≠ 0 then unbind (.out st)
      else .load (·.cond.waiters) fun n => .store (·.setWaiters (n + 1)) <| .load (·.cond.broadcastSeq) fun bseq =>
        .load (fun d => (d.cond.futex, d.casts, d.bumps)) fun v =>
          .done .nobody (.futexWait ⟨m, ⟨bseq.truncate 32, v.1⟩, v.2.1, v.2.2⟩)

/-- The first section of `tbthread_cond_wait`. -/
def waitSection [DecidableEq μ] (m : μ) : Body (Shared μ) (Pc μ) Unit Int := bindMutex m (unlockAndSample m)

/-- `exit:` of `tbthread_cond_wait`. -/
def leaveSection (w : Wait μ) (st : Int) : Body (Shared μ) (Pc μ) Unit Int :=
  .load (·.cond.waiters) fun n => .store (·.setWaiters (n - 1)) (unbind (.relock w.mutex st))

/-- A section of the wait loop. -/
def recheckSection (w : Wait μ) (st : Int) : Body (Shared μ) (Pc μ) Unit Int :=
  .load (·.cond.signalNum) fun k =>
    if k ≠ 0 then .load (·.cond.signalNum) fun k => .store (·.setSignalNum (k - 1)) (leaveSection w st)
    else .load (·.cond.broadcastSeq) fun q =>
      if w.sample.bseq.signExtend 64 ≠ q then leaveSection w st else .done .nobody (.futexWait w)

def sectionAt [DecidableEq μ] : Pc μ → Option (Body (Shared μ) (Pc μ) Unit Int)
  | .broadcast => some broadcastSection
  | .signal => some signalSection
  | .waitBegin m => some (waitSection m)
  | .recheck w st => some (recheckSection w st)
  | _ => none

/-- What a thread does outside of sections. -/
inductive Outside (μ : Type) where
  | call (f : Call μ)
  | futexWait
  | interrupt
  | relock

def outside (d : Shared μ) : Pc μ → Outside μ → Option (Shared μ × Pc μ)
  | .out _, .call f => some (d, f.entry)
  | .futexWait w, .futexWait =>
      some (d, if d.cond.futex = w.sample.futex then .asleep w else .recheck w (-EWOULDBLOCK))
  | .asleep w, .interrupt => some (d, .futexWait w)
  | .relock _ st, .relock => some (d, .out st)
  | _, _ => none

/-- Between a sample of the futex word and the compare. -/
def compares : Pc μ → Bool
  | .futexWait _ => true
  | _ => false

def code [DecidableEq μ] : Code τ (Shared μ) (Pc μ) Unit Int (Outside μ) where
  enter _ := sectionAt
  outer d _ := outside d
  waits := compares
  asleep _ := asleep
  resume _ := resume

/-- Fewer than `2^32` increments of the futex word. -/
def demands : Demands τ (Shared μ) (Pc μ) (Outside μ) where
  outer d _ _ _ := d.bumps + 1 < 2 ^ 32
  leave d := d.bumps + 1 < 2 ^ 32

instance (d : Shared μ) (t : τ) (p : Pc μ) (o : Outside μ) :
    Decidable ((demands : Demands τ (Shared μ) (Pc μ) (Outside μ)).outer d t p o) := inferInstanceAs (Decidable (_ < _))

instance (d : Shared μ) : Decidable ((demands : Demands τ (Shared μ) (Pc μ) (Outside μ)).leave d) :=
  inferInstanceAs (Decidable (_ < _))

section Outcomes

/-- What `exit:` does to the condition variable. -/
theorem exec_unbind (p : Pc μ) (answers : List Int) (d : Shared μ) : (unbind p).exec answers d =
    some (d.setMutex (if d.cond.waiters = 0 then none else d.cond.mutex), .nobody, p) := by
  by_cases hw : d.cond.waiters = 0 <;> simp [unbind, Shared.setMutex, hw]

theorem ends_unbind {p : Pc μ} {d : Shared μ} {r : Shared μ × CriticalSections.Wake Unit × Pc μ} :
    (unbind p).Ends d r ↔ r = (d.setMutex (if d.cond.waiters = 0 then none else d.cond.mutex), .nobody, p) := by
  simp [Body.Ends, exec_unbind, eq_comm]

theorem exec_leave (w : Wait μ) (st : Int) (answers : List Int) (d : Shared μ) : (leaveSection w st).exec answers d =
    some ({ d with cond := leave d.cond }, .nobody, .relock w.mutex st) := by
  simp [leaveSection, exec_unbind, leave, Shared.setWaiters, Shared.setMutex]

theorem ends_bindMutex {m : μ} {rest : Body (Shared μ) (Pc μ) Unit Int} {d : Shared μ}
    {r : Shared μ × CriticalSections.Wake Unit × Pc μ} : (bindMutex m rest).Ends d r ↔
      rest.Ends (d.setMutex (if d.cond.mutex = none then some m else d.cond.mutex)) r := by
  by_cases hm : d.cond.mutex = none <;> simp [bindMutex, Shared.setMutex, hm]

/-- Where `tbthread_cond_broadcast` has come to. -/
def broadcasted (d : Shared μ) : Shared μ × CriticalSections.Wake Unit × Pc μ :=
  if (broadcast d.cond).2 then (⟨(broadcast d.cond).1, d.casts + 1, d.bumps + 1⟩, .all (), .out 0)
  else ({ d with casts := d.casts + 1 }, .nobody, .out 0)

theorem exec_broadcast (answers : List Int) (d : Shared μ) :
    broadcastSection.exec answers d = some (broadcasted d) := by
  by_cases hw : d.cond.waiters = 0 <;>
    simp [broadcastSection, Body.exec, broadcasted, broadcast, Shared.bump, Shared.cast, Shared.castIdle, hw]

/-- Where `tbthread_cond_signal` has come to. -/
def signalEnds (d : Shared μ) : Shared μ × CriticalSections.Wake Unit × Pc μ :=
  if (signal d.cond).2 then ({ d with cond := (signal d.cond).1, bumps := d.bumps + 1 }, .one (), .out 0)
  else (d, .nobody, .out 0)

theorem exec_signal (answers : List Int) (d : Shared μ) : signalSection.exec answers d = some (signalEnds d) := by
  by_cases hw : d.cond.waiters = d.cond.signalNum <;>
    simp [signalSection, signalEnds, signal, Shared.bump, Shared.setSignalNum, hw]

/-- Where a section of the wait loop has come to. -/
def rechecked (w : Wait μ) (st : Int) (d : Shared μ) : Shared μ × CriticalSections.Wake Unit × Pc μ :=
  if (recheck d.cond w.sample.bseq).2 then
    ({ d with cond := (recheck d.cond w.sample.bseq).1 }, .nobody, .relock w.mutex st)
  else (d, .nobody, .futexWait w)

theorem exec_recheck (w : Wait μ) (st : Int) (answers : List Int) (d : Shared μ) :
    (recheckSection w st).exec answers d = some (rechecked w st d) := by
  by_cases hn : d.cond.signalNum = 0 <;> by_cases hb : w.sample.bseq.signExtend 64 = d.cond.broadcastSeq <;>
    simp [recheckSection, rechecked, recheck, exec_leave, Shared.setSignalNum, hn, hb]

variable [DecidableEq μ]

/-- Where a wait that begins has come to, with what unlocking the mutex returned. -/
def waitBegan (m : μ) (st : Int) (d : Shared μ) : Shared μ × CriticalSections.Wake Unit × Pc μ :=
  ({ d with cond := (waitBegin d.cond m st).1 }, .nobody, match (waitBegin d.cond m st).2 with
    | .ok v => .futexWait ⟨m, v, d.casts, d.bumps⟩
    | .error e => .out e)

theorem ends_wait {m : μ} {d : Shared μ} {r : Shared μ × CriticalSections.Wake Unit × Pc μ}
    (h : (waitSection m).Ends d r) : ∃ st, r = waitBegan m st d := by
  rw [waitSection, ends_bindMutex, unlockAndSample, ends_load] at h
  by_cases hm : (if d.cond.mutex = none then some m else d.cond.mutex) = some m
  · simp only [Shared.setMutex, hm, ne_eq, not_true, if_false, ends_ask] at h
    obtain ⟨st, h⟩ := h
    refine ⟨st, ?_⟩
    by_cases hst : st = 0
    · simpa [hst, hm, waitBegan, waitBegin, Shared.setWaiters] using h
    · simpa [hst, hm, waitBegan, waitBegin, ends_unbind, Shared.setMutex] using h
  · refine ⟨0, ?_⟩
    simpa [hm, waitBegan, waitBegin, ends_unbind, Shared.setMutex] using h

/-- The state of whole sections that data and places are, with the signals that are outstanding. -/
def view (s : CriticalSections.State τ (Shared μ) (Pc μ)) (sent : List Sent) : State τ μ where
  cond := s.data.cond
  pc := s.place
  casts := s.data.casts
  bumps := s.data.bumps
  sent := sent

def Begins (s : CriticalSections.State τ (Shared μ) (Pc μ)) : Prop := Initial (view s [])

variable [Fintype τ] [DecidableEq τ]

/-- A step outside of sections, of whole sections. -/
theorem outside_step {s : CriticalSections.State τ (Shared μ) (Pc μ)} {sent : List Sent} {t : τ} {o : Outside μ}
    {r : Shared μ × Pc μ} (h : outside s.data (s.place t) o = some r) :
    ∃ a, FewBumps (view s sent) a ∧ step (view s sent) a = some ((view s sent).goto t r.2) ∧ r.1 = s.data := by
  have hpc : (view s sent).pc t = s.place t := rfl
  cases o with
  | call f =>
    cases hp : s.place t <;> rw [hp] at h hpc <;> cases h
    exact ⟨.call t f, trivial, by simp only [step, hpc], rfl⟩
  | futexWait =>
    cases hp : s.place t <;> rw [hp] at h hpc <;> cases h
    exact ⟨.futexWait t, trivial, by simp only [step, hpc]; rfl, rfl⟩
  | interrupt =>
    cases hp : s.place t <;> rw [hp] at h hpc <;> cases h
    exact ⟨.interrupt t, trivial, by simp only [step, hpc], rfl⟩
  | relock =>
    cases hp : s.place t <;> rw [hp] at h hpc <;> cases h
    exact ⟨.relock t, trivial, by simp only [step, hpc], rfl⟩

/-- A section with its wake, of whole sections. -/
theorem section_step {s : CriticalSections.State τ (Shared μ) (Pc μ)} {sent : List Sent} (hi : Issued (view s sent))
    {t : τ} {b : Body (Shared μ) (Pc μ) Unit Int} {answers : List Int}
    {r : Shared μ × CriticalSections.Wake Unit × Pc μ} {woken : Option τ} {place : τ → Pc μ}
    (hb : sectionAt (s.place t) = some b) (hr : b.exec answers s.data = some r) (hfew : r.1.bumps + 1 < 2 ^ 32)
    (hw : wake (fun _ => asleep) (fun _ => resume) r.2.1 woken (Function.update s.place t r.2.2) = some place) :
    ∃ a sent', FewBumps (view s sent) a ∧ step (view s sent) a = some (view ⟨r.1, place⟩ sent') := by
  have hpc : (view s sent).pc t = s.place t := rfl
  cases hp : s.place t <;> rw [hp] at hb hpc <;> cases hb
  · rw [exec_broadcast] at hr
    cases hr
    by_cases hn : s.data.cond.waiters = 0
    · simp only [broadcasted, broadcast, hn, if_true, Bool.false_eq_true, if_false] at hw hfew ⊢
      cases hw
      refine ⟨.broadcast t, sent, hfew, ?_⟩
      simp only [step, hp, broadcast, view, hn, if_true, State.goto]
    · simp only [broadcasted, broadcast, hn, if_true, if_false] at hw hfew ⊢
      cases hw
      refine ⟨.broadcast t, sent, lt_of_le_of_lt (Nat.le_succ _) hfew, ?_⟩
      simp only [step, hp, broadcast, view, hn, if_false, State.goto]
  · rw [exec_signal] at hr
    cases hr
    by_cases hn : s.data.cond.waiters = s.data.cond.signalNum
    · simp only [signalEnds, signal, hn, if_true, Bool.false_eq_true, if_false] at hw hfew ⊢
      cases hw
      refine ⟨.signal t woken, sent, hfew, ?_⟩
      simp only [step, hp, stepSignal, signal, view, hn, if_true, State.goto]
    · simp only [signalEnds, signal, hn, if_true, if_false] at hw hfew ⊢
      refine ⟨.signal t woken, sent ++ [⟨s.data.casts, s.data.bumps, sent.length < tally (uncovered s.data.casts) s.place⟩],
        lt_of_le_of_lt (Nat.le_succ _) hfew, ?_⟩
      simp only [step, hp, stepSignal, signal, view, hn, if_false, State.goto, Option.map_eq_some_iff]
      exact ⟨place, hw, rfl⟩
  · rename_i m
    obtain ⟨st, rfl⟩ := ends_wait ⟨answers, hr⟩
    cases hw
    refine ⟨.waitBegin t st, sent, trivial, ?_⟩
    simp only [step, hpc, waitBegan]
    rcases waitBegin_cases s.data.cond m st with ⟨e, bound, he⟩ | ⟨-, -, he⟩
    · have he' : waitBegin (view s sent).cond m st = _ := he
      simp only [he, he']
      rfl
    · have he' : waitBegin (view s sent).cond m st = _ := he
      simp only [he, he']
      rfl
  · rename_i w st
    rw [exec_recheck] at hr
    cases hr
    by_cases hn : s.data.cond.signalNum = 0
    · by_cases hb : w.sample.bseq.signExtend 64 = s.data.cond.broadcastSeq
      · simp only [rechecked, recheck, hn, hb, ne_eq, not_true, if_false, Bool.false_eq_true] at hw ⊢
        cases hw
        refine ⟨.recheck t 0, sent, trivial, ?_⟩
        simp only [step, hp, stepRecheck, recheck, view, hn, hb, ne_eq, not_true, if_false, State.goto]
      · simp only [rechecked, recheck, hn, hb, ne_eq, not_true, not_false_eq_true, if_false, if_true] at hw ⊢
        cases hw
        refine ⟨.recheck t 0, sent, trivial, ?_⟩
        simp only [step, hp, stepRecheck, recheck, view, hn, hb, ne_eq, not_true, not_false_eq_true, if_false, if_true,
          State.goto]
    · have hpick : 0 < sent.length := by
        have hcount := hi.count
        simp only [view] at hcount
        omega
      simp only [rechecked, recheck, hn, ne_eq, not_false_eq_true, if_true] at hw ⊢
      cases hw
      refine ⟨.recheck t 0, sent.eraseIdx 0, trivial, ?_⟩
      simp only [step, hp, stepRecheck, recheck, view, hn, hpick, ne_eq, not_false_eq_true, if_true, if_false, State.goto]

/-- Whole sections reach what the condition variable reaches. -/
theorem reaches_view {s : CriticalSections.State τ (Shared μ) (Pc μ)}
    (h : Reaches Begins (CriticalSections.step code) (CriticalSections.Admitted code demands) s) :
    ∃ sent, Reaches Initial step FewBumps (view s sent) := by
  induction h with
  | start h => exact ⟨[], .start h⟩
  | next _ hok hstep ih =>
    rename_i s s' a _
    obtain ⟨sent, hs⟩ := ih
    cases a with
    | outer t o =>
      obtain ⟨r, hr, rfl⟩ := Option.map_eq_some_iff.mp hstep
      obtain ⟨a, ha, hs', hd⟩ := outside_step hr
      refine ⟨sent, hs.next ha ?_⟩
      rw [hd]
      exact hs'
    | enter t answers woken =>
      obtain ⟨b, hb, hstep⟩ := Option.bind_eq_some_iff.mp hstep
      obtain ⟨r, hr, hstep⟩ := Option.bind_eq_some_iff.mp hstep
      obtain ⟨place, hw, rfl⟩ := Option.map_eq_some_iff.mp hstep
      obtain ⟨a, sent', ha, hs'⟩ := section_step (reaches_issued hs) hb hr (hok b r hb hr) hw
      exact ⟨sent', hs.next ha hs'⟩

end Outcomes

/-- The futex word is as it was. -/
def Unbumped (d₀ d : Shared μ) : Prop := d.cond.futex = d₀.cond.futex ∧ d.bumps = d₀.bumps

/-- The futex word was incremented once. -/
def Bumped (d₀ d : Shared μ) : Prop := d.cond.futex = d₀.cond.futex + 1 ∧ d.bumps = d₀.bumps + 1

/-- Nobody goes to sleep in a section. -/
def Awake (b : Body (Shared μ) (Pc μ) Unit Int) : Prop := ∀ w p, b = .done w p → asleep p = false

/-- A section has not incremented the futex word yet, or it has and does not once more. -/
structure Passing (d₀ : Shared μ) (b : Body (Shared μ) (Pc μ) Unit Int) (d : Shared μ) : Prop where
  word : Unbumped d₀ d ∨ b.Always (fun _ => Bumped d₀) d
  exit : Awake b

theorem Unbumped.instr {d₀ d : Shared μ} (h : Unbumped d₀ d) {effect : Shared μ → Shared μ}
    {rest : Shared μ → Body (Shared μ) (Pc μ) Unit Int} : Passing d₀ (.instr effect rest) d := ⟨.inl h, nofun⟩

theorem awake_done {w : CriticalSections.Wake Unit} {p : Pc μ} (hp : asleep p = false) :
    Awake (.done w p : Body (Shared μ) (Pc μ) Unit Int) := by
  intro _ _ he
  cases he
  exact hp

theorem unbind_passing {d₀ d : Shared μ} (h : Unbumped d₀ d) {p : Pc μ} (hp : asleep p = false) :
    (unbind p).Always (Passing d₀) d := by
  refine always_load.mpr ⟨h.instr, ?_⟩
  split
  · exact always_store.mpr ⟨h.instr, .inl h, awake_done hp⟩
  · exact ⟨.inl h, awake_done hp⟩

theorem leave_passing {d₀ d : Shared μ} (h : Unbumped d₀ d) (w : Wait μ) (st : Int) :
    (leaveSection w st).Always (Passing d₀) d := by
  refine always_load.mpr ⟨h.instr, always_store.mpr ⟨h.instr, ?_⟩⟩
  have hl : Unbumped d₀ (d.setWaiters (d.cond.waiters - 1)) := h
  exact unbind_passing hl rfl

/-- What follows an increment of the futex word. -/
theorem bumped_passing {d₀ d : Shared μ} {b : Body (Shared μ) (Pc μ) Unit Int}
    (h : b.Always (fun b d => Bumped d₀ d ∧ Awake b) d) : b.Always (Passing d₀) d :=
  h.from_here.imp fun _ _ h => ⟨.inr (h.imp fun _ _ h => h.1), h.here.2⟩

theorem broadcast_passing (d : Shared μ) : (broadcastSection : Body (Shared μ) (Pc μ) Unit Int).Always (Passing d) d := by
  have h : Unbumped d d := ⟨rfl, rfl⟩
  refine ⟨h.instr, ?_⟩
  by_cases hw : d.cond.waiters = 0
  · simp only [hw, if_true, Shared.castIdle]
    exact ⟨.inl ⟨rfl, rfl⟩, awake_done rfl⟩
  · simp only [hw, if_false, Shared.castIdle]
    refine always_load.mpr ⟨h.instr, always_store.mpr ⟨h.instr, bumped_passing ?_⟩⟩
    exact ⟨⟨⟨rfl, rfl⟩, nofun⟩, ⟨⟨rfl, rfl⟩, nofun⟩, ⟨rfl, rfl⟩, awake_done rfl⟩

theorem signal_passing (d : Shared μ) : (signalSection : Body (Shared μ) (Pc μ) Unit Int).Always (Passing d) d := by
  have h : Unbumped d d := ⟨rfl, rfl⟩
  refine always_load.mpr ⟨h.instr, always_load.mpr ⟨h.instr, ?_⟩⟩
  split
  · exact ⟨.inl h, awake_done rfl⟩
  · refine always_load.mpr ⟨h.instr, always_store.mpr ⟨h.instr, bumped_passing ?_⟩⟩
    exact ⟨⟨⟨rfl, rfl⟩, nofun⟩, ⟨⟨rfl, rfl⟩, nofun⟩, ⟨rfl, rfl⟩, awake_done rfl⟩

theorem recheck_passing (w : Wait μ) (st : Int) (d : Shared μ) : (recheckSection w st).Always (Passing d) d := by
  have h : Unbumped d d := ⟨rfl, rfl⟩
  refine always_load.mpr ⟨h.instr, ?_⟩
  split
  · refine always_load.mpr ⟨h.instr, always_store.mpr ⟨h.instr, ?_⟩⟩
    exact leave_passing (d := d.setSignalNum (d.cond.signalNum - 1)) h w st
  · refine always_load.mpr ⟨h.instr, ?_⟩
    split
    · exact leave_passing h w st
    · exact ⟨.inl h, awake_done rfl⟩

/-- A sample from before the last increment is not the futex word. -/
theorem Counted.staleAwake_of_stale [Fintype τ] {x : State τ μ} (h : Counted x) {t : τ} (ht : stale x.bumps (x.pc t) = true) :
    staleAwake x.cond.futex (x.pc t) = true := by
  have hne : ∀ w, waitOf (x.pc t) = some w → w.bumps < x.bumps → w.sample.futex ≠ x.cond.futex := by
    intro w hw hlt he
    obtain ⟨hf, hb, -⟩ := (h.placed t).sample w hw
    have hfew := h.few
    have := sample_current hb (by omega) (by rw [← h.word, ← hf, he])
    omega
  cases hp : x.pc t <;> rw [hp] at ht hne <;> simp only [stale, staleAwake, decide_eq_true_eq, reduceCtorEq] at ht ⊢
  · exact hne _ rfl ht
  · exact hne _ rfl ht

section Steadiness

variable [DecidableEq μ]

theorem unlockAndSample_passing {d₀ d : Shared μ} (h : Unbumped d₀ d) (m : μ) :
    (unlockAndSample m).Always (Passing d₀) d := by
  refine always_load.mpr ⟨h.instr, ?_⟩
  split
  · exact unbind_passing h rfl
  · refine ⟨⟨.inl h, nofun⟩, fun st => ?_⟩
    dsimp only
    split
    · exact unbind_passing h rfl
    · exact ⟨h.instr, Unbumped.instr (d := d.setWaiters _) h, ⟨.inl h, nofun⟩, ⟨.inl h, nofun⟩, .inl h, awake_done rfl⟩

theorem wait_passing (m : μ) (d : Shared μ) : (waitSection m).Always (Passing d) d := by
  have h : Unbumped d d := ⟨rfl, rfl⟩
  rw [waitSection, bindMutex]
  refine always_load.mpr ⟨h.instr, ?_⟩
  split
  · exact always_store.mpr ⟨h.instr, unlockAndSample_passing (d := d.setMutex (some m)) h m⟩
  · exact unlockAndSample_passing h m

theorem section_passing {p : Pc μ} {b : Body (Shared μ) (Pc μ) Unit Int} (hb : sectionAt p = some b) (d : Shared μ) :
    b.Always (Passing d) d := by
  cases p <;> cases hb
  · exact broadcast_passing d
  · exact signal_passing d
  · exact wait_passing _ d
  · exact recheck_passing _ _ d

variable [Fintype τ] [DecidableEq τ]

/-- Steps outside are made before a section under way, but for a compare with the futex word that it
has incremented: that one comes after it. -/
theorem steady : Steady (code (τ := τ) (μ := μ)) demands Begins where
  entry_awake := by
    intro t p hp _
    cases p <;> first | rfl | cases hp
  exit_awake := by
    intro t p b d r hb hr _
    exact (hr.runs.always (section_passing hb d)).here.exit _ _ rfl
  keeps := by
    intro d t p o r hr
    left
    cases p <;> cases o <;> cases hr <;> rfl
  outside := by
    intro s t b₀ b d u o r hs hb₀ hruns hu hok hstep
    have hpassing := hruns.always (section_passing hb₀ s.data)
    obtain ⟨sent, hview⟩ := reaches_view hs
    have hcounted := reaches_counted hview
    have hok₀ : s.data.bumps + 1 < 2 ^ 32 := by
      have hlt : d.bumps + 1 < 2 ^ 32 := hok
      rcases hpassing.here.word with ⟨-, he⟩ | hb
      · omega
      · have := hb.here.2
        omega
    cases hp : s.place u <;> rw [hp] at hstep <;> cases o <;> cases hstep
    · exact .inl ⟨s.data, hok₀, rfl, hruns⟩
    · rename_i w
      rcases hpassing.here.word with ⟨hf, -⟩ | hb
      · left
        rw [hf]
        exact ⟨s.data, hok₀, rfl, hruns⟩
      · right
        obtain ⟨hsample, hle, -⟩ := (hcounted.placed u).sample w (by rw [show (view s sent).pc u = _ from hp]; rfl)
        have hne : ∀ d', Bumped s.data d' → d'.cond.futex ≠ w.sample.futex := by
          intro d' hd' he
          have hw : (view s sent).cond.futex + 1 = BitVec.ofNat 32 (s.data.bumps + 1) := word_bump hcounted.word
          have hle : w.bumps ≤ s.data.bumps := hle
          have := sample_current (Nat.le_succ_of_le hle) (by omega)
            (by rw [← hw, ← hsample, ← he]; exact hd'.1.symm)
          omega
        rw [if_neg (hne d hb.here)]
        refine ⟨rfl, rfl, fun _ => rfl, ⟨fun _ o => by cases o <;> rfl, fun _ => rfl⟩, .futexWait, fun r hr => ?_⟩
        have hr' : Bumped s.data r.1 := (hr.runs.always hb).here
        refine ⟨?_, ?_⟩
        · change r.1.bumps + 1 < 2 ^ 32
          rw [hr'.2, ← hb.here.2]
          exact hok
        · change outside r.1 (.futexWait w) .futexWait = _
          rw [outside, if_neg (hne r.1 hr')]
    · exact .inl ⟨s.data, hok₀, rfl, hruns⟩
    · exact .inl ⟨s.data, hok₀, rfl, hruns⟩

/-- Access by access, under `tb_futex_lock`: whenever nobody is in a section, `waiters` counts the
threads that released their mutex and have not left the loop, each outstanding signal has an awake
waiter whose sample the futex word differs from, and nobody sleeps who was covered by a broadcast. -/
theorem cond_accesses_wake {c : Fine FutexLock.sectionLock (Shared μ) (Pc μ) Unit Int}
    (h : Reaches (FineInitial (Begins (τ := τ))) (fineStep code) (FineAdmitted demands) c) (hq : c.Quiet) :
    ∃ pc : τ → Pc μ, (∀ t, (c.spot t).place = some (pc t)) ∧ c.data.cond.waiters = tally waiting pc ∧
      c.data.cond.signalNum ≤ c.data.cond.waiters ∧
      c.data.cond.signalNum ≤ tally (staleAwake c.data.cond.futex) pc ∧
      ∀ t w, pc t = .asleep w → w.casts = c.data.casts := by
  obtain ⟨s, hs⟩ := reaches_atomic steady h
  obtain ⟨hdata, hplace⟩ := hs.matched.quiet hq
  obtain ⟨sent, hview⟩ := reaches_view hs.reached
  have hi := reaches_counted hview
  rw [hdata]
  exact ⟨s.place, hplace, hi.waiters, hi.signals_le_waiters,
    Nat.le_trans hi.signals (tally_le_tally fun t ht => hi.staleAwake_of_stale ht), fun t w => (hi.placed t).sleep w⟩

/-- A section of `t` that is called at one place, of `n` instructions. -/
def inSection (t : τ) (n : Nat) : List (FineAction (FutexLock.sectionLock (τ := τ)) Int (Outside μ)) :=
  [.lock t, .within (.lockCas t), .enter t] ++ List.replicate n (.instr t)

/-- The end of a section, with a wake that finds nobody. -/
def afterSection (t : τ) : List (FineAction (FutexLock.sectionLock (τ := τ)) Int (Outside μ)) :=
  [.leave t none, .within (.unlockCas t), .within (.futexWake t none), .finish t]

/-- `t` begins to wait, and compares when a signal of `u` has incremented the futex word. -/
def signalledBetween (t u : τ) (m : μ) : List (FineAction (FutexLock.sectionLock (τ := τ)) Int (Outside μ)) :=
  [.outer t (.call (.wait m))] ++ inSection t 3 ++ [.ask t 0] ++ List.replicate 4 (.instr t) ++ afterSection t ++
    [.outer u (.call .signal)] ++ inSection u 4 ++ [.outer t .futexWait] ++ List.replicate 2 (.instr u) ++ afterSection u

theorem cond_accesses_wake_between : ∃ pc : Fin 2 → Pc Unit, (∃ w st, pc 0 = .recheck w st) ∧
    1 ≤ tally (staleAwake 1) pc := by
  let atRest : Fine (FutexLock.sectionLock (τ := Fin 2)) (Shared Unit) (Pc Unit) Unit Int :=
    ⟨FutexLock.State.start, ⟨⟨0, 0, 0, 0, none⟩, 0, 0⟩, fun _ => .out (.out 0)⟩
  have hr := Reaches.run_get (show FineInitial Begins atRest from ⟨⟨atRest.data, fun _ => .out 0⟩, rfl, rfl⟩)
    (show (run (fineStep code) (FineAdmitted demands) (signalledBetween 0 1 ()) atRest).isSome from by decide)
  obtain ⟨pc, hplace, -, -, hstale, -⟩ := cond_accesses_wake hr (by decide)
  exact ⟨pc, ⟨_, _, (Option.some.inj (hplace 0)).symm⟩, hstale⟩

end Steadiness

end ThreadBites.CondVar

import ThreadBites.MutexCalls
import ThreadBites.SleeperBounds

/-!
# Chains of threads that wait for `PRIO_INHERIT` mutexes

All mutexes and all threads. The type of a mutex decides whether the functions
here are called; any thread may call them at any time. `internal_futex` is held
from its lock to its unlock, and a section under the lock of a descriptor is one
step, so that `tb_inherit_mutex_sched` is two: it reads the setting of the thread
that blocks, and later records it with the owner. `sched_setscheduler` and
`malloc` succeed.
-/
namespace ThreadBites.InheritChains

open Transition WaitQueue Sched
open InheritBoost (Section Call entries Covered find_eq_head entries_run entries_inheritMutexSched)
open MutexCalls (World inheritAdd inheritSched inheritUnsched onOwner_of_owner onOwner_mutex)

variable {τ μ : Type}

/-- Where a thread is; `leave` is about to unlock `internal_futex`, and `waits` says whether
`FUTEX_WAIT` comes after it. -/
inductive Pc (μ : Type) where
  | user
  | lockInternal (f : Call) (m : μ)
  | look (f : Call) (m : μ)
  | setOwner (m : μ)
  | setFutex (m : μ)
  | inheritAdd (m : μ)
  | readInfo (m : μ)
  | record (m : μ) (info : SchedInfo)
  | inheritUnsched (m : μ)
  | clearOwner (m : μ)
  | clearFutex (m : μ)
  | futexWake (m : μ)
  | leave (m : μ) (waits : Bool)
  | futexWait (m : μ)
  | asleep (m : μ)
  deriving DecidableEq, Repr

/-- One pass through `tb_inherit_mutex_sched`: the setting that was read, when that was, and when it
was recorded with the owner. -/
structure Check (μ : Type) where
  mutex : μ
  info : SchedInfo
  began : Nat
  recorded : Nat

/-- History: `began` is when a thread last read its setting, `last` is its last check, and `changed` is
when a mutex was last taken or began to be given back. -/
structure State (τ μ : Type) where
  world : World τ μ
  internal : μ → Option τ
  pc : τ → Pc μ
  clock : Nat
  began : τ → Nat
  last : τ → Check μ
  changed : μ → Nat

/-- All mutexes are free and all threads outside, with any settings. -/
structure Initial (s : State τ μ) : Prop where
  owner : ∀ m, (s.world.mutex m).owner = none
  thread : ∀ t, (s.world.thread t).inheritMutexes = []
  pc : ∀ t, s.pc t = .user
  clock : 0 < s.clock
  began : ∀ t, s.began t = 0
  last : ∀ t, (s.last t).began = 0 ∧ (s.last t).recorded = 0
  changed : ∀ m, s.changed m = 0

/-- A call, the next access of a thread, a `FUTEX_WAIT` that returns by itself, another function that
runs on a thread, a new ceiling, and the `owner = 0` that a recursive unlock starts with. -/
inductive Action (τ μ : Type) where
  | call (t : τ) (f : Call) (m : μ)
  | next (t : τ) (woken : Option τ)
  | interrupt (t : τ)
  | other (t : τ) (f : Section μ)
  | ceiling (m : μ) (info : SchedInfo)
  | unlockRecursive (t : τ) (m : μ)
  deriving DecidableEq, Repr

variable [DecidableEq μ]

def asleep (m : μ) (c : Pc μ) : Bool := c = .asleep m

variable [DecidableEq τ]

def State.goto (s : State τ μ) (t : τ) (c : Pc μ) : State τ μ := { s with pc := Function.update s.pc t c }

def State.setOwner (s : State τ μ) (m : μ) (owner : Option τ) : State τ μ :=
  { s with world := s.world.put m { s.world.mutex m with owner := owner } }

def State.setFutex (s : State τ μ) (m : μ) (futex : Int) : State τ μ :=
  { s with world := s.world.put m { s.world.mutex m with futex := futex } }

def State.setInternal (s : State τ μ) (m : μ) (holder : Option τ) : State τ μ :=
  { s with internal := Function.update s.internal m holder }

/-- History: the mutex changes hands. -/
def State.change (s : State τ μ) (m : μ) : State τ μ :=
  { s with clock := s.clock + 1, changed := Function.update s.changed m s.clock }

/-- History: thread `t` reads its setting. -/
def State.begin (s : State τ μ) (t : τ) : State τ μ :=
  { s with clock := s.clock + 1, began := Function.update s.began t s.clock }

/-- History: thread `t` has recorded its setting. -/
def State.check (s : State τ μ) (t : τ) (m : μ) (info : SchedInfo) : State τ μ :=
  { s with clock := s.clock + 1, last := Function.update s.last t ⟨m, info, s.began t, s.clock⟩ }

variable [Fintype τ]

/-- The next access of thread `t`. -/
def next (s : State τ μ) (t : τ) (woken : Option τ) : Option (State τ μ) :=
  match s.pc t with
  | .lockInternal f m =>
    if s.internal m = none then some ((s.setInternal m (some t)).goto t (.look f m)) else none
  | .look .unlock m => some (s.goto t (.inheritUnsched m))
  | .look f m => some (s.goto t
      (if (s.world.mutex m).futex = 0 then .setOwner m else if f = .lock then .readInfo m else .leave m false))
  | .setOwner m => some (((s.change m).setOwner m (some t)).goto t (.setFutex m))
  | .setFutex m => some ((s.setFutex m 1).goto t (.inheritAdd m))
  | .inheritAdd m => (inheritAdd s.world m).map fun w => { s with world := w }.goto t (.leave m false)
  | .readInfo m => some ((s.begin t).goto t (.record m (s.world.thread t).schedInfo))
  | .record m info =>
    (inheritSched s.world m info 0).map fun w => ({ s with world := w }.check t m info).goto t (.leave m true)
  | .inheritUnsched m =>
    (inheritUnsched s.world m 0).map fun w => ({ s with world := w }.change m).goto t (.clearOwner m)
  | .clearOwner m => some ((s.setOwner m none).goto t (.clearFutex m))
  | .clearFutex m => some ((s.setFutex m 0).goto t (.futexWake m))
  | .futexWake m =>
    (wakeOne (asleep m) (fun _ => .lockInternal .lock m) (s.goto t (.leave m false)).pc woken).map fun pc =>
      { s with pc := pc }
  | .leave m waits => some ((s.setInternal m none).goto t (if waits then .futexWait m else .user))
  | .futexWait m => some (s.goto t (if (s.world.mutex m).futex = 1 then .asleep m else .lockInternal .lock m))
  | .user => none
  | .asleep _ => none

def step (s : State τ μ) : Action τ μ → Option (State τ μ)
  | .call t f m => if s.pc t = .user then some (s.goto t (.lockInternal f m)) else none
  | .next t woken => next s t woken
  | .interrupt t => match s.pc t with
    | .asleep m => some (s.goto t (.lockInternal .lock m))
    | _ => none
  | .other t f => if f.entry = none then
      some { s with world.thread := Function.update s.world.thread t (f.run s.world.info (s.world.thread t)) }
    else none
  | .ceiling m info => some { s with world.info := Function.update s.world.info m info }
  | .unlockRecursive t m => if s.pc t = .user ∧ (s.world.mutex m).owner = some t then
      some ((s.setOwner m none).goto t (.lockInternal .unlock m))
    else none

/-- In the section under `internal_futex` of a mutex. -/
def Pc.inside : Pc μ → Option μ
  | .look _ m => some m
  | .setOwner m => some m
  | .setFutex m => some m
  | .inheritAdd m => some m
  | .readInfo m => some m
  | .record m _ => some m
  | .inheritUnsched m => some m
  | .clearOwner m => some m
  | .clearFutex m => some m
  | .futexWake m => some m
  | .leave m _ => some m
  | _ => none

/-- Where the owner of a mutex has no entry for it. -/
def Pc.changing : Pc μ → Option μ
  | .setFutex m => some m
  | .inheritAdd m => some m
  | .clearOwner m => some m
  | _ => none

/-- Blocked in `lock_prio_inherit`, with its setting recorded. -/
def Pc.waits : Pc μ → Option μ
  | .leave m true => some m
  | .futexWait m => some m
  | .asleep m => some m
  | _ => none

/-- The setting that a check has read and not recorded yet. -/
def Pc.info : Pc μ → Option SchedInfo
  | .record _ info => some info
  | _ => none

omit [DecidableEq μ] [DecidableEq τ] [Fintype τ] in
theorem Pc.inside_of_changing {c : Pc μ} {m : μ} (h : c.changing = some m) : c.inside = some m := by
  cases c <;> first | exact h | cases h

section Records

variable {m : μ} {th : Thread μ} {mutexInfo : μ → SchedInfo}

omit [DecidableEq τ] [Fintype τ]

/-- The entry that `list_find_elem_func` finds for the mutex is of at least the priority. -/
def Records (m : μ) (th : Thread μ) (priority : Nat) : Prop :=
  ∃ e rest, entries m th = (m, e) :: rest ∧ priority ≤ e.priority

theorem Records.covered {n : Nat} (h : Records m th n) (hc : Covered th) : n ≤ th.schedInfo.priority := by
  obtain ⟨e, rest, he, hn⟩ := h
  have hmem : (m, e) ∈ entries m th := by
    rw [he]
    exact List.mem_cons_self ..
  exact hn.trans (hc (m, e) (List.mem_filter.mp hmem).1)

/-- Only giving the mutex back takes the entry away. -/
theorem Records.run {n : Nat} (h : Records m th n) {f : Section μ} (hf : f ≠ .inheritMutexUnsched m) :
    Records m (f.run mutexInfo th) n := by
  obtain ⟨e, rest, he, hn⟩ := h
  by_cases hm : f.entry = some m
  · cases f with
    | inheritMutexAdd k =>
      refine ⟨e, rest ++ entries m { th with inheritMutexes := [(k, .zero)] }, ?_, hn⟩
      unfold entries at he ⊢
      simp [Section.run, inheritMutexAdd, List.filter_append, he]
    | inheritMutexUnsched k =>
      have hk : k = m := by simpa [Section.entry] using hm
      exact absurd (by rw [hk]) hf
    | inheritMutexSched k info =>
      have hk : k = m := by simpa [Section.entry] using hm
      subst k
      obtain ⟨e', he', hle, -⟩ := entries_inheritMutexSched he mutexInfo info 0
      exact ⟨e', rest, he', hn.trans hle⟩
    | _ => cases hm
  · exact ⟨e, rest, (entries_run hm).trans he, hn⟩

/-- Who goes through `tb_inherit_mutex_sched` has its priority recorded. -/
theorem Records.sched (h : Records m th 0) (info : SchedInfo) :
    Records m (Section.run mutexInfo th (.inheritMutexSched m info)) info.priority := by
  obtain ⟨e, rest, he, -⟩ := h
  obtain ⟨e', he', -, hle⟩ := entries_inheritMutexSched he mutexInfo info 0
  exact ⟨e', rest, he', hle⟩

theorem records_add : Records m (Section.run mutexInfo th (.inheritMutexAdd m)) 0 := by
  have he : entries m (Section.run mutexInfo th (.inheritMutexAdd m)) = entries m th ++ [(m, .zero)] := by
    simp [entries, Section.run, inheritMutexAdd, List.filter_append]
  cases hl : entries m th with
  | nil => exact ⟨.zero, [], by rw [he, hl]; rfl, Nat.zero_le _⟩
  | cons im rest =>
    have hmem : im ∈ entries m th := by
      rw [hl]
      exact List.mem_cons_self ..
    have hm : im.1 = m := by simpa using (List.mem_filter.mp hmem).2
    exact ⟨im.2, rest ++ [(m, .zero)], by rw [he, hl, ← hm]; rfl, Nat.zero_le _⟩

end Records

section Links

omit [Fintype τ]

/-- Thread `o` owns the mutex that `t` was last checked for, which has not changed hands since. -/
structure Linked (s : State τ μ) (t o : τ) : Prop where
  owner : (s.world.mutex (s.last t).mutex).owner = some o
  fresh : s.changed (s.last t).mutex < (s.last t).recorded

/-- What was recorded stays recorded with the owner, who runs with it, and reads it in every check that
begins later. -/
structure Inv (s : State τ μ) : Prop where
  inside : ∀ t m, (s.pc t).inside = some m → s.internal m = some t
  entry : ∀ m o, (s.world.mutex m).owner = some o → (∀ t, (s.pc t).changing ≠ some m) →
    Records m (s.world.thread o) 0
  covered : ∀ t, Covered (s.world.thread t)
  changed : ∀ m, s.changed m < s.clock
  began : ∀ t, s.began t < s.clock
  last : ∀ t, (s.last t).began < s.clock ∧ (s.last t).recorded < s.clock
  waits : ∀ t m, (s.pc t).waits = some m → (s.last t).mutex = m
  boost : ∀ t o, Linked s t o → Records (s.last t).mutex (s.world.thread o) (s.last t).info.priority
  reads : ∀ t o info, Linked s t o → (s.pc o).info = some info → (s.last t).recorded < s.began o →
    (s.last t).info.priority ≤ info.priority
  chain : ∀ t o, Linked s t o → (s.last t).recorded < (s.last o).began →
    (s.last t).info.priority ≤ (s.last o).info.priority

omit [DecidableEq τ] in
theorem Initial.inv {s : State τ μ} (h : Initial s) : Inv s := by
  have hlinked : ∀ t o, ¬ Linked s t o := by
    intro t o hl
    have howner := hl.owner
    rw [h.owner] at howner
    cases howner
  constructor
  · intro t m hm
    simp [h.pc, Pc.inside] at hm
  · intro m o ho
    simp [h.owner] at ho
  · intro t im him
    simp [h.thread] at him
  · intro m
    rw [h.changed]
    exact h.clock
  · intro t
    rw [h.began]
    exact h.clock
  · intro t
    rw [(h.last t).1, (h.last t).2]
    exact ⟨h.clock, h.clock⟩
  · intro t m hm
    simp [h.pc, Pc.waits] at hm
  · exact fun t o hl => absurd hl (hlinked t o)
  · exact fun t o _ hl => absurd hl (hlinked t o)
  · exact fun t o hl => absurd hl (hlinked t o)

variable {s : State τ μ} {t : τ}

omit [DecidableEq μ] in
/-- What the place of a thread says after a move. -/
theorem goto_some {κ : Type} {u : τ} {c : Pc μ} {p : Pc μ → Option κ} {k : κ} (h : p ((s.goto t c).pc u) = some k) :
    u = t ∧ p c = some k ∨ u ≠ t ∧ p (s.pc u) = some k := by
  by_cases hut : u = t
  · subst u
    exact .inl ⟨rfl, by simpa [State.goto] using h⟩
  · exact .inr ⟨hut, by simpa [State.goto, hut] using h⟩

omit [DecidableEq μ] in
/-- Nobody was changing a mutex if nobody is after the move, and the thread that moves was not. -/
theorem goto_changing {m : μ} {c : Pc μ} (hpc : (s.pc t).changing ≠ some m)
    (hno : ∀ u, ((s.goto t c).pc u).changing ≠ some m) (u : τ) : (s.pc u).changing ≠ some m := by
  by_cases hut : u = t
  · rw [hut]
    exact hpc
  · simpa [State.goto, hut] using hno u

/-- Thread `t` moves; mutexes lose owners at most, and no setting is read or recorded. -/
theorem Inv.goto (h : Inv s) {c : Pc μ} {w : World τ μ} {internal : μ → Option τ}
    (hthread : w.thread = s.world.thread)
    (howner : ∀ m o, (w.mutex m).owner = some o → (s.world.mutex m).owner = some o)
    (hinternal : ∀ u m, u ≠ t → (s.pc u).inside = some m → internal m = some u)
    (hinside : ∀ m, c.inside = some m → internal m = some t)
    (hchanging : ∀ m, (s.pc t).changing = some m → c.changing = some m ∨
      ∀ o, (w.mutex m).owner = some o → Records m (s.world.thread o) 0)
    (hwaits : ∀ m, c.waits = some m → (s.last t).mutex = m) (hinfo : c.info = none) :
    Inv ({ s with world := w, internal := internal }.goto t c) := by
  have hlinked : ∀ {u o}, Linked ({ s with world := w, internal := internal }.goto t c) u o → Linked s u o :=
    fun hl => ⟨howner _ _ hl.owner, hl.fresh⟩
  constructor
  · intro u m hu
    cases goto_some hu with
    | inl hu =>
      rw [hu.1]
      exact hinside m hu.2
    | inr hu => exact hinternal u m hu.1 hu.2
  · intro m o ho hno
    simp only [State.goto, hthread]
    by_cases hpc : (s.pc t).changing = some m
    · cases hchanging m hpc with
      | inl hc => exact absurd (by simpa [State.goto] using hc) (hno t)
      | inr hadded => exact hadded o ho
    · exact h.entry m o (howner m o ho) (goto_changing hpc hno)
  · intro u
    simp only [State.goto, hthread]
    exact h.covered u
  · exact h.changed
  · exact h.began
  · exact h.last
  · intro u m hu
    cases goto_some hu with
    | inl hu =>
      rw [hu.1]
      exact hwaits m hu.2
    | inr hu => exact h.waits u m hu.2
  · intro u o hl
    simp only [State.goto, hthread]
    exact h.boost u o (hlinked hl)
  · intro u o info hl ho
    cases goto_some ho with
    | inl ho =>
      rw [hinfo] at ho
      cases ho.2
    | inr ho => exact h.reads u o info (hlinked hl) ho.2
  · exact fun u o hl => h.chain u o (hlinked hl)

/-- Thread `t` moves and stays inside or outside; it does not wait there. -/
theorem Inv.stay (h : Inv s) {c : Pc μ} {w : World τ μ} (hthread : w.thread = s.world.thread)
    (howner : ∀ m o, (w.mutex m).owner = some o → (s.world.mutex m).owner = some o)
    (hinside : c.inside = (s.pc t).inside)
    (hchanging : ∀ m, (s.pc t).changing = some m → c.changing = some m ∨
      ∀ o, (w.mutex m).owner = some o → Records m (s.world.thread o) 0)
    (hwaits : c.waits = none) (hinfo : c.info = none) : Inv ({ s with world := w }.goto t c) := by
  apply h.goto hthread howner
  · exact fun u m _ hu => h.inside u m hu
  · exact fun m hm => h.inside t m (hinside.symm.trans hm)
  · exact hchanging
  · intro m hm
    rw [hwaits] at hm
    cases hm
  · exact hinfo

/-- Thread `t` moves and touches no mutex. -/
theorem Inv.walk (h : Inv s) {c : Pc μ} (hinside : c.inside = (s.pc t).inside)
    (hchanging : (s.pc t).changing = none) (hwaits : ∀ m, c.waits = some m → (s.last t).mutex = m)
    (hinfo : c.info = none) : Inv (s.goto t c) := by
  apply h.goto rfl fun _ _ ho => ho
  · exact fun u m _ hu => h.inside u m hu
  · exact fun m hm => h.inside t m (hinside.symm.trans hm)
  · intro m hm
    rw [hchanging] at hm
    cases hm
  · exact hwaits
  · exact hinfo

/-- A function other than the one that removes an entry runs on thread `o`. -/
theorem Inv.section (h : Inv s) {o : τ} {f : Section μ} (hf : ∀ m, f ≠ .inheritMutexUnsched m) :
    Inv { s with world.thread := Function.update s.world.thread o (f.run s.world.info (s.world.thread o)) } := by
  have hkeep : ∀ {m u n}, Records m (s.world.thread u) n →
      Records m (Function.update s.world.thread o (f.run s.world.info (s.world.thread o)) u) n := by
    intro m u n hr
    by_cases hu : u = o
    · subst u
      rw [Function.update_self]
      exact hr.run (hf m)
    · rw [Function.update_of_ne hu]
      exact hr
  constructor
  · exact h.inside
  · exact fun m u ho hno => hkeep (h.entry m u ho hno)
  · intro u
    by_cases hu : u = o
    · subst u
      simp only [Function.update_self]
      exact (h.covered o).run _ _
    · simp only [Function.update_of_ne hu]
      exact h.covered u
  · exact h.changed
  · exact h.began
  · exact h.last
  · exact h.waits
  · exact fun u v hl => hkeep (h.boost u v ⟨hl.owner, hl.fresh⟩)
  · exact fun u v info hl => h.reads u v info ⟨hl.owner, hl.fresh⟩
  · exact fun u v hl => h.chain u v ⟨hl.owner, hl.fresh⟩

/-- A mutex changes hands, and with it nothing but its own owner and entries. -/
theorem Inv.change (h : Inv s) {m : μ} {c : Pc μ} {w : World τ μ} (hin : (s.pc t).inside = some m)
    (hpc : (s.pc t).changing = none) (howner : ∀ k, k ≠ m → (w.mutex k).owner = (s.world.mutex k).owner)
    (hkeep : ∀ k u n, k ≠ m → Records k (s.world.thread u) n → Records k (w.thread u) n)
    (hcovered : ∀ u, Covered (w.thread u)) (hinside : c.inside = some m) (hchanging : c.changing = some m)
    (hwaits : c.waits = none) (hinfo : c.info = none) : Inv (({ s with world := w }.change m).goto t c) := by
  have hlinked : ∀ {u o}, Linked (({ s with world := w }.change m).goto t c) u o →
      (s.last u).mutex ≠ m ∧ Linked s u o := by
    intro u o hl
    have hfresh : Function.update s.changed m s.clock (s.last u).mutex < (s.last u).recorded := hl.fresh
    have hm : (s.last u).mutex ≠ m := by
      intro hm
      rw [hm, Function.update_self] at hfresh
      exact absurd (h.last u).2 (by omega)
    rw [Function.update_of_ne hm] at hfresh
    exact ⟨hm, (howner _ hm).symm.trans hl.owner, hfresh⟩
  constructor
  · intro u k hu
    cases goto_some hu with
    | inl hu =>
      have hk : m = k := Option.some.inj (hinside.symm.trans hu.2)
      rw [hu.1, ← hk]
      exact h.inside t m hin
    | inr hu => exact h.inside u k hu.2
  · intro k o ho hno
    have hk : k ≠ m := by
      intro hk
      exact hno t (by simp [State.goto, hchanging, hk])
    apply hkeep k o 0 hk
    exact h.entry k o ((howner k hk).symm.trans ho) (goto_changing (by simp [hpc]) hno)
  · exact hcovered
  · intro k
    by_cases hk : k = m
    · simp [State.goto, State.change, hk]
    · simpa [State.goto, State.change, hk] using Nat.lt_succ_of_lt (h.changed k)
  · exact fun u => Nat.lt_succ_of_lt (h.began u)
  · exact fun u => ⟨Nat.lt_succ_of_lt (h.last u).1, Nat.lt_succ_of_lt (h.last u).2⟩
  · intro u k hu
    cases goto_some hu with
    | inl hu =>
      rw [hwaits] at hu
      cases hu.2
    | inr hu => exact h.waits u k hu.2
  · intro u o hl
    obtain ⟨hm, hl⟩ := hlinked hl
    exact hkeep _ o _ hm (h.boost u o hl)
  · intro u o info hl ho
    cases goto_some ho with
    | inl ho =>
      rw [hinfo] at ho
      cases ho.2
    | inr ho => exact h.reads u o info (hlinked hl).2 ho.2
  · exact fun u o hl => h.chain u o (hlinked hl).2

/-- A thread reads its setting: it is as strong as what is recorded with it. -/
theorem Inv.begin (h : Inv s) {m : μ} (hin : (s.pc t).inside = some m) (hpc : (s.pc t).changing = none) :
    Inv ((s.begin t).goto t (.record m (s.world.thread t).schedInfo)) := by
  constructor
  · intro u k hu
    cases goto_some hu with
    | inl hu =>
      have hk : m = k := Option.some.inj hu.2
      rw [hu.1, ← hk]
      exact h.inside t m hin
    | inr hu => exact h.inside u k hu.2
  · exact fun k o ho hno => h.entry k o ho (goto_changing (by simp [hpc]) hno)
  · exact h.covered
  · exact fun k => Nat.lt_succ_of_lt (h.changed k)
  · intro u
    by_cases hut : u = t
    · simp [State.goto, State.begin, hut]
    · simpa [State.goto, State.begin, hut] using Nat.lt_succ_of_lt (h.began u)
  · exact fun u => ⟨Nat.lt_succ_of_lt (h.last u).1, Nat.lt_succ_of_lt (h.last u).2⟩
  · intro u k hu
    cases goto_some hu with
    | inl hu => cases hu.2
    | inr hu => exact h.waits u k hu.2
  · exact fun u o hl => h.boost u o ⟨hl.owner, hl.fresh⟩
  · intro u o info hl ho hbegan
    have hl : Linked s u o := ⟨hl.owner, hl.fresh⟩
    cases goto_some ho with
    | inl ho =>
      have hinfo : (s.world.thread t).schedInfo = info := Option.some.inj ho.2
      rw [← hinfo]
      exact (h.boost u t (ho.1 ▸ hl)).covered (h.covered t)
    | inr ho => exact h.reads u o info hl ho.2 (by simpa [State.goto, State.begin, ho.1] using hbegan)
  · exact fun u o hl => h.chain u o ⟨hl.owner, hl.fresh⟩

/-- A thread records what it has read; nobody has begun a check since. -/
theorem Inv.record (h : Inv s) {m : μ} {info : SchedInfo} (hpc : s.pc t = .record m info)
    (hrecords : ∀ o, (s.world.mutex m).owner = some o → Records m (s.world.thread o) info.priority) :
    Inv ((s.check t m info).goto t (.leave m true)) := by
  have hlast : ∀ {u}, u ≠ t → ((s.check t m info).goto t (.leave m true)).last u = s.last u := by
    intro u hu
    simp [State.goto, State.check, hu]
  have hself : ((s.check t m info).goto t (.leave m true)).last t = ⟨m, info, s.began t, s.clock⟩ := by
    simp [State.goto, State.check]
  have hlinked : ∀ {u o}, u ≠ t → Linked ((s.check t m info).goto t (.leave m true)) u o → Linked s u o := by
    intro u o hu hl
    obtain ⟨howner, hfresh⟩ := hl
    rw [hlast hu] at howner hfresh
    exact ⟨howner, hfresh⟩
  constructor
  · intro u k hu
    cases goto_some hu with
    | inl hu =>
      have hk : m = k := Option.some.inj hu.2
      rw [hu.1, ← hk]
      exact h.inside t m (by rw [hpc]; rfl)
    | inr hu => exact h.inside u k hu.2
  · exact fun k o ho hno => h.entry k o ho (goto_changing (by simp [hpc, Pc.changing]) hno)
  · exact h.covered
  · exact fun k => Nat.lt_succ_of_lt (h.changed k)
  · exact fun u => Nat.lt_succ_of_lt (h.began u)
  · intro u
    by_cases hut : u = t
    · subst u
      rw [hself]
      exact ⟨Nat.lt_succ_of_lt (h.began t), Nat.lt_succ_self _⟩
    · rw [hlast hut]
      exact ⟨Nat.lt_succ_of_lt (h.last u).1, Nat.lt_succ_of_lt (h.last u).2⟩
  · intro u k hu
    cases goto_some hu with
    | inl hu =>
      rw [hu.1, hself]
      exact Option.some.inj hu.2
    | inr hu =>
      rw [hlast hu.1]
      exact h.waits u k hu.2
  · intro u o hl
    by_cases hut : u = t
    · subst u
      have howner := hl.owner
      rw [hself] at howner ⊢
      exact hrecords o howner
    · rw [hlast hut]
      exact h.boost u o (hlinked hut hl)
  · intro u o i hl ho hbegan
    by_cases hut : u = t
    · subst u
      rw [hself] at hbegan
      exact absurd (h.began o) (Nat.not_lt.mpr (Nat.le_of_lt hbegan))
    · rw [hlast hut] at hbegan ⊢
      cases goto_some ho with
      | inl ho => cases ho.2
      | inr ho => exact h.reads u o i (hlinked hut hl) ho.2 hbegan
  · intro u o hl hbegan
    by_cases hut : u = t
    · subst u
      rw [hself] at hbegan ⊢
      by_cases hot : o = t
      · subst o
        rw [hself]
      · rw [hlast hot] at hbegan
        exact absurd (h.last o).1 (Nat.not_lt.mpr (Nat.le_of_lt hbegan))
    · rw [hlast hut] at hbegan ⊢
      by_cases hot : o = t
      · subst o
        rw [hself] at hbegan ⊢
        exact h.reads u t info (hlinked hut hl) (by rw [hpc]; rfl) hbegan
      · rw [hlast hot] at hbegan ⊢
        exact h.chain u o (hlinked hut hl) hbegan

omit [DecidableEq τ] in
/-- Threads wake up. -/
theorem Inv.woken (h : Inv s) {m : μ} {pc : τ → Pc μ}
    (hw : Woken (asleep m) (fun _ => .lockInternal .lock m) s.pc pc) : Inv { s with pc := pc } := by
  have hsleeper : ∀ {c : Pc μ}, asleep m c = true → c = .asleep m := fun hc => by simpa [asleep] using hc
  have hinside : ∀ u, (pc u).inside = (s.pc u).inside := hw.same fun c hc => by rw [hsleeper hc]; rfl
  have hchanging : ∀ u, (pc u).changing = (s.pc u).changing := hw.same fun c hc => by rw [hsleeper hc]; rfl
  have hinfo : ∀ u, (pc u).info = (s.pc u).info := hw.same fun c hc => by rw [hsleeper hc]; rfl
  have hwaits : ∀ u k, (pc u).waits = some k → (s.pc u).waits = some k := by
    intro u k hu
    cases hw u with
    | inl he => rwa [he] at hu
    | inr he =>
      rw [he.2] at hu
      cases hu
  constructor
  · exact fun u k hu => h.inside u k ((hinside u).symm.trans hu)
  · exact fun k o ho hno => h.entry k o ho fun u hu => hno u ((hchanging u).trans hu)
  · exact h.covered
  · exact h.changed
  · exact h.began
  · exact h.last
  · exact fun u k hu => h.waits u k (hwaits u k hu)
  · exact fun u o hl => h.boost u o ⟨hl.owner, hl.fresh⟩
  · exact fun u o info hl ho => h.reads u o info ⟨hl.owner, hl.fresh⟩ ((hinfo o).symm.trans ho)
  · exact fun u o hl => h.chain u o ⟨hl.owner, hl.fresh⟩

omit [DecidableEq τ] in
/-- Ceilings are none of the entries. -/
theorem Inv.ceiling (h : Inv s) (info : μ → SchedInfo) : Inv { s with world.info := info } where
  inside := h.inside
  entry := h.entry
  covered := h.covered
  changed := h.changed
  began := h.began
  last := h.last
  waits := h.waits
  boost u o hl := h.boost u o ⟨hl.owner, hl.fresh⟩
  reads u o i hl := h.reads u o i ⟨hl.owner, hl.fresh⟩
  chain u o hl := h.chain u o ⟨hl.owner, hl.fresh⟩

end Links

end ThreadBites.InheritChains

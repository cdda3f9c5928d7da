import ThreadBites.Mutex
import ThreadBites.Scheduling

/-!
# Calls on mutexes

The functions of `tb-mutexes.c` as whole calls, on all mutexes and on the
scheduling fields of all threads. A section under the lock of a descriptor is a
function of that thread's record; finding the record of a null owner is a fault,
which has no result. A call that has to wait for the futex word has not returned:
it is taken up again from its last look at the word. `ret` is what
`sched_setscheduler` returns.
-/
namespace ThreadBites.MutexCalls

open Mutex (Fields EPERM EAGAIN EDEADLK)
open FutexLock (compareAndSwap EBUSY)
open Sched (SchedInfo)

variable {τ μ : Type}

/-- The mutexes, their `sched_info`, and the scheduling fields of the threads. -/
structure World (τ μ : Type) where
  mutex : μ → Fields τ
  info : μ → SchedInfo
  thread : τ → Sched.Thread μ

/-- Free mutexes of one type and protocol, and threads that were never scheduled. -/
def World.fresh (k : Mutex.Kind) (p : Mutex.Protocol) : World τ μ where
  mutex := fun _ => ⟨0, k, p, none, 0⟩
  info := fun _ => .zero
  thread := fun _ => ⟨.zero, .zero, [], []⟩

variable [DecidableEq μ]

def World.put (w : World τ μ) (m : μ) (f : Fields τ) : World τ μ :=
  { w with mutex := Function.update w.mutex m f }

@[simp] theorem put_mutex_same (w : World τ μ) (m : μ) (f : Fields τ) : (w.put m f).mutex m = f := by
  simp [World.put]

theorem put_mutex_other (w : World τ μ) {m k : μ} (f : Fields τ) (h : k ≠ m) :
    (w.put m f).mutex k = w.mutex k := by
  simp [World.put, h]

@[simp] theorem put_info (w : World τ μ) (m : μ) (f : Fields τ) : (w.put m f).info = w.info := rfl

@[simp] theorem put_thread (w : World τ μ) (m : μ) (f : Fields τ) : (w.put m f).thread = w.thread := rfl

@[simp] theorem put_put (w : World τ μ) (m : μ) (f g : Fields τ) : (w.put m f).put m g = w.put m g := by
  simp [World.put]

@[simp] theorem put_self (w : World τ μ) (m : μ) : w.put m (w.mutex m) = w := by
  simp [World.put]

variable [DecidableEq τ]

/-- `mutex->owner`, and what is done to its descriptor. -/
def World.onOwner (w : World τ μ) (m : μ) (f : Sched.Thread μ → Sched.Thread μ) : Option (World τ μ) :=
  (w.mutex m).owner.map fun o => { w with thread := Function.update w.thread o (f (w.thread o)) }

def protectSched (w : World τ μ) (m : μ) (ret : Int) : Option (World τ μ) :=
  w.onOwner m fun th => Sched.protectMutexSched w.info m th ret

def protectUnsched (w : World τ μ) (m : μ) (ret : Int) : Option (World τ μ) :=
  w.onOwner m fun th => Sched.protectMutexUnsched w.info m th ret

def inheritAdd (w : World τ μ) (m : μ) : Option (World τ μ) :=
  w.onOwner m (Sched.inheritMutexAdd m)

def inheritUnsched (w : World τ μ) (m : μ) (ret : Int) : Option (World τ μ) :=
  w.onOwner m fun th => Sched.inheritMutexUnsched w.info m th ret

/-- `tb_inherit_mutex_sched` where `info` was read of the thread that blocks. -/
def inheritSched (w : World τ μ) (m : μ) (info : SchedInfo) (ret : Int) : Option (World τ μ) :=
  w.onOwner m fun th => Sched.inheritMutexSched w.info m info th ret

omit [DecidableEq τ] in
/-- `lock_prio_none` up to the first look at the word that finds it 0, and whether this one does. -/
def lockPrioNone (w : World τ μ) (m : μ) (self : τ) : World τ μ × Bool :=
  match compareAndSwap (w.mutex m).futex 0 1 with
  | (futex, true) => (w.put m { w.mutex m with futex := futex, owner := some self }, true)
  | (_, false) => (w, false)

def lockPrioInherit (w : World τ μ) (m : μ) (self : τ) (ret : Int) : Option (World τ μ × Bool) :=
  if (w.mutex m).futex = 0 then
    (inheritAdd (w.put m { w.mutex m with owner := some self, futex := 1 }) m).map fun w => (w, true)
  else (inheritSched w m (w.thread self).schedInfo ret).map fun w => (w, false)

def lockPrioProtect (w : World τ μ) (m : μ) (self : τ) (ret : Int) : Option (World τ μ × Bool) :=
  match lockPrioNone w m self with
  | (w, true) => (protectSched w m ret).map fun w => (w, true)
  | (w, false) => some (w, false)

def lockProto (w : World τ μ) (m : μ) (self : τ) (ret : Int) : Option (World τ μ × Bool) :=
  match (w.mutex m).protocol with
  | .prioNone => some (lockPrioNone w m self)
  | .prioInherit => lockPrioInherit w m self ret
  | .prioProtect => lockPrioProtect w m self ret

omit [DecidableEq τ] in
/-- The end of `lock_recursive` and `trylock_recursive`. -/
def countUp (w : World τ μ) (m : μ) : World τ μ × Int :=
  if (w.mutex m).counter = -1 then (w, -EAGAIN)
  else (w.put m { w.mutex m with counter := (w.mutex m).counter + 1 }, 0)

/-- `tbthread_mutex_lock`: what it returns, unless it waits. -/
def lock (w : World τ μ) (m : μ) (self : τ) (ret : Int) : Option (World τ μ × Option Int) :=
  match (w.mutex m).kind with
  | .normal => (lockProto w m self ret).map fun (w, locked) => (w, if locked then some 0 else none)
  | .errorcheck =>
    if (w.mutex m).owner = some self then some (w, some (-EDEADLK))
    else (lockProto w m self ret).map fun (w, locked) => (w, if locked then some 0 else none)
  | .recursive =>
    if (w.mutex m).owner = some self then some ((countUp w m).map id some)
    else (lockProto w m self ret).map fun
      | (w, true) => (countUp (w.put m { w.mutex m with owner := some self }) m).map id some
      | (w, false) => (w, none)

/-- `trylock_prio_none`. -/
def trylockPrioNone (w : World τ μ) (m : μ) (self : τ) : World τ μ × Bool := lockPrioNone w m self

def trylockPrioInherit (w : World τ μ) (m : μ) (self : τ) : Option (World τ μ × Bool) :=
  if (w.mutex m).futex = 0 then
    (inheritAdd (w.put m { w.mutex m with owner := some self, futex := 1 }) m).map fun w => (w, true)
  else some (w, false)

def trylockPrioProtect (w : World τ μ) (m : μ) (self : τ) (ret : Int) : Option (World τ μ × Bool) :=
  match trylockPrioNone w m self with
  | (w, true) => (protectSched w m ret).map fun w => (w, true)
  | (w, false) => some (w, false)

def trylockProto (w : World τ μ) (m : μ) (self : τ) (ret : Int) : Option (World τ μ × Bool) :=
  match (w.mutex m).protocol with
  | .prioNone => some (trylockPrioNone w m self)
  | .prioInherit => trylockPrioInherit w m self
  | .prioProtect => trylockPrioProtect w m self ret

/-- `tbthread_mutex_trylock`. -/
def trylock (w : World τ μ) (m : μ) (self : τ) (ret : Int) : Option (World τ μ × Int) :=
  match (w.mutex m).kind with
  | .recursive =>
    if (w.mutex m).owner = some self then some (countUp w m)
    else (trylockProto w m self ret).map fun
      | (w, false) => (w, -EBUSY)
      | (w, true) =>
        if (w.mutex m).owner = some self then countUp w m
        else (w.put m { w.mutex m with owner := some self, counter := 1 }, 0)
  | _ => (trylockProto w m self ret).map fun (w, locked) => (w, if locked then 0 else -EBUSY)

omit [DecidableEq τ] in
def unlockPrioNone (w : World τ μ) (m : μ) : World τ μ :=
  w.put m { w.mutex m with owner := none, futex := (compareAndSwap (w.mutex m).futex 1 0).1 }

omit [DecidableEq τ] in
@[simp] theorem unlockPrioNone_thread (w : World τ μ) (m : μ) : (unlockPrioNone w m).thread = w.thread := rfl

def unlockPrioInherit (w : World τ μ) (m : μ) (ret : Int) : Option (World τ μ) :=
  (inheritUnsched w m ret).map fun w => w.put m { w.mutex m with owner := none, futex := 0 }

def unlockPrioProtect (w : World τ μ) (m : μ) (ret : Int) : Option (World τ μ) :=
  (protectUnsched w m ret).map fun w => unlockPrioNone w m

def unlockProto (w : World τ μ) (m : μ) (ret : Int) : Option (World τ μ) :=
  match (w.mutex m).protocol with
  | .prioNone => some (unlockPrioNone w m)
  | .prioInherit => unlockPrioInherit w m ret
  | .prioProtect => unlockPrioProtect w m ret

/-- `tbthread_mutex_unlock`. -/
def unlock (w : World τ μ) (m : μ) (self : τ) (ret : Int) : Option (World τ μ × Int) :=
  match (w.mutex m).kind with
  | .normal => (unlockProto w m ret).map fun w => (w, 0)
  | .errorcheck =>
    if (w.mutex m).owner ≠ some self ∨ (w.mutex m).futex = 0 then some (w, -EPERM)
    else (unlockProto w m ret).map fun w => (w, 0)
  | .recursive =>
    if (w.mutex m).owner ≠ some self then some (w, -EPERM)
    else
      let counter := (w.mutex m).counter - 1
      if counter = 0 then
        (unlockProto (w.put m { w.mutex m with counter := counter, owner := none }) m ret).map fun w => (w, 0)
      else some (w.put m { w.mutex m with counter := counter }, 0)

section Owner

variable {w w' : World τ μ} {m : μ} {self : τ} {ret : Int}

omit [DecidableEq μ] in
theorem onOwner_mutex {f : Sched.Thread μ → Sched.Thread μ} (h : w.onOwner m f = some w') :
    w'.mutex = w.mutex := by
  obtain ⟨o, -, rfl⟩ := Option.map_eq_some_iff.mp h
  rfl

omit [DecidableEq μ] in
theorem onOwner_of_owner {f : Sched.Thread μ → Sched.Thread μ} {o : τ} (ho : (w.mutex m).owner = some o) :
    w.onOwner m f = some { w with thread := Function.update w.thread o (f (w.thread o)) } := by
  simp [World.onOwner, ho]

omit [DecidableEq τ] in
theorem lockPrioNone_owner {w' : World τ μ} (h : lockPrioNone w m self = (w', true)) :
    (w'.mutex m).owner = some self := by
  unfold lockPrioNone at h
  split at h
  · cases h
    simp
  · cases h

theorem lockPrioInherit_owner (h : lockPrioInherit w m self ret = some (w', true)) :
    (w'.mutex m).owner = some self := by
  unfold lockPrioInherit at h
  split at h
  · obtain ⟨v, hv, he⟩ := Option.map_eq_some_iff.mp h
    cases he
    rw [onOwner_mutex hv]
    simp
  · obtain ⟨v, -, he⟩ := Option.map_eq_some_iff.mp h
    cases he

theorem lockPrioProtect_owner (h : lockPrioProtect w m self ret = some (w', true)) :
    (w'.mutex m).owner = some self := by
  unfold lockPrioProtect at h
  split at h
  · rename_i v hv
    obtain ⟨u, hu, he⟩ := Option.map_eq_some_iff.mp h
    cases he
    rw [onOwner_mutex hu]
    exact lockPrioNone_owner hv
  · cases h

theorem lockProto_owner (h : lockProto w m self ret = some (w', true)) : (w'.mutex m).owner = some self := by
  unfold lockProto at h
  cases hp : (w.mutex m).protocol with
  | prioNone =>
    rw [hp] at h
    exact lockPrioNone_owner (Option.some.inj h)
  | prioInherit =>
    rw [hp] at h
    exact lockPrioInherit_owner h
  | prioProtect =>
    rw [hp] at h
    exact lockPrioProtect_owner h

omit [DecidableEq τ] in
theorem countUp_owner : ((countUp w m).1.mutex m).owner = (w.mutex m).owner := by
  unfold countUp
  split <;> simp

/-- Whatever a lock of any type and protocol returns, the caller is the owner then. -/
theorem lock_owner {e : Int} (h : lock w m self ret = some (w', some e)) : (w'.mutex m).owner = some self := by
  have hproto : ∀ {g : World τ μ × Bool → World τ μ × Option Int},
      (∀ v, (g (v, false)).2 = none) → (∀ v, (v.mutex m).owner = some self → ((g (v, true)).1.mutex m).owner = some self) →
      (lockProto w m self ret).map g = some (w', some e) → (w'.mutex m).owner = some self := by
    intro g hfalse htrue h
    obtain ⟨⟨v, locked⟩, hv, he⟩ := Option.map_eq_some_iff.mp h
    cases locked with
    | false =>
      have := hfalse v
      rw [he] at this
      cases this
    | true =>
      have := htrue v (lockProto_owner hv)
      rwa [he] at this
  unfold lock at h
  cases hk : (w.mutex m).kind with
  | normal =>
    rw [hk] at h
    exact hproto (fun v => rfl) (fun v hv => hv) h
  | errorcheck =>
    simp only [hk] at h
    split at h
    · cases h
      assumption
    · exact hproto (fun v => rfl) (fun v hv => hv) h
  | recursive =>
    simp only [hk] at h
    split at h
    · rename_i ho
      cases h
      exact countUp_owner.trans ho
    · refine hproto (fun v => rfl) (fun v hv => ?_) h
      exact countUp_owner.trans (by simp)

end Owner

end ThreadBites.MutexCalls

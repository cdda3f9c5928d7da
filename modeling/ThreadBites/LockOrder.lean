import ThreadBites.LockPrograms
import ThreadBites.Mutex

/-!
# What the library does with its internal locks

Every function that takes or clears an internal lock, waits, calls back into the
program, or calls one that does, file by file. An object is its address, of type `α`; the type
and the protocol of a mutex are given. `desc_mutex` is a normal mutex without a
protocol, so that locking it is `tb_futex_lock`. A null pointer that is followed is
a fault. Threads start at any time. A `SIGCANCEL` whose handler returns at once
changes nothing here, and one that acts comes in the code of the program, where
the handler is one more function that is called.
-/
namespace ThreadBites.LockOrder

open Transition LockPrograms
open Mutex (Kind Protocol)

variable {α : Type}

/-- The internal locks. -/
inductive Lock (α : Type) where
  | desc
  | cond (c : α)
  | rwlock (r : α)
  | internal (m : α)
  | thread (t : α)
  | memory
  | print
  deriving DecidableEq, Repr

/-- The order: locks are taken from low to high. -/
def Lock.level : Lock α → Nat
  | .desc => 0
  | .cond _ => 0
  | .rwlock _ => 0
  | .internal _ => 1
  | .thread _ => 2
  | .memory => 3
  | .print => 3

/-- The words of `FUTEX_WAIT` other than those of internal locks: `futex` of a mutex of the program. -/
inductive Wait (α : Type) where
  | futex (m : α)
  | tid (t : α)
  | startStatus (t : α)
  | rdFutex (r : α)
  | wrFutex (r : α)
  | condFutex (c : α)
  | once (o : α)
  deriving DecidableEq, Repr

/-- `tb-utils.c`. -/
inductive Utils where
  | tbprint
  | malloc
  | free
  | calloc
  | realloc
  | listAddElem
  | listClear
  deriving DecidableEq, Repr

/-- `tb-sched.c`. -/
inductive Sched (α : Type) where
  | tbProtectMutexSched (m : α)
  | tbProtectMutexUnsched (m : α)
  | tbInheritMutexAdd (m : α)
  | tbInheritMutexUnsched (m : α)
  | tbInheritMutexSched (m thread : α)
  | tbthreadSetschedparam (thread : α)
  | tbthreadGetschedparam (thread : α)
  deriving DecidableEq, Repr

/-- `tb-mutexes.c`. -/
inductive Mutexes (α : Type) where
  | lockNormal (m : α)
  | trylockNormal (m : α)
  | unlockNormal (m : α)
  | lockErrorcheck (m : α)
  | trylockErrorcheck (m : α)
  | unlockErrorcheck (m : α)
  | lockRecursive (m : α)
  | trylockRecursive (m : α)
  | unlockRecursive (m : α)
  | lockPrioNone (m : α)
  | trylockPrioNone (m : α)
  | unlockPrioNone (m : α)
  | lockPrioInherit (m : α)
  | trylockPrioInherit (m : α)
  | unlockPrioInherit (m : α)
  | lockPrioProtect (m : α)
  | trylockPrioProtect (m : α)
  | unlockPrioProtect (m : α)
  | tbthreadMutexLock (m : α)
  | tbthreadMutexTrylock (m : α)
  | tbthreadMutexUnlock (m : α)
  | tbthreadMutexInit (m : α)
  | tbthreadMutexSetprioceiling (m : α)
  deriving DecidableEq, Repr

/-- `tb-condvar.c`. -/
inductive Condvar (α : Type) where
  | tbthreadCondBroadcast (c : α)
  | tbthreadCondSignal (c : α)
  | tbthreadCondWait (c m : α)
  deriving DecidableEq, Repr

/-- `tb-rwlock.c`. -/
inductive Rwlock (α : Type) where
  | tbthreadRwlockRdlock (r : α)
  | tbthreadRwlockWrlock (r : α)
  | tbthreadRwlockUnlock (r : α)
  | tbthreadRwlockTryrdlock (r : α)
  | tbthreadRwlockTrywrlock (r : α)
  deriving DecidableEq, Repr

/-- `tb-cancel.c`, and the destructors of `tb-tls.c`. -/
inductive Cancel (α : Type) where
  | tbCancelHandler
  | tbthreadCancel (thread : α)
  | releaseCleanupHandler
  | callCleanupHandler
  | tbClearCleanupHandlers
  | tbCallCleanupHandlers
  | tbthreadCleanupPush
  | tbthreadCleanupPop
  | tbthreadSetcancelstate
  | tbthreadSetcanceltype
  | tbthreadTestcancel
  | tbTlsCallDestructors
  deriving DecidableEq, Repr

/-- `tb-threads.c`. -/
inductive Threads (α : Type) where
  | tbthreadInit
  | tbthreadFinit
  | startThread (th : α)
  | tbthreadExit
  | waitForThread (thread : α)
  | getDescriptor
  | releaseDescriptor
  | tbthreadCreate
  | tbthreadDetach (thread : α)
  | tbthreadJoin (thread : α)
  | tbthreadOnce (o : α)
  deriving DecidableEq, Repr

inductive Fn (α : Type) where
  | utils (f : Utils)
  | sched (f : Sched α)
  | mutexes (f : Mutexes α)
  | condvar (f : Condvar α)
  | rwlock (f : Rwlock α)
  | cancel (f : Cancel α)
  | threads (f : Threads α)
  deriving DecidableEq, Repr

abbrev Body (α : Type) := Prog (Lock α) (Wait α) (Fn α) α

def utils : Utils → Body α
  | .tbprint => steps [.acquire .print, .release .print]
  -- the early return is for a heap that did not grow
  | .malloc => steps [.acquire .memory, .choice (.release .memory) (.release .memory)]
  | .free => optional (steps [.acquire .memory, .release .memory])
  | .calloc => .call (.utils .malloc)
  | .realloc => steps [.call (.utils .malloc), .call (.utils .free)]
  | .listAddElem => .call (.utils .malloc)
  | .listClear => .loop (.call (.utils .free))

/-- `owner = mutex->owner` and what is done under its lock. -/
def underOwner (p : Body α) : Body α :=
  .choice .fault (.any fun owner => steps [.acquire (.thread owner), p, .release (.thread owner)])

def sched : Sched α → Body α
  | .tbProtectMutexSched _ => underOwner (.call (.utils .malloc))
  | .tbProtectMutexUnsched _ => underOwner (optional (.call (.utils .free)))
  | .tbInheritMutexAdd _ => underOwner (steps [.call (.utils .malloc),
      -- a second malloc after one that succeeded, and the node freed if that fails
      optional (steps [.call (.utils .malloc), optional (.call (.utils .free))])])
  | .tbInheritMutexUnsched _ => underOwner (optional (steps [.call (.utils .free), .call (.utils .free)]))
  | .tbInheritMutexSched _ thread =>
    steps [.acquire (.thread thread), .release (.thread thread), underOwner .skip]
  | .tbthreadSetschedparam thread => optional (steps [.acquire .desc,
      optional (steps [.acquire (.thread thread), .release (.thread thread)]), .release .desc])
  | .tbthreadGetschedparam _ => steps [.acquire .desc, .release .desc]

/-- The tables `lockers`, `trylockers` and `unlockers`, by protocol. -/
def locker (m : α) : Protocol → Fn α
  | .prioNone => .mutexes (.lockPrioNone m)
  | .prioInherit => .mutexes (.lockPrioInherit m)
  | .prioProtect => .mutexes (.lockPrioProtect m)

def trylocker (m : α) : Protocol → Fn α
  | .prioNone => .mutexes (.trylockPrioNone m)
  | .prioInherit => .mutexes (.trylockPrioInherit m)
  | .prioProtect => .mutexes (.trylockPrioProtect m)

def unlocker (m : α) : Protocol → Fn α
  | .prioNone => .mutexes (.unlockPrioNone m)
  | .prioInherit => .mutexes (.unlockPrioInherit m)
  | .prioProtect => .mutexes (.unlockPrioProtect m)

def mutexes (kind : α → Kind) (protocol : α → Protocol) : Mutexes α → Body α
  | .lockNormal m => .call (locker m (protocol m))
  | .trylockNormal m => .call (trylocker m (protocol m))
  | .unlockNormal m => .call (unlocker m (protocol m))
  | .lockErrorcheck m => optional (.call (locker m (protocol m)))
  | .trylockErrorcheck m => .call (trylocker m (protocol m))
  | .unlockErrorcheck m => optional (.call (unlocker m (protocol m)))
  | .lockRecursive m => optional (.call (locker m (protocol m)))
  | .trylockRecursive m => optional (.call (trylocker m (protocol m)))
  | .unlockRecursive m => optional (.call (unlocker m (protocol m)))
  | .lockPrioNone m => .wait (.futex m)
  | .trylockPrioNone _ => .skip
  | .unlockPrioNone _ => .skip
  -- the last pass finds the mutex free
  | .lockPrioInherit m => steps [
      .loop (steps [.acquire (.internal m), .any fun self => .call (.sched (.tbInheritMutexSched m self)),
        .release (.internal m), .wait (.futex m)]),
      .acquire (.internal m), .call (.sched (.tbInheritMutexAdd m)), .release (.internal m)]
  | .trylockPrioInherit m => steps [.acquire (.internal m), optional (.call (.sched (.tbInheritMutexAdd m))),
      .release (.internal m)]
  | .unlockPrioInherit m => steps [.acquire (.internal m), .call (.sched (.tbInheritMutexUnsched m)),
      .release (.internal m)]
  | .lockPrioProtect m => steps [.call (.mutexes (.lockPrioNone m)), .call (.sched (.tbProtectMutexSched m))]
  | .trylockPrioProtect m =>
    steps [.call (.mutexes (.trylockPrioNone m)), optional (.call (.sched (.tbProtectMutexSched m)))]
  | .unlockPrioProtect m => steps [.call (.sched (.tbProtectMutexUnsched m)), .call (.mutexes (.unlockPrioNone m))]
  | .tbthreadMutexLock m => match kind m with
    | .normal => .call (.mutexes (.lockNormal m))
    | .errorcheck => .call (.mutexes (.lockErrorcheck m))
    | .recursive => .call (.mutexes (.lockRecursive m))
  | .tbthreadMutexTrylock m => match kind m with
    | .normal => .call (.mutexes (.trylockNormal m))
    | .errorcheck => .call (.mutexes (.trylockErrorcheck m))
    | .recursive => .call (.mutexes (.trylockRecursive m))
  | .tbthreadMutexUnlock m => match kind m with
    | .normal => .call (.mutexes (.unlockNormal m))
    | .errorcheck => .call (.mutexes (.unlockErrorcheck m))
    | .recursive => .call (.mutexes (.unlockRecursive m))
  -- the memset
  | .tbthreadMutexInit m => .clear (.internal m)
  | .tbthreadMutexSetprioceiling m =>
    optional (steps [.call (.mutexes (.lockNormal m)), .call (.mutexes (.unlockNormal m))])

def condvar : Condvar α → Body α
  | .tbthreadCondBroadcast c => steps [.acquire (.cond c), .release (.cond c)]
  | .tbthreadCondSignal c => steps [.acquire (.cond c), .release (.cond c)]
  | .tbthreadCondWait c m => steps [.acquire (.cond c), .choice
      -- another mutex is in use
      (.release (.cond c))
      (steps [.call (.mutexes (.tbthreadMutexUnlock m)), .choice
        -- the mutex cannot be unlocked
        (.release (.cond c))
        (steps [.release (.cond c),
          -- a signal handler has run, or the wake was for another thread
          .loop (.choice (.wait (.condFutex c))
            (steps [.wait (.condFutex c), .acquire (.cond c), .release (.cond c)])),
          .wait (.condFutex c), .acquire (.cond c), .release (.cond c),
          .call (.mutexes (.tbthreadMutexLock m))])])]

def rwlock : Rwlock α → Body α
  | .tbthreadRwlockRdlock r => steps [
      .loop (steps [.acquire (.rwlock r), .release (.rwlock r), .wait (.rdFutex r)]),
      .acquire (.rwlock r), .release (.rwlock r)]
  | .tbthreadRwlockWrlock r => steps [
      .loop (steps [.acquire (.rwlock r), .release (.rwlock r), .wait (.wrFutex r)]),
      .acquire (.rwlock r), .release (.rwlock r)]
  | .tbthreadRwlockUnlock r => steps [.acquire (.rwlock r), .release (.rwlock r)]
  | .tbthreadRwlockTryrdlock r => steps [.acquire (.rwlock r), .release (.rwlock r)]
  | .tbthreadRwlockTrywrlock r => steps [.acquire (.rwlock r), .release (.rwlock r)]

def cancel : Cancel α → Body α
  | .tbCancelHandler => optional (.call (.cancel .tbthreadTestcancel))
  | .tbthreadCancel _ => steps [.acquire .desc, .release .desc]
  | .releaseCleanupHandler => .call (.utils .free)
  | .callCleanupHandler => .user
  | .tbClearCleanupHandlers => steps [.loop (.call (.cancel .releaseCleanupHandler)), .call (.utils .listClear)]
  | .tbCallCleanupHandlers => steps [.loop (.call (.cancel .callCleanupHandler)),
      .loop (.call (.cancel .releaseCleanupHandler)), .call (.utils .listClear)]
  | .tbthreadCleanupPush => steps [.call (.utils .malloc), .choice .fault (.call (.utils .listAddElem))]
  | .tbthreadCleanupPop => optional (steps [optional .user, .call (.utils .free), .call (.utils .free)])
  | .tbthreadSetcancelstate => optional (.call (.cancel .tbthreadTestcancel))
  | .tbthreadSetcanceltype => optional (.call (.cancel .tbthreadTestcancel))
  | .tbthreadTestcancel => optional (.call (.threads .tbthreadExit))
  | .tbTlsCallDestructors => .loop .user

def threads : Threads α → Body α
  | .tbthreadInit => steps [.call (.utils .malloc), .choice .fault (.any fun thread => .clear (.thread thread))]
  | .tbthreadFinit => .call (.utils .free)
  | .startThread th => steps [optional (steps [.wait (.startStatus th), optional .exit]), .user,
      .call (.cancel .tbthreadSetcancelstate), .call (.cancel .tbClearCleanupHandlers),
      .call (.threads .tbthreadExit)]
  | .tbthreadExit => steps [.call (.cancel .tbCallCleanupHandlers), .call (.cancel .tbTlsCallDestructors),
      .acquire .desc, .release .desc, optional (.call (.threads .releaseDescriptor)), .exit]
  | .waitForThread thread => optional (steps [.wait (.tid thread), .loop (.wait (.tid thread))])
  | .getDescriptor => steps [.acquire .desc, .release .desc, .choice
      (.any fun desc => .call (.threads (.waitForThread desc)))
      (steps [.call (.utils .malloc), .call (.utils .malloc), .choice .fault .skip]),
      .acquire .desc, .release .desc]
  -- list_rm of a node that was not found
  | .releaseDescriptor => steps [.acquire .desc, optional (steps [.call (.utils .tbprint), .fault]), .release .desc]
  | .tbthreadCreate => optional (.choice
      -- mprotect failed
      (.call (.threads .releaseDescriptor))
      (steps [.call (.threads .getDescriptor), .any fun thread => steps [
        -- the memset of the descriptor, that of an earlier thread or a new one
        .clear (.thread thread),
        .choice
          -- clone failed
          (.call (.threads .releaseDescriptor))
          (optional (steps [.call (.threads (.waitForThread thread)), .call (.threads .releaseDescriptor)]))]]))
  | .tbthreadDetach _ => steps [.acquire .desc, .release .desc]
  | .tbthreadJoin thread => steps [.acquire .desc, .choice
      (.release .desc)
      (steps [.release .desc, .call (.threads (.waitForThread thread)), .call (.threads .releaseDescriptor)])]
  | .tbthreadOnce o => steps [
      .loop (steps [.call (.cancel .tbthreadSetcancelstate), .call (.cancel .tbthreadSetcancelstate),
        .wait (.once o), .loop (.wait (.once o))]),
      optional (steps [.call (.cancel .tbthreadSetcancelstate), .call (.cancel .tbthreadCleanupPush),
        .call (.cancel .tbthreadSetcancelstate), .user, .call (.cancel .tbthreadSetcancelstate),
        .call (.cancel .tbthreadCleanupPop), .call (.cancel .tbthreadSetcancelstate)])]

def body (kind : α → Kind) (protocol : α → Protocol) : Fn α → Body α
  | .utils f => utils f
  | .sched f => sched f
  | .mutexes f => mutexes kind protocol f
  | .condvar f => condvar f
  | .rwlock f => rwlock f
  | .cancel f => cancel f
  | .threads f => threads f

/-- A function may be called with locks below this level: what waits or calls back with none. -/
def bound : Fn α → Nat
  | .utils _ => 3
  | .sched (.tbthreadSetschedparam _) => 0
  | .sched (.tbthreadGetschedparam _) => 0
  | .sched _ => 2
  | .mutexes (.lockNormal _) => 0
  | .mutexes (.lockErrorcheck _) => 0
  | .mutexes (.lockRecursive _) => 0
  | .mutexes (.lockPrioNone _) => 0
  | .mutexes (.lockPrioInherit _) => 0
  | .mutexes (.lockPrioProtect _) => 0
  | .mutexes (.tbthreadMutexLock _) => 0
  | .mutexes (.tbthreadMutexSetprioceiling _) => 0
  | .mutexes _ => 1
  | .condvar _ => 0
  | .rwlock _ => 0
  | .cancel _ => 0
  | .threads _ => 0

theorem utils_keeps (f : Utils) : Keeps Lock.level bound (bound (.utils f : Fn α)) (utils f : Body α) := by
  intro h hl
  cases f <;> simpa [utils, wp, bound, Lock.level] using hl

/-- A section under the lock of a descriptor. -/
theorem underOwner_keeps {p : Body α} (hp : Keeps Lock.level bound 3 p) : Keeps Lock.level bound 2 (underOwner p) := by
  intro h hl
  constructor
  · trivial
  · intro owner
    exact keeps_section (l := .thread owner) (Nat.le_refl _) hp h hl

theorem sched_keeps (f : Sched α) : Keeps Lock.level bound (bound (.sched f)) (sched f) := by
  have hmalloc : Keeps Lock.level bound 3 (.call (.utils .malloc) : Body α) := keeps_call (Nat.le_refl _)
  have hfree : Keeps Lock.level bound 3 (.call (.utils .free) : Body α) := keeps_call (Nat.le_refl _)
  cases f with
  | tbProtectMutexSched m => exact underOwner_keeps hmalloc
  | tbProtectMutexUnsched m => exact underOwner_keeps (keeps_optional hfree)
  | tbInheritMutexAdd m =>
    apply underOwner_keeps
    have hsecond : Keeps Lock.level bound 3 (steps [.call (.utils .malloc), optional (.call (.utils .free))] : Body α) :=
      keeps_seq hmalloc (keeps_seq (keeps_optional hfree) keeps_skip)
    exact keeps_seq hmalloc (keeps_seq (keeps_optional hsecond) keeps_skip)
  | tbInheritMutexUnsched m =>
    exact underOwner_keeps (keeps_optional (keeps_seq hfree (keeps_seq hfree keeps_skip)))
  | tbInheritMutexSched m thread =>
    intro h hl
    have howner : Keeps Lock.level bound 2 (underOwner .skip : Body α) := underOwner_keeps keeps_skip
    exact ⟨hl, h, rfl, howner h hl⟩
  | tbthreadSetschedparam thread =>
    apply keeps_zero.mpr
    simp [sched, wp, Lock.level]
  | tbthreadGetschedparam thread =>
    apply keeps_zero.mpr
    simp [sched, wp, Lock.level]

theorem mutexes_keeps (kind : α → Kind) (protocol : α → Protocol) (f : Mutexes α) :
    Keeps Lock.level bound (bound (.mutexes f)) (mutexes kind protocol f) := by
  have hlocker (m : α) : Keeps Lock.level bound 0 (.call (locker m (protocol m)) : Body α) :=
    keeps_call (Nat.zero_le _)
  have htrylocker (m : α) : Keeps Lock.level bound 1 (.call (trylocker m (protocol m)) : Body α) := by
    cases protocol m <;> exact keeps_call (Nat.le_refl _)
  have hunlocker (m : α) : Keeps Lock.level bound 1 (.call (unlocker m (protocol m)) : Body α) := by
    cases protocol m <;> exact keeps_call (Nat.le_refl _)
  have hadd (m : α) : Keeps Lock.level bound 2 (.call (.sched (.tbInheritMutexAdd m)) : Body α) :=
    keeps_call (Nat.le_refl _)
  have hunsched (m : α) : Keeps Lock.level bound 2 (.call (.sched (.tbInheritMutexUnsched m)) : Body α) :=
    keeps_call (Nat.le_refl _)
  cases f with
  | lockNormal m => exact hlocker m
  | trylockNormal m => exact htrylocker m
  | unlockNormal m => exact hunlocker m
  | lockErrorcheck m => exact keeps_optional (hlocker m)
  | trylockErrorcheck m => exact htrylocker m
  | unlockErrorcheck m => exact keeps_optional (hunlocker m)
  | lockRecursive m => exact keeps_optional (hlocker m)
  | trylockRecursive m => exact keeps_optional (htrylocker m)
  | unlockRecursive m => exact keeps_optional (hunlocker m)
  | lockPrioNone m => exact keeps_zero.mpr ⟨rfl, rfl⟩
  | trylockPrioNone m => exact keeps_skip
  | unlockPrioNone m => exact keeps_skip
  | lockPrioInherit m =>
    apply keeps_zero.mpr
    simp [mutexes, wp, bound, Lock.level]
  | trylockPrioInherit m => exact keeps_section (Nat.le_refl _) (keeps_optional (hadd m))
  | unlockPrioInherit m => exact keeps_section (Nat.le_refl _) (hunsched m)
  | lockPrioProtect m =>
    apply keeps_zero.mpr
    simp [mutexes, wp, bound]
  | trylockPrioProtect m =>
    apply keeps_seq (keeps_call (Nat.le_refl _))
    exact keeps_seq (keeps_optional (keeps_call (by simp [bound]))) keeps_skip
  | unlockPrioProtect m =>
    apply keeps_seq (keeps_call (by simp [bound]))
    exact keeps_seq (keeps_call (Nat.le_refl _)) keeps_skip
  | tbthreadMutexLock m =>
    simp only [mutexes]
    cases kind m <;> exact keeps_call (Nat.le_refl _)
  | tbthreadMutexTrylock m =>
    simp only [mutexes]
    cases kind m <;> exact keeps_call (Nat.le_refl _)
  | tbthreadMutexUnlock m =>
    simp only [mutexes]
    cases kind m <;> exact keeps_call (Nat.le_refl _)
  | tbthreadMutexInit m => exact keeps_clear
  | tbthreadMutexSetprioceiling m =>
    apply keeps_zero.mpr
    simp [mutexes, wp, bound]

theorem condvar_keeps (f : Condvar α) : Keeps Lock.level bound (bound (.condvar f)) (condvar f) := by
  apply keeps_zero.mpr
  cases f <;> simp [condvar, wp, bound, Lock.level]

theorem rwlock_keeps (f : Rwlock α) : Keeps Lock.level bound (bound (.rwlock f)) (rwlock f) := by
  apply keeps_zero.mpr
  cases f <;> simp [rwlock, wp, Lock.level]

theorem cancel_keeps (f : Cancel α) : Keeps Lock.level bound (bound (.cancel f)) (cancel f) := by
  apply keeps_zero.mpr
  cases f <;> simp [cancel, wp, bound]

theorem threads_keeps (f : Threads α) : Keeps Lock.level bound (bound (.threads f)) (threads f) := by
  apply keeps_zero.mpr
  cases f <;> simp [threads, wp, bound, Lock.level]

theorem checked (kind : α → Kind) (protocol : α → Protocol) : Checked Lock.level bound (body kind protocol) := by
  intro f
  cases f with
  | utils f => exact utils_keeps f
  | sched f => exact sched_keeps f
  | mutexes f => exact mutexes_keeps kind protocol f
  | condvar f => exact condvar_keeps f
  | rwlock f => exact rwlock_keeps f
  | cancel f => exact cancel_keeps f
  | threads f => exact threads_keeps f

section Runs

variable {τ : Type}

/-- Locks are taken down the order and no two of a level are held, no lock is held in the code of the
program, by a thread that is gone, or while a thread waits for anything else, functions return with the
locks that they were called with, who finds a lock taken waits for a thread, and threads do not wait for
one another in a circle. -/
structure Ordered (s : State τ (Lock α) (Wait α) (Fn α) α) : Prop where
  wants : ∀ t l, s.wants t = some l → ∀ k ∈ s.held t, k.level < l.level
  levels : ∀ t, (s.held t).Pairwise fun l k => k.level < l.level
  waits : ∀ t w, s.waits t = some w → s.held t = []
  user : ∀ t k, s.stack t = .run .user :: k → s.held t = []
  gone : ∀ t, s.stack t = [] → s.held t = []
  releases : ∀ t l k, s.stack t = .run (.release l) :: k → l ∈ s.held t
  returns : ∀ t f held k, s.stack t = .ret f held :: k → s.held t = held
  blocked : ∀ t l, s.wants t = some l → s.locked l = true → ∃ u, s.WaitsFor t u
  acyclic : ∀ t, ¬ Relation.TransGen s.WaitsFor t t

theorem Ordered.of_inv {s : State τ (Lock α) (Wait α) (Fn α) α} (h : Inv Lock.level bound s) : Ordered s where
  wants _ _ hw := h.wants hw
  levels := h.sorted
  waits _ _ hw := h.waits hw
  user _ _ hs := h.user hs
  gone _ hs := h.gone hs
  releases _ _ _ hs := h.releases hs
  returns _ _ _ _ hs := h.returns hs
  blocked _ _ hw hl := h.blocked hw hl
  acyclic _ := h.acyclic

variable [DecidableEq α] [DecidableEq τ]

theorem internal_locks_ordered (kind : α → Kind) (protocol : α → Protocol)
    {s : State τ (Lock α) (Wait α) (Fn α) α} (h : Reaches Initial (step (body kind protocol)) anyStep s) :
    Ordered s :=
  .of_inv (reaches_inv (checked kind protocol) h)

omit [DecidableEq α] in
/-- Threads in the code of the program. -/
def start : State τ (Lock α) (Wait α) (Fn α) α where
  stack := fun _ => [.run .user]
  locked := fun _ => false
  held := fun _ => []

omit [DecidableEq α] [DecidableEq τ] in
theorem start_initial : Initial (start : State τ (Lock α) (Wait α) (Fn α) α) :=
  ⟨fun _ => .inr (.inl rfl), fun _ => rfl, fun _ => rfl⟩

/-- A thread in `malloc`, with `memory_lock`. -/
def allocates (t : τ) : List (τ × Move (Fn α) α) := [(t, .enter (.utils .malloc)), (t, .go), (t, .go), (t, .go)]

/-- A thread that waits for a condition, up to the `free` of the entry for its mutex. -/
def condWaits (t : τ) (c m owner : α) : List (τ × Move (Fn α) α) :=
  [.enter (.condvar (.tbthreadCondWait c m)), .go, .go, .go, .go, .right, .go, .go, .go, .go, .go, .go, .go,
    .go, .right, .pick owner, .go, .go, .go, .right, .go, .go, .right, .go].map fun move => (t, move)

set_option maxRecDepth 4000 in
/-- Three locks are held, and a fourth is waited for. -/
theorem internal_locks_ordered_wait : ∃ s : State (Fin 2) (Lock Nat) (Wait Nat) (Fn Nat) Nat,
    Reaches Initial (step (body (fun _ => .normal) (fun _ => .prioInherit))) anyStep s ∧ s.WaitsFor 0 1 ∧
    s.held 0 = [.thread 2, .internal 1, .cond 0] ∧ Ordered s := by
  obtain ⟨s, hr, hw, hm, hh⟩ : ∃ s : State (Fin 2) (Lock Nat) (Wait Nat) (Fn Nat) Nat,
      Reaches Initial (step (body (fun _ => .normal) (fun _ => .prioInherit))) anyStep s ∧
      s.wants 0 = some .memory ∧ .memory ∈ s.held 1 ∧ s.held 0 = [.thread 2, .internal 1, .cond 0] := by
    have hr := Reaches.run_get (start_initial (τ := Fin 2) (α := Nat))
      (show (run (step (body (fun _ => .normal) (fun _ => .prioInherit))) anyStep
        (condWaits 0 0 1 2 ++ allocates 1) start).isSome from by decide)
    exact ⟨_, hr, by decide, by decide, by decide⟩
  exact ⟨s, hr, ⟨.memory, hw, hm⟩, hh, internal_locks_ordered _ _ hr⟩

end Runs

end ThreadBites.LockOrder

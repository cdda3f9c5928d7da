import ThreadBites.Transition
import ThreadBites.WaitQueue

/-!
# Threads and their descriptors

A section under `desc_mutex` is one step, and so is every access of the other code
to a descriptor. The kernel starts a clone, storing its id first, and ends a thread
by clearing the word and waking its sleepers; `FUTEX_WAIT` may return early. The
stack, the scheduling and the lists of mutexes of a descriptor are left out.
`role`, `last` and the records of a thread are history.
-/
namespace ThreadBites.Threads

open Transition WaitQueue

variable {τ δ : Type}

def ESRCH : Int := 3
def EINVAL : Int := 22
def EDEADLK : Int := 35

def TBTHREAD_CANCELED : BitVec 64 := -1

inductive JoinStatus where
  | detached
  | joinable
  | joinableFixed
  deriving DecidableEq, Repr

inductive StartStatus where
  | ok
  | wait
  | exit
  deriving DecidableEq, Repr

/-- `struct tbthread`. -/
structure Desc (δ : Type) where
  tid : BitVec 32
  retval : BitVec 64
  joinStatus : JoinStatus
  joiner : Option δ
  startStatus : StartStatus
  deriving DecidableEq, Repr

/-- What `memset` leaves. -/
def Desc.zero : Desc δ := ⟨0, 0, .detached, none, .ok⟩

/-- `tbthread_attr_t`. -/
structure Attr where
  joinable : Bool
  schedInherit : Bool
  deriving DecidableEq, Repr

/-- Who calls `wait_for_thread`: `get_descriptor`, `tbthread_create` when the scheduling of
`child` failed, or `tbthread_join` of `thread`. -/
inductive Waiter (τ : Type) where
  | reuse (attr : Attr)
  | failed (child : τ)
  | join (thread : Option τ)
  deriving DecidableEq, Repr

/-- Who calls `release_descriptor`; `unstarted` is a `tbthread_create` that has no thread. -/
inductive Releaser (τ : Type) where
  | exit
  | unstarted
  | failed (child : τ)
  | join (thread : Option τ)
  deriving DecidableEq, Repr

/-- The step that a thread makes next. -/
inductive Pc (τ δ : Type) where
  | unborn
  | born
  | checkStart
  | startWait
  | startAsleep (th : δ)
  | recheckStart
  | user
  | mprotect (attr : Attr)
  | takeFree (attr : Attr)
  | allocate (attr : Attr)
  | addUsed (desc : δ) (attr : Attr)
  | clear (desc : δ) (attr : Attr)
  | fill (desc : δ) (attr : Attr)
  | clone (desc : δ) (attr : Attr)
  | storeTid (desc : δ) (attr : Attr) (child : τ)
  | setSched (desc : δ) (child : τ)
  | storeStart (desc : δ) (child : τ) (ok : Bool)
  | wakeStart (desc : δ) (child : τ) (ok : Bool)
  | readTid (desc : δ) (w : Waiter τ)
  | waitTid (desc : δ) (tid : BitVec 32) (w : Waiter τ)
  | asleep (desc : δ) (tid : BitVec 32) (w : Waiter τ)
  | readRetval (desc : δ) (thread : Option τ)
  | release (desc : Option δ) (r : Releaser τ)
  | leaving
  | dead
  deriving DecidableEq, Repr

/-- Where `wait_for_thread` returns to. -/
def afterWait (d : δ) : Waiter τ → Pc τ δ
  | .reuse attr => .addUsed d attr
  | .failed u => .release (some d) (.failed u)
  | .join o => .readRetval d o

/-- Where `release_descriptor` returns to. -/
def afterRelease : Releaser τ → Pc τ δ
  | .exit => .leaving
  | _ => .user

def asleepOn [DecidableEq δ] (d : δ) : Pc τ δ → Bool
  | .asleep e _ _ => e = d
  | _ => false

/-- `FUTEX_WAIT` on the word of a thread returns 0. -/
def resume : Pc τ δ → Pc τ δ
  | .asleep d _ w => afterWait d w
  | p => p

def startAsleepOn [DecidableEq δ] (d : δ) : Pc τ δ → Bool
  | .startAsleep e => e = d
  | _ => false

/-- What a descriptor is for: `unused` is one that no create got from `malloc`, `held` one between
the two sections of `get_descriptor`, `listed` one in `used_desc` that is not cleared yet, `blank` one
that has no thread yet, and `lent` that of a thread until it is released. -/
inductive Role (τ : Type) where
  | unused
  | free
  | held (t : τ)
  | listed (t : τ)
  | blank (t : τ)
  | lent (u : τ)
  deriving DecidableEq, Repr

/-- What happened to a thread: who created it, whether its create stored its id, failed after that, or
returned 0, whether it is detached, what it passed to `tbthread_exit`, who joins it, and how often
`release_descriptor` was called for it. -/
structure Record (τ : Type) where
  maker : Option τ
  stored : Bool
  failed : Bool
  returned : Bool
  detached : Bool
  passed : Option (BitVec 64)
  heir : Option τ
  releases : Nat
  deriving DecidableEq, Repr

def Record.empty : Record τ := ⟨none, false, false, false, false, none, none, 0⟩

/-- A call of `tbthread_join` for a descriptor that `thread` used last. -/
structure JoinCall (τ : Type) where
  joiner : τ
  thread : τ
  detached : Bool
  ret : Int
  deriving DecidableEq, Repr

/-- `*retval = thread->retval`. -/
structure JoinValue (τ : Type) where
  joiner : τ
  thread : Option τ
  value : BitVec 64
  deriving DecidableEq, Repr

/-- All but the places of the threads; `self` is `tbthread_self()`, `id` the kernel's id, and
`exiting` says that the user code that runs was called by `tbthread_exit`. -/
structure Shared (τ δ : Type) where
  mem : δ → Desc δ
  heap : List δ
  used : List δ
  free : List δ
  self : τ → δ
  id : τ → BitVec 32
  exiting : τ → Bool
  crashed : Bool
  role : δ → Role τ
  last : δ → Option τ
  record : τ → Record τ
  calls : List (JoinCall τ)
  values : List (JoinValue τ)

structure State (τ δ : Type) extends Shared τ δ where
  pc : τ → Pc τ δ

/-- `tbthread_init` was called: the initial thread has a descriptor, cleared but for its id. -/
structure Initial (main : τ) (s : State τ δ) : Prop where
  user : s.pc main = .user
  unborn : ∀ t, t ≠ main → s.pc t = .unborn
  desc : s.mem (s.self main) = { (Desc.zero : Desc δ) with tid := s.id main }
  heap : s.heap = [s.self main]
  used : s.used = []
  free : s.free = []
  exiting : ∀ t, s.exiting t = false
  crashed : s.crashed = false
  role : ∀ d, s.role d = .unused
  last : ∀ d, s.last d = none
  record : ∀ t, s.record t = .empty
  calls : s.calls = []
  values : s.values = []

/-- Calls, the answers of the kernel and of `malloc`, and the steps that have only one outcome. -/
inductive Action (τ δ : Type) where
  | create (t : τ) (attr : Attr) (mapped : Bool)
  | mprotect (t : τ) (granted : Bool)
  | allocate (t : τ) (desc : δ)
  | clone (t : τ) (child : Option (τ × BitVec 32))
  | setSched (t : τ) (ok : Bool)
  | wakeStart (t : τ) (woken : Option τ)
  | next (t : τ)
  | interrupt (t : τ)
  | start (u : τ)
  | exit (t : τ) (retval : BitVec 64)
  | exitSection (t : τ)
  | terminate (u : τ)
  | detach (t : τ) (desc : δ)
  | join (t : τ) (desc : δ)
  deriving DecidableEq, Repr

variable [DecidableEq τ]

/-- After `tbthread_init` in thread `main`, which got `d` from `malloc`. -/
def boot (main : τ) (d : δ) (tid : BitVec 32) : State τ δ where
  mem _ := { (Desc.zero : Desc δ) with tid := tid }
  heap := [d]
  used := []
  free := []
  self _ := d
  id _ := tid
  exiting _ := false
  crashed := false
  role _ := .unused
  last _ := none
  record _ := .empty
  calls := []
  values := []
  pc t := if t = main then .user else .unborn

theorem boot_initial (main : τ) (d : δ) (tid : BitVec 32) : Initial main (boot main d tid) where
  user := by simp [boot]
  unborn t ht := by simp [boot, ht]
  desc := rfl
  heap := rfl
  used := rfl
  free := rfl
  exiting _ := rfl
  crashed := rfl
  role _ := rfl
  last _ := rfl
  record _ := rfl
  calls := rfl
  values := rfl

variable [DecidableEq δ]

def Shared.setMem (s : Shared τ δ) (d : δ) (v : Desc δ) : Shared τ δ :=
  { s with mem := Function.update s.mem d v }

def Shared.note (s : Shared τ δ) (u : τ) (f : Record τ → Record τ) : Shared τ δ :=
  { s with record := Function.update s.record u (f (s.record u)) }

/-- Thread `t` goes to `p`, and leaves the rest as `sh`. -/
def State.move (s : State τ δ) (sh : Shared τ δ) (t : τ) (p : Pc τ δ) : State τ δ :=
  ⟨sh, Function.update s.pc t p⟩

def State.goto (s : State τ δ) (t : τ) (p : Pc τ δ) : State τ δ := s.move s.toShared t p

/-- The thread whose descriptor is released. -/
def Releaser.thread (t : τ) : Releaser τ → Option τ
  | .exit => some t
  | .unstarted => none
  | .failed u => some u
  | .join o => o

def Shared.count (s : Shared τ δ) : Option τ → Shared τ δ
  | some u => s.note u fun r => { r with releases := r.releases + 1 }
  | none => s

/-- The first section of `get_descriptor`, when `free_desc` is not empty. -/
def Shared.takeFree (s : Shared τ δ) (t : τ) (d : δ) (free : List δ) : Shared τ δ :=
  { s with free := free, role := Function.update s.role d (.held t) }

def Shared.allocate (s : Shared τ δ) (t : τ) (d : δ) : Shared τ δ :=
  { s with heap := d :: s.heap, role := Function.update s.role d (.held t) }

/-- `list_add(&used_desc, node, 0)`. -/
def Shared.addUsed (s : Shared τ δ) (t : τ) (d : δ) : Shared τ δ :=
  { s with used := s.used ++ [d], role := Function.update s.role d (.listed t) }

def Shared.clear (s : Shared τ δ) (t : τ) (d : δ) : Shared τ δ :=
  { s with mem := Function.update s.mem d .zero, role := Function.update s.role d (.blank t) }

/-- `list_rm(node); list_add(&free_desc, node, 0)`. -/
def Shared.recycle (s : Shared τ δ) (d : δ) : Shared τ δ :=
  { s with used := s.used.erase d, free := s.free ++ [d], role := Function.update s.role d .free }

def Shared.crash (s : Shared τ δ) : Shared τ δ := { s with crashed := true }

/-- `release_descriptor`. A descriptor that is not in `used_desc` has no node: `list_rm` of a null
pointer is a fault. -/
def release (s : State τ δ) (t : τ) (desc : Option δ) (r : Releaser τ) : State τ δ :=
  match desc with
  | some d => if d ∈ s.used then
        s.move ((s.count (r.thread t)).recycle d) t (afterRelease r)
      else { s with toShared := (s.count (r.thread t)).crash }
  | none => { s with toShared := (s.count (r.thread t)).crash }

/-- The kernel makes `u` run on `d`. -/
def Shared.spawn (s : Shared τ δ) (t u : τ) (d : δ) (k : BitVec 32) : Shared τ δ :=
  { s with
    self := Function.update s.self u d
    id := Function.update s.id u k
    role := Function.update s.role d (.lent u)
    last := Function.update s.last d (some u)
    record := Function.update s.record u { (Record.empty : Record τ) with
      maker := some t
      detached := (s.mem d).joinStatus = .detached } }

/-- `(*thread)->tid = tid`, after which a create without scheduling returns. -/
def Shared.storeTid (s : Shared τ δ) (d : δ) (u : τ) (attr : Attr) : Shared τ δ :=
  (s.setMem d { s.mem d with tid := s.id u }).note u fun r =>
    { r with stored := true, returned := attr.schedInherit }

def Shared.storeStart (s : Shared τ δ) (d : δ) (u : τ) (ok : Bool) : Shared τ δ :=
  (s.setMem d { s.mem d with startStatus := if ok then .ok else .exit }).note u fun r => { r with failed := !ok }

/-- The fields that `tbthread_create` packs up. -/
def Desc.fill (v : Desc δ) (attr : Attr) : Desc δ :=
  { v with
    joinStatus := if attr.joinable then .joinable else .detached
    startStatus := if attr.schedInherit then v.startStatus else .wait }

/-- `th->retval = retval`, and from there on the thread is in `tbthread_exit`. -/
def Shared.exit (s : Shared τ δ) (t : τ) (retval : BitVec 64) : Shared τ δ :=
  { s with
    mem := Function.update s.mem (s.self t) { s.mem (s.self t) with retval := retval }
    exiting := Function.update s.exiting t true
    record := Function.update s.record t { s.record t with passed := some retval } }

def Shared.value (s : Shared τ δ) (t : τ) (d : δ) (o : Option τ) : Shared τ δ :=
  { s with values := ⟨t, o, (s.mem d).retval⟩ :: s.values }

/-- The step of a thread that has only one outcome. -/
def next (s : State τ δ) (t : τ) : Option (State τ δ) :=
  match s.pc t with
  -- start_thread
  | .checkStart => some (s.goto t (if (s.mem (s.self t)).startStatus ≠ .ok then .startWait else .user))
  | .startWait => some (s.goto t
      (if (s.mem (s.self t)).startStatus = .wait then .startAsleep (s.self t) else .recheckStart))
  | .recheckStart => some (s.goto t (if (s.mem (s.self t)).startStatus = .exit then .leaving else .user))
  -- get_descriptor, the first section and the second
  | .takeFree attr => match s.free with
    | [] => some (s.goto t (.allocate attr))
    | d :: free => some (s.move (s.takeFree t d free) t (.readTid d (.reuse attr)))
  | .addUsed d attr => some (s.move (s.addUsed t d) t (.clear d attr))
  -- tbthread_create
  | .clear d attr => some (s.move (s.clear t d) t (.fill d attr))
  | .fill d attr => some (s.move (s.setMem d ((s.mem d).fill attr)) t (.clone d attr))
  | .storeTid d attr u => some (s.move (s.storeTid d u attr) t (if attr.schedInherit then .user else .setSched d u))
  | .storeStart d u ok => some (s.move (s.storeStart d u ok) t (.wakeStart d u ok))
  -- wait_for_thread
  | .readTid d w => some (s.goto t (if (s.mem d).tid = 0 then afterWait d w else .waitTid d (s.mem d).tid w))
  | .waitTid d tid w => some (s.goto t (if (s.mem d).tid = tid then .asleep d tid w else afterWait d w))
  -- tbthread_join
  | .readRetval d o => some (s.move (s.value t d o) t (.release (some d) (.join o)))
  | .release d r => some (release s t d r)
  | _ => none

/-- The error that the section of `tbthread_detach` returns. -/
def detachError (s : Shared τ δ) (d : δ) : Option Int :=
  if d ∉ s.used then some (-ESRCH)
  else if (s.mem d).joinStatus = .joinableFixed then some (-EINVAL)
  else none

/-- The thread that a descriptor was lent to is detached. -/
def Shared.detach (s : Shared τ δ) (d : δ) : Shared τ δ :=
  match s.role d with
  | .lent u => (s.setMem d { s.mem d with joinStatus := .detached }).note u fun r => { r with detached := true }
  | _ => s.setMem d { s.mem d with joinStatus := .detached }

/-- The error that the section of `tbthread_join` returns. -/
def joinError (s : Shared τ δ) (t : τ) (d : δ) : Option Int :=
  if d = s.self t then some (-EDEADLK)
  else if d ∉ s.used then some (-ESRCH)
  else if (s.mem d).joinStatus = .detached then some (-EINVAL)
  else if (s.mem (s.self t)).joiner = some d then some (-EDEADLK)
  else if (s.mem d).joiner ≠ none then some (-EINVAL)
  else none

/-- The call is recorded for the thread that used the descriptor last. -/
def Shared.called (s : Shared τ δ) (t : τ) (d : δ) (ret : Int) : Shared τ δ :=
  match s.last d with
  | some u => { s with calls := ⟨t, u, (s.record u).detached, ret⟩ :: s.calls }
  | none => s

/-- `thread->join_status = TB_JOINABLE_FIXED; thread->joiner = self`. -/
def Shared.join (s : Shared τ δ) (t : τ) (d : δ) : Shared τ δ :=
  let s' := s.setMem d { s.mem d with joinStatus := .joinableFixed, joiner := some (s.self t) }
  match s.last d with
  | some u => s'.note u fun r => { r with heir := some t }
  | none => s'

variable [Fintype τ]

def step (s : State τ δ) (a : Action τ δ) : Option (State τ δ) :=
  if s.crashed then none else match a with
  | .create t attr mapped => match s.pc t with
    | .user => some (s.goto t (if mapped then .mprotect attr else .user))
    | _ => none
  | .mprotect t granted => match s.pc t with
    | .mprotect attr => some (s.goto t (if granted then .takeFree attr else .release none .unstarted))
    | _ => none
  | .allocate t d => match s.pc t with
    | .allocate attr => if d ∈ s.heap then none else
        some (s.move (s.allocate t d) t (.addUsed d attr))
    | _ => none
  | .clone t child => match s.pc t, child with
    | .clone d attr, some (u, k) => if s.pc u = .unborn ∧ k ≠ 0 then
        some ⟨s.spawn t u d k, Function.update (Function.update s.pc u .born) t (.storeTid d attr u)⟩
      else none
    | .clone d _, none => some (s.goto t (.release (some d) .unstarted))
    | _, _ => none
  | .setSched t ok => match s.pc t with
    | .setSched d u => some (s.goto t (.storeStart d u ok))
    | _ => none
  | .wakeStart t woken => match s.pc t with
    | .wakeStart d u ok => (wakeOne (startAsleepOn d) (fun _ => .recheckStart) s.pc woken).map fun pc =>
        ⟨s.note u fun r => { r with returned := ok },
          Function.update pc t (if ok then .user else .readTid d (.failed u))⟩
    | _ => none
  | .next t => next s t
  | .interrupt t => match s.pc t with
    | .startAsleep _ => some (s.goto t .recheckStart)
    | .asleep d tid w => some (s.goto t (.waitTid d tid w))
    | _ => none
  | .start u => match s.pc u with
    | .born => some (s.move (s.setMem (s.self u) { s.mem (s.self u) with tid := s.id u }) u .checkStart)
    | _ => none
  | .exit t retval => match s.pc t with
    | .user => some (s.move (s.exit t retval) t .user)
    | _ => none
  | .exitSection t => match s.pc t with
    | .user => if s.exiting t then
        some (s.move (s.setMem (s.self t) { s.mem (s.self t) with joinStatus := .joinableFixed }) t
          (if (s.mem (s.self t)).joinStatus = .detached then .release (some (s.self t)) .exit else .leaving))
      else none
    | _ => none
  | .terminate u => match s.pc u with
    | .leaving => some ⟨s.setMem (s.self u) { s.mem (s.self u) with tid := 0 },
        Function.update (wakeAll (asleepOn (s.self u)) resume s.pc) u .dead⟩
    | _ => none
  | .detach t d => match s.pc t with
    | .user => match detachError s.toShared d with
      | some _ => some s
      | none => some (s.move (s.detach d) t .user)
    | _ => none
  | .join t d => match s.pc t with
    | .user => match joinError s.toShared t d with
      | some e => some (s.move (s.called t d e) t .user)
      | none => some (s.move ((s.called t d 0).join t d) t (.readTid d (.join (s.last d))))
    | _ => none

/-- What a step does, case by case. -/
inductive Stepped (s : State τ δ) : Action τ δ → State τ δ → Prop where
  | create {t attr mapped} (hpc : s.pc t = .user) :
      Stepped s (.create t attr mapped) (s.goto t (if mapped then .mprotect attr else .user))
  | mprotect {t attr granted} (hpc : s.pc t = .mprotect attr) :
      Stepped s (.mprotect t granted) (s.goto t (if granted then .takeFree attr else .release none .unstarted))
  | tookNone {t attr} (hpc : s.pc t = .takeFree attr) (hf : s.free = []) :
      Stepped s (.next t) (s.goto t (.allocate attr))
  | took {t attr d free} (hpc : s.pc t = .takeFree attr) (hf : s.free = d :: free) :
      Stepped s (.next t) (s.move (s.takeFree t d free) t (.readTid d (.reuse attr)))
  | allocate {t attr d} (hpc : s.pc t = .allocate attr) (hd : d ∉ s.heap) :
      Stepped s (.allocate t d)
        (s.move (s.allocate t d) t (.addUsed d attr))
  | addUsed {t d attr} (hpc : s.pc t = .addUsed d attr) :
      Stepped s (.next t)
        (s.move (s.addUsed t d) t (.clear d attr))
  | clear {t d attr} (hpc : s.pc t = .clear d attr) :
      Stepped s (.next t) (s.move (s.clear t d) t (.fill d attr))
  | fill {t d attr} (hpc : s.pc t = .fill d attr) :
      Stepped s (.next t) (s.move (s.setMem d ((s.mem d).fill attr)) t (.clone d attr))
  | cloned {t d attr u k} (hpc : s.pc t = .clone d attr) (hu : s.pc u = .unborn) (hk : k ≠ 0) :
      Stepped s (.clone t (some (u, k)))
        ⟨s.spawn t u d k, Function.update (Function.update s.pc u .born) t (.storeTid d attr u)⟩
  | cloneFailed {t d attr} (hpc : s.pc t = .clone d attr) :
      Stepped s (.clone t none) (s.goto t (.release (some d) .unstarted))
  | storeTid {t d attr u} (hpc : s.pc t = .storeTid d attr u) :
      Stepped s (.next t) (s.move (s.storeTid d u attr) t (if attr.schedInherit then .user else .setSched d u))
  | setSched {t d u ok} (hpc : s.pc t = .setSched d u) :
      Stepped s (.setSched t ok) (s.goto t (.storeStart d u ok))
  | storeStart {t d u ok} (hpc : s.pc t = .storeStart d u ok) :
      Stepped s (.next t) (s.move (s.storeStart d u ok) t (.wakeStart d u ok))
  | wakeStart {t d u ok woken pc} (hpc : s.pc t = .wakeStart d u ok)
      (hw : wakeOne (startAsleepOn d) (fun _ => .recheckStart) s.pc woken = some pc) :
      Stepped s (.wakeStart t woken) ⟨s.note u fun r => { r with returned := ok },
        Function.update pc t (if ok then .user else .readTid d (.failed u))⟩
  | readTid {t d w} (hpc : s.pc t = .readTid d w) :
      Stepped s (.next t)
        (s.goto t (if (s.mem d).tid = 0 then afterWait d w else .waitTid d (s.mem d).tid w))
  | waitTid {t d tid w} (hpc : s.pc t = .waitTid d tid w) :
      Stepped s (.next t) (s.goto t (if (s.mem d).tid = tid then .asleep d tid w else afterWait d w))
  | interrupted {t d tid w} (hpc : s.pc t = .asleep d tid w) :
      Stepped s (.interrupt t) (s.goto t (.waitTid d tid w))
  | readRetval {t d o} (hpc : s.pc t = .readRetval d o) :
      Stepped s (.next t) (s.move (s.value t d o) t (.release (some d) (.join o)))
  | release {t d r} (hpc : s.pc t = .release d r) : Stepped s (.next t) (release s t d r)
  | started {u} (hpc : s.pc u = .born) :
      Stepped s (.start u) (s.move (s.setMem (s.self u) { s.mem (s.self u) with tid := s.id u }) u .checkStart)
  | checkStart {t} (hpc : s.pc t = .checkStart) :
      Stepped s (.next t) (s.goto t (if (s.mem (s.self t)).startStatus ≠ .ok then .startWait else .user))
  | startWait {t} (hpc : s.pc t = .startWait) :
      Stepped s (.next t) (s.goto t
        (if (s.mem (s.self t)).startStatus = .wait then .startAsleep (s.self t) else .recheckStart))
  | startInterrupted {t d} (hpc : s.pc t = .startAsleep d) : Stepped s (.interrupt t) (s.goto t .recheckStart)
  | recheckStart {t} (hpc : s.pc t = .recheckStart) :
      Stepped s (.next t) (s.goto t (if (s.mem (s.self t)).startStatus = .exit then .leaving else .user))
  | exit {t retval} (hpc : s.pc t = .user) :
      Stepped s (.exit t retval) (s.move (s.exit t retval) t .user)
  | exitSection {t} (hpc : s.pc t = .user) (he : s.exiting t = true) :
      Stepped s (.exitSection t)
        (s.move (s.setMem (s.self t) { s.mem (s.self t) with joinStatus := .joinableFixed }) t
          (if (s.mem (s.self t)).joinStatus = .detached then .release (some (s.self t)) .exit else .leaving))
  | terminate {u} (hpc : s.pc u = .leaving) :
      Stepped s (.terminate u) ⟨s.setMem (s.self u) { s.mem (s.self u) with tid := 0 },
        Function.update (wakeAll (asleepOn (s.self u)) resume s.pc) u .dead⟩
  | notDetached {t d e} (hpc : s.pc t = .user) (he : detachError s.toShared d = some e) : Stepped s (.detach t d) s
  | detached {t d} (hpc : s.pc t = .user) (he : detachError s.toShared d = none) :
      Stepped s (.detach t d) (s.move (s.detach d) t .user)
  | notJoined {t d e} (hpc : s.pc t = .user) (he : joinError s.toShared t d = some e) :
      Stepped s (.join t d) (s.move (s.called t d e) t .user)
  | joined {t d} (hpc : s.pc t = .user) (he : joinError s.toShared t d = none) :
      Stepped s (.join t d) (s.move ((s.called t d 0).join t d) t (.readTid d (.join (s.last d))))

theorem next_stepped {s s' : State τ δ} {t : τ} (h : next s t = some s') : Stepped s (.next t) s' := by
  unfold next at h
  split at h
  · cases h; exact .checkStart ‹_›
  · cases h; exact .startWait ‹_›
  · cases h; exact .recheckStart ‹_›
  · rename_i hpc
    split at h <;> rename_i hf <;> cases h
    · exact .tookNone hpc hf
    · exact .took hpc hf
  · cases h; exact .addUsed ‹_›
  · cases h; exact .clear ‹_›
  · cases h; exact .fill ‹_›
  · cases h; exact .storeTid ‹_›
  · cases h; exact .storeStart ‹_›
  · cases h; exact .readTid ‹_›
  · cases h; exact .waitTid ‹_›
  · cases h; exact .readRetval ‹_›
  · cases h; exact .release ‹_›
  · cases h

theorem step_stepped {s s' : State τ δ} {a : Action τ δ} (h : step s a = some s') :
    s.crashed = false ∧ Stepped s a s' := by
  unfold step at h
  split at h
  · cases h
  rename_i hc
  refine ⟨by simpa using hc, ?_⟩
  cases a with
  | next t => exact next_stepped h
  | clone t child =>
    simp only at h
    split at h
    · rename_i hpc
      split at h <;> cases h
      rename_i hu
      exact .cloned hpc hu.1 hu.2
    · rename_i hpc
      cases h
      exact .cloneFailed hpc
    · cases h
  | wakeStart t woken =>
    simp only at h
    split at h
    · rename_i hpc
      obtain ⟨pc, hw, rfl⟩ := Option.map_eq_some_iff.mp h
      exact .wakeStart hpc hw
    · cases h
  | interrupt t =>
    simp only at h
    split at h <;> cases h <;> rename_i hpc
    · exact .startInterrupted hpc
    · exact .interrupted hpc
  | allocate t d =>
    simp only at h
    split at h
    · rename_i hpc
      split at h <;> cases h
      rename_i hd
      exact .allocate hpc hd
    · cases h
  | exitSection t =>
    simp only at h
    split at h
    · rename_i hpc
      split at h <;> cases h
      rename_i he
      exact .exitSection hpc he
    · cases h
  | detach t d =>
    simp only at h
    split at h
    · rename_i hpc
      split at h <;> cases h <;> rename_i he
      · exact .notDetached hpc he
      · exact .detached hpc he
    · cases h
  | join t d =>
    simp only at h
    split at h
    · rename_i hpc
      split at h <;> cases h <;> rename_i he
      · exact .notJoined hpc he
      · exact .joined hpc he
    · cases h
  | create t attr mapped =>
    simp only at h
    split at h <;> cases h
    exact .create ‹_›
  | mprotect t granted =>
    simp only at h
    split at h <;> cases h
    exact .mprotect ‹_›
  | setSched t ok =>
    simp only at h
    split at h <;> cases h
    exact .setSched ‹_›
  | start u =>
    simp only at h
    split at h <;> cases h
    exact .started ‹_›
  | exit t retval =>
    simp only at h
    split at h <;> cases h
    exact .exit ‹_›
  | terminate u =>
    simp only at h
    split at h <;> cases h
    exact .terminate ‹_›

end ThreadBites.Threads

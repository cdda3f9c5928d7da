import ThreadBites.StartHandshake

/-!
# A create with its descriptor

The call of `tbthread_create` and its thread as in `StartHandshake`, with what else the call takes: a
descriptor out of `free_desc` or from `malloc`, the place in `used_desc`, and `desc_mutex`. No other
thread calls the library meanwhile. The thread that last used a free descriptor may still be ending.
-/
namespace ThreadBites.CreateDescriptor

open Transition
open StartHandshake (Parent Child Ran Answered answered)

variable {δ : Type}

inductive Party where
  | creator
  | thread
  deriving DecidableEq, Repr

/-- Where the creator is in `get_descriptor` or `release_descriptor`. -/
inductive Place (δ : Type) where
  | out
  | takeFree
  | tookFree (node : Option δ)
  | readTid (desc : δ)
  | futexWait (desc : δ) (tid : BitVec 32)
  | asleep (desc : δ) (tid : BitVec 32)
  | allocate
  | lockUsed (desc : δ)
  | addUsed (desc : δ)
  | addedUsed (desc : δ)
  | findUsed
  | released
  deriving DecidableEq, Repr

/-- Where the thread is in `tbthread_exit`, between the user's function and the `munmap`. -/
inductive Exit where
  | user
  | joinStatus
  | unlock (freeDesc : Bool)
  | release
  | findUsed
  | released
  | munmap
  deriving DecidableEq, Repr

/-- `used_desc`, `free_desc` and `*thread`. `heap` is what `malloc` has given out, and `got` the
descriptor that the call took or allocated. -/
structure Lists (δ : Type) where
  used : List δ
  free : List δ
  thread : Option δ
  heap : List δ
  got : Option δ
  deriving Repr

/-- `inherit` and `detached` are what the attributes say. `word` is the `tid` of a descriptor before the
call clears it. `failed` is history, the error of the step that failed. -/
structure State (δ : Type) extends StartHandshake.State, Lists δ where
  inherit : Bool
  detached : Bool
  word : δ → BitVec 32
  mutex : Option Party
  place : Place δ
  exit : Exit
  failed : Option Int

/-- `tbthread_create` is called, no descriptor being in the lists twice. -/
structure Initial (used free : List δ) (s : State δ) : Prop where
  nodup : (used ++ free).Nodup
  heap : ∀ d ∈ used ++ free, d ∈ s.heap
  call : StartHandshake.Initial s.toState
  used : s.used = used
  free : s.free = free
  thread : s.thread = none
  got : s.got = none
  mutex : s.mutex = none
  place : s.place = .out
  exit : s.exit = .user
  failed : s.failed = none

/-- The kernel's answers and the steps of the thread as in `StartHandshake`, what `malloc` gives, the
steps of the creator, those of the thread in `tbthread_exit`, the end of a thread that used a
descriptor before, and a `FUTEX_WAIT` of `get_descriptor` that returns `-EINTR`. -/
inductive Action (δ : Type) where
  | handshake (a : StartHandshake.Action)
  | allocate (desc : δ)
  | creator
  | exit
  | ended (desc : δ)
  | interrupt
  deriving DecidableEq, Repr

/-- The error of a step that fails. -/
def failure : StartHandshake.Action → Option Int
  | .mmap status => if status < 0 then some status else none
  | .mprotect status => if status < 0 then some status else none
  | .clone tid => if tid < 0 then some tid else none
  | .setSched ret => if ret ≠ 0 then some ret else none
  | _ => none

/-- The creator's own steps are below; `sched_setscheduler` returns 0 or an error, and the thread
unmaps its stack at the end of `tbthread_exit`. -/
def State.admits (s : State δ) : StartHandshake.Action → Bool
  | .parent => false
  | .setSched ret => ret ≤ 0
  | .finish => s.exit = .munmap
  | _ => true

def State.lock (s : State δ) (p : Party) : Option (State δ) :=
  if s.mutex = none then some { s with mutex := some p } else none

theorem lock_eq_some {s t : State δ} {p : Party} {f : State δ → State δ} :
    (s.lock p).map f = some t ↔ s.mutex = none ∧ t = f { s with mutex := some p } := by
  unfold State.lock
  split <;> simp_all [eq_comm]

variable [DecidableEq δ]

/-- The node of an element, which a list has once. -/
def listFindElem (list : List δ) (element : Option δ) : Option δ := list.find? (some · = element)

/-- `list_rm` and `list_add` of the node that `release_descriptor` finds; `list_rm` of no node
dereferences a null pointer. -/
def State.recycle (s : State δ) : State δ :=
  match listFindElem s.used s.thread with
  | some node => { s with used := s.used.erase node, free := s.free ++ [node] }
  | none => { s with parent := .crashed }

/-- What `tbthread_create` does outside of the two functions. -/
def outside (s : State δ) : Option (State δ) :=
  match s.parent with
  | .pack => match s.thread with
    | none => (s.lock .creator).map fun t => { t with place := .takeFree }
    | some _ => some { s with parent := .clone, startStatus := if s.inherit then .ok else .wait, tid := 0 }
  | .storeTid => if s.inherit then some { s with parent := .returned 0, tid := s.id }
    else (StartHandshake.nextParent s.toState).map fun h => { s with toState := h }
  | .release _ _ => (s.lock .creator).map fun t => { t with place := .findUsed }
  | _ => (StartHandshake.nextParent s.toState).map fun h => { s with toState := h }

def creator (s : State δ) : Option (State δ) :=
  match s.place with
  | .out => outside s
  -- get_descriptor
  | .takeFree => match s.free with
    | [] => some { s with place := .tookFree none }
    | d :: free => some { s with free := free, got := some d, place := .tookFree (some d) }
  | .tookFree none => some { s with mutex := none, place := .allocate }
  | .tookFree (some d) => some { s with mutex := none, place := .readTid d }
  | .readTid d => some { s with place := if s.word d ≠ 0 then .futexWait d (s.word d) else .lockUsed d }
  | .futexWait d tid => some { s with place := if s.word d = tid then .asleep d tid else .lockUsed d }
  | .asleep _ _ => none
  | .allocate => none
  | .lockUsed d => (s.lock .creator).map fun t => { t with place := .addUsed d }
  | .addUsed d => some { s with used := s.used ++ [d], place := .addedUsed d }
  | .addedUsed d => some { s with mutex := none, thread := some d, place := .out }
  -- release_descriptor
  | .findUsed => some { s.recycle with place := .released }
  | .released => match s.parent with
    | .release ret _ => some { s with mutex := none, parent := .returned ret, place := .out }
    | _ => none

/-- `tbthread_exit` between the user's function and the `munmap`. -/
def exit (s : State δ) : Option (State δ) :=
  if s.child ≠ .user then none else match s.exit with
  | .user => (s.lock .thread).map fun t => { t with exit := .joinStatus }
  | .joinStatus => some { s with detached := false, exit := .unlock s.detached }
  | .unlock freeDesc => some { s with mutex := none, exit := if freeDesc then .release else .munmap }
  | .release => (s.lock .thread).map fun t => { t with exit := .findUsed }
  | .findUsed => some { s.recycle with exit := .released }
  | .released => some { s with mutex := none, exit := .munmap }
  | .munmap => none

def step (s : State δ) (a : Action δ) : Option (State δ) :=
  if s.parent = .crashed then none else match a with
  | .handshake b => if s.admits b then
      (StartHandshake.step s.toState b).map fun h => { s with toState := h, failed := failure b <|> s.failed }
    else none
  | .allocate d => if s.place = .allocate ∧ d ∉ s.heap then
      some { s with heap := d :: s.heap, got := some d, place := .lockUsed d }
    else none
  | .creator => creator s
  | .exit => exit s
  | .ended d => some { s with
      word := Function.update s.word d 0
      place := match s.place with
        | .asleep e tid => if e = d then .lockUsed d else .asleep e tid
        | p => p }
  | .interrupt => match s.place with
    | .asleep d tid => some { s with place := .futexWait d tid }
    | _ => none

/-- What a step of `StartHandshake` other than the creator's own does to the creator. -/
inductive Turned : Parent → StartHandshake.Action → Parent → Prop where
  | mmap (status : Int) : Turned .mmap (.mmap status) (if status < 0 then .returned status else .mprotect)
  | mprotect (status : Int) : Turned .mprotect (.mprotect status) (if status < 0 then .munmap status false else .pack)
  | clone (tid : Int) : Turned .clone (.clone tid) (if tid < 0 then .munmap tid true else .storeTid)
  | setSched (ret : Int) : Turned .setSched (.setSched ret) (.storeStart ret)
  | interrupt (tid : BitVec 32) (ret : Int) : Turned (.asleep tid ret) .parentInterrupt (.futexWait tid ret)
  | ended (tid : BitVec 32) (ret : Int) : Turned (.asleep tid ret) .child (.munmap ret true)
  | same (p : Parent) {a : StartHandshake.Action} (ha : failure a = none) : Turned p a p

theorem turned {h h' : StartHandshake.State} {a : StartHandshake.Action} (hans : Answered h a h') :
    Turned h.parent a h'.parent := by
  cases hans with
  | @unmapped status hp hneg => simpa only [hp, hneg, if_true] using Turned.mmap status
  | @mapped status hp hpos => simpa only [hp, hpos, if_false] using Turned.mmap status
  | @unguarded status hp hneg => simpa only [hp, hneg, if_true] using Turned.mprotect status
  | @guarded status hp hpos => simpa only [hp, hpos, if_false] using Turned.mprotect status
  | @uncloned tid hp hneg => simpa only [hp, hneg, if_true] using Turned.clone tid
  | @cloned tid hp hpos => simpa only [hp, hpos, if_false] using Turned.clone tid
  | @scheduled ret hp => rw [hp]; exact .setSched ret
  | @interrupted tid ret hp => rw [hp]; exact .interrupt tid ret
  | ran hr =>
    rcases hr.parent with hp | hp <;> rw [hp]
    · exact .same _ rfl
    · cases h.parent with
      | asleep tid ret => exact .ended tid ret
      | _ => exact .same _ rfl
  | childInterrupted hc => exact .same _ rfl
  | finished hc => exact .same _ rfl

/-- What the creator's step does in the part of the call that `StartHandshake` is about. -/
inductive Continued : Parent → Parent → Prop where
  | storeTid : Continued .storeTid .setSched
  | storeStart (ret : Int) : Continued (.storeStart ret) (.wakeStart ret)
  | refused {ret : Int} (h : ret ≠ 0) : Continued (.wakeStart ret) (.readTid ret)
  | granted : Continued (.wakeStart 0) (.returned 0)
  | readTid (tid : BitVec 32) (ret : Int) : Continued (.readTid ret) (.futexWait tid ret)
  | readNone (ret : Int) : Continued (.readTid ret) (.munmap ret true)
  | futexWait (tid : BitVec 32) (ret : Int) : Continued (.futexWait tid ret) (.asleep tid ret)
  | wouldBlock (tid : BitVec 32) (ret : Int) : Continued (.futexWait tid ret) (.munmap ret true)
  | munmap (ret : Int) (desc : Bool) : Continued (.munmap ret desc) (.release ret desc)

theorem continued {h h' : StartHandshake.State} (hpack : h.parent ≠ .pack) (hrel : ∀ ret desc, h.parent ≠ .release ret desc)
    (hs : StartHandshake.nextParent h = some h') : Continued h.parent h'.parent ∧ h'.started = h.started ∧
      (h'.child = h.child ∨ h'.child = StartHandshake.wake h.child) := by
  unfold StartHandshake.nextParent at hs
  split at hs <;> rename_i hp
  · exact absurd hp hpack
  · cases hs; rw [hp]; exact ⟨.storeTid, rfl, .inl rfl⟩
  · cases hs; rw [hp]; exact ⟨.storeStart _, rfl, .inl rfl⟩
  · cases hs
    rw [hp]
    refine ⟨?_, rfl, .inr rfl⟩
    split <;> rename_i hret
    · exact .refused hret
    · exact not_not.mp hret ▸ .granted
  · cases hs
    rw [hp]
    refine ⟨?_, rfl, .inl rfl⟩
    split
    · exact .readTid _ _
    · exact .readNone _
  · cases hs
    rw [hp]
    refine ⟨?_, rfl, .inl rfl⟩
    split
    · exact .futexWait _ _
    · exact .wouldBlock _ _
  · cases hs; rw [hp]; exact ⟨.munmap _ _, rfl, .inl rfl⟩
  · exact absurd hp (hrel _ _)
  · cases hs

/-- What a step of the creator does, case by case. -/
inductive Moved (s : State δ) : State δ → Prop where
  | lockFree (hout : s.place = .out) (hp : s.parent = .pack) (ht : s.thread = none) (hm : s.mutex = none) :
      Moved s { s with mutex := some .creator, place := .takeFree }
  | fill {d : δ} (hout : s.place = .out) (hp : s.parent = .pack) (ht : s.thread = some d) :
      Moved s { s with parent := .clone, startStatus := if s.inherit then .ok else .wait, tid := 0 }
  | inherited (hout : s.place = .out) (hp : s.parent = .storeTid) (hi : s.inherit = true) :
      Moved s { s with parent := .returned 0, tid := s.id }
  | lockRelease {ret : Int} {desc : Bool} (hout : s.place = .out) (hp : s.parent = .release ret desc)
      (hm : s.mutex = none) : Moved s { s with mutex := some .creator, place := .findUsed }
  | goes {h : StartHandshake.State} (hout : s.place = .out) (hs : StartHandshake.nextParent s.toState = some h)
      (hc : Continued s.parent h.parent) (hstarted : h.started = s.started)
      (hchild : h.child = s.child ∨ h.child = StartHandshake.wake s.child) (hi : s.parent = .storeTid → s.inherit = false) : Moved s { s with toState := h }
  | tookNone (hpl : s.place = .takeFree) (hf : s.free = []) : Moved s { s with place := .tookFree none }
  | took {d : δ} {free : List δ} (hpl : s.place = .takeFree) (hf : s.free = d :: free) :
      Moved s { s with free := free, got := some d, place := .tookFree (some d) }
  | unlockNone (hpl : s.place = .tookFree none) : Moved s { s with mutex := none, place := .allocate }
  | unlockSome {d : δ} (hpl : s.place = .tookFree (some d)) : Moved s { s with mutex := none, place := .readTid d }
  | readTid {d : δ} (hpl : s.place = .readTid d) :
      Moved s { s with place := if s.word d ≠ 0 then .futexWait d (s.word d) else .lockUsed d }
  | futexWait {d : δ} {tid : BitVec 32} (hpl : s.place = .futexWait d tid) :
      Moved s { s with place := if s.word d = tid then .asleep d tid else .lockUsed d }
  | lockUsed {d : δ} (hpl : s.place = .lockUsed d) (hm : s.mutex = none) :
      Moved s { s with mutex := some .creator, place := .addUsed d }
  | addUsed {d : δ} (hpl : s.place = .addUsed d) : Moved s { s with used := s.used ++ [d], place := .addedUsed d }
  | addedUsed {d : δ} (hpl : s.place = .addedUsed d) :
      Moved s { s with mutex := none, thread := some d, place := .out }
  | findUsed (hpl : s.place = .findUsed) : Moved s { s.recycle with place := .released }
  | released {ret : Int} {desc : Bool} (hpl : s.place = .released) (hp : s.parent = .release ret desc) :
      Moved s { s with mutex := none, parent := .returned ret, place := .out }

theorem outside_moved {s s' : State δ} (hout : s.place = .out) (h : outside s = some s') : Moved s s' := by
  unfold outside at h
  split at h <;> rename_i hp
  · split at h <;> rename_i ht
    · obtain ⟨hm, rfl⟩ := lock_eq_some.mp h
      exact .lockFree hout hp ht hm
    · cases h
      exact .fill hout hp ht
  · split at h <;> rename_i hi
    · cases h
      exact .inherited hout hp hi
    · obtain ⟨g, hg, rfl⟩ := Option.map_eq_some_iff.mp h
      obtain ⟨hc, hstarted, hchild⟩ := continued (by simp [hp]) (by simp [hp]) hg
      exact .goes hout hg hc hstarted hchild fun _ => by simpa using hi
  · obtain ⟨hm, rfl⟩ := lock_eq_some.mp h
    exact .lockRelease hout hp hm
  · rename_i hpack hstore
    obtain ⟨g, hg, rfl⟩ := Option.map_eq_some_iff.mp h
    obtain ⟨hc, hstarted, hchild⟩ := continued hpack hp hg
    exact .goes hout hg hc hstarted hchild fun hstored => absurd hstored hstore

theorem creator_moved {s s' : State δ} (h : creator s = some s') : Moved s s' := by
  unfold creator at h
  split at h <;> rename_i hpl
  · exact outside_moved hpl h
  · split at h <;> rename_i hf <;> cases h
    · exact .tookNone hpl hf
    · exact .took hpl hf
  · cases h; exact .unlockNone hpl
  · cases h; exact .unlockSome hpl
  · cases h; exact .readTid hpl
  · cases h; exact .futexWait hpl
  · cases h
  · cases h
  · obtain ⟨hm, rfl⟩ := lock_eq_some.mp h
    exact .lockUsed hpl hm
  · cases h; exact .addUsed hpl
  · cases h; exact .addedUsed hpl
  · cases h; exact .findUsed hpl
  · split at h <;> cases h
    rename_i hp
    exact .released hpl hp

end ThreadBites.CreateDescriptor

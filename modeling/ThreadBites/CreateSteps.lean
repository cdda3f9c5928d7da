import ThreadBites.CreateDescriptor

/-!
# What the call holds at each place

The invariant says of the call and its thread that it is as in `StartHandshake`, that it cannot fail any
more, or that it is at the `clone` of a thread that will not wait; and for each place of the creator
where the descriptor is and who holds `desc_mutex`.
-/
namespace ThreadBites.CreateDescriptor

open Transition
open StartHandshake (Parent Child Ran Answered answered)

variable {δ : Type} [DecidableEq δ]

/-- The error that the call is on its way to return. -/
def errorAt : Parent → Option Int
  | .storeStart ret => if ret = 0 then none else some ret
  | .wakeStart ret => if ret = 0 then none else some ret
  | .readTid ret => some ret
  | .futexWait _ ret => some ret
  | .asleep _ ret => some ret
  | .munmap ret _ => some ret
  | .release ret _ => some ret
  | .returned ret => if ret = 0 then none else some ret
  | _ => none

/-- `mprotect` does not fail, and where `tb_set_sched` does, the thread is still on its way to the
user's function and finds a status that was stored. -/
def Sound (s : State δ) : Action δ → Prop
  | .handshake (.mprotect status) => 0 ≤ status
  | .handshake (.setSched ret) => ret = 0 ∨ s.started = false
  | .handshake .child => s.child = .recheck → s.startStatus = .wait → errorAt s.parent = none
  | _ => True

omit [DecidableEq δ] in
instance (s : State δ) (a : Action δ) : Decidable (Sound s a) := by
  cases a with
  | handshake b => cases b <;> unfold Sound <;> infer_instance
  | _ => unfold Sound; infer_instance

/-- Places from which the call does not fail once the user's function runs. -/
def loose : Parent → Bool
  | .storeTid => true
  | .setSched => true
  | .storeStart ret => ret = 0
  | .wakeStart ret => ret = 0
  | .returned ret => ret = 0
  | _ => false

/-- The call cannot fail any more, whatever the thread does. -/
structure Loose (inherit : Bool) (h : StartHandshake.State) : Prop where
  parent : loose h.parent = true
  stored : h.parent = .storeTid → inherit = true ∨ h.started = true
  set : h.parent = .setSched → h.started = true

/-- At the `clone` of a thread that will not wait. -/
structure Cloning (inherit : Bool) (h : StartHandshake.State) : Prop where
  inherit : inherit = true
  parent : h.parent = .clone
  child : h.child = .unborn
  still : StartHandshake.Still h 0
  mapped : h.mapped = true
  early : h.early = false

/-- The call and its thread. -/
def Called (inherit : Bool) (h : StartHandshake.State) : Prop :=
  StartHandshake.Inv h ∨ Loose inherit h ∨ Cloning inherit h

/-- Where the call may fail it is as in `StartHandshake`, but at the `clone`. -/
theorem Called.inv {inherit : Bool} {h : StartHandshake.State} (hc : Called inherit h) (hp : loose h.parent = false)
    (hclone : h.parent ≠ .clone) : StartHandshake.Inv h := by
  rcases hc with hi | hl | hc
  · exact hi
  · exact absurd (hl.parent.symm.trans hp) (by simp)
  · exact absurd hc.parent hclone

/-- Where the thread has started the user's function, the call has not failed and will not. -/
theorem Called.started {inherit : Bool} {h : StartHandshake.State} (hc : Called inherit h) (hs : h.started = true) :
    loose h.parent = true := by
  rcases hc with hi | hl | hc
  · have hg : h.parent.granted = true := by
      by_contra hg
      rw [hi.placed.unstarted (by simpa using hg)] at hs
      cases hs
    unfold Parent.granted at hg
    unfold loose
    split at hg <;> simp_all
  · exact hl.parent
  · rw [hc.still.started] at hs
    cases hs

/-- A thread that comes out of its wait with nothing stored: its creator is before the store. -/
theorem inv_recheck {h : StartHandshake.State} (hi : StartHandshake.Inv h) (hc : h.child = .recheck)
    (hw : h.startStatus = .wait) : h.parent = .storeTid ∨ h.parent = .setSched ∨ ∃ ret, h.parent = .storeStart ret := by
  have hp := hi.placed
  have still {n : Nat} (hs : StartHandshake.Still h n) : False := by
    have hgone := hs.gone
    rw [hc] at hgone
    cases hgone
  have granted (hg : StartHandshake.Granted h) : False := by
    have hs := hg.status
    rw [hw] at hs
    cases hs
  have refused (hr : StartHandshake.Refused h) : False := by
    have hs := hr.status
    rw [hw] at hs
    cases hs
  cases hpc : h.parent with
  | storeTid => exact .inl rfl
  | setSched => exact .inr (.inl rfl)
  | storeStart ret => exact .inr (.inr ⟨ret, rfl⟩)
  | mmap => rw [hpc] at hp; exact (still hp.2.1).elim
  | mprotect => rw [hpc] at hp; exact (still hp.2.1).elim
  | pack => rw [hpc] at hp; exact (still hp.2.1).elim
  | clone => rw [hpc] at hp; exact (still hp.2.1).elim
  | wakeStart ret =>
    rw [hpc] at hp
    simp only [StartHandshake.Placed] at hp
    split at hp
    · exact (granted hp).elim
    · exact (refused hp).elim
  | readTid ret => rw [hpc] at hp; exact (refused hp.2).elim
  | futexWait tid ret => rw [hpc] at hp; exact (refused hp.2.1).elim
  | asleep tid ret => rw [hpc] at hp; exact (refused hp.2.1).elim
  | munmap ret desc => rw [hpc] at hp; exact (still hp.2.1).elim
  | release ret desc => rw [hpc] at hp; exact (still hp.2.1).elim
  | crashed => rw [hpc] at hp; exact (still hp).elim
  | returned ret =>
    rw [hpc] at hp
    simp only [StartHandshake.Placed] at hp
    split at hp
    · exact (granted hp).elim
    · exact (still hp).elim

omit [DecidableEq δ] in
/-- A call that cannot fail stays so when the kernel or the thread makes a step. -/
theorem Loose.answer {s : State δ} {a : StartHandshake.Action} {h : StartHandshake.State} (hl : Loose s.inherit s.toState)
    (hok : Sound s (.handshake a)) (hans : Answered s.toState a h) : Loose s.inherit h := by
  have hp := hl.parent
  have hturned := turned hans
  generalize hpar : s.parent = p at hturned hp
  generalize hpar' : h.parent = p' at hturned
  cases hturned with
  | setSched ret =>
    -- the user's function runs, so the call goes on only if the schedule was set
    have hret : ret = 0 := by
      rcases hok with hret | hun
      · exact hret
      · rw [hl.set hpar] at hun
        cases hun
    exact ⟨by simp [hpar', loose, hret], by simp [hpar'], by simp [hpar']⟩
  | same p hfail =>
    refine ⟨by rw [hpar', hp], fun hp' => ?_, fun hp' => ?_⟩
    · exact (hl.stored (hpar.trans (hpar'.symm.trans hp'))).imp id hans.started
    · exact hans.started (hl.set (hpar.trans (hpar'.symm.trans hp')))
  | mmap status => cases hp
  | mprotect status => cases hp
  | clone tid => cases hp
  | interrupt tid ret => cases hp
  | ended tid ret => cases hp

omit [DecidableEq δ] in
theorem Cloning.answer {s : State δ} {a : StartHandshake.Action} {h : StartHandshake.State}
    (hc : Cloning s.inherit s.toState) (hans : Answered s.toState a h) : Called s.inherit h := by
  have parent {p : Parent} (hp : s.parent = p) : p = .clone := hp.symm.trans hc.parent
  have child {c : Child} (hchild : s.child = c) : c = .unborn := hchild.symm.trans hc.child
  cases hans with
  | uncloned hp hneg =>
    exact .inl ⟨⟨by omega, ⟨hc.still.gone, hc.still.started, hc.still.unmaps⟩, hc.mapped⟩, hc.early⟩
  | cloned hp hpos hid => exact .inr (.inl ⟨rfl, fun _ => .inl hc.inherit, by simp⟩)
  | unmapped hp hneg => cases parent hp
  | mapped hp hpos => cases parent hp
  | unguarded hp hneg => cases parent hp
  | guarded hp hpos => cases parent hp
  | scheduled hp => cases parent hp
  | interrupted hp => cases parent hp
  | childInterrupted hsleep => cases child hsleep
  | finished huser => cases child huser
  | ran hr => exact (hc.still.not_ran hr).elim

omit [DecidableEq δ] in
/-- The kernel or the thread makes a step. -/
theorem Called.answer {s : State δ} {a : StartHandshake.Action} {h : StartHandshake.State} (hc : Called s.inherit s.toState)
    (hok : Sound s (.handshake a)) (ha : a ≠ .parent) (hs : StartHandshake.step s.toState a = some h) :
    Called s.inherit h := by
  rcases hc with hi | hl | hc
  · by_cases htold : StartHandshake.Told s.toState a
    · exact .inl (StartHandshake.step_inv hi htold hs)
    · -- the thread runs on although nothing was stored
      refine .inr (.inl ?_)
      obtain ⟨rfl, hrecheck, hwait⟩ : a = .child ∧ s.child = .recheck ∧ s.startStatus = .wait := by
        cases a <;> simp_all [StartHandshake.Told]
      have hrun : h = { s.toState with child := .user, started := true } := by
        simpa [StartHandshake.step, StartHandshake.nextChild, hrecheck, hwait, eq_comm] using hs
      subst hrun
      refine ⟨?_, fun _ => .inr rfl, fun _ => rfl⟩
      rcases inv_recheck hi hrecheck hwait with hp | hp | ⟨ret, hp⟩
      · rw [hp]; rfl
      · rw [hp]; rfl
      · have hret : errorAt s.parent = none := hok hrecheck hwait
        simp only [hp, errorAt, ite_eq_left_iff, reduceCtorEq, imp_false, not_not] at hret
        rw [hp, hret]
        rfl
  · exact .inr (.inl (hl.answer hok (answered ha hs)))
  · exact hc.answer (answered ha hs)

/-- The creator makes a step of `StartHandshake`. -/
theorem Called.goes {inherit : Bool} {h h' : StartHandshake.State} (hc : Called inherit h)
    (hs : StartHandshake.nextParent h = some h') (hcont : Continued h.parent h'.parent) (hstarted : h'.started = h.started)
    (hi : h.parent = .storeTid → inherit = false) : Called inherit h' := by
  rcases hc with hinv | hl | hc
  · exact .inl (hinv.parent hs)
  · have hp := hl.parent
    refine .inr (.inl ?_)
    generalize hpar : h.parent = p at hcont hp
    generalize hpar' : h'.parent = p' at hcont
    cases hcont with
    | storeTid =>
      have hran : h.started = true := (hl.stored hpar).resolve_left (by simp [hi hpar])
      exact ⟨by rw [hpar']; rfl, by simp [hpar'], fun _ => hstarted.trans hran⟩
    | storeStart ret => exact ⟨by rw [hpar']; exact hp, by simp [hpar'], by simp [hpar']⟩
    | refused hret => simp [loose, hret] at hp
    | granted => exact ⟨by rw [hpar']; rfl, by simp [hpar'], by simp [hpar']⟩
    | _ => cases hp
  · have hp := hc.parent
    rw [hp] at hcont
    cases hcont

/-- The call has no descriptor. -/
structure Before (used free : List δ) (l : Lists δ) : Prop where
  used : l.used = used
  free : l.free = free
  thread : l.thread = none
  got : l.got = none

/-- The call has a descriptor that is in no list. -/
structure Held (used : List δ) (l : Lists δ) (d : δ) : Prop where
  unused : d ∉ used
  used : l.used = used
  free : d ∉ l.free
  got : l.got = some d

structure Listed (used : List δ) (l : Lists δ) (d : δ) : Prop where
  unused : d ∉ used
  used : l.used = used ++ [d]
  free : d ∉ l.free
  got : l.got = some d

/-- The call has given its descriptor back. -/
structure Released (used : List δ) (l : Lists δ) (d : δ) : Prop where
  used : l.used = used
  free : l.free.count d = 1
  got : l.got = some d

def Owned (used : List δ) (l : Lists δ) : Prop := ∃ d, l.thread = some d ∧ Listed used l d

def AtParent (used free : List δ) (l : Lists δ) : Parent → Prop
  | .mmap => Before used free l
  | .mprotect => Before used free l
  | .pack => Before used free l ∨ Owned used l
  | .munmap _ desc => desc = true ∧ Owned used l
  | .release _ desc => desc = true ∧ Owned used l
  | .returned ret => if ret = 0 then Owned used l else Before used free l ∨ ∃ d, Released used l d
  | .crashed => False
  | _ => Owned used l

def AtPlace (used free : List δ) (l : Lists δ) (p : Parent) : Place δ → Prop
  | .out => AtParent used free l p
  | .takeFree => Before used free l
  | .tookFree none => Before used free l
  | .tookFree (some d) => Held used l d
  | .readTid d => Held used l d
  | .futexWait d _ => Held used l d
  | .asleep d _ => Held used l d
  | .allocate => Before used free l
  | .lockUsed d => Held used l d
  | .addUsed d => Held used l d
  | .addedUsed d => Listed used l d
  | .findUsed => Owned used l
  | .released => ∃ d, Released used l d

def Place.locked : Place δ → Bool
  | .takeFree => true
  | .tookFree _ => true
  | .addUsed _ => true
  | .addedUsed _ => true
  | .findUsed => true
  | .released => true
  | _ => false

def Exit.locked : Exit → Bool
  | .joinStatus => true
  | .unlock _ => true
  | .findUsed => true
  | .released => true
  | _ => false

/-- The thread has not released its descriptor. -/
def Exit.early : Exit → Bool
  | .released => false
  | .munmap => false
  | _ => true

def holder (p : Place δ) (e : Exit) : Option Party :=
  if p.locked then some .creator else if e.locked then some .thread else none

/-- The function that a place is in is called where the creator is. -/
def Inside (p : Parent) : Place δ → Prop
  | .out => True
  | .findUsed => ∃ ret desc, p = .release ret desc
  | .released => ∃ ret desc, p = .release ret desc
  | _ => p = .pack

structure Inv (used free : List δ) (s : State δ) : Prop where
  nodup : (used ++ free).Nodup
  heap : ∀ d ∈ used ++ free, d ∈ s.heap
  called : Called s.inherit s.toState
  running : s.parent ≠ .crashed
  failed : s.failed = errorAt s.parent
  negative : ∀ e, s.failed = some e → e < 0
  inside : Inside s.parent s.place
  user : s.child = .user → s.started = true
  exiting : s.exit ≠ .user → s.started = true
  mutex : s.mutex = holder s.place s.exit
  lists : s.exit.early = true → AtPlace used free s.toLists s.parent s.place

variable {used free : List δ} {s : State δ}

theorem Initial.inv (h : Initial used free s) : Inv used free s where
  nodup := h.nodup
  heap := h.heap
  called := .inl h.call.inv
  running := by simp [h.call.parent]
  failed := by rw [h.failed, h.call.parent]; rfl
  negative := by simp [h.failed]
  inside := by rw [h.place]; trivial
  user := by simp [h.call.child]
  exiting := by simp [h.exit]
  mutex := by rw [h.mutex, h.place, h.exit]; rfl
  lists _ := by
    rw [h.place, h.call.parent]
    exact ⟨h.used, h.free, h.thread, h.got⟩

theorem AtParent.answer {l : Lists δ} {p p' : Parent} {a : StartHandshake.Action} (h : AtParent used free l p)
    (hans : Turned p a p') (hok : ∀ status, a = .mprotect status → 0 ≤ status) : AtParent used free l p' := by
  cases hans with
  | mmap status =>
    split <;> rename_i hneg
    · simp only [AtParent, show status ≠ 0 by omega, if_false]
      exact .inl h
    · exact h
  | mprotect status =>
    rw [if_neg (by have := hok status rfl; omega)]
    exact .inl h
  | clone tid =>
    split
    · exact ⟨rfl, h⟩
    · exact h
  | setSched ret => exact h
  | interrupt tid ret => exact h
  | ended tid ret => exact ⟨rfl, h⟩
  | same p ha => exact h

theorem AtParent.continued {l : Lists δ} {p p' : Parent} (h : AtParent used free l p) (hc : Continued p p') :
    AtParent used free l p' := by
  cases hc with
  | readNone ret => exact ⟨rfl, h⟩
  | wouldBlock tid ret => exact ⟨rfl, h⟩
  | granted =>
    simp only [AtParent, if_true]
    exact h
  | _ => exact h

theorem Turned.error {p p' : Parent} {a : StartHandshake.Action} (h : Turned p a p') :
    (failure a <|> errorAt p) = errorAt p' := by
  cases h with
  | mmap status =>
    by_cases hneg : status < 0
    · simp [failure, hneg, errorAt, show status ≠ 0 by omega]
    · simp [failure, hneg, errorAt]
  | mprotect status => by_cases hneg : status < 0 <;> simp [failure, hneg, errorAt]
  | clone tid => by_cases hneg : tid < 0 <;> simp [failure, hneg, errorAt]
  | setSched ret => by_cases hret : ret = 0 <;> simp [failure, hret, errorAt]
  | interrupt tid ret => rfl
  | ended tid ret => rfl
  | same p ha => simp [ha]

theorem Continued.error {p p' : Parent} (h : Continued p p') : errorAt p' = errorAt p := by
  cases h with
  | refused hret => simp [errorAt, hret]
  | _ => rfl

theorem Continued.running {p p' : Parent} (h : Continued p p') : p' ≠ .crashed := by
  cases h <;> simp

omit [DecidableEq δ] in
/-- In `get_descriptor` and `release_descriptor` the creator is where it called them. -/
theorem Inside.answer {p p' : Parent} {a : StartHandshake.Action} {q : Place δ} (h : Inside p q) (hans : Turned p a p') :
    q = .out ∨ p' = p := by
  cases hans with
  | same p ha => exact .inr rfl
  | _ => cases q <;> simp_all [Inside]

theorem answered_user {h h' : StartHandshake.State} {a : StartHandshake.Action} (hans : Answered h a h')
    (hu : h.child = .user → h.started = true) (hc : h'.child = .user) : h'.started = true := by
  cases hans with
  | ran hr =>
    cases hr with
    | start _ _ => rfl
    | run _ _ => rfl
    | _ => cases hc
  | cloned hp hpos hid => cases hc
  | childInterrupted _ => cases hc
  | finished _ => cases hc
  | _ => exact hu hc

theorem Turned.running {p p' : Parent} {a : StartHandshake.Action} (h : Turned p a p') (hp : p ≠ .crashed) :
    p' ≠ .crashed := by
  cases h with
  | same p ha => exact hp
  | mmap status => split <;> simp
  | mprotect status => split <;> simp
  | clone tid => split <;> simp
  | _ => simp

theorem Inv.answer (hi : Inv used free s) {a : StartHandshake.Action} {h : StartHandshake.State}
    (hok : Sound s (.handshake a)) (hadmits : s.admits a = true) (hs : StartHandshake.step s.toState a = some h) :
    Inv used free { s with toState := h, failed := failure a <|> s.failed } := by
  have ha : a ≠ .parent := by
    rintro rfl
    cases hadmits
  have hans := answered ha hs
  have hturned := turned hans
  have herror : (failure a <|> s.failed) = errorAt h.parent := by rw [hi.failed, hturned.error]
  refine ⟨hi.nodup, hi.heap, hi.called.answer hok ha hs, hturned.running hi.running, herror, ?_, ?_,
    answered_user hans hi.user, fun he => hans.started (hi.exiting he), hi.mutex, fun he => ?_⟩
  · intro e he
    cases hf : failure a with
    | none => exact hi.negative e (by simpa [hf] using he)
    | some err =>
      obtain rfl : err = e := by simpa [hf] using he
      cases a with
      | setSched ret =>
        have hle : ret ≤ 0 := by simpa [State.admits] using hadmits
        simp only [failure, ne_eq, ite_not, Option.ite_none_left_eq_some, Option.some.injEq] at hf
        omega
      | mmap status => simp only [failure, Option.ite_none_right_eq_some, Option.some.injEq] at hf; omega
      | mprotect status => simp only [failure, Option.ite_none_right_eq_some, Option.some.injEq] at hf; omega
      | clone tid => simp only [failure, Option.ite_none_right_eq_some, Option.some.injEq] at hf; omega
      | _ => cases hf
  · rcases hi.inside.answer hturned with hout | hp
    · simp only [hout]
      trivial
    · simp only [hp]
      exact hi.inside
  · have hl := hi.lists he
    rcases hi.inside.answer hturned with hout | hp
    · simp only [hout] at hl ⊢
      exact hl.answer hturned (by rintro status rfl; exact hok)
    · simp only [hp]
      exact hl

/-- At a place from which the call may fail, the thread is not in the user's function. -/
theorem Inv.quiet (hi : Inv used free s) (hp : loose s.parent = false) : s.started = false ∧ s.exit = .user := by
  have hstarted : s.started = false := by
    by_contra hs
    rw [hi.called.started (by simpa using hs)] at hp
    cases hp
  refine ⟨hstarted, ?_⟩
  by_contra he
  rw [hi.exiting he] at hstarted
  cases hstarted

omit [DecidableEq δ] in
theorem Inside.loose {p : Parent} {q : Place δ} (h : Inside p q) (hq : q ≠ .out) : loose p = false := by
  cases q with
  | out => exact absurd rfl hq
  | findUsed => obtain ⟨ret, desc, rfl⟩ := h; rfl
  | released => obtain ⟨ret, desc, rfl⟩ := h; rfl
  | _ => rw [show p = .pack from h]; rfl

/-- The creator takes a step in `get_descriptor` or `release_descriptor` that leaves the thread alone. -/
theorem Inv.place (hi : Inv used free s) (hp : CreateDescriptor.loose s.parent = false) {l : Lists δ} {q : Place δ}
    {m : Option Party} (hheap : ∀ d ∈ s.heap, d ∈ l.heap) (hin : Inside s.parent q) (hm : m = holder q .user)
    (hl : AtPlace used free s.toLists s.parent s.place → AtPlace used free l s.parent q) :
    Inv used free { s with toLists := l, mutex := m, place := q } := by
  obtain ⟨hstarted, hexit⟩ := hi.quiet hp
  refine ⟨hi.nodup, fun d hd => hheap d (hi.heap d hd), hi.called, hi.running, hi.failed, hi.negative, hin, hi.user,
    hi.exiting, ?_, fun he => hl (hi.lists he)⟩
  rw [hm, show s.exit = .user from hexit]

theorem Inv.at_place (hi : Inv used free s) {p : Place δ} (hpl : s.place = p) : Inside s.parent p := hpl ▸ hi.inside

/-- A step inside one of the two functions that locks or unlocks. -/
theorem Inv.turn (hi : Inv used free s) {p q : Place δ} (hpl : s.place = p) (hp : p ≠ .out) {l : Lists δ}
    {m : Option Party} (hheap : s.heap = l.heap) (hin : Inside s.parent p → Inside s.parent q) (hm : m = holder q .user)
    (hl : AtPlace used free s.toLists s.parent p → AtPlace used free l s.parent q) :
    Inv used free { s with toLists := l, mutex := m, place := q } := by
  have hin₀ := hi.at_place hpl
  refine hi.place (hin₀.loose hp) (fun d hd => hheap ▸ hd) (hin hin₀) hm ?_
  rw [hpl]
  exact hl

/-- A step inside one of the two functions that does neither. -/
theorem Inv.within (hi : Inv used free s) {p q : Place δ} (hpl : s.place = p) (hp : p ≠ .out) {l : Lists δ}
    (hheap : s.heap = l.heap) (hin : Inside s.parent p → Inside s.parent q) (hq : q.locked = p.locked)
    (hl : AtPlace used free s.toLists s.parent p → AtPlace used free l s.parent q) :
    Inv used free { s with toLists := l, place := q } := by
  refine hi.turn hpl hp hheap hin ?_ hl
  rw [hi.mutex, (hi.quiet ((hi.at_place hpl).loose hp)).2, hpl]
  simp only [holder, hq]

theorem AtParent.owned {l : Lists δ} {p : Parent} (h : AtParent used free l p) (hp : CreateDescriptor.loose p = true) :
    Owned used l := by
  cases p with
  | storeTid => exact h
  | setSched => exact h
  | storeStart ret => exact h
  | wakeStart ret => exact h
  | returned ret =>
    have hret : ret = 0 := by simpa [CreateDescriptor.loose] using hp
    simpa only [AtParent, hret, if_true] using h
  | _ => cases hp

theorem find_mem {l : List δ} {d : δ} (h : d ∈ l) : listFindElem l (some d) = some d := by
  unfold listFindElem
  cases hf : l.find? (some · = some d) with
  | none => simpa using List.find?_eq_none.mp hf d h
  | some e => simpa using List.find?_some hf

/-- The descriptor that the call owns is found, and goes to `free_desc`. -/
theorem recycle_owned (h : Owned used s.toLists) : ∃ d, s.recycle = { s with used := used, free := s.free ++ [d] } ∧
    Released used { s.toLists with used := used, free := s.free ++ [d] } d := by
  obtain ⟨d, ht, hd⟩ := h
  have hmem : d ∈ s.used := by simp [hd.used]
  refine ⟨d, ?_, rfl, ?_, hd.got⟩
  · have herase : s.used.erase d = used := by
      rw [hd.used, List.erase_append_right _ hd.unused]
      simp
    simp only [State.recycle, ht, find_mem hmem, herase]
  · simp [List.count_eq_zero_of_not_mem hd.free]

theorem wake_user {c : Child} (h : StartHandshake.wake c = .user) : c = .user := by
  cases c <;> simp_all [StartHandshake.wake]

/-- The creator clears the descriptor and packs everything up. -/
theorem Inv.fill (hi : Inv used free s) {d : δ} (hout : s.place = .out) (hp : s.parent = .pack) (ht : s.thread = some d) :
    Inv used free { s with parent := .clone, startStatus := if s.inherit then .ok else .wait, tid := 0 } := by
  have hcalled := hi.called.inv (by rw [hp]; rfl) (by simp [hp])
  have hplaced := hcalled.placed
  rw [hp] at hplaced
  obtain ⟨hunborn, hstill, hmapped⟩ := hplaced
  have hstill' : StartHandshake.Still { s.toState with
      parent := .clone, startStatus := if s.inherit then .ok else .wait, tid := 0 } 0 :=
    ⟨hstill.gone, hstill.started, hstill.unmaps⟩
  refine ⟨hi.nodup, hi.heap, ?_, by simp, by rw [hi.failed, hp]; rfl, hi.negative, by simp only [hout]; trivial, hi.user,
    hi.exiting, hi.mutex, fun he => ?_⟩
  · cases hin : s.inherit with
    | true =>
      rw [hin] at hstill'
      exact .inr (.inr ⟨rfl, rfl, hunborn, hstill', hmapped, hcalled.early⟩)
    | false =>
      rw [hin] at hstill'
      exact .inl ⟨⟨hunborn, hstill', hmapped, rfl⟩, hcalled.early⟩
  · have hl := hi.lists he
    simp only [hout, hp] at hl ⊢
    rcases hl with hb | ho
    · exact absurd (ht.symm.trans hb.thread) (by simp)
    · exact ho

/-- `release_descriptor` is left. -/
theorem Inv.released (hi : Inv used free s) {ret : Int} {desc : Bool} (hpl : s.place = .released)
    (hp : s.parent = .release ret desc) :
    Inv used free { s with mutex := none, parent := .returned ret, place := .out } := by
  obtain ⟨hstarted, hexit⟩ := hi.quiet (by rw [hp]; rfl)
  have hcalled := hi.called.inv (by rw [hp]; rfl) (by simp [hp])
  have hplaced := hcalled.placed
  rw [hp] at hplaced
  obtain ⟨hret, hstill, hmapped⟩ := hplaced
  refine ⟨hi.nodup, hi.heap, .inl ⟨?_, hcalled.early⟩, by simp, ?_, hi.negative, trivial, hi.user, hi.exiting, ?_,
    fun he => ?_⟩
  · simp only [StartHandshake.Placed, hret, if_false]
    exact ⟨hstill.gone, hstill.started, by simp [hstill.unmaps, hmapped]⟩
  · rw [hi.failed, hp]
    simp [errorAt, hret]
  · rw [show s.exit = .user from hexit]
    rfl
  · have hl := hi.lists he
    simp only [hpl] at hl
    simp only [AtPlace, AtParent, hret, if_false]
    exact .inr hl

theorem Inv.creator (hi : Inv used free s) {s' : State δ} (hm : Moved s s') : Inv used free s' := by
  cases hm with
  | lockFree hout hp ht _ =>
    refine hi.place (l := s.toLists) (by rw [hp]; rfl) (fun _ => id) hp rfl fun hl => ?_
    simp only [hout, hp] at hl
    rcases hl with hb | ⟨d, ho, -⟩
    · exact hb
    · exact absurd (ho.symm.trans ht) (by simp)
  | fill hout hp ht => exact hi.fill hout hp ht
  | inherited hout hp _ =>
    refine ⟨hi.nodup, hi.heap, .inr (.inl ⟨rfl, by simp, by simp⟩), by simp, by rw [hi.failed, hp]; rfl, hi.negative,
      by simp only [hout]; trivial, hi.user, hi.exiting, hi.mutex, fun he => ?_⟩
    have hl := hi.lists he
    simp only [hout, hp] at hl ⊢
    exact hl
  | @lockRelease ret desc hout hp _ =>
    refine hi.place (l := s.toLists) (by rw [hp]; rfl) (fun _ => id) ⟨ret, desc, hp⟩ rfl fun hl => ?_
    simp only [hout, hp] at hl
    exact hl.2
  | goes hout hs hc hstarted hchild hinherit =>
    refine ⟨hi.nodup, hi.heap, hi.called.goes hs hc hstarted hinherit, hc.running, by rw [hi.failed, hc.error],
      hi.negative, by simp only [hout]; trivial, fun hu => ?_, fun he => hstarted.trans (hi.exiting he), hi.mutex,
      fun he => ?_⟩
    · rw [hstarted]
      rcases hchild with hchild | hchild
      · exact hi.user (hchild.symm.trans hu)
      · exact hi.user (wake_user (hchild.symm.trans hu))
    · have hl := hi.lists he
      simp only [hout] at hl ⊢
      exact hl.continued hc
  | tookNone hpl _ => exact hi.within (l := s.toLists) hpl (by simp) rfl id rfl id
  | @took d rest hpl hf =>
    refine hi.within (l := { s.toLists with free := rest, got := some d }) hpl (by simp) rfl id rfl fun hl => ?_
    have hfree : free = d :: rest := hl.free.symm.trans hf
    have hnodup := hi.nodup
    rw [hfree, List.nodup_append] at hnodup
    obtain ⟨-, hrest, hdisjoint⟩ := hnodup
    exact ⟨fun hd => hdisjoint d hd d (by simp) rfl, hl.used, (List.nodup_cons.mp hrest).1, rfl⟩
  | unlockNone hpl => exact hi.turn (l := s.toLists) hpl (by simp) rfl id rfl id
  | unlockSome hpl => exact hi.turn (l := s.toLists) hpl (by simp) rfl id rfl id
  | readTid hpl =>
    split
    · exact hi.within (l := s.toLists) hpl (by simp) rfl id rfl id
    · exact hi.within (l := s.toLists) hpl (by simp) rfl id rfl id
  | futexWait hpl =>
    split
    · exact hi.within (l := s.toLists) hpl (by simp) rfl id rfl id
    · exact hi.within (l := s.toLists) hpl (by simp) rfl id rfl id
  | lockUsed hpl _ => exact hi.turn (l := s.toLists) hpl (by simp) rfl id rfl id
  | @addUsed d hpl =>
    refine hi.within (l := { s.toLists with used := s.used ++ [d] }) hpl (by simp) rfl id rfl fun hd => ?_
    have hd : Held used s.toLists d := hd
    exact ⟨hd.unused, by simp [hd.used], hd.free, hd.got⟩
  | @addedUsed d hpl =>
    refine hi.turn (l := { s.toLists with thread := some d }) hpl (by simp) rfl (fun _ => trivial) rfl fun hd => ?_
    have hd : Listed used s.toLists d := hd
    rw [show s.parent = .pack from hi.at_place hpl]
    exact .inr ⟨d, rfl, hd.unused, hd.used, hd.free, hd.got⟩
  | findUsed hpl =>
    have hloose := (hi.at_place hpl).loose (by simp)
    have hl := hi.lists (by rw [(hi.quiet hloose).2]; rfl)
    rw [hpl] at hl
    obtain ⟨d, hs, hd⟩ := recycle_owned hl
    rw [hs]
    exact hi.within hpl (by simp) rfl id rfl fun _ => ⟨d, hd⟩
  | released hpl hp => exact hi.released hpl hp

/-- The thread is in `tbthread_exit`; its descriptor is in `used_desc` until it releases it. -/
theorem Inv.exit (hi : Inv used free s) {s' : State δ} (hs : exit s = some s') : Inv used free s' := by
  unfold CreateDescriptor.exit at hs
  split at hs
  · cases hs
  rename_i hc
  have hstarted := hi.user (by simpa using hc)
  have hloose := hi.called.started hstarted
  have hout : s.place = .out := by
    by_contra hpl
    rw [hi.inside.loose hpl] at hloose
    cases hloose
  have hmutex := hi.mutex
  rw [hout] at hmutex
  have hput {e : Exit} {m : Option Party} {b : Bool} (hm : m = holder s.place e)
      (he : e.early = true → s.exit.early = true) : Inv used free { s with detached := b, mutex := m, exit := e } :=
    ⟨hi.nodup, hi.heap, hi.called, hi.running, hi.failed, hi.negative, hi.inside, hi.user, fun _ => hstarted, hm,
      fun h => hi.lists (he h)⟩
  split at hs <;> rename_i hpc
  · obtain ⟨hm, rfl⟩ := lock_eq_some.mp hs
    exact hput (by rw [hout]; rfl) fun _ => by rw [hpc]; rfl
  · cases hs
    exact hput (by rw [hmutex, hout, hpc]; rfl) fun _ => by rw [hpc]; rfl
  · cases hs
    split
    · exact hput (by rw [hout]; rfl) fun _ => by rw [hpc]; rfl
    · exact hput (by rw [hout]; rfl) (by simp [Exit.early])
  · obtain ⟨hm, rfl⟩ := lock_eq_some.mp hs
    exact hput (by rw [hout]; rfl) fun _ => by rw [hpc]; rfl
  · cases hs
    have hl := hi.lists (by rw [hpc]; rfl)
    rw [hout] at hl
    obtain ⟨d, hs, hd⟩ := recycle_owned (hl.owned hloose)
    rw [hs]
    exact ⟨hi.nodup, hi.heap, hi.called, hi.running, hi.failed, hi.negative, hi.inside, hi.user, fun _ => hstarted,
      by rw [show s.mutex = some .thread by rw [hmutex, hpc]; rfl, hout]; rfl, by simp [Exit.early]⟩
  · cases hs
    exact hput (by rw [hout]; rfl) (by simp [Exit.early])
  · cases hs

theorem Inv.allocate (hi : Inv used free s) {d : δ} (hpl : s.place = .allocate) (hd : d ∉ s.heap) :
    Inv used free { s with heap := d :: s.heap, got := some d, place := .lockUsed d } := by
  have hloose := (hi.at_place hpl).loose (by simp)
  refine hi.place (l := { s.toLists with heap := d :: s.heap, got := some d }) hloose (fun e he => List.mem_cons_of_mem d he)
    (show Inside s.parent .allocate from hi.at_place hpl) ?_ fun hl => ?_
  · rw [hi.mutex, (hi.quiet hloose).2, hpl]
    rfl
  · rw [hpl] at hl
    have hb : Before used free s.toLists := hl
    have hused : d ∉ used := fun h => hd (hi.heap d (List.mem_append_left _ h))
    have hfree : d ∉ s.free := by
      rw [hb.free]
      exact fun h => hd (hi.heap d (List.mem_append_right _ h))
    exact ⟨hused, hb.used, hfree, rfl⟩

theorem Inv.step (hi : Inv used free s) {s' : State δ} {a : Action δ} (hok : Sound s a) (hs : step s a = some s') :
    Inv used free s' := by
  simp only [CreateDescriptor.step, hi.running, if_false] at hs
  cases a with
  | handshake b =>
    simp only [Option.ite_none_right_eq_some, Option.map_eq_some_iff] at hs
    obtain ⟨hadmits, h, hstep, rfl⟩ := hs
    exact hi.answer hok hadmits hstep
  | allocate d =>
    simp only [Option.ite_none_right_eq_some, Option.some.injEq] at hs
    obtain ⟨⟨hpl, hd⟩, rfl⟩ := hs
    exact hi.allocate hpl hd
  | creator => exact hi.creator (creator_moved hs)
  | exit => exact hi.exit hs
  | ended d =>
    simp only [Option.some.injEq] at hs
    subst hs
    have hw : Inv used free { s with word := Function.update s.word d 0 } :=
      ⟨hi.nodup, hi.heap, hi.called, hi.running, hi.failed, hi.negative, hi.inside, hi.user, hi.exiting, hi.mutex, hi.lists⟩
    split <;> rename_i hpl
    · split <;> rename_i he
      · subst he
        exact hw.within (l := s.toLists) hpl (by simp) rfl id rfl id
      · rw [← hpl]
        exact hw
    · exact hw
  | interrupt =>
    simp only at hs
    split at hs <;> cases hs
    rename_i hpl
    exact hi.within (l := s.toLists) hpl (by simp) rfl id rfl id

theorem inv_reached (h : Reaches (Initial used free) step Sound s) : Inv used free s :=
  h.invariant (I := Inv used free) (fun _ h₀ => h₀.inv) fun _ _ _ _ hi hok hs => hi.step hok hs

end ThreadBites.CreateDescriptor

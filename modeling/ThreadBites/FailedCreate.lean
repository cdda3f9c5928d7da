import ThreadBites.CreateSteps

/-!
# What a failed create leaves

The error path of `tbthread_create` unmaps the stack and releases `*thread`. It is reached from
`mprotect`, before there is a descriptor; elsewhere the call has one, and the thread that it waits for
has been told to exit.
-/
namespace ThreadBites.CreateDescriptor

open Transition
open StartHandshake (Parent Child Ran Answered answered)

variable {δ : Type}

/-- Steps of the creator and of the thread, and of nobody else. -/
def Action.moves : Action δ → Bool
  | .ended _ => false
  | .interrupt => false
  | .handshake .parentInterrupt => false
  | _ => true

/-- The creator waits for a thread that it told to exit. -/
def ending : Parent → Bool
  | .readTid _ => true
  | .futexWait _ _ => true
  | .asleep _ _ => true
  | _ => false

/-- A thread that was told to exit does not sleep, and its creator does not when it has exited. -/
structure Awake (h : StartHandshake.State) : Prop where
  told : ending h.parent = true → h.child ≠ .asleep
  there : ∀ tid ret, h.parent = .asleep tid ret → h.child ≠ .dead

theorem Awake.of_not_ending {h : StartHandshake.State} (hp : ending h.parent = false) : Awake h :=
  ⟨fun he => absurd (he.symm.trans hp) (by simp), fun tid ret ha => by rw [ha] at hp; cases hp⟩

theorem wake_awake (c : Child) : StartHandshake.wake c ≠ .asleep := by
  cases c <;> simp [StartHandshake.wake]

theorem wake_dead {c : Child} (h : StartHandshake.wake c = .dead) : c = .dead := by
  cases c <;> simp_all [StartHandshake.wake]

/-- A thread that finds `TB_START_EXIT` does not go to sleep, and its end wakes the creator. -/
theorem ran_awake {h h' : StartHandshake.State} (hr : Ran h h') (hexit : h.startStatus = .exit) :
    h'.child ≠ .asleep ∧ (h'.child = .dead → h'.parent = StartHandshake.resume h.parent) := by
  cases hr with
  | sleep hc hw =>
    rw [hexit] at hw
    cases hw
  | ended hc => simp
  | _ => simp

theorem ending_loose {p : Parent} (h : ending p = true) : loose p = false ∧ p ≠ .clone := by
  cases p with
  | readTid ret => exact ⟨rfl, by simp⟩
  | futexWait tid ret => exact ⟨rfl, by simp⟩
  | asleep tid ret => exact ⟨rfl, by simp⟩
  | _ => cases h

/-- What a creator that waits for its thread has told it. -/
theorem Called.refused {inherit : Bool} {h : StartHandshake.State} (hc : Called inherit h) (he : ending h.parent = true) :
    StartHandshake.Refused h ∧ ∀ tid ret, h.parent = .futexWait tid ret → tid = h.id := by
  obtain ⟨hloose, hclone⟩ := ending_loose he
  have hp := (hc.inv hloose hclone).placed
  cases hpc : h.parent with
  | readTid ret =>
    rw [hpc] at hp
    exact ⟨hp.2, by simp⟩
  | futexWait tid ret =>
    rw [hpc] at hp
    refine ⟨hp.2.1, fun tid' ret' heq => ?_⟩
    cases heq
    exact hp.2.2
  | asleep tid ret =>
    rw [hpc] at hp
    exact ⟨hp.2.1, by simp⟩
  | _ => rw [hpc] at he; cases he

variable [DecidableEq δ] {used free : List δ} {s : State δ}

omit [DecidableEq δ] in
theorem Awake.answer {h h' : StartHandshake.State} {inherit : Bool} (ha : Awake h) (hc : Called inherit h)
    {a : StartHandshake.Action} (hans : Answered h a h') : Awake h' := by
  cases hans with
  | ran hr =>
    by_cases he : ending h'.parent = true
    swap
    · exact .of_not_ending (by simpa using he)
    have hend : ending h.parent = true ∧ h'.parent = h.parent := by
      rcases hr.parent with hp | hp
      · exact ⟨hp ▸ he, hp⟩
      · rw [hp] at he ⊢
        cases hpc : h.parent <;> rw [hpc] at he <;> first | exact ⟨rfl, rfl⟩ | cases he
    obtain ⟨hsleep, hdead⟩ := ran_awake hr (hc.refused hend.1).1.status
    refine ⟨fun _ => hsleep, fun tid ret hp hd => ?_⟩
    have hres := hdead hd
    rw [hp, ← hend.2, hp] at hres
    cases hres
  | interrupted hp => exact ⟨fun _ => ha.told (by rw [hp]; rfl), by simp⟩
  | childInterrupted _ => exact ⟨by simp, by simp⟩
  | finished _ => exact ⟨by simp, by simp⟩
  | _ => exact .of_not_ending rfl

omit [DecidableEq δ] in
theorem Awake.goes {h h' : StartHandshake.State} {inherit : Bool} (ha : Awake h) (hc : Called inherit h)
    (hs : StartHandshake.nextParent h = some h') (hcont : Continued h.parent h'.parent)
    (hchild : h'.child = h.child ∨ h'.child = StartHandshake.wake h.child) : Awake h' := by
  by_cases he : ending h'.parent = true
  swap
  · exact .of_not_ending (by simpa using he)
  have keeps (hsleep : h.child ≠ .asleep) : h'.child ≠ .asleep := by
    rcases hchild with hchild | hchild <;> rw [hchild]
    · exact hsleep
    · exact wake_awake h.child
  generalize hp : h.parent = p at hcont
  generalize hp' : h'.parent = p' at hcont he
  cases hcont with
  | refused hret =>
    have hwoken : h'.child = StartHandshake.wake h.child := by
      simp only [StartHandshake.nextParent, hp, Option.some.injEq] at hs
      subst hs
      rfl
    exact ⟨fun _ => hwoken ▸ wake_awake h.child, by simp [hp']⟩
  | readTid tid ret => exact ⟨fun _ => keeps (ha.told (by rw [hp]; rfl)), by simp [hp']⟩
  | futexWait tid ret =>
    refine ⟨fun _ => keeps (ha.told (by rw [hp]; rfl)), fun _ _ _ hdead => ?_⟩
    -- the word is the thread's id still, so the thread has not ended
    obtain ⟨hr, htid⟩ := hc.refused (by rw [hp]; rfl)
    have hd : h.child = .dead := by
      rcases hchild with hchild | hchild
      · exact hchild.symm.trans hdead
      · exact wake_dead (hchild.symm.trans hdead)
    have hcleared : h.tid = 0 := by simpa [hd] using hr.word
    simp only [StartHandshake.nextParent, hp, Option.some.injEq] at hs
    subst hs
    have hword : h.tid = tid := by
      by_contra hne
      simp [hne] at hp'
    exact hr.id ((htid tid ret hp).symm.trans (hword.symm.trans hcleared))
  | _ => cases he

omit [DecidableEq δ] in
theorem Inside.not_ending {p : Parent} {q : Place δ} (h : Inside p q) (hq : q ≠ .out) : ending p = false := by
  cases q with
  | out => exact absurd rfl hq
  | findUsed => obtain ⟨ret, desc, rfl⟩ := h; rfl
  | released => obtain ⟨ret, desc, rfl⟩ := h; rfl
  | _ => rw [show p = .pack from h]; rfl

theorem Awake.creator (ha : Awake s.toState) (hi : Inv used free s) {s' : State δ} (hm : Moved s s') :
    Awake s'.toState := by
  cases hm with
  | fill hout hp ht => exact .of_not_ending rfl
  | inherited hout hp hinherit => exact .of_not_ending rfl
  | released hpl hp => exact .of_not_ending rfl
  | goes hout hs hc hstarted hchild hinherit => exact ha.goes hi.called hs hc hchild
  | findUsed hpl =>
    refine .of_not_ending ?_
    simp only [State.recycle]
    split
    · exact (hi.at_place hpl).not_ending (by simp)
    · rfl
  | _ => exact ha

theorem exit_call {s' : State δ} (hs : exit s = some s') : s'.toState = s.toState ∨ s'.parent = .crashed := by
  unfold CreateDescriptor.exit at hs
  split at hs
  · cases hs
  split at hs
  · obtain ⟨-, rfl⟩ := lock_eq_some.mp hs
    exact .inl rfl
  · cases hs; exact .inl rfl
  · cases hs; exact .inl rfl
  · obtain ⟨-, rfl⟩ := lock_eq_some.mp hs
    exact .inl rfl
  · cases hs
    simp only [State.recycle]
    split
    · exact .inl rfl
    · exact .inr rfl
  · cases hs; exact .inl rfl
  · cases hs

theorem Awake.step (ha : Awake s.toState) (hi : Inv used free s) {s' : State δ} {a : Action δ}
    (hs : step s a = some s') : Awake s'.toState := by
  simp only [CreateDescriptor.step, hi.running, if_false] at hs
  cases a with
  | handshake b =>
    simp only [Option.ite_none_right_eq_some, Option.map_eq_some_iff] at hs
    obtain ⟨hadmits, h, hstep, rfl⟩ := hs
    refine ha.answer hi.called (answered ?_ hstep)
    rintro rfl
    cases hadmits
  | allocate d =>
    simp only [Option.ite_none_right_eq_some, Option.some.injEq] at hs
    obtain ⟨-, rfl⟩ := hs
    exact ha
  | creator => exact ha.creator hi (creator_moved hs)
  | exit =>
    rcases exit_call hs with hcall | hcrash
    · rw [hcall]
      exact ha
    · exact .of_not_ending (by rw [hcrash]; rfl)
  | ended d =>
    simp only [Option.some.injEq] at hs
    subst hs
    exact ha
  | interrupt =>
    simp only at hs
    split at hs <;> cases hs
    exact ha

def parentLeft : Parent → Nat
  | .storeStart _ => 9
  | .wakeStart _ => 8
  | .readTid _ => 7
  | .futexWait _ _ => 6
  | .asleep _ _ => 5
  | .munmap _ _ => 4
  | .release _ _ => 3
  | _ => 0

def placeLeft : Place δ → Nat
  | .out => 2
  | .findUsed => 1
  | _ => 0

def childLeft : Child → Nat
  | .born => 8
  | .checkStart => 7
  | .futexWait => 6
  | .asleep => 5
  | .recheck => 4
  | .user => 3
  | .munmap => 2
  | .leaving => 1
  | _ => 0

/-- How many steps a call that has failed is from its return, at most. -/
def left (s : State δ) : Nat := parentLeft s.parent + placeLeft s.place + childLeft s.child

theorem ran_left {h h' : StartHandshake.State} (hr : Ran h h') : childLeft h'.child < childLeft h.child := by
  cases hr <;> simp_all [childLeft]

theorem wake_left (c : Child) : childLeft (StartHandshake.wake c) ≤ childLeft c := by
  cases c <;> simp [StartHandshake.wake, childLeft]

theorem resume_left (p : Parent) : parentLeft (StartHandshake.resume p) ≤ parentLeft p := by
  cases p <;> simp [StartHandshake.resume, parentLeft]

omit [DecidableEq δ] in
/-- After the failure the thread and the kernel only bring the call to its end. -/
theorem answered_left {h h' : StartHandshake.State} {a : StartHandshake.Action} {e : Int} (hans : Answered h a h')
    (he : errorAt h.parent = some e) (hmoves : (Action.handshake a : Action δ).moves = true) :
    parentLeft h'.parent + childLeft h'.child < parentLeft h.parent + childLeft h.child ∧ failure a = none := by
  have before {p : Parent} (hp : h.parent = p) (hnone : errorAt p = none) : False := by
    rw [hp, hnone] at he
    cases he
  cases hans with
  | ran hr =>
    have hchild := ran_left hr
    have hres := resume_left h.parent
    refine ⟨?_, rfl⟩
    rcases hr.parent with hp | hp <;> rw [hp] <;> omega
  | childInterrupted hc => simp [hc, childLeft, failure]
  | finished hc => simp [hc, childLeft, failure]
  | interrupted hp => cases hmoves
  | unmapped hp _ => exact (before hp rfl).elim
  | mapped hp _ => exact (before hp rfl).elim
  | unguarded hp _ => exact (before hp rfl).elim
  | guarded hp _ => exact (before hp rfl).elim
  | uncloned hp _ => exact (before hp rfl).elim
  | cloned hp _ _ => exact (before hp rfl).elim
  | scheduled hp => exact (before hp rfl).elim

theorem Continued.left {p p' : Parent} {e : Int} (h : Continued p p') (he : errorAt p = some e) :
    parentLeft p' < parentLeft p := by
  cases h with
  | storeTid => cases he
  | granted => cases he
  | _ => simp [parentLeft]

theorem Moved.left {s' : State δ} (hm : Moved s s') (hi : Inv used free s) {e : Int} (he : errorAt s.parent = some e) :
    left s' < left s ∧ s'.failed = s.failed := by
  have packing {p : Place δ} (hpl : s.place = p) (hin : Inside s.parent p → s.parent = .pack) : False := by
    rw [hin (hi.at_place hpl)] at he
    cases he
  cases hm with
  | lockFree hout hp _ _ => rw [hp] at he; cases he
  | fill hout hp _ => rw [hp] at he; cases he
  | inherited hout hp _ => rw [hp] at he; cases he
  | lockRelease hout hp _ => simp [CreateDescriptor.left, hout, placeLeft]
  | goes hout hs hc _ hchild _ =>
    have hparent := hc.left he
    refine ⟨?_, rfl⟩
    simp only [CreateDescriptor.left]
    rcases hchild with hchild | hchild <;> rw [hchild]
    · omega
    · have := wake_left s.child
      omega
  | findUsed hpl =>
    refine ⟨?_, ?_⟩
    · simp only [CreateDescriptor.left, State.recycle, hpl]
      split <;> simp [placeLeft, parentLeft]
    · simp only [State.recycle]
      split <;> rfl
  | released hpl hp => simp [CreateDescriptor.left, hpl, hp, placeLeft, parentLeft]
  | tookNone hpl _ => exact (packing hpl id).elim
  | took hpl _ => exact (packing hpl id).elim
  | unlockNone hpl => exact (packing hpl id).elim
  | unlockSome hpl => exact (packing hpl id).elim
  | readTid hpl => exact (packing hpl id).elim
  | futexWait hpl => exact (packing hpl id).elim
  | lockUsed hpl _ => exact (packing hpl id).elim
  | addUsed hpl => exact (packing hpl id).elim
  | addedUsed hpl => exact (packing hpl id).elim

theorem errorAt_loose {p : Parent} {e : Int} (he : errorAt p = some e) : loose p = false := by
  cases p <;> grind [errorAt, loose]

/-- A call that has failed comes closer to its return by every step of the two. -/
theorem Inv.left (hi : Inv used free s) {s' : State δ} {a : Action δ} {e : Int} (he : errorAt s.parent = some e)
    (hmoves : a.moves = true) (hs : CreateDescriptor.step s a = some s') :
    CreateDescriptor.left s' < CreateDescriptor.left s ∧ s'.failed = s.failed := by
  simp only [CreateDescriptor.step, hi.running, if_false] at hs
  cases a with
  | handshake b =>
    simp only [Option.ite_none_right_eq_some, Option.map_eq_some_iff] at hs
    obtain ⟨hadmits, h, hstep, rfl⟩ := hs
    have hne : b ≠ .parent := by
      rintro rfl
      cases hadmits
    obtain ⟨hlt, hfail⟩ := answered_left (answered hne hstep) he hmoves
    refine ⟨?_, by simp [hfail]⟩
    simp only [CreateDescriptor.left]
    omega
  | allocate d =>
    simp only [Option.ite_none_right_eq_some, Option.some.injEq] at hs
    obtain ⟨⟨hpl, -⟩, rfl⟩ := hs
    rw [show s.parent = .pack from hi.at_place hpl] at he
    cases he
  | creator => exact (creator_moved hs).left hi he
  | exit =>
    -- the thread of a call that has failed is not in the user's function
    have hex : CreateDescriptor.exit s = some s' := hs
    unfold CreateDescriptor.exit at hex
    split at hex
    · cases hex
    rename_i hc
    have hloose := hi.called.started (hi.user (by simpa using hc))
    rw [errorAt_loose he] at hloose
    cases hloose
  | ended d => cases hmoves
  | interrupt => cases hmoves

/-- The thread that the creator waits for has a step to make. -/
theorem refused_moves {h : StartHandshake.State} (hr : StartHandshake.Refused h) (hsleep : h.child ≠ .asleep)
    (hdead : h.child ≠ .dead) : ∃ h', StartHandshake.nextChild h = some h' := by
  have hleaves := hr.child
  cases hc : h.child with
  | born => exact ⟨_, by simp [StartHandshake.nextChild, hc]; rfl⟩
  | checkStart => exact ⟨_, by simp [StartHandshake.nextChild, hc, hr.status]; rfl⟩
  | futexWait => exact ⟨_, by simp [StartHandshake.nextChild, hc]; rfl⟩
  | recheck => exact ⟨_, by simp [StartHandshake.nextChild, hc, hr.status]; rfl⟩
  | leaving => exact ⟨_, by simp [StartHandshake.nextChild, hc]; rfl⟩
  | asleep => exact absurd hc hsleep
  | dead => exact absurd hc hdead
  | _ => rw [hc] at hleaves; cases hleaves

/-- A call that has failed has a step to make until it returns. -/
theorem Inv.moves (hi : Inv used free s) (ha : Awake s.toState) {e : Int} (he : errorAt s.parent = some e)
    (hne : s.parent ≠ .returned e) : ∃ a t, (Sound s a ∧ a.moves = true) ∧ CreateDescriptor.step s a = some t := by
  have hcreator (hc : (CreateDescriptor.creator s).isSome = true) :
      ∃ a t, (Sound s a ∧ a.moves = true) ∧ CreateDescriptor.step s a = some t := by
    obtain ⟨t, ht⟩ := Option.isSome_iff_exists.mp hc
    exact ⟨.creator, t, ⟨trivial, rfl⟩, by simp [CreateDescriptor.step, hi.running, ht]⟩
  have hin := hi.inside
  cases hpl : s.place with
  | findUsed => exact hcreator (by simp [CreateDescriptor.creator, hpl])
  | released =>
    rw [hpl] at hin
    obtain ⟨ret, desc, hp⟩ := hin
    exact hcreator (by simp [CreateDescriptor.creator, hpl, hp])
  | out =>
    cases hp : s.parent with
    | asleep tid ret =>
      have hend : ending s.parent = true := by rw [hp]; rfl
      have hr := (hi.called.refused hend).1
      obtain ⟨h', hs⟩ := refused_moves hr (ha.told hend) (ha.there tid ret hp)
      refine ⟨.handshake .child, { s with toState := h', failed := s.failed }, ⟨?_, rfl⟩, ?_⟩
      · intro _ hwait
        rw [hr.status] at hwait
        cases hwait
      · simp [CreateDescriptor.step, hi.running, State.admits, StartHandshake.step, hs, failure]
    | release ret desc =>
      have hm : s.mutex = none := by
        rw [hi.mutex, hpl, (hi.quiet (by rw [hp]; rfl)).2]
        rfl
      exact hcreator (by simp [CreateDescriptor.creator, hpl, outside, hp, State.lock, hm])
    | returned ret =>
      rw [hp] at he hne
      by_cases hret : ret = 0 <;> simp_all [errorAt]
    | storeStart ret => exact hcreator (by simp [CreateDescriptor.creator, hpl, outside, hp, StartHandshake.nextParent])
    | wakeStart ret => exact hcreator (by simp [CreateDescriptor.creator, hpl, outside, hp, StartHandshake.nextParent])
    | readTid ret => exact hcreator (by simp [CreateDescriptor.creator, hpl, outside, hp, StartHandshake.nextParent])
    | futexWait tid ret => exact hcreator (by simp [CreateDescriptor.creator, hpl, outside, hp, StartHandshake.nextParent])
    | munmap ret desc => exact hcreator (by simp [CreateDescriptor.creator, hpl, outside, hp, StartHandshake.nextParent])
    | _ => rw [hp] at he; cases he
  | _ =>
    rw [hpl] at hin
    rw [show s.parent = .pack from hin] at he
    cases he

/-- The call comes to its return, unless signals and the ends of other threads hold it up for ever. -/
def Returns (e : Int) : State δ → Prop :=
  Inevitable step (fun s a => Sound s a ∧ a.moves = true) fun s => s.parent = .returned e

theorem Inv.returns (hi : Inv used free s) (ha : Awake s.toState) {e : Int} (hf : s.failed = some e) : Returns e s := by
  refine Inevitable.of_measure (I := fun t => Inv used free t ∧ Awake t.toState ∧ t.failed = some e)
    CreateDescriptor.left ?_ ?_ ⟨hi, ha, hf⟩
  · rintro t ⟨hi, ha, hf⟩ hne
    exact hi.moves ha (hi.failed.symm.trans hf) hne
  · rintro t a t' ⟨hi, ha, hf⟩ - ⟨hok, hmoves⟩ hs
    obtain ⟨hlt, hfailed⟩ := hi.left (hi.failed.symm.trans hf) hmoves hs
    exact ⟨⟨hi.step hok hs, ha.step hi hs, hfailed.trans hf⟩, hlt⟩

/-- What `tbthread_create` leaves when it returns an error. -/
structure Undone (used : List δ) (s : State δ) : Prop where
  used : s.used = used
  free : ∀ d, s.got = some d → s.free.count d = 1
  unmaps : s.unmaps = s.mapped.toNat
  mutex : s.mutex = none
  gone : s.child.gone = true

theorem Inv.undone (hi : Inv used free s) {e : Int} (hp : s.parent = .returned e) (he : e ≠ 0) : Undone used s := by
  have hloose : loose s.parent = false := by simp [hp, loose, he]
  have hexit := (hi.quiet hloose).2
  have hout : s.place = .out := by
    have hin := hi.inside
    cases hpl : s.place with
    | out => rfl
    | findUsed => rw [hpl, hp] at hin; obtain ⟨ret, desc, hin⟩ := hin; cases hin
    | released => rw [hpl, hp] at hin; obtain ⟨ret, desc, hin⟩ := hin; cases hin
    | _ => rw [hpl, hp] at hin; cases hin
  have hcalled := hi.called.inv hloose (by simp [hp])
  have hl := hi.lists (by rw [hexit]; rfl)
  obtain ⟨-, hunmaps, hgone⟩ := hcalled.agreed.failed e hp he
  simp only [hout, AtPlace, hp, AtParent, he, if_false] at hl
  refine ⟨?_, fun d hd => ?_, hunmaps, by rw [hi.mutex, hout, hexit]; rfl, hgone⟩
  · rcases hl with hb | ⟨d, hd⟩
    · exact hb.used
    · exact hd.used
  · rcases hl with hb | ⟨d', hd'⟩
    · exact absurd (hd.symm.trans hb.got) (by simp)
    · obtain rfl : d' = d := Option.some.inj (hd'.got.symm.trans hd)
      exact hd'.free

/-- Where `mprotect` succeeds and no schedule is refused to a thread that has started, a step that fails
makes the call return its error, and nothing is left of the call then. -/
theorem create_undone (h : Reaches (Initial used free) step Sound s) :
    s.parent ≠ .crashed ∧ (∀ e, s.failed = some e → e < 0 ∧ Returns e s) ∧
      ∀ e, s.parent = .returned e → e ≠ 0 → s.failed = some e ∧ Undone used s := by
  have hi := inv_reached h
  have ha : Awake s.toState := by
    have both : Inv used free s ∧ Awake s.toState :=
      h.invariant (I := fun s => Inv used free s ∧ Awake s.toState)
        (fun _ h₀ => ⟨h₀.inv, .of_not_ending (by rw [h₀.call.parent]; rfl)⟩)
        fun _ _ _ _ h hok hs => ⟨h.1.step hok hs, h.2.step h.1 hs⟩
    exact both.2
  refine ⟨hi.running, fun e he => ⟨hi.negative e he, hi.returns ha he⟩, fun e hp he => ⟨?_, hi.undone hp he⟩⟩
  rw [hi.failed, hp]
  simp [errorAt, he]

/-- Before a call; `used_desc` is empty. -/
def fresh (free : List Nat) (detached : Bool) : State Nat :=
  { toState := StartHandshake.fresh, used := [], free := free, thread := none, heap := free, got := none,
    inherit := false, detached := detached, word := fun _ => 0, mutex := none, place := .out, exit := .user, failed := none }

theorem fresh_initial {free : List Nat} (detached : Bool) (h : free.Nodup) : Initial [] free (fresh free detached) :=
  ⟨h, fun _ => id, StartHandshake.fresh_initial, rfl, rfl, rfl, rfl, rfl, rfl, rfl, rfl⟩

/-- The call takes descriptor 0, and its thread sleeps. -/
def spawn : List (Action Nat) :=
  [.handshake (.mmap 1), .handshake (.mprotect 0)] ++ List.replicate 8 .creator ++
    [.handshake (.clone 7), .handshake .child, .handshake .child, .handshake .child, .creator]

/-- The schedule is refused. -/
def refuse : List (Action Nat) :=
  [.handshake (.setSched (-1)), .creator, .creator, .creator, .creator, .handshake .child, .handshake .child] ++
    List.replicate 4 .creator

theorem create_undone_refused : ∃ s, Reaches (Initial [] [0]) step Sound s ∧ s.parent = .returned (-1) ∧
    s.free = [0] ∧ s.failed = some (-1) ∧ Undone [] s := by
  obtain ⟨s, hr, hp, hf⟩ : ∃ s, Reaches (Initial [] [0]) step Sound s ∧ s.parent = .returned (-1) ∧ s.free = [0] := by
    have hr := Reaches.run_get (fresh_initial false (by decide))
      (show (run step Sound (spawn ++ refuse) (fresh [0] false)).isSome from by decide)
    exact ⟨_, hr, by decide, by decide⟩
  obtain ⟨-, -, hundone⟩ := create_undone hr
  exact ⟨s, hr, hp, hf, hundone (-1) hp (by decide)⟩

/-- `mprotect` fails before there is a descriptor: `release_descriptor` finds no node, and `list_rm`
dereferences a null pointer under `desc_mutex`. Or a signal lets a detached thread run before its schedule
is refused: it releases the descriptor, and the create that fails does not find it any more. -/
theorem create_undone_unprotected :
    (∃ s, Reaches (Initial ([] : List Nat) []) step anyStep s ∧
      s.failed = some (-12) ∧ s.parent = .crashed ∧ s.mutex = some .creator ∧ ∀ a, step s a = none) ∧
    ∃ s, Reaches (Initial ([] : List Nat) [0]) step anyStep s ∧
      s.failed = some (-1) ∧ s.unmaps = 2 ∧ s.parent = .crashed := by
  have hunprotected := Reaches.run_get (fresh_initial false (by decide)) (show (run step anyStep
    [.handshake (.mmap 1), .handshake (.mprotect (-12)), .creator, .creator, .creator] (fresh [] false)).isSome from by decide)
  have hsignalled := Reaches.run_get (fresh_initial true (by decide)) (show (run step anyStep (spawn ++
    [.handshake .childInterrupt, .handshake .child] ++ List.replicate 6 .exit ++ [.handshake .finish, .handshake .child,
    .handshake (.setSched (-1)), .creator, .creator, .creator, .creator, .handshake .child, .creator, .creator, .creator])
    (fresh [0] true)).isSome from by decide)
  exact ⟨⟨_, hunprotected, by decide, by decide, by decide, fun a => rfl⟩, _, hsignalled, by decide, by decide, by decide⟩

end ThreadBites.CreateDescriptor

import ThreadBites.MutexSafety
import ThreadBites.AtomicSections

/-!
# Sections under a mutex

`tbthread_mutex_lock` and `tbthread_mutex_unlock`, access by access, as a lock that
the sections of a program can be under. Where every lock is followed by one unlock
of the same thread, both return 0 whatever the type and the protocol are, and a
recursive mutex counts one.
-/
namespace ThreadBites.Mutex

open Transition WaitQueue CriticalSections

variable {τ : Type}

/-- What a place is about where every lock is followed by one unlock. -/
def PairedAt (l : Local) : Pc → Prop
  | .idle | .lockOwner | .futexCas | .futexWait | .asleep => l.holds = false
  | .inheritLock | .inheritWait | .inheritAsleep => l.holds = false
  | .returned .lock ret => ret = 0 ∧ l.holds = true ∧ (l.kind = .recursive → l.counter = 1)
  | .returned .unlock ret => ret = 0 ∧ l.holds = false
  | .returned .trylock _ | .trylockOwner | .recheckOwner | .trylockCas | .inheritTrylock => False
  | .setOwner f | .protectSched f => f = .lock
  | .checkCounter f | .readCounter f | .writeCounter f _ => f = .lock ∧ l.counter = 0
  | .unlockOwner => l.holds = true ∧ (l.kind = .recursive → l.counter = 1)
  | .readDown | .writeDown _ => l.counter = 1
  | .checkDown => l.counter = 0
  | _ => True

/-- The counts of calls do not matter here. -/
theorem pairedAt_count {l : Local} {c d : Pc} (h : PairedAt l c) : PairedAt (l.count d) c := by
  cases c with
  | returned f ret => cases f <;> exact h
  | _ => exact h

theorem pairedAt_protoEntry_lock {l : Local} (p : Protocol) (h : l.holds = false) : PairedAt l (protoEntry p .lock) := by
  cases p <;> exact h

theorem pairedAt_protoEntry_unlock (l : Local) (p : Protocol) : PairedAt l (protoEntry p .unlock) := by
  cases p <;> trivial

/-- A thread that the layer of the protocols made the owner. -/
theorem pairedAt_afterProto_locked {l : Local} (h : l.holds = true) : PairedAt l (afterProto l.kind .lock 0) := by
  cases hk : l.kind with
  | recursive => trivial
  | _ => exact ⟨rfl, h, by simp [hk]⟩

theorem pairedAt_afterProto_unlocked {l : Local} (h : l.holds = false) : PairedAt l (afterProto l.kind .unlock 0) := by
  cases hk : l.kind <;> exact ⟨rfl, h⟩

theorem PairedAt.resume {l : Local} {c : Pc} (h : PairedAt l c) (hs : asleep c = true) : PairedAt l (resume c) := by
  cases c <;> simp only [Mutex.asleep, Bool.false_eq_true] at hs <;> exact h

theorem PairedAt.woken {f g : τ → Pc} (h : Woken asleep Mutex.resume f g) {u : τ} {l : Local}
    (hp : PairedAt l (f u)) : PairedAt l (g u) := by
  rcases h u with he | ⟨hs, he⟩
  · rwa [he]
  · rw [he]; exact hp.resume hs

/-- A call that is made where it should be. -/
theorem pairedAt_entry {l : Local} {f : Op} (p : Protocol) (hf : f ≠ .trylock) (hlock : f = .lock → l.holds = false)
    (hunlock : f = .unlock → l.holds = true ∧ (l.kind = .recursive → l.counter = 1)) :
    PairedAt l (entry l.kind p f) := by
  cases f with
  | trylock => exact absurd rfl hf
  | lock =>
    cases l.kind with
    | normal => exact pairedAt_protoEntry_lock p (hlock rfl)
    | _ => exact hlock rfl
  | unlock =>
    cases hk : l.kind with
    | normal => exact pairedAt_protoEntry_unlock l p
    | _ => exact hunlock rfl

theorem op_protoEntry (p : Protocol) (f : Op) : (protoEntry p f).op = some f := by
  cases p <;> cases f <;> rfl

theorem op_entry (k : Kind) (p : Protocol) (f : Op) : (entry k p f).op = some f := by
  cases k <;> cases f <;> first | rfl | exact op_protoEntry p _

theorem op_afterProto (k : Kind) (f : Op) (ret : Int) : (afterProto k f ret).op = some f := by
  cases k <;> cases f <;> simp only [afterProto] <;> try split
  all_goals rfl

theorem op_of_inCall {c : Pc} (h : inCall c = true) : c.op ≠ none := by
  cases c <;> simp [Pc.op, inCall] at h ⊢

theorem inCall_protoEntry (p : Protocol) (f : Op) : inCall (protoEntry p f) = true := by
  cases p <;> cases f <;> rfl

theorem inCall_entry (k : Kind) (p : Protocol) (f : Op) : inCall (entry k p f) = true := by
  cases k <;> cases f <;> first | rfl | exact inCall_protoEntry p _

variable [DecidableEq τ]

/-- An access is one of the call that the thread is in. -/
theorem access_op {m m' : Fields τ} {t : τ} {c c' : Pc} (ha : access m t c = some (m', c')) : c'.op = c.op := by
  cases c with
  | idle | returned | asleep | inheritAsleep => cases ha
  | protectSched | protectUnsched | inheritUnlock =>
    obtain ⟨o, -, he⟩ := Option.map_eq_some_iff.mp ha
    cases he
    first | rfl | exact op_afterProto ..
  | futexCas | trylockCas | unlockCas =>
    simp only [access] at ha
    split at ha <;> cases ha <;> first | rfl | exact op_afterProto ..
  | inheritLock | inheritTrylock =>
    simp only [access] at ha
    split at ha
    · cases ha
      exact op_afterProto ..
    · first
      | cases ha; exact op_afterProto ..
      | obtain ⟨o, -, he⟩ := Option.map_eq_some_iff.mp ha; cases he; rfl
  | lockOwner | unlockOwner =>
    cases ha
    split
    · split <;> rfl
    · first | rfl | exact op_protoEntry ..
  | trylockOwner | unlockFutex | setOwner =>
    cases ha
    split <;> first | rfl | exact op_protoEntry .. | exact op_afterProto ..
  | checkCounter | recheckOwner | checkDown | futexWait | inheritWait =>
    cases ha
    split <;> rfl
  | dropOwner => cases ha; exact op_protoEntry ..
  | futexWake => cases ha; exact op_afterProto ..
  | _ => cases ha; rfl

/-- An access of a thread that pairs its calls leaves it at such a place. -/
theorem access_paired {m m' : Fields τ} {t : τ} {h : History} {c c' : Pc} (h1 : h.holds = true → m.futex = 1)
    (hp : Placed (view m t h) c) (hpair : PairedAt (view m t h) c) (ha : access m t c = some (m', c')) :
    PairedAt (view m' t (h.record m m' c')) c' := by
  cases c with
  | idle | returned | asleep | inheritAsleep => cases ha
  | trylockOwner | recheckOwner | trylockCas | inheritTrylock => exact hpair.elim
  | retakeOwner | resetCounter => exact hp.elim
  | lockOwner =>
    cases ha
    have ho : ¬m.owner = some t := by simpa [view] using hp.2.1.symm.trans hpair
    rw [view_look, if_neg ho]
    exact pairedAt_count (pairedAt_protoEntry_lock _ hpair)
  | unlockOwner =>
    cases ha
    have ho : m.owner = some t := by simpa [view] using hp.2.1.symm.trans hpair.1
    rw [view_look, if_pos ho]
    split
    · trivial
    · rename_i he
      exact pairedAt_count (hpair.2 (Kind.recursive_of_ne hp.1 he))
  | unlockFutex =>
    cases ha
    have hw := h1 hp.2.1
    rw [if_neg (by omega)]
    exact pairedAt_protoEntry_unlock _ _
  | takeOwner =>
    cases ha
    rw [view_setOwner]
    exact ⟨rfl, hp.2.2⟩
  | checkCounter f =>
    cases ha
    have hz : m.counter = 0 := (view_counter hp.2.2.1).symm.trans hpair.2
    rw [view_look, if_neg (by rw [hz]; decide)]
    exact pairedAt_count hpair
  | readCounter f =>
    cases ha
    rw [view_look]
    exact pairedAt_count hpair
  | writeCounter f v =>
    cases ha
    obtain ⟨-, -, hm, -, hv⟩ := hp
    obtain ⟨rfl, hz⟩ := hpair
    rw [view_setCounter _ _ hm.1]
    exact ⟨rfl, hm.1, fun _ => by rw [hv, hz]; rfl⟩
  | readDown =>
    cases ha
    rw [view_look]
    exact pairedAt_count hpair
  | writeDown v =>
    cases ha
    obtain ⟨-, hm, -, hv⟩ := hp
    rw [view_setCounter _ _ hm.1]
    exact show v - 1 = 0 by rw [hv, hpair]; rfl
  | checkDown =>
    cases ha
    have hz : m.counter = 0 := (view_counter hp.2.1).symm.trans hpair
    rw [if_pos hz]
    trivial
  | dropOwner =>
    cases ha
    exact pairedAt_protoEntry_unlock _ _
  | futexCas =>
    by_cases hw : m.futex = 0
    · simp only [access, compareAndSwap_eq 1 hw] at ha
      cases ha
      rfl
    · simp only [access, compareAndSwap_ne 1 hw] at ha
      cases ha
      rw [view_look]
      exact pairedAt_count hpair
  | futexWait | inheritWait =>
    cases ha
    rw [view_look]
    split <;> exact pairedAt_count hpair
  | setOwner f =>
    cases ha
    obtain rfl : f = .lock := hpair
    split
    · rfl
    · rw [view_setOwner]
      exact pairedAt_count (pairedAt_afterProto_locked hp.2.1)
  | protectSched f =>
    obtain ⟨o, -, he⟩ := Option.map_eq_some_iff.mp ha
    cases he
    obtain rfl : f = .lock := hpair
    rw [view_look]
    exact pairedAt_count (pairedAt_afterProto_locked hp.2.1.1)
  | protectUnsched =>
    obtain ⟨o, -, he⟩ := Option.map_eq_some_iff.mp ha
    cases he
    trivial
  | clearOwner => cases ha; trivial
  | unlockCas =>
    simp only [access, compareAndSwap_eq 0 (h1 hp.1)] at ha
    cases ha
    trivial
  | futexWake =>
    cases ha
    rw [view_look]
    exact pairedAt_count (pairedAt_afterProto_unlocked hp.1)
  | inheritLock =>
    simp only [access] at ha
    split at ha
    · rename_i hw
      cases ha
      rw [view_swap t h _ (some t) (by omega)]
      exact pairedAt_count (pairedAt_afterProto_locked (l := Local.mk m.kind _ _ _ _ _) (by simp))
    · obtain ⟨o, -, he⟩ := Option.map_eq_some_iff.mp ha
      cases he
      rw [view_look]
      exact pairedAt_count hpair
  | inheritUnlock =>
    obtain ⟨o, -, he⟩ := Option.map_eq_some_iff.mp ha
    cases he
    have hw := h1 hp.2.1
    rw [view_swap t h _ none (by omega)]
    exact pairedAt_count (pairedAt_afterProto_unlocked (l := Local.mk m.kind _ _ _ _ _) (by simp))

/-- Every thread is at a place that paired calls lead to. -/
structure Paired (s : State τ) : Prop where
  inv : Inv s
  at_place : ∀ t, PairedAt (view s.mutex t (s.hist t)) (s.pc t)

theorem paired_start {k : Kind} {p : Protocol} (hs : Supported k p) : Paired (State.start k p : State τ) :=
  ⟨inv_start hs, fun _ => rfl⟩

/-- In a call of `tbthread_mutex_lock` or in one of `tbthread_mutex_unlock`. -/
def Op.phase : Option Op → Phase
  | some .unlock => .releasing
  | _ => .acquiring

omit [DecidableEq τ] in
/-- Where a thread is that calls these two only. -/
def phase (s : State τ) (t : τ) : Phase :=
  if inCall (s.pc t) then Op.phase (s.pc t).op else if (s.hist t).holds then .held else .free

omit [DecidableEq τ] in
/-- What a step does not change for the others, they do not see. -/
theorem phase_congr {s s' : State τ} {u : τ} (hin : inCall (s'.pc u) = inCall (s.pc u))
    (hop : (s'.pc u).op = (s.pc u).op) (hholds : (s'.hist u).holds = (s.hist u).holds) : phase s' u = phase s u := by
  simp only [phase, hin, hop, hholds]

omit [DecidableEq τ] in
theorem phase_out {s : State τ} {t : τ} (holds : Bool) (h : phase s t = if holds then .held else .free) :
    inCall (s.pc t) = false ∧ (s.hist t).holds = holds := by
  unfold phase Op.phase at h
  split at h
  · split at h <;> cases holds <;> cases h
  · rename_i hin
    refine ⟨by simpa using hin, ?_⟩
    cases holds <;> cases hh : (s.hist t).holds <;> simp [hh] at h ⊢

/-- Who is between its return from `tbthread_mutex_lock` and its call of `tbthread_mutex_unlock` is
the owner, with a 0 from the former. -/
theorem Paired.held {s : State τ} (h : Paired s) {t : τ} (ht : phase s t = .held) :
    s.pc t = .returned .lock 0 ∧ s.mutex.owner = some t ∧ (s.mutex.kind = .recursive → s.mutex.counter = 1) := by
  obtain ⟨hin, hholds⟩ := phase_out true ht
  have hat := h.at_place t
  have hplaced := h.inv.placed t
  cases hc : s.pc t with
  | returned f ret =>
    rw [hc] at hat hplaced
    cases f with
    | lock =>
      obtain ⟨rfl, -, hcount⟩ := hat
      refine ⟨rfl, by simpa [view] using hplaced.1.symm.trans hholds, fun hk => ?_⟩
      exact (view_counter hholds).symm.trans (hcount hk)
    | unlock => exact absurd (hholds.symm.trans hat.2) (by simp)
    | trylock => exact hat.elim
  | idle =>
    rw [hc] at hat
    exact absurd (hholds.symm.trans hat) (by simp)
  | _ => rw [hc] at hin; cases hin

/-- A thread in a call, which goes on to where paired calls lead. -/
theorem goes_of_paired {s s' : State τ} {t : τ} (hin : inCall (s.pc t) = true) (hop : (s'.pc t).op = (s.pc t).op)
    (h : PairedAt (view s'.mutex t (s'.hist t)) (s'.pc t)) : (phase s t).Goes (phase s' t) := by
  have hphase : phase s t = Op.phase (s.pc t).op := if_pos hin
  cases hin' : inCall (s'.pc t) with
  | true =>
    have hphase' : phase s' t = Op.phase (s'.pc t).op := if_pos hin'
    rw [hphase, hphase', hop]
    unfold Op.phase
    split
    · exact .works
    · exact .waits
  | false =>
    have hphase' : phase s' t = if (s'.hist t).holds then .held else .free := if_neg (by simp [hin'])
    rw [hphase, hphase', ← hop]
    cases hc : s'.pc t with
    | idle =>
      rw [hc] at hop
      exact absurd hop.symm (op_of_inCall hin)
    | returned f ret =>
      rw [hc] at h
      cases f with
      | lock =>
        rw [show (s'.hist t).holds = true from h.2.1]
        exact .acquired
      | unlock =>
        rw [show (s'.hist t).holds = false from h.2]
        exact .released
      | trylock => exact h.elim
    | _ => rw [hc] at hin'; cases hin'

@[simp] theorem accessed_pc_same (s : State τ) (t : τ) (m : Fields τ) (c : Pc) : (s.accessed t m c).pc t = c :=
  Function.update_self ..

theorem accessed_pc_other (s : State τ) {t u : τ} (m : Fields τ) (c : Pc) (hu : u ≠ t) :
    (s.accessed t m c).pc u = s.pc u :=
  Function.update_of_ne hu ..

theorem accessed_hist_other (s : State τ) {t u : τ} (m : Fields τ) (c : Pc) (hu : u ≠ t) :
    (s.accessed t m c).hist u = s.hist u :=
  Function.update_of_ne hu ..

omit [DecidableEq τ] in
theorem inCall_of_asleep {c : Pc} (h : asleep c = true) : inCall c = true ∧ inCall (resume c) = true ∧
    (resume c).op = c.op := by
  cases c <;> first | exact ⟨rfl, rfl, rfl⟩ | cases h

theorem inCall_of_access {m : Fields τ} {t : τ} {c : Pc} {r : Fields τ × Pc} (h : access m t c = some r) :
    inCall c = true := by
  cases c <;> first | rfl | cases h

/-- An access, and the wake that it may issue. -/
theorem Paired.accessed {s : State τ} (h : Paired s) {t : τ} {m : Fields τ} {c : Pc} {pc : τ → Pc}
    (ha : access s.mutex t (s.pc t) = some (m, c)) (hw : Woken asleep resume (s.accessed t m c).pc pc)
    (hinv : Inv { s.accessed t m c with pc := pc }) : Paired { s.accessed t m c with pc := pc } := by
  refine ⟨hinv, fun u => PairedAt.woken hw ?_⟩
  by_cases hu : u = t
  · subst u
    have hself := access_paired h.inv.word_of_holds (h.inv.placed t) (h.at_place t) ha
    simpa [State.accessed] using hself
  · have he := access_effect h.inv.word_of_holds (h.inv.placed t) ha
    have hother : view m u ((s.accessed t m c).hist u) = view s.mutex u (s.hist u) := by
      rw [accessed_hist_other s m c hu, view_other h.inv hu he]
    rw [accessed_pc_other s m c hu]
    exact hother.symm ▸ h.at_place u

variable [Fintype τ]

theorem Paired.call {s s' : State τ} (h : Paired s) {t : τ} {f : Op} (hf : f ≠ .trylock)
    (hlock : f = .lock → phase s t = .free) (hunlock : f = .unlock → phase s t = .held)
    (hs : step s (.call t f) = some s') :
    Paired s' ∧ phase s' t = Op.phase (some f) ∧ ∀ u, u ≠ t → phase s' u = phase s u := by
  have hadm : HolderUnlocks s (.call t f) := by
    cases f with
    | unlock => exact fun _ => (phase_out true (hunlock rfl)).2
    | _ => trivial
  have hinv := inv_step h.inv hadm (step_stepped hs)
  cases step_stepped hs with
  | call hpc =>
    refine ⟨⟨hinv, fun u => ?_⟩, ?_, fun u hu => ?_⟩
    · simp only [view_called]
      by_cases hu : u = t
      · subst u
        rw [Function.update_self]
        refine pairedAt_entry s.mutex.protocol hf (fun he => (phase_out false (hlock he)).2) fun he => ?_
        obtain ⟨hret, -, hcount⟩ := h.held (hunlock he)
        have hholds := (phase_out true (hunlock he)).2
        exact ⟨hholds, fun hk => (view_counter hholds).trans (hcount hk)⟩
      · rw [Function.update_of_ne hu]
        exact h.at_place u
    · simp only [phase, Function.update_self, inCall_entry, op_entry, if_true]
    · exact phase_congr (by simp [hu]) (by simp [hu]) (by simp [hu])

/-- The thread that makes a step. -/
def Action.mover : Action τ → τ
  | .call t _ | .next t _ | .interrupt t => t

/-- A step inside of the two calls. -/
def inner (s : State τ) : Action τ → Option (State τ)
  | .call _ _ => none
  | a => step s a

theorem Paired.inner {s s' : State τ} (h : Paired s) {a : Action τ} (hs : inner s a = some s') :
    Paired s' ∧ (phase s a.mover).Goes (phase s' a.mover) ∧ ∀ u, u ≠ a.mover → phase s' u = phase s u := by
  have hstep : step s a = some s' ∧ HolderUnlocks s a := by
    cases a with
    | call t f => cases hs
    | _ => exact ⟨hs, trivial⟩
  obtain ⟨hstep, hadm⟩ := hstep
  have hinv := inv_step h.inv hadm (step_stepped hstep)
  cases step_stepped hstep with
  | call => cases hs
  | @next t woken m c pc ha hw =>
    have hpaired := h.accessed ha hw hinv
    refine ⟨hpaired, goes_of_paired (inCall_of_access ha) ?_ (hpaired.at_place t), fun u hu => ?_⟩
    · have hop := hw.same (p := Pc.op) (fun x hx => (inCall_of_asleep hx).2.2) t
      rw [accessed_pc_same] at hop
      exact hop.trans (access_op ha)
    · have hu : u ≠ t := hu
      have hin := hw.same (p := inCall) (fun x hx => (inCall_of_asleep hx).2.1.trans (inCall_of_asleep hx).1.symm) u
      have hop := hw.same (p := Pc.op) (fun x hx => (inCall_of_asleep hx).2.2) u
      rw [accessed_pc_other s m c hu] at hin hop
      exact phase_congr hin hop (congrArg History.holds (accessed_hist_other s m c hu))
  | @interrupt t hpc =>
    obtain ⟨hin, -, hop⟩ := inCall_of_asleep hpc
    have hpaired : Paired { s with pc := Function.update s.pc t (resume (s.pc t)) } := by
      refine ⟨hinv, fun u => ?_⟩
      by_cases hu : u = t
      · subst hu
        simpa using (h.at_place u).resume hpc
      · simpa [hu] using h.at_place u
    refine ⟨hpaired, goes_of_paired hin ?_ (hpaired.at_place t), fun u hu => ?_⟩
    · simpa [Action.mover] using hop
    · have he : Function.update s.pc t (resume (s.pc t)) u = s.pc u := Function.update_of_ne hu _ _
      exact phase_congr (congrArg inCall he) (congrArg Pc.op he) rfl

/-- A mutex of a type and a protocol, as the lock that the sections of the library are under. -/
def sectionLock (k : Kind) (p : Protocol) (hs : Supported k p) : Lock τ where
  State := State τ
  Action := Action τ
  start := State.start k p
  lock s t := step s (.call t .lock)
  unlock s t := step s (.call t .unlock)
  step := inner
  mover := Action.mover
  phase := phase
  Inv := Paired
  inv_start := paired_start hs
  free_start _ := rfl
  exclusive h ht hu := h.inv.one _ _ (phase_out true ht).2 (phase_out true hu).2
  lock_spec h hfree hs := h.call (by simp) (fun _ => hfree) (fun he => by cases he) hs
  unlock_spec h hheld hs := h.call (by simp) (fun he => by cases he) (fun _ => hheld) hs
  step_spec h hs := h.inner hs

section Programs

variable {D P Q ι ω : Type} {k : Kind} {p : Protocol} {hs : Supported k p}

omit [DecidableEq τ] [Fintype τ] in
theorem PairedAt.returned_zero {l : Local} {f : Op} {ret : Int} (h : PairedAt l (.returned f ret)) : ret = 0 := by
  cases f with
  | trylock => exact h.elim
  | _ => exact h.1

/-- The mutex that the sections are under, and where the threads are in its calls. -/
def underlying (c : Fine (sectionLock k p hs : Lock τ) D P Q ι) : State τ := c.lock

variable {C : Code τ D P Q ι ω} {ok : Demands τ D P ω} {init : CriticalSections.State τ D P → Prop}

/-- A mutex of any type and protocol, its calls made access by access, makes sections of a program
atomic: whatever the program does between `lock` and `unlock`, the data are what whole sections one
after the other make of them. The thread in a section is the owner, and no call fails. -/
theorem mutex_sections_atomic (hC : Private C ok) {c : Fine (sectionLock k p hs) D P Q ι}
    (h : Reaches (FineInitial init) (fineStep C) (FineAdmitted ok) c) :
    (∃ s, Reaches init (CriticalSections.step C) (Admitted C ok) s ∧ (c.Quiet → c.data = s.data) ∧
      (∀ u q, (c.spot u).place = some q → s.place u = q) ∧
      ∀ t b, c.spot t = .inside b → ∃ b₀, C.enter t (s.place t) = some b₀ ∧ b₀.Runs s.data b c.data) ∧
    (∀ t b, c.spot t = .inside b → (underlying c).mutex.owner = some t ∧ (underlying c).mutex.futex = 1 ∧
      ∀ u, phase (underlying c) u = .held → u = t) ∧
    ∀ t f ret, (underlying c).pc t = .returned f ret → ret = 0 := by
  obtain ⟨s, hs⟩ := reaches_atomic hC.steady h
  have hpaired : Paired (underlying c) := hs.coordinated.inv
  refine ⟨hC.reaches_atomic h, fun t b ht => ?_, fun t f ret hpc => ?_⟩
  · have hheld : phase (underlying c) t = .held := by
      have hagrees := hs.coordinated.agrees t
      rwa [ht] at hagrees
    refine ⟨(hpaired.held hheld).2.1, hpaired.inv.word_of_holds (phase_out true hheld).2, fun u hu => ?_⟩
    exact hpaired.inv.one u t (phase_out true hu).2 (phase_out true hheld).2
  · have hat := hpaired.at_place t
    rw [hpc] at hat
    exact hat.returned_zero

end Programs

/-- A program whose threads add 1 to a number, as often as their places say, by a read and a write. -/
def counting : Code τ Nat Nat Empty Empty Empty where
  enter _ n := if n = 0 then none else some (.load id fun v => .store (fun _ => v + 1) (.done .nobody (n - 1)))
  outer _ _ _ _ := none
  waits _ := false
  asleep _ _ := false
  resume _ n := n

/-- Nothing is asked of a run. -/
def unconditional : Demands τ Nat Nat Empty := ⟨fun _ _ _ _ => True, fun _ => True⟩

instance : ∀ d t p o, Decidable ((unconditional (τ := τ)).outer d t p o) := fun _ _ _ _ => isTrue trivial

instance : ∀ d, Decidable ((unconditional (τ := τ)).leave d) := fun _ => isTrue trivial

omit [DecidableEq τ] [Fintype τ] in
theorem counting_private : Private (counting (τ := τ)) unconditional where
  keeps h := by cases h
  blind _ h := by cases h
  demand _ h := h
  stays _ := rfl
  awake _ _ := rfl

/-- Each thread wants to add 1 to 0. -/
def CountBegins (s : CriticalSections.State τ Nat Nat) : Prop := s = ⟨0, fun _ => 1⟩

/-- The same, and a recursive mutex that is free. -/
def countStart : Fine (sectionLock (τ := τ) .recursive .prioNone fun _ => rfl) Nat Nat Empty Empty :=
  ⟨State.start .recursive .prioNone, 0, fun _ => .out 1⟩

/-- `t` has locked the mutex and read the number; `u` wants to lock it and sleeps. -/
def readBefore (t u : τ) :
    List (FineAction (sectionLock (τ := τ) .recursive .prioNone fun _ => rfl) Empty Empty) :=
  [.lock t] ++ List.replicate 7 (.within (.next t none)) ++ [.enter t, .instr t, .lock u] ++
    List.replicate 3 (.within (.next u none))

theorem mutex_sections_atomic_read :
    ∃ c : Fine (sectionLock (τ := Fin 2) .recursive .prioNone fun _ => rfl) Nat Nat Empty Empty, ¬c.Quiet ∧
      (underlying c).pc 1 = .asleep ∧ ∃ s : CriticalSections.State (Fin 2) Nat Nat,
        Reaches CountBegins (CriticalSections.step counting) (Admitted counting unconditional) s ∧
        (c.Quiet → c.data = s.data) := by
  have hr := Reaches.run_get (show FineInitial CountBegins (countStart (τ := Fin 2)) from ⟨_, rfl, rfl⟩)
    (show (run (fineStep counting) (FineAdmitted unconditional) (readBefore 0 1) countStart).isSome from by decide)
  obtain ⟨⟨s, hs, hdata, -⟩, -⟩ := mutex_sections_atomic counting_private hr
  exact ⟨_, by decide, by decide, s, hs, hdata⟩

end ThreadBites.Mutex

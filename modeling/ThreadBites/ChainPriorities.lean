import ThreadBites.InheritChains

/-!
# Priorities along a chain

A thread that blocks raises the owner of its mutex, and nobody else. An owner
that blocks afterwards hands on what it was raised to; one that had gone to sleep
before does not.
-/
namespace ThreadBites.InheritChains

open Transition WaitQueue Sched
open InheritBoost (Section Call Covered)
open MutexCalls (World)

variable {τ μ : Type} [DecidableEq μ] [DecidableEq τ] [Fintype τ]

section Accesses

variable {s : State τ μ} {t : τ}

omit [Fintype τ]

omit [DecidableEq τ] in
theorem setFutex_owner (s : State τ μ) (m : μ) (futex : Int) (k : μ) :
    ((s.setFutex m futex).world.mutex k).owner = (s.world.mutex k).owner := by
  by_cases hk : k = m
  · simp [State.setFutex, hk]
  · simp [State.setFutex, MutexCalls.put_mutex_other _ _ hk]

omit [DecidableEq τ] in
theorem setOwner_owner (s : State τ μ) {m k : μ} (owner : Option τ) (hk : k ≠ m) :
    ((s.setOwner m owner).world.mutex k).owner = (s.world.mutex k).owner := by
  simp [State.setOwner, MutexCalls.put_mutex_other _ _ hk]

omit [DecidableEq τ] in
@[simp] theorem setOwner_owner_self (s : State τ μ) (m : μ) (owner : Option τ) :
    ((s.setOwner m owner).world.mutex m).owner = owner := by
  simp [State.setOwner]

omit [DecidableEq τ] in
/-- A mutex that loses its owner. -/
theorem setOwner_none {m k : μ} {o : τ} (h : ((s.setOwner m none).world.mutex k).owner = some o) :
    k ≠ m ∧ (s.world.mutex k).owner = some o := by
  have hk : k ≠ m := by
    intro hk
    rw [hk, setOwner_owner_self] at h
    cases h
  exact ⟨hk, (setOwner_owner s none hk).symm.trans h⟩

/-- `internal_futex` is locked. -/
theorem Inv.lockInternal (h : Inv s) {f : Call} {m : μ} (hpc : s.pc t = .lockInternal f m) (hfree : s.internal m = none) :
    Inv ((s.setInternal m (some t)).goto t (.look f m)) := by
  apply h.goto rfl fun _ _ ho => ho
  · intro u k _ hu
    have hheld := h.inside u k hu
    have hk : k ≠ m := by
      intro hk
      rw [hk, hfree] at hheld
      cases hheld
    simpa [hk] using hheld
  · intro k hk
    have hk : m = k := Option.some.inj hk
    simp [hk]
  · intro k hk
    rw [hpc] at hk
    cases hk
  · intro k hk
    cases hk
  · rfl

/-- `internal_futex` is unlocked; who goes to wait has recorded its setting. -/
theorem Inv.leave (h : Inv s) {m : μ} {waits : Bool} (hpc : s.pc t = .leave m waits) :
    Inv ((s.setInternal m none).goto t (if waits then .futexWait m else .user)) := by
  have hin : s.internal m = some t := h.inside t m (by rw [hpc]; rfl)
  apply h.goto rfl fun _ _ ho => ho
  · intro u k hu hk
    have hheld := h.inside u k hk
    have hkm : k ≠ m := by
      intro hkm
      rw [hkm, hin] at hheld
      exact hu (Option.some.inj hheld).symm
    simpa [hkm] using hheld
  · intro k hk
    cases waits <;> cases hk
  · intro k hk
    rw [hpc] at hk
    cases hk
  · intro k hk
    cases waits with
    | false => cases hk
    | true => exact h.waits t k (by rw [hpc]; exact hk)
  · cases waits <;> rfl

/-- A thread moves on and does not wait. -/
theorem Inv.pass (h : Inv s) {c : Pc μ} (hinside : c.inside = (s.pc t).inside) (hchanging : (s.pc t).changing = none)
    (hwaits : c.waits = none) (hinfo : c.info = none) : Inv (s.goto t c) := by
  apply h.walk hinside hchanging
  · intro k hk
    rw [hwaits] at hk
    cases hk
  · exact hinfo

/-- The futex word is written. -/
theorem Inv.setFutex (h : Inv s) {m : μ} {futex : Int} {c : Pc μ} (hinside : c.inside = (s.pc t).inside)
    (hchanging : c.changing = (s.pc t).changing) (hwaits : c.waits = none) (hinfo : c.info = none) :
    Inv ((s.setFutex m futex).goto t c) := by
  apply h.stay
  · rfl
  · exact fun k o ho => (setFutex_owner s m futex k).symm.trans ho
  · exact hinside
  · exact fun k hk => .inl (hchanging.trans hk)
  · exact hwaits
  · exact hinfo

/-- The mutex gets an owner. -/
theorem Inv.setOwner (h : Inv s) {m : μ} (hpc : s.pc t = .setOwner m) :
    Inv (((s.change m).setOwner m (some t)).goto t (.setFutex m)) := by
  apply h.change (m := m)
  · rw [hpc]
    rfl
  · rw [hpc]
    rfl
  · exact fun k hk => setOwner_owner (s.change m) (some t) hk
  · exact fun _ _ _ _ hr => hr
  · exact h.covered
  · rfl
  · rfl
  · rfl
  · rfl

/-- The mutex loses its owner, at the end of an unlock or where a recursive one starts. -/
theorem Inv.clearOwner (h : Inv s) {m : μ} {c : Pc μ} (hinside : c.inside = (s.pc t).inside)
    (hchanging : ∀ k, (s.pc t).changing = some k → k = m) (hwaits : c.waits = none) (hinfo : c.info = none) :
    Inv ((s.setOwner m none).goto t c) := by
  apply h.stay
  · rfl
  · exact fun k o ho => (setOwner_none ho).2
  · exact hinside
  · exact fun k hk => .inr fun o ho => absurd (hchanging k hk) (setOwner_none ho).1
  · exact hwaits
  · exact hinfo

/-- The new owner gets a cleared entry. -/
theorem Inv.inheritAdd (h : Inv s) {m : μ} {w : World τ μ} (hpc : s.pc t = .inheritAdd m)
    (hw : MutexCalls.inheritAdd s.world m = some w) : Inv ({ s with world := w }.goto t (.leave m false)) := by
  obtain ⟨o, ho, rfl⟩ := Option.map_eq_some_iff.mp hw
  have hadd := h.section (o := o) (f := .inheritMutexAdd m) fun k => by simp
  have hadded : ∀ u, (s.world.mutex m).owner = some u → Records m (Function.update s.world.thread o
      (Section.run s.world.info (s.world.thread o) (.inheritMutexAdd m)) u) 0 := by
    intro u hu
    rw [ho, Option.some.injEq] at hu
    subst u
    rw [Function.update_self]
    exact records_add
  apply hadd.stay (t := t) (c := .leave m false)
  · rfl
  · exact fun _ _ ho => ho
  · rw [hpc]
    rfl
  · intro k hk
    rw [hpc] at hk
    rw [← Option.some.inj hk]
    exact .inr hadded
  · rfl
  · rfl

/-- The setting is recorded in the entry that the owner has, as nobody else is inside. -/
theorem Inv.inheritSched (h : Inv s) {m : μ} {info : SchedInfo} {w : World τ μ} (hpc : s.pc t = .record m info)
    (hw : MutexCalls.inheritSched s.world m info 0 = some w) :
    Inv (({ s with world := w }.check t m info).goto t (.leave m true)) := by
  obtain ⟨o, ho, rfl⟩ := Option.map_eq_some_iff.mp hw
  have hsched := h.section (o := o) (f := .inheritMutexSched m info) fun k => by simp
  apply hsched.record hpc
  intro u hu
  have hu : (s.world.mutex m).owner = some u := hu
  rw [ho, Option.some.injEq] at hu
  subst u
  have halone : ∀ v, (s.pc v).changing ≠ some m := by
    intro v hv
    have hin : s.internal m = some t := h.inside t m (by rw [hpc]; rfl)
    have hinv : s.internal m = some v := h.inside v m (Pc.inside_of_changing hv)
    rw [hin, Option.some.injEq] at hinv
    rw [← hinv, hpc] at hv
    cases hv
  simp only [Function.update_self]
  exact (h.entry m o ho halone).sched info

/-- The entry of the owner goes, and no other one. -/
theorem Inv.inheritUnsched (h : Inv s) {m : μ} {w : World τ μ} (hpc : s.pc t = .inheritUnsched m)
    (hw : MutexCalls.inheritUnsched s.world m 0 = some w) :
    Inv (({ s with world := w }.change m).goto t (.clearOwner m)) := by
  obtain ⟨o, ho, rfl⟩ := Option.map_eq_some_iff.mp hw
  apply h.change
  · rw [hpc]
    rfl
  · rw [hpc]
    rfl
  · exact fun _ _ => rfl
  · intro k u n hk hr
    by_cases hu : u = o
    · subst u
      simp only [Function.update_self]
      exact hr.run (f := .inheritMutexUnsched m) (by simpa using hk.symm)
    · simpa [hu] using hr
  · intro u
    by_cases hu : u = o
    · subst u
      simp only [Function.update_self]
      exact (h.covered o).run s.world.info (.inheritMutexUnsched m)
    · simpa [hu] using h.covered u
  · rfl
  · rfl
  · rfl
  · rfl

end Accesses

section Steps

variable {s s' : State τ μ} {t : τ}

/-- The look at the futex word. -/
theorem Inv.look (h : Inv s) {f : Call} {m : μ} {woken : Option τ} (hpc : s.pc t = .look f m)
    (hs : next s t woken = some s') : Inv s' := by
  have hmove : ∀ {c : Pc μ}, c.inside = some m → c.waits = none → c.info = none → Inv (s.goto t c) :=
    fun hc => h.pass (by rw [hc, hpc]; rfl) (by rw [hpc]; rfl)
  cases f with
  | unlock =>
    simp only [next, hpc, Option.some.injEq] at hs
    subst hs
    exact hmove rfl rfl rfl
  | lock =>
    simp only [next, hpc, Option.some.injEq] at hs
    subst hs
    split
    · exact hmove rfl rfl rfl
    · exact hmove rfl rfl rfl
  | trylock =>
    simp only [next, hpc, Option.some.injEq] at hs
    subst hs
    split
    · exact hmove rfl rfl rfl
    · exact hmove rfl rfl rfl

theorem next_inv (h : Inv s) {woken : Option τ} (hs : next s t woken = some s') : Inv s' := by
  cases hpc : s.pc t with
  | user => simp [next, hpc] at hs
  | asleep m => simp [next, hpc] at hs
  | lockInternal f m =>
    simp only [next, hpc, Option.ite_none_right_eq_some, Option.some.injEq] at hs
    obtain ⟨hfree, rfl⟩ := hs
    exact h.lockInternal hpc hfree
  | look f m => exact h.look hpc hs
  | setOwner m =>
    simp only [next, hpc, Option.some.injEq] at hs
    subst hs
    exact h.setOwner hpc
  | setFutex m =>
    simp only [next, hpc, Option.some.injEq] at hs
    subst hs
    exact h.setFutex (by rw [hpc]; rfl) (by rw [hpc]; rfl) rfl rfl
  | inheritAdd m =>
    simp only [next, hpc] at hs
    obtain ⟨w, hw, rfl⟩ := Option.map_eq_some_iff.mp hs
    exact h.inheritAdd hpc hw
  | readInfo m =>
    simp only [next, hpc, Option.some.injEq] at hs
    subst hs
    exact h.begin (by rw [hpc]; rfl) (by rw [hpc]; rfl)
  | record m info =>
    simp only [next, hpc] at hs
    obtain ⟨w, hw, rfl⟩ := Option.map_eq_some_iff.mp hs
    exact h.inheritSched hpc hw
  | inheritUnsched m =>
    simp only [next, hpc] at hs
    obtain ⟨w, hw, rfl⟩ := Option.map_eq_some_iff.mp hs
    exact h.inheritUnsched hpc hw
  | clearOwner m =>
    simp only [next, hpc, Option.some.injEq] at hs
    subst hs
    apply h.clearOwner
    · rw [hpc]
      rfl
    · intro k hk
      rw [hpc] at hk
      exact (Option.some.inj hk).symm
    · rfl
    · rfl
  | clearFutex m =>
    simp only [next, hpc, Option.some.injEq] at hs
    subst hs
    exact h.setFutex (by rw [hpc]; rfl) (by rw [hpc]; rfl) rfl rfl
  | futexWake m =>
    simp only [next, hpc] at hs
    obtain ⟨pc, hw, rfl⟩ := Option.map_eq_some_iff.mp hs
    have hleave : Inv (s.goto t (.leave m false)) := h.pass (by rw [hpc]; rfl) (by rw [hpc]; rfl) rfl rfl
    exact hleave.woken (wakeOne_woken hw)
  | leave m waits =>
    simp only [next, hpc, Option.some.injEq] at hs
    subst hs
    exact h.leave hpc
  | futexWait m =>
    simp only [next, hpc, Option.some.injEq] at hs
    subst hs
    apply h.walk
    · rw [hpc]
      split <;> rfl
    · rw [hpc]
      rfl
    · intro k hk
      split at hk
      · exact h.waits t k (by rw [hpc]; exact hk)
      · cases hk
    · split <;> rfl

theorem step_inv {a : Action τ μ} (h : Inv s) (hs : step s a = some s') : Inv s' := by
  cases a with
  | call t f m =>
    simp only [step, Option.ite_none_right_eq_some, Option.some.injEq] at hs
    obtain ⟨hpc, rfl⟩ := hs
    exact h.pass (by rw [hpc]; rfl) (by rw [hpc]; rfl) rfl rfl
  | next t woken => exact next_inv h hs
  | interrupt t =>
    simp only [step] at hs
    split at hs <;> cases hs
    rename_i m hpc
    exact h.pass (by rw [hpc]; rfl) (by rw [hpc]; rfl) rfl rfl
  | other t f =>
    simp only [step, Option.ite_none_right_eq_some, Option.some.injEq] at hs
    obtain ⟨hf, rfl⟩ := hs
    apply h.section
    intro m hm
    rw [hm] at hf
    cases hf
  | ceiling m info =>
    cases hs
    exact h.ceiling _
  | unlockRecursive t m =>
    simp only [step, Option.ite_none_right_eq_some, Option.some.injEq] at hs
    obtain ⟨⟨hpc, -⟩, rfl⟩ := hs
    apply h.clearOwner
    · rw [hpc]
      rfl
    · intro k hk
      rw [hpc] at hk
      cases hk
    · rfl
    · rfl

theorem reaches_inv (h : Reaches Initial (step (τ := τ) (μ := μ)) anyStep s) : Inv s :=
  h.invariant (I := Inv) (fun _ h₀ => h₀.inv) fun _ _ _ _ hs _ h => step_inv hs h

end Steps

section Chains

variable {s : State τ μ} {n : Nat} {t : Nat → τ} {m : Nat → μ}

omit [DecidableEq μ] [DecidableEq τ] [Fintype τ] in
/-- Each thread, up to the last one, is blocked on a mutex that the next one owns. -/
structure Chain (s : State τ μ) (n : Nat) (t : Nat → τ) (m : Nat → μ) : Prop where
  waits : ∀ i < n, (s.pc (t i)).waits = some (m (i + 1))
  owner : ∀ i < n, (s.world.mutex (m (i + 1))).owner = some (t (i + 1))

/-- Each thread that blocks began its check after it was raised, and no mutex has changed hands since. -/
structure InOrder (s : State τ μ) (n : Nat) (t : Nat → τ) (m : Nat → μ) : Prop where
  fresh : ∀ i < n, s.changed (m (i + 1)) < (s.last (t i)).recorded
  order : ∀ i, i + 1 < n → (s.last (t i)).recorded < (s.last (t (i + 1))).began

omit [DecidableEq τ] [Fintype τ]

theorem Chain.linked (h : Chain s n t m) (hinv : Inv s) (ho : InOrder s n t m) {i : Nat} (hi : i < n) :
    Linked s (t i) (t (i + 1)) := by
  have hm : (s.last (t i)).mutex = m (i + 1) := hinv.waits _ _ (h.waits i hi)
  constructor
  · rw [hm]
    exact h.owner i hi
  · rw [hm]
    exact ho.fresh i hi

/-- What the first thread recorded is handed on from check to check. -/
theorem Chain.handed (h : Chain s n t m) (hinv : Inv s) (ho : InOrder s n t m) {i : Nat} (hi : i < n) :
    (s.last (t 0)).info.priority ≤ (s.last (t i)).info.priority := by
  induction i with
  | zero => exact Nat.le_refl _
  | succ i ih =>
    have hprev : i < n := Nat.lt_of_succ_lt hi
    exact (ih hprev).trans (hinv.chain _ _ (h.linked hinv ho hprev) (ho.order i hi))

end Chains

/-- In a chain whose links were formed from the front, everybody runs with at least the priority that the
first thread had at its check. -/
theorem inherit_chain {s : State τ μ} {n : Nat} {t : Nat → τ} {m : Nat → μ}
    (h : Reaches Initial step anyStep s) (hchain : Chain s n t m) (horder : InOrder s n t m) :
    ∀ i, 0 < i → i ≤ n → (s.last (t 0)).info.priority ≤ (s.world.thread (t i)).schedInfo.priority := by
  have hinv : Inv s := reaches_inv h
  intro i hpos hi
  obtain ⟨i, rfl⟩ := Nat.exists_eq_succ_of_ne_zero (Nat.ne_of_gt hpos)
  have hrecords := hinv.boost _ _ (hchain.linked hinv horder hi)
  exact (hchain.handed hinv horder hi).trans (hrecords.covered (hinv.covered _))

section Runs

/-- Threads with `SCHED_FIFO` and the priorities, and free mutexes. -/
def start (m : μ) (priority : τ → Nat) : State τ μ where
  world := { World.fresh .normal .prioInherit with
    thread := fun t => ⟨⟨.fifo, priority t⟩, ⟨.fifo, priority t⟩, [], []⟩ }
  internal := fun _ => none
  pc := fun _ => .user
  clock := 1
  began := fun _ => 0
  last := fun _ => ⟨m, .zero, 0, 0⟩
  changed := fun _ => 0

omit [DecidableEq μ] [DecidableEq τ] [Fintype τ] in
theorem start_initial (m : μ) (priority : τ → Nat) : Initial (start m priority) where
  owner _ := rfl
  thread _ := rfl
  pc _ := rfl
  clock := Nat.one_pos
  began _ := rfl
  last _ := ⟨rfl, rfl⟩
  changed _ := rfl

/-- One pass of the loop of `lock_prio_inherit`, to its return or into `FUTEX_WAIT`. -/
def pass (t : τ) (m : μ) : List (Action τ μ) := .call t .lock m :: List.replicate 6 (.next t none)

/-- Three threads in a line, or two mutexes. -/
def line (a b c : τ) : Nat → τ
  | 0 => a
  | 1 => b
  | _ => c

set_option maxRecDepth 4000 in
/-- The front thread blocks first. -/
theorem inherit_chain_raised : ∃ s : State (Fin 3) (Fin 2), Reaches Initial step anyStep s ∧
    (s.last 0).info.priority = 9 ∧ 9 ≤ (s.world.thread 2).schedInfo.priority := by
  obtain ⟨s, hr, hn, hw, ho, hf, hb⟩ : ∃ s : State (Fin 3) (Fin 2), Reaches Initial step anyStep s ∧
      (s.last 0).info.priority = 9 ∧
      (∀ i < 2, (s.pc (line 0 1 2 i)).waits = some (line 0 0 1 (i + 1))) ∧
      (∀ i < 2, (s.world.mutex (line 0 0 1 (i + 1))).owner = some (line 0 1 2 (i + 1))) ∧
      (∀ i < 2, s.changed (line 0 0 1 (i + 1)) < (s.last (line 0 1 2 i)).recorded) ∧
      (∀ i < 1, (s.last (line 0 1 2 i)).recorded < (s.last (line 0 1 2 (i + 1))).began) := by
    have hr := Reaches.run_get (start_initial (0 : Fin 2) (fun t : Fin 3 => if t = 0 then 9 else 1))
      (show (run step anyStep (pass 1 0 ++ pass 2 1 ++ pass 0 0 ++ pass 1 1)
        (start (0 : Fin 2) (fun t : Fin 3 => if t = 0 then 9 else 1))).isSome from by decide)
    exact ⟨_, hr, by decide, by decide, by decide, by decide, by decide⟩
  have horder : ∀ i, i + 1 < 2 → (s.last (line 0 1 2 i)).recorded < (s.last (line 0 1 2 (i + 1))).began :=
    fun i hi => hb i (Nat.lt_of_succ_lt_succ hi)
  refine ⟨s, hr, hn, ?_⟩
  rw [← hn]
  exact inherit_chain hr ⟨hw, ho⟩ ⟨hf, horder⟩ 2 Nat.two_pos (Nat.le_refl 2)

set_option maxRecDepth 4000 in
/-- The back thread blocks first: it is raised in its sleep, and the owner of its mutex is not. -/
theorem inherit_chain_stops : ∃ s : State (Fin 3) (Fin 2), Reaches Initial step anyStep s ∧
    Chain s 2 (line 0 1 2) (line 0 0 1) ∧ s.pc 2 = .user ∧ (∀ i < 2, s.pc (line 0 1 2 i) = .asleep (line 0 0 1 (i + 1))) ∧
    (∀ i < 2, s.changed (line 0 0 1 (i + 1)) < (s.last (line 0 1 2 i)).recorded) ∧
    (s.last 0).info.priority = 9 ∧ (s.world.thread 0).schedInfo.priority = 9 ∧
    (s.world.thread 1).schedInfo.priority = 9 ∧ (s.world.thread 2).schedInfo.priority = 1 := by
  have hr := Reaches.run_get (start_initial (0 : Fin 2) (fun t : Fin 3 => if t = 0 then 9 else 1))
    (show (run step anyStep (pass 1 0 ++ pass 2 1 ++ pass 1 1 ++ pass 0 0)
      (start (0 : Fin 2) (fun t : Fin 3 => if t = 0 then 9 else 1))).isSome from by decide)
  exact ⟨_, hr, ⟨by decide, by decide⟩, by decide, by decide, by decide, by decide, by decide, by decide, by decide⟩

end Runs

end ThreadBites.InheritChains

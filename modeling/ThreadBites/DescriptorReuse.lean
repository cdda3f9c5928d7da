import ThreadBites.TidWord

/-!
# Reuse of descriptors and the values of joins

A detached thread puts its descriptor into `free_desc` while it runs on it. What
keeps two threads apart is that a create waits for the word before it takes the
descriptor, and that nobody uses a handle outside its life.
-/
namespace ThreadBites.Threads

open Transition WaitQueue

variable {τ δ : Type} {main : τ} {s : State τ δ}

/-- The place of a create between its wait and the clone. -/
def Pc.Takes (d : δ) : Pc τ δ → Prop
  | .addUsed e _ | .clear e _ | .fill e _ | .clone e _ => e = d
  | _ => False

/-- A descriptor is cleared and handed out after its thread has terminated, no two live threads share
one, and a join stores what its thread passed to `tbthread_exit`. -/
structure Apart (s : State τ δ) : Prop where
  reused : ∀ t d u, (s.pc t).Takes d → s.last d = some u → s.pc u = .dead
  unshared : ∀ u v, s.pc u ≠ .unborn → s.pc u ≠ .dead → s.pc v ≠ .unborn → s.pc v ≠ .dead → s.self u = s.self v → u = v
  values : ∀ j ∈ s.values, ∃ u, j.thread = some u ∧ s.pc u = .dead ∧ (s.record u).passed = some j.value

theorem Inv.apart (h : Inv main s) : Apart s where
  reused t d u ht hu := by
    have hplaced := h.placed t
    cases hpc : s.pc t <;> rw [hpc] at ht hplaced <;> cases ht
    · exact phase_dead.mp (hplaced.2 u hu)
    · exact phase_dead.mp ((h.desc d).setup u t hu (.inl hplaced))
    · exact phase_dead.mp ((h.desc d).setup u t hu (.inr hplaced))
    · exact phase_dead.mp ((h.desc d).setup u t hu (.inr hplaced))
  unshared u v hub hud hvb hvd he := by
    have last : ∀ {w}, w ≠ main → s.pc w ≠ .unborn → s.pc w ≠ .dead → s.last (s.self w) = some w := fun hw hb hd =>
      h.last_self hw (fun hp => hb (phase_unborn.mp hp)) fun hp => hd (phase_dead.mp hp)
    have hmain := (h.desc _).unused h.initial.role
    by_cases hu : u = main
    · by_cases hv : v = main
      · rw [hu, hv]
      · have := last hv hvb hvd
        rw [← he, hu, hmain] at this
        cases this
    · have hlast := last hu hub hud
      by_cases hv : v = main
      · rw [he, hv, hmain] at hlast
        cases hlast
      · rw [he, last hv hvb hvd] at hlast
        exact (Option.some.inj hlast).symm
  values j hj := by
    obtain ⟨u, hu, hd, hp⟩ := h.values j hj
    exact ⟨u, hu, phase_dead.mp hd, hp⟩

/-- About to give a thread up. -/
def Pc.givesUp : Pc τ δ → Bool
  | .storeStart _ _ false => true
  | _ => false

/-- No create gives a thread up. -/
structure Started (s : State τ δ) : Prop where
  start : ∀ d u, s.last d = some u → (s.mem d).startStatus ≠ .exit
  made : ∀ u t, (s.record u).maker = some t → ∃ v, s.last (s.self u) = some v
  ok : ∀ t, (s.pc t).givesUp = false

theorem Initial.started (h : Initial main s) : Started s where
  start d u hu := by rw [h.last] at hu; cases hu
  made u t ht := by rw [h.record] at ht; cases ht
  ok t := by
    by_cases ht : t = main
    · rw [ht, h.user]; rfl
    · rw [h.unborn t ht]; rfl

/-- No thread is made, and no descriptor gets the status of one that is given up. -/
structure Unmade (s : State τ δ) (sh : Shared τ δ) : Prop where
  last : sh.last = s.last
  self : sh.self = s.self
  maker : ∀ u, (sh.record u).maker = (s.record u).maker
  start : ∀ d, (sh.mem d).startStatus = .exit → (s.mem d).startStatus = .exit

theorem Unmade.refl (s : State τ δ) : Unmade s s.toShared := ⟨rfl, rfl, fun _ => rfl, fun _ => id⟩

theorem Started.keep (h : Started s) {sh : Shared τ δ} {pc : τ → Pc τ δ} (hu : Unmade s sh)
    (hpc : ∀ w, (pc w).givesUp = false) : Started ⟨sh, pc⟩ where
  start d u hl he := h.start d u (congrFun hu.last d ▸ hl) (hu.start d he)
  made u t hm := by
    obtain ⟨v, hv⟩ := h.made u t (hu.maker u ▸ hm)
    refine ⟨v, ?_⟩
    rw [show (State.mk sh pc).last = s.last from hu.last, show (State.mk sh pc).self = s.self from hu.self]
    exact hv
  ok := hpc

/-- The thread of a handle is there, and the create that made it is over. -/
theorem Handle.joinable {d : δ} {u : τ} (hh : Handle s d u) (h : Inv main s) (hd : (s.record u).detached = false) :
    Joinable s d := by
  obtain ⟨hr, hreturned⟩ := hh
  have hst := (h.desc d).status u hr
  unfold Joinable
  rw [hr]
  refine ⟨fun _ => hst.returned hreturned, fun hp => ?_, fun he => ?_⟩
  · exact Bool.false_ne_true (hd.symm.trans (hst.releasing hp))
  · have := (hst.failing (hst.failed.mpr he)).2.2.2
    exact Bool.false_ne_true (this.symm.trans hreturned)

theorem givesUp_afterWait (d : δ) (c : Waiter τ) : (afterWait d c).givesUp = false := by
  cases c <;> rfl

theorem Unmade.setMem [DecidableEq δ] {sh : Shared τ δ} (h : Unmade s sh) (d : δ) (v : Desc δ)
    (hv : v.startStatus = .exit → (s.mem d).startStatus = .exit) : Unmade s (sh.setMem d v) where
  last := h.last
  self := h.self
  maker := h.maker
  start e he := by
    by_cases hd : e = d
    · subst e
      exact hv (by simpa [Shared.setMem] using he)
    · exact h.start e (by simpa [Shared.setMem, hd] using he)

variable [DecidableEq τ]

theorem Unmade.note {sh : Shared τ δ} (h : Unmade s sh) (u : τ) (f : Record τ → Record τ)
    (hf : ∀ r, (f r).maker = r.maker) : Unmade s (sh.note u f) where
  last := h.last
  self := h.self
  maker v := by
    by_cases hv : v = u
    · subst v
      rw [← h.maker u]
      simp [Shared.note, hf]
    · rw [← h.maker v]
      simp [Shared.note, hv]
  start := h.start

theorem Unmade.count (o : Option τ) : Unmade s (s.toShared.count o) := by
  cases o with
  | none => exact .refl s
  | some u => exact (Unmade.refl s).note u (fun r => { r with releases := r.releases + 1 }) fun _ => rfl

theorem Proper.orderly {a : Action τ δ} (ha : Proper s a) (h : Inv main s) (hs : Started s) : Orderly s a := by
  obtain ⟨hstore, hmore⟩ := ha
  cases a with
  | terminate u =>
    intro v
    cases hp : s.pc v with
    | storeTid d attr w =>
      by_contra hne
      have := hstore v u (by rw [hp]; simpa using hne)
      cases this
    | _ => rfl
  | join t d =>
    obtain ⟨u, hh, hd⟩ := hmore
    intro _ _ _ _
    exact hh.joinable h hd
  | next t =>
    show Settles s (s.pc t)
    cases hp : s.pc t with
    | storeStart d u ok =>
      cases ok with
      | true =>
        have hplaced := h.placed t
        rw [hp] at hplaced
        obtain ⟨⟨hmaker, hself, -, -⟩, -⟩ := hplaced
        obtain ⟨v, hv⟩ := hs.made u t hmaker
        exact hs.start d v (hself ▸ hv)
      | false =>
        have hok := hs.ok t
        rw [hp] at hok
        cases hok
    | _ => trivial
  | _ => trivial

theorem Started.goto (h : Started s) {sh : Shared τ δ} {t : τ} {p : Pc τ δ} (hu : Unmade s sh)
    (hp : p.givesUp = false) : Started (s.move sh t p) := by
  refine h.keep hu fun w => ?_
  by_cases hw : w = t
  · subst w
    rw [Function.update_self]
    exact hp
  · rw [Function.update_of_ne hw]
    exact h.ok w

variable [DecidableEq δ]

theorem Started.cloned (h : Started s) (hi : Inv main s) {t u : τ} {d : δ} {attr : Attr} {k : BitVec 32}
    (hpc : s.pc t = .clone d attr) :
    Started ⟨s.spawn t u d k, Function.update (Function.update s.pc u .born) t (.storeTid d attr u)⟩ := by
  have hblank := (hi.blank hpc).2
  refine ⟨fun e v hv => ?_, fun v w hm => ?_, fun w => ?_⟩
  · by_cases he : e = d
    · subst e; exact hblank.start
    · exact h.start e v (by simpa [Shared.spawn, he] using hv)
  · by_cases hv : v = u
    · subst v
      exact ⟨u, by simp [Shared.spawn]⟩
    · obtain ⟨x, hx⟩ := h.made v w (by simpa [Shared.spawn, hv] using hm)
      by_cases hd : s.self v = d
      · exact ⟨u, by simp [Shared.spawn, hv, hd]⟩
      · exact ⟨x, by simpa [Shared.spawn, hv, hd] using hx⟩
  · by_cases hw : w = t
    · subst w; simp [Pc.givesUp]
    · by_cases hwu : w = u
      · subst w; simp [hw, Pc.givesUp]
      · simpa [hw, hwu] using h.ok w

theorem Started.release (h : Started s) (t : τ) (desc : Option δ) (r : Releaser τ) : Started (release s t desc r) := by
  have hu := Unmade.count (s := s) (r.thread t)
  have hcrash : Started { s with toShared := (s.toShared.count (r.thread t)).crash } :=
    h.keep ⟨hu.last, hu.self, hu.maker, hu.start⟩ h.ok
  cases desc with
  | none => exact hcrash
  | some d =>
    simp only [Threads.release]
    split
    · exact h.goto ⟨hu.last, hu.self, hu.maker, hu.start⟩ (by cases r <;> rfl)
    · exact hcrash

variable [Fintype τ]

theorem Started.step (h : Started s) (hi : Inv main s) {s' : State τ δ} {a : Action τ δ} (ha : Proper s a)
    (hs : Stepped s a s') : Started s' := by
  have hu := Unmade.refl s
  cases hs with
  | @create t attr mapped hpc => exact h.goto hu (by cases mapped <;> rfl)
  | @mprotect t attr granted hpc => exact h.goto hu (by cases granted <;> rfl)
  | tookNone => exact h.goto hu rfl
  | took => exact h.goto ⟨rfl, rfl, fun _ => rfl, fun _ => id⟩ rfl
  | allocate => exact h.goto ⟨rfl, rfl, fun _ => rfl, fun _ => id⟩ rfl
  | addUsed => exact h.goto ⟨rfl, rfl, fun _ => rfl, fun _ => id⟩ rfl
  | @clear t d attr hpc => exact h.goto ⟨rfl, rfl, fun _ => rfl, (hu.setMem d .zero fun he => by cases he).start⟩ rfl
  | @fill t d attr hpc =>
    refine h.goto (hu.setMem d _ ?_) rfl
    cases hs : attr.schedInherit <;> simp [Desc.fill, hs]
  | cloned hpc => exact h.cloned hi hpc
  | cloneFailed => exact h.goto hu rfl
  | @storeTid t d attr u hpc =>
    refine h.goto ((hu.setMem d _ (by exact id)).note u _ (by exact fun _ => rfl)) ?_
    cases attr.schedInherit <;> rfl
  | setSched =>
    rw [show _ = true from ha.2]
    exact h.goto hu rfl
  | @storeStart t d u ok hpc =>
    cases ok with
    | true => exact h.goto ((hu.setMem d _ (by exact fun he => by cases he)).note u _ (by exact fun _ => rfl)) rfl
    | false =>
      have hok := h.ok t
      rw [hpc] at hok
      cases hok
  | @wakeStart t d u ok woken pc hpc hw =>
    refine h.keep (hu.note u _ (by exact fun _ => rfl)) fun w => ?_
    by_cases hwt : w = t
    · subst w
      rw [Function.update_self]
      cases ok <;> rfl
    · rw [Function.update_of_ne hwt]
      rcases wakeOne_woken hw w with hp | ⟨-, hp⟩
      · rw [hp]; exact h.ok w
      · rw [hp]; rfl
  | readTid =>
    refine h.goto hu ?_
    split
    · exact givesUp_afterWait _ _
    · rfl
  | waitTid =>
    refine h.goto hu ?_
    split
    · rfl
    · exact givesUp_afterWait _ _
  | interrupted => exact h.goto hu rfl
  | readRetval => exact h.goto ⟨rfl, rfl, fun _ => rfl, fun _ => id⟩ rfl
  | release => exact h.release _ _ _
  | @started u hpc => exact h.goto (hu.setMem (s.self u) _ (by exact id)) rfl
  | checkStart =>
    refine h.goto hu ?_
    split <;> rfl
  | startWait =>
    refine h.goto hu ?_
    split <;> rfl
  | startInterrupted => exact h.goto hu rfl
  | recheckStart =>
    refine h.goto hu ?_
    split <;> rfl
  | @exit t retval hpc =>
    have hw := (hu.setMem (s.self t) { s.mem (s.self t) with retval := retval } (by exact id)).note t
      (fun r => { r with passed := some retval }) fun _ => rfl
    exact h.goto ⟨rfl, rfl, hw.maker, hw.start⟩ rfl
  | @exitSection t hpc he =>
    refine h.goto (hu.setMem (s.self t) _ (by exact id)) ?_
    split <;> rfl
  | @terminate u hpc =>
    refine h.keep (hu.setMem (s.self u) _ (by exact id)) fun w => ?_
    by_cases hwu : w = u
    · subst w
      rw [Function.update_self]
      rfl
    · rw [Function.update_of_ne hwu]
      rcases pc_woken s.pc (s.self u) w with ⟨hp, -⟩ | ⟨k, c, -, hp⟩
      · rw [hp]; exact h.ok w
      · rw [hp]; exact givesUp_afterWait _ _
  | notDetached => exact h
  | @detached t d hpc he =>
    refine h.goto ?_ rfl
    unfold Shared.detach
    split
    · exact (hu.setMem d _ (by exact id)).note _ _ (by exact fun _ => rfl)
    · exact hu.setMem d _ (by exact id)
  | notJoined =>
    refine h.goto ?_ rfl
    unfold Shared.called
    split <;> exact ⟨rfl, rfl, fun _ => rfl, fun _ => id⟩
  | @joined t d hpc he =>
    refine h.goto ?_ rfl
    have hcalled : Unmade s (s.called t d 0) := by
      unfold Shared.called
      split <;> exact ⟨rfl, rfl, fun _ => rfl, fun _ => id⟩
    have hmem : (s.called t d 0).mem d = s.mem d := by
      unfold Shared.called
      split <;> rfl
    have hset := hcalled.setMem d { (s.called t d 0).mem d with
      joinStatus := .joinableFixed, joiner := some ((s.called t d 0).self t) } (by rw [hmem]; exact id)
    unfold Shared.join
    split
    · exact hset.note _ _ (by exact fun _ => rfl)
    · exact hset

theorem reaches_started (h : Reaches (Initial main) step Proper s) : Inv main s ∧ Started s :=
  h.invariant (I := fun s => Inv main s ∧ Started s) (fun _ h₀ => ⟨h₀.inv, h₀.started⟩) fun _ _ _ _ hi ha hs =>
    ⟨hi.1.step (ha.orderly hi.1 hi.2) (step_stepped hs).2, hi.2.step hi.1 ha (step_stepped hs).2⟩

/-- In a run of proper steps no descriptor is used by two live threads, and joins get the values of the
threads that they join. -/
theorem descriptor_reuse (h : Reaches (Initial main) step Proper s) : Apart s :=
  (reaches_started h).1.apart

/-- A thread is cancelled and joined, and its descriptor is that of the next thread. -/
theorem descriptor_reuse_canceled : ∃ s : State (Fin 3) (Fin 2), s.values = [⟨0, some 1, TBTHREAD_CANCELED⟩] ∧
    s.self 1 = 1 ∧ s.self 2 = 1 ∧ s.pc 2 = .born ∧ Apart s := by
  have hr := Reaches.run_get (boot_initial (0 : Fin 3) (0 : Fin 2) 1)
    (show (run step Proper (spawning 0 1 1 7 true ++ [.next 0] ++ exiting 1 TBTHREAD_CANCELED ++
      [.join 0 1, .next 0, .next 0, .terminate 1, .next 0, .next 0, .create 0 ⟨false, true⟩ true, .mprotect 0 true,
        .next 0, .next 0, .next 0, .next 0, .next 0, .clone 0 (some (2, 9)), .next 0]) (boot 0 0 1)).isSome from by decide)
  exact ⟨_, by decide, by decide, by decide, by decide, descriptor_reuse hr⟩

end ThreadBites.Threads

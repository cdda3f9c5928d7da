import ThreadBites.InheritMutex

/-!
# No lost wakeup on a priority-inheriting mutex

Whoever holds `internal_futex` is in a section, so between reading the futex word
and writing it nobody else writes it. The sleepers of the word are attended to as
those of the low-level lock are, the way back being through `internal_futex`.
-/
namespace ThreadBites.InheritMutex

open Transition WaitQueue

variable {τ : Type}

/-- Holds `internal_futex` when no call on it is in progress. -/
def inside : Pc → Bool
  | .entering _ => true
  | .setOwner _ => true
  | .setFutex _ => true
  | .inheritAdd _ => true
  | .inheritSched => true
  | .inheritUnsched => true
  | .clearOwner => true
  | .clearFutex => true
  | .futexWake => true
  | .leave _ _ => true
  | _ => false

def isEntering : Pc → Bool
  | .entering _ => true
  | _ => false

def isLeaving : Pc → Bool
  | .leaving _ _ => true
  | _ => false

def calling (c : Pc) : Bool := isEntering c || isLeaving c

/-- The place of a thread agrees with where it is in a call on `internal_futex`. -/
def Linked (c : Pc) : FutexLock.Pc → Bool → Prop
  | .out _, held => held = inside c
  | .lockCas, held => isEntering c = true ∧ held = false
  | .futexWait, held => isEntering c = true ∧ held = false
  | .asleep, held => isEntering c = true ∧ held = false
  | .trylockCas, _ => False
  | .unlockCas, held => isLeaving c = true ∧ held = true
  | .futexWake, held => isLeaving c = true ∧ held = false

/-- Read the futex word as 0 in its section. -/
def acquires : Pc → Bool
  | .setOwner _ => true
  | .setFutex _ => true
  | _ => false

/-- In `unlock_prio_inherit`, before it writes the futex word. -/
def releases : Pc → Bool
  | .enter .unlock => true
  | .entering .unlock => true
  | .inheritUnsched => true
  | .clearOwner => true
  | .clearFutex => true
  | _ => false

def attends (c : Pc) : Bool := c = .futexWake || contends c

structure Inv (s : State τ) : Prop where
  inner : FutexLock.Inv s.internal
  linked : ∀ t, Linked (s.pc t) (s.internal.pc t) (s.internal.holds t)
  word : s.futex = 1 ∧ (∃ t, s.holds t = true) ∨ s.futex = 0 ∧ ∀ t, s.holds t = false
  one : ∀ t u, s.holds t = true → s.holds u = true → t = u
  acquiring : ∀ t, acquires (s.pc t) = true → s.futex = 0
  releasing : ∀ t, releases (s.pc t) = true → s.holds t = true
  attended : s.futex = 0 → (∃ t, asleep (s.pc t) = true) → ∃ t, attends (s.pc t) = true

theorem inv_start : Inv (State.start : State τ) where
  inner := FutexLock.inv_start
  linked := fun _ => rfl
  word := .inr ⟨rfl, fun _ => rfl⟩
  one := by simp [State.start]
  acquiring := fun _ _ => rfl
  releasing := by simp [State.start, releases]
  attended := by simp [State.start, asleep]

/-- A thread whose call has returned, or which is in none, moves on to a place that agrees. -/
theorem Linked.move {c c' : Pc} {i : FutexLock.Pc} {held : Bool} (h : Linked c i held)
    (hr : returned i = true ∨ calling c = false) (hc : inside c' = inside c) :
    Linked c' i held := by
  cases i with
  | out r => exact h.trans hc.symm
  | _ => simp_all [Linked, returned, calling]

theorem entering_inside {c : Pc} (h : isEntering c = true) : inside c = true := by
  cases c <;> simp_all [isEntering, inside]

theorem leaving_outside {c : Pc} (h : isLeaving c = true) : inside c = false := by
  cases c <;> simp_all [isLeaving, inside]

/-- In a section a thread holds `internal_futex`. -/
theorem Linked.held {c : Pc} {i : FutexLock.Pc} {held : Bool} (h : Linked c i held)
    (hc : inside c = true) (hb : isEntering c = false) : held = true := by
  cases i with
  | out r => exact h.trans hc
  | unlockCas => exact h.2
  | futexWake =>
    have hl := h.1
    cases c <;> simp_all [inside, isLeaving]
  | _ => simp_all [Linked]

/-- Outside a section and in no call a thread does not hold it. -/
theorem Linked.not_held {c : Pc} {i : FutexLock.Pc} {held : Bool} (h : Linked c i held)
    (hc : inside c = false) (hb : calling c = false) : held = false := by
  cases i with
  | out r => exact h.trans hc
  | _ => simp_all [Linked, calling]

theorem Linked.asleep {c : Pc} {i : FutexLock.Pc} {held : Bool} (h : Linked c i held)
    (hc : asleep c = true) : (∃ r, i = .out r) ∧ held = false := by
  cases c <;> simp only [InheritMutex.asleep, Bool.false_eq_true] at hc
  cases i <;> simp_all [Linked, isEntering, isLeaving, inside]

/-- Nobody else is between reading the futex word and writing it. -/
theorem Inv.exclusive {s : State τ} (h : Inv s) {t u : τ} (ht : inside (s.pc t) = true)
    (hb : isEntering (s.pc t) = false) (hu : acquires (s.pc u) = true) : u = t := by
  refine h.inner.one u t ((h.linked u).held ?_ ?_) ((h.linked t).held ht hb)
  · cases hc : s.pc u <;> simp_all [acquires, inside]
  · cases hc : s.pc u <;> simp_all [acquires, isEntering]

theorem Inv.free {s : State τ} (h : Inv s) (hw : s.futex = 0) (t : τ) : s.holds t = false := by
  rcases h.word with ⟨h1, -⟩ | ⟨-, hn⟩
  · omega
  · exact hn t

theorem Inv.word_iff {s : State τ} (h : Inv s) : s.futex = 1 ↔ ∃ t, s.holds t = true := by
  rcases h.word with ⟨hw, ht⟩ | ⟨hw, hn⟩
  · exact ⟨fun _ => ht, fun _ => hw⟩
  · constructor
    · omega
    · rintro ⟨t, ht⟩
      rw [hn t] at ht
      cases ht

/-- Awake in both futex queues, and holding `internal_futex`, about to wake a thread that sleeps
on it, or on the way back to its compare-and-swap. -/
def passes (s : State τ) (t : τ) : Prop :=
  s.pc t ≠ .asleep ∧ s.internal.pc t ≠ .asleep ∧
    (s.internal.holds t = true ∨ FutexLock.attends (s.internal.pc t) = true)

/-- A thread that sleeps on `internal_futex` does so because of one that will pass it on. -/
theorem Inv.internal_passes {s : State τ} (h : Inv s) (hs : ∃ t, s.internal.pc t = .asleep) :
    ∃ u, passes s u := by
  have awake : ∀ u, s.internal.holds u = true ∨ FutexLock.attends (s.internal.pc u) = true →
      s.pc u ≠ .asleep := by
    rintro u hu hc
    obtain ⟨⟨r, hr⟩, hh⟩ := (h.linked u).asleep (by rw [hc]; rfl)
    simp [hr, hh, FutexLock.attends, FutexLock.contends] at hu
  rcases h.inner.word with ⟨-, u, hu⟩ | ⟨hw, -⟩
  · refine ⟨u, awake u (.inl hu), fun hc => ?_, .inl hu⟩
    have hl := h.linked u
    rw [hc, hu] at hl
    cases hl.2
  · obtain ⟨v, hv⟩ := hs
    obtain ⟨u, hu⟩ := h.inner.attended hw ⟨v, by rw [hv]; rfl⟩
    exact ⟨u, awake u (.inr hu), fun hc => by simp [hc, FutexLock.attends, FutexLock.contends] at hu, .inr hu⟩

theorem Inv.noLostWakeup {s : State τ} (h : Inv s) (hw : s.futex = 0) (hs : ∃ t, s.pc t = .asleep) :
    (∃ t, s.pc t = .futexWake) ∨
      ∃ t, contends (s.pc t) = true ∧ (s.internal.pc t = .asleep → ∃ u, passes s u) := by
  obtain ⟨u, hu⟩ := hs
  obtain ⟨v, hv⟩ := h.attended hw ⟨u, by rw [hu]; rfl⟩
  simp only [attends, Bool.or_eq_true, decide_eq_true_eq] at hv
  exact hv.imp (fun hv => ⟨v, hv⟩) (fun hv => ⟨v, hv, fun hc => h.internal_passes ⟨v, hc⟩⟩)

theorem Inv.setOwner {s : State τ} (h : Inv s) (owner : Option τ) : Inv { s with owner := owner } :=
  ⟨h.inner, h.linked, h.word, h.one, h.acquiring, h.releasing, h.attended⟩

variable [DecidableEq τ]

/-- Moving one thread to a place that agrees with `internal_futex`, which may change with it. -/
theorem Inv.move {s : State τ} (h : Inv s) {i : FutexLock.State τ} {t : τ} {c : Pc}
    (hi : FutexLock.Inv i) (hl : ∀ u, Linked (Function.update s.pc t c u) (i.pc u) (i.holds u))
    (hq : acquires c = true → s.futex = 0) (hr : releases c = true → s.holds t = true)
    (ha : s.futex = 0 → asleep c = false ∧ (attends (s.pc t) = true → attends c = true)) :
    Inv ({ s with internal := i }.goto t c) where
  inner := hi
  linked := hl
  word := h.word
  one := h.one
  acquiring := by
    intro u hu
    by_cases he : u = t
    · subst u; exact hq (by simpa [State.goto] using hu)
    · exact h.acquiring u (by simpa [State.goto, he] using hu)
  releasing := by
    intro u hu
    by_cases he : u = t
    · subst u; exact hr (by simpa [State.goto] using hu)
    · exact h.releasing u (by simpa [State.goto, he] using hu)
  attended := by
    rintro hw ⟨u, hs⟩
    obtain ⟨hc, hk⟩ := ha hw
    have hut : u ≠ t := by
      rintro rfl
      simp [State.goto, hc] at hs
    obtain ⟨v, hv⟩ := h.attended hw ⟨u, by simpa [State.goto, hut] using hs⟩
    by_cases he : v = t
    · subst v; exact ⟨t, by simpa [State.goto] using hk hv⟩
    · exact ⟨v, by simpa [State.goto, he] using hv⟩

theorem linked_update {s : State τ} (h : Inv s) {t : τ} {c : Pc}
    (hc : Linked c (s.internal.pc t) (s.internal.holds t)) (u : τ) :
    Linked (Function.update s.pc t c u) (s.internal.pc u) (s.internal.holds u) := by
  by_cases he : u = t
  · subst u; simpa using hc
  · simpa [he] using h.linked u

theorem Inv.goto {s : State τ} (h : Inv s) {t : τ} {c : Pc}
    (hl : returned (s.internal.pc t) = true ∨ calling (s.pc t) = false)
    (hc : inside c = inside (s.pc t))
    (hq : acquires c = true → s.futex = 0) (hr : releases c = true → s.holds t = true)
    (ha : s.futex = 0 → asleep c = false ∧ (attends (s.pc t) = true → attends c = true)) :
    Inv (s.goto t c) :=
  h.move h.inner (linked_update h ((h.linked t).move hl hc)) hq hr ha

/-- A thread that writes 1 in its section is the only holder. -/
theorem Inv.acquired {s : State τ} (h : Inv s) {t : τ} {f : Call} (hpc : s.pc t = .setFutex f) :
    Inv ((s.write t 1 true).goto t (.inheritAdd f)) := by
  have hz : s.futex = 0 := h.acquiring t (by rw [hpc]; rfl)
  have only : ∀ u, Function.update s.holds t true u = true → u = t := by
    intro u hu
    by_contra he
    simp [he, h.free hz u] at hu
  refine ⟨h.inner, ?_, .inl ⟨rfl, t, by simp [State.goto, State.write]⟩, ?_, ?_, ?_, ?_⟩
  · exact linked_update h ((h.linked t).move (.inr (by rw [hpc]; rfl)) (by rw [hpc]; rfl))
  · intro u v hu hv
    rw [only u hu, only v hv]
  · intro u hu
    by_cases he : u = t
    · subst u; simp [State.goto, acquires] at hu
    · have hu : acquires (s.pc u) = true := by simpa [State.goto, State.write, he] using hu
      exact absurd (h.exclusive (by rw [hpc]; rfl) (by rw [hpc]; rfl) hu) he
  · intro u hu
    by_cases he : u = t
    · subst u; simp [State.goto, releases] at hu
    · have hu := h.releasing u (by simpa [State.goto, State.write, he] using hu)
      rw [h.free hz u] at hu
      cases hu
  · exact fun h0 => absurd h0 (by simp [State.goto, State.write])

/-- The holder that writes 0 in its section is about to wake a sleeper. -/
theorem Inv.released {s : State τ} (h : Inv s) {t : τ} (hpc : s.pc t = .clearFutex) :
    Inv ((s.write t 0 false).goto t .futexWake) := by
  have ht := h.releasing t (by rw [hpc]; rfl)
  have free : ∀ u, Function.update s.holds t false u = false := by
    intro u
    by_cases he : u = t
    · subst u; simp
    · by_contra hu
      exact he (h.one u t (by simpa [he] using hu) ht)
  refine ⟨h.inner, ?_, .inr ⟨rfl, free⟩, ?_, fun _ _ => rfl, ?_, ?_⟩
  · exact linked_update h ((h.linked t).move (.inr (by rw [hpc]; rfl)) (by rw [hpc]; rfl))
  · intro u v hu
    have hu : Function.update s.holds t false u = true := hu
    rw [free u] at hu
    cases hu
  · intro u hu
    by_cases he : u = t
    · subst u; simp [State.goto, releases] at hu
    · have hu := h.releasing u (by simpa [State.goto, State.write, he] using hu)
      exact absurd (h.one u t hu ht) he
  · exact fun _ _ => ⟨t, by simp [State.goto, attends]⟩

variable [Fintype τ]

/-- A wake leaves some thread on its way back if it leaves another asleep. -/
theorem Inv.woke {s : State τ} (h : Inv s) {t : τ} {w : Option τ} {pc : τ → Pc} (hpc : s.pc t = .futexWake)
    (hwake : wakeOne asleep (fun _ => .enter .lock) (s.goto t (.leave .unlock true)).pc w = some pc) :
    Inv { s with pc := pc } := by
  have hu := linked_update h ((h.linked t).move
    (.inr (by rw [hpc]; rfl)) (show inside (.leave .unlock true) = _ by rw [hpc]; rfl))
  have hwoken := wakeOne_woken hwake
  refine ⟨h.inner, ?_, h.word, h.one, ?_, ?_, ?_⟩
  · intro u
    change Linked (pc u) _ _
    rcases hwoken u with he | ⟨hs, he⟩
    · rw [he]; exact hu u
    · rw [he]
      obtain ⟨⟨r, hr⟩, hh⟩ := (hu u).asleep hs
      change Linked _ (s.internal.pc u) (s.internal.holds u)
      rw [hr, hh]
      rfl
  · intro u hq
    have hq : acquires (pc u) = true := hq
    rcases hwoken u with he | ⟨-, he⟩
    · by_cases hut : u = t
      · subst u; simp [he, State.goto, acquires] at hq
      · exact h.acquiring u (by simpa [he, State.goto, hut] using hq)
    · simp [he, acquires] at hq
  · intro u hq
    have hq : releases (pc u) = true := hq
    rcases hwoken u with he | ⟨-, he⟩
    · by_cases hut : u = t
      · subst u; simp [he, State.goto, releases] at hq
      · exact h.releasing u (by simpa [he, State.goto, hut] using hq)
    · simp [he, releases] at hq
  · rintro - ⟨u, hs⟩
    have hs : asleep (pc u) = true := hs
    have hb : asleep ((s.goto t (.leave .unlock true)).pc u) = true := by
      rcases hwoken u with he | ⟨hb, -⟩
      · rwa [he] at hs
      · exact hb
    obtain ⟨v, -, he⟩ := wakeOne_finds hwake ⟨u, hb⟩
    exact ⟨v, by simp [he, attends, contends]⟩

/-- A step inside a call on `internal_futex` leaves every place in agreement. -/
theorem linked_internal {s : State τ} (h : Inv s) {a : FutexLock.Action τ} {i : FutexLock.State τ}
    (ha : ∀ t f, a ≠ .call t f) (hi : FutexLock.Stepped s.internal a i) (u : τ) :
    Linked (s.pc u) (i.pc u) (i.holds u) := by
  have hl := h.linked
  -- the thread that steps is `t`; what it was linked to tells which call it is in
  have hmove : ∀ t c, Linked (s.pc t) c (s.internal.holds t) →
      Linked (s.pc u) ((s.internal.goto t c).pc u) ((s.internal.goto t c).holds u) := by
    intro t c hc
    by_cases he : u = t
    · subst u; simpa [FutexLock.State.goto] using hc
    · simpa [FutexLock.State.goto, he] using hl u
  have hswap : ∀ t c w b, Linked (s.pc t) c b → Linked (s.pc u)
      (((s.internal.swap t w b).goto t c).pc u) (((s.internal.swap t w b).goto t c).holds u) := by
    intro t c w b hc
    by_cases he : u = t
    · subst u; simpa [FutexLock.State.goto, FutexLock.State.swap] using hc
    · simpa [FutexLock.State.goto, FutexLock.State.swap, he] using hl u
  cases hi with
  | call hpc => exact absurd rfl (ha _ _)
  | @locked t hpc hw =>
    have ht := hl t
    rw [hpc] at ht
    exact hswap t _ _ _ (entering_inside ht.1).symm
  | @lockFailed t hpc hw => exact hmove t _ (by simpa [hpc, Linked] using hl t)
  | @slept t hpc hw => exact hmove t _ (by simpa [hpc, Linked] using hl t)
  | @missed t hpc hw => exact hmove t _ (by simpa [hpc, Linked] using hl t)
  | @interrupted t hpc => exact hmove t _ (by simpa [hpc, Linked] using hl t)
  | @trylocked t hpc hw => exact absurd (hl t) (by simp [hpc, Linked])
  | @tryFailed t hpc hw => exact absurd (hl t) (by simp [hpc, Linked])
  | @unlocked t hpc hw =>
    have ht := hl t
    rw [hpc] at ht
    exact hswap t _ _ _ ⟨ht.1, rfl⟩
  | @unlockFailed t hpc hw => exact absurd (h.inner.word_of_holds (h.inner.unlocking t hpc)) hw
  | @woke t w pc hpc hwake =>
    have ht := hl t
    rw [hpc] at ht
    have hb := hmove t (.out 0) (by rw [ht.2]; exact (leaving_outside ht.1).symm)
    change Linked (s.pc u) (pc u) (s.internal.holds u)
    rcases wakeOne_woken hwake u with he | ⟨hs, he⟩
    · rw [he]; exact hb
    · rw [he]
      cases hc : (s.internal.goto t (.out 0)).pc u <;> rw [hc] at hs hb <;>
        simp_all [FutexLock.asleep, Linked, FutexLock.State.goto]

/-- A call on `internal_futex` begins together with a move. -/
theorem Inv.callInternal {s : State τ} (h : Inv s) {i : FutexLock.State τ} {t : τ} {c : Pc}
    {f : FutexLock.Call} (hf : f = .unlock → s.internal.holds t = true)
    (hi : FutexLock.Stepped s.internal (.call t f) i) (hl : Linked c f.entry (s.internal.holds t))
    (hq : acquires c = true → s.futex = 0) (hr : releases c = true → s.holds t = true)
    (ha : s.futex = 0 → asleep c = false ∧ (attends (s.pc t) = true → attends c = true)) :
    Inv ({ s with internal := i }.goto t c) := by
  have hin : FutexLock.Inv i := FutexLock.inv_step h.inner (by
    cases f with
    | unlock => exact hf rfl
    | _ => trivial) hi
  refine h.move hin ?_ hq hr ha
  cases hi with
  | call hpc =>
    intro u
    by_cases he : u = t
    · subst u; simpa [FutexLock.State.goto] using hl
    · simpa [FutexLock.State.goto, he] using h.linked u

/-- One step keeps the invariant, if only a holder unlocks. -/
theorem inv_step {s s' : State τ} {a : Action τ} (h : Inv s) (ha : HolderUnlocks s a)
    (hs : Stepped s a s') : Inv s' := by
  cases hs with
  | @call t f r hpc =>
    refine h.goto (.inr (by rw [hpc]; rfl)) (by simp [hpc, inside]) (by simp [acquires]) ?_
      (fun _ => ⟨rfl, by simp [hpc, attends, contends]⟩)
    cases f with
    | unlock => exact fun _ => ha
    | _ => simp [releases]
  | @internal a i hcall hi =>
    have hin : FutexLock.Inv i := FutexLock.inv_step h.inner (by cases a <;> simp_all [FutexLock.HolderUnlocks]) hi
    exact ⟨hin, linked_internal h hcall hi, h.word, h.one, h.acquiring, h.releasing, h.attended⟩
  | @enter t f w i hpc hi =>
    have ht := (h.linked t).not_held (by rw [hpc]; rfl) (by rw [hpc]; rfl)
    have hrel := h.releasing t
    rw [hpc] at hrel
    refine h.callInternal (by simp) hi ⟨rfl, ht⟩ (by simp [acquires]) ?_ (fun _ => ⟨rfl, ?_⟩)
    · cases f with
      | unlock => exact fun _ => hrel rfl
      | _ => simp [releases]
    · cases f <;> simp [hpc, attends, contends]
  | @check t f w hpc hr =>
    have hrel := h.releasing t
    rw [hpc] at hrel
    refine h.goto (.inl hr) ?_ ?_ ?_ ?_ <;> rw [hpc] at * <;> cases f <;> by_cases hz : s.futex = 0 <;>
      simp_all [check, inside, acquires, releases, asleep, attends, contends]
  | @setOwner t f w hpc =>
    refine (h.setOwner (some t)).goto (.inr (by rw [hpc]; rfl)) (by simp [hpc, inside])
      (fun _ => h.acquiring t (by rw [hpc]; rfl)) (by simp [releases]) (fun _ => ⟨rfl, ?_⟩)
    cases f <;> simp [hpc, attends, contends]
  | setFutex hpc => exact h.acquired hpc
  | @scheduled t c w hsched =>
    have hrel := h.releasing t
    cases hpc : s.pc t <;> simp only [hpc, scheduled, Option.some.injEq, reduceCtorEq] at hsched
    case inheritAdd f =>
      subst c
      refine h.goto (.inr (by rw [hpc]; rfl)) (by rw [hpc]; rfl) (by simp [acquires]) (by simp [releases])
        (fun _ => ⟨rfl, ?_⟩)
      simp [hpc, attends, contends]
    case inheritSched =>
      subst c
      exact h.goto (.inr (by rw [hpc]; rfl)) (by rw [hpc]; rfl) (by simp [acquires]) (by simp [releases])
        (fun _ => ⟨rfl, by simp [attends, contends]⟩)
    case inheritUnsched =>
      subst c
      exact h.goto (.inr (by rw [hpc]; rfl)) (by rw [hpc]; rfl) (by simp [acquires])
        (fun _ => hrel (by rw [hpc]; rfl)) (fun _ => ⟨rfl, by simp [hpc, attends, contends]⟩)
  | @clearOwner t w hpc =>
    exact (h.setOwner none).goto (.inr (by rw [hpc]; rfl)) (by simp [hpc, inside]) (by simp [acquires])
      (fun _ => h.releasing t (by rw [hpc]; rfl)) (by simp [hpc, asleep, attends, contends])
  | clearFutex hpc => exact h.released hpc
  | woke hpc hwake => exact h.woke hpc hwake
  | @leave t f l w i hpc hi =>
    have ht := (h.linked t).held (by rw [hpc]; rfl) (by rw [hpc]; rfl)
    refine h.callInternal (fun _ => ht) hi ⟨rfl, ht⟩ (by simp [acquires]) (by simp [releases])
      (fun _ => ⟨rfl, ?_⟩)
    cases f <;> cases l <;> simp [hpc, attends, contends]
  | @left t f l w hpc hr =>
    refine h.goto (.inl hr) ?_ ?_ ?_ ?_ <;> cases f <;> cases l <;>
      simp [hpc, afterSection, inside, acquires, releases, asleep, attends, contends]
  | slept hpc hf =>
    exact h.goto (.inr (by rw [hpc]; rfl)) (by simp [hpc, inside]) (by simp [acquires])
      (by simp [releases]) (fun hz => by omega)
  | missed hpc hf =>
    exact h.goto (.inr (by rw [hpc]; rfl)) (by simp [hpc, inside]) (by simp [acquires])
      (by simp [releases]) (by simp [asleep, attends, contends])
  | interrupted hpc =>
    exact h.goto (.inr (by rw [hpc]; rfl)) (by simp [hpc, inside]) (by simp [acquires])
      (by simp [releases]) (by simp [asleep, attends, contends])

theorem reaches_inv {s : State τ} (h : Reaches Initial step HolderUnlocks s) : Inv s :=
  h.invariant (fun _ h₀ => h₀ ▸ inv_start) fun _ _ _ _ hi ha hs => inv_step hi ha (step_stepped hs)

/-- The low-level lock and the futex word of a priority-inheriting mutex, in any states that their
holders' discipline reaches: one thread holds, exactly while the word is 1, and no thread sleeps
on a free word unless another is about to wake a sleeper or is on its way back to try again. -/
theorem futex_no_lost_wakeup {l : FutexLock.State τ} {m : State τ}
    (hl : Reaches FutexLock.Initial FutexLock.step FutexLock.HolderUnlocks l)
    (hm : Reaches Initial step HolderUnlocks m) :
    ((∀ t u, l.holds t = true → l.holds u = true → t = u) ∧ (l.futex = 1 ↔ ∃ t, l.holds t = true) ∧
      (l.futex = 0 → (∃ t, l.pc t = .asleep) →
        (∃ t, l.pc t = .futexWake) ∨ ∃ t, FutexLock.contends (l.pc t) = true)) ∧
    ((∀ t u, m.holds t = true → m.holds u = true → t = u) ∧ (m.futex = 1 ↔ ∃ t, m.holds t = true) ∧
      (m.futex = 0 → (∃ t, m.pc t = .asleep) → (∃ t, m.pc t = .futexWake) ∨
        ∃ t, contends (m.pc t) = true ∧ (m.internal.pc t = .asleep → ∃ u, passes m u))) := by
  have h := FutexLock.reaches_inv hl
  have h' := reaches_inv hm
  exact ⟨⟨h.one, h.word_iff, h.noLostWakeup⟩, h'.one, h'.word_iff, h'.noLostWakeup⟩

/-- Thread 1 sleeps on a word that thread 0 has just freed. -/
def freedLock (t u : τ) : List (FutexLock.Action τ) :=
  [.call t .lock, .lockCas t, .call u .lock, .lockCas u, .futexWait u, .call t .unlock, .unlockCas t]

/-- The same of a mutex, each thread going through `internal_futex` alone. -/
def freedMutex (t u : τ) : List (Action τ) :=
  [Action.call t .lock, Action.next t none, Action.internal (.lockCas t)] ++ List.replicate 5 (Action.next t none) ++
    [Action.internal (.unlockCas t), Action.internal (.futexWake t none), Action.next t none, Action.call u .lock,
      Action.next u none, Action.internal (.lockCas u)] ++ List.replicate 3 (Action.next u none) ++
    [Action.internal (.unlockCas u), Action.internal (.futexWake u none), Action.next u none, Action.next u none,
      Action.call t .unlock, Action.next t none, Action.internal (.lockCas t)] ++ List.replicate 4 (Action.next t none)

theorem futex_no_lost_wakeup_freed : ∃ (l : FutexLock.State (Fin 2)) (m : State (Fin 2)),
    (l.pc 1 = .asleep ∧ ((∃ t, l.pc t = .futexWake) ∨ ∃ t, FutexLock.contends (l.pc t) = true)) ∧
    (m.pc 1 = .asleep ∧ ((∃ t, m.pc t = .futexWake) ∨ ∃ t, contends (m.pc t) = true ∧
      (m.internal.pc t = .asleep → ∃ u, passes m u))) := by
  obtain ⟨l, hl, hlfree, hlpc⟩ : ∃ l : FutexLock.State (Fin 2),
      Reaches FutexLock.Initial FutexLock.step FutexLock.HolderUnlocks l ∧ l.futex = 0 ∧ l.pc 1 = .asleep :=
    ⟨_, Reaches.run_get (show FutexLock.Initial (.start : FutexLock.State (Fin 2)) from rfl)
      (show (run FutexLock.step FutexLock.HolderUnlocks (freedLock 0 1) .start).isSome from by decide),
      by decide, by decide⟩
  obtain ⟨m, hm, hmfree, hmpc⟩ : ∃ m : State (Fin 2),
      Reaches Initial step HolderUnlocks m ∧ m.futex = 0 ∧ m.pc 1 = .asleep :=
    ⟨_, Reaches.run_get (show Initial (State.start : State (Fin 2)) from rfl)
      (show (run step HolderUnlocks (freedMutex 0 1) .start).isSome from by decide), by decide, by decide⟩
  have h := futex_no_lost_wakeup hl hm
  exact ⟨l, m, ⟨hlpc, h.1.2.2 hlfree ⟨1, hlpc⟩⟩, hmpc, h.2.2.2 hmfree ⟨1, hmpc⟩⟩

end ThreadBites.InheritMutex

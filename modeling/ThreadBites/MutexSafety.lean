import ThreadBites.MutexPlaces

/-!
# Safety of the mutex

Only the holder writes, except for the swap or section that makes a thread the
holder, so nobody else's place is disturbed. What a call returns is decided by an
owner that is the caller exactly when the caller holds the mutex.
-/
namespace ThreadBites.Mutex

open Transition WaitQueue

variable {τ : Type} [DecidableEq τ]

/-- What an access does to the mutex, as others see it. -/
inductive Effect (m : Fields τ) (t : τ) (holds : Bool) : Fields τ → Prop where
  | look : Effect m t holds m
  | write {o n} (hh : holds = true) (ho : o = m.owner ∨ o = some t ∨ o = none) :
      Effect m t holds { m with owner := o, counter := n }
  | acquire {o} (hw : m.futex = 0) (ho : o = m.owner ∨ o = some t ∨ o = none) :
      Effect m t holds { m with futex := 1, owner := o }
  | release {o} (hh : holds = true) (hz : m.counter = 0) (ho : o = m.owner ∨ o = some t ∨ o = none) :
      Effect m t holds { m with futex := 0, owner := o }

/-- Only the holder writes, but for a write of 1 over 0. -/
theorem access_effect {m m' : Fields τ} {t : τ} {h : History} {c c' : Pc}
    (h1 : h.holds = true → m.futex = 1) (hp : Placed (view m t h) c)
    (ha : access m t c = some (m', c')) : Effect m t h.holds m' := by
  cases c with
  | idle | returned | asleep | inheritAsleep => cases ha
  | lockOwner | trylockOwner | unlockOwner | unlockFutex | checkCounter | readCounter | recheckOwner
  | readDown | checkDown | futexWait | futexWake | inheritWait => cases ha; exact .look
  | retakeOwner | resetCounter => exact hp.elim
  | takeOwner => cases ha; exact .write hp.2.1.1 (.inr (.inl rfl))
  | writeCounter f v => cases ha; exact .write hp.2.2.1.1 (.inl rfl)
  | writeDown v => cases ha; exact .write hp.2.1.1 (.inl rfl)
  | dropOwner => cases ha; exact .write hp.2.1.1 (.inr (.inr rfl))
  | setOwner f => cases ha; exact .write hp.2.1 (.inr (.inl rfl))
  | clearOwner => cases ha; exact .write hp.1 (.inr (.inr rfl))
  | protectSched f | protectUnsched =>
    obtain ⟨o, -, he⟩ := Option.map_eq_some_iff.mp ha
    cases he
    exact .look
  | futexCas | trylockCas =>
    by_cases hw : m.futex = 0
    · simp only [access, compareAndSwap_eq 1 hw] at ha
      cases ha
      exact .acquire hw (.inl rfl)
    · simp only [access, compareAndSwap_ne 1 hw] at ha
      cases ha
      exact .look
  | unlockCas =>
    obtain ⟨hh, -, -, hz⟩ := hp
    simp only [access, compareAndSwap_eq 0 (h1 hh)] at ha
    cases ha
    exact .release hh ((view_counter hh).symm.trans hz) (.inl rfl)
  | inheritLock =>
    simp only [access] at ha
    split at ha
    · rename_i hw
      cases ha
      exact .acquire hw (.inr (.inl rfl))
    · obtain ⟨o, -, he⟩ := Option.map_eq_some_iff.mp ha
      cases he
      exact .look
  | inheritTrylock =>
    simp only [access] at ha
    split at ha <;> cases ha
    · rename_i hw
      exact .acquire hw (.inr (.inl rfl))
    · exact .look
  | inheritUnlock =>
    obtain ⟨o, -, he⟩ := Option.map_eq_some_iff.mp ha
    cases he
    obtain ⟨hk, hm⟩ := hp
    have hz : (view m t h).counter = 0 := by simpa [Local.Counts, hk] using hm.2.2
    exact .release hm.1 ((view_counter hm.1).symm.trans hz) (.inr (.inr rfl))

structure Inv (s : State τ) : Prop where
  supported : Supported s.mutex.kind s.mutex.protocol
  word : s.mutex.futex = 1 ∧ (∃ t, (s.hist t).holds = true) ∨
    s.mutex.futex = 0 ∧ s.mutex.counter = 0 ∧ ∀ t, (s.hist t).holds = false
  one : ∀ t u, (s.hist t).holds = true → (s.hist u).holds = true → t = u
  placed : ∀ t, Placed (view s.mutex t (s.hist t)) (s.pc t)

theorem Inv.word_of_holds {s : State τ} (h : Inv s) {t : τ} (ht : (s.hist t).holds = true) :
    s.mutex.futex = 1 := by
  rcases h.word with ⟨hw, -⟩ | ⟨-, -, hn⟩
  · exact hw
  · rw [hn t] at ht; cases ht

theorem Inv.free {s : State τ} (h : Inv s) (hw : s.mutex.futex = 0) :
    s.mutex.counter = 0 ∧ ∀ t, (s.hist t).holds = false := by
  rcases h.word with ⟨h1, -⟩ | ⟨-, hf⟩
  · omega
  · exact hf

/-- Writing down an owner that is neither the thread nor, by its place, the old one. -/
theorem view_other {s : State τ} (h : Inv s) {t u : τ} {m : Fields τ} (hu : u ≠ t)
    (he : Effect s.mutex t (s.hist t).holds m) : view m u (s.hist u) = view s.mutex u (s.hist u) := by
  -- a holder sees no write of another thread; to anybody else the counter does not matter
  have howner : ∀ o, o = s.mutex.owner ∨ o = some t ∨ o = none → (s.hist u).holds = false →
      decide (o = some u) = decide (s.mutex.owner = some u) := by
    intro o ho hh
    have hn : s.mutex.owner ≠ some u := by
      intro hown
      have := (h.placed u).holds_of_owns (by simpa [view] using hown)
      rw [show (s.hist u).holds = true from this] at hh
      cases hh
    rcases ho with rfl | rfl | rfl
    · rfl
    · simp [hn, Ne.symm hu]
    · simp [hn]
  have hbusy : (s.hist t).holds = true → (s.hist u).holds = false := by
    intro ht
    by_contra hh
    exact hu (h.one u t (by simpa using hh) ht)
  cases he with
  | look => rfl
  | write hh ho => simp [view, howner _ ho (hbusy hh), hbusy hh]
  | acquire hw ho => simp [view, howner _ ho ((h.free hw).2 u), (h.free hw).2 u]
  | release hh hz ho => simp [view, howner _ ho (hbusy hh), hbusy hh]

theorem Inv.placed_accessed {s : State τ} (h : Inv s) {t : τ} {m : Fields τ} {c : Pc}
    (ha : access s.mutex t (s.pc t) = some (m, c)) (u : τ) :
    Placed (view m u ((s.accessed t m c).hist u)) ((s.accessed t m c).pc u) := by
  by_cases hu : u = t
  · subst u
    simpa [State.accessed] using
      access_placed h.supported h.word_of_holds (fun hz => (h.free hz).1) (h.placed t) ha
  · have he := access_effect h.word_of_holds (h.placed t) ha
    simpa [State.accessed, hu, view_other h hu he] using h.placed u

/-- An access, and the wake that it may issue. -/
theorem Inv.access {s : State τ} (h : Inv s) {t : τ} {m : Fields τ} {c : Pc} {pc : τ → Pc}
    (ha : access s.mutex t (s.pc t) = some (m, c)) (hw : Woken asleep resume (s.accessed t m c).pc pc) :
    Inv { s.accessed t m c with pc := pc } := by
  have hplaced : ∀ u, Placed (view m u ((s.accessed t m c).hist u)) (pc u) :=
    fun u => Placed.woken hw (h.placed_accessed ha u)
  have holds_other : ∀ u, u ≠ t → ((s.accessed t m c).hist u).holds = (s.hist u).holds := by
    intro u hu
    simp [State.accessed, hu]
  have holds_same : m.futex = s.mutex.futex → ∀ u, ((s.accessed t m c).hist u).holds = (s.hist u).holds := by
    intro hf u
    by_cases hu : u = t
    · subst u; simp [State.accessed, History.record, hf]
    · exact holds_other u hu
  have holds_self : m.futex ≠ s.mutex.futex → ((s.accessed t m c).hist t).holds = decide (m.futex = 1) := by
    intro hf
    simp [State.accessed, History.record, hf]
  cases access_effect h.word_of_holds (h.placed t) ha with
  | look =>
    have hsame := holds_same rfl
    have hword := h.word
    simp only [← hsame] at hword
    exact ⟨h.supported, hword, by simpa only [hsame] using h.one, hplaced⟩
  | @write o n hh ho =>
    have hsame := holds_same rfl
    refine ⟨h.supported, .inl ⟨h.word_of_holds hh, t, ?_⟩, ?_, hplaced⟩
    · simpa only [hsame] using hh
    · simpa only [hsame] using h.one
  | @acquire o hz ho =>
    have hself := holds_self (by simp [hz])
    have only : ∀ u, ((s.accessed t { s.mutex with futex := 1, owner := o } c).hist u).holds = true → u = t := by
      intro u hu
      by_contra hne
      rw [holds_other u hne, (h.free hz).2 u] at hu
      cases hu
    refine ⟨h.supported, .inl ⟨rfl, t, by simpa using hself⟩, ?_, hplaced⟩
    intro u v hu hv
    rw [only u hu, only v hv]
  | @release o hh hz ho =>
    have hself := holds_self (by simp [h.word_of_holds hh])
    have free : ∀ u, ((s.accessed t { s.mutex with futex := 0, owner := o } c).hist u).holds = false := by
      intro u
      by_cases hu : u = t
      · subst u; simpa using hself
      · rw [holds_other u hu]
        by_contra hn
        exact hu (h.one u t (by simpa using hn) hh)
    refine ⟨h.supported, .inr ⟨rfl, hz, free⟩, ?_, hplaced⟩
    intro u v hu
    have hu : ((s.accessed t { s.mutex with futex := 0, owner := o } c).hist u).holds = true := hu
    rw [free u] at hu
    cases hu

theorem inv_start {k : Kind} {p : Protocol} (hs : Supported k p) : Inv (State.start k p : State τ) where
  supported := hs
  word := .inr ⟨rfl, rfl, fun _ => rfl⟩
  one := by simp [State.start]
  placed := by
    intro t
    refine ⟨by simp [view, State.start], ?_, by simp [view, State.start]⟩
    simp [Local.Counts, view, State.start]

/-- A call leaves every thread's holding as it is. -/
theorem holds_called (s : State τ) (t u : τ) :
    (Function.update s.hist t (s.hist t).call u).holds = (s.hist u).holds := by
  by_cases hu : u = t
  · subst u; simp [History.call]
  · simp [hu]

theorem view_called (s : State τ) (t u : τ) :
    view s.mutex u (Function.update s.hist t (s.hist t).call u) = view s.mutex u (s.hist u) := by
  by_cases hu : u = t
  · subst u; simp [History.call, view]
  · simp [hu]

/-- One step keeps the invariant, if only a holder unlocks a normal mutex. -/
theorem inv_step {s s' : State τ} {a : Action τ} (h : Inv s) (hd : HolderUnlocks s a)
    (hs : Stepped s a s') : Inv s' := by
  cases hs with
  | @call t f hpc =>
    refine ⟨h.supported, by simpa only [holds_called] using h.word, ?_, ?_⟩
    · simpa only [holds_called] using h.one
    · intro u
      simp only [view_called]
      by_cases hu : u = t
      · subst u
        have hset : (view s.mutex t (s.hist t)).Settled := by
          have hp := h.placed t
          cases hc : s.pc t <;> simp [hc, inCall] at hpc <;> rw [hc] at hp <;> exact hp
        have hunlock : f = .unlock → s.mutex.kind = .normal → (s.hist t).holds = true := by
          rintro rfl
          exact hd
        rw [Function.update_self]
        exact placed_entry s.mutex.protocol hset hunlock
      · simpa [hu] using h.placed u
  | next ha hw => exact h.access ha hw
  | @interrupt t hpc =>
    refine ⟨h.supported, h.word, h.one, fun u => ?_⟩
    by_cases hu : u = t
    · subst u; simpa using (h.placed t).resume hpc
    · simpa [hu] using h.placed u

variable [Fintype τ]

theorem reaches_inv {s : State τ} (h : Reaches Initial step HolderUnlocks s) : Inv s :=
  h.invariant (fun _ ⟨_, _, hs, h₀⟩ => h₀ ▸ inv_start hs) fun _ _ _ _ hi ha hs =>
    inv_step hi ha (step_stepped hs)

end ThreadBites.Mutex

import ThreadBites.Cancellation

/-!
# No request is lost

A signal that arrives while the thread has disabled or deferred cancellation is
dropped, and what makes up for it is that each call that lets the thread be
cancelled again ends with `tbthread_testcancel`.
-/
namespace ThreadBites.Cancel

open Transition

variable {γ : Type}

/-- A frame is about to call `tbthread_exit`. -/
def State.leaving (s : State γ) : Prop := s.pc = .test .exit ∨ s.signal = .handling (.test .exit)

/-- The request is on its way to the thread, or the thread on its way to it. -/
def State.hears (s : State γ) : Prop := s.pending = true ∨ (∃ c, s.cancel c = .send) ∨ s.willTest

/-- What a step can do: move a frame or a call, request the cancellation, set or clear a bit that the
thread asked for, begin the cancellation, or call `tbthread_exit` for it. -/
inductive Effect (s t : State γ) : Prop where
  | moved (hstatus : t.status = s.status) (hexits : t.exits = s.exits) (hleave : t.leaving → s.leaving)
      (hhear : Urgent s.status → s.hears → t.hears)
  | requested (hstatus : t.status = put .canceling true s.status) (hexits : t.exits = s.exits)
      (hleave : t.leaving → s.leaving) (hhear : Urgent t.status → t.hears)
  | called (c : Call) (hstatus : t.status = put c.bit c.value s.status) (hexits : t.exits = s.exits)
      (hleave : ¬ t.leaving) (hhear : c.tests = true → t.hears)
  | began (hacts : acts s.status = true) (hstatus : t.status = put .canceled true s.status)
      (hexits : t.exits = s.exits)
  | left (hleave : s.leaving) (hstatus : t.status = s.status) (hexits : t.exits = s.exits + 1)
      (hgone : ¬ t.leaving)

/-- An urgent request makes `tbthread_testcancel` act. -/
theorem acts_of_urgent {val : BitVec 8} (h : Urgent val) : acts val = true :=
  acts_iff.mpr ⟨h.2.1, h.1, h.2.2.2⟩

theorem State.hears_of_pc {s : State γ} (h : s.pc.willTest = true) : s.hears := .inr (.inr (.inl h))

theorem State.hears_of_signal {s : State γ} {p : HandlerPc} (h : s.signal = .handling p)
    (hp : p.willTest s.status = true) : s.hears := .inr (.inr (.inr ⟨p, h, hp⟩))

/-- The thread moves on to a place that tests if the place before it did. -/
theorem hears_moved {s : State γ} {p : Pc} (h : s.hears) (hp : s.pc.willTest = true → p.willTest = true) :
    { s with pc := p }.hears := by
  rcases h with h | h | h | h
  · exact .inl h
  · exact .inr (.inl h)
  · exact .inr (.inr (.inl (hp h)))
  · exact .inr (.inr (.inr h))

/-- The handler moves on, or returns where it does not test. -/
theorem hears_handled {s : State γ} {g : Signal} (h : s.hears)
    (hg : ∀ p, s.signal = .handling p → p.willTest s.status = true →
      ∃ q, g = .handling q ∧ q.willTest s.status = true) : { s with signal := g }.hears := by
  rcases h with h | h | h | ⟨p, h, hp⟩
  · exact .inl h
  · exact .inr (.inl h)
  · exact .inr (.inr (.inl h))
  · exact .inr (.inr (.inr (hg p h hp)))

theorem not_leaving {s : State γ} (hpc : s.pc ≠ .test .exit) (hsignal : s.signal ≠ .handling (.test .exit)) :
    ¬ s.leaving := fun h => h.elim hpc hsignal

theorem leaving_handled {s : State γ} {g : Signal} (hg : g ≠ .handling (.test .exit))
    (h : { s with signal := g }.leaving) : s.leaving := .inl (h.resolve_right hg)

theorem main_effect {s t : State γ} (hh : s.signal.handles = false) (hs : s.main = some t) : Effect s t := by
  have hno : ∀ p, s.signal ≠ .handling p := fun p he => by rw [he] at hh; cases hh
  unfold State.main at hs
  split at hs
  · cases hs
  · rename_i c hpc
    cases hs
    refine .moved rfl rfl (fun h => absurd h (not_leaving (by simp) (hno _))) fun _ h => hears_moved h fun hp => ?_
    rwa [hpc] at hp
  · rename_i c val hpc
    split at hs
    · cases hs
      refine .called c rfl rfl (not_leaving ?_ (hno _)) fun htests => State.hears_of_pc ?_
      · simp only [Call.after]
        split <;> simp
      · simp only [Call.after, if_pos htests]
        rfl
    · cases hs
      refine .moved rfl rfl (fun h => absurd h (not_leaving (by simp) (hno _))) fun _ h => hears_moved h fun hp => ?_
      rwa [hpc] at hp
  · rename_i hpc
    cases hs
    exact .left (.inl hpc) rfl rfl (not_leaving (by simp) (hno _))
  · rename_i p hne hpc
    cases p with
    | exit => exact absurd rfl hne
    | read =>
      by_cases hacts : acts s.status = true
      · simp only [TestPc.next, dif_pos hacts] at hs
        cases hs
        exact .moved rfl rfl (fun h => absurd h (not_leaving (by simp) (hno _)))
          fun _ h => hears_moved h fun _ => rfl
      · simp only [TestPc.next, dif_neg hacts] at hs
        cases hs
        exact .moved rfl rfl (fun h => absurd h (not_leaving (by simp) (hno _)))
          fun hurgent => absurd (acts_of_urgent hurgent) hacts
    | swap val =>
      by_cases he : s.status = val
      · simp only [TestPc.next, if_pos he] at hs
        cases hs
        exact .began (he ▸ val.2) rfl rfl
      · simp only [TestPc.next, if_neg he] at hs
        cases hs
        exact .moved rfl rfl (fun h => absurd h (not_leaving (by simp) (hno _)))
          fun _ h => hears_moved h fun _ => rfl

theorem handle_effect {s : State γ} {p : HandlerPc} (hp : s.signal = .handling p) : Effect s (s.handle p) := by
  cases p with
  | check =>
    refine .moved rfl rfl (leaving_handled ?_) fun hurgent h => hears_handled h fun q _ _ => ?_
    · split <;> simp
    · exact ⟨.test .read, by simp [hurgent.2.2.1], rfl⟩
  | test p =>
    cases p with
    | exit => exact .left (.inr hp) rfl rfl (not_leaving (by simp [State.handle]) (by simp [State.handle]))
    | read =>
      by_cases hacts : acts s.status = true
      · simp only [State.handle, TestPc.next, dif_pos hacts]
        exact .moved rfl rfl (leaving_handled (by simp)) fun _ h => hears_handled h fun q _ _ => ⟨_, rfl, rfl⟩
      · simp only [State.handle, TestPc.next, dif_neg hacts]
        exact .moved rfl rfl (leaving_handled (by simp)) fun hurgent => absurd (acts_of_urgent hurgent) hacts
    | swap val =>
      by_cases he : s.status = val
      · simp only [State.handle, TestPc.next, if_pos he]
        exact .began (he ▸ val.2) rfl rfl
      · simp only [State.handle, TestPc.next, if_neg he]
        exact .moved rfl rfl (leaving_handled (by simp)) fun _ h => hears_handled h fun q _ _ => ⟨_, rfl, rfl⟩

/-- Code of the program calls a function. -/
theorem user_effect {s : State γ} {p : Pc} (hu : s.inUser) (hp : p ≠ .test .exit) : Effect s { s with pc := p } := by
  have hno : s.signal ≠ .handling (.test .exit) := fun he => by
    have h := hu.2
    rw [he] at h
    cases h
  refine .moved rfl rfl (fun h => absurd h (not_leaving hp hno)) fun _ h => hears_moved h fun htest => ?_
  rw [hu.1] at htest
  cases htest

theorem call_effect {s : State γ} {arg : Int} {c : Bool → Call} (hu : s.inUser) : Effect s (s.call arg c) := by
  unfold State.call
  split
  · exact user_effect hu (by simp)
  · split
    · exact user_effect hu (by simp)
    · exact .moved rfl rfl id fun _ h => h

/-- A request that is urgent is heard, and `tbthread_exit` is called once for it. -/
structure Inv (s : State γ) : Prop where
  heard : Urgent s.status → s.hears
  one : s.exits ≤ 1
  unbegun : has .canceled s.status = false → s.exits = 0 ∧ ¬ s.leaving
  leaving : s.leaving → s.exits = 0 ∧ has .enabled s.status = true ∧ has .canceling s.status = true

theorem Inv.step {s t : State γ} (h : Inv s) (he : Effect s t) : Inv t := by
  cases he with
  | moved hstatus hexits hleave hhear =>
    rw [← hstatus] at hhear
    refine ⟨fun hurgent => hhear hurgent (h.heard (hstatus ▸ hurgent)), hexits ▸ h.one, fun hc => ?_, fun hl => ?_⟩
    · obtain ⟨he, hl⟩ := h.unbegun (hstatus ▸ hc)
      exact ⟨hexits.trans he, fun ht => hl (hleave ht)⟩
    · rw [hexits, hstatus]
      exact h.leaving (hleave hl)
  | requested hstatus hexits hleave hhear =>
    refine ⟨hhear, hexits ▸ h.one, fun hc => ?_, fun hl => ?_⟩
    · obtain ⟨he, hl⟩ := h.unbegun (by simpa [hstatus] using hc)
      exact ⟨hexits.trans he, fun ht => hl (hleave ht)⟩
    · obtain ⟨he, hen, -⟩ := h.leaving (hleave hl)
      rw [hexits, hstatus]
      exact ⟨he, by simpa using hen, by simp⟩
  | called c hstatus hexits hleave hhear =>
    refine ⟨fun hurgent => hhear ?_, hexits ▸ h.one, fun hc => ⟨hexits.trans ?_, hleave⟩, fun hl => absurd hl hleave⟩
    · rw [hstatus] at hurgent
      cases c with
      | setcancelstate enable => simpa [Call.bit, Call.value, Call.tests] using hurgent.2.1
      | setcanceltype deferred => rfl
    · refine (h.unbegun ?_).1
      rw [hstatus] at hc
      cases c <;> simpa [Call.bit] using hc
  | began hacts hstatus hexits =>
    obtain ⟨hen, hcan, hnot⟩ := acts_iff.mp hacts
    obtain ⟨hz, -⟩ := h.unbegun hnot
    refine ⟨fun hurgent => ?_, hexits ▸ h.one, fun hc => ?_, fun _ => ?_⟩
    · have hno := hurgent.2.2.2
      simp [hstatus] at hno
    · simp [hstatus] at hc
    · rw [hexits, hstatus]
      exact ⟨hz, by simpa using hen, by simpa using hcan⟩
  | left hleave hstatus hexits hgone =>
    obtain ⟨hz, -, -⟩ := h.leaving hleave
    have hbegun : has .canceled t.status ≠ false := fun hc => (h.unbegun (hstatus ▸ hc)).2 hleave
    refine ⟨fun hurgent => absurd hurgent.2.2.2 hbegun, by omega, fun hc => absurd hc hbegun, fun hl => absurd hl hgone⟩

theorem inv_start {status : BitVec 8} (hstatus : has .canceling status = false) : Inv (State.start γ status) where
  heard := fun h => absurd h.1 (by simp [State.start, hstatus])
  one := Nat.zero_le 1
  unbegun := fun _ => ⟨rfl, not_leaving (by simp [State.start]) (by simp [State.start])⟩
  leaving := fun h => absurd h (not_leaving (by simp [State.start]) (by simp [State.start]))

/-- No step clears a request, or that it was acted on. -/
theorem Effect.kept {s t : State γ} (he : Effect s t) :
    (has .canceling s.status = true → has .canceling t.status = true) ∧
      (has .canceled s.status = true → has .canceled t.status = true) := by
  cases he with
  | moved hstatus => rw [hstatus]; exact ⟨id, id⟩
  | requested hstatus => rw [hstatus]; simp
  | called c hstatus => rw [hstatus]; cases c <;> simp [Call.bit]
  | began _ hstatus => rw [hstatus]; simp
  | left _ hstatus => rw [hstatus]; exact ⟨id, id⟩

variable [DecidableEq γ]

/-- A call of `tbthread_cancel` moves on from where it was not to send. -/
theorem hears_goto {s : State γ} {c : γ} {p : CancelPc} (h : s.hears) (hc : s.cancel c ≠ .send) :
    (s.goto c p).hears := by
  rcases h with h | ⟨d, h⟩ | h
  · exact .inl h
  · have hne : d ≠ c := fun he => hc (he ▸ h)
    exact .inr (.inl ⟨d, by simp [State.goto, hne, h]⟩)
  · exact .inr (.inr h)

theorem goto_effect {s : State γ} {c : γ} {p : CancelPc} (hc : s.cancel c ≠ .send) : Effect s (s.goto c p) :=
  .moved rfl rfl id fun _ h => hears_goto h hc

theorem canceller_effect {s t : State γ} {c : γ} (hs : s.canceller c = some t) : Effect s t := by
  unfold State.canceller at hs
  split at hs
  · rename_i hc
    split at hs
    · cases hs
      exact .moved rfl rfl id fun _ h => hears_goto (p := .find) (show { s with mutex := some c }.hears from h)
        (by simp [hc])
    · cases hs
  · rename_i hc
    cases hs
    exact goto_effect (by simp [hc])
  · rename_i val hc
    split at hs
    · rename_i he
      cases hs
      refine .requested (by rw [he]; rfl) rfl id fun hurgent => ?_
      have henabled : has .enabled val = true := by simpa [State.goto] using hurgent.2.1
      have hdeferred : has .deferred val = false := by simpa [State.goto] using hurgent.2.2.1
      have hsignals : signals val = true := by simp [signals, henabled, hdeferred]
      exact .inr (.inl ⟨c, by simp [State.goto, hsignals]⟩)
    · cases hs
      exact goto_effect (by simp [hc])
  · cases hs
    exact .moved rfl rfl id fun _ _ => .inl rfl
  · rename_i ret hc
    cases hs
    exact .moved rfl rfl id fun _ h => hears_goto (show { s with mutex := none }.hears from h) (by simp [hc])
  · cases hs

theorem step_effect {s t : State γ} {a : Action γ} (hs : step s a = some t) : Effect s t := by
  cases a with
  | setcancelstate state =>
    obtain ⟨hu, he⟩ := Option.ite_none_right_eq_some.mp hs
    cases he
    exact call_effect hu
  | setcanceltype type =>
    obtain ⟨hu, he⟩ := Option.ite_none_right_eq_some.mp hs
    cases he
    exact call_effect hu
  | testcancel =>
    obtain ⟨hu, he⟩ := Option.ite_none_right_eq_some.mp hs
    cases he
    exact user_effect hu (by simp)
  | own =>
    simp only [step] at hs
    split at hs
    · rename_i p hp
      cases hs
      exact handle_effect hp
    · rename_i hno
      refine main_effect ?_ hs
      cases hsig : s.signal with
      | handling p => exact absurd hsig (hno p)
      | unblocked => rfl
      | blocked => rfl
  | deliver =>
    obtain ⟨-, he⟩ := Option.ite_none_right_eq_some.mp hs
    cases he
    refine .moved rfl rfl (leaving_handled (by simp)) fun hurgent _ => State.hears_of_signal rfl ?_
    simp [HandlerPc.willTest, hurgent.2.2.1]
  | cancel c =>
    simp only [step] at hs
    split at hs
    · rename_i ret hc
      cases hs
      exact goto_effect (by simp [hc])
    · cases hs
  | find c found =>
    obtain ⟨hc, he⟩ := Option.ite_none_right_eq_some.mp hs
    cases he
    exact goto_effect (by simp [hc])
  | next c => exact canceller_effect hs

theorem reaches_inv {s : State γ} (h : Reaches Initial step anyStep s) : Inv s := by
  refine h.invariant (I := Inv) (fun _ h₀ => ?_) fun _ _ _ _ hi _ hs => hi.step (step_effect hs)
  rcases h₀ with rfl | rfl
  · exact inv_start (by decide)
  · exact inv_start (by decide)

/-- In every reached state a request is heard, and it is acted on once. -/
theorem cancellation_answered {s : State γ} (h : Reaches Initial step anyStep s) : Answered s where
  heard := (reaches_inv h).heard
  kept := fun _ _ hs => (step_effect hs).kept
  once := (reaches_inv h).one
  rightly := by
    intro a t hs hlt
    cases step_effect hs with
    | left hleave => exact ((reaches_inv h).leaving hleave).2
    | moved _ hexits => omega
    | requested _ hexits => omega
    | called _ _ hexits => omega
    | began _ _ hexits => omega

/-- The thread makes its cancellation asynchronous, is cancelled, and gets the signal. -/
def cancelledRun (c : γ) : List (Action γ) :=
  [.setcanceltype 0, .own, .own, .own, .cancel c, .next c, .find c true, .next c, .next c, .next c,
    .deliver, .own, .own, .own, .own]

theorem cancellation_answered_signal : ∃ s : State Unit, Reaches Initial step anyStep s ∧ s.exits = 1 ∧ Answered s := by
  obtain ⟨s, hr, hexits⟩ : ∃ s : State Unit, Reaches Initial step anyStep s ∧ s.exits = 1 :=
    ⟨_, Reaches.run_get (.inl rfl) (show (run step anyStep (cancelledRun ()) (State.start Unit createdStatus)).isSome
      from by decide), by decide⟩
  exact ⟨s, hr, hexits, cancellation_answered hr⟩

end ThreadBites.Cancel

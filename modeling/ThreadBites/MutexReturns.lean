import ThreadBites.MutexSafety

/-!
# Holding a mutex, by what the calls returned

Holding is a matter of the futex word. It is also a matter of what the calls of a
thread returned: outside of its calls a thread holds the mutex exactly when more
of its locks returned 0 than of its unlocks. A mutex that does not count is taken
and given back in one access, some accesses before the call returns.
-/
namespace ThreadBites.Mutex

open Transition WaitQueue

variable {τ : Type}

/-- A lock or trylock that has the mutex and is still to return. -/
def taken : Pc → Nat
  | .setOwner _ | .protectSched _ => 1
  | _ => 0

/-- An unlock that has given the mutex back and is still to return. -/
def given : Pc → Nat
  | .futexWake => 1
  | _ => 0

/-- The calls of a thread at a place that returned 0 account for what it holds. -/
structure Accounted (k : Kind) (h : History) (c : Pc) : Prop where
  total : k ≠ .recursive → h.locks + taken c = h.unlocks + given c + h.holds.toNat
  locked : ∀ f, c = .returned f 0 → f ≠ .unlock → h.holds = true
  unlocked : c = .returned .unlock 0 → k ≠ .recursive → h.holds = false

theorem taken_protoEntry (p : Protocol) (f : Op) : taken (protoEntry p f) = 0 := by
  cases p <;> cases f <;> rfl

theorem given_protoEntry (p : Protocol) (f : Op) : given (protoEntry p f) = 0 := by
  cases p <;> cases f <;> rfl

theorem taken_entry (k : Kind) (p : Protocol) (f : Op) : taken (entry k p f) = 0 := by
  cases k <;> cases f <;> first | rfl | exact taken_protoEntry p _

theorem given_entry (k : Kind) (p : Protocol) (f : Op) : given (entry k p f) = 0 := by
  cases k <;> cases f <;> first | rfl | exact given_protoEntry p _

theorem protoEntry_ne_zero (p : Protocol) (f : Op) (g : Op) : protoEntry p f ≠ .returned g 0 := by
  cases p <;> cases f <;> simp [protoEntry]

theorem entry_ne_zero (k : Kind) (p : Protocol) (f : Op) (g : Op) : entry k p f ≠ .returned g 0 := by
  cases k <;> cases f <;> first | exact protoEntry_ne_zero p _ g | simp [entry]

/-- A mutex that does not count is back with its caller as soon as the layer of the protocols is done. -/
theorem afterProto_zero {k : Kind} (hk : k ≠ .recursive) (f : Op) : afterProto k f 0 = .returned f 0 := by
  cases k with
  | recursive => exact absurd rfl hk
  | normal => rfl
  | errorcheck => cases f <;> rfl

/-- A wait that returns goes back to the access before it. -/
theorem Accounted.resume {k : Kind} {h : History} {c : Pc} (hc : Accounted k h c) (hs : asleep c = true) :
    Accounted k h (resume c) := by
  cases c <;> simp only [asleep, Bool.false_eq_true] at hs <;>
    exact ⟨hc.total, by simp [Mutex.resume], by simp [Mutex.resume]⟩

theorem Accounted.woken {f g : τ → Pc} (h : Woken asleep Mutex.resume f g) {u : τ} {k : Kind} {i : History}
    (hc : Accounted k i (f u)) : Accounted k i (g u) := by
  rcases h u with he | ⟨hs, he⟩
  · rwa [he]
  · rw [he]; exact hc.resume hs

/-- A call begins. -/
theorem Accounted.call {k : Kind} {h : History} {c : Pc} (hc : Accounted k h c) (hpc : inCall c = false)
    (p : Protocol) (f : Op) : Accounted k h.call (entry k p f) := by
  have htaken : taken c = 0 := by cases c <;> first | rfl | cases hpc
  have hgiven : given c = 0 := by cases c <;> first | rfl | cases hpc
  refine ⟨fun hk => ?_, fun g he => absurd he (entry_ne_zero k p f g), fun he => absurd he (entry_ne_zero k p f _)⟩
  have := hc.total hk
  rw [htaken, hgiven] at this
  rw [taken_entry, given_entry]
  exact this

variable [DecidableEq τ] {m m' : Fields τ} {t : τ} {h : History} {c c' : Pc}

/-- An access that leaves the word alone and does not return 0. -/
theorem Accounted.move (hc : Accounted m.kind h c) (hf : m'.futex = m.futex) (hr : ∀ f, c' ≠ .returned f 0)
    (ht : taken c' = taken c) (hg : given c' = given c) : Accounted m.kind (h.record m m' c') c' := by
  refine ⟨fun hk => ?_, fun f he => absurd he (hr f), fun he => absurd he (hr _)⟩
  have := hc.total hk
  simpa [History.record, hf, hr, ht, hg] using this

/-- A lock that has the mutex is done with the layer of the protocols. -/
theorem Accounted.locked_proto {f : Op} (hf : f ≠ .unlock)
    (hh : (h.record m m' (afterProto m.kind f 0)).holds = true) (hn : m.kind ≠ .recursive → h.locks = h.unlocks) :
    Accounted m.kind (h.record m m' (afterProto m.kind f 0)) (afterProto m.kind f 0) := by
  refine ⟨fun hk => ?_, fun _ _ _ => hh, fun he hk => ?_⟩
  · rw [hh, afterProto_zero hk]
    have := hn hk
    cases f with
    | unlock => exact absurd rfl hf
    | _ => simp [History.record, taken, given, this]
  · rw [afterProto_zero hk] at he
    exact absurd (Pc.returned.inj he).1 hf

/-- An unlock that has given the mutex back is done with the layer of the protocols. -/
theorem Accounted.unlocked_proto (hh : (h.record m m' (afterProto m.kind .unlock 0)).holds = false)
    (hn : m.kind ≠ .recursive → h.locks = h.unlocks + 1) :
    Accounted m.kind (h.record m m' (afterProto m.kind .unlock 0)) (afterProto m.kind .unlock 0) := by
  have hunlock : ∀ f, afterProto m.kind .unlock 0 = .returned f 0 → f = .unlock := by
    intro f he
    cases hk : m.kind <;> simp [hk, afterProto] at he <;> exact he.symm
  refine ⟨fun hk => ?_, fun f he hf => absurd (hunlock f he) hf, fun _ _ => hh⟩
  rw [hh, afterProto_zero hk]
  have := hn hk
  simp [History.record, taken, given, this]

/-- A trylock that found the mutex taken. -/
theorem Accounted.busy (hc : Accounted m.kind h c) (ht : taken c = 0) (hg : given c = 0) :
    Accounted m.kind (h.record m m (afterProto m.kind .trylock (-FutexLock.EBUSY)))
      (afterProto m.kind .trylock (-FutexLock.EBUSY)) := by
  have hr : ∀ f, afterProto m.kind .trylock (-FutexLock.EBUSY) ≠ .returned f 0 := by
    intro f
    cases m.kind <;> simp [afterProto, FutexLock.EBUSY]
  refine hc.move rfl hr ?_ ?_
  · rw [ht]; cases m.kind <;> rfl
  · rw [hg]; cases m.kind <;> rfl

/-- An access of the layer of the types. -/
theorem typed_access_accounted (hp : Placed (view m t h) c) (hc : Accounted m.kind h c)
    (ha : access m t c = some (m', c')) (ht : typed c = true) : Accounted m.kind (h.record m m' c') c' := by
  have hrecursive : ∀ {f : Op}, m.kind = .recursive → m'.futex = m.futex → h.holds = true →
      Accounted m.kind (h.record m m' (.returned f 0)) (.returned f 0) := fun hk hf hh =>
    ⟨fun hn => absurd hk hn, fun _ _ _ => by simpa [History.record, hf] using hh, fun _ hn => absurd hk hn⟩
  cases c with
  | retakeOwner | resetCounter => exact hp.elim
  | lockOwner =>
    cases ha
    split
    · split
      · exact hc.move rfl (by simp [EDEADLK]) rfl rfl
      · exact hc.move rfl (by simp) rfl rfl
    · exact hc.move rfl (protoEntry_ne_zero _ _) (taken_protoEntry _ _) (given_protoEntry _ _)
  | trylockOwner =>
    cases ha
    split
    · exact hc.move rfl (by simp) rfl rfl
    · exact hc.move rfl (protoEntry_ne_zero _ _) (taken_protoEntry _ _) (given_protoEntry _ _)
  | unlockOwner =>
    cases ha
    split
    · split <;> exact hc.move rfl (by simp) rfl rfl
    · exact hc.move rfl (by simp [EPERM]) rfl rfl
  | unlockFutex =>
    cases ha
    split
    · exact hc.move rfl (by simp [EPERM]) rfl rfl
    · exact hc.move rfl (protoEntry_ne_zero _ _) (taken_protoEntry _ _) (given_protoEntry _ _)
  | takeOwner | readCounter f | recheckOwner | readDown | writeDown v =>
    cases ha
    first | exact hc.move rfl (by simp) rfl rfl | (split <;> exact hc.move rfl (by simp) rfl rfl)
  | checkCounter f =>
    cases ha
    split
    · exact hc.move rfl (by simp [EAGAIN]) rfl rfl
    · exact hc.move rfl (by simp) rfl rfl
  | writeCounter f v => cases ha; exact hrecursive hp.1 rfl hp.2.2.1.1
  | checkDown =>
    cases ha
    split
    · exact hc.move rfl (by simp) rfl rfl
    · exact hrecursive hp.1 rfl hp.2.1
  | dropOwner => cases ha; exact hc.move rfl (protoEntry_ne_zero _ _) (taken_protoEntry _ _) (given_protoEntry _ _)
  | _ => cases ht

/-- An access of the layer of the protocols. -/
theorem proto_access_accounted (h1 : h.holds = true → m.futex = 1) (hp : Placed (view m t h) c)
    (hc : Accounted m.kind h c) (ha : access m t c = some (m', c')) (ht : typed c = false) :
    Accounted m.kind (h.record m m' c') c' := by
  have hfree : m.futex = 0 → h.holds = false := fun hw => by
    by_contra hh
    have := h1 (by simpa using hh)
    omega
  -- what a thread that takes the mutex, or has it, or has given it back, has got returned so far
  have hlocking : taken c = 0 → given c = 0 → m.futex = 0 → m.kind ≠ .recursive → h.locks = h.unlocks := by
    intro hz hg hw hk
    simpa [hz, hg, hfree hw] using hc.total hk
  have hheld : h.holds = true → m.kind ≠ .recursive → h.locks + taken c = h.unlocks + given c + 1 := by
    intro hh hk
    simpa [hh] using hc.total hk
  have hgiven : h.holds = false → m.kind ≠ .recursive → h.locks + taken c = h.unlocks + given c := by
    intro hh hk
    simpa [hh] using hc.total hk
  cases c with
  | futexCas | trylockCas =>
    by_cases hw : m.futex = 0
    · simp only [access, compareAndSwap_eq 1 hw] at ha
      cases ha
      refine ⟨fun hk => ?_, by simp, by simp⟩
      simp [History.record, hw, taken, given, hlocking rfl rfl hw hk]
    · simp only [access, compareAndSwap_ne 1 hw] at ha
      cases ha
      first | exact hc.move rfl (by simp) rfl rfl | exact hc.busy rfl rfl
  | futexWait | inheritWait =>
    cases ha
    split <;> exact hc.move rfl (by simp) rfl rfl
  | setOwner f =>
    cases ha
    split
    · exact hc.move rfl (by simp) rfl rfl
    · have hh : h.holds = true := hp.2.1
      refine Accounted.locked_proto hp.1 (by simpa [History.record] using hh) fun hk => ?_
      simpa [taken, given] using hheld hh hk
  | protectSched f =>
    obtain ⟨o, -, he⟩ := Option.map_eq_some_iff.mp ha
    cases he
    have hh : h.holds = true := hp.2.1.1
    refine Accounted.locked_proto hp.1 (by simpa [History.record] using hh) fun hk => ?_
    simpa [taken, given] using hheld hh hk
  | protectUnsched =>
    obtain ⟨o, -, he⟩ := Option.map_eq_some_iff.mp ha
    cases he
    exact hc.move rfl (by simp) rfl rfl
  | clearOwner => cases ha; exact hc.move rfl (by simp) rfl rfl
  | unlockCas =>
    have hh : h.holds = true := hp.1
    have hw := h1 hh
    simp only [access, compareAndSwap_eq 0 hw] at ha
    cases ha
    refine ⟨fun hk => ?_, by simp, by simp⟩
    simpa [History.record, hw, taken, given] using hheld hh hk
  | futexWake =>
    cases ha
    have hh : h.holds = false := hp.1
    refine Accounted.unlocked_proto (by simpa [History.record] using hh) fun hk => ?_
    simpa [taken, given] using hgiven hh hk
  | inheritLock | inheritTrylock =>
    simp only [access] at ha
    split at ha
    · rename_i hw
      cases ha
      exact Accounted.locked_proto (by simp) (by simp [History.record, hw]) fun hk => hlocking rfl rfl hw hk
    · first
      | (cases ha; exact hc.busy rfl rfl)
      | (obtain ⟨o, -, he⟩ := Option.map_eq_some_iff.mp ha
         cases he
         exact hc.move rfl (by simp) rfl rfl)
  | inheritUnlock =>
    obtain ⟨o, -, he⟩ := Option.map_eq_some_iff.mp ha
    cases he
    have hh : h.holds = true := hp.2.1
    have hw := h1 hh
    refine Accounted.unlocked_proto (by simp [History.record, hw]) fun hk => ?_
    simpa [taken, given] using hheld hh hk
  | idle | returned | asleep | inheritAsleep => cases ha
  | _ => cases ht

/-- Every thread's calls account for what it holds. -/
def Accounts (s : State τ) : Prop := ∀ t, Accounted s.mutex.kind (s.hist t) (s.pc t)

omit [DecidableEq τ] in
theorem accounts_start (k : Kind) (p : Protocol) : Accounts (State.start k p : State τ) :=
  fun _ => ⟨fun _ => rfl, nofun, nofun⟩

theorem accounts_step {s s' : State τ} {a : Action τ} (h : Inv s) (hc : Accounts s) (hs : Stepped s a s') :
    Accounts s' := by
  intro u
  cases hs with
  | @call t f hpc =>
    by_cases hu : u = t
    · subst u
      simpa using (hc t).call hpc s.mutex.protocol f
    · simpa [hu] using hc u
  | @next t w m c pc ha hw =>
    refine Accounted.woken hw ?_
    have hk : m.kind = s.mutex.kind := by
      cases access_effect h.word_of_holds (h.placed t) ha <;> rfl
    change Accounted m.kind _ _
    rw [hk]
    by_cases hu : u = t
    · subst u
      simp only [State.accessed, Function.update_self]
      cases ht : typed (s.pc t) with
      | true => exact typed_access_accounted (h.placed t) (hc t) ha ht
      | false => exact proto_access_accounted h.word_of_holds (h.placed t) (hc t) ha ht
    · simpa [State.accessed, hu] using hc u
  | @interrupt t hpc =>
    by_cases hu : u = t
    · subst u
      simpa using (hc t).resume hpc
    · simpa [hu] using hc u

/-- Outside of its calls a thread holds the mutex exactly when more of its locks returned 0 than of its
unlocks, and one more at most if the mutex does not count. -/
theorem Inv.holds_iff {s : State τ} (h : Inv s) (hc : Accounts s) {t : τ} (hpc : inCall (s.pc t) = false) :
    ((s.hist t).holds = true ↔ (s.hist t).unlocks < (s.hist t).locks) ∧
    (s.mutex.kind ≠ .recursive → (s.hist t).locks ≤ (s.hist t).unlocks + 1) := by
  have hset : (view s.mutex t (s.hist t)).Settled := by
    have hp := h.placed t
    cases hc : s.pc t <;> simp [hc, inCall] at hpc <;> rw [hc] at hp <;> exact hp
  have htaken : taken (s.pc t) = 0 := by
    cases hp : s.pc t <;> rw [hp] at hpc <;> first | rfl | cases hpc
  have hgiven : given (s.pc t) = 0 := by
    cases hp : s.pc t <;> rw [hp] at hpc <;> first | rfl | cases hpc
  by_cases hk : s.mutex.kind = .recursive
  · refine ⟨?_, fun hn => absurd hk hn⟩
    have hcount : (s.hist t).locks = (s.hist t).unlocks + (view s.mutex t (s.hist t)).counter.toNat := by
      have hc := hset.2.1
      rw [Local.Counts, if_pos (show (view s.mutex t (s.hist t)).kind = .recursive from hk)] at hc
      exact hc
    constructor
    · intro hh
      have hne := hset.2.2 hk hh
      have : (view s.mutex t (s.hist t)).counter.toNat ≠ 0 := fun hz => hne (BitVec.eq_of_toNat_eq (by simpa using hz))
      omega
    · intro hlt
      by_contra hh
      have hz : (view s.mutex t (s.hist t)).counter = 0 := view_counter_free (by simpa using hh)
      rw [hz] at hcount
      simp at hcount
      omega
  · have htotal := (hc t).total hk
    rw [htaken, hgiven] at htotal
    cases hh : (s.hist t).holds <;> rw [hh] at htotal <;> simp at htotal ⊢ <;> omega

variable [Fintype τ]

theorem reaches_accounts {s : State τ} (h : Reaches Initial step HolderUnlocks s) : Accounts s :=
  h.invariant (fun _ ⟨k, p, _, h₀⟩ => h₀ ▸ accounts_start k p) fun _ _ _ hr hi _ hs =>
    accounts_step (reaches_inv hr) hi (step_stepped hs)

end ThreadBites.Mutex

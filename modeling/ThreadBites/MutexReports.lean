import ThreadBites.MutexReturns

/-!
# What the calls on a mutex return

An error is decided before the call changed anything. The checks of a type read an
owner that nobody else writes as long as the answer is the caller itself, so they
tell whether the caller held the mutex when it made the call.
-/
namespace ThreadBites.Mutex

open Transition WaitQueue
open FutexLock (compareAndSwap EBUSY)

variable {τ : Type}

/-- What a thread knows of its call at a place, of a mutex of type `k`, with counter `n` if the
thread holds it: whether it held the mutex at the call and whether it changed it since. -/
def Checked (k : Kind) (n : BitVec 64) (h : History) : Pc → Prop
  | .returned f ret => (ret ≠ 0 → h.changed = false) ∧
      (k = .errorcheck → f = .lock → (ret = -EDEADLK ↔ h.held = true)) ∧
      (k ≠ .normal → f = .unlock → (ret = -EPERM ↔ h.held = false))
  | .lockOwner | .unlockOwner => h.changed = false ∧ h.held = h.holds
  | .unlockFutex => h.changed = false ∧ h.held = true
  | .trylockOwner | .trylockCas | .inheritTrylock => h.changed = false
  | .recheckOwner | .checkCounter _ => h.changed = true → n = 0
  | .futexCas | .futexWait | .asleep | .inheritLock | .inheritWait | .inheritAsleep =>
      k = .errorcheck → h.held = false
  | .setOwner f | .protectSched f => k = .errorcheck → f = .lock → h.held = false
  | .readDown | .writeDown _ | .checkDown | .dropOwner | .protectUnsched | .clearOwner | .unlockCas
  | .futexWake | .inheritUnlock => k ≠ .normal → h.held = true
  | _ => True

theorem Checked.congr {k : Kind} {n : BitVec 64} {h h' : History} {c : Pc} (hc : Checked k n h c)
    (hh : h'.holds = h.holds) (hd : h'.held = h.held) (hch : h'.changed = h.changed) : Checked k n h' c := by
  obtain ⟨holds, locks, unlocks, held, changed⟩ := h
  obtain ⟨holds', locks', unlocks', held', changed'⟩ := h'
  simp only at hh hd hch
  subst hh hd hch
  cases c <;> exact hc

theorem checked_returned_zero {k : Kind} {n : BitVec 64} {h : History} {f : Op}
    (hl : k = .errorcheck → f = .lock → h.held = false) (hu : k ≠ .normal → f = .unlock → h.held = true) :
    Checked k n h (.returned f 0) := by
  refine ⟨fun hr => absurd rfl hr, fun hk hf => ?_, fun hk hf => ?_⟩
  · simp [hl hk hf, EDEADLK]
  · simp [hu hk hf, EPERM]

theorem checked_protoEntry_lock {k : Kind} {n : BitVec 64} {h : History} (p : Protocol)
    (hl : k = .errorcheck → h.held = false) : Checked k n h (protoEntry p .lock) := by
  cases p <;> exact hl

theorem checked_protoEntry_trylock {k : Kind} {n : BitVec 64} {h : History} (p : Protocol)
    (hc : h.changed = false) : Checked k n h (protoEntry p .trylock) := by
  cases p <;> exact hc

theorem checked_protoEntry_unlock {k : Kind} {n : BitVec 64} {h : History} (p : Protocol)
    (hu : k ≠ .normal → h.held = true) : Checked k n h (protoEntry p .unlock) := by
  cases p <;> exact hu

theorem checked_entry {k : Kind} {n : BitVec 64} {h : History} (p : Protocol) (f : Op) :
    Checked k n h.call (entry k p f) := by
  cases k <;> cases f
  case normal.lock => exact checked_protoEntry_lock p nofun
  case normal.trylock => exact checked_protoEntry_trylock p rfl
  case normal.unlock => exact checked_protoEntry_unlock p fun hn => absurd rfl hn
  case errorcheck.trylock => exact checked_protoEntry_trylock p rfl
  case recursive.trylock => exact rfl
  all_goals exact ⟨rfl, rfl⟩

theorem checked_afterProto_locked {k : Kind} {n : BitVec 64} {h : History} {f : Op} (hf : f ≠ .unlock)
    (hn : n = 0) (hl : k = .errorcheck → f = .lock → h.held = false) :
    Checked k n h (afterProto k f 0) := by
  have hz : Checked k n h (.returned f 0) := checked_returned_zero hl fun _ hu => absurd hu hf
  cases k with
  | normal => exact hz
  | errorcheck => cases f <;> exact hz
  | recursive =>
    cases f with
    | lock => trivial
    | trylock => exact fun _ => hn
    | unlock => exact absurd rfl hf

theorem checked_afterProto_busy {k : Kind} {n : BitVec 64} {h : History} (hc : h.changed = false) :
    Checked k n h (afterProto k .trylock (-EBUSY)) := by
  cases k <;> exact ⟨fun _ => hc, nofun, nofun⟩

theorem checked_afterProto_unlocked {k : Kind} {n : BitVec 64} {h : History}
    (hu : k ≠ .normal → h.held = true) : Checked k n h (afterProto k .unlock 0) := by
  have hz : Checked k n h (.returned .unlock 0) := checked_returned_zero nofun fun hk _ => hu hk
  cases k <;> exact hz

/-- A wait that returns goes back to the access before it. -/
theorem Checked.woken {f g : τ → Pc} (h : Woken asleep resume f g) {u : τ} {k : Kind} {n : BitVec 64}
    {i : History} (hp : Checked k n i (f u)) : Checked k n i (g u) := by
  rcases h u with he | ⟨hs, he⟩
  · rwa [he]
  · rw [he]
    cases hc : f u <;> rw [hc] at hs hp <;> simp only [asleep, Bool.false_eq_true] at hs <;> exact hp

/-- A holder's lock of an error-checking mutex goes no further than the check of the owner. -/
theorem Checked.lock {l : Local} {n : BitVec 64} {h : History} {c : Pc} (hp : Placed l c)
    (hk : l.kind = .errorcheck) (hc : Checked l.kind n h c) (hop : c.op = some .lock) :
    (h.held = true → c = .lockOwner ∨ c = .returned .lock (-EDEADLK)) ∧
    (c = .returned .lock (-EDEADLK) → h.held = true) := by
  have stuck : h.held = false → (h.held = true → c = .lockOwner ∨ c = .returned .lock (-EDEADLK)) :=
    fun hf hh => by rw [hf] at hh; cases hh
  cases c with
  | lockOwner => exact ⟨fun _ => .inl rfl, nofun⟩
  | returned f ret =>
    cases hop
    have hret := hc.2.1 hk rfl
    refine ⟨fun hh => .inr (by rw [hret.mpr hh]), fun he => hret.mp ?_⟩
    injection he
  | futexCas | futexWait | asleep | inheritLock | inheritWait | inheritAsleep => exact ⟨stuck (hc hk), nofun⟩
  | setOwner f | protectSched f => cases hop; exact ⟨stuck (hc hk rfl), nofun⟩
  | takeOwner | checkCounter | readCounter | writeCounter =>
    have hr := hp.1
    rw [hk] at hr
    cases hr
  | _ => cases hop

/-- An unlock of a checking mutex by another thread goes no further than the check of the owner. -/
theorem Checked.unlock {l : Local} {n : BitVec 64} {h : History} {c : Pc} (hp : Placed l c)
    (hk : l.kind ≠ .normal) (hc : Checked l.kind n h c) (hop : c.op = some .unlock) :
    (h.held = false → c = .unlockOwner ∨ c = .returned .unlock (-EPERM)) ∧
    (c = .returned .unlock (-EPERM) → h.held = false) := by
  have stuck : h.held = true → (h.held = false → c = .unlockOwner ∨ c = .returned .unlock (-EPERM)) :=
    fun ht hh => by rw [ht] at hh; cases hh
  cases c with
  | unlockOwner => exact ⟨fun _ => .inl rfl, nofun⟩
  | returned f ret =>
    cases hop
    have hret := hc.2.2 hk rfl
    refine ⟨fun hh => .inr (by rw [hret.mpr hh]), fun he => hret.mp ?_⟩
    injection he
  | unlockFutex => exact ⟨stuck hc.2, nofun⟩
  | checkCounter f | readCounter f | writeCounter f => cases hop; exact absurd rfl hp.2.1
  | setOwner f | protectSched f => cases hop; exact absurd rfl hp.1
  | readDown | writeDown | checkDown | dropOwner | protectUnsched | clearOwner | unlockCas | futexWake
  | inheritUnlock => exact ⟨stuck (hc hk), nofun⟩
  | _ => cases hop

variable [DecidableEq τ]

/-- An access that changes nothing leaves what is known as it is. -/
theorem checked_look {m : Fields τ} {t : τ} {h : History} {c c' : Pc}
    (hc : Checked m.kind (view m t h).counter h c') :
    Checked m.kind (view m t (h.record m m c)).counter (h.record m m c) c' := by
  rw [view_look]
  exact hc.congr (by simp [History.record]) rfl (by simp [History.record])

/-- A section that takes the free mutex finds the counter at 0. -/
theorem checked_inherited {m : Fields τ} {t : τ} {h : History} {f : Op} (hf : f ≠ .unlock)
    (hw : m.futex = 0) (hz : m.counter = 0) (hl : m.kind = .errorcheck → f = .lock → h.held = false) :
    Checked m.kind (view { m with owner := some t, futex := 1 } t
      (h.record m { m with owner := some t, futex := 1 } (afterProto m.kind f 0))).counter
      (h.record m { m with owner := some t, futex := 1 } (afterProto m.kind f 0)) (afterProto m.kind f 0) := by
  have hne : (1 : Int) ≠ m.futex := by omega
  rw [view_swap t h _ (some t) hne]
  exact checked_afterProto_locked hf (by simpa [Local.count] using hz) hl

/-- An access of the layer of the types. -/
theorem typed_access_checked {m m' : Fields τ} {t : τ} {h : History} {c c' : Pc}
    (h1 : h.holds = true → m.futex = 1) (hp : Placed (view m t h) c)
    (hc : Checked m.kind (view m t h).counter h c) (ha : access m t c = some (m', c')) (ht : typed c = true) :
    Checked m'.kind (view m' t (h.record m m' c')).counter (h.record m m' c') c' := by
  cases c with
  | retakeOwner | resetCounter => exact hp.elim
  | lockOwner =>
    cases ha
    refine checked_look ?_
    obtain ⟨hchanged, hheld⟩ := hc
    have howns : h.holds = decide (m.owner = some t) := hp.2.1
    split
    · rename_i ho
      split
      · refine ⟨fun _ => hchanged, fun _ _ => ?_, fun _ hu => by cases hu⟩
        simp [hheld, howns, ho]
      · exact fun hch => by rw [hchanged] at hch; cases hch
    · rename_i ho
      exact checked_protoEntry_lock _ fun _ => by simp [hheld, howns, ho]
  | trylockOwner =>
    cases ha
    refine checked_look ?_
    split
    · exact fun hch => by rw [hc] at hch; cases hch
    · exact checked_protoEntry_trylock _ hc
  | unlockOwner =>
    cases ha
    refine checked_look ?_
    obtain ⟨hchanged, hheld⟩ := hc
    have howns : h.holds = decide (m.owner = some t) := hp.2.1
    split
    · rename_i ho
      have hheld : h.held = true := by simp [hheld, howns, ho]
      split
      · exact ⟨hchanged, hheld⟩
      · exact fun _ => hheld
    · rename_i ho
      refine ⟨fun _ => hchanged, fun _ hl => (by cases hl), fun _ _ => ?_⟩
      simp [hheld, howns, ho]
  | unlockFutex =>
    cases ha
    have hw := h1 hp.2.1
    rw [if_neg (by omega)]
    exact checked_look (checked_protoEntry_unlock _ fun _ => hc.2)
  | takeOwner =>
    cases ha
    intro _
    rw [view_setOwner]
    exact hp.2.2
  | checkCounter f =>
    cases ha
    refine checked_look ?_
    obtain ⟨hk, hf, hm⟩ := hp
    have hcount := view_counter hm.1
    have hk : m.kind = .recursive := hk
    split
    · rename_i he
      refine ⟨fun _ => ?_, fun hke => absurd (hk.symm.trans hke) (by decide), fun _ hu => absurd hu hf⟩
      by_contra hch
      have hzero := hc (by simpa using hch)
      rw [hcount, he] at hzero
      exact absurd hzero (by decide)
    · trivial
  | readCounter f => cases ha; trivial
  | writeCounter f v =>
    cases ha
    have hk : m.kind = .recursive := hp.1
    exact checked_returned_zero (fun hke => absurd (hk.symm.trans hke) (by decide)) fun _ hu => absurd hu hp.2.1
  | recheckOwner =>
    cases ha
    have ho : m.owner = some t := by simpa [view] using hp.2.2.1
    rw [if_neg (by simpa using ho)]
    exact checked_look hc
  | readDown => cases ha; exact hc
  | writeDown v => cases ha; exact hc
  | checkDown =>
    cases ha
    refine checked_look ?_
    split
    · exact hc
    · exact checked_returned_zero (fun _ hl => by cases hl) fun hk _ => hc hk
  | dropOwner => cases ha; exact checked_protoEntry_unlock _ hc
  | _ => cases ht

/-- An access of the layer of the protocols. -/
theorem proto_access_checked {m m' : Fields τ} {t : τ} {h : History} {c c' : Pc}
    (h1 : h.holds = true → m.futex = 1) (hz : m.futex = 0 → m.counter = 0) (hp : Placed (view m t h) c)
    (hc : Checked m.kind (view m t h).counter h c) (ha : access m t c = some (m', c')) (ht : typed c = false) :
    Checked m'.kind (view m' t (h.record m m' c')).counter (h.record m m' c') c' := by
  cases c with
  | futexCas =>
    by_cases hw : m.futex = 0
    · simp only [access, compareAndSwap_eq 1 hw] at ha
      cases ha
      exact fun hk _ => hc hk
    · simp only [access, compareAndSwap_ne 1 hw] at ha
      cases ha
      exact hc
  | futexWait =>
    cases ha
    split <;> exact hc
  | trylockCas =>
    by_cases hw : m.futex = 0
    · simp only [access, compareAndSwap_eq 1 hw] at ha
      cases ha
      exact fun _ hl => by cases hl
    · simp only [access, compareAndSwap_ne 1 hw] at ha
      cases ha
      exact checked_look (checked_afterProto_busy hc)
  | setOwner f =>
    cases ha
    split
    · exact hc
    · refine checked_afterProto_locked hp.1 ?_ hc
      rw [view_setOwner]
      exact hp.2.2.2.2
  | protectSched f =>
    obtain ⟨o, -, he⟩ := Option.map_eq_some_iff.mp ha
    cases he
    exact checked_look (checked_afterProto_locked hp.1 hp.2.2 hc)
  | protectUnsched =>
    obtain ⟨o, -, he⟩ := Option.map_eq_some_iff.mp ha
    cases he
    exact hc
  | clearOwner => cases ha; exact hc
  | unlockCas =>
    simp only [access, compareAndSwap_eq 0 (h1 hp.1)] at ha
    cases ha
    exact hc
  | futexWake => cases ha; exact checked_look (checked_afterProto_unlocked hc)
  | inheritLock =>
    simp only [access] at ha
    split at ha
    · rename_i hw
      cases ha
      exact checked_inherited (by simp) hw (hz hw) fun hk _ => hc hk
    · obtain ⟨o, -, he⟩ := Option.map_eq_some_iff.mp ha
      cases he
      exact hc
  | inheritWait =>
    cases ha
    split <;> exact hc
  | inheritTrylock =>
    simp only [access] at ha
    split at ha <;> cases ha
    · rename_i hw
      exact checked_inherited (by simp) hw (hz hw) fun _ hl => by cases hl
    · exact checked_look (checked_afterProto_busy hc)
  | inheritUnlock =>
    obtain ⟨o, -, he⟩ := Option.map_eq_some_iff.mp ha
    cases he
    exact checked_afterProto_unlocked hc
  | idle | returned | asleep | inheritAsleep => cases ha
  | _ => cases ht

/-- An access keeps what a thread knows of its call. -/
theorem access_checked {m m' : Fields τ} {t : τ} {h : History} {c c' : Pc}
    (h1 : h.holds = true → m.futex = 1) (hz : m.futex = 0 → m.counter = 0) (hp : Placed (view m t h) c)
    (hc : Checked m.kind (view m t h).counter h c) (ha : access m t c = some (m', c')) :
    Checked m'.kind (view m' t (h.record m m' c')).counter (h.record m m' c') c' := by
  cases ht : typed c with
  | true => exact typed_access_checked h1 hp hc ha ht
  | false => exact proto_access_checked h1 hz hp hc ha ht

/-- What every thread knows of its call. -/
def Reports (s : State τ) : Prop :=
  ∀ t, Checked s.mutex.kind (view s.mutex t (s.hist t)).counter (s.hist t) (s.pc t)

theorem reports_start (k : Kind) (p : Protocol) : Reports (State.start k p : State τ) := fun _ => trivial

theorem reports_step {s s' : State τ} {a : Action τ} (h : Inv s) (hr : Reports s) (hs : Stepped s a s') :
    Reports s' := by
  intro u
  cases hs with
  | @call t f hpc =>
    by_cases hu : u = t
    · subst u
      simpa using checked_entry s.mutex.protocol f
    · simpa [hu] using hr u
  | @next t w m c pc ha hw =>
    refine Checked.woken hw ?_
    have he := access_effect h.word_of_holds (h.placed t) ha
    have hk : m.kind = s.mutex.kind := by cases he <;> rfl
    by_cases hu : u = t
    · subst u
      simpa [State.accessed] using
        access_checked h.word_of_holds (fun hz => (h.free hz).1) (h.placed t) (hr t) ha
    · simpa [State.accessed, hu, view_other h hu he, hk] using hr u
  | @interrupt t hpc =>
    refine Checked.woken (f := s.pc) (fun v => ?_) (hr u)
    by_cases hv : v = t
    · subst v; exact .inr ⟨hpc, by simp⟩
    · exact .inl (by simp [hv])

theorem Inv.word_iff {s : State τ} (h : Inv s) : s.mutex.futex = 1 ↔ ∃ t, (s.hist t).holds = true := by
  rcases h.word with ⟨hw, ht⟩ | ⟨hw, -, hn⟩
  · exact ⟨fun _ => ht, fun _ => hw⟩
  · constructor
    · omega
    · rintro ⟨t, ht⟩
      rw [hn t] at ht
      cases ht

theorem Inv.holds_of_owner {s : State τ} (h : Inv s) {t : τ} (ho : s.mutex.owner = some t) :
    (s.hist t).holds = true :=
  (h.placed t).holds_of_owns (by simpa [view] using ho)

/-- Outside its calls, the holder of a recursive mutex finds its locks less its unlocks in the
counter, which is then above 0. -/
theorem Inv.counter {s : State τ} (h : Inv s) (hk : s.mutex.kind = .recursive) {t : τ}
    (hpc : inCall (s.pc t) = false) (ht : (s.hist t).holds = true) :
    s.mutex.counter.toNat + (s.hist t).unlocks = (s.hist t).locks ∧ 0 < s.mutex.counter.toNat := by
  have hset : (view s.mutex t (s.hist t)).Settled := by
    have hp := h.placed t
    cases hc : s.pc t <;> simp [hc, inCall] at hpc <;> rw [hc] at hp <;> exact hp
  have hcount := view_counter (m := s.mutex) (t := t) ht
  have hc := hset.2.1
  have hne := hset.2.2 hk ht
  simp only [Local.Counts, show (view s.mutex t (s.hist t)).kind = .recursive from hk, if_true, hcount] at hc
  rw [hcount] at hne
  have hpos : s.mutex.counter.toNat ≠ 0 := fun hz => hne (BitVec.eq_of_toNat_eq (by simpa using hz))
  simp only [view] at hc
  omega

/-- The steps that free the word find the counter at 0. -/
theorem Inv.released_at_zero {s s' : State τ} (h : Inv s) {a : Action τ} (hs : Stepped s a s')
    (h1 : s.mutex.futex = 1) (h0 : s'.mutex.futex = 0) : s.mutex.counter = 0 := by
  cases hs with
  | call hpc => simp only at h0; omega
  | interrupt hpc => simp only at h0; omega
  | @next t w m c pc ha hw =>
    have h0 : m.futex = 0 := h0
    cases access_effect h.word_of_holds (h.placed t) ha with
    | look => omega
    | write hh ho => simp only at h0; omega
    | acquire hz ho => omega
    | release hh hz ho => exact hz

variable [Fintype τ]

theorem reaches_reports {s : State τ} (h : Reaches Initial step HolderUnlocks s) : Reports s :=
  h.invariant (fun _ ⟨k, p, _, h₀⟩ => h₀ ▸ reports_start k p) fun _ _ _ hr hi _ hs =>
    reports_step (reaches_inv hr) hi (step_stepped hs)

/-- Mutexes of every type, recursive ones with protocol `TBTHREAD_PRIO_NONE`: one thread holds, and it
does from a lock that returned 0 to the unlock that gives the mutex back; it alone is written down as the
owner, `counter` is its locks less its unlocks and the word is freed at 0, the checks report what they
should, and a call that fails changes nothing. -/
theorem mutex_safety {s : State τ} (h : Reaches Initial step HolderUnlocks s) :
    (∀ t u, (s.hist t).holds = true → (s.hist u).holds = true → t = u) ∧
    (∀ t, inCall (s.pc t) = false →
      ((s.hist t).holds = true ↔ (s.hist t).unlocks < (s.hist t).locks) ∧
      (s.mutex.kind ≠ .recursive → (s.hist t).locks ≤ (s.hist t).unlocks + 1)) ∧
    (∀ t, s.pc t = .returned .lock 0 ∨ s.pc t = .returned .trylock 0 → (s.hist t).holds = true) ∧
    (∀ t, s.pc t = .returned .unlock 0 → s.mutex.kind ≠ .recursive → (s.hist t).holds = false) ∧
    (s.mutex.futex = 1 ↔ ∃ t, (s.hist t).holds = true) ∧
    (∀ t, s.mutex.owner = some t → (s.hist t).holds = true) ∧
    (s.mutex.kind = .recursive →
      (∀ t, inCall (s.pc t) = false → (s.hist t).holds = true →
        s.mutex.counter.toNat + (s.hist t).unlocks = (s.hist t).locks ∧ 0 < s.mutex.counter.toNat) ∧
      ∀ a s', step s a = some s' → s.mutex.futex = 1 → s'.mutex.futex = 0 → s.mutex.counter = 0) ∧
    (s.mutex.kind = .errorcheck → ∀ t, (s.pc t).op = some .lock →
      ((s.hist t).held = true → s.pc t = .lockOwner ∨ s.pc t = .returned .lock (-EDEADLK)) ∧
      (s.pc t = .returned .lock (-EDEADLK) → (s.hist t).held = true)) ∧
    (s.mutex.kind ≠ .normal → ∀ t, (s.pc t).op = some .unlock →
      ((s.hist t).held = false → s.pc t = .unlockOwner ∨ s.pc t = .returned .unlock (-EPERM)) ∧
      (s.pc t = .returned .unlock (-EPERM) → (s.hist t).held = false)) ∧
    ∀ t f ret, s.pc t = .returned f ret → ret ≠ 0 → (s.hist t).changed = false := by
  have hi := reaches_inv h
  have hr := reaches_reports h
  have hc := reaches_accounts h
  refine ⟨hi.one, fun t => hi.holds_iff hc, fun t ht => ?_, fun t ht => (hc t).unlocked ht, hi.word_iff,
    fun t => hi.holds_of_owner, fun hk => ⟨fun t => hi.counter hk, ?_⟩, ?_, ?_, ?_⟩
  · rcases ht with ht | ht <;> exact (hc t).locked _ ht (by simp)
  · exact fun a s' hs => hi.released_at_zero (step_stepped hs)
  · exact fun hk t => Checked.lock (hi.placed t) hk (hr t)
  · exact fun hk t => Checked.unlock (hi.placed t) hk (hr t)
  · intro t f ret hpc hne
    have hc := hr t
    rw [hpc] at hc
    exact hc.1 hne

/-- Two threads take a recursive mutex in turns: thread 0 holds it twice over, once unlocked,
and thread 1 was refused an unlock and sleeps. -/
def nested (t u : τ) : List (Action τ) :=
  [Action.call t .lock] ++ List.replicate 7 (Action.next t none) ++ [Action.call t .trylock] ++
    List.replicate 5 (Action.next t none) ++ [Action.call t .trylock] ++ List.replicate 5 (Action.next t none) ++
    [Action.call u .unlock, Action.next u none, Action.call u .lock] ++ List.replicate 3 (Action.next u none) ++
    [Action.call t .unlock] ++ List.replicate 4 (Action.next t none)

theorem mutex_safety_nested : ∃ s : State (Fin 2), s.mutex.owner = some 0 ∧ (s.hist 0).holds = true ∧
    s.mutex.counter.toNat + (s.hist 0).unlocks = (s.hist 0).locks ∧ 0 < s.mutex.counter.toNat := by
  obtain ⟨s, hr, ho, hk, hc⟩ : ∃ s : State (Fin 2), Reaches Initial step HolderUnlocks s ∧ s.mutex.owner = some 0 ∧
      s.mutex.kind = .recursive ∧ inCall (s.pc 0) = false :=
    ⟨_, Reaches.run_get (show Initial (State.start .recursive .prioNone) from ⟨_, _, fun _ => rfl, rfl⟩)
      (show (run step HolderUnlocks (nested (0 : Fin 2) 1) (State.start .recursive .prioNone)).isSome from by decide),
      by decide, by decide, by decide⟩
  have h := mutex_safety hr
  have hh := h.2.2.2.2.2.1 0 ho
  exact ⟨s, ho, hh, (h.2.2.2.2.2.2.1 hk).1 0 hc hh⟩

end ThreadBites.Mutex

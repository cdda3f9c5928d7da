import ThreadBites.Mutex

/-!
# What each place of a mutex call is about

A thread at a place knows whether it holds the mutex, whether it is written down
as the owner, and how the counter stands to the calls it made. Every access
leads from a place that is as it should be to one that is.
-/
namespace ThreadBites.Mutex

open Transition WaitQueue
open FutexLock (compareAndSwap EBUSY)

variable {τ : Type}

/-- What the place of a thread is about: the type of the mutex, whether the thread holds it,
whether `owner` is the thread, `counter` if it holds, and its calls that returned 0. -/
structure Local where
  kind : Kind
  holds : Bool
  owns : Bool
  counter : BitVec 64
  locks : Nat
  unlocks : Nat

/-- A recursive mutex counts the locks less the unlocks, but for `n` that are still to return. -/
def Local.Counts (l : Local) (n : Nat) : Prop :=
  if l.kind = .recursive then l.locks = l.unlocks + l.counter.toNat + n else l.counter = 0

/-- In no call, or in one that has not looked at the mutex. -/
def Local.Settled (l : Local) : Prop :=
  l.holds = l.owns ∧ l.Counts 0 ∧ (l.kind = .recursive → l.holds = true → l.counter ≠ 0)

/-- Not the holder. -/
def Local.Outside (l : Local) : Prop := l.holds = false ∧ l.owns = false ∧ l.Counts 0

/-- The holder, and written down as such. -/
def Local.Mine (l : Local) (n : Nat) : Prop := l.holds = true ∧ l.owns = true ∧ l.Counts n

def Placed (l : Local) : Pc → Prop
  | .idle | .returned _ _ => l.Settled
  | .lockOwner | .unlockOwner => l.kind ≠ .normal ∧ l.Settled
  | .trylockOwner => l.kind = .recursive ∧ l.Settled
  | .unlockFutex => l.kind = .errorcheck ∧ l.Mine 0
  | .takeOwner => l.kind = .recursive ∧ l.Mine 0 ∧ l.counter = 0
  | .checkCounter f => l.kind = .recursive ∧ f ≠ .unlock ∧ l.Mine 0
  | .readCounter f => l.kind = .recursive ∧ f ≠ .unlock ∧ l.Mine 0 ∧ l.counter ≠ -1
  | .writeCounter f v => l.kind = .recursive ∧ f ≠ .unlock ∧ l.Mine 0 ∧ l.counter ≠ -1 ∧ v = l.counter
  | .recheckOwner => l.kind = .recursive ∧ l.Mine 0
  | .retakeOwner | .resetCounter => False
  | .readDown => l.kind = .recursive ∧ l.Mine 0 ∧ l.counter ≠ 0
  | .writeDown v => l.kind = .recursive ∧ l.Mine 0 ∧ l.counter ≠ 0 ∧ v = l.counter
  | .checkDown => l.kind = .recursive ∧ l.Mine 1
  | .dropOwner => l.kind = .recursive ∧ l.Mine 1 ∧ l.counter = 0
  | .futexCas | .futexWait | .asleep | .inheritLock | .inheritWait | .inheritAsleep =>
      if l.kind = .normal then l.Settled else l.Outside
  | .trylockCas | .inheritTrylock => if l.kind = .recursive then l.Outside else l.Settled
  | .setOwner f => f ≠ .unlock ∧ l.holds = true ∧ l.owns = false ∧ l.Counts 0 ∧ l.counter = 0
  | .protectSched f => f ≠ .unlock ∧ l.Mine 0 ∧ l.counter = 0
  | .protectUnsched | .inheritUnlock => l.kind ≠ .recursive ∧ l.Mine 0
  | .clearOwner => l.holds = true ∧ l.Counts 1 ∧ l.counter = 0
  | .unlockCas => l.holds = true ∧ l.owns = false ∧ l.Counts 1 ∧ l.counter = 0
  | .futexWake => l.holds = false ∧ l.owns = false ∧ l.Counts 1 ∧ l.counter = 0

/-- A call that returns 0 is counted. -/
def Local.count (l : Local) (c : Pc) : Local where
  kind := l.kind
  holds := l.holds
  owns := l.owns
  counter := l.counter
  locks := if c = .returned .lock 0 ∨ c = .returned .trylock 0 then l.locks + 1 else l.locks
  unlocks := if c = .returned .unlock 0 then l.unlocks + 1 else l.unlocks

/-- A place that is no return of 0 counts nothing. -/
theorem Local.count_eq {l : Local} {c : Pc} (h : ∀ f, c ≠ .returned f 0) : l.count c = l := by
  simp [Local.count, h]

theorem Kind.recursive_of_ne {k : Kind} (hn : k ≠ .normal) (he : k ≠ .errorcheck) : k = .recursive := by
  cases k <;> simp_all

/-- Makes the accesses of the layer of the types. -/
def typed : Pc → Bool
  | .lockOwner | .trylockOwner | .unlockOwner | .unlockFutex | .takeOwner | .checkCounter _ => true
  | .readCounter _ | .writeCounter _ _ | .recheckOwner | .retakeOwner | .resetCounter => true
  | .readDown | .writeDown _ | .checkDown | .dropOwner => true
  | _ => false

theorem Local.Counts.of_ne {l : Local} {n m : Nat} (h : l.Counts n) (hk : l.kind ≠ .recursive) :
    l.Counts m := by
  simpa [Local.Counts, hk] using h

theorem Local.Settled.outside {l : Local} (h : l.Settled) (ho : l.owns = false) : l.Outside :=
  ⟨h.1.trans ho, ho, h.2.1⟩

theorem Local.Settled.mine {l : Local} (h : l.Settled) (ho : l.owns = true) : l.Mine 0 :=
  ⟨h.1.trans ho, ho, h.2.1⟩

theorem Local.Outside.settled {l : Local} (h : l.Outside) : l.Settled :=
  ⟨h.1.trans h.2.1.symm, h.2.2, fun _ hh => by rw [h.1] at hh; cases hh⟩

theorem Local.Mine.settled {l : Local} (h : l.Mine 0) (hc : l.kind = .recursive → l.counter ≠ 0) :
    l.Settled :=
  ⟨h.1.trans h.2.1.symm, h.2.2, fun hk _ => hc hk⟩

/-- A return that counts nothing leaves a thread settled. -/
theorem placed_returned {l : Local} {f : Op} {ret : Int} (hr : ret ≠ 0) (h : l.Settled) :
    Placed (l.count (.returned f ret)) (.returned f ret) := by
  rw [Local.count_eq (by simp [hr])]
  exact h

/-- Returns of mutexes that are not counted. -/
theorem placed_returned_of_ne {l : Local} {f : Op} {ret : Int} (hk : l.kind ≠ .recursive)
    (h : l.Settled) : Placed (l.count (.returned f ret)) (.returned f ret) :=
  ⟨h.1, by simpa [Local.Counts, hk, Local.count] using h.2.1, fun hr => absurd hr hk⟩

theorem placed_protoEntry_lock {l : Local} (p : Protocol)
    (h : if l.kind = .normal then l.Settled else l.Outside) : Placed l (protoEntry p .lock) := by
  cases p <;> exact h

theorem placed_protoEntry_trylock {l : Local} (p : Protocol)
    (h : if l.kind = .recursive then l.Outside else l.Settled) : Placed l (protoEntry p .trylock) := by
  cases p <;> exact h

/-- The holder of a mutex that is not recursive goes on to release it. -/
theorem placed_protoEntry_unlock {l : Local} (p : Protocol) (hk : l.kind ≠ .recursive) (h : l.Mine 0) :
    Placed l (protoEntry p .unlock) := by
  have hc : l.counter = 0 := by simpa [Local.Counts, hk] using h.2.2
  cases p with
  | prioNone => exact ⟨h.1, h.2.2.of_ne hk, hc⟩
  | _ => exact ⟨hk, h⟩

theorem placed_entry {l : Local} {f : Op} (p : Protocol) (h : l.Settled)
    (hu : f = .unlock → l.kind = .normal → l.holds = true) : Placed l (entry l.kind p f) := by
  cases hk : l.kind with
  | normal =>
    cases f with
    | lock => exact placed_protoEntry_lock p (by simpa [hk] using h)
    | trylock => exact placed_protoEntry_trylock p (by simpa [hk] using h)
    | unlock => exact placed_protoEntry_unlock p (by simp [hk]) (h.mine (h.1.symm.trans (hu rfl hk)))
  | errorcheck =>
    cases f with
    | lock => exact ⟨by simp [hk], h⟩
    | trylock => exact placed_protoEntry_trylock p (by simpa [hk] using h)
    | unlock => exact ⟨by simp [hk], h⟩
  | recursive =>
    cases f with
    | lock => exact ⟨by simp [hk], h⟩
    | trylock => exact ⟨hk, h⟩
    | unlock => exact ⟨by simp [hk], h⟩

/-- A thread that the layer of the protocols made the owner. -/
theorem placed_afterProto_locked {l : Local} {f : Op} (hf : f ≠ .unlock) (h : l.Mine 0)
    (hc : l.counter = 0) : Placed (l.count (afterProto l.kind f 0)) (afterProto l.kind f 0) := by
  cases hk : l.kind with
  | recursive =>
    cases f with
    | lock => rw [Local.count_eq (by simp [afterProto])]; exact ⟨hk, h, hc⟩
    | trylock => rw [Local.count_eq (by simp [afterProto])]; exact ⟨hk, h⟩
    | unlock => exact absurd rfl hf
  | _ =>
    have hs := h.settled (by simp [hk])
    cases f with
    | unlock => exact absurd rfl hf
    | _ => exact placed_returned_of_ne (by simp [hk]) hs

/-- A thread that the layer of the protocols turned away. -/
theorem placed_afterProto_busy {l : Local} (h : if l.kind = .recursive then l.Outside else l.Settled) :
    Placed (l.count (afterProto l.kind .trylock (-EBUSY))) (afterProto l.kind .trylock (-EBUSY)) := by
  have hb : -EBUSY ≠ 0 := by decide
  cases hk : l.kind with
  | recursive =>
    simp only [hk, if_true] at h
    simpa only [afterProto, hb, ne_eq, not_false_eq_true, if_true] using placed_returned hb h.settled
  | _ =>
    simp only [hk, reduceCtorEq, if_false] at h
    exact placed_returned hb h

/-- A thread that released the mutex, with its unlock still to be counted. -/
theorem placed_afterProto_unlocked {l : Local} (hh : l.holds = false) (ho : l.owns = false)
    (h : l.Counts 1) (hc : l.counter = 0) :
    Placed (l.count (afterProto l.kind .unlock 0)) (afterProto l.kind .unlock 0) := by
  have he : afterProto l.kind .unlock 0 = .returned .unlock 0 := by cases l.kind <;> rfl
  rw [he]
  refine ⟨hh.trans ho.symm, ?_, fun _ ht => by simp [Local.count, hh] at ht⟩
  by_cases hk : l.kind = .recursive
  · simp only [Local.Counts, Local.count, hk, if_true, hc] at h ⊢
    simp at h ⊢
    omega
  · simpa [Local.Counts, Local.count, hk] using hc

theorem toNat_succ {n : BitVec 64} (h : n ≠ -1) : (n + 1).toNat = n.toNat + 1 := by
  bv_omega

theorem toNat_pred {n : BitVec 64} (h : n ≠ 0) : (n - 1).toNat + 1 = n.toNat := by
  bv_omega

/-- The holder of a recursive mutex adds one to the counter and returns. -/
theorem placed_counted {l : Local} {f : Op} (hk : l.kind = .recursive) (hf : f ≠ .unlock) (h : l.Mine 0)
    (hne : l.counter ≠ -1) :
    Placed (Local.count { l with counter := l.counter + 1 } (.returned f 0)) (.returned f 0) := by
  have hcount := h.2.2
  have hsucc := toNat_succ hne
  simp only [Local.Counts, hk, if_true] at hcount
  refine ⟨h.1.trans h.2.1.symm, ?_, fun _ _ => ?_⟩
  · cases f with
    | unlock => exact absurd rfl hf
    | _ => simp [Local.Counts, Local.count, hk]; omega
  · intro hz
    have hz : l.counter + 1 = 0 := hz
    rw [hz] at hsucc
    simp at hsucc

/-- An unlock that left the counter above 0 returns. -/
theorem placed_uncounted {l : Local} (hk : l.kind = .recursive) (h : l.Mine 1) (hne : l.counter ≠ 0) :
    Placed (l.count (.returned .unlock 0)) (.returned .unlock 0) := by
  have hcount := h.2.2
  simp only [Local.Counts, hk, if_true] at hcount
  refine ⟨h.1.trans h.2.1.symm, ?_, fun _ _ => hne⟩
  simp [Local.Counts, Local.count, hk]
  omega

/-- Whoever is written down as the owner holds the mutex. -/
theorem Placed.holds_of_owns {l : Local} {c : Pc} (h : Placed l c) (ho : l.owns = true) : l.holds = true := by
  cases c <;> simp_all [Placed, Local.Settled, Local.Outside, Local.Mine]

/-- A wait that returns goes back to the access before it. -/
theorem Placed.resume {l : Local} {c : Pc} (h : Placed l c) (hs : asleep c = true) : Placed l (resume c) := by
  cases c <;> simp only [Mutex.asleep, Bool.false_eq_true] at hs <;> exact h

theorem Placed.woken {f g : τ → Pc} (h : Woken asleep Mutex.resume f g) {u : τ} {l : Local}
    (hp : Placed l (f u)) : Placed l (g u) := by
  rcases h u with he | ⟨hs, he⟩
  · rwa [he]
  · rw [he]; exact hp.resume hs

variable [DecidableEq τ]

def view (m : Fields τ) (t : τ) (h : History) : Local where
  kind := m.kind
  holds := h.holds
  owns := decide (m.owner = some t)
  counter := if h.holds then m.counter else 0
  locks := h.locks
  unlocks := h.unlocks

/-- An access that changes nothing. -/
theorem view_look (m : Fields τ) (t : τ) (h : History) (c : Pc) :
    view m t (h.record m m c) = (view m t h).count c := by
  simp [view, History.record, Local.count]

theorem view_setOwner (m : Fields τ) (t : τ) (h : History) (c : Pc) (o : Option τ) :
    view { m with owner := o } t (h.record m { m with owner := o } c) =
      Local.count { view m t h with owns := decide (o = some t) } c := by
  simp [view, History.record, Local.count]

theorem view_setCounter {m : Fields τ} {t : τ} {h : History} (c : Pc) (n : BitVec 64)
    (hh : (view m t h).holds = true) :
    view { m with counter := n } t (h.record m { m with counter := n } c) =
      Local.count { view m t h with counter := n } c := by
  have hh : h.holds = true := hh
  simp [view, History.record, Local.count, hh]

/-- An access that writes 1 over 0, or 0 over 1. -/
theorem view_swap {m : Fields τ} (t : τ) (h : History) (c : Pc) {w : Int} (o : Option τ) (hf : w ≠ m.futex) :
    view { m with futex := w, owner := o } t (h.record m { m with futex := w, owner := o } c) =
      Local.count { view m t h with
        holds := decide (w = 1)
        owns := decide (o = some t)
        counter := if w = 1 then m.counter else 0 } c := by
  simp [view, History.record, Local.count, hf]

theorem protoEntry_ne_returned (p : Protocol) (f g : Op) : protoEntry p f ≠ .returned g 0 := by
  cases p <;> cases f <;> simp [protoEntry]

/-- A counter read by its holder. -/
theorem view_counter {m : Fields τ} {t : τ} {h : History} (hh : (view m t h).holds = true) :
    (view m t h).counter = m.counter := if_pos hh

theorem view_counter_free {m : Fields τ} {t : τ} {h : History} (hh : h.holds = false) :
    (view m t h).counter = 0 := by
  simp [view, hh]

/-- Whoever may wait for the mutex and finds it free is outside. -/
theorem outside_of_free {m : Fields τ} {t : τ} {h : History} {k : Kind}
    (hp : if (view m t h).kind = k then (view m t h).Settled else (view m t h).Outside)
    (hh : h.holds = false) : (view m t h).Outside := by
  split at hp
  · exact hp.outside (hp.1.symm.trans hh)
  · exact hp

theorem outside_of_free_or {m : Fields τ} {t : τ} {h : History} {k : Kind}
    (hp : if (view m t h).kind = k then (view m t h).Outside else (view m t h).Settled)
    (hh : h.holds = false) : (view m t h).Outside := by
  split at hp
  · exact hp
  · exact hp.outside (hp.1.symm.trans hh)

/-- Writing 1 over 0 makes a thread the holder that was outside. -/
theorem placed_swapped {m : Fields τ} {t : τ} {h : History} {f : Op} (hf : f ≠ .unlock)
    (hw : m.futex = 0) (hz : m.counter = 0) (ho : (view m t h).Outside) :
    Placed (view { m with futex := 1 } t (h.record m { m with futex := 1 } (.setOwner f))) (.setOwner f) := by
  have hne : (1 : Int) ≠ m.futex := by omega
  rw [view_swap t h _ m.owner hne, Local.count_eq (by simp)]
  have hc : (view m t h).counter = 0 := view_counter_free ho.1
  refine ⟨hf, by simp, ho.2.1, ?_, by simpa using hz⟩
  simpa [Local.Counts, hz, hc] using ho.2.2

/-- A section that takes the free mutex makes a thread the owner that was outside. -/
theorem placed_inherited {m : Fields τ} {t : τ} {h : History} {f : Op} (hf : f ≠ .unlock)
    (hw : m.futex = 0) (hz : m.counter = 0) (ho : (view m t h).Outside) :
    Placed (view { m with owner := some t, futex := 1 } t
      (h.record m { m with owner := some t, futex := 1 } (afterProto m.kind f 0))) (afterProto m.kind f 0) := by
  have hne : (1 : Int) ≠ m.futex := by omega
  rw [view_swap t h _ (some t) hne]
  have hc : (view m t h).counter = 0 := view_counter_free ho.1
  refine placed_afterProto_locked hf ⟨by simp, by simp, ?_⟩ (by simpa using hz)
  simpa [Local.Counts, hz, hc] using ho.2.2

/-- An access of the layer of the types keeps the thread's place. -/
theorem typed_access_placed {m m' : Fields τ} {t : τ} {h : History} {c c' : Pc}
    (hs : Supported m.kind m.protocol) (h1 : h.holds = true → m.futex = 1)
    (hp : Placed (view m t h) c) (ha : access m t c = some (m', c'))
    (hc : typed c = true) : Placed (view m' t (h.record m m' c')) c' := by
  cases c with
  | lockOwner =>
    cases ha
    obtain ⟨hk, hset⟩ := hp
    rw [view_look]
    split
    · rename_i ho
      have hm := hset.mine (by simpa [view] using ho)
      split
      · exact placed_returned (by decide) hset
      · rename_i he
        rw [Local.count_eq (by simp)]
        exact ⟨(Kind.recursive_of_ne hk he), by simp, hm⟩
    · rename_i ho
      have hout := hset.outside (by simpa [view] using ho)
      rw [Local.count_eq fun f => protoEntry_ne_returned _ _ f]
      exact placed_protoEntry_lock _ (by simpa [hk] using hout)
  | trylockOwner =>
    cases ha
    obtain ⟨hk, hset⟩ := hp
    rw [view_look]
    split
    · rename_i ho
      rw [Local.count_eq (by simp)]
      exact ⟨hk, hset.mine (by simpa [view] using ho)⟩
    · rename_i ho
      rw [Local.count_eq fun f => protoEntry_ne_returned _ _ f]
      exact placed_protoEntry_trylock _ (by simpa [hk] using hset.outside (by simpa [view] using ho))
  | unlockOwner =>
    cases ha
    obtain ⟨hk, hset⟩ := hp
    rw [view_look]
    split
    · rename_i ho
      have hm := hset.mine (by simpa [view] using ho)
      split
      · rename_i he
        rw [Local.count_eq (by simp)]
        exact ⟨he, hm⟩
      · rename_i he
        have hr := Kind.recursive_of_ne hk he
        rw [Local.count_eq (by simp)]
        exact ⟨hr, hm, hset.2.2 hr hm.1⟩
    · exact placed_returned (by decide) hset
  | unlockFutex =>
    cases ha
    obtain ⟨hk, hm⟩ := hp
    have hw := h1 hm.1
    rw [view_look, if_neg (by omega), Local.count_eq fun f => protoEntry_ne_returned _ _ f]
    exact placed_protoEntry_unlock _ (by simp [hk]) hm
  | takeOwner =>
    cases ha
    obtain ⟨hk, hm, -⟩ := hp
    rw [view_setOwner, Local.count_eq (by simp)]
    exact ⟨hk, by simp, hm.1, by simp, hm.2.2⟩
  | checkCounter f =>
    cases ha
    obtain ⟨hk, hf, hm⟩ := hp
    have hcount := view_counter hm.1
    rw [view_look]
    split
    · rename_i he
      exact placed_returned (by decide) (hm.settled fun _ => by rw [hcount, he]; decide)
    · rename_i he
      rw [Local.count_eq (by simp)]
      exact ⟨hk, hf, hm, by rwa [hcount]⟩
  | readCounter f =>
    cases ha
    obtain ⟨hk, hf, hm, hne⟩ := hp
    rw [view_look, Local.count_eq (by simp)]
    exact ⟨hk, hf, hm, hne, (view_counter hm.1).symm⟩
  | writeCounter f v =>
    cases ha
    obtain ⟨hk, hf, hm, hne, rfl⟩ := hp
    rw [view_setCounter _ _ hm.1]
    exact placed_counted hk hf hm hne
  | recheckOwner =>
    cases ha
    obtain ⟨hk, hm⟩ := hp
    have ho : m.owner = some t := by simpa [view] using hm.2.1
    rw [view_look, if_neg (by simpa using ho), Local.count_eq (by simp)]
    exact ⟨hk, by simp, hm⟩
  | retakeOwner => exact hp.elim
  | resetCounter => exact hp.elim
  | readDown =>
    cases ha
    obtain ⟨hk, hm, hne⟩ := hp
    rw [view_look, Local.count_eq (by simp)]
    exact ⟨hk, hm, hne, (view_counter hm.1).symm⟩
  | writeDown v =>
    cases ha
    obtain ⟨hk, hm, hne, rfl⟩ := hp
    rw [view_setCounter _ _ hm.1, Local.count_eq (by simp)]
    have hcount := hm.2.2
    have hpred := toNat_pred hne
    simp only [Local.Counts, hk, if_true] at hcount
    refine ⟨hk, hm.1, hm.2.1, ?_⟩
    simp only [Local.Counts, hk, if_true]
    omega
  | checkDown =>
    cases ha
    obtain ⟨hk, hm⟩ := hp
    have hcount := view_counter hm.1
    rw [view_look]
    split
    · rename_i he
      rw [Local.count_eq (by simp)]
      exact ⟨hk, hm, hcount.trans he⟩
    · rename_i he
      exact placed_uncounted hk hm (by rwa [hcount])
  | dropOwner =>
    cases ha
    obtain ⟨hk, hm, hz⟩ := hp
    have hp : m.protocol = .prioNone := hs hk
    rw [view_setOwner, Local.count_eq fun f => protoEntry_ne_returned _ _ f]
    simp only [hp]
    exact ⟨hm.1, hm.2.2, hz⟩
  | _ => cases hc

theorem compareAndSwap_eq {w o : Int} (n : Int) (h : w = o) : compareAndSwap w o n = (n, true) := if_pos h

theorem compareAndSwap_ne {w o : Int} (n : Int) (h : w ≠ o) : compareAndSwap w o n = (w, false) := if_neg h

/-- An access of the layer of the protocols keeps the thread's place. -/
theorem proto_access_placed {m m' : Fields τ} {t : τ} {h : History} {c c' : Pc}
    (h1 : h.holds = true → m.futex = 1) (hz : m.futex = 0 → m.counter = 0)
    (hp : Placed (view m t h) c) (ha : access m t c = some (m', c'))
    (hc : typed c = false) : Placed (view m' t (h.record m m' c')) c' := by
  have hfree : m.futex = 0 → h.holds = false := fun hw => by
    by_contra hh
    have := h1 (by simpa using hh)
    omega
  cases c with
  | futexCas =>
    by_cases hw : m.futex = 0
    · simp only [access, compareAndSwap_eq 1 hw] at ha
      cases ha
      exact placed_swapped (by simp) hw (hz hw) (outside_of_free hp (hfree hw))
    · simp only [access, compareAndSwap_ne 1 hw] at ha
      cases ha
      rw [view_look, Local.count_eq (by simp)]
      exact hp
  | futexWait =>
    cases ha
    rw [view_look]
    split <;> rw [Local.count_eq (by simp)] <;> exact hp
  | trylockCas =>
    by_cases hw : m.futex = 0
    · simp only [access, compareAndSwap_eq 1 hw] at ha
      cases ha
      exact placed_swapped (by simp) hw (hz hw) (outside_of_free_or hp (hfree hw))
    · simp only [access, compareAndSwap_ne 1 hw] at ha
      cases ha
      rw [view_look]
      exact placed_afterProto_busy hp
  | setOwner f =>
    cases ha
    obtain ⟨hf, hh, -, hcount, hzero⟩ := hp
    have hm : Local.Mine { view m t h with owns := decide (some t = some t) } 0 := ⟨hh, by simp, hcount⟩
    rw [view_setOwner]
    split
    · rw [Local.count_eq (by simp)]
      exact ⟨hf, hm, hzero⟩
    · exact placed_afterProto_locked hf hm hzero
  | protectSched f =>
    obtain ⟨o, -, he⟩ := Option.map_eq_some_iff.mp ha
    cases he
    rw [view_look]
    exact placed_afterProto_locked hp.1 hp.2.1 hp.2.2
  | protectUnsched =>
    obtain ⟨o, -, he⟩ := Option.map_eq_some_iff.mp ha
    cases he
    obtain ⟨hk, hm⟩ := hp
    rw [view_look, Local.count_eq (by simp)]
    exact ⟨hm.1, hm.2.2.of_ne hk, by simpa [Local.Counts, hk] using hm.2.2⟩
  | clearOwner =>
    cases ha
    obtain ⟨hh, hcount, hzero⟩ := hp
    rw [view_setOwner, Local.count_eq (by simp)]
    exact ⟨hh, by simp, hcount, hzero⟩
  | unlockCas =>
    obtain ⟨hh, ho, hcount, hzero⟩ := hp
    have hw := h1 hh
    simp only [access, compareAndSwap_eq 0 hw] at ha
    cases ha
    have hne : (0 : Int) ≠ m.futex := by omega
    rw [view_swap t h _ m.owner hne, Local.count_eq (by simp)]
    refine ⟨by simp, ho, ?_, by simp⟩
    simpa [Local.Counts, hzero] using hcount
  | futexWake =>
    cases ha
    obtain ⟨hh, ho, hcount, hzero⟩ := hp
    rw [view_look]
    exact placed_afterProto_unlocked hh ho hcount hzero
  | inheritLock =>
    simp only [access] at ha
    split at ha
    · rename_i hw
      cases ha
      exact placed_inherited (by simp) hw (hz hw) (outside_of_free hp (hfree hw))
    · obtain ⟨o, -, he⟩ := Option.map_eq_some_iff.mp ha
      cases he
      rw [view_look, Local.count_eq (by simp)]
      exact hp
  | inheritWait =>
    cases ha
    rw [view_look]
    split <;> rw [Local.count_eq (by simp)] <;> exact hp
  | inheritTrylock =>
    simp only [access] at ha
    split at ha <;> cases ha
    · rename_i hw
      exact placed_inherited (by simp) hw (hz hw) (outside_of_free_or hp (hfree hw))
    · rw [view_look]
      exact placed_afterProto_busy hp
  | inheritUnlock =>
    obtain ⟨o, -, he⟩ := Option.map_eq_some_iff.mp ha
    cases he
    obtain ⟨hk, hm⟩ := hp
    have hw := h1 hm.1
    have hne : (0 : Int) ≠ m.futex := by omega
    rw [view_swap t h _ none hne]
    refine placed_afterProto_unlocked (by simp) (by simp) ?_ (by simp)
    have hk : m.kind ≠ .recursive := hk
    simp [Local.Counts, view, hk]
  | idle => cases ha
  | returned f ret => cases ha
  | asleep => cases ha
  | inheritAsleep => cases ha
  | _ => cases hc

theorem access_placed {m m' : Fields τ} {t : τ} {h : History} {c c' : Pc}
    (hs : Supported m.kind m.protocol) (h1 : h.holds = true → m.futex = 1)
    (hz : m.futex = 0 → m.counter = 0) (hp : Placed (view m t h) c)
    (ha : access m t c = some (m', c')) : Placed (view m' t (h.record m m' c')) c' := by
  cases hc : typed c with
  | true => exact typed_access_placed hs h1 hp ha hc
  | false => exact proto_access_placed h1 hz hp ha hc

end ThreadBites.Mutex

import ThreadBites.MutexCalls

/-!
# The unlock that gives a mutex up

The owner of a mutex unlocks it as often as it holds it. The layer of the types
clears `owner` of a recursive mutex before the layer of the protocols, which
finds the lists to edit through it, is called.
-/
namespace ThreadBites.MutexCalls

open Mutex (Fields Kind Protocol)
open FutexLock (compareAndSwap)
open Sched (SchedInfo)

variable {τ μ : Type} [DecidableEq μ] [DecidableEq τ]

/-- Thread `t` owns the mutex and holds it `n` times. -/
structure Held (w : World τ μ) (m : μ) (t : τ) (n : Nat) : Prop where
  owner : (w.mutex m).owner = some t
  futex : (w.mutex m).futex = 1
  depth : if (w.mutex m).kind = .recursive then
    (w.mutex m).counter = BitVec.ofNat 64 n ∧ 1 ≤ n ∧ n < 2 ^ 64 else n = 1

omit [DecidableEq τ] in
/-- Whether the setting of a thread comes from a mutex: it is the first of the protect mutexes, or
its entry among the inherit mutexes has the setting of the thread. -/
def determines (th : Sched.Thread μ) (m : μ) : Protocol → Bool
  | .prioNone => false
  | .prioProtect => th.protectMutexes.head? = some m
  | .prioInherit => (th.find m).any fun im => im.2 = th.schedInfo

/-- What the owner's record is after the final unlock. -/
structure Given (info : μ → SchedInfo) (th th' : Sched.Thread μ) (m : μ) (p : Protocol) (ret : Int) : Prop where
  user : th'.userSchedInfo = th.userSchedInfo
  protect : th'.protectMutexes = if p = .prioProtect then th.protectMutexes.erase m else th.protectMutexes
  inherit : th'.inheritMutexes =
    if p = .prioInherit then th.inheritMutexes.eraseP fun im => im.1 = m else th.inheritMutexes
  sched : th'.schedInfo =
    if determines th m p = true ∧ ret = 0 then th'.effective info else th.schedInfo

/-- The mutex is free, its node is off the list of its owner, and nothing else has changed. -/
structure Released (w w' : World τ μ) (m : μ) (t : τ) (ret : Int) : Prop where
  owner : (w'.mutex m).owner = none
  futex : (w'.mutex m).futex = 0
  mutexes : ∀ k, k ≠ m → w'.mutex k = w.mutex k
  info : w'.info = w.info
  threads : ∀ u, u ≠ t → w'.thread u = w.thread u
  given : Given w.info (w.thread t) (w'.thread t) m (w.mutex m).protocol ret

/-- `n` calls of `tbthread_mutex_unlock`, and what the last one returns. -/
def unlockTimes (w : World τ μ) (m : μ) (t : τ) (ret : Int) : Nat → Option (World τ μ × Int)
  | 0 => some (w, 0)
  | n + 1 => (unlockTimes w m t ret n).bind fun r => unlock r.1 m t ret

section Threads

variable {info : μ → SchedInfo} {th : Sched.Thread μ} {m : μ} {ret : Int}

omit [DecidableEq μ] in
theorem setSched_schedInfo (i : SchedInfo) :
    (th.setSched i ret).schedInfo = if ret = 0 then i else th.schedInfo := by
  unfold Sched.Thread.setSched
  split <;> rfl

omit [DecidableEq μ] in
theorem computeSched_schedInfo :
    (th.computeSched info ret).schedInfo = if ret = 0 then (th.computeSched info ret).effective info else th.schedInfo := by
  have he : (th.computeSched info ret).effective info = th.effective info :=
    Sched.effective_congr (by simp [Sched.Thread.computeSched]) (by simp [Sched.Thread.computeSched])
      (by simp [Sched.Thread.computeSched])
  rw [he]
  exact setSched_schedInfo _

theorem given_none : Given info th th m .prioNone ret := by
  constructor <;> simp [determines]

theorem given_protect : Given info th (Sched.protectMutexUnsched info m th ret) m .prioProtect ret := by
  constructor
  · simp
  · simp
  · simp
  · by_cases hhead : th.protectMutexes.head? = some m
    · have hm : m ∈ th.protectMutexes := List.mem_of_head? hhead
      simp only [Sched.protectMutexUnsched, hm, hhead, if_true, determines, decide_true, true_and]
      exact computeSched_schedInfo
    · simp only [Sched.protectMutexUnsched, hhead, if_false, determines, decide_false, Bool.false_eq_true, false_and]
      split <;> rfl

theorem given_inherit : Given info th (Sched.inheritMutexUnsched info m th ret) m .prioInherit ret := by
  constructor
  · simp
  · simp
  · simp
  · cases hf : th.find m with
    | none => simp [Sched.inheritMutexUnsched, hf, determines]
    | some im =>
      by_cases hi : im.2 = th.schedInfo
      · simp only [Sched.inheritMutexUnsched, hf, hi, if_true, determines, Option.any_some, decide_true, true_and]
        exact computeSched_schedInfo
      · simp [Sched.inheritMutexUnsched, hf, hi, determines]

end Threads

section Worlds

variable {w w' : World τ μ} {m : μ} {t : τ} {ret : Int}

/-- A change of the mutex, and of the record of its owner. -/
theorem released_of {f : Fields τ} {th : Sched.Thread μ} (hown : f.owner = none) (hfutex : f.futex = 0)
    (hgiven : Given w.info (w.thread t) th m (w.mutex m).protocol ret) :
    Released w ({ w with thread := Function.update w.thread t th }.put m f) m t ret where
  owner := by simpa using hown
  futex := by simpa using hfutex
  mutexes := fun k hk => put_mutex_other _ _ hk
  info := rfl
  threads := fun u hu => by simp [hu]
  given := by simpa using hgiven

/-- Without a protocol the owner is not needed. -/
theorem unlockPrioNone_released (hp : (w.mutex m).protocol = .prioNone) (hf : (w.mutex m).futex = 1) :
    Released w (unlockPrioNone w m) m t ret := by
  have hgiven : Given w.info (w.thread t) (w.thread t) m (w.mutex m).protocol ret := hp ▸ given_none
  have h := released_of (f := { w.mutex m with owner := none, futex := (compareAndSwap (w.mutex m).futex 1 0).1 })
    rfl (by rw [hf]; rfl) hgiven
  rwa [Function.update_eq_self] at h

/-- With its owner in place the mutex is given up, whatever its protocol. -/
theorem unlockProto_released (ho : (w.mutex m).owner = some t) (hf : (w.mutex m).futex = 1) :
    ∃ w', unlockProto w m ret = some w' ∧ Released w w' m t ret := by
  cases hp : (w.mutex m).protocol with
  | prioNone =>
    have he : unlockProto w m ret = some (unlockPrioNone w m) := by simp only [unlockProto, hp]
    exact ⟨_, he, unlockPrioNone_released hp hf⟩
  | prioInherit =>
    have he := onOwner_of_owner (f := fun th => Sched.inheritMutexUnsched w.info m th ret) ho
    refine ⟨_, by rw [unlockProto, hp]; exact congrArg (Option.map _) he, ?_⟩
    apply released_of
    · rfl
    · rfl
    · exact hp ▸ given_inherit
  | prioProtect =>
    have he := onOwner_of_owner (f := fun th => Sched.protectMutexUnsched w.info m th ret) ho
    refine ⟨_, by rw [unlockProto, hp]; exact congrArg (Option.map _) he, ?_⟩
    apply released_of
    · rfl
    · simp only [hf]
      rfl
    · exact hp ▸ given_protect

/-- A null owner is read where there is a list to edit. -/
theorem unlockProto_fault (ho : (w.mutex m).owner = none) (hp : (w.mutex m).protocol ≠ .prioNone) :
    unlockProto w m ret = none := by
  cases h : (w.mutex m).protocol with
  | prioNone => exact absurd h hp
  | prioInherit => simp [unlockProto, h, unlockPrioInherit, inheritUnsched, World.onOwner, ho]
  | prioProtect => simp [unlockProto, h, unlockPrioProtect, protectUnsched, World.onOwner, ho]

omit [DecidableEq τ] in
/-- The layers of two worlds that differ in the mutex only, by what the unlock overwrites. -/
theorem Released.of_put {f : Fields τ} (h : Released (w.put m f) w' m t ret)
    (hp : f.protocol = (w.mutex m).protocol) : Released w w' m t ret where
  owner := h.owner
  futex := h.futex
  mutexes := fun k hk => (h.mutexes k hk).trans (put_mutex_other w f hk)
  info := h.info
  threads := h.threads
  given := by simpa [hp] using h.given

/-- An unlock of a recursive mutex that is held more than once counts down. -/
theorem unlockTimes_recursive {n : Nat} (hk : (w.mutex m).kind = .recursive) (h : Held w m t n) {k : Nat} (hlt : k < n) :
    unlockTimes w m t ret k = some (w.put m { w.mutex m with counter := BitVec.ofNat 64 (n - k) }, 0) := by
  have hd := h.depth
  rw [if_pos hk] at hd
  induction k with
  | zero =>
    have hself : { w.mutex m with counter := BitVec.ofNat 64 (n - 0) } = w.mutex m := by
      rw [Nat.sub_zero, ← hd.1]
    rw [hself, put_self]
    rfl
  | succ k ih =>
    have hdown : BitVec.ofNat 64 (n - k) - 1 = BitVec.ofNat 64 (n - (k + 1)) := by
      apply BitVec.eq_of_toNat_eq
      simp only [BitVec.toNat_sub, BitVec.toNat_ofNat, show (1 : BitVec 64).toNat = 1 from rfl]
      omega
    have hpos : BitVec.ofNat 64 (n - (k + 1)) ≠ 0 := by
      intro he
      have := congrArg BitVec.toNat he
      simp only [BitVec.toNat_ofNat, show (0 : BitVec 64).toNat = 0 from rfl] at this
      omega
    rw [unlockTimes, ih (by omega), Option.bind_some]
    simp only [unlock, put_mutex_same, hk, h.owner, hdown, hpos, if_false, put_put, ne_eq, not_true]

end Worlds

/-- The `n` unlocks of a mutex held `n` times all return, the last one returns 0, and it gives
the mutex up, exactly if the mutex is not both recursive and of a protocol with a list. -/
theorem final_unlock_iff {w : World τ μ} {m : μ} {t : τ} {n : Nat} (h : Held w m t n) (ret : Int) :
    (∃ w', unlockTimes w m t ret n = some (w', 0) ∧ Released w w' m t ret) ↔
      ((w.mutex m).kind = .recursive → (w.mutex m).protocol = .prioNone) := by
  have hd := h.depth
  cases hk : (w.mutex m).kind with
  | recursive =>
    rw [if_pos hk] at hd
    obtain ⟨k, rfl⟩ : ∃ k, n = k + 1 := ⟨n - 1, by omega⟩
    have hlast : unlockTimes w m t ret (k + 1) =
        (unlockProto (w.put m { w.mutex m with counter := 0, owner := none }) m ret).map fun w => (w, 0) := by
      rw [unlockTimes, unlockTimes_recursive hk h (Nat.lt_succ_self k), Option.bind_some]
      simp [unlock, hk, h.owner]
    by_cases hp : (w.mutex m).protocol = .prioNone
    · have he : unlockTimes w m t ret (k + 1) =
          some (unlockPrioNone (w.put m { w.mutex m with counter := 0, owner := none }) m, 0) := by
        rw [hlast]
        simp [unlockProto, hp]
      refine iff_of_true ⟨_, he, ?_⟩ fun _ => hp
      exact (unlockPrioNone_released (by simpa using hp) (by simpa using h.futex)).of_put rfl
    · refine iff_of_false ?_ fun himp => hp (himp rfl)
      rintro ⟨w', hw, -⟩
      rw [hlast, unlockProto_fault (by simp) (by simpa using hp)] at hw
      cases hw
  | normal =>
    rw [if_neg (by simp [hk])] at hd
    obtain ⟨w', hw, hr⟩ : ∃ w', unlockProto w m ret = some w' ∧ Released w w' m t ret :=
      unlockProto_released h.owner h.futex
    refine iff_of_true ⟨w', ?_, hr⟩ fun hc => by cases hc
    simp [hd, unlockTimes, unlock, hk, hw]
  | errorcheck =>
    rw [if_neg (by simp [hk])] at hd
    obtain ⟨w', hw, hr⟩ : ∃ w', unlockProto w m ret = some w' ∧ Released w w' m t ret :=
      unlockProto_released h.owner h.futex
    refine iff_of_true ⟨w', ?_, hr⟩ fun hc => by cases hc
    simp [hd, unlockTimes, unlock, hk, hw, h.owner, h.futex]

/-- A `TBTHREAD_PRIO_INHERIT` mutex of the default type. -/
theorem final_unlock_iff_inherit : ∃ w w' : World (Fin 1) Unit,
    lock (World.fresh .normal .prioInherit) () 0 0 = some (w, some 0) ∧
    unlockTimes w () 0 0 1 = some (w', 0) ∧ Released w w' () 0 0 := by
  obtain ⟨w, hl, hh⟩ : ∃ w : World (Fin 1) Unit,
      lock (World.fresh .normal .prioInherit) () 0 0 = some (w, some 0) ∧ Held w () 0 1 ∧
        (w.mutex ()).kind = .normal := ⟨_, rfl, ⟨rfl, rfl, by decide⟩, rfl⟩
  obtain ⟨w', hu, hr⟩ := (final_unlock_iff hh.1 0).mpr fun hk => absurd (hh.2.symm.trans hk) (by decide)
  exact ⟨w, w', hl, hu, hr⟩

/-- A recursive `TBTHREAD_PRIO_PROTECT` mutex that is locked once: the unlock reads a null owner. -/
theorem final_unlock_faults : ∃ w : World (Fin 1) Unit,
    lock (World.fresh .recursive .prioProtect) () 0 0 = some (w, some 0) ∧ Held w () 0 1 ∧
    ¬ ∃ w', unlockTimes w () 0 0 1 = some (w', 0) ∧ Released w w' () 0 0 := by
  refine ⟨_, rfl, ⟨rfl, rfl, by decide⟩, ?_⟩
  rintro ⟨w', hw, -⟩
  cases hw

end ThreadBites.MutexCalls

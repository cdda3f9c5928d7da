import ThreadBites.DescriptorRuns

/-!
# The word of a thread that has terminated

The kernel clears `tid` when a thread ends, and `wait_for_thread` relies on it.
The store that `tbthread_create` makes after `clone` may come later than that,
and then whoever waits for the thread waits forever.
-/
namespace ThreadBites.Threads

open Transition WaitQueue

variable {τ δ : Type} {main : τ} {s : State τ δ}

theorem phase_dead {u : τ} : s.phase u = .dead ↔ s.pc u = .dead := by
  unfold State.phase
  cases s.pc u with
  | release desc r => cases r <;> simp [Pc.phase]
  | _ => simp [Pc.phase]

theorem phase_unborn {u : τ} : s.phase u = .unborn ↔ s.pc u = .unborn := by
  unfold State.phase
  cases s.pc u with
  | release desc r => cases r <;> simp [Pc.phase]
  | _ => simp [Pc.phase]

/-- The thread that `wait_for_thread` is called for. -/
def Waiter.awaits (last : δ → Option τ) (d : δ) : Waiter τ → Option τ
  | .reuse _ => last d
  | .failed u => some u
  | .join o => o

/-- The word of a descriptor is 0 from the end of a thread to the next create, the stores of the
kernel and of `tbthread_create` for a thread find its descriptor, and a wait ends with its thread. -/
structure TidWord (main : τ) (s : State τ δ) : Prop where
  cleared : ∀ d u, s.last d = some u → s.pc u = .dead → (s.mem d).tid = 0
  kernel : ∀ u, u ≠ main → s.pc u ≠ .unborn → s.pc u ≠ .dead → s.last (s.self u) = some u
  create : ∀ t d attr u, s.pc t = .storeTid d attr u → s.last d = some u ∧ s.pc u ≠ .dead
  asleep : ∀ t d k w, s.pc t = .asleep d k w → ∃ u, w.awaits s.last d = some u ∧ s.pc u ≠ .dead
  waited : ∀ t d w, s.pc t = afterWait d w → ∀ u, w.awaits s.last d = some u → s.pc u = .dead

/-- Who is entitled to wait waits for the thread that used the descriptor last. -/
theorem Inv.awaits (h : Inv main s) {t : τ} {d : δ} {w : Waiter τ} (hl : Lien s.toShared t d w) :
    w.awaits s.last d = s.last d := by
  cases w with
  | reuse attr => rfl
  | failed u => exact ((h.desc d).lent u hl.1).symm
  | join o =>
    obtain ⟨u, rfl, hr, -⟩ := hl
    exact ((h.desc d).lent u hr).symm

theorem Inv.tidWord (h : Inv main s) : TidWord main s where
  cleared d u hu hd := by
    have hword := (h.desc d).word u hu
    rw [phase_dead.mpr hd] at hword
    exact hword
  kernel u hu hb hd := h.last_self hu (fun hp => hb (phase_unborn.mp hp)) fun hp => hd (phase_dead.mp hp)
  create t d attr u hpc := by
    have hplaced := h.placed t
    rw [hpc] at hplaced
    obtain ⟨hmaking, hd⟩ := hplaced
    exact ⟨(h.making hmaking).2.2.2 hd, fun hp => hd (phase_dead.mpr hp)⟩
  asleep t d k w hpc := by
    have hplaced := h.placed t
    rw [hpc] at hplaced
    obtain ⟨hl, ⟨-, u, hu, -⟩, hne⟩ := hplaced
    refine ⟨u, (h.awaits hl).trans hu, fun hd => hne fun v hv => ?_⟩
    rw [hu] at hv
    cases hv
    exact phase_dead.mpr hd
  waited t d w hpc u hu := by
    have hplaced := h.placed t
    rw [hpc] at hplaced
    cases w with
    | reuse attr => exact phase_dead.mp (hplaced.2 u hu)
    | failed v =>
      obtain ⟨hl, hended⟩ := hplaced
      exact phase_dead.mp (hended u ((h.awaits hl).symm.trans hu))
    | join o =>
      obtain ⟨hl, hended⟩ := hplaced
      exact phase_dead.mp (hended u ((h.awaits hl).symm.trans hu))

variable [DecidableEq τ] [DecidableEq δ] [Fintype τ]

/-- In a run of orderly steps the word of a thread that has terminated stays 0, no store of its create
is late, and nobody waits for it. -/
theorem tid_word (h : Reaches (Initial main) step Orderly s) : TidWord main s :=
  (reaches_inv (fun _ _ => id) h).tidWord

/-- The calls of thread `t` up to the `clone` of a thread `u` with id `k` on a descriptor from `malloc`. -/
def spawning (t u : τ) (d : δ) (k : BitVec 32) (joinable : Bool) : List (Action τ δ) :=
  [.create t ⟨joinable, true⟩ true, .mprotect t true, .next t, .allocate t d, .next t, .next t, .next t,
    .clone t (some (u, k))]

/-- Thread `u` comes to its function and goes on to `tbthread_exit`. -/
def exiting (u : τ) (retval : BitVec 64) : List (Action τ δ) :=
  [.start u, .next u, .exit u retval, .exitSection u]

/-- The initial thread joins a thread that it created. -/
theorem tid_word_joined : ∃ s : State (Fin 2) (Fin 2), s.pc 0 = .asleep 1 7 (.join (some 1)) ∧ TidWord 0 s := by
  have hr := Reaches.run_get (boot_initial (0 : Fin 2) (0 : Fin 2) 1)
    (show (run step Orderly (spawning 0 1 1 7 true ++ [.next 0, .join 0 1, .next 0, .next 0])
      (boot 0 0 1)).isSome from by decide)
  exact ⟨_, by decide, tid_word hr⟩

/-- The new thread terminates before its create stores its id, and the join that follows sleeps. -/
theorem tid_word_late : ∃ s : State (Fin 2) (Fin 2), Reaches (Initial 0) step anyStep s ∧
    s.pc 0 = .asleep 1 7 (.join (some 1)) ∧ s.pc 1 = .dead ∧ ¬ TidWord 0 s := by
  have hr := Reaches.run_get (boot_initial (0 : Fin 2) (0 : Fin 2) 1)
    (show (run step anyStep (spawning 0 1 1 7 true ++ exiting 1 5 ++
      [.terminate 1, .next 0, .join 0 1, .next 0, .next 0]) (boot 0 0 1)).isSome from by decide)
  refine ⟨_, hr, by decide, by decide, fun h => ?_⟩
  obtain ⟨u, hu, hd⟩ := h.asleep 0 1 7 (.join (some 1)) (by decide)
  cases hu
  exact hd (by decide)

end ThreadBites.Threads

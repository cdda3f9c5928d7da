import ThreadBites.CleanupHandlers

/-!
# Handlers that are called once

What a thread still owes to its handlers is in the place where it is: a handler
that was removed and not called, and those from the cursor of `tbthread_exit` on.
With what was called, that is what is due.
-/
namespace ThreadBites.Cleanup

open Transition Cancel

variable {η : Type}

def Frame.owes : Frame η → List η
  | .pop h => [h]
  | _ => []

def Base.owes : Base η → List η
  | .exit rest => rest
  | _ => []

/-- Calls and debts make up what is due. -/
structure Inv (s : State η) : Prop where
  sum : s.invoked ++ (s.frames.flatMap Frame.owes ++ s.base.owes) = s.due
  ending : s.base.ending = true → s.frames.flatMap Frame.owes = []
  cleared : s.base = .cleared → s.handlers = []

theorem owes_of_spares {frames : List (Frame η)} (h : ∀ f ∈ frames, f.spares) : frames.flatMap Frame.owes = [] := by
  refine List.flatMap_eq_nil_iff.mpr fun f hf => ?_
  cases f with
  | pop g => exact absurd (h _ hf) id
  | func g => rfl
  | test => rfl
  | signal tested => rfl

/-- Frames that owe nothing come and go. -/
theorem Inv.frames {s : State η} {frames : List (Frame η)} (h : Inv s) (status : BitVec 8) (blocked : Bool)
    (hf : frames.flatMap Frame.owes = s.frames.flatMap Frame.owes) :
    Inv { s with frames := frames, status := status, blocked := blocked } where
  sum := by
    rw [hf]
    exact h.sum
  ending := fun he => hf.trans (h.ending he)
  cleared := h.cleared

/-- Code of the function. -/
theorem Inv.debtless {s : State η} (h : Inv s) (hbase : s.base = .fn) (hframes : s.frames = []) :
    s.invoked = s.due := by
  have hsum := h.sum
  rw [hbase, hframes] at hsum
  simpa [Base.owes] using hsum

/-- `tbthread_exit` where it does no harm. -/
theorem Inv.exit {s : State η} (h : Inv s) (hbase : s.base.spares s.handlers) (hframes : ∀ f ∈ s.frames, f.spares) :
    Inv s.exit where
  sum := by
    have hsum := h.sum
    rw [owes_of_spares hframes, List.nil_append] at hsum
    cases hb : s.base with
    | fn =>
      simp only [hb, Base.owes, List.append_nil] at hsum
      simp [State.exit, hb, Base.ending, Base.owes, hsum]
    | exit rest =>
      simp only [hb, Base.spares] at hbase
      simpa [State.exit, hb, Base.ending, Base.owes, hbase] using hsum
    | _ =>
      simp only [hb, Base.spares] at hbase
      simpa [State.exit, hb, Base.ending, Base.owes, hbase] using hsum
  ending := fun _ => rfl
  cleared := fun hc => by cases hc

theorem Inv.frame {s t : State η} {f : Frame η} {rest : List (Frame η)} (h : Inv s) (hs : s.frames = f :: rest)
    (ha : Spared s .next) (ht : s.frame rest f = some t) : Inv t := by
  have hframes : s.frames.flatMap Frame.owes = f.owes ++ rest.flatMap Frame.owes := by rw [hs, List.flatMap_cons]
  cases f with
  | func g => cases ht
  | pop g =>
    cases ht
    have hending : s.base.ending = false := by
      by_contra he
      have hnil := h.ending (by simpa using he)
      rw [hframes] at hnil
      cases hnil
    refine ⟨?_, fun he => ?_, h.cleared⟩
    · have hsum := h.sum
      rw [hframes] at hsum
      simpa [Frame.owes] using hsum
    · rw [hending] at he
      cases he
  | test =>
    simp only [State.frame] at ht
    split at ht
    · rename_i hacts
      cases ht
      obtain ⟨hbase, hspare⟩ := ha (by rw [hs]; rfl) hacts
      have hinv := h.frames (put .canceled true s.status) s.blocked rfl
      exact hinv.exit hbase hspare
    · cases ht
      exact h.frames s.status s.blocked hframes.symm
  | signal tested =>
    cases tested with
    | false =>
      simp only [State.frame] at ht
      split at ht <;> cases ht
      · exact h.frames s.status false hframes.symm
      · exact h.frames s.status s.blocked hframes.symm
    | true =>
      cases ht
      exact h.frames s.status false hframes.symm

/-- `start_thread` and `tbthread_exit` move on between calls of handlers. -/
theorem Inv.moved {s : State η} {b : Base η} {handlers : List η} (h : Inv s) (hs : s.frames = []) (status : BitVec 8)
    (hb : b.owes = s.base.owes) (hc : b = .cleared → handlers = []) :
    Inv { s with base := b, status := status, handlers := handlers } where
  sum := by
    rw [hb]
    exact h.sum
  ending := fun _ => by rw [hs]; rfl
  cleared := hc

theorem Inv.ended {s t : State η} (h : Inv s) (hs : s.frames = []) (ht : s.ended s.base = some t) : Inv t := by
  cases hb : s.base with
  | fn => simp [hb, State.ended] at ht
  | cleared => simp [hb, State.ended] at ht
  | returned =>
    rw [hb] at ht
    cases ht
    exact h.moved hs _ (by rw [hb]; rfl) fun hc => by cases hc
  | disabled =>
    rw [hb] at ht
    cases ht
    exact h.moved hs s.status (by rw [hb]; rfl) fun _ => rfl
  | release =>
    rw [hb] at ht
    cases ht
    exact h.moved hs s.status (by rw [hb]; rfl) fun _ => rfl
  | exit rest =>
    rw [hb] at ht
    cases rest with
    | nil =>
      cases ht
      exact h.moved hs s.status (by rw [hb]; rfl) fun hc => by cases hc
    | cons g rest =>
      cases ht
      have hsum := h.sum
      rw [hs, hb] at hsum
      exact ⟨by simpa [Base.owes, Frame.owes] using hsum, fun _ => rfl, fun hc => by cases hc⟩

/-- `tbthread_cleanup_pop` in the function. -/
theorem Inv.pop {s : State η} (h : Inv s) (hbase : s.base = .fn) (hs : s.frames = []) (execute : Bool) :
    Inv (s.pop execute) := by
  have hdone := h.debtless hbase hs
  unfold State.pop
  split
  · exact h
  · rename_i g rest hg
    split
    · exact ⟨by simp [hbase, Frame.owes, Base.owes, hdone], fun he => by simp [hbase, Base.ending] at he,
        fun hc => by simp [hbase] at hc⟩
    · exact ⟨h.sum, h.ending, fun hc => by simp [hbase] at hc⟩

theorem Inv.step {s t : State η} {a : Action η} (h : Inv s) (ha : Spared s a) (ht : step s a = some t) : Inv t := by
  cases a with
  | push g =>
    simp only [Cleanup.step] at ht
    split at ht
    · rename_i hbase hs
      cases ht
      exact ⟨h.sum, h.ending, fun hc => by simp [hbase] at hc⟩
    · cases ht
  | pop execute =>
    simp only [Cleanup.step] at ht
    split at ht
    · rename_i hbase hs
      cases ht
      exact h.pop hbase hs execute
    · cases ht
  | exit =>
    simp only [Cleanup.step] at ht
    split at ht
    · rename_i hbase hs
      cases ht
      exact h.exit (by rw [hbase]; trivial) (by rw [hs]; simp)
    · cases ht
  | ret =>
    simp only [Cleanup.step] at ht
    split at ht
    · rename_i hbase hs
      cases ht
      exact h.moved hs s.status (by rw [hbase]; rfl) fun hc => by cases hc
    · cases ht
  | setcancelstate enable =>
    obtain ⟨-, he⟩ := Option.ite_none_right_eq_some.mp ht
    cases he
    refine h.frames (put .enabled enable s.status) s.blocked ?_
    cases enable <;> rfl
  | setcanceltype deferred =>
    obtain ⟨-, he⟩ := Option.ite_none_right_eq_some.mp ht
    cases he
    exact h.frames (put .deferred deferred s.status) s.blocked rfl
  | testcancel =>
    obtain ⟨-, he⟩ := Option.ite_none_right_eq_some.mp ht
    cases he
    exact h.frames s.status s.blocked rfl
  | finish =>
    simp only [Cleanup.step] at ht
    split at ht
    · rename_i g rest hs
      cases ht
      exact h.frames s.status s.blocked (by rw [hs]; rfl)
    · cases ht
  | next =>
    simp only [Cleanup.step] at ht
    split at ht
    · rename_i hs
      exact h.ended hs ht
    · rename_i f rest hs
      exact h.frame hs ha ht
  | request =>
    cases ht
    exact h.frames (put .canceling true s.status) s.blocked rfl
  | deliver =>
    simp only [Cleanup.step] at ht
    split at ht
    · cases ht
    · cases ht
      exact h.frames s.status true rfl

theorem inv_start (status : BitVec 8) : Inv (State.start η status) where
  sum := rfl
  ending := fun _ => rfl
  cleared := fun _ => rfl

theorem Inv.calledOnce {s : State η} (h : Inv s) : CalledOnce s := by
  refine ⟨⟨_, h.sum⟩, ?_⟩
  rintro ⟨hs, hbase⟩
  have hsum := h.sum
  rw [hs, List.flatMap_nil, List.nil_append] at hsum
  rcases hbase with hb | hb | hb <;> simpa [hb, Base.owes] using hsum

/-- Where no cancellation does harm, the handlers are called once and in order. -/
theorem cleanup_called_once {s : State η} (h : Reaches Initial step Spared s) : CalledOnce s := by
  refine (h.invariant (I := Inv) ?_ fun _ _ _ _ hi ha hs => hi.step ha hs).calledOnce
  rintro s (rfl | rfl)
  · exact inv_start createdStatus
  · exact inv_start 0

/-- A handler that asks about the cancellation after the thread called `tbthread_exit`. -/
def askedRun (h : η) : List (Action η) := [.push h, .request, .exit, .next, .testcancel, .next, .next]

theorem cleanup_called_twice : ¬ ∀ s : State Nat, Reaches Initial step anyStep s → CalledOnce s := by
  intro hclaim
  obtain ⟨s, hr, hs⟩ : ∃ s : State Nat, Reaches Initial step anyStep s ∧ ¬ s.invoked <+: s.due :=
    ⟨_, Reaches.run_get (.inl rfl) (show (run step anyStep (askedRun 0) (State.start Nat createdStatus)).isSome
      from by decide), by decide⟩
  exact hs (hclaim s hr).1

/-- A handler that a pop calls, then two handlers of a thread that is cancelled, the last of them asking
about the cancellation. -/
def spentRun (g h : η) : List (Action η) :=
  [.push g, .push h, .pop true, .next, .finish, .push h, .request, .testcancel, .next, .next, .finish, .next,
    .testcancel, .next, .finish, .next, .next]

theorem cleanup_called_once_cancelled : ∃ s : State Nat, Reaches Initial step Spared s ∧ Settled s ∧
    s.due = [1, 1, 0] ∧ CalledOnce s := by
  obtain ⟨s, hr, hframes, hbase, hdue⟩ : ∃ s : State Nat, Reaches Initial step Spared s ∧ s.frames = [] ∧
      s.base = .cleared ∧ s.due = [1, 1, 0] :=
    ⟨_, Reaches.run_get (.inl rfl) (show (run step Spared (spentRun 0 1) (State.start Nat createdStatus)).isSome
      from by decide), by decide, by decide, by decide⟩
  exact ⟨s, hr, ⟨hframes, .inr (.inr hbase)⟩, hdue, cleanup_called_once hr⟩

end ThreadBites.Cleanup

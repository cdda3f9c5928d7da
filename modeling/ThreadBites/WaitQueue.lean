import ThreadBites.Tally

/-!
# Waking the sleepers of a wait queue

The queue is not a list of its own: who sleeps is read off the local states.
`wakeOne` wakes the sleeper that the environment names, so every choice is a run;
`wakeAll` wakes them all. A sleeper compared a sample of a 32-bit word first.
-/
namespace WaitQueue

open Tally

variable {τ ι : Type}

/-- Local states of `g` are those of `f`, but for sleepers that resumed. -/
def Woken (asleep : ι → Bool) (resume : ι → ι) (f g : τ → ι) : Prop :=
  ∀ u, g u = f u ∨ asleep (f u) = true ∧ g u = resume (f u)

/-- Wake every sleeper. -/
def wakeAll (asleep : ι → Bool) (resume : ι → ι) (f : τ → ι) : τ → ι :=
  fun u => if asleep (f u) then resume (f u) else f u

/-- Wake the sleeper that is named; naming nobody is possible only when nobody sleeps. -/
def wakeOne [Fintype τ] [DecidableEq τ] (asleep : ι → Bool) (resume : ι → ι) (f : τ → ι) :
    Option τ → Option (τ → ι)
  | some u => if asleep (f u) then some (Function.update f u (resume (f u))) else none
  | none => if ∀ u, asleep (f u) = false then some f else none

theorem wakeAll_woken (asleep : ι → Bool) (resume : ι → ι) (f : τ → ι) :
    Woken asleep resume f (wakeAll asleep resume f) := by
  intro u
  by_cases h : asleep (f u) <;> simp [wakeAll, h]

/-- Nobody sleeps after everybody was woken. -/
theorem wakeAll_awake {asleep : ι → Bool} {resume : ι → ι} (hr : ∀ x, asleep (resume x) = false)
    (f : τ → ι) (u : τ) : asleep (wakeAll asleep resume f u) = false := by
  by_cases h : asleep (f u) <;> simp [wakeAll, h, hr]

theorem Woken.of_not_asleep {asleep : ι → Bool} {resume : ι → ι} {f g : τ → ι}
    (h : Woken asleep resume f g) {u : τ} (hu : asleep (f u) = false) : g u = f u := by
  rcases h u with he | ⟨ha, -⟩
  · exact he
  · rw [hu] at ha; cases ha

/-- What resuming does not change holds of the same parties after a wake. -/
theorem Woken.same {κ : Type} {asleep : ι → Bool} {resume : ι → ι} {f g : τ → ι}
    (h : Woken asleep resume f g) {p : ι → κ} (hp : ∀ x, asleep x = true → p (resume x) = p x)
    (u : τ) : p (g u) = p (f u) := by
  rcases h u with he | ⟨ha, he⟩
  · rw [he]
  · rw [he, hp _ ha]

variable [Fintype τ]

theorem Woken.tally {asleep : ι → Bool} {resume : ι → ι} {f g : τ → ι}
    (h : Woken asleep resume f g) {p : ι → Bool} (hp : ∀ x, asleep x = true → p (resume x) = p x) :
    tally p g = tally p f :=
  tally_congr fun u => h.same hp u

variable [DecidableEq τ]

theorem wakeOne_woken {asleep : ι → Bool} {resume : ι → ι} {f g : τ → ι} {w : Option τ}
    (h : wakeOne asleep resume f w = some g) : Woken asleep resume f g := by
  intro u
  cases w with
  | none =>
    simp only [wakeOne, Option.ite_none_right_eq_some, Option.some.injEq] at h
    exact .inl (congrFun h.2.symm u)
  | some v =>
    simp only [wakeOne, Option.ite_none_right_eq_some, Option.some.injEq] at h
    obtain ⟨hv, rfl⟩ := h
    by_cases hu : u = v
    · subst u; exact .inr ⟨hv, by simp⟩
    · exact .inl (by simp [hu])

/-- A wake of one finds a sleeper whenever there is one. -/
theorem wakeOne_finds {asleep : ι → Bool} {resume : ι → ι} {f g : τ → ι} {w : Option τ}
    (h : wakeOne asleep resume f w = some g) (hs : ∃ v, asleep (f v) = true) :
    ∃ v, asleep (f v) = true ∧ g = Function.update f v (resume (f v)) := by
  cases w with
  | none =>
    simp only [wakeOne, Option.ite_none_right_eq_some] at h
    obtain ⟨v, hv⟩ := hs
    rw [h.1 v] at hv
    cases hv
  | some v =>
    simp only [wakeOne, Option.ite_none_right_eq_some, Option.some.injEq] at h
    exact ⟨v, h.1, h.2.symm⟩

/-- A wake of one can always be made. -/
theorem wakeOne_possible (asleep : ι → Bool) (resume : ι → ι) (f : τ → ι) :
    ∃ w g, wakeOne asleep resume f w = some g := by
  by_cases h : ∃ u, asleep (f u) = true
  · obtain ⟨u, hu⟩ := h
    exact ⟨some u, _, if_pos hu⟩
  · exact ⟨none, f, if_pos fun u => by simpa using (not_exists.mp h) u⟩

/-- A word of 32 bits follows the number of times it was bumped. -/
theorem word_bump {v : BitVec 32} {n : Nat} (h : v = BitVec.ofNat 32 n) :
    v + 1 = BitVec.ofNat 32 (n + 1) := by
  subst h
  exact (BitVec.ofNat_add n 1).symm

/-- A sample that equals the word is current, if fewer than `2^32` bumps lie between. -/
theorem sample_current {n m : Nat} (hn : n ≤ m) (hm : m - n < 2 ^ 32)
    (h : BitVec.ofNat 32 m = BitVec.ofNat 32 n) : n = m := by
  have hv := congrArg BitVec.toNat h
  simp only [BitVec.toNat_ofNat] at hv
  omega

end WaitQueue

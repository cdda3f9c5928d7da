import Mathlib

/-!
# Counting the parties of a system

`tally p f` is the number of parties whose local state meets `p`. A step moves
one party, so a count changes by what that party stops and starts to contribute.
-/
namespace Tally

variable {τ ι κ : Type} [Fintype τ]

/-- The number of parties `u` with `p (f u)`. -/
def tally (p : ι → Bool) (f : τ → ι) : Nat := (Finset.univ.filter fun u => p (f u) = true).card

/-- The sum of what all parties contribute. -/
def total (f : τ → Nat) : Nat := ∑ u, f u

theorem tally_eq_total (p : ι → Bool) (f : τ → ι) : tally p f = total fun u => (p (f u)).toNat := by
  simp only [tally, total, Finset.card_filter]
  exact Finset.sum_congr rfl fun u _ => by cases p (f u) <;> rfl

theorem tally_le_tally {p : ι → Bool} {f : τ → ι} {q : κ → Bool} {g : τ → κ}
    (h : ∀ u, p (f u) = true → q (g u) = true) : tally p f ≤ tally q g :=
  Finset.card_le_card fun u hu => by simpa using h u (by simpa using hu)

theorem tally_congr {p : ι → Bool} {f : τ → ι} {q : κ → Bool} {g : τ → κ}
    (h : ∀ u, p (f u) = q (g u)) : tally p f = tally q g := by
  simp only [tally, h]

/-- Somebody is counted exactly when the count is positive. -/
theorem tally_pos_iff (p : ι → Bool) (f : τ → ι) : 0 < tally p f ↔ ∃ u, p (f u) = true := by
  simp [tally, Finset.card_pos, Finset.filter_nonempty_iff]

theorem tally_eq_zero_iff (p : ι → Bool) (f : τ → ι) : tally p f = 0 ↔ ∀ u, p (f u) = false := by
  simp [tally, Finset.card_eq_zero, Finset.filter_eq_empty_iff]

theorem le_total (f : τ → Nat) (t : τ) : f t ≤ total f :=
  Finset.single_le_sum_of_canonicallyOrdered (Finset.mem_univ t)

theorem total_le_card (f : τ → Nat) {n : Nat} (h : ∀ u, f u ≤ n) : total f ≤ n * Fintype.card τ := by
  have hsum := Finset.sum_le_card_nsmul Finset.univ f n fun u _ => h u
  rw [smul_eq_mul, Finset.card_univ, Nat.mul_comm] at hsum
  exact hsum

/-- One party contributes less, and no other more. -/
theorem total_lt_total {f g : τ → Nat} {t : τ} (hle : ∀ u, u ≠ t → f u ≤ g u) (hlt : f t < g t) :
    total f < total g := by
  refine Finset.sum_lt_sum (fun u _ => ?_) ⟨t, Finset.mem_univ t, hlt⟩
  by_cases hu : u = t
  · subst u
    exact hlt.le
  · exact hle u hu

theorem total_eq_zero_iff (f : τ → Nat) : total f = 0 ↔ ∀ u, f u = 0 := by
  simp [total]

variable [DecidableEq τ]

/-- A total changes by the old and the new contribution of the party that moves. -/
theorem total_update (f : τ → Nat) (t : τ) (n : Nat) :
    total (Function.update f t n) + f t = total f + n := by
  have h := Finset.sum_update_of_mem (Finset.mem_univ t) f n
  have h' := Finset.sum_erase_add Finset.univ f (Finset.mem_univ t)
  simp only [total]
  rw [h, Finset.sdiff_singleton_eq_erase]
  omega

/-- A count changes by whether the party that moves stops and starts to be counted. -/
theorem tally_update (p : ι → Bool) (f : τ → ι) (t : τ) (c : ι) :
    tally p (Function.update f t c) + (p (f t)).toNat = tally p f + (p c).toNat := by
  have he : (fun u => (p (Function.update f t c u)).toNat) =
      Function.update (fun u => (p (f u)).toNat) t (p c).toNat := by
    funext u
    by_cases hu : u = t
    · subst u; simp
    · simp [hu]
  simp only [tally_eq_total, he]
  exact total_update (fun u => (p (f u)).toNat) t (p c).toNat

end Tally

import Mathlib

/-!
# Linear congruential generators modulo a power of 2

`x ↦ a * x + c` over the integers, with the low bits looked at by divisibility. If
`a` is 1 modulo 4 and `c` is odd, the low `k` bits come back after `2 ^ k` steps and
not before.
-/
namespace LinearCongruence

open Finset

/-- One step of the generator. -/
def next (a c x : ℤ) : ℤ := a * x + c

/-- `1 + a + ... + a ^ (n - 1)`, which the distance after `n` steps is a multiple of. -/
def geometric (a : ℤ) (n : ℕ) : ℤ := ∑ i ∈ range n, a ^ i

theorem geometric_add (a : ℤ) (m n : ℕ) : geometric a (m + n) = geometric a m + a ^ m * geometric a n := by
  simp only [geometric, sum_range_add, mul_sum, pow_add]

/-- How far the generator gets in `n` steps. -/
theorem iterate_next (a c x : ℤ) (n : ℕ) :
    (next a c)^[n] x = x + geometric a n * ((a - 1) * x + c) := by
  induction n with
  | zero => simp [geometric]
  | succ n ih =>
    rw [Function.iterate_succ_apply', ih, Nat.add_comm n 1, geometric_add]
    simp only [next, geometric, range_one, sum_singleton, pow_zero, pow_one]
    ring

/-- An odd base has sums of the parity of their length. -/
theorem geometric_even_iff {a : ℤ} (ha : Odd a) (n : ℕ) : Even (geometric a n) ↔ Even n := by
  induction n with
  | zero => simp [geometric]
  | succ n ih =>
    have hpow : Odd (a ^ n) := ha.pow
    rw [geometric, sum_range_succ, ← geometric, Int.even_add, ih, Nat.even_add_one]
    simp [Int.not_even_iff_odd.mpr hpow]

/-- Twice as long a sum is even once more. -/
theorem geometric_two_mul {a : ℤ} (ha : a % 4 = 1) (n : ℕ) :
    ∃ u, Odd u ∧ geometric a (2 * n) = 2 * (u * geometric a n) := by
  have hpow : (a ^ n) % 4 = 1 := by
    have hmod : a ^ n ≡ 1 ^ n [ZMOD 4] := Int.ModEq.pow n ha
    rwa [one_pow] at hmod
  refine ⟨(a ^ n + 1) / 2, ?_, ?_⟩
  · rw [Int.odd_iff]
    omega
  · have hhalf : 2 * ((a ^ n + 1) / 2) = a ^ n + 1 := by omega
    rw [two_mul n, geometric_add, ← mul_assoc, hhalf]
    ring

/-- A power of 2 does not see an odd factor. -/
theorem two_pow_dvd_mul_iff {u : ℤ} (hu : Odd u) (k : ℕ) (y : ℤ) : 2 ^ k ∣ u * y ↔ 2 ^ k ∣ y := by
  have hcoprime : IsCoprime ((2 : ℤ) ^ k) u := (Int.isCoprime_two_left.mpr hu).pow_left
  exact ⟨fun h => hcoprime.dvd_of_dvd_mul_left h, fun h => dvd_mul_of_dvd_right h u⟩

/-- The sum is divisible by the powers of 2 that its length is. -/
theorem two_pow_dvd_geometric {a : ℤ} (ha : a % 4 = 1) (k n : ℕ) : 2 ^ k ∣ geometric a n ↔ 2 ^ k ∣ n := by
  induction k generalizing n with
  | zero => simp
  | succ k ih =>
    rcases Nat.even_or_odd' n with ⟨m, rfl | rfl⟩
    · obtain ⟨u, hu, he⟩ := geometric_two_mul ha m
      rw [he, pow_succ', pow_succ', mul_dvd_mul_iff_left (by decide), two_pow_dvd_mul_iff hu, ih,
        Nat.mul_dvd_mul_iff_left (by decide)]
    · -- both are odd
      have hodd : ¬Even (geometric a (2 * m + 1)) := by
        rw [geometric_even_iff (by rw [Int.odd_iff]; omega)]
        simp
      have htwo : (2 : ℤ) ∣ 2 ^ (k + 1) := dvd_pow_self 2 (Nat.succ_ne_zero k)
      have htwo' : 2 ∣ 2 ^ (k + 1) := dvd_pow_self 2 (Nat.succ_ne_zero k)
      refine ⟨fun h => absurd (even_iff_two_dvd.mpr (htwo.trans h)) hodd, fun h => ?_⟩
      have := htwo'.trans h
      omega

/-- The low `k` bits are those of the start after the multiples of `2 ^ k` steps. -/
theorem iterate_next_dvd {a c : ℤ} (ha : a % 4 = 1) (hc : Odd c) (x : ℤ) (k n : ℕ) :
    2 ^ k ∣ (next a c)^[n] x - x ↔ 2 ^ k ∣ n := by
  have hodd : Odd ((a - 1) * x + c) := by
    have heven : Even (a - 1) := by
      rw [Int.even_iff]
      omega
    exact (heven.mul_right x).add_odd hc
  rw [iterate_next, add_sub_cancel_left, mul_comm, two_pow_dvd_mul_iff hodd, two_pow_dvd_geometric ha]

/-- The states after two numbers of steps agree in the low `k` bits if the numbers do. -/
theorem iterate_next_modEq {a c : ℤ} (ha : a % 4 = 1) (hc : Odd c) (x : ℤ) (k : ℕ) {m n : ℕ} (hmn : m ≤ n) :
    2 ^ k ∣ (next a c)^[n] x - (next a c)^[m] x ↔ 2 ^ k ∣ n - m := by
  obtain ⟨d, rfl⟩ := Nat.exists_eq_add_of_le hmn
  rw [Nat.add_comm m d, Function.iterate_add_apply, iterate_next_dvd ha hc, Nat.add_sub_cancel]

end LinearCongruence

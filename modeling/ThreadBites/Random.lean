import ThreadBites.LinearCongruence

/-!
# The random numbers

`tbrandom` as a generator: which of its bits come back when, and that it leaves out
no value.
-/
namespace ThreadBites.Random

open LinearCongruence

/-- `tbrandom`: what it leaves in `*seed` and returns. -/
def tbrandom (seed : BitVec 32) : BitVec 32 := 1103515245 * seed + 12345

/-- The seeds are the integers of the generator modulo `2 ^ 32`. -/
theorem tbrandom_iterate (seed : BitVec 32) (n : ℕ) :
    ((tbrandom^[n] seed).toNat : ℤ) ≡ (next 1103515245 12345)^[n] seed.toNat [ZMOD 2 ^ 32] := by
  induction n with
  | zero => rfl
  | succ n ih =>
    rw [Function.iterate_succ_apply', Function.iterate_succ_apply', next, tbrandom, BitVec.toNat_add, BitVec.toNat_mul]
    push_cast
    refine (Int.mod_modEq _ _).trans (Int.ModEq.add_right _ ?_)
    exact (Int.mod_modEq _ _).trans (ih.mul_left _)

/-- The low bits of two words are those of a difference that is divisible. -/
theorem setWidth_eq_iff (k : ℕ) (v w : BitVec 32) :
    v.setWidth k = w.setWidth k ↔ (2 : ℤ) ^ k ∣ v.toNat - w.toNat := by
  rw [← BitVec.toNat_inj, BitVec.toNat_setWidth, BitVec.toNat_setWidth]
  have hmod : v.toNat % 2 ^ k = w.toNat % 2 ^ k ↔ w.toNat ≡ v.toNat [MOD 2 ^ k] := eq_comm
  rw [hmod, Nat.modEq_iff_dvd]
  push_cast
  rfl

/-- The low `k` bits after two numbers of calls are the same if the numbers differ by a multiple of `2 ^ k`. -/
theorem tbrandom_low_bits (seed : BitVec 32) {k : ℕ} (hk : k ≤ 32) {m n : ℕ} (hmn : m ≤ n) :
    (tbrandom^[n] seed).setWidth k = (tbrandom^[m] seed).setWidth k ↔ 2 ^ k ∣ n - m := by
  have hdvd : (2 : ℤ) ^ k ∣ 2 ^ 32 := pow_dvd_pow 2 hk
  have hn := (tbrandom_iterate seed n).of_dvd hdvd
  have hm := (tbrandom_iterate seed m).of_dvd hdvd
  have hperiod := iterate_next_modEq (a := 1103515245) (c := 12345) (by decide) (by decide) seed.toNat k hmn
  rw [setWidth_eq_iff, ← hperiod]
  exact (hn.sub hm).dvd_iff

/-- The seed after fewer than `2 ^ 32` calls. -/
def seedAfter (seed : BitVec 32) (calls : Fin (2 ^ 32)) : Fin (2 ^ 32) := (tbrandom^[calls.val] seed).toFin

theorem seedAfter_injective (seed : BitVec 32) : Function.Injective (seedAfter seed) := by
  have hle : ∀ m n, m ≤ n → n < 2 ^ 32 → tbrandom^[n] seed = tbrandom^[m] seed → m = n := by
    intro m n hmn hn he
    have hdvd := (tbrandom_low_bits seed le_rfl hmn).mp (by rw [he])
    have hzero := Nat.eq_zero_of_dvd_of_lt hdvd (by omega)
    omega
  intro i j he
  have he : tbrandom^[i.val] seed = tbrandom^[j.val] seed := BitVec.toFin_inj.mp he
  rcases le_total i.val j.val with hij | hij
  · exact Fin.ext (hle _ _ hij j.isLt he.symm)
  · exact (Fin.ext (hle _ _ hij i.isLt he)).symm

/-- From any seed the low `k` bits go round in `2 ^ k` calls and no fewer, and in each `2 ^ 32` calls every
value comes up exactly once. -/
theorem tbrandom_period (seed : BitVec 32) :
    (∀ k ≤ 32, ∀ m n, m ≤ n →
      ((tbrandom^[n] seed).setWidth k = (tbrandom^[m] seed).setWidth k ↔ 2 ^ k ∣ n - m)) ∧
    ∀ value, ∃! n, n < 2 ^ 32 ∧ tbrandom^[n] seed = value := by
  refine ⟨fun k hk m n hmn => tbrandom_low_bits seed hk hmn, fun value => ?_⟩
  obtain ⟨i, hi⟩ := Finite.injective_iff_surjective.mp (seedAfter_injective seed) value.toFin
  refine ⟨i.val, ⟨i.isLt, BitVec.toFin_inj.mp hi⟩, fun n ⟨hn, he⟩ => ?_⟩
  have hsame : seedAfter seed ⟨n, hn⟩ = seedAfter seed i := by
    rw [hi]
    exact congrArg BitVec.toFin he
  exact congrArg Fin.val (seedAfter_injective seed hsame)

end ThreadBites.Random

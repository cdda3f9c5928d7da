import Mathlib

/-!
# A memory of bytes

Addresses are words of 64 bits; a word is stored with its least significant byte
first. What a store leaves alone is said of ranges of addresses below `2^64`.
-/
namespace ByteMemory

abbrev Memory := BitVec 64 → BitVec 8

/-- The number in `k` bytes from `a` on. -/
def load (m : Memory) (a : BitVec 64) : Nat → Nat
  | 0 => 0
  | k + 1 => (m a).toNat + 256 * load m (a + 1) k

/-- Write the number `v` to `k` bytes from `a` on. -/
def store (m : Memory) (a : BitVec 64) (v : Nat) : Nat → Memory
  | 0 => m
  | k + 1 => store (Function.update m a (BitVec.ofNat 8 v)) (a + 1) (v / 256) k

def load64 (m : Memory) (a : BitVec 64) : BitVec 64 := BitVec.ofNat 64 (load m a 8)

def store64 (m : Memory) (a v : BitVec 64) : Memory := store m a v.toNat 8

theorem add_one_add (a : BitVec 64) (i : Nat) :
    a + 1 + BitVec.ofNat 64 i = a + BitVec.ofNat 64 (i + 1) := by
  bv_omega

theorem load_congr {m m' : Memory} {a : BitVec 64} {k : Nat}
    (h : ∀ i < k, m' (a + BitVec.ofNat 64 i) = m (a + BitVec.ofNat 64 i)) :
    load m' a k = load m a k := by
  induction k generalizing a with
  | zero => rfl
  | succ k ih =>
    have h₀ : m' a = m a := by simpa using h 0 (Nat.succ_pos k)
    have htail := ih (a := a + 1) fun i hi => by
      rw [add_one_add]
      exact h (i + 1) (by omega)
    simp only [load, h₀, htail]

theorem store_other (m : Memory) {a b : BitVec 64} (v : Nat) {k : Nat}
    (h : ∀ i < k, b ≠ a + BitVec.ofNat 64 i) : store m a v k b = m b := by
  induction k generalizing m a v with
  | zero => rfl
  | succ k ih =>
    have h₀ : b ≠ a := by simpa using h 0 (Nat.succ_pos k)
    rw [store, ih]
    · simp [h₀]
    · intro i hi
      rw [add_one_add]
      exact h (i + 1) (by omega)

theorem load_store (m : Memory) (a : BitVec 64) (v : Nat) {k : Nat} (hk : k ≤ 2 ^ 64) :
    load (store m a v k) a k = v % 256 ^ k := by
  induction k generalizing m a v with
  | zero => simp [load, Nat.mod_one]
  | succ k ih =>
    have hbyte : store (Function.update m a (BitVec.ofNat 8 v)) (a + 1) (v / 256) k a =
        BitVec.ofNat 8 v := by
      rw [store_other]
      · simp
      · intro i hi
        rw [add_one_add]
        bv_omega
    rw [load, store, ih _ _ _ (by omega), hbyte, BitVec.toNat_ofNat]
    exact ((congrArg (v % ·) (Nat.pow_succ' (n := k))).trans (Nat.mod_mul (a := 256))).symm

/-- A word that was stored is loaded again. -/
@[simp] theorem load64_store64 (m : Memory) (a v : BitVec 64) : load64 (store64 m a v) a = v := by
  rw [load64, store64, load_store m a _ (by decide)]
  apply BitVec.eq_of_toNat_eq
  have := v.isLt
  simp only [BitVec.toNat_ofNat]
  omega

/-- Two memories have the same bytes from `lo` up to `hi`. -/
def Same (m m' : Memory) (lo hi : Nat) : Prop :=
  ∀ i, lo ≤ i → i < hi → m' (BitVec.ofNat 64 i) = m (BitVec.ofNat 64 i)

theorem Same.refl (m : Memory) (lo hi : Nat) : Same m m lo hi := fun _ _ _ => rfl

theorem Same.trans {m m' m'' : Memory} {lo hi : Nat} (h : Same m m' lo hi) (h' : Same m' m'' lo hi) :
    Same m m'' lo hi :=
  fun i hl hh => (h' i hl hh).trans (h i hl hh)

theorem Same.mono {m m' : Memory} {lo hi lo' hi' : Nat} (h : Same m m' lo hi) (hl : lo ≤ lo')
    (hh : hi' ≤ hi) : Same m m' lo' hi' :=
  fun i h₁ h₂ => h i (by omega) (by omega)

/-- Words are the same where the bytes are. -/
theorem Same.load64 {m m' : Memory} {lo hi x : Nat} (h : Same m m' lo hi) (hl : lo ≤ x)
    (hh : x + 8 ≤ hi) : load64 m' (BitVec.ofNat 64 x) = load64 m (BitVec.ofNat 64 x) := by
  apply congrArg (BitVec.ofNat 64)
  apply load_congr
  intro i hi
  rw [← BitVec.ofNat_add]
  exact h (x + i) (by omega) (by omega)

/-- A store changes nothing outside its eight bytes. -/
theorem same_store64 (m : Memory) {x : Nat} (v : BitVec 64) {lo hi : Nat} (hx : x + 8 ≤ 2 ^ 64)
    (hhi : hi ≤ 2 ^ 64) (h : hi ≤ x ∨ x + 8 ≤ lo) : Same m (store64 m (BitVec.ofNat 64 x) v) lo hi := by
  intro i hl hh
  apply store_other
  intro j hj he
  have he := congrArg BitVec.toNat he
  simp only [← BitVec.ofNat_add, BitVec.toNat_ofNat] at he
  omega

theorem same_update (m : Memory) {x : Nat} (b : BitVec 8) {lo hi : Nat} (hx : x < 2 ^ 64)
    (hhi : hi ≤ 2 ^ 64) (h : hi ≤ x ∨ x < lo) :
    Same m (Function.update m (BitVec.ofNat 64 x) b) lo hi := by
  intro i hl hh
  apply Function.update_of_ne
  intro he
  have he := congrArg BitVec.toNat he
  simp only [BitVec.toNat_ofNat] at he
  omega

/-- A word is loaded from memory as it was before a store elsewhere. -/
theorem load64_store64_other (m : Memory) {x y : Nat} (v : BitVec 64) (hx : x + 8 ≤ 2 ^ 64)
    (hy : y + 8 ≤ 2 ^ 64) (h : y + 8 ≤ x ∨ x + 8 ≤ y) :
    load64 (store64 m (BitVec.ofNat 64 x) v) (BitVec.ofNat 64 y) = load64 m (BitVec.ofNat 64 y) :=
  (same_store64 m v hx hy h).load64 (Nat.le_refl y) (Nat.le_refl (y + 8))

/-- Write `k` bytes from `a` on, in order, each from its index and the memory as it is by then. -/
def fill (byte : Memory → Nat → BitVec 8) (a : BitVec 64) : Nat → Memory → Memory
  | 0, m => m
  | k + 1, m => Function.update (fill byte a k m) (a + BitVec.ofNat 64 k) (byte (fill byte a k m) k)

theorem same_fill (byte : Memory → Nat → BitVec 8) (m : Memory) {x k lo hi : Nat} (hx : x + k ≤ 2 ^ 64)
    (hhi : hi ≤ 2 ^ 64) (h : hi ≤ x ∨ x + k ≤ lo) : Same m (fill byte (BitVec.ofNat 64 x) k m) lo hi := by
  induction k with
  | zero => exact Same.refl m lo hi
  | succ k ih =>
    have hbefore := ih (by omega) (by omega)
    rw [fill, ← BitVec.ofNat_add]
    exact hbefore.trans (same_update _ _ (by omega) hhi (by omega))

/-- A byte that was filled in is not written again. -/
theorem fill_get (byte : Memory → Nat → BitVec 8) (m : Memory) {x k i : Nat} (hx : x + k ≤ 2 ^ 64) (hi : i < k) :
    fill byte (BitVec.ofNat 64 x) k m (BitVec.ofNat 64 (x + i)) =
      byte (fill byte (BitVec.ofNat 64 x) i m) i := by
  induction k with
  | zero => cases hi
  | succ k ih =>
    rw [fill, ← BitVec.ofNat_add]
    by_cases he : i = k
    · subst he
      rw [Function.update_self]
    · have hsame : Same (fill byte (BitVec.ofNat 64 x) k m) (Function.update (fill byte (BitVec.ofNat 64 x) k m)
          (BitVec.ofNat 64 (x + k)) (byte (fill byte (BitVec.ofNat 64 x) k m) k)) x (x + k) :=
        same_update _ _ (by omega) (by omega) (.inl (Nat.le_refl _))
      rw [hsame (x + i) (by omega) (by omega)]
      exact ih (by omega) (by omega)

end ByteMemory

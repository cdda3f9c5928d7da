import ThreadBites.HeapBlocks
import ThreadBites.MallocSizes

/-!
# The loops of calloc and realloc

Both count in an `int` to a bound of 64 bits. What they read and write is recorded,
in order; a counter that overflows is undefined.
-/
namespace ThreadBites.HeapLoops

open ByteMemory
open Malloc (Heap sizeofMemchunk)
open HeapBlocks (copied)

def INT_MAX : Nat := 2147483647

section loop

variable {σ : Type}

/-- `for(int i = 0; i < bound; ++i, body)`, from `i` on. `none` is an overflow of `i`. -/
def intLoop (body : σ → σ) (bound : BitVec 64) : Nat → Nat → σ → Option σ
  | 0, _, _ => none
  | fuel + 1, i, x =>
      if i < bound.toNat then
        if i = INT_MAX then none else intLoop body bound fuel (i + 1) (body x)
      else some x

/-- The whole loop. An `int` has no more values than these steps. -/
def forInt (body : σ → σ) (bound : BitVec 64) (x : σ) : Option σ := intLoop body bound (INT_MAX + 1) 0 x

/-- The loop runs to its bound if an `int` can hold it. -/
theorem intLoop_some {body : σ → σ} {bound : BitVec 64} (hb : bound.toNat ≤ INT_MAX) {fuel i : Nat} (x : σ)
    (hf : INT_MAX < i + fuel) (hi : i ≤ bound.toNat) :
    intLoop body bound fuel i x = some (body^[bound.toNat - i] x) := by
  induction fuel generalizing i x with
  | zero => omega
  | succ fuel ih =>
    rw [intLoop]
    by_cases hlt : i < bound.toNat
    · have hne : i ≠ INT_MAX := by omega
      have hstep : bound.toNat - i = bound.toNat - (i + 1) + 1 := by omega
      rw [if_pos hlt, if_neg hne, ih (body x) (by omega) hlt, hstep, Function.iterate_succ_apply]
    · have hzero : bound.toNat - i = 0 := by omega
      rw [if_neg hlt, hzero]
      rfl

theorem intLoop_none {body : σ → σ} {bound : BitVec 64} (hb : INT_MAX < bound.toNat) {fuel i : Nat} (x : σ)
    (hi : i ≤ INT_MAX) : intLoop body bound fuel i x = none := by
  induction fuel generalizing i x with
  | zero => rfl
  | succ fuel ih =>
    rw [intLoop, if_pos (by omega)]
    split
    · rfl
    · exact ih (body x) (by omega)

theorem forInt_eq (body : σ → σ) (bound : BitVec 64) (x : σ) :
    forInt body bound x = if bound.toNat < 2 ^ 31 then some (body^[bound.toNat] x) else none := by
  unfold forInt
  split
  · exact intLoop_some (by unfold INT_MAX; omega) x (by omega) (Nat.zero_le _)
  · exact intLoop_none (by unfold INT_MAX; omega) x (Nat.zero_le _)

end loop

/-- The pointer of the zeroing loop, the memory, and what was written. -/
structure Zeroing where
  cptr : BitVec 64
  mem : Memory
  writes : List (BitVec 64)

/-- `*cptr++ = 0`. -/
def Zeroing.byte (z : Zeroing) : Zeroing :=
  ⟨z.cptr + 1, Function.update z.mem z.cptr 0, z.writes ++ [z.cptr]⟩

/-- The pointers of the copying loop, the memory, and what was read and written. -/
structure Copying where
  s : BitVec 64
  d : BitVec 64
  mem : Memory
  reads : List (BitVec 64)
  writes : List (BitVec 64)

/-- `*d++ = *s++`. -/
def Copying.byte (c : Copying) : Copying :=
  ⟨c.s + 1, c.d + 1, Function.update c.mem c.d (c.mem c.s), c.reads ++ [c.s], c.writes ++ [c.d]⟩

/-- The first `n` addresses from `a` on. -/
def run (a : BitVec 64) (n : Nat) : List (BitVec 64) := (List.range n).map fun i => a + BitVec.ofNat 64 i

theorem run_succ (a : BitVec 64) (n : Nat) : run a (n + 1) = run a n ++ [a + BitVec.ofNat 64 n] := by
  simp [run, List.range_succ]

theorem ofNat_succ_eq (a : BitVec 64) (n : Nat) : a + BitVec.ofNat 64 n + 1 = a + BitVec.ofNat 64 (n + 1) := by
  rw [BitVec.add_assoc]
  congr 1
  exact (BitVec.ofNat_add n 1).symm

theorem zeroing_iterate (cptr : BitVec 64) (m : Memory) (n : Nat) :
    Zeroing.byte^[n] ⟨cptr, m, []⟩ =
      ⟨cptr + BitVec.ofNat 64 n, HeapBlocks.zeroLoop cptr n m, run cptr n⟩ := by
  induction n with
  | zero => simp [HeapBlocks.zeroLoop, fill, run]
  | succ n ih =>
    rw [Function.iterate_succ_apply', ih, Zeroing.byte, run_succ, ofNat_succ_eq]
    rfl

/-- The byte that the copying loop reads at an index. -/
def fromSource (s : BitVec 64) (m : Memory) (i : Nat) : BitVec 8 := m (s + BitVec.ofNat 64 i)

theorem copying_iterate (s d : BitVec 64) (m : Memory) (n : Nat) :
    Copying.byte^[n] ⟨s, d, m, [], []⟩ =
      ⟨s + BitVec.ofNat 64 n, d + BitVec.ofNat 64 n, fill (fromSource s) d n m, run s n, run d n⟩ := by
  induction n with
  | zero => simp [fill, run]
  | succ n ih =>
    rw [Function.iterate_succ_apply', ih, Copying.byte, run_succ, run_succ, ofNat_succ_eq, ofNat_succ_eq]
    rfl

/-- `calloc`: the heap and the pointer, and what the loop wrote. -/
def calloc (head : BitVec 64) (h : Heap) (nmemb size : BitVec 64) (granted : Bool) :
    Option ((Heap × BitVec 64) × List (BitVec 64)) :=
  (Malloc.malloc head h (nmemb * size) granted).bind fun r =>
    if r.2 = 0 then some (r, [])
    else (forInt Zeroing.byte (nmemb * size) ⟨r.2, r.1.mem, []⟩).map fun z =>
      (({ r.1 with mem := z.mem }, r.2), z.writes)

/-- `realloc`: the heap and the pointer, and where the loop left off. `none` is an access through a pointer that is
0, an overflow, or a loop that does not end. -/
def realloc (head : BitVec 64) (h : Heap) (ptr size : BitVec 64) (granted : Bool) :
    Option ((Heap × BitVec 64) × Copying) :=
  (Malloc.malloc head h size granted).bind fun r =>
    let min := copied r.1.mem (ptr - sizeofMemchunk) size
    if ptr = 0 ∨ r.2 = 0 ∧ min ≠ 0 then none
    else (forInt Copying.byte min ⟨ptr, r.2, r.1.mem, [], []⟩).map fun c =>
      ((Malloc.free { r.1 with mem := c.mem } ptr, r.2), c)

end ThreadBites.HeapLoops

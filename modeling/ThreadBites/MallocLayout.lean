import ThreadBites.Malloc
import ThreadBites.Tiling

/-!
# The heap as a row of chunks

What the allocator keeps is a row of chunks laid end to end from the first limit.
A chunk carries that its size is a multiple of 8, at least 16, and enough for the
request it serves. `Linked` says that a memory holds the headers of a row.
-/
namespace ThreadBites.Malloc

open ByteMemory Tiling

/-- A chunk, and the request that it serves if it is used. -/
structure Chunk where
  bytes : Nat
  request : Option (BitVec 64)
  aligned : bytes % 8 = 0
  atLeast : 16 ≤ bytes
  holds : ∀ r, request = some r → r.toNat ≤ bytes

/-- The header and what follows it. -/
def Chunk.len (k : Chunk) : Nat := 16 + k.bytes

/-- The second word of the header. -/
def Chunk.word (k : Chunk) : BitVec 64 :=
  if k.request.isSome then BitVec.ofNat 64 k.bytes ||| MEMCHUNK_USED else BitVec.ofNat 64 k.bytes

def Chunk.release (k : Chunk) : Chunk := { k with request := none, holds := nofun }

theorem Chunk.len_pos (k : Chunk) : 0 < k.len := by
  simp only [Chunk.len]
  omega

/-- What a request of `n` bytes is rounded up to. -/
def rounded (n : Nat) : Nat := max 16 ((n + 7) / 8 * 8)

/-- The whole pages that a request of `n` bytes asks for. -/
def pages (n : Nat) : Nat := (n + 15) / 4096 * 4096 + 4096

/-- `(size - 1) >> 3 << 3` clears three bits. -/
theorem round_toNat (bytes : BitVec 64) : (((bytes - 1) >>> 3) <<< 3).toNat = (bytes - 1).toNat / 8 * 8 := by
  simp only [BitVec.toNat_shiftLeft, BitVec.toNat_ushiftRight, Nat.shiftRight_eq_div_pow, Nat.shiftLeft_eq]
  have := (bytes - 1).isLt
  omega

theorem allocSize_toNat {bytes : BitVec 64} (h : bytes.toNat ≤ 2 ^ 64 - 8) :
    (allocSize bytes).toNat = rounded bytes.toNat := by
  have hround := round_toNat bytes
  unfold allocSize rounded
  generalize (((bytes - 1) >>> 3) <<< 3) = w at hround
  by_cases hz : bytes.toNat = 0
  · -- `size - 1` wraps, and adding 8 wraps back to 0
    have hpred : (bytes - 1).toNat = 2 ^ 64 - 1 := by bv_omega
    have hw : w + 8 < 16 := by bv_omega
    rw [if_pos hw, hz]
    rfl
  · have hpred : (bytes - 1).toNat = bytes.toNat - 1 := by bv_omega
    have hw : (w + 8).toNat = (bytes.toNat + 7) / 8 * 8 := by bv_omega
    split
    · have : (w + 8).toNat < 16 := by bv_omega
      simp
      omega
    · have : 16 ≤ (w + 8).toNat := by bv_omega
      omega

/-- The last sizes are rounded up to `2 ^ 64`, which is 0. -/
theorem allocSize_wraps {bytes : BitVec 64} (h : 2 ^ 64 - 8 < bytes.toNat) : allocSize bytes = 16 := by
  have hround := round_toNat bytes
  unfold allocSize
  generalize (((bytes - 1) >>> 3) <<< 3) = w at hround
  have hw : w + 8 < 16 := by bv_omega
  rw [if_pos hw]

theorem allocSize_spec {bytes : BitVec 64} (h : bytes.toNat < 2 ^ 47) :
    (allocSize bytes).toNat % 8 = 0 ∧ 16 ≤ (allocSize bytes).toNat ∧
      bytes.toNat ≤ (allocSize bytes).toNat ∧ (allocSize bytes).toNat ≤ bytes.toNat + 16 := by
  rw [allocSize_toNat (by omega), rounded]
  omega

theorem chunkSize_toNat {bytes : BitVec 64} (h : bytes.toNat + 15 < 2 ^ 64) :
    (chunkSize bytes).toNat = pages bytes.toNat % 2 ^ 64 := by
  have hsum : (bytes + sizeofMemchunk - 1).toNat = bytes.toNat + 15 := by
    simp only [sizeofMemchunk]
    bv_omega
  have hpage : EXEC_PAGESIZE.toNat = 4096 := rfl
  simp only [chunkSize, BitVec.toNat_add, BitVec.toNat_mul, BitVec.toNat_udiv, hsum, hpage, pages]
  omega

/-- The last sizes ask for a page. -/
theorem chunkSize_wraps {bytes : BitVec 64} (h : 2 ^ 64 ≤ bytes.toNat + 15) : chunkSize bytes = 4096 := by
  have hsum : (bytes + sizeofMemchunk - 1).toNat = bytes.toNat + 15 - 2 ^ 64 := by
    simp only [sizeofMemchunk]
    bv_omega
  have hpage : EXEC_PAGESIZE.toNat = 4096 := rfl
  have hlt := bytes.isLt
  have hzero : (bytes + sizeofMemchunk - 1) / EXEC_PAGESIZE = 0 := by
    apply BitVec.eq_of_toNat_eq
    rw [BitVec.toNat_udiv, hsum, hpage]
    exact Nat.div_eq_of_lt (by omega)
  rw [chunkSize, hzero]
  rfl

/-- Whole pages hold a header and the rounded request. -/
theorem chunkSize_spec {bytes : BitVec 64} (h : bytes.toNat < 2 ^ 47) :
    (chunkSize bytes).toNat % 8 = 0 ∧ (allocSize bytes).toNat + 16 ≤ (chunkSize bytes).toNat := by
  rw [chunkSize_toNat (by omega), allocSize_toNat (by omega), rounded, pages]
  omega

theorem used_eq : MEMCHUNK_USED = BitVec.twoPow 64 62 := rfl

/-- Sizes leave the bit of `MEMCHUNK_USED` alone. -/
theorem and_used {n : Nat} (h : n < 2 ^ 62) : BitVec.ofNat 64 n &&& MEMCHUNK_USED = 0 := by
  rw [used_eq, BitVec.and_twoPow, BitVec.getLsbD_ofNat, Nat.testBit_lt_two_pow h]
  rfl

theorem or_used_and_used (w : BitVec 64) : (w ||| MEMCHUNK_USED) &&& MEMCHUNK_USED ≠ 0 := by
  rw [BitVec.and_or_distrib_right, BitVec.and_self]
  intro h
  have := congrArg (BitVec.getLsbD · 62) h
  simp [used_eq] at this

theorem and_not_used {n : Nat} (h : n < 2 ^ 62) :
    BitVec.ofNat 64 n &&& ~~~MEMCHUNK_USED = BitVec.ofNat 64 n := by
  have hz := and_used h
  calc BitVec.ofNat 64 n &&& ~~~MEMCHUNK_USED
      = (BitVec.ofNat 64 n &&& ~~~MEMCHUNK_USED) ||| (BitVec.ofNat 64 n &&& MEMCHUNK_USED) := by simp [hz]
    _ = BitVec.ofNat 64 n := by
      rw [← BitVec.and_or_distrib_left, BitVec.or_comm, BitVec.or_not_self, BitVec.and_allOnes]

theorem or_used_and_not_used {n : Nat} (h : n < 2 ^ 62) :
    (BitVec.ofNat 64 n ||| MEMCHUNK_USED) &&& ~~~MEMCHUNK_USED = BitVec.ofNat 64 n := by
  rw [BitVec.and_or_distrib_right, and_not_used h]
  simp

theorem Chunk.word_and_not_used {k : Chunk} (h : k.bytes < 2 ^ 62) :
    k.word &&& ~~~MEMCHUNK_USED = BitVec.ofNat 64 k.bytes := by
  unfold Chunk.word
  split
  · exact or_used_and_not_used h
  · exact and_not_used h

theorem Chunk.word_and_used {k : Chunk} (h : k.bytes < 2 ^ 62) :
    k.word &&& MEMCHUNK_USED = 0 ↔ k.request = none := by
  unfold Chunk.word
  split
  · rename_i hr
    exact ⟨fun hz => absurd hz (or_used_and_used _), fun hn => by simp [hn] at hr⟩
  · rename_i hr
    exact ⟨fun _ => by simpa using hr, fun _ => and_used h⟩

/-- The pointer to a row at `a`: its first chunk, or what comes after an empty row. -/
def target (a : Nat) (e : BitVec 64) : List Chunk → BitVec 64
  | [] => e
  | _ :: _ => BitVec.ofNat 64 a

/-- The headers of a row at `a` are in memory, the last of them pointing to `e`. -/
def Headers (m : Memory) (e : BitVec 64) : Nat → List Chunk → Prop
  | _, [] => True
  | a, k :: ks => size m (BitVec.ofNat 64 a) = k.word ∧
      next m (BitVec.ofNat 64 a) = target (a + k.len) e ks ∧ Headers m e (a + k.len) ks

/-- The row is followed from `head`. -/
structure Linked (m : Memory) (head : BitVec 64) (a : Nat) (ks : List Chunk) (e : BitVec 64) : Prop where
  first : next m head = target a e ks
  headers : Headers m e a ks

theorem target_append (a : Nat) (e : BitVec 64) (l r : List Chunk) :
    target a e (l ++ r) = target a (target (stop Chunk.len a l) e r) l := by
  cases l <;> rfl

theorem headers_append (m : Memory) (e : BitVec 64) (a : Nat) (l r : List Chunk) :
    Headers m e a (l ++ r) ↔
      Headers m (target (stop Chunk.len a l) e r) a l ∧ Headers m e (stop Chunk.len a l) r := by
  induction l generalizing a with
  | nil => simp [Headers, stop]
  | cons k l ih =>
    simp only [List.cons_append, Headers, stop, ih, target_append, and_assoc]

theorem linked_append {m : Memory} {head e : BitVec 64} {a : Nat} {l r : List Chunk} :
    Linked m head a (l ++ r) e ↔
      Linked m head a l (target (stop Chunk.len a l) e r) ∧ Headers m e (stop Chunk.len a l) r := by
  constructor
  · rintro ⟨hf, hh⟩
    obtain ⟨hl, hr⟩ := (headers_append m e a l r).mp hh
    exact ⟨⟨hf.trans (target_append a e l r), hl⟩, hr⟩
  · rintro ⟨⟨hf, hl⟩, hr⟩
    exact ⟨hf.trans (target_append a e l r).symm, (headers_append m e a l r).mpr ⟨hl, hr⟩⟩

theorem ofNat_add_eight (a : Nat) : BitVec.ofNat 64 a + 8 = BitVec.ofNat 64 (a + 8) :=
  (BitVec.ofNat_add a 8).symm

/-- Headers stay as they are where the bytes do. -/
theorem Headers.same {m m' : Memory} {e : BitVec 64} {a : Nat} {ks : List Chunk} (h : Headers m e a ks)
    (hs : Same m m' a (stop Chunk.len a ks)) : Headers m' e a ks := by
  induction ks generalizing a with
  | nil => trivial
  | cons k ks ih =>
    obtain ⟨hsize, hnext, htail⟩ := h
    have hle := le_stop Chunk.len (a + k.len) ks
    have hlen : k.len = 16 + k.bytes := rfl
    refine ⟨?_, ?_, ih htail (hs.mono (by omega) (Nat.le_refl _))⟩
    · rw [size, ofNat_add_eight, hs.load64 (by omega) (by simp only [stop]; omega), ← ofNat_add_eight]
      exact hsize
    · rw [next, hs.load64 (Nat.le_refl a) (by simp only [stop]; omega)]
      exact hnext

/-- The cursor after a row: its last chunk, or `head`. -/
def lastPtr (head : BitVec 64) : Nat → List Chunk → BitVec 64
  | _, [] => head
  | a, k :: ks => lastPtr (BitVec.ofNat 64 a) (a + k.len) ks

theorem Linked.tail {m : Memory} {head e : BitVec 64} {a : Nat} {k : Chunk} {ks : List Chunk}
    (h : Linked m head a (k :: ks) e) : Linked m (BitVec.ofNat 64 a) (a + k.len) ks e :=
  ⟨h.headers.2.1, h.headers.2.2⟩

theorem Linked.next_lastPtr {m : Memory} {head e : BitVec 64} {a : Nat} {ks : List Chunk}
    (h : Linked m head a ks e) : next m (lastPtr head a ks) = e := by
  induction ks generalizing head a with
  | nil => exact h.first
  | cons k ks ih => exact ih h.tail

end ThreadBites.Malloc

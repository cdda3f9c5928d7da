import ThreadBites.ReallocCopies

/-!
# The arrays of calloc

The product of the two sizes is what `malloc` is asked for, so one that wraps gets a
block for the rest. A product that an `int` cannot count is not zeroed.
-/
namespace ThreadBites.HeapLoops

open ByteMemory
open Malloc (Heap sizeofMemchunk WellFormed Fits used payload knownLimit chunkSize allocSize)

/-- The block of an array, with nothing but zeros in it. -/
structure ZeroedArray (head first : BitVec 64) (bytes : Nat) (r : Heap × BitVec 64) (writes l : List (BitVec 64)) : Prop where
  wellFormed : WellFormed head first r.1 l
  inside : r.2 - sizeofMemchunk ∈ l
  used : used r.1.mem (r.2 - sizeofMemchunk) = true
  holds : bytes ≤ payload r.1.mem (r.2 - sizeofMemchunk)
  zeroed : ∀ i < bytes, r.1.mem (r.2 + BitVec.ofNat 64 i) = 0
  writes : writes = run r.2 bytes

/-- `calloc` gives the whole array or nothing. -/
def ArrayOrNothing (head first : BitVec 64) (h : Heap) (nmemb size : BitVec 64) (granted : Bool) : Prop :=
  ∃ r writes, calloc head h nmemb size granted = some (r, writes) ∧
    (r.2 = 0 ∨ ∃ l, ZeroedArray head first (nmemb.toNat * size.toNat) r writes l)

/-- A block that `malloc` gave, after the loop. -/
theorem zeroedArray {head first bytes : BitVec 64} {h : Heap} {l l' : List (BitVec 64)} {r : Heap × BitVec 64}
    (hg : Malloc.Gives head first h l bytes r l') :
    ZeroedArray head first bytes.toNat ({ r.1 with mem := HeapBlocks.zeroLoop r.2 bytes.toNat r.1.mem }, r.2)
      (run r.2 bytes.toNat) l' := by
  have hbelow := hg.wellFormed.below
  have hin := (hg.wellFormed.mem_bounds hg.inside).2
  have hholds := hg.holds
  have hptr : r.2 - sizeofMemchunk + sizeofMemchunk = r.2 := BitVec.sub_add_cancel _ _
  have haddr : r.2.toNat = (r.2 - sizeofMemchunk).toNat + 16 := by
    have hs : sizeofMemchunk.toNat = 16 := rfl
    rw [← hptr, BitVec.toNat_add, hs, BitVec.sub_add_cancel, Nat.mod_eq_of_lt (by omega)]
  obtain ⟨hwell, hsize⟩ := hg.wellFormed.fill hg.inside hg.used (fun _ _ => 0) hholds
  rw [hptr] at hwell hsize
  constructor
  case wellFormed => exact hwell
  case inside => exact hg.inside
  case used =>
    have hused := hg.used
    unfold used at hused ⊢
    exact hsize.symm ▸ hused
  case holds =>
    unfold payload at hholds ⊢
    exact hsize.symm ▸ hholds
  case zeroed =>
    intro i hi
    have hfill := fill_get (fun _ _ => 0) r.1.mem (x := r.2.toNat) (k := bytes.toNat) (by omega) hi
    rwa [BitVec.ofNat_add, Malloc.ofNat_toNat_head] at hfill
  case writes => rfl

theorem calloc_null {head nmemb size : BitVec 64} {h : Heap} {granted : Bool} {r : Heap × BitVec 64}
    (hr : Malloc.malloc head h (nmemb * size) granted = some r) (hz : r.2 = 0) :
    calloc head h nmemb size granted = some (r, []) := by
  rw [calloc, hr, Option.bind_some, if_pos hz]

theorem calloc_some {head nmemb size : BitVec 64} {h : Heap} {granted : Bool} {r : Heap × BitVec 64}
    (hr : Malloc.malloc head h (nmemb * size) granted = some r) (hne : r.2 ≠ 0) :
    calloc head h nmemb size granted = if (nmemb * size).toNat < 2 ^ 31 then
      some (({ r.1 with mem := HeapBlocks.zeroLoop r.2 (nmemb * size).toNat r.1.mem }, r.2), run r.2 (nmemb * size).toNat)
      else none := by
  rw [calloc, hr, Option.bind_some, if_neg hne, forInt_eq, zeroing_iterate]
  split
  · rfl
  · rfl

/-- An array that was given is one whose size an `int` counts. -/
theorem lt_of_arrayOrNothing {head first nmemb size : BitVec 64} {h : Heap} {granted : Bool} {r : Heap × BitVec 64}
    (hr : Malloc.malloc head h (nmemb * size) granted = some r) (hne : r.2 ≠ 0)
    (ha : ArrayOrNothing head first h nmemb size granted) : nmemb.toNat * size.toNat < 2 ^ 31 := by
  obtain ⟨r', writes, hc, hz | ⟨l, harray⟩⟩ := ha <;> rw [calloc_some hr hne] at hc
  · split at hc
    · cases hc
      exact absurd hz hne
    · cases hc
  · have hbelow := harray.wellFormed.below
    have hin := (harray.wellFormed.mem_bounds harray.inside).2
    have hholds := harray.holds
    split at hc
    · rename_i hlt
      rw [BitVec.toNat_mul] at hlt
      generalize nmemb.toNat * size.toNat = product at *
      omega
    · cases hc

/-- `calloc` is right exactly if an `int` counts the product, or there is no memory for what is left of it. -/
theorem calloc_array {head first nmemb size : BitVec 64} {h : Heap} {l : List (BitVec 64)} {granted : Bool}
    (hw : WellFormed head first h l)
    (hgrant : granted = true → (knownLimit h + chunkSize (nmemb * size)).toNat < 2 ^ 47) :
    ArrayOrNothing head first h nmemb size granted ↔ nmemb.toNat * size.toNat < 2 ^ 31 ∨
      (∀ q ∈ l, ¬ Fits h.mem (allocSize (nmemb * size)).toNat q) ∧ (granted = false ∨ chunkSize (nmemb * size) = 0) := by
  obtain ⟨r, hr, -, hnull⟩ := hw.malloc_null (nmemb * size) granted
  rw [← hnull]
  by_cases hz : r.2 = 0
  · exact iff_of_true ⟨r, [], calloc_null hr hz, .inl hz⟩ (.inr hz)
  · rw [or_iff_left hz]
    refine ⟨lt_of_arrayOrNothing hr hz, fun hlt => ?_⟩
    have hmul : (nmemb * size).toNat = nmemb.toNat * size.toNat := by
      rw [BitVec.toNat_mul, Nat.mod_eq_of_lt (by omega)]
    obtain ⟨r', hr', href | ⟨l', hg⟩⟩ := hw.refuses_or_gives (by omega) hgrant <;>
      obtain rfl := Option.some.inj (hr.symm.trans hr')
    · exact absurd href.pointer hz
    · have hsome := calloc_some hr hz
      rw [if_pos (by omega)] at hsome
      have harray := zeroedArray hg
      rw [hmul] at harray hsome
      exact ⟨_, _, hsome, .inr ⟨l', harray⟩⟩

/-- `calloc(25, 4)` on the page that is full. -/
theorem calloc_array_grown : ArrayOrNothing 16 4096 fullPage 25 4 true :=
  (calloc_array fullPage_wellFormed (fullPage_granted (by decide))).mpr (.inl (by decide))

/-- `calloc(2^32, 2^32)` returns a block of 16 bytes, since the product wraps to 0. -/
theorem calloc_array_wrapped : WellFormed 16 4096 fullPage [4096] ∧
    ¬ ArrayOrNothing 16 4096 fullPage 4294967296 4294967296 true := by
  obtain ⟨r, hs⟩ : ∃ r, Succeeds 16 fullPage 0 true r := fullPage_succeeds (by decide)
  have hzero : (4294967296 * 4294967296 : BitVec 64) = 0 := by decide
  have hr : Malloc.malloc 16 fullPage (4294967296 * 4294967296) true = some r := hzero ▸ hs.returns
  exact ⟨fullPage_wellFormed, fun ha => absurd (lt_of_arrayOrNothing hr hs.pointer ha) (by decide)⟩

end ThreadBites.HeapLoops

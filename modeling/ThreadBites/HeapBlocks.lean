import ThreadBites.MallocFrame

/-!
# calloc, realloc and what blocks hold

The blocks of the program are kept with what their bytes should be: what a call
found or put there, and what the program wrote since. No call reads that record.
-/
namespace ThreadBites.HeapBlocks

open Transition ByteMemory
open Malloc (Heap sizeofMemchunk chunkSize knownLimit payload)

/-- `for(int i = 0; i < alloc_size; ++i, *cptr++ = 0)`. -/
def zeroLoop (cptr : BitVec 64) (n : Nat) (m : Memory) : Memory := fill (fun _ _ => 0) cptr n m

/-- `calloc`: the heap and the pointer. -/
def calloc (head : BitVec 64) (h : Heap) (nmemb size : BitVec 64) (granted : Bool) :
    Option (Heap × BitVec 64) :=
  (Malloc.malloc head h (nmemb * size) granted).map fun r =>
    if r.2 = 0 then r else ({ r.1 with mem := zeroLoop r.2 (nmemb * size).toNat r.1.mem }, r.2)

/-- `for(int i = 0; i < min; ++i, *d++ = *s++)`. The old block has `held` bytes; `stray` is what is
read past them. -/
def copyLoop (stray : Nat → BitVec 8) (held : Nat) (s d : BitVec 64) (n : Nat) (m : Memory) : Memory :=
  fill (fun m i => if i < held then m (s + BitVec.ofNat 64 i) else stray i) d n m

/-- `chunk->size > size ? size : chunk->size`, where the bit of `MEMCHUNK_USED` is not cleared. -/
def copied (m : Memory) (chunk size : BitVec 64) : BitVec 64 :=
  if size < Malloc.size m chunk then size else Malloc.size m chunk

/-- `realloc`. `none` is an access through a pointer that is 0, or a loop of `malloc` that does not end. -/
def realloc (head : BitVec 64) (h : Heap) (ptr size : BitVec 64) (granted : Bool) (stray : Nat → BitVec 8) :
    Option (Heap × BitVec 64) :=
  (Malloc.malloc head h size granted).bind fun r =>
    let chunk := ptr - sizeofMemchunk
    let min := copied r.1.mem chunk size
    if ptr = 0 ∨ r.2 = 0 ∧ min ≠ 0 then none
    else
      let m := copyLoop stray (payload r.1.mem chunk) ptr r.2 min.toNat r.1.mem
      some (Malloc.free { r.1 with mem := m } ptr, r.2)

/-- A block, with the size that was asked for and what its bytes should be. -/
structure Block where
  ptr : BitVec 64
  bytes : BitVec 64
  content : Nat → BitVec 8

structure State where
  heap : Heap
  blocks : List Block

/-- A call, or a write of the program at an offset in a block. -/
inductive Action where
  | malloc (bytes : BitVec 64) (granted : Bool)
  | calloc (nmemb size : BitVec 64) (granted : Bool)
  | realloc (ptr bytes : BitVec 64) (granted : Bool) (stray : Nat → BitVec 8)
  | free (ptr : BitVec 64)
  | write (ptr offset : BitVec 64) (byte : BitVec 8)

/-- What a block holds that nothing was put in. -/
def found (m : Memory) (ptr : BitVec 64) (i : Nat) : BitVec 8 := m (ptr + BitVec.ofNat 64 i)

/-- The old contents as far as both blocks go, then what was found. -/
def carried (old : Option Block) (bytes : BitVec 64) (rest : Nat → BitVec 8) (i : Nat) : BitVec 8 :=
  match old with
  | some b => if i < min b.bytes.toNat bytes.toNat then b.content i else rest i
  | none => rest i

def Block.write (b : Block) (offset : BitVec 64) (byte : BitVec 8) : Block :=
  { b with content := Function.update b.content offset.toNat byte }

/-- A call that returns 0 gives the program no block. -/
def given (ptr bytes : BitVec 64) (content : Nat → BitVec 8) (blocks : List Block) : List Block :=
  if ptr = 0 then blocks else ⟨ptr, bytes, content⟩ :: blocks

/-- The block at a pointer is no longer the program's. -/
def dropped (ptr : BitVec 64) (blocks : List Block) : List Block := blocks.eraseP fun b => b.ptr = ptr

def step (head : BitVec 64) (s : State) : Action → Option State
  | .malloc bytes granted => (Malloc.malloc head s.heap bytes granted).map fun r =>
      ⟨r.1, given r.2 bytes (found r.1.mem r.2) s.blocks⟩
  | .calloc nmemb size granted => (calloc head s.heap nmemb size granted).map fun r =>
      ⟨r.1, given r.2 (nmemb * size) (fun _ => 0) s.blocks⟩
  | .realloc ptr bytes granted stray => (realloc head s.heap ptr bytes granted stray).map fun r =>
      ⟨r.1, given r.2 bytes (carried (s.blocks.find? fun b => b.ptr = ptr) bytes (found r.1.mem r.2))
        (dropped ptr s.blocks)⟩
  | .free ptr => some ⟨Malloc.free s.heap ptr, dropped ptr s.blocks⟩
  | .write ptr offset byte => some
      { heap := { s.heap with mem := Function.update s.heap.mem (ptr + offset) byte }
        blocks := s.blocks.map fun b => if b.ptr = ptr then b.write offset byte else b }

/-- The size is below `2^31`, the limit stays below `2^47`, and the allocation succeeds. -/
def Succeeds (head : BitVec 64) (s : State) (bytes : Nat) (granted : Bool) : Prop :=
  bytes < 2 ^ 31 ∧
    (granted = true → (knownLimit s.heap).toNat + (chunkSize (BitVec.ofNat 64 bytes)).toNat < 2 ^ 47) ∧
    ∀ r, Malloc.malloc head s.heap (BitVec.ofNat 64 bytes) granted = some r → r.2 ≠ 0

/-- Allocations succeed, and the program frees, moves and writes what it holds. -/
def Admitted (head : BitVec 64) (s : State) : Action → Prop
  | .malloc bytes granted => Succeeds head s bytes.toNat granted
  | .calloc nmemb size granted => Succeeds head s (nmemb.toNat * size.toNat) granted
  | .realloc ptr bytes granted _ => Succeeds head s bytes.toNat granted ∧ ∃ b ∈ s.blocks, b.ptr = ptr
  | .free ptr => ptr = 0 ∨ ∃ b ∈ s.blocks, b.ptr = ptr
  | .write ptr offset _ => ∃ b ∈ s.blocks, b.ptr = ptr ∧ offset.toNat < b.bytes.toNat

/-- The heap as the calls see it, with the sizes that were asked for. -/
def State.plain (s : State) : Malloc.State := ⟨s.heap, s.blocks.map fun b => (b.ptr, b.bytes)⟩

/-- Nothing was allocated. -/
def Initial (head first : BitVec 64) (s : State) : Prop := Malloc.Initial head first s.plain

/-- The memory has the contents of a block. -/
def Holds (m : Memory) (b : Block) : Prop := ∀ i < b.bytes.toNat, found m b.ptr i = b.content i

/-- The block at a pointer is no longer the program's after the step. -/
def Action.releases (ptr : BitVec 64) : Action → Bool
  | .free p => p = ptr
  | .realloc p _ _ _ => p = ptr
  | _ => false

/-- The program writes a byte of the block. -/
def Action.writes (ptr : BitVec 64) (i : Nat) : Action → Bool
  | .write p offset _ => p = ptr && offset.toNat = i
  | _ => false

/-- What a program can rely on in a state. -/
structure Uncorrupted (head : BitVec 64) (s : State) : Prop where
  contents : ∀ b ∈ s.blocks, Holds s.heap.mem b
  returns : ∀ a, Admitted head s a → (step head s a).isSome
  kept : ∀ a t, Admitted head s a → step head s a = some t → ∀ b ∈ s.blocks, a.releases b.ptr = false →
    ∃ c ∈ t.blocks, c.ptr = b.ptr ∧ c.bytes = b.bytes ∧
      ∀ i < b.bytes.toNat, a.writes b.ptr i = false → found t.heap.mem b.ptr i = found s.heap.mem b.ptr i
  zeroed : ∀ nmemb size granted t, Admitted head s (.calloc nmemb size granted) →
    step head s (.calloc nmemb size granted) = some t →
    ∃ b, t.blocks = b :: s.blocks ∧ b.bytes = nmemb * size ∧ ∀ i < b.bytes.toNat, found t.heap.mem b.ptr i = 0
  moved : ∀ b ∈ s.blocks, ∀ bytes granted stray t, Admitted head s (.realloc b.ptr bytes granted stray) →
    step head s (.realloc b.ptr bytes granted stray) = some t →
    ∃ c, t.blocks = c :: dropped b.ptr s.blocks ∧ c.bytes = bytes ∧
      ∀ i < min b.bytes.toNat bytes.toNat, found t.heap.mem c.ptr i = found s.heap.mem b.ptr i

end ThreadBites.HeapBlocks

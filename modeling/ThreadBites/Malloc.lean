import ThreadBites.ByteMemory
import ThreadBites.Transition

/-!
# malloc and free

Chunks are headers of two words in a memory of bytes, `next` and `size`, and are
followed from the static `head`. Pointers and sizes are words of 64 bits, so all
arithmetic wraps. Whether the kernel grants a call of `brk` is up to the
environment; a refused call returns the limit as it is.
-/
namespace ThreadBites.Malloc

open Transition ByteMemory

def MEMCHUNK_USED : BitVec 64 := 0x4000000000000000

def EXEC_PAGESIZE : BitVec 64 := 4096

/-- `sizeof(memchunk_t)`. -/
def sizeofMemchunk : BitVec 64 := 16

/-- `p->next`. -/
def next (m : Memory) (p : BitVec 64) : BitVec 64 := load64 m p

/-- `p->size`. -/
def size (m : Memory) (p : BitVec 64) : BitVec 64 := load64 m (p + 8)

def setNext (m : Memory) (p v : BitVec 64) : Memory := store64 m p v

def setSize (m : Memory) (p v : BitVec 64) : Memory := store64 m (p + 8) v

/-- `heap_limit`, and the break as the kernel has it. -/
structure Heap where
  mem : Memory
  limit : BitVec 64
  brk : BitVec 64

/-- The request, rounded up to 8 bytes and at least 16. -/
def allocSize (size : BitVec 64) : BitVec 64 :=
  if (((size - 1) >>> 3) <<< 3) + 8 < 16 then 16 else (((size - 1) >>> 3) <<< 3) + 8

/-- What to ask Linux for: whole pages, at least one. -/
def chunkSize (size : BitVec 64) : BitVec 64 :=
  (size + sizeofMemchunk - 1) / EXEC_PAGESIZE * EXEC_PAGESIZE + EXEC_PAGESIZE

/-- `!(chunk->size & MEMCHUNK_USED) && chunk->size >= alloc_size`. -/
def suits (m : Memory) (alloc chunk : BitVec 64) : Bool :=
  size m chunk &&& MEMCHUNK_USED = 0 && alloc ≤ size m chunk

/-- `while(cursor->next)`: the cursor where the loop stops. -/
def findLoop (m : Memory) (alloc : BitVec 64) : Nat → BitVec 64 → Option (BitVec 64)
  | 0, _ => none
  | fuel + 1, cursor =>
      if next m cursor = 0 ∨ suits m alloc (next m cursor) = true then some cursor
      else findLoop m alloc fuel (next m cursor)

/-- `tbbrk`, as the break that it leaves and returns. -/
def tbbrk (brk addr : BitVec 64) (granted : Bool) : BitVec 64 := if granted then addr else brk

/-- `if(!heap_limit) heap_limit = tbbrk(0)`. -/
def knownLimit (h : Heap) : BitVec 64 := if h.limit = 0 then tbbrk h.brk 0 false else h.limit

/-- Ask Linux for more memory: the new last chunk, if there is one. -/
def grow (h : Heap) (cursor bytes : BitVec 64) (granted : Bool) : Heap × Option (BitVec 64) :=
  let limit := knownLimit h
  let newLimit := tbbrk h.brk (limit + chunkSize bytes) granted
  if limit = newLimit then (⟨h.mem, limit, newLimit⟩, none)
  else
    let m := setNext h.mem cursor limit
    let chunk := next m cursor
    let m := setSize m chunk (newLimit - limit - sizeofMemchunk)
    (⟨setNext m chunk 0, newLimit, newLimit⟩, some chunk)

/-- Split the chunk if a header and more than 16 bytes are left. -/
def split (m : Memory) (chunk alloc : BitVec 64) : Memory :=
  if alloc + sizeofMemchunk + 16 < size m chunk then
    let newChunk := chunk + sizeofMemchunk + alloc
    let m := setSize m newChunk (size m chunk - alloc - sizeofMemchunk)
    let m := setNext m newChunk (next m chunk)
    let m := setNext m chunk newChunk
    setSize m chunk alloc
  else m

/-- `chunk->size |= MEMCHUNK_USED`. -/
def markUsed (m : Memory) (chunk : BitVec 64) : Memory :=
  setSize m chunk (size m chunk ||| MEMCHUNK_USED)

/-- The number of steps that the loops over the chunks are given. -/
def fuel : Nat := 2 ^ 64

/-- `malloc`: the heap and the pointer. `none` is a loop that does not end. -/
def malloc (head : BitVec 64) (h : Heap) (bytes : BitVec 64) (granted : Bool) :
    Option (Heap × BitVec 64) :=
  (findLoop h.mem (allocSize bytes) fuel head).map fun cursor =>
    let found := if next h.mem cursor = 0 then grow h cursor bytes granted
      else (h, some (next h.mem cursor))
    match found with
    | (h, none) => (h, 0)
    | (h, some chunk) =>
        ({ h with mem := markUsed (split h.mem chunk (allocSize bytes)) chunk }, chunk + sizeofMemchunk)

def free (h : Heap) (ptr : BitVec 64) : Heap :=
  if ptr = 0 then h
  else
    let chunk := ptr - sizeofMemchunk
    { h with mem := setSize h.mem chunk (size h.mem chunk &&& ~~~MEMCHUNK_USED) }

/-- The loop of `tb_heap_state`, counting into `total` and `allocated`. -/
def heapStateLoop (m : Memory) : Nat → BitVec 64 → Nat → Nat → Option (Nat × Nat)
  | 0, _, _, _ => none
  | fuel + 1, cursor, total, allocated =>
      if next m cursor = 0 then some (total, allocated)
      else heapStateLoop m fuel (next m cursor) (total + 1)
        (if size m (next m cursor) &&& MEMCHUNK_USED ≠ 0 then allocated + 1 else allocated)

/-- `tb_heap_state`. -/
def heapState (head : BitVec 64) (h : Heap) : Option (Nat × Nat) := heapStateLoop h.mem fuel head 0 0

/-- The heap, and what the program holds: the blocks it was given and did not free, each with
the size it asked for. -/
structure State where
  heap : Heap
  live : List (BitVec 64 × BitVec 64)

/-- A call, or a write of the program at an offset in a block. -/
inductive Action where
  | malloc (bytes : BitVec 64) (granted : Bool)
  | free (ptr : BitVec 64)
  | write (ptr offset : BitVec 64) (byte : BitVec 8)
  deriving DecidableEq, Repr

def step (head : BitVec 64) (s : State) : Action → Option State
  | .malloc bytes granted => (malloc head s.heap bytes granted).map fun r =>
      ⟨r.1, if r.2 = 0 then s.live else (r.2, bytes) :: s.live⟩
  | .free ptr => some ⟨free s.heap ptr, s.live.eraseP fun b => b.1 = ptr⟩
  | .write ptr offset byte => some { s with
      heap := { s.heap with mem := Function.update s.heap.mem (ptr + offset) byte } }

/-- Sizes and the limit stay below `2^47`, and the program frees and writes what it holds. -/
def Admitted (s : State) : Action → Prop
  | .malloc bytes granted => bytes.toNat < 2 ^ 47 ∧
      (granted = true → (knownLimit s.heap).toNat + (chunkSize bytes).toNat < 2 ^ 47)
  | .free ptr => ptr = 0 ∨ ptr ∈ s.live.map Prod.fst
  | .write ptr offset _ => ∃ b ∈ s.live, b.1 = ptr ∧ offset.toNat < b.2.toNat

instance (s : State) (a : Action) : Decidable (Admitted s a) := by
  cases a <;> unfold Admitted <;> infer_instance

/-- Nothing was allocated: `head` is zero, the limit not known, and the break lies above the
static data, aligned to 8. -/
structure Initial (head first : BitVec 64) (s : State) : Prop where
  limit : s.heap.limit = 0
  brk : s.heap.brk = first
  empty : next s.heap.mem head = 0
  live : s.live = []
  above : head.toNat + 16 ≤ first.toNat
  below : first.toNat < 2 ^ 47
  aligned : first.toNat % 8 = 0

end ThreadBites.Malloc

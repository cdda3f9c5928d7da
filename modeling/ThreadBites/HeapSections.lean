import ThreadBites.HeapContents
import ThreadBites.FutexSections

/-!
# The allocator of many threads, access by access

Under `memory_lock` every word of a header is read and written in an instruction
of its own, while other threads write to their blocks, clear those of `calloc` and
copy those of `realloc` without the lock. Which blocks there are, whose they are
and what they should hold is history. `brk` grants nothing from `2^47` on.
-/
namespace ThreadBites.HeapThreads

open Transition ByteMemory CriticalSections
open Malloc (Heap MEMCHUNK_USED sizeofMemchunk allocSize chunkSize)
open HeapBlocks (Block)

variable {τ : Type}

/-- A block that is in use: the program's, or inside of a call of a thread. -/
structure Entry (τ : Type) where
  block : Block
  owner : Option τ

/-- What the threads share: the heap, and the history that no access reads. -/
structure Shared (τ : Type) where
  heap : Heap
  entries : List (Entry τ)

/-- What a call of `malloc` is for. `realloc` goes on with the block as it was when it was called. -/
inductive Purpose where
  | malloc
  | calloc
  | realloc (old : Block)

/-- Where a thread is. -/
inductive Pc where
  | out (ret : BitVec 64)
  | malloc (bytes : BitVec 64) (k : Purpose)
  | got (ptr bytes : BitVec 64) (k : Purpose)
  | zero (ptr bytes : BitVec 64) (i : Nat)
  | copy (old : Block) (ptr bytes min : BitVec 64) (i : Nat)
  | free (ptr : BitVec 64)
  | freeOld (old : Block) (ptr bytes : BitVec 64)
  | back (ptr bytes : BitVec 64) (k : Purpose)

abbrev Section (τ : Type) := Body (Shared τ) Pc Empty Bool

def Shared.setMem (m : Memory) (d : Shared τ) : Shared τ := { d with heap := { d.heap with mem := m } }

def Shared.setLimit (v : BitVec 64) (d : Shared τ) : Shared τ := { d with heap := { d.heap with limit := v } }

def Shared.setBrk (v : BitVec 64) (d : Shared τ) : Shared τ := { d with heap := { d.heap with brk := v } }

@[simp] theorem setMem_mem (m : Memory) (d : Shared τ) : (d.setMem m).heap.mem = m := rfl
@[simp] theorem setLimit_mem (v : BitVec 64) (d : Shared τ) : (d.setLimit v).heap.mem = d.heap.mem := rfl
@[simp] theorem setLimit_limit (v : BitVec 64) (d : Shared τ) : (d.setLimit v).heap.limit = v := rfl
@[simp] theorem setLimit_brk (v : BitVec 64) (d : Shared τ) : (d.setLimit v).heap.brk = d.heap.brk := rfl
@[simp] theorem setBrk_limit (v : BitVec 64) (d : Shared τ) : (d.setBrk v).heap.limit = d.heap.limit := rfl

/-- Read a word of the memory. -/
def readWord (a : BitVec 64) (rest : BitVec 64 → Section τ) : Section τ := .load (fun d => load64 d.heap.mem a) rest

/-- Write a word of the memory. -/
def writeWord (a v : BitVec 64) (rest : Section τ) : Section τ := .store (fun d => d.setMem (store64 d.heap.mem a v)) rest

/-- `while(cursor->next)`: the cursor and the chunk where the loop stops. -/
def findSection (alloc : BitVec 64) (rest : BitVec 64 → BitVec 64 → Section τ) : Nat → BitVec 64 → BitVec 64 → Section τ
  | 0, _, _ => .fault
  | fuel + 1, cursor, chunk =>
      readWord cursor fun n =>
        if n = 0 then rest cursor chunk
        else readWord cursor fun chunk => readWord (chunk + 8) fun size =>
          if size &&& MEMCHUNK_USED = 0 then readWord (chunk + 8) fun size =>
            if alloc ≤ size then rest cursor chunk
            else readWord cursor fun n => findSection alloc rest fuel n chunk
          else readWord cursor fun n => findSection alloc rest fuel n chunk

/-- `if(!heap_limit) heap_limit = tbbrk(0)`. -/
def knowLimit (rest : Section τ) : Section τ :=
  .load (·.heap.limit) fun limit =>
    if limit = 0 then .load (·.heap.brk) fun brk => .store (·.setLimit brk) rest else rest

/-- `tbbrk(addr)`: the break afterwards. -/
def brkSection (addr : BitVec 64) (rest : BitVec 64 → Section τ) : Section τ :=
  .ask fun granted => if granted = true ∧ addr.toNat < 2 ^ 47 then .store (·.setBrk addr) (rest addr)
    else .load (·.heap.brk) rest

/-- What is done with the break that Linux returned: the new last chunk, if there is one. -/
def linkSection (bytes cursor newLimit : BitVec 64) (k : Purpose) (rest : BitVec 64 → Section τ) : Section τ :=
  .load (·.heap.limit) fun limit => .load (·.heap.limit) fun limit' =>
    if limit' = newLimit then .done .nobody (.got 0 bytes k)
    else .load (·.heap.limit) fun limit' => writeWord cursor limit' <| readWord cursor fun chunk =>
      writeWord (chunk + 8) (newLimit - limit - sizeofMemchunk) <| writeWord chunk 0 <|
        .store (·.setLimit newLimit) (rest chunk)

/-- Ask Linux for more memory, and go on with the new last chunk. -/
def growSection (bytes cursor : BitVec 64) (k : Purpose) (rest : BitVec 64 → Section τ) : Section τ :=
  knowLimit <| .load (·.heap.limit) fun limit => brkSection (limit + chunkSize bytes) fun newLimit =>
    linkSection bytes cursor newLimit k rest

/-- Split the chunk if a header and more than 16 bytes are left. -/
def splitSection (chunk alloc : BitVec 64) (rest : Section τ) : Section τ :=
  readWord (chunk + 8) fun size =>
    if alloc + sizeofMemchunk + 16 < size then readWord (chunk + 8) fun size =>
      writeWord (chunk + sizeofMemchunk + alloc + 8) (size - alloc - sizeofMemchunk) <| readWord chunk fun next =>
        writeWord (chunk + sizeofMemchunk + alloc) next <| writeWord chunk (chunk + sizeofMemchunk + alloc) <|
          writeWord (chunk + 8) alloc rest
    else rest

/-- What the bytes of a block are when it is given. -/
def found (m : Memory) (ptr bytes : BitVec 64) (i : Nat) : BitVec 8 :=
  if i < bytes.toNat then m (ptr + BitVec.ofNat 64 i) else 0

/-- The block in a chunk is in use, by the call that it was found for. -/
def Shared.give (t : τ) (ptr bytes : BitVec 64) (d : Shared τ) : Shared τ :=
  if ptr = 0 then d else
    { d with entries := ⟨{ ptr := ptr, bytes := bytes, content := found d.heap.mem ptr bytes }, some t⟩ :: d.entries }

/-- `chunk->size |= MEMCHUNK_USED`, which takes the block into use. -/
def markSection (t : τ) (chunk bytes : BitVec 64) (k : Purpose) : Section τ :=
  readWord (chunk + 8) fun size =>
    .store (fun d => (d.setMem (store64 d.heap.mem (chunk + 8) (size ||| MEMCHUNK_USED))).give t
      (chunk + sizeofMemchunk) bytes) (.done .nobody (.got (chunk + sizeofMemchunk) bytes k))

/-- `malloc`. -/
def mallocSection (head : BitVec 64) (t : τ) (bytes : BitVec 64) (k : Purpose) : Section τ :=
  findSection (allocSize bytes) (fun cursor chunk => readWord cursor fun n =>
    if n = 0 then growSection bytes cursor k fun chunk => splitSection chunk (allocSize bytes) (markSection t chunk bytes k)
    else splitSection chunk (allocSize bytes) (markSection t chunk bytes k)) Malloc.fuel head 0

/-- What a thread does without the lock: calls, writes of the program, and the next step of a call, with
the byte that `realloc` finds where it reads past the old block. -/
inductive Outside where
  | malloc (bytes : BitVec 64)
  | calloc (nmemb size : BitVec 64)
  | realloc (ptr bytes : BitVec 64)
  | free (ptr : BitVec 64)
  | write (ptr offset : BitVec 64) (byte : BitVec 8)
  | next (stray : BitVec 8)

section Owners

variable [DecidableEq τ]

/-- The block at a pointer, inside of a call of `t`. -/
def Entry.isOf (t : τ) (ptr : BitVec 64) (x : Entry τ) : Bool := x.block.ptr = ptr && x.owner = some t

def Shared.take (t : τ) (ptr : BitVec 64) (d : Shared τ) : Shared τ :=
  { d with entries := d.entries.eraseP (·.isOf t ptr) }

/-- `free` of a pointer that is not 0, and where it leads to. -/
def freeSection (t : τ) (ptr : BitVec 64) (p : Pc) : Section τ :=
  readWord (ptr - sizeofMemchunk + 8) fun size =>
    .store (fun d => (d.setMem (store64 d.heap.mem (ptr - sizeofMemchunk + 8) (size &&& ~~~MEMCHUNK_USED))).take t ptr)
      (.done .nobody p)

def sectionAt (head : BitVec 64) (t : τ) : Pc → Option (Section τ)
  | .malloc bytes k => some (mallocSection head t bytes k)
  | .free ptr => some (freeSection t ptr (.out 0))
  | .freeOld old ptr bytes => some (freeSection t old.ptr (.back ptr bytes (.realloc old)))
  | _ => none

/-- Change the entries of an owner. -/
def Shared.change (owner : Option τ) (g : Entry τ → Entry τ) (d : Shared τ) : Shared τ :=
  { d with entries := d.entries.map fun x => if x.owner = owner then g x else x }

/-- Blocks go from one owner to another, all of them or the one at a pointer. -/
def Shared.pass (owner : Option τ) (p : Entry τ → Bool) (owner' : Option τ) : Shared τ → Shared τ :=
  Shared.change owner fun x => if p x then { x with owner := owner' } else x

/-- Write a byte of the block at a pointer. -/
def Shared.put (owner : Option τ) (ptr offset : BitVec 64) (byte : BitVec 8) (d : Shared τ) : Shared τ :=
  (d.setMem (Function.update d.heap.mem (ptr + offset) byte)).change owner fun x =>
    if x.block.ptr = ptr then { x with block := x.block.write offset byte } else x

/-- The program's block at a pointer. -/
def Shared.find (d : Shared τ) (ptr : BitVec 64) : Option (Entry τ) :=
  d.entries.find? fun x => x.owner = none && x.block.ptr = ptr

/-- The next step of a call, without the lock. -/
def nextStep (d : Shared τ) (t : τ) (stray : BitVec 8) : Pc → Option (Shared τ × Pc)
  | .got ptr bytes .malloc => some (d, .back ptr bytes .malloc)
  | .got ptr bytes .calloc => some (d, if ptr = 0 then .out 0 else .zero ptr bytes 0)
  | .got ptr bytes (.realloc old) =>
      let min := HeapBlocks.copied d.heap.mem (old.ptr - sizeofMemchunk) bytes
      if ptr = 0 ∧ min ≠ 0 then none else some (d, .copy old ptr bytes min 0)
  | .zero ptr bytes i =>
      if i < bytes.toNat then some (d.put (some t) ptr (BitVec.ofNat 64 i) 0, .zero ptr bytes (i + 1))
      else some (d, .back ptr bytes .calloc)
  | .copy old ptr bytes min i =>
      if i < min.toNat then
        some (d.put (some t) ptr (BitVec.ofNat 64 i)
          (if i < old.bytes.toNat then d.heap.mem (old.ptr + BitVec.ofNat 64 i) else stray),
          .copy old ptr bytes min (i + 1))
      else some (d, .freeOld old ptr bytes)
  | .back ptr _ _ => some (d.pass (some t) (fun _ => true) none, .out ptr)
  | _ => none

def outside (d : Shared τ) (t : τ) : Pc → Outside → Option (Shared τ × Pc)
  | .out _, .malloc bytes => some (d, .malloc bytes .malloc)
  | .out _, .calloc nmemb size => some (d, .malloc (nmemb * size) .calloc)
  | .out _, .realloc ptr bytes => (d.find ptr).map fun x =>
      (d.pass none (·.block.ptr = ptr) (some t), .malloc bytes (.realloc x.block))
  | .out _, .free ptr =>
      if ptr = 0 then some (d, .out 0)
      else (d.find ptr).map fun _ => (d.pass none (·.block.ptr = ptr) (some t), .free ptr)
  | p@(.out _), .write ptr offset byte => (d.find ptr).map fun _ => (d.put none ptr offset byte, p)
  | p, .next stray => nextStep d t stray p
  | _, _ => none

def code (head : BitVec 64) : Code τ (Shared τ) Pc Empty Bool Outside where
  enter := sectionAt head
  outer := outside
  waits _ := false
  asleep := Empty.elim
  resume := Empty.elim

/-- Sizes are below `2^47`, of `calloc` and `realloc` below `2^31`, and the program writes inside of its blocks. -/
def demands : Demands τ (Shared τ) Pc Outside where
  outer d _ _ o := match o with
    | .malloc bytes => bytes.toNat < 2 ^ 47
    | .calloc nmemb size => nmemb.toNat * size.toNat < 2 ^ 31
    | .realloc _ bytes => bytes.toNat < 2 ^ 31
    | .write ptr offset _ => ∀ x, d.find ptr = some x → offset.toNat < x.block.bytes.toNat
    | _ => True
  leave _ := True

instance (d : Shared τ) (t : τ) (p : Pc) : (o : Outside) → Decidable (demands.outer d t p o)
  | .malloc bytes => inferInstanceAs (Decidable (bytes.toNat < 2 ^ 47))
  | .calloc nmemb size => inferInstanceAs (Decidable (nmemb.toNat * size.toNat < 2 ^ 31))
  | .realloc _ bytes => inferInstanceAs (Decidable (bytes.toNat < 2 ^ 31))
  | .write ptr offset _ => match h : d.find ptr with
    | none => isTrue fun _ hx => nomatch h.symm.trans hx
    | some y => decidable_of_iff (offset.toNat < y.block.bytes.toNat)
        ⟨fun hy _ hx => Option.some.inj (h.symm.trans hx) ▸ hy, fun hall => hall y h⟩
  | .free _ | .next _ => isTrue trivial

instance (d : Shared τ) : Decidable (demands.leave d) := isTrue trivial

end Owners

@[simp] theorem exec_readWord {a : BitVec 64} {rest : BitVec 64 → Section τ} {answers : List Bool} {d : Shared τ} :
    (readWord a rest).exec answers d = (rest (load64 d.heap.mem a)).exec answers d := rfl

@[simp] theorem exec_writeWord {a v : BitVec 64} {rest : Section τ} {answers : List Bool} {d : Shared τ} :
    (writeWord a v rest).exec answers d = rest.exec answers (d.setMem (store64 d.heap.mem a v)) := rfl

/-- The search of a section is that of `malloc`, if what follows looks at the chunk only when there is one. -/
theorem exec_find {alloc : BitVec 64} {rest : BitVec 64 → BitVec 64 → Section τ} {answers : List Bool} {d : Shared τ}
    (hrest : ∀ cursor chunk chunk', Malloc.next d.heap.mem cursor = 0 →
      (rest cursor chunk).exec answers d = (rest cursor chunk').exec answers d) (fuel : Nat) (cursor chunk : BitVec 64) :
    (findSection alloc rest fuel cursor chunk).exec answers d =
      (Malloc.findLoop d.heap.mem alloc fuel cursor).bind fun c => (rest c (Malloc.next d.heap.mem c)).exec answers d := by
  induction fuel generalizing cursor chunk with
  | zero => rfl
  | succ fuel ih =>
    simp only [findSection, exec_readWord, Malloc.findLoop]
    by_cases hn : load64 d.heap.mem cursor = 0
    · have hn' : Malloc.next d.heap.mem cursor = 0 := hn
      simp only [hn, hn', if_true, true_or, Option.bind_some]
      exact hrest cursor _ _ hn
    · have hn' : Malloc.next d.heap.mem cursor ≠ 0 := hn
      have hsuits : Malloc.suits d.heap.mem alloc (Malloc.next d.heap.mem cursor) = true ↔
          load64 d.heap.mem (load64 d.heap.mem cursor + 8) &&& MEMCHUNK_USED = 0 ∧
            alloc ≤ load64 d.heap.mem (load64 d.heap.mem cursor + 8) := by
        rw [Malloc.suits, Bool.and_eq_true, decide_eq_true_eq, decide_eq_true_eq]
        rfl
      simp only [hn, hn', hsuits, if_false, false_or, exec_readWord]
      split
      · rename_i hu
        simp only [hu, true_and, exec_readWord]
        split
        · rfl
        · exact ih _ _
      · rename_i hu
        simp only [hu, false_and, if_false, exec_readWord]
        exact ih _ _

theorem exec_knowLimit (rest : Section τ) (answers : List Bool) (d : Shared τ) :
    (knowLimit rest).exec answers d = rest.exec answers (d.setLimit (Malloc.knownLimit d.heap)) := by
  simp only [knowLimit, Malloc.knownLimit, exec_load]
  split
  · rfl
  · rfl

/-- Whether the kernel grants a break: it may, below `2^47`. -/
def grants (granted : Bool) (addr : BitVec 64) : Bool := granted && decide (addr.toNat < 2 ^ 47)

theorem exec_brk (addr : BitVec 64) (rest : BitVec 64 → Section τ) (granted : Bool) (answers : List Bool)
    (d : Shared τ) : (brkSection addr rest).exec (granted :: answers) d =
      (rest (Malloc.tbbrk d.heap.brk addr (grants granted addr))).exec answers
        (d.setBrk (Malloc.tbbrk d.heap.brk addr (grants granted addr))) := by
  simp only [brkSection, Body.exec]
  split
  · rename_i hg
    have hyes : grants granted addr = true := by simpa [grants] using hg
    rw [hyes]
    rfl
  · rename_i hg
    have hno : grants granted addr = false := by simpa [grants] using hg
    rw [hno]
    rfl

/-- What `grow` does when Linux has returned a break. -/
def linked (h : Heap) (cursor newLimit : BitVec 64) : Heap × Option (BitVec 64) :=
  if h.limit = newLimit then (h, none)
  else
    let m := Malloc.setNext h.mem cursor h.limit
    let chunk := Malloc.next m cursor
    let m := Malloc.setSize m chunk (newLimit - h.limit - sizeofMemchunk)
    (⟨Malloc.setNext m chunk 0, newLimit, h.brk⟩, some chunk)

theorem grow_eq (h : Heap) (cursor bytes : BitVec 64) (granted : Bool) : Malloc.grow h cursor bytes granted =
    linked ⟨h.mem, Malloc.knownLimit h, Malloc.tbbrk h.brk (Malloc.knownLimit h + chunkSize bytes) granted⟩ cursor
      (Malloc.tbbrk h.brk (Malloc.knownLimit h + chunkSize bytes) granted) := rfl

/-- Where a section has come to that goes on with a chunk if there is one. -/
def wentOn (bytes : BitVec 64) (k : Purpose) (rest : BitVec 64 → Section τ) (answers : List Bool) (d : Shared τ) :
    Heap × Option (BitVec 64) → Option (Shared τ × Wake Empty × Pc)
  | (h, none) => some ({ d with heap := h }, .nobody, .got 0 bytes k)
  | (h, some chunk) => (rest chunk).exec answers { d with heap := h }

theorem exec_link (bytes cursor newLimit : BitVec 64) (k : Purpose) (rest : BitVec 64 → Section τ)
    (answers : List Bool) (d : Shared τ) : (linkSection bytes cursor newLimit k rest).exec answers d =
      wentOn bytes k rest answers d (linked d.heap cursor newLimit) := by
  simp only [linkSection, exec_load, linked]
  split
  · rfl
  · simp only [exec_load, exec_writeWord, exec_readWord, exec_store, wentOn, Malloc.next, Malloc.setNext,
      Malloc.setSize, Shared.setMem, Shared.setLimit]

theorem exec_grow (bytes cursor : BitVec 64) (k : Purpose) (rest : BitVec 64 → Section τ) (granted : Bool)
    (answers : List Bool) (d : Shared τ) : (growSection bytes cursor k rest).exec (granted :: answers) d =
      wentOn bytes k rest answers d
        (Malloc.grow d.heap cursor bytes (grants granted (Malloc.knownLimit d.heap + chunkSize bytes))) := by
  rw [growSection, exec_knowLimit, exec_load, exec_brk, exec_link, grow_eq]
  rfl

theorem exec_split (chunk alloc : BitVec 64) (rest : Section τ) (answers : List Bool) (d : Shared τ) :
    (splitSection chunk alloc rest).exec answers d =
      rest.exec answers (d.setMem (Malloc.split d.heap.mem chunk alloc)) := by
  by_cases hcut : alloc + sizeofMemchunk + 16 < load64 d.heap.mem (chunk + 8)
  · simp only [splitSection, Malloc.split, Malloc.size, exec_readWord, hcut, if_true, exec_writeWord, Malloc.next,
      Malloc.setNext, Malloc.setSize, Shared.setMem]
  · simp only [splitSection, Malloc.split, Malloc.size, exec_readWord, hcut, if_false, Shared.setMem]

theorem exec_mark (t : τ) (chunk bytes : BitVec 64) (k : Purpose) (answers : List Bool) (d : Shared τ) :
    (markSection t chunk bytes k).exec answers d =
      some ((d.setMem (Malloc.markUsed d.heap.mem chunk)).give t (chunk + sizeofMemchunk) bytes, .nobody,
        .got (chunk + sizeofMemchunk) bytes k) := rfl

/-- Where `malloc` has come to. -/
def mallocked (t : τ) (bytes : BitVec 64) (k : Purpose) (d : Shared τ) (r : Heap × BitVec 64) :
    Shared τ × Wake Empty × Pc :=
  (({ d with heap := r.1 } : Shared τ).give t r.2 bytes, .nobody, .got r.2 bytes k)

/-- A chunk serves the request, in a section and in `malloc`. -/
theorem exec_serve (t : τ) (chunk bytes : BitVec 64) (k : Purpose) (answers : List Bool) (d : Shared τ) :
    (splitSection chunk (allocSize bytes) (markSection t chunk bytes k)).exec answers d =
      some (mallocked t bytes k d ({ d.heap with
        mem := Malloc.markUsed (Malloc.split d.heap.mem chunk (allocSize bytes)) chunk }, chunk + sizeofMemchunk)) := by
  rw [exec_split, exec_mark]
  simp only [mallocked, Shared.setMem]

/-- What the section of `malloc` comes to is what `malloc` comes to, with the answer of the kernel. -/
theorem exec_malloc {head : BitVec 64} {t : τ} {bytes : BitVec 64} {k : Purpose} {answers : List Bool} {d : Shared τ}
    {r : Shared τ × Wake Empty × Pc} (h : (mallocSection head t bytes k).exec answers d = some r) :
    ∃ granted x, (granted = true → (Malloc.knownLimit d.heap + chunkSize bytes).toNat < 2 ^ 47) ∧
      Malloc.malloc head d.heap bytes granted = some x ∧ r = mallocked t bytes k d x := by
  rw [mallocSection, exec_find] at h
  · obtain ⟨c, hc, h⟩ := Option.bind_eq_some_iff.mp h
    rw [exec_readWord] at h
    by_cases hn : Malloc.next d.heap.mem c = 0
    · rw [if_pos (show load64 d.heap.mem c = 0 from hn)] at h
      cases answers with
      | nil =>
        rw [growSection, exec_knowLimit] at h
        cases h
      | cons granted answers =>
        rw [exec_grow] at h
        obtain ⟨heap, chunk, hgrow⟩ : ∃ heap chunk, Malloc.grow d.heap c bytes
          (grants granted (Malloc.knownLimit d.heap + chunkSize bytes)) = (heap, chunk) := ⟨_, _, rfl⟩
        rw [hgrow] at h
        have hgrant : grants granted (Malloc.knownLimit d.heap + chunkSize bytes) = true →
            (Malloc.knownLimit d.heap + chunkSize bytes).toNat < 2 ^ 47 := fun hg =>
          of_decide_eq_true (Bool.and_eq_true_iff.mp hg).2
        cases chunk with
        | none =>
          refine ⟨_, (heap, 0), hgrant, ?_, (Option.some.inj h).symm⟩
          simp only [Malloc.malloc, hc, Option.map_some, hn, if_true, hgrow]
        | some chunk =>
          rw [wentOn, exec_serve] at h
          refine ⟨_, _, hgrant, ?_, (Option.some.inj h).symm⟩
          simp only [Malloc.malloc, hc, Option.map_some, hn, if_true, hgrow]
    · rw [if_neg (show ¬load64 d.heap.mem c = 0 from hn), exec_serve] at h
      refine ⟨false, _, nofun, ?_, (Option.some.inj h).symm⟩
      simp only [Malloc.malloc, hc, Option.map_some, hn, if_false]
  · intro cursor chunk chunk' hn
    rw [exec_readWord, exec_readWord, if_pos (show load64 d.heap.mem cursor = 0 from hn),
      if_pos (show load64 d.heap.mem cursor = 0 from hn)]

end ThreadBites.HeapThreads

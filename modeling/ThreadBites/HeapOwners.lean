import ThreadBites.HeapAccesses
import ThreadBites.AtomicSections

/-!
# Blocks change hands

A block is the program's, or inside of the call of a thread until that call returns
it or releases it. How far a call has come shows in the contents of the blocks that
are its own, which no other thread writes.
-/
namespace ThreadBites.HeapThreads

open Transition ByteMemory CriticalSections
open Malloc (sizeofMemchunk)
open HeapBlocks (Block Holds)

variable {τ : Type}

/-- The heap with all blocks, whosever they are. -/
def Shared.whole (d : Shared τ) : HeapBlocks.State := ⟨d.heap, d.entries.map Entry.block⟩

/-- The block is inside of a call of `t`. -/
def Shared.Has (d : Shared τ) (t : τ) (b : Block) : Prop := ⟨b, some t⟩ ∈ d.entries

/-- A call of `t` got a block, unless the pointer is 0. -/
def Shared.Got (d : Shared τ) (t : τ) (ptr bytes : BitVec 64) (φ : (Nat → BitVec 8) → Prop) : Prop :=
  ptr ≠ 0 → ∃ content, d.Has t ⟨ptr, bytes, content⟩ ∧ φ content

def Zeroed (n : Nat) (content : Nat → BitVec 8) : Prop := ∀ i < n, content i = 0

/-- The first `n` bytes are those of the old block, as far as it goes. -/
def Carries (old : Block) (n : Nat) (content : Nat → BitVec 8) : Prop :=
  ∀ i < min old.bytes.toNat n, content i = old.content i

/-- What a block has to hold when its call is over. -/
def Purpose.Filled (bytes : BitVec 64) : Purpose → (Nat → BitVec 8) → Prop
  | .malloc, _ => True
  | .calloc, content => Zeroed bytes.toNat content
  | .realloc old, content => Carries old bytes.toNat content

/-- What a call asks for, and holds while it does. -/
def Purpose.Asks (d : Shared τ) (t : τ) (bytes : BitVec 64) : Purpose → Prop
  | .malloc => bytes.toNat < 2 ^ 47
  | .calloc => bytes.toNat < 2 ^ 31
  | .realloc old => bytes.toNat < 2 ^ 31 ∧ d.Has t old

/-- `realloc` has the old block and the new one, with `n` bytes copied. -/
structure Moving (d : Shared τ) (t : τ) (old : Block) (ptr bytes : BitVec 64) (n : Nat) : Prop where
  has : d.Has t old
  apart : old.ptr ≠ ptr
  got : d.Got t ptr bytes (Carries old n)

/-- What the place of a thread says about the blocks. -/
def Placed (d : Shared τ) (t : τ) : Pc → Prop
  | .out _ => True
  | .malloc bytes k => k.Asks d t bytes
  | .got ptr bytes k => k.Asks d t bytes ∧ d.Got t ptr bytes (fun _ => True) ∧ ∀ old, k = .realloc old → old.ptr ≠ ptr
  | .zero ptr bytes i => i ≤ bytes.toNat ∧ ∃ content, d.Has t ⟨ptr, bytes, content⟩ ∧ Zeroed i content
  | .copy old ptr bytes min i => Moving d t old ptr bytes i ∧ i ≤ min.toNat ∧ min = bytes ∧ (ptr = 0 → min = 0)
  | .free ptr => ∃ b, d.Has t b ∧ b.ptr = ptr
  | .freeOld old ptr bytes => Moving d t old ptr bytes bytes.toNat
  | .back ptr bytes k => d.Got t ptr bytes (k.Filled bytes)

structure Inv (head first : BitVec 64) (s : State τ (Shared τ) Pc) : Prop where
  blocks : HeapBlocks.Inv head first s.data.whole
  placed : ∀ t, Placed s.data t (s.place t)

section Frame

variable {d d' : Shared τ} {t : τ}

theorem Shared.Got.mono (hkeep : ∀ b, d.Has t b → d'.Has t b) {ptr bytes : BitVec 64} {φ : (Nat → BitVec 8) → Prop}
    (h : d.Got t ptr bytes φ) : d'.Got t ptr bytes φ := by
  intro hne
  obtain ⟨content, hhas, hφ⟩ := h hne
  exact ⟨content, hkeep _ hhas, hφ⟩

theorem Purpose.Asks.mono (hkeep : ∀ b, d.Has t b → d'.Has t b) {bytes : BitVec 64} {k : Purpose}
    (h : k.Asks d t bytes) : k.Asks d' t bytes := by
  cases k with
  | malloc => exact h
  | calloc => exact h
  | realloc old => exact ⟨h.1, hkeep _ h.2⟩

theorem Moving.mono (hkeep : ∀ b, d.Has t b → d'.Has t b) {old : Block} {ptr bytes : BitVec 64} {n : Nat}
    (h : Moving d t old ptr bytes n) : Moving d' t old ptr bytes n :=
  ⟨hkeep _ h.has, h.apart, h.got.mono hkeep⟩

/-- A thread is placed as before as long as its blocks stay its own. -/
theorem Placed.mono (hkeep : ∀ b, d.Has t b → d'.Has t b) {p : Pc} (h : Placed d t p) : Placed d' t p := by
  cases p with
  | out ret => trivial
  | malloc bytes k => exact Purpose.Asks.mono hkeep h
  | got ptr bytes k => exact ⟨h.1.mono hkeep, h.2.1.mono hkeep, h.2.2⟩
  | zero ptr bytes i =>
    obtain ⟨hi, content, hhas, hzero⟩ := h
    exact ⟨hi, content, hkeep _ hhas, hzero⟩
  | copy old ptr bytes min i => exact ⟨h.1.mono hkeep, h.2⟩
  | free ptr =>
    obtain ⟨b, hhas, hptr⟩ := h
    exact ⟨b, hkeep _ hhas, hptr⟩
  | freeOld old ptr bytes => exact Moving.mono hkeep h
  | back ptr bytes k => exact Shared.Got.mono hkeep h

theorem Purpose.Asks.below {bytes : BitVec 64} {k : Purpose} (h : k.Asks d t bytes) : bytes.toNat < 2 ^ 47 := by
  cases k with
  | malloc => exact h
  | calloc =>
    have h : bytes.toNat < 2 ^ 31 := h
    omega
  | realloc old =>
    have h := h.1
    omega

end Frame

section Whole

variable {head first : BitVec 64} {d : Shared τ}

theorem mem_live {x : Entry τ} (hx : x ∈ d.entries) : (x.block.ptr, x.block.bytes) ∈ d.whole.plain.live :=
  HeapBlocks.mem_plain (List.mem_map_of_mem hx)

/-- There is one block at a pointer. -/
theorem entry_unique (h : HeapBlocks.Inv head first d.whole) {x y : Entry τ} (hx : x ∈ d.entries) (hy : y ∈ d.entries)
    (he : x.block.ptr = y.block.ptr) : x = y := by
  obtain ⟨ks, hm⟩ := h.row
  have hnodup := hm.nodup
  simp only [HeapBlocks.State.plain, Shared.whole, List.map_map] at hnodup
  exact List.inj_on_of_nodup_map hnodup hx hy he

theorem ptr_ne_zero (h : HeapBlocks.Inv head first d.whole) {x : Entry τ} (hx : x ∈ d.entries) : x.block.ptr ≠ 0 := by
  obtain ⟨ks, hm⟩ := h.row
  exact hm.ne_zero_of_live (mem_live hx)

theorem whole_holds (h : HeapBlocks.Inv head first d.whole) {x : Entry τ} (hx : x ∈ d.entries) :
    Holds d.heap.mem x.block :=
  h.contents _ (List.mem_map_of_mem hx)

theorem whole_mallocked (t : τ) (bytes : BitVec 64) (k : Purpose) (x : Malloc.Heap × BitVec 64) :
    (mallocked t bytes k d x).1.whole =
      ⟨x.1, if x.2 = 0 then d.whole.blocks else ⟨x.2, bytes, found x.1.mem x.2 bytes⟩ :: d.whole.blocks⟩ := by
  unfold mallocked Shared.give
  split <;> rfl

/-- What the section of `malloc` leaves: the blocks that there were, and one more if there is a pointer. -/
structure Served (head first : BitVec 64) (d : Shared τ) (t : τ) (bytes ptr : BitVec 64) (d' : Shared τ) : Prop where
  blocks : HeapBlocks.Inv head first d'.whole
  kept : ∀ x ∈ d.entries, x ∈ d'.entries
  got : d'.Got t ptr bytes fun _ => True
  fresh : ∀ x ∈ d.entries, x.block.ptr ≠ ptr

/-- A limit below `2 ^ 47` grows by whole pages without a carry. -/
theorem grant_bound {limit bytes : BitVec 64} (hlimit : limit.toNat < 2 ^ 47) (hb : bytes.toNat < 2 ^ 47)
    (hg : (limit + Malloc.chunkSize bytes).toNat < 2 ^ 47) : limit.toNat + (Malloc.chunkSize bytes).toNat < 2 ^ 47 := by
  have hlt := chunkSize_lt hb
  rw [BitVec.toNat_add, Nat.mod_eq_of_lt (by omega)] at hg
  exact hg

theorem served_of_exec {t : τ} {bytes : BitVec 64} {k : Purpose} {answers : List Bool}
    {r : Shared τ × Wake Empty × Pc} (h : HeapBlocks.Inv head first d.whole) (hb : bytes.toNat < 2 ^ 47)
    (hr : (mallocSection head t bytes k).exec answers d = some r) :
    ∃ ptr, r.2 = (.nobody, .got ptr bytes k) ∧ Served head first d t bytes ptr r.1 := by
  obtain ⟨granted, x, hgrant, hx, rfl⟩ := exec_malloc hr
  obtain ⟨ks, hm⟩ := h.row
  have hadm : Malloc.Admitted d.whole.plain (.malloc bytes granted) := by
    refine ⟨hb, fun hg => grant_bound ?_ hb (hgrant hg)⟩
    have hbelow := hm.below
    have hknown : Malloc.knownLimit d.whole.plain.heap = _ := hm.knownLimit
    rw [hknown, Malloc.toNat_ofNat_of_lt (by omega)]
    exact hbelow
  have hold : ∀ b ∈ d.whole.blocks, Holds x.1.mem b := fun b hb =>
    (h.contents b hb).unchanged (hm.same_malloc hadm hx (HeapBlocks.mem_plain hb))
  refine ⟨x.2, rfl, ?_⟩
  by_cases hz : x.2 = 0
  · obtain ⟨s', hs', ⟨ks', hm'⟩, -⟩ := hm.malloc hadm
    rw [Malloc.step, show Malloc.malloc head d.whole.plain.heap bytes granted = some x from hx, Option.map_some,
      if_pos hz, Option.some.injEq] at hs'
    subst hs'
    refine ⟨?_, fun y hy => ?_, fun hne => absurd hz hne, fun y hy => hz ▸ ptr_ne_zero h hy⟩
    · rw [whole_mallocked, if_pos hz]
      exact ⟨⟨ks', hm'⟩, hold⟩
    · simpa only [mallocked, Shared.give, if_pos hz] using hy
  · obtain ⟨x', hx', hmodels⟩ := hm.returned hadm
    obtain rfl := Option.some.inj (hx.symm.trans hx')
    obtain ⟨ks', hm'⟩ := hmodels hz
    refine ⟨?_, fun y hy => ?_, fun _ => ⟨found x.1.mem x.2 bytes, ?_, trivial⟩, fun y hy he => ?_⟩
    · rw [whole_mallocked, if_neg hz]
      refine ⟨⟨ks', hm'⟩, fun b hb => ?_⟩
      rcases List.mem_cons.mp hb with rfl | hb
      · exact fun i hi => (if_pos hi).symm
      · exact hold b hb
    · simpa only [mallocked, Shared.give, if_neg hz] using List.mem_cons_of_mem _ hy
    · simp only [Shared.Has, mallocked, Shared.give, if_neg hz]
      exact List.mem_cons_self ..
    · have hnodup := (List.nodup_cons.mp hm'.nodup).1
      exact hnodup (List.mem_map.mpr ⟨_, mem_live hy, he⟩)

theorem find_spec {ptr : BitVec 64} {x : Entry τ} (h : d.find ptr = some x) :
    x ∈ d.entries ∧ x.owner = none ∧ x.block.ptr = ptr := by
  have hp := List.find?_some h
  simp only [Bool.and_eq_true, decide_eq_true_eq] at hp
  exact ⟨List.mem_of_find?_eq_some h, hp⟩

/-- The size of the old chunk is large, as it is in use, and the whole request is copied. -/
theorem copied_old (h : HeapBlocks.Inv head first d.whole) {t : τ} {old : Block} {bytes : BitVec 64} (hb : d.Has t old)
    (hbytes : bytes.toNat < 2 ^ 31) : HeapBlocks.copied d.heap.mem (old.ptr - sizeofMemchunk) bytes = bytes := by
  obtain ⟨ks, hm⟩ := h.row
  have heq := HeapBlocks.copied_eq hm (mem_live hb) hbytes
  exact heq

theorem eraseP_eq {α : Type} {p q : α → Bool} {l : List α} (h : ∀ x ∈ l, p x = q x) : l.eraseP p = l.eraseP q := by
  induction l with
  | nil => rfl
  | cons x l ih =>
    rw [List.eraseP_cons, List.eraseP_cons, h x (List.mem_cons_self ..), ih fun y hy => h y (List.mem_cons_of_mem _ hy)]

variable [DecidableEq τ]

theorem exec_free {t : τ} {ptr : BitVec 64} {p : Pc} (hptr : ptr ≠ 0) (answers : List Bool) :
    (freeSection t ptr p).exec answers d =
      some (({ d with heap := Malloc.free d.heap ptr } : Shared τ).take t ptr, .nobody, p) := by
  simp only [freeSection, exec_readWord, exec_store, exec_done, Malloc.free, if_neg hptr, Malloc.setSize, Malloc.size,
    Shared.setMem]

/-- The block at a pointer of `t` is the one that is dropped. -/
theorem take_blocks (h : HeapBlocks.Inv head first d.whole) {t : τ} {b : Block} (hb : d.Has t b) :
    (d.take t b.ptr).entries.map Entry.block = HeapBlocks.dropped b.ptr (d.entries.map Entry.block) := by
  rw [HeapBlocks.dropped, List.eraseP_map, Shared.take]
  refine congrArg (List.map Entry.block) (eraseP_eq fun x hx => ?_)
  by_cases he : x.block.ptr = b.ptr
  · obtain rfl := entry_unique h hx hb he
    simp [Entry.isOf]
  · simp [Entry.isOf, he]

theorem take_inv (h : HeapBlocks.Inv head first d.whole) {t : τ} {b : Block} (hb : d.Has t b) :
    HeapBlocks.Inv head first (({ d with heap := Malloc.free d.heap b.ptr } : Shared τ).take t b.ptr).whole := by
  have hfree := h.free (List.mem_map_of_mem (f := Entry.block) hb)
  rw [Shared.whole, ← take_blocks h hb] at hfree
  exact hfree

theorem mem_take {t : τ} {ptr : BitVec 64} {x : Entry τ} (hx : x ∈ d.entries) (hne : x.block.ptr ≠ ptr ∨ x.owner ≠ some t) :
    x ∈ (d.take t ptr).entries := by
  refine (List.mem_eraseP_of_neg ?_).mpr hx
  rcases hne with hne | hne <;> simp [Entry.isOf, hne]

/-- A change of the entries of one owner is none of the others'. -/
theorem change_has {owner : Option τ} {g : Entry τ → Entry τ} {u : τ} {b : Block} (hu : some u ≠ owner) (hb : d.Has u b) :
    (d.change owner g).Has u b :=
  List.mem_map.mpr ⟨_, hb, if_neg hu⟩

theorem pass_whole (owner owner' : Option τ) (p : Entry τ → Bool) : (d.pass owner p owner').whole = d.whole := by
  refine congrArg (HeapBlocks.State.mk d.heap) ?_
  change (d.entries.map _).map Entry.block = _
  rw [List.map_map]
  refine List.map_congr_left fun x _ => ?_
  simp only [Function.comp_apply]
  split
  · split <;> rfl
  · rfl

theorem pass_has {owner : Option τ} {x : Entry τ} {p : Entry τ → Bool} {t : τ} (hx : x ∈ d.entries) (ho : x.owner = owner)
    (hp : p x = true) : (d.pass owner p (some t)).Has t x.block := by
  refine List.mem_map.mpr ⟨x, hx, ?_⟩
  simp only [if_pos ho, if_pos hp]

/-- A byte is written in one block, whosever it is. -/
theorem put_whole (h : HeapBlocks.Inv head first d.whole) {x : Entry τ} (hx : x ∈ d.entries) (offset : BitVec 64)
    (byte : BitVec 8) : (d.put x.owner x.block.ptr offset byte).whole =
      { heap := { d.heap with mem := Function.update d.heap.mem (x.block.ptr + offset) byte }
        blocks := d.whole.blocks.map fun c => if c.ptr = x.block.ptr then c.write offset byte else c } := by
  refine congrArg (HeapBlocks.State.mk _) ?_
  change (d.entries.map _).map Entry.block = (d.entries.map Entry.block).map _
  rw [List.map_map, List.map_map]
  refine List.map_congr_left fun y hy => ?_
  simp only [Function.comp_apply]
  by_cases he : y.block.ptr = x.block.ptr
  · obtain rfl := entry_unique h hy hx he
    simp
  · simp only [if_neg he, ite_self]

theorem put_inv (h : HeapBlocks.Inv head first d.whole) {x : Entry τ} (hx : x ∈ d.entries) {offset : BitVec 64}
    (hoff : offset.toNat < x.block.bytes.toNat) (byte : BitVec 8) :
    HeapBlocks.Inv head first (d.put x.owner x.block.ptr offset byte).whole := by
  rw [put_whole h hx]
  exact h.write (List.mem_map_of_mem hx) hoff byte

theorem put_has {t : τ} {b : Block} (hb : d.Has t b) (offset : BitVec 64) (byte : BitVec 8) :
    (d.put (some t) b.ptr offset byte).Has t (b.write offset byte) := by
  refine List.mem_map.mpr ⟨_, hb, ?_⟩
  simp only [if_true]

theorem put_has_apart {t : τ} {b : Block} {ptr : BitVec 64} (hb : d.Has t b) (hne : b.ptr ≠ ptr) (offset : BitVec 64)
    (byte : BitVec 8) : (d.put (some t) ptr offset byte).Has t b := by
  refine List.mem_map.mpr ⟨_, hb, ?_⟩
  simp only [if_true, if_neg hne]

end Whole

section Steps

variable [DecidableEq τ] {head first : BitVec 64} {s : State τ (Shared τ) Pc} {t : τ}

/-- A thread goes on with data in which the other threads have their blocks. -/
theorem Inv.goto (h : Inv head first s) {d : Shared τ} {p : Pc} (hd : HeapBlocks.Inv head first d.whole)
    (hkeep : ∀ u, u ≠ t → ∀ b, s.data.Has u b → d.Has u b) (hp : Placed d t p) :
    Inv head first ⟨d, Function.update s.place t p⟩ := by
  refine ⟨hd, fun u => ?_⟩
  by_cases hu : u = t
  · subst u
    simpa using hp
  · simpa [hu] using (h.placed u).mono (hkeep u hu)

/-- A thread goes on and leaves the data. -/
theorem Inv.stay (h : Inv head first s) {p : Pc} (hp : Placed s.data t p) :
    Inv head first ⟨s.data, Function.update s.place t p⟩ :=
  h.goto h.blocks (fun _ _ _ hb => hb) hp

/-- A block of the program goes to a call. -/
theorem Inv.pass (h : Inv head first s) {ptr : BitVec 64} {p : Pc}
    (hp : Placed (s.data.pass none (·.block.ptr = ptr) (some t)) t p) :
    Inv head first ⟨s.data.pass none (·.block.ptr = ptr) (some t), Function.update s.place t p⟩ :=
  h.goto (by rw [pass_whole]; exact h.blocks) (fun _ _ _ hb => change_has nofun hb) hp

/-- The block that a call has just got is filled by a byte more. -/
theorem Inv.fill (h : Inv head first s) {ptr bytes : BitVec 64} {content : Nat → BitVec 8} {i : Nat} {v : BitVec 8} {p : Pc}
    (hb : s.data.Has t ⟨ptr, bytes, content⟩) (hi : i < bytes.toNat)
    (hp : Placed (s.data.put (some t) ptr (BitVec.ofNat 64 i) v) t p) :
    Inv head first ⟨s.data.put (some t) ptr (BitVec.ofNat 64 i) v, Function.update s.place t p⟩ := by
  have hlt := bytes.isLt
  have hoff : (BitVec.ofNat 64 i).toNat < bytes.toNat := by
    rw [BitVec.toNat_ofNat, Nat.mod_eq_of_lt (by omega)]
    exact hi
  exact h.goto (put_inv h.blocks hb hoff v) (fun _ hu _ hb => change_has (by simpa using hu) hb) hp

theorem Zeroed.succ {content : Nat → BitVec 8} {i : Nat} (h : Zeroed i content) : Zeroed (i + 1) (Function.update content i 0) := by
  intro j hj
  by_cases he : j = i
  · rw [he, Function.update_self]
  · rw [Function.update_of_ne he]
    exact h j (by omega)

theorem Carries.succ {old : Block} {content : Nat → BitVec 8} {i : Nat} {v : BitVec 8} (h : Carries old i content)
    (hv : i < old.bytes.toNat → v = old.content i) : Carries old (i + 1) (Function.update content i v) := by
  intro j hj
  by_cases he : j = i
  · rw [he, Function.update_self]
    exact hv (by omega)
  · rw [Function.update_of_ne he]
    exact h j (by omega)

/-- The next step of a call. -/
theorem next_inv (h : Inv head first s) {stray : BitVec 8} {r : Shared τ × Pc}
    (hr : nextStep s.data t stray (s.place t) = some r) : Inv head first ⟨r.1, Function.update s.place t r.2⟩ := by
  have hplaced := h.placed t
  cases hp : s.place t with
  | out ret => rw [hp] at hr; cases hr
  | malloc bytes k => rw [hp] at hr; cases hr
  | free ptr => rw [hp] at hr; cases hr
  | freeOld old ptr bytes => rw [hp] at hr; cases hr
  | got ptr bytes k =>
    rw [hp] at hr hplaced
    obtain ⟨hasks, hgot, hother⟩ := hplaced
    cases k with
    | malloc =>
      cases hr
      exact h.stay hgot
    | calloc =>
      cases hr
      refine h.stay ?_
      split
      · trivial
      · rename_i hne
        obtain ⟨content, hhas, -⟩ := hgot hne
        exact ⟨Nat.zero_le _, content, hhas, nofun⟩
    | realloc old =>
      simp only [nextStep, copied_old h.blocks hasks.2 hasks.1] at hr
      split at hr
      · cases hr
      · rename_i hok
        cases hr
        refine h.stay ⟨⟨hasks.2, hother old rfl, fun hne => ?_⟩, Nat.zero_le _, rfl, fun hz => ?_⟩
        · obtain ⟨content, hhas, -⟩ := hgot hne
          exact ⟨content, hhas, fun i hi => by omega⟩
        · exact not_not.mp fun hne => hok ⟨hz, hne⟩
  | zero ptr bytes i =>
    rw [hp] at hr hplaced
    obtain ⟨hi, content, hhas, hzero⟩ := hplaced
    simp only [nextStep] at hr
    split at hr
    · rename_i hlt
      cases hr
      have hhas' := put_has hhas (BitVec.ofNat 64 i) 0
      refine h.fill hhas hlt ⟨hlt, Function.update content i 0, ?_, hzero.succ⟩
      rwa [HeapBlocks.Block.write, BitVec.toNat_ofNat, Nat.mod_eq_of_lt (by omega)] at hhas'
    · rename_i hge
      cases hr
      refine h.stay fun _ => ⟨content, hhas, fun j hj => hzero j (by omega)⟩
  | copy old ptr bytes min i =>
    rw [hp] at hr hplaced
    obtain ⟨hmoving, hi, rfl, hz⟩ := hplaced
    simp only [nextStep] at hr
    split at hr
    · rename_i hlt
      cases hr
      have hne : ptr ≠ 0 := fun he => by
        rw [hz he] at hlt
        exact absurd hlt (Nat.not_lt_zero i)
      obtain ⟨content, hhas, hcarries⟩ := hmoving.got hne
      have hhas' := put_has hhas (BitVec.ofNat 64 i)
        (if i < old.bytes.toNat then s.data.heap.mem (old.ptr + BitVec.ofNat 64 i) else stray)
      rw [HeapBlocks.Block.write, BitVec.toNat_ofNat, Nat.mod_eq_of_lt (by omega)] at hhas'
      refine h.fill hhas hlt ⟨⟨put_has_apart hmoving.has hmoving.apart _ _, hmoving.apart, fun _ => ⟨_, hhas', ?_⟩⟩,
        hlt, rfl, hz⟩
      refine hcarries.succ fun hold => ?_
      rw [if_pos hold]
      exact whole_holds h.blocks hmoving.has i hold
    · rename_i hge
      cases hr
      have hall : i = min.toNat := by omega
      have hmoved : Moving s.data t old ptr min min.toNat := hall ▸ hmoving
      exact h.stay hmoved
  | back ptr bytes k =>
    rw [hp] at hr
    cases hr
    exact h.goto (by rw [pass_whole]; exact h.blocks) (fun u hu b hb => change_has (by simpa using hu) hb) trivial

theorem outer_inv (h : Inv head first s) {o : Outside} {r : Shared τ × Pc} (ha : demands.outer s.data t (s.place t) o)
    (hr : outside s.data t (s.place t) o = some r) : Inv head first ⟨r.1, Function.update s.place t r.2⟩ := by
  cases o with
  | next stray =>
    have hnext : nextStep s.data t stray (s.place t) = some r := by
      cases hp : s.place t <;> rw [hp] at hr <;> exact hr
    exact next_inv h hnext
  | malloc bytes =>
    cases hp : s.place t <;> rw [hp] at hr <;> cases hr
    exact h.stay ha
  | calloc nmemb size =>
    cases hp : s.place t <;> rw [hp] at hr <;> cases hr
    refine h.stay ?_
    have ha : nmemb.toNat * size.toNat < 2 ^ 31 := ha
    change (nmemb * size).toNat < 2 ^ 31
    rw [BitVec.toNat_mul, Nat.mod_eq_of_lt (by omega)]
    exact ha
  | realloc ptr bytes =>
    cases hp : s.place t <;> rw [hp] at hr <;> try cases hr
    obtain ⟨x, hx, rfl⟩ := Option.map_eq_some_iff.mp hr
    obtain ⟨hmem, ho, rfl⟩ := find_spec hx
    exact h.pass ⟨ha, pass_has hmem ho (by simp)⟩
  | free ptr =>
    cases hp : s.place t <;> rw [hp] at hr <;> try cases hr
    simp only [outside] at hr
    split at hr
    · cases hr
      exact h.stay trivial
    · obtain ⟨x, hx, rfl⟩ := Option.map_eq_some_iff.mp hr
      obtain ⟨hmem, ho, rfl⟩ := find_spec hx
      exact h.pass ⟨x.block, pass_has hmem ho (by simp), rfl⟩
  | write ptr offset byte =>
    cases hp : s.place t <;> rw [hp] at hr <;> try cases hr
    obtain ⟨x, hx, rfl⟩ := Option.map_eq_some_iff.mp hr
    obtain ⟨hmem, ho, rfl⟩ := find_spec hx
    have hput := put_inv h.blocks hmem (ha x hx) byte
    rw [ho] at hput
    exact h.goto hput (fun _ _ _ hb => change_has nofun hb) trivial

/-- What a section leaves, and where. -/
theorem section_inv (h : Inv head first s) {b : Section τ} {answers : List Bool} {r : Shared τ × Wake Empty × Pc}
    (hb : sectionAt head t (s.place t) = some b) (hr : b.exec answers s.data = some r) :
    r.2.1 = .nobody ∧ Inv head first ⟨r.1, Function.update s.place t r.2.2⟩ := by
  have hplaced := h.placed t
  cases hp : s.place t <;> rw [hp] at hb hplaced <;> cases hb
  · rename_i bytes k
    have hasks : k.Asks s.data t bytes := hplaced
    obtain ⟨ptr, hr2, hserved⟩ := served_of_exec h.blocks hasks.below hr
    rw [hr2]
    refine ⟨rfl, h.goto hserved.blocks (fun u _ b hb => hserved.kept _ hb)
      ⟨hasks.mono fun b hb => hserved.kept _ hb, hserved.got, fun old hold => ?_⟩⟩
    subst hold
    exact hserved.fresh _ hasks.2
  · rename_i ptr
    obtain ⟨b, hhas, rfl⟩ := hplaced
    rw [exec_free (ptr_ne_zero h.blocks hhas)] at hr
    cases hr
    exact ⟨rfl, h.goto (take_inv h.blocks hhas) (fun u hu c hc => mem_take hc (.inr (by simpa using hu))) trivial⟩
  · rename_i old ptr bytes
    have hmoving : Moving s.data t old ptr bytes bytes.toNat := hplaced
    rw [exec_free (ptr_ne_zero h.blocks hmoving.has)] at hr
    cases hr
    refine ⟨rfl, h.goto (take_inv h.blocks hmoving.has) (fun u hu c hc => mem_take hc (.inr (by simpa using hu))) fun hne => ?_⟩
    obtain ⟨content, hhas, hcarries⟩ := hmoving.got hne
    exact ⟨content, mem_take hhas (.inl (Ne.symm hmoving.apart)), hcarries⟩

/-- Nothing was allocated, and no thread is in a call. -/
def Begins (head first : BitVec 64) (s : State τ (Shared τ) Pc) : Prop :=
  HeapBlocks.Initial head first s.data.whole ∧ ∀ t, ∃ ret, s.place t = .out ret

theorem reaches_inv [Fintype τ] (h : Reaches (Begins head first) (step (code head)) (Admitted (code head) demands) s) :
    Inv head first s := by
  refine h.invariant (I := fun s => Inv head first s) ?_ ?_
  · rintro s ⟨hheap, hplace⟩
    refine ⟨hheap.inv, fun t => ?_⟩
    obtain ⟨ret, hp⟩ := hplace t
    rw [hp]
    trivial
  · intro s a s' _ hi ha hs
    cases a with
    | outer t o =>
      obtain ⟨r, hr, rfl⟩ := Option.map_eq_some_iff.mp hs
      exact outer_inv hi ha hr
    | enter t answers woken =>
      obtain ⟨b, hb, hs⟩ := Option.bind_eq_some_iff.mp hs
      obtain ⟨r, hr, hs⟩ := Option.bind_eq_some_iff.mp hs
      obtain ⟨hwake, hinv⟩ := section_inv hi hb hr
      rw [hwake] at hs
      obtain ⟨place, hplace, rfl⟩ := Option.map_eq_some_iff.mp hs
      cases hplace
      exact hinv

end Steps

end ThreadBites.HeapThreads

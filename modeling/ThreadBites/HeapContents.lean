import ThreadBites.HeapBlocks

/-!
# Blocks hold what they should

A call writes headers and the bytes of the block it returns, so the other blocks
keep their contents, and a write of the program is in one block only.
-/
namespace ThreadBites.HeapBlocks

open Transition ByteMemory
open Malloc (Heap Models Unchanged sizeofMemchunk payload MEMCHUNK_USED knownLimit chunkSize)

theorem found_eq (m : Memory) (ptr : BitVec 64) (i : Nat) :
    found m ptr i = m (BitVec.ofNat 64 (ptr.toNat + i)) := by
  rw [found, BitVec.ofNat_add, Malloc.ofNat_toNat_head]

theorem found_unchanged {m m' : Memory} {ptr bytes : BitVec 64} {i : Nat} (h : Unchanged m m' (ptr, bytes))
    (hi : i < bytes.toNat) : found m' ptr i = found m ptr i := by
  rw [found_eq, found_eq]
  exact h _ (Nat.le_add_right _ _) (Nat.add_lt_add_left hi _)

theorem Holds.unchanged {m m' : Memory} {b : Block} (h : Holds m b) (hs : Unchanged m m' (b.ptr, b.bytes)) :
    Holds m' b :=
  fun i hi => (found_unchanged hs hi).trans (h i hi)

theorem mem_plain {s : State} {b : Block} (h : b ∈ s.blocks) : (b.ptr, b.bytes) ∈ s.plain.live :=
  List.mem_map.mpr ⟨b, h, rfl⟩

theorem dropped_plain (ptr : BitVec 64) (blocks : List Block) :
    (dropped ptr blocks).map (fun b => (b.ptr, b.bytes)) =
      (blocks.map fun b => (b.ptr, b.bytes)).eraseP fun c => c.1 = ptr := by
  rw [dropped, List.eraseP_map]
  rfl

/-- There is a row of chunks behind the heap, and the blocks hold what they should. -/
structure Inv (head first : BitVec 64) (s : State) : Prop where
  row : ∃ ks, Models head first s.plain ks
  contents : ∀ b ∈ s.blocks, Holds s.heap.mem b

/-- What a block that `malloc` returned is to the others. -/
structure Allocated (head first : BitVec 64) (s : State) (bytes : BitVec 64) (r : Heap × BitVec 64) : Prop where
  row : ∃ ks, Models head first ⟨r.1, (r.2, bytes) :: s.plain.live⟩ ks
  contents : ∀ b ∈ s.blocks, Holds r.1.mem b
  fresh : ∀ b ∈ s.blocks, b.ptr ≠ r.2

theorem Inv.allocated {head first bytes : BitVec 64} {s : State} {granted : Bool} (h : Inv head first s)
    (ha : Succeeds head s bytes.toNat granted) :
    ∃ r, Malloc.malloc head s.heap bytes granted = some r ∧ r.2 ≠ 0 ∧ Allocated head first s bytes r := by
  obtain ⟨hsize, hgrant, hne⟩ := ha
  rw [Malloc.ofNat_toNat_head] at hgrant hne
  obtain ⟨ks, hm⟩ := h.row
  have hadm : Malloc.Admitted s.plain (.malloc bytes granted) := ⟨by omega, hgrant⟩
  obtain ⟨r, hr, hrow⟩ := hm.returned hadm
  obtain ⟨ks', hm'⟩ := hrow (hne r hr)
  refine ⟨r, hr, hne r hr, ⟨ks', hm'⟩, fun b hb => ?_, fun b hb => ?_⟩
  · exact (h.contents b hb).unchanged (hm.same_malloc hadm hr (mem_plain hb))
  · have hnodup := (List.nodup_cons.mp hm'.nodup).1
    intro he
    exact hnodup (List.mem_map.mpr ⟨_, mem_plain hb, he⟩)

/-- Bytes written in order in the new block. -/
theorem Allocated.fill {head first bytes : BitVec 64} {s : State} {r : Heap × BitVec 64}
    (h : Allocated head first s bytes r) (byte : Memory → Nat → BitVec 8) {n : Nat} (hn : n ≤ bytes.toNat) :
    Allocated head first s bytes ({ r.1 with mem := ByteMemory.fill byte r.2 n r.1.mem }, r.2) := by
  obtain ⟨ks, hm⟩ := h.row
  refine ⟨⟨ks, hm.fill (List.mem_cons_self ..) byte hn⟩, fun b hb => ?_, h.fresh⟩
  exact (h.contents b hb).unchanged
    (hm.same_fill (List.mem_cons_of_mem _ (mem_plain hb)) (List.mem_cons_self ..) (h.fresh b hb) byte hn)

/-- A byte of the new block that was written in order. -/
theorem Allocated.found_fill {head first bytes : BitVec 64} {s : State} {r : Heap × BitVec 64}
    (h : Allocated head first s bytes r) (byte : Memory → Nat → BitVec 8) {n i : Nat} (hn : n ≤ bytes.toNat)
    (hi : i < n) : found (ByteMemory.fill byte r.2 n r.1.mem) r.2 i = byte (ByteMemory.fill byte r.2 i r.1.mem) i := by
  obtain ⟨ks, hm⟩ := h.row
  have hbelow := hm.below
  have hroom := hm.room (List.mem_cons_self ..)
  simp only at hroom
  rw [found_eq]
  have hget := fill_get byte r.1.mem (show r.2.toNat + n ≤ 2 ^ 64 by omega) hi
  rwa [Malloc.ofNat_toNat_head] at hget

/-- The state with the new block. -/
theorem Allocated.inv {head first bytes : BitVec 64} {s : State} {r : Heap × BitVec 64} {content : Nat → BitVec 8}
    (h : Allocated head first s bytes r) (hc : Holds r.1.mem ⟨r.2, bytes, content⟩) :
    Inv head first ⟨r.1, ⟨r.2, bytes, content⟩ :: s.blocks⟩ where
  row := h.row
  contents := by
    intro b hb
    rcases List.mem_cons.mp hb with rfl | hb
    · exact hc
    · exact h.contents b hb

theorem Inv.calloc {head first nmemb size : BitVec 64} {s : State} {granted : Bool} (h : Inv head first s)
    (ha : Succeeds head s (nmemb.toNat * size.toNat) granted) :
    ∃ r, calloc head s.heap nmemb size granted = some r ∧ r.2 ≠ 0 ∧
      Inv head first ⟨r.1, ⟨r.2, nmemb * size, fun _ => 0⟩ :: s.blocks⟩ := by
  have hsize := ha.1
  have hmul : (nmemb * size).toNat = nmemb.toNat * size.toNat := by
    rw [BitVec.toNat_mul, Nat.mod_eq_of_lt (by omega)]
  obtain ⟨r, hr, hne, halloc⟩ := h.allocated (hmul ▸ ha)
  refine ⟨({ r.1 with mem := zeroLoop r.2 (nmemb * size).toNat r.1.mem }, r.2), ?_, hne, ?_⟩
  · rw [HeapBlocks.calloc, hr, Option.map_some, if_neg hne]
  have hzero := halloc.fill (fun _ _ => 0) (Nat.le_refl _)
  exact hzero.inv fun i hi => halloc.found_fill (fun _ _ => 0) (Nat.le_refl _) hi

/-- The old block is in use, so the bit of `MEMCHUNK_USED` makes its chunk look larger than any request. -/
theorem copied_eq {head first size : BitVec 64} {s : Malloc.State} {ks : List Malloc.Chunk}
    {b : BitVec 64 × BitVec 64} (h : Models head first s ks) (hb : b ∈ s.live) (hsize : size.toNat < 2 ^ 31) :
    copied s.heap.mem (b.1 - sizeofMemchunk) size = size := by
  obtain ⟨p, hp, hr, -, hchunk, -⟩ := h.placed_block (h.live.mem_iff.mp hb)
  have hused : MEMCHUNK_USED.toNat ≤ p.2.word.toNat := by
    rw [Malloc.Chunk.word, hr]
    exact Nat.right_le_or
  have hbit : MEMCHUNK_USED.toNat = 2 ^ 62 := by decide
  have hlt : size < p.2.word := BitVec.lt_def.mpr (by omega)
  rw [copied, hchunk, (h.placed hp).word, if_pos hlt]

/-- `free` of a block leaves the other blocks. -/
theorem Inv.free {head first : BitVec 64} {s : State} {b : Block} (h : Inv head first s) (hb : b ∈ s.blocks) :
    Inv head first ⟨Malloc.free s.heap b.ptr, dropped b.ptr s.blocks⟩ where
  row := by
    obtain ⟨ks, hm⟩ := h.row
    have hrow := hm.free (.inr (List.mem_map.mpr ⟨_, mem_plain hb, rfl⟩))
    simp only [State.plain, dropped_plain] at hrow ⊢
    exact hrow
  contents := by
    obtain ⟨ks, hm⟩ := h.row
    intro c hc
    have hc := List.mem_of_mem_eraseP hc
    exact (h.contents c hc).unchanged (hm.same_free (mem_plain hc) (mem_plain hb))

/-- The copying loop leaves in the new block what the old one holds, as far as both go. -/
theorem Allocated.found_copy {head first bytes : BitVec 64} {s : State} {r : Heap × BitVec 64} {b : Block}
    (h : Allocated head first s bytes r) (hb : b ∈ s.blocks) (stray : Nat → BitVec 8) {i : Nat}
    (hi : i < min b.bytes.toNat bytes.toNat) :
    found (copyLoop stray (payload r.1.mem (b.ptr - sizeofMemchunk)) b.ptr r.2 bytes.toNat r.1.mem) r.2 i =
      b.content i := by
  obtain ⟨ks, hm⟩ := h.row
  have hmem := List.mem_cons_of_mem (r.2, bytes) (mem_plain hb)
  have hheld : b.bytes.toNat ≤ payload r.1.mem (b.ptr - sizeofMemchunk) := (hm.room hmem).1
  have hold := hm.same_fill hmem (List.mem_cons_self ..) (h.fresh b hb)
    (fun m i => if i < payload r.1.mem (b.ptr - sizeofMemchunk) then m (b.ptr + BitVec.ofNat 64 i) else stray i)
    (show i ≤ bytes.toNat by omega)
  rw [copyLoop, h.found_fill _ (Nat.le_refl _) (by omega), if_pos (by omega)]
  exact (found_unchanged hold (by omega)).trans (h.contents b hb i (by omega))

theorem Inv.find {head first : BitVec 64} {s : State} {b : Block} (h : Inv head first s) (hb : b ∈ s.blocks) :
    (s.blocks.find? fun c => c.ptr = b.ptr) = some b := by
  obtain ⟨ks, hm⟩ := h.row
  have hnodup := hm.nodup
  simp only [State.plain, List.map_map] at hnodup
  cases hf : s.blocks.find? fun c => c.ptr = b.ptr with
  | none => exact absurd (List.find?_eq_none.mp hf b hb) (by simp)
  | some c =>
    have hc := List.mem_of_find?_eq_some hf
    have he : c.ptr = b.ptr := by simpa using List.find?_some hf
    rw [List.inj_on_of_nodup_map hnodup hc hb he]

theorem Inv.realloc {head first bytes : BitVec 64} {s : State} {b : Block} {granted : Bool}
    (stray : Nat → BitVec 8) (h : Inv head first s) (ha : Succeeds head s bytes.toNat granted) (hb : b ∈ s.blocks) :
    ∃ r, realloc head s.heap b.ptr bytes granted stray = some r ∧ r.2 ≠ 0 ∧
      Inv head first ⟨r.1, ⟨r.2, bytes, carried (s.blocks.find? fun c => c.ptr = b.ptr) bytes (found r.1.mem r.2)⟩ ::
        dropped b.ptr s.blocks⟩ := by
  obtain ⟨r, hr, hne, halloc⟩ := h.allocated ha
  have hptr : b.ptr ≠ 0 := by
    obtain ⟨ks, hm⟩ := h.row
    have hlive := hm.ne_zero_of_live (mem_plain hb)
    exact hlive
  have hcopied : copied r.1.mem (b.ptr - sizeofMemchunk) bytes = bytes := by
    obtain ⟨ks, hm⟩ := halloc.row
    have heq := copied_eq hm (List.mem_cons_of_mem _ (mem_plain hb)) ha.1
    exact heq
  have hfound := fun i (hi : i < min b.bytes.toNat bytes.toNat) => halloc.found_copy hb stray hi
  obtain ⟨m, hcopy⟩ : ∃ m, copyLoop stray (payload r.1.mem (b.ptr - sizeofMemchunk)) b.ptr r.2 bytes.toNat
    r.1.mem = m := ⟨_, rfl⟩
  rw [hcopy] at hfound
  have hmoved : Allocated head first s bytes ({ r.1 with mem := m }, r.2) :=
    hcopy ▸ halloc.fill _ (Nat.le_refl _)
  have hsame : Unchanged m (Malloc.free { r.1 with mem := m } b.ptr).mem (r.2, bytes) := by
    obtain ⟨ks, hm⟩ := hmoved.row
    have hfree := hm.same_free (List.mem_cons_self ..) (List.mem_cons_of_mem _ (mem_plain hb))
    exact hfree
  refine ⟨(Malloc.free { r.1 with mem := m } b.ptr, r.2), ?_, hne, ?_⟩
  · have hcond : ¬ (b.ptr = 0 ∨ r.2 = 0 ∧ copied r.1.mem (b.ptr - sizeofMemchunk) bytes ≠ 0) := by
      rintro (hz | ⟨hz, -⟩)
      · exact hptr hz
      · exact hne hz
    simp only [HeapBlocks.realloc, hr, Option.bind_some, if_neg hcond]
    rw [hcopied, hcopy]
  · rw [h.find hb]
    have hholds : Holds m ⟨r.2, bytes, carried (some b) bytes
        (found (Malloc.free { r.1 with mem := m } b.ptr).mem r.2)⟩ := by
      intro i hi
      simp only [carried]
      split
      · rename_i hlt
        exact hfound i hlt
      · exact (found_unchanged hsame hi).symm
    have hinv := (hmoved.inv hholds).free (List.mem_cons_of_mem _ hb)
    have hdropped : dropped b.ptr (⟨r.2, bytes, carried (some b) bytes
        (found (Malloc.free { r.1 with mem := m } b.ptr).mem r.2)⟩ :: s.blocks) = ⟨r.2, bytes, carried (some b) bytes
        (found (Malloc.free { r.1 with mem := m } b.ptr).mem r.2)⟩ :: dropped b.ptr s.blocks :=
      List.eraseP_cons_of_neg (by simpa using (halloc.fresh b hb).symm)
    rw [hdropped] at hinv
    exact hinv

theorem ends_below {head first : BitVec 64} {s : State} {ks : List Malloc.Chunk} {b : Block}
    (h : Models head first s.plain ks) (hb : b ∈ s.blocks) : b.ptr.toNat + b.bytes.toNat < 2 ^ 47 := by
  have hbelow := h.below
  have hroom := h.room (mem_plain hb)
  simp only at hroom
  omega

/-- A write in a block is in no other. -/
theorem Inv.write {head first offset : BitVec 64} {s : State} {b : Block} (h : Inv head first s) (hb : b ∈ s.blocks)
    (hoff : offset.toNat < b.bytes.toNat) (byte : BitVec 8) :
    Inv head first
      { heap := { s.heap with mem := Function.update s.heap.mem (b.ptr + offset) byte }
        blocks := s.blocks.map fun c => if c.ptr = b.ptr then c.write offset byte else c } := by
  obtain ⟨ks, hm⟩ := h.row
  have hend := ends_below hm hb
  have hplain : (s.blocks.map fun c => if c.ptr = b.ptr then c.write offset byte else c).map
      (fun c => (c.ptr, c.bytes)) = s.blocks.map fun c => (c.ptr, c.bytes) := by
    rw [List.map_map]
    refine List.map_congr_left fun c _ => ?_
    simp only [Function.comp_apply]
    split <;> rfl
  have haddr : b.ptr + offset = BitVec.ofNat 64 (b.ptr.toNat + offset.toNat) := by
    rw [BitVec.ofNat_add, Malloc.ofNat_toNat_head, Malloc.ofNat_toNat_head]
  refine ⟨⟨ks, ?_⟩, fun c hc => ?_⟩
  · have ha : Malloc.Admitted s.plain (.write b.ptr offset byte) := ⟨_, mem_plain hb, rfl, hoff⟩
    rw [State.plain, hplain]
    exact hm.write ha
  · obtain ⟨d, hd, rfl⟩ := List.mem_map.mp hc
    have hend' := ends_below hm hd
    simp only [haddr]
    split
    · rename_i he
      intro i hi
      change found _ d.ptr i = Function.update d.content offset.toNat byte i
      have hi : i < d.bytes.toNat := hi
      by_cases hio : i = offset.toNat
      · rw [hio, Function.update_self, found_eq, he, Function.update_self]
      · rw [Function.update_of_ne hio, ← h.contents d hd i hi, found_eq, found_eq]
        have hsame := same_update s.heap.mem byte (x := b.ptr.toNat + offset.toNat) (by omega)
          (show d.ptr.toNat + i + 1 ≤ 2 ^ 64 by omega) (show _ ∨ _ < d.ptr.toNat + i by rw [he]; omega)
        exact hsame _ (Nat.le_refl _) (Nat.lt_succ_self _)
    · rename_i hne
      have hapart := hm.apart (mem_plain hd) (mem_plain hb) hne
      simp only at hapart
      refine (h.contents d hd).unchanged ?_
      have hsame : Same s.heap.mem (Function.update s.heap.mem (BitVec.ofNat 64 (b.ptr.toNat + offset.toNat)) byte)
          d.ptr.toNat (d.ptr.toNat + d.bytes.toNat) := same_update _ byte (by omega) (by omega) (by omega)
      exact hsame

/-- A step that is admitted can be taken, and the blocks hold what they should after it. -/
theorem Inv.step {head first : BitVec 64} {s : State} {a : Action} (h : Inv head first s)
    (ha : Admitted head s a) : ∃ t, step head s a = some t ∧ Inv head first t := by
  cases a with
  | malloc bytes granted =>
    obtain ⟨r, hr, hne, halloc⟩ := h.allocated ha
    refine ⟨⟨r.1, ⟨r.2, bytes, found r.1.mem r.2⟩ :: s.blocks⟩, ?_, halloc.inv fun _ _ => rfl⟩
    simp only [HeapBlocks.step, hr, Option.map_some, given, if_neg hne]
  | calloc nmemb size granted =>
    obtain ⟨r, hr, hne, hinv⟩ := h.calloc ha
    refine ⟨_, ?_, hinv⟩
    simp only [HeapBlocks.step, hr, Option.map_some, given, if_neg hne]
  | realloc ptr bytes granted stray =>
    obtain ⟨hsucc, b, hb, rfl⟩ := ha
    obtain ⟨r, hr, hne, hinv⟩ := h.realloc stray hsucc hb
    refine ⟨_, ?_, hinv⟩
    simp only [HeapBlocks.step, hr, Option.map_some, given, if_neg hne]
  | free ptr =>
    refine ⟨_, rfl, ?_⟩
    rcases ha with rfl | ⟨b, hb, rfl⟩
    · obtain ⟨ks, hm⟩ := h.row
      have hnone : dropped 0 s.blocks = s.blocks := List.eraseP_of_forall_not fun b hb => by
        simpa using hm.ne_zero_of_live (mem_plain hb)
      rw [hnone]
      exact h
    · exact h.free hb
  | write ptr offset byte =>
    obtain ⟨b, hb, rfl, hoff⟩ := ha
    exact ⟨_, rfl, h.write hb hoff byte⟩

theorem mem_given {ptr bytes : BitVec 64} {content : Nat → BitVec 8} {blocks : List Block} {b : Block}
    (hb : b ∈ blocks) : b ∈ given ptr bytes content blocks := by
  unfold given
  split
  · exact hb
  · exact List.mem_cons_of_mem _ hb

theorem mem_dropped {ptr : BitVec 64} {blocks : List Block} {b : Block} (hb : b ∈ blocks) (hne : b.ptr ≠ ptr) :
    b ∈ dropped ptr blocks :=
  (List.mem_eraseP_of_neg (by simpa using hne)).mpr hb

/-- A block that is not released is there after the step, and has the bytes that were not written. -/
theorem kept_block {head : BitVec 64} {s t : State} {a : Action} (hs : step head s a = some t) {b : Block}
    (hb : b ∈ s.blocks) (hrel : a.releases b.ptr = false) :
    ∃ c ∈ t.blocks, c.ptr = b.ptr ∧ c.bytes = b.bytes ∧
      ∀ i, a.writes b.ptr i = false → c.content i = b.content i := by
  cases a with
  | malloc bytes granted =>
    simp only [step, Option.map_eq_some_iff] at hs
    obtain ⟨r, -, rfl⟩ := hs
    exact ⟨b, mem_given hb, rfl, rfl, fun _ _ => rfl⟩
  | calloc nmemb size granted =>
    simp only [step, Option.map_eq_some_iff] at hs
    obtain ⟨r, -, rfl⟩ := hs
    exact ⟨b, mem_given hb, rfl, rfl, fun _ _ => rfl⟩
  | realloc ptr bytes granted stray =>
    simp only [step, Option.map_eq_some_iff] at hs
    obtain ⟨r, -, rfl⟩ := hs
    have hne : b.ptr ≠ ptr := fun he => of_decide_eq_false hrel he.symm
    exact ⟨b, mem_given (mem_dropped hb hne), rfl, rfl, fun _ _ => rfl⟩
  | free ptr =>
    cases hs
    have hne : b.ptr ≠ ptr := fun he => of_decide_eq_false hrel he.symm
    exact ⟨b, mem_dropped hb hne, rfl, rfl, fun _ _ => rfl⟩
  | write ptr offset byte =>
    cases hs
    refine ⟨_, List.mem_map_of_mem hb, ?_⟩
    by_cases he : b.ptr = ptr
    · rw [if_pos he]
      refine ⟨rfl, rfl, fun i hi => Function.update_of_ne ?_ _ _⟩
      intro hio
      simp [Action.writes, he, hio] at hi
    · rw [if_neg he]
      exact ⟨rfl, rfl, fun _ _ => rfl⟩

theorem Inv.uncorrupted {head first : BitVec 64} {s : State} (h : Inv head first s) : Uncorrupted head s where
  contents := h.contents
  returns := by
    intro a ha
    obtain ⟨t, ht, -⟩ := h.step ha
    rw [ht]
    rfl
  kept := by
    intro a t ha hs b hb hrel
    obtain ⟨u, hu, hinv⟩ := h.step ha
    obtain rfl := Option.some.inj (hu.symm.trans hs)
    obtain ⟨c, hc, hptr, hbytes, hcontent⟩ := kept_block hs hb hrel
    refine ⟨c, hc, hptr, hbytes, fun i hi hw => ?_⟩
    rw [h.contents b hb i hi, ← hcontent i hw, ← hinv.contents c hc i (hbytes ▸ hi), hptr]
  zeroed := by
    intro nmemb size granted t ha hs
    obtain ⟨r, hr, hne, hinv⟩ := h.calloc ha
    simp only [HeapBlocks.step, hr, Option.map_some, given, if_neg hne, Option.some.injEq] at hs
    subst hs
    exact ⟨_, rfl, rfl, hinv.contents _ (List.mem_cons_self ..)⟩
  moved := by
    intro b hb bytes granted stray t ha hs
    obtain ⟨r, hr, hne, hinv⟩ := h.realloc stray ha.1 hb
    simp only [HeapBlocks.step, hr, Option.map_some, given, if_neg hne, Option.some.injEq] at hs
    subst hs
    refine ⟨_, rfl, rfl, fun i hi => ?_⟩
    have hnew := hinv.contents _ (List.mem_cons_self ..) i (Nat.lt_of_lt_of_le hi (Nat.min_le_right _ _))
    have hold := h.contents b hb i (Nat.lt_of_lt_of_le hi (Nat.min_le_left _ _))
    simp only [h.find hb, carried, if_pos hi] at hnew
    exact hnew.trans hold.symm

theorem Initial.inv {head first : BitVec 64} {s : State} (h : Initial head first s) : Inv head first s where
  row := ⟨[], Malloc.Initial.models h⟩
  contents := by
    have hnone : s.blocks = [] := List.map_eq_nil_iff.mp h.live
    simp [hnone]

theorem reaches_inv {head first : BitVec 64} {s : State}
    (h : Reaches (Initial head first) (step head) (Admitted head) s) : Inv head first s := by
  refine h.invariant (I := fun s => Inv head first s) (fun _ h₀ => h₀.inv) fun s a t _ hi ha hs => ?_
  obtain ⟨u, hu, hinv⟩ := hi.step ha
  obtain rfl := Option.some.inj (hu.symm.trans hs)
  exact hinv

/-- In every run whose allocations succeed, blocks hold what was put in them. -/
theorem heap_uncorrupted {head first : BitVec 64} {s : State}
    (h : Reaches (Initial head first) (step head) (Admitted head) s) : Uncorrupted head s :=
  (reaches_inv h).uncorrupted

/-- The limit moves by what the kernel is asked for at most. -/
theorem knownLimit_malloc {head bytes : BitVec 64} {h : Heap} {r : Heap × BitVec 64}
    (hr : Malloc.malloc head h bytes true = some r) :
    (knownLimit r.1).toNat ≤ (knownLimit h).toNat + (chunkSize bytes).toNat := by
  have hadd : (knownLimit h + chunkSize bytes).toNat ≤ (knownLimit h).toNat + (chunkSize bytes).toNat := by
    rw [BitVec.toNat_add]
    exact Nat.mod_le _ _
  have hnew : ∀ m limit, knownLimit ⟨m, limit, limit⟩ = limit := fun m limit => by
    unfold knownLimit Malloc.tbbrk
    split <;> rfl
  obtain ⟨cursor, -, rfl⟩ := Option.map_eq_some_iff.mp hr
  by_cases hn : Malloc.next h.mem cursor = 0
  · by_cases hl : knownLimit h = knownLimit h + chunkSize bytes
    · simp only [hn, if_true, Malloc.grow, Malloc.tbbrk, ← hl, hnew]
      exact Nat.le_add_right _ _
    · simp only [hn, if_true, Malloc.grow, Malloc.tbbrk, hl, if_false]
      exact (congrArg BitVec.toNat (hnew _ _)).trans_le hadd
  · simp only [hn, if_false]
    exact Nat.le_add_right _ _

theorem knownLimit_calloc {head nmemb size : BitVec 64} {h : Heap} {r : Heap × BitVec 64}
    (hr : calloc head h nmemb size true = some r) :
    (knownLimit r.1).toNat ≤ (knownLimit h).toNat + (chunkSize (nmemb * size)).toNat := by
  obtain ⟨q, hq, rfl⟩ := Option.map_eq_some_iff.mp hr
  have hle := knownLimit_malloc hq
  split <;> exact hle

/-- An allocation that the kernel grants succeeds. -/
theorem Inv.succeeds {head first : BitVec 64} {s : State} {bytes : Nat} (h : Inv head first s) (hb : bytes < 2 ^ 31)
    (hl : (knownLimit s.heap).toNat + (chunkSize (BitVec.ofNat 64 bytes)).toNat < 2 ^ 47) :
    Succeeds head s bytes true := by
  refine ⟨hb, fun _ => hl, fun r hr hz => ?_⟩
  obtain ⟨ks, hm⟩ := h.row
  have hbytes : (BitVec.ofNat 64 bytes).toNat < 2 ^ 47 := by
    rw [BitVec.toNat_ofNat, Nat.mod_eq_of_lt (by omega)]
    omega
  have hadmitted : Malloc.Admitted s.plain (.malloc (BitVec.ofNat 64 bytes) true) := ⟨hbytes, fun _ => hl⟩
  obtain ⟨t, ht, -, hserved⟩ := hm.malloc hadmitted
  obtain ⟨p, hp⟩ := hserved rfl
  have hr : Malloc.malloc head s.plain.heap (BitVec.ofNat 64 bytes) true = some r := hr
  simp only [Malloc.step, hr, Option.map_some, if_pos hz, Option.some.injEq] at ht
  subst ht
  exact absurd (congrArg List.length hp) (by simp)

/-- A block of zeros is written to, another comes and goes, and the first is moved to a larger one. -/
theorem heap_uncorrupted_moved : ∃ s c, Reaches (Initial 16 4096) (step 16) (Admitted 16) s ∧ s.blocks = [c] ∧
    c.bytes = 200 ∧ found s.heap.mem c.ptr 3 = 7 ∧ found s.heap.mem c.ptr 4 = 0 ∧ Uncorrupted 16 s := by
  have hinit : Initial 16 4096 ⟨Malloc.blank.heap, []⟩ := Malloc.blank_initial
  have h₀ : Reaches (Initial 16 4096) (step 16) (Admitted 16) ⟨Malloc.blank.heap, []⟩ := .start hinit
  -- `calloc(10, 10)`
  have ha₁ : Admitted 16 ⟨Malloc.blank.heap, []⟩ (.calloc 10 10 true) := hinit.inv.succeeds (by decide) (by decide)
  obtain ⟨r₁, hr₁, hne₁, -⟩ := hinit.inv.calloc ha₁
  have h₁ : Reaches (Initial 16 4096) (step 16) (Admitted 16) ⟨r₁.1, [⟨r₁.2, 100, fun _ => 0⟩]⟩ := h₀.next ha₁ (by
    simp only [step, hr₁, Option.map_some, given, if_neg hne₁]
    rfl)
  have hl₁ : (knownLimit r₁.1).toNat ≤ 8192 := (knownLimit_calloc hr₁).trans (by decide)
  -- `p[3] = 7`
  have h₂ : Reaches (Initial 16 4096) (step 16) (Admitted 16)
      ⟨{ r₁.1 with mem := Function.update r₁.1.mem (r₁.2 + 3) 7 }, [⟨r₁.2, 100, Function.update (fun _ => 0) 3 7⟩]⟩ :=
    h₁.next (a := .write r₁.2 3 7) ⟨_, List.mem_singleton_self _, rfl, by simp⟩ (by
      simp only [step, List.map_cons, List.map_nil, if_true]
      rfl)
  -- `q = calloc(1, 8)` and `free(q)`
  have ha₃ : Admitted 16 _ (.calloc 1 8 true) := (reaches_inv h₂).succeeds (by decide)
    (lt_of_le_of_lt (Nat.add_le_add_right hl₁ _) (by decide))
  obtain ⟨r₃, hr₃, hne₃, -⟩ := (reaches_inv h₂).calloc ha₃
  have h₃ : Reaches (Initial 16 4096) (step 16) (Admitted 16)
      ⟨r₃.1, [⟨r₃.2, 8, fun _ => 0⟩, ⟨r₁.2, 100, Function.update (fun _ => 0) 3 7⟩]⟩ := h₂.next ha₃ (by
    simp only [step, hr₃, Option.map_some, given, if_neg hne₃]
    rfl)
  have hl₃ : (knownLimit r₃.1).toNat ≤ 12288 :=
    (knownLimit_calloc hr₃).trans ((Nat.add_le_add_right hl₁ _).trans (by decide))
  have h₄ : Reaches (Initial 16 4096) (step 16) (Admitted 16)
      ⟨Malloc.free r₃.1 r₃.2, [⟨r₁.2, 100, Function.update (fun _ => 0) 3 7⟩]⟩ :=
    h₃.next (a := .free r₃.2) (.inr ⟨_, List.mem_cons_self .., rfl⟩) (by simp [step, dropped])
  -- `realloc(p, 200)`
  have hl₄ : (knownLimit (Malloc.free r₃.1 r₃.2)).toNat ≤ 12288 := by
    unfold Malloc.free
    split <;> exact hl₃
  have ha₅ : Admitted 16 _ (.realloc r₁.2 200 true fun _ => 0) :=
    ⟨(reaches_inv h₄).succeeds (by decide) (lt_of_le_of_lt (Nat.add_le_add_right hl₄ _) (by decide)), _,
      List.mem_singleton_self _, rfl⟩
  have hu₄ := heap_uncorrupted h₄
  obtain ⟨s, hs⟩ := Option.isSome_iff_exists.mp (hu₄.returns _ ha₅)
  obtain ⟨c, hblocks, hbytes, hmoved⟩ := hu₄.moved _ (List.mem_singleton_self _) _ _ _ s ha₅ hs
  have hcontents := hu₄.contents _ (List.mem_singleton_self _)
  refine ⟨s, c, h₄.next ha₅ hs, by simpa [dropped] using hblocks, hbytes, ?_, ?_, heap_uncorrupted (h₄.next ha₅ hs)⟩
  · exact (hmoved 3 (by simp)).trans ((hcontents 3 (by simp)).trans (by simp))
  · exact (hmoved 4 (by simp)).trans ((hcontents 4 (by simp)).trans (by simp))

end ThreadBites.HeapBlocks

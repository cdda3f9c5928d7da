import ThreadBites.MallocFrame

/-!
# Well-formed heaps

Of these heaps nothing is known but that their chunks tile the addresses from the
first limit to the present one. There is a row of chunks behind each of them, so
what `malloc` does to a row it does to any such heap.
-/
namespace ThreadBites.Malloc

open ByteMemory Tiling

/-- The bit of `MEMCHUNK_USED` in the header of a chunk. -/
def used (m : Memory) (p : BitVec 64) : Bool := size m p &&& MEMCHUNK_USED ≠ 0

/-- The chunks `l` tile the heap. -/
structure WellFormed (head first : BitVec 64) (h : Heap) (l : List (BitVec 64)) : Prop where
  above : head.toNat + 16 ≤ first.toNat
  aligned : first.toNat % 8 = 0
  follows : Follows h.mem head l
  fills : Fills h.mem first.toNat l h.brk.toNat
  sizes : ∀ p ∈ l, payload h.mem p % 8 = 0 ∧ 16 ≤ payload h.mem p
  limit : h.limit = 0 ∧ l = [] ∨ h.limit = h.brk
  below : h.brk.toNat < 2 ^ 47

theorem addresses_append (a : Nat) (l r : List Chunk) :
    addresses a (l ++ r) = addresses a l ++ addresses (stop Chunk.len a l) r := by
  simp only [addresses, laid_append, List.map_append]

theorem Models.wellFormed {head first : BitVec 64} {s : State} {ks : List Chunk} (h : Models head first s ks) :
    WellFormed head first s.heap (addresses first.toNat ks) where
  above := h.above
  aligned := h.aligned
  follows := h.tiled.follows
  fills := by
    have hbelow := h.below
    rw [h.brk, toNat_ofNat_of_lt (by omega)]
    exact h.linked.headers.fills hbelow
  sizes := h.tiled.sizes
  limit := by
    rcases h.limit with ⟨hz, rfl⟩ | hl
    · exact .inl ⟨hz, rfl⟩
    · exact .inr hl
  below := by
    have hbelow := h.below
    rw [h.brk, toNat_ofNat_of_lt (by omega)]
    exact hbelow

/-- A header is its size with the bit of `MEMCHUNK_USED` or without. -/
theorem size_eq (m : Memory) (p : BitVec 64) :
    size m p = if used m p then BitVec.ofNat 64 (payload m p) ||| MEMCHUNK_USED else BitVec.ofNat 64 (payload m p) := by
  have hsplit : size m p = (size m p &&& ~~~MEMCHUNK_USED) ||| (size m p &&& MEMCHUNK_USED) := by
    rw [← BitVec.and_or_distrib_left, BitVec.or_comm, BitVec.or_not_self, BitVec.and_allOnes]
  have hpayload : BitVec.ofNat 64 (payload m p) = size m p &&& ~~~MEMCHUNK_USED := by
    rw [payload, BitVec.ofNat_toNat, BitVec.setWidth_eq]
  have hbit : size m p &&& MEMCHUNK_USED = 0 ∨ size m p &&& MEMCHUNK_USED = MEMCHUNK_USED := by
    rw [used_eq, BitVec.and_twoPow]
    split
    · exact .inr rfl
    · exact .inl rfl
  rw [hpayload]
  unfold used
  rcases hbit with hz | hu
  · rw [hz] at hsplit ⊢
    simpa using hsplit
  · rw [hu] at hsplit ⊢
    simpa [MEMCHUNK_USED] using hsplit

/-- The chunk of a header. -/
def chunkOf (m : Memory) (p : BitVec 64) (h : payload m p % 8 = 0 ∧ 16 ≤ payload m p) : Chunk where
  bytes := payload m p
  request := if used m p then some (BitVec.ofNat 64 (payload m p)) else none
  aligned := h.1
  atLeast := h.2
  holds := by
    intro r hr
    split at hr
    · obtain rfl := Option.some.inj hr
      rw [BitVec.toNat_ofNat]
      exact Nat.mod_le _ _
    · cases hr

theorem chunkOf_word (m : Memory) (p : BitVec 64) (h : payload m p % 8 = 0 ∧ 16 ≤ payload m p) :
    (chunkOf m p h).word = size m p := by
  have heq := size_eq m p
  have hbytes : (chunkOf m p h).bytes = payload m p := rfl
  have hrequest : (chunkOf m p h).request = if used m p then some (BitVec.ofNat 64 (payload m p)) else none := rfl
  generalize chunkOf m p h = k at *
  unfold Chunk.word
  rw [hbytes, hrequest]
  cases hu : used m p
  · rw [hu] at heq
    exact heq.symm
  · rw [hu] at heq
    exact heq.symm

/-- The request of a used chunk is all that the chunk has. -/
def Whole (k : Chunk) : Prop := ∀ r, k.request = some r → r = BitVec.ofNat 64 k.bytes

theorem chunkOf_whole (m : Memory) (p : BitVec 64) (h : payload m p % 8 = 0 ∧ 16 ≤ payload m p) :
    Whole (chunkOf m p h) := by
  intro r hr
  simp only [chunkOf] at hr
  split at hr
  · exact (Option.some.inj hr).symm
  · cases hr

/-- Chunks that are followed and fill the addresses are a row. -/
theorem exists_row {m : Memory} {head : BitVec 64} {a e : Nat} {l : List (BitVec 64)} (hf : Follows m head l)
    (hl : Fills m a l e) (hs : ∀ p ∈ l, payload m p % 8 = 0 ∧ 16 ≤ payload m p) :
    ∃ ks, Linked m head a ks 0 ∧ addresses a ks = l ∧ stop Chunk.len a ks = e ∧ ∀ k ∈ ks, Whole k := by
  induction l generalizing head a with
  | nil => exact ⟨[], ⟨hf, trivial⟩, rfl, hl, by simp⟩
  | cons p l ih =>
    obtain ⟨hnext, -, hf⟩ := hf
    obtain ⟨rfl, hl⟩ := hl
    obtain ⟨hp, hs⟩ := List.forall_mem_cons.mp hs
    have hlen : (chunkOf m p hp).len = 16 + payload m p := rfl
    have haddr : BitVec.ofNat 64 p.toNat = p := ofNat_toNat_head p
    rw [Nat.add_assoc, ← hlen] at hl
    obtain ⟨ks, hlinked, haddresses, hstop, hwhole⟩ := ih hf hl hs
    refine ⟨chunkOf m p hp :: ks, ⟨hnext.trans haddr.symm, ?_, ?_, hlinked.headers⟩, ?_, hstop, ?_⟩
    · rw [haddr, chunkOf_word]
    · rw [haddr]
      exact hlinked.first
    · change BitVec.ofNat 64 p.toNat :: addresses (p.toNat + (chunkOf m p hp).len) ks = p :: l
      rw [haddr, haddresses]
    · exact List.forall_mem_cons.mpr ⟨chunkOf_whole m p hp, hwhole⟩

/-- The row of chunks behind a well-formed heap. -/
theorem WellFormed.row {head first : BitVec 64} {h : Heap} {l : List (BitVec 64)} (hw : WellFormed head first h l) :
    ∃ ks, Models head first ⟨h, blocks first.toNat ks⟩ ks ∧ addresses first.toNat ks = l ∧ ∀ k ∈ ks, Whole k := by
  obtain ⟨ks, hlinked, haddresses, hstop, hwhole⟩ := exists_row hw.follows hw.fills hw.sizes
  refine ⟨ks, ⟨hw.above, hw.aligned, ?_, ?_, ?_, hstop ▸ hw.below, .refl _⟩, haddresses, hwhole⟩
  · rw [ofNat_toNat_head]
    exact hlinked
  · rw [hstop, ofNat_toNat_head]
  · rcases hw.limit with ⟨hz, rfl⟩ | hl
    · have hnil : ks = [] := by
        rw [← List.length_eq_zero_iff, ← length_laid Chunk.len first.toNat ks, ← List.length_map, ← addresses, haddresses]
        rfl
      exact .inl ⟨hz, hnil⟩
    · exact .inr hl

theorem addresses_cons (a : Nat) (k : Chunk) (ks : List Chunk) :
    addresses a (k :: ks) = BitVec.ofNat 64 a :: addresses (a + k.len) ks := rfl

/-- The bit of `MEMCHUNK_USED` of a chunk of a row. -/
theorem Placed.used {m : Memory} {first limit : Nat} {p : Nat × Chunk} (h : Placed m first limit p)
    (hlimit : limit < 2 ^ 47) : used m (BitVec.ofNat 64 p.1) = p.2.request.isSome := by
  have hhigh := h.high
  have hbit := Chunk.word_and_used (k := p.2) (by omega)
  unfold Malloc.used
  rw [h.word]
  cases hr : p.2.request with
  | none => simpa using hbit.mpr hr
  | some r => simpa [hr] using hbit.not.mpr (by simp [hr])

/-- Unused, and large enough. -/
def Fits (m : Memory) (need : Nat) (p : BitVec 64) : Prop := used m p = false ∧ need ≤ payload m p

theorem Placed.fits {m : Memory} {first limit : Nat} {p : Nat × Chunk} (h : Placed m first limit p)
    (hlimit : limit < 2 ^ 47) (need : Nat) : Fits m need (BitVec.ofNat 64 p.1) ↔ p.2.fits need = true := by
  rw [Fits, h.used hlimit, h.payload, fits_iff, Option.isSome_eq_false_iff, Option.isNone_iff_eq_none]

/-- The header of a chunk is as it was, and so are the bytes behind it. -/
structure Kept (m m' : Memory) (p : BitVec 64) : Prop where
  size : size m' p = size m p
  bytes : Same m m' (p.toNat + 16) (p.toNat + 16 + payload m p)

/-- A chunk of `total` bytes serves a request of `need`, and `rest` is the chunk that was cut off. -/
structure Serves (m : Memory) (p : BitVec 64) (total need : Nat) (rest : List (BitVec 64)) : Prop where
  used : used m p = true
  rest : rest = [] ∧ total ≤ need + 32 ∧ payload m p = total ∨
    ∃ q, rest = [q] ∧ need + 32 < total ∧ payload m p = need ∧ q.toNat = p.toNat + 16 + need ∧
      Malloc.used m q = false ∧ payload m q = total - need - 16 ∧ 24 ≤ payload m q

/-- A row with the chunks that a request leaves of one. -/
theorem Models.serves {head first bytes : BitVec 64} {s : State} {pre post : List Chunk} {k : Chunk}
    {hb : bytes.toNat < 2 ^ 47} {hk : (allocSize bytes).toNat ≤ k.bytes}
    (h : Models head first s (pre ++ k.serve bytes hb hk ++ post)) :
    ∃ rest, addresses first.toNat (pre ++ k.serve bytes hb hk ++ post) = addresses first.toNat pre ++
        BitVec.ofNat 64 (stop Chunk.len first.toNat pre) :: rest ++ addresses (stop Chunk.len first.toNat pre + k.len) post ∧
      Serves s.heap.mem (BitVec.ofNat 64 (stop Chunk.len first.toNat pre)) k.bytes (allocSize bytes).toNat rest := by
  have hbelow := h.below
  have hplaced := fun (p : Nat × Chunk) (hp : p ∈ laid Chunk.len (stop Chunk.len first.toNat pre) (k.serve bytes hb hk)) =>
    h.placed (p := p) (by
      rw [laid_append, laid_append]
      exact List.mem_append_left _ (List.mem_append_right _ hp))
  rw [addresses_append, addresses_append, stop_append, stop_serve]
  have haligned := k.aligned
  obtain ⟨hneed, -⟩ := allocSize_spec hb
  generalize hserve : k.serve bytes hb hk = served at hbelow hplaced ⊢
  unfold Chunk.serve at hserve
  split at hserve
  · rename_i hcut
    subst hserve
    have hfirst := hplaced _ (List.mem_cons_self ..)
    have hsecond := hplaced _ (List.mem_cons_of_mem _ (List.mem_cons_self ..))
    have hrest : payload s.heap.mem (BitVec.ofNat 64 (stop Chunk.len first.toNat pre + (16 + (allocSize bytes).toNat))) =
        k.bytes - (allocSize bytes).toNat - 16 := hsecond.payload
    refine ⟨[BitVec.ofNat 64 (stop Chunk.len first.toNat pre + (16 + (allocSize bytes).toNat))], ?_, hfirst.used hbelow,
      .inr ⟨_, rfl, hcut, hfirst.payload, ?_, hsecond.used hbelow, hrest, ?_⟩⟩
    · simp only [addresses_cons, Chunk.len, List.append_assoc, List.cons_append]
      rfl
    · have haddress := hfirst.address
      have haddress' := hsecond.address
      simp only [Chunk.len] at haddress haddress'
      omega
    · rw [hrest]
      omega
  · rename_i hcut
    subst hserve
    have hfirst := hplaced _ (List.mem_cons_self ..)
    refine ⟨[], ?_, hfirst.used hbelow, .inl ⟨rfl, by omega, hfirst.payload⟩⟩
    rfl

/-- Bytes written behind the header of a used chunk leave the heap well formed. -/
theorem WellFormed.fill {head first c : BitVec 64} {h : Heap} {l : List (BitVec 64)} (hw : WellFormed head first h l)
    (hc : c ∈ l) (hu : used h.mem c = true) (byte : Memory → Nat → BitVec 8) {n : Nat} (hn : n ≤ payload h.mem c) :
    WellFormed head first { h with mem := ByteMemory.fill byte (c + sizeofMemchunk) n h.mem } l ∧
      size (ByteMemory.fill byte (c + sizeofMemchunk) n h.mem) c = size h.mem c := by
  obtain ⟨ks, hm, rfl, hwhole⟩ := hw.row
  obtain ⟨p, hp, rfl⟩ := List.mem_map.mp hc
  have hbelow := hm.below
  have hplaced := hm.placed hp
  obtain ⟨pre, post, hks, -⟩ := exists_split hp
  rw [hplaced.used hbelow] at hu
  obtain ⟨r, hr⟩ := Option.isSome_iff_exists.mp hu
  obtain rfl := hwhole p.2 (by rw [hks]; simp) r hr
  have hlive : (BitVec.ofNat 64 (p.1 + 16), BitVec.ofNat 64 p.2.bytes) ∈ blocks first.toNat ks :=
    List.mem_filterMap.mpr ⟨p, hp, by simp [block, hr]⟩
  have hhigh := hplaced.high
  rw [hplaced.payload] at hn
  have hfilled := hm.fill hlive byte (n := n) (by rw [toNat_ofNat_of_lt (by omega)]; exact hn)
  rw [ofNat_add_sizeofMemchunk]
  exact ⟨hfilled.wellFormed, (hfilled.placed hp).word.trans hplaced.word.symm⟩

end ThreadBites.Malloc

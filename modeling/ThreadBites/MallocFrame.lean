import ThreadBites.HeapTiling

/-!
# malloc leaves the blocks alone

The headers that a call writes are those of the chunk it serves, of the rest of
that chunk, and of the chunk that the heap grows by, with the pointer to it. None
of them is in a block that the program holds.
-/
namespace ThreadBites.Malloc

open ByteMemory Tiling

/-- The bytes of a block are the same in two memories. -/
def Unchanged (m m' : Memory) (b : BitVec 64 × BitVec 64) : Prop :=
  Same m m' b.1.toNat (b.1.toNat + b.2.toNat)

theorem Unchanged.trans {m m' m'' : Memory} {b : BitVec 64 × BitVec 64} (h : Unchanged m m' b)
    (h' : Unchanged m' m'' b) : Unchanged m m'' b :=
  Same.trans h h'

/-- A block has room for its request below the limit. -/
theorem Models.room {head first : BitVec 64} {s : State} {ks : List Chunk} {b : BitVec 64 × BitVec 64}
    (h : Models head first s ks) (hb : b ∈ s.live) :
    b.2.toNat ≤ blockBytes s.heap.mem b ∧ b.1.toNat + blockBytes s.heap.mem b ≤ stop Chunk.len first.toNat ks := by
  obtain ⟨p, hp, hr, hpa, -, hpb⟩ := h.placed_block (h.live.mem_iff.mp hb)
  have hhigh := (h.placed hp).high
  have hholds := p.2.holds _ hr
  rw [hpa, hpb]
  exact ⟨hholds, by omega⟩

theorem lastPtr_mem (head : BitVec 64) (a : Nat) (ks : List Chunk) :
    lastPtr head a ks = head ∨ lastPtr head a ks ∈ addresses a ks := by
  induction ks generalizing head a with
  | nil => exact .inl rfl
  | cons k ks ih =>
    refine .inr ?_
    rcases ih (BitVec.ofNat 64 a) (a + k.len) with he | hm
    · rw [lastPtr, he]
      exact List.mem_cons_self ..
    · exact List.mem_cons_of_mem _ hm

/-- The header at the cursor is in no block. -/
theorem Models.clear_cursor {head first : BitVec 64} {s : State} {ks : List Chunk} {b : BitVec 64 × BitVec 64}
    (h : Models head first s ks) (hb : b ∈ s.live) :
    Apart b.1.toNat b.2.toNat (lastPtr head first.toNat ks).toNat 16 := by
  have hroom := (h.room hb).1
  have hshorter : ∀ {a : Nat}, Apart b.1.toNat (blockBytes s.heap.mem b) a 16 → Apart b.1.toNat b.2.toNat a 16 := by
    rintro a (hlow | hhigh)
    · exact .inl (by omega)
    · exact .inr hhigh
  obtain ⟨hhead, hchunks⟩ := h.clear hb
  rcases lastPtr_mem head first.toNat ks with he | hm
  · rw [he]
    exact hshorter hhead
  · exact hshorter (hchunks _ hm)

/-- `malloc` changes no byte of a block that the program holds. -/
theorem Models.same_malloc {head first bytes : BitVec 64} {s : State} {ks : List Chunk} {granted : Bool}
    {r : Heap × BitVec 64} {b : BitVec 64 × BitVec 64} (h : Models head first s ks)
    (ha : Admitted s (.malloc bytes granted)) (hr : Malloc.malloc head s.heap bytes granted = some r) (hb : b ∈ s.live) :
    Unchanged s.heap.mem r.1.mem b := by
  have hbelow := h.below
  have hroom := h.room hb
  rcases h.malloc_cases ha.1 ha.2 with ⟨pre, post, k, m, hre⟩ | ⟨rfl, m, limit, hg⟩ | ⟨rfl, -, hm⟩
  · obtain rfl := Option.some.inj ((hre.returns granted).symm.trans hr)
    obtain ⟨p, hp, hpr, hpa, -, hpb⟩ := h.placed_block (h.live.mem_iff.mp hb)
    have hchunk : (stop Chunk.len first.toNat pre, k) ∈ laid Chunk.len first.toNat ks := by
      rw [hre.row, laid_append]
      exact List.mem_append_right _ (List.mem_cons_self ..)
    have hlen : p.2.len = 16 + p.2.bytes := rfl
    refine hre.same (by omega) ?_
    -- the chunk that serves the request was not used
    rcases laid_apart hp hchunk with rfl | hbefore | hafter
    · rw [hre.free] at hpr
      cases hpr
    · exact .inl (by simp only at hbefore; omega)
    · exact .inr (by simp only at hafter; omega)
  · obtain rfl := Option.some.inj (hg.returns.symm.trans hr)
    refine hg.same (by omega) ?_
    rcases h.clear_cursor hb with hlow | hhigh
    · exact .inl hlow
    · exact .inr (by omega)
  · obtain rfl := Option.some.inj (hm.symm.trans hr)
    exact Same.refl _ _ _

/-- `malloc` returns, and a pointer that is not 0 is one more block. -/
theorem Models.returned {head first bytes : BitVec 64} {s : State} {ks : List Chunk} {granted : Bool}
    (h : Models head first s ks) (ha : Admitted s (.malloc bytes granted)) :
    ∃ r, Malloc.malloc head s.heap bytes granted = some r ∧
      (r.2 ≠ 0 → ∃ ks', Models head first ⟨r.1, (r.2, bytes) :: s.live⟩ ks') := by
  obtain ⟨t, ht, hmodels, -⟩ := h.malloc ha
  rw [Malloc.step] at ht
  obtain ⟨r, hr, rfl⟩ := Option.map_eq_some_iff.mp ht
  refine ⟨r, hr, fun hne => ?_⟩
  rwa [if_neg hne] at hmodels

/-- Two blocks at different addresses have nothing in common. -/
theorem Models.apart {head first : BitVec 64} {s : State} {ks : List Chunk} {b c : BitVec 64 × BitVec 64}
    (h : Models head first s ks) (hb : b ∈ s.live) (hc : c ∈ s.live) (hne : b.1 ≠ c.1) :
    b.1.toNat + b.2.toNat ≤ c.1.toNat ∨ c.1.toNat + c.2.toNat ≤ b.1.toNat := by
  obtain ⟨p, hp, hr, hpa, -, hpb⟩ := h.placed_block (h.live.mem_iff.mp hb)
  obtain ⟨q, hq, hr', hqa, -, hqb⟩ := h.placed_block (h.live.mem_iff.mp hc)
  have hholds := p.2.holds _ hr
  have hholds' := q.2.holds _ hr'
  have hlen : p.2.len = 16 + p.2.bytes := rfl
  have hlen' : q.2.len = 16 + q.2.bytes := rfl
  rcases laid_apart hp hq with rfl | hpq | hqp
  · exact absurd (BitVec.eq_of_toNat_eq (hpa.trans hqa.symm)) hne
  · exact .inl (by omega)
  · exact .inr (by omega)

/-- Each block is held once. -/
theorem Models.nodup {head first : BitVec 64} {s : State} {ks : List Chunk} (h : Models head first s ks) :
    (s.live.map Prod.fst).Nodup := by
  refine (h.live.map Prod.fst).nodup_iff.mpr (List.pairwise_map.mpr ((blocks_sorted h.below).imp ?_))
  intro b c hlt he
  rw [he] at hlt
  exact Nat.lt_irrefl _ hlt

/-- Bytes written in order in a block leave the row as it is. -/
theorem Models.fill {head first : BitVec 64} {s : State} {ks : List Chunk} {c : BitVec 64 × BitVec 64}
    (h : Models head first s ks) (hc : c ∈ s.live) (byte : Memory → Nat → BitVec 8) {n : Nat} (hn : n ≤ c.2.toNat) :
    Models head first { s with heap := { s.heap with mem := ByteMemory.fill byte c.1 n s.heap.mem } } ks := by
  induction n with
  | zero => exact h
  | succ n ih =>
    have hlt := c.2.isLt
    have hoff : (BitVec.ofNat 64 n).toNat < c.2.toNat := by
      rw [BitVec.toNat_ofNat, Nat.mod_eq_of_lt (by omega)]
      omega
    exact (ih (by omega)).write ⟨c, hc, rfl, hoff⟩

/-- Bytes written in order in a block leave other blocks as they are. -/
theorem Models.same_fill {head first : BitVec 64} {s : State} {ks : List Chunk} {b c : BitVec 64 × BitVec 64}
    (h : Models head first s ks) (hb : b ∈ s.live) (hc : c ∈ s.live) (hne : b.1 ≠ c.1)
    (byte : Memory → Nat → BitVec 8) {n : Nat} (hn : n ≤ c.2.toNat) :
    Unchanged s.heap.mem (ByteMemory.fill byte c.1 n s.heap.mem) b := by
  have hbelow := h.below
  have hroom := h.room hb
  have hroom' := h.room hc
  have hapart := h.apart hb hc hne
  rw [← ofNat_toNat_head c.1]
  exact ByteMemory.same_fill byte s.heap.mem (by omega) (by omega) (by omega)

/-- `free` writes to the header of the chunk. -/
theorem Models.same_free {head first : BitVec 64} {s : State} {ks : List Chunk} {b c : BitVec 64 × BitVec 64}
    (h : Models head first s ks) (hb : b ∈ s.live) (hc : c ∈ s.live) :
    Unchanged s.heap.mem (Malloc.free s.heap c.1).mem b := by
  have hbelow := h.below
  have hroom := h.room hb
  obtain ⟨p, hp, -, -, hchunk, -⟩ := h.placed_block (h.live.mem_iff.mp hc)
  have hplaced := h.placed hp
  have hhigh := hplaced.high
  have hapart := (h.clear hb).2 _ (List.mem_map.mpr ⟨p, hp, rfl⟩)
  rw [hplaced.address] at hapart
  unfold Apart at hapart
  simp only [Malloc.free, h.ne_zero_of_live hc, if_false, hchunk, setSize, ofNat_add_eight]
  exact same_store64 _ _ (by omega) (by omega) (by omega)

end ThreadBites.Malloc

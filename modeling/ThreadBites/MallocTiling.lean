import ThreadBites.MallocSteps

/-!
# The heap is tiled

In every reached state the chunks that `head` leads to are a row from the first
limit to the present one, and the used chunks are the blocks the program holds.
-/
namespace ThreadBites.Malloc

open Transition ByteMemory Tiling

/-- The block in a chunk at `a`, and the request it serves. -/
def block (a : Nat) (k : Chunk) : Option (BitVec 64 × BitVec 64) :=
  k.request.map fun r => (BitVec.ofNat 64 (a + 16), r)

/-- The blocks in the used chunks of a row. -/
def blocks (a : Nat) (ks : List Chunk) : List (BitVec 64 × BitVec 64) :=
  (laid Chunk.len a ks).filterMap fun p => block p.1 p.2

theorem blocks_append (a : Nat) (l r : List Chunk) :
    blocks a (l ++ r) = blocks a l ++ blocks (stop Chunk.len a l) r := by
  simp only [blocks, laid_append, List.filterMap_append]

/-- The state is that of a row of chunks. -/
structure Models (head first : BitVec 64) (s : State) (ks : List Chunk) : Prop where
  above : head.toNat + 16 ≤ first.toNat
  aligned : first.toNat % 8 = 0
  linked : Linked s.heap.mem (BitVec.ofNat 64 head.toNat) first.toNat ks 0
  brk : s.heap.brk = BitVec.ofNat 64 (stop Chunk.len first.toNat ks)
  limit : s.heap.limit = 0 ∧ ks = [] ∨ s.heap.limit = s.heap.brk
  below : stop Chunk.len first.toNat ks < 2 ^ 47
  live : s.live.Perm (blocks first.toNat ks)

/-- A row has far fewer chunks than the loops are given steps. -/
theorem length_le_stop (a : Nat) (ks : List Chunk) : a + 32 * ks.length ≤ stop Chunk.len a ks := by
  induction ks generalizing a with
  | nil => exact Nat.le_refl a
  | cons k ks ih =>
    have hk := k.atLeast
    have hlen : k.len = 16 + k.bytes := rfl
    have := ih (a + k.len)
    simp only [List.length_cons, stop]
    omega

theorem Models.knownLimit {head first : BitVec 64} {s : State} {ks : List Chunk}
    (h : Models head first s ks) : knownLimit s.heap = BitVec.ofNat 64 (stop Chunk.len first.toNat ks) := by
  have habove := h.above
  have hle := le_stop Chunk.len first.toNat ks
  have hbelow := h.below
  have hne : s.heap.brk ≠ 0 := by
    rw [h.brk]
    exact ofNat_ne_zero (by omega) (by omega)
  rw [← h.brk]
  rcases h.limit with ⟨hz, -⟩ | hl
  · simp [Malloc.knownLimit, hz, tbbrk]
  · rw [Malloc.knownLimit, hl, if_neg hne]

/-- The chunk that serves a request becomes the block that the request is given. -/
theorem blocks_serve (a : Nat) {k : Chunk} {bytes : BitVec 64} (hb : bytes.toNat < 2 ^ 47)
    (hk : (allocSize bytes).toNat ≤ k.bytes) :
    blocks a (k.serve bytes hb hk) = [(BitVec.ofNat 64 (a + 16), bytes)] := by
  unfold Chunk.serve
  split <;> rfl

theorem blocks_free (a : Nat) {k : Chunk} (h : k.request = none) (post : List Chunk) :
    blocks a (k :: post) = blocks (a + k.len) post := by
  simp [blocks, laid, block, h]

/-- A row in which a chunk serves a request models the heap that `malloc` leaves. -/
theorem Models.serve {head first limit : BitVec 64} {m : Memory} {live : List (BitVec 64 × BitVec 64)}
    {pre post : List Chunk} {k : Chunk} {bytes : BitVec 64} (hb : bytes.toNat < 2 ^ 47)
    (h : Models head first ⟨⟨m, limit, limit⟩, live⟩ (pre ++ k :: post)) (hfree : k.request = none)
    (hk : (allocSize bytes).toNat ≤ k.bytes) :
    Models head first ⟨⟨markUsed (split m (BitVec.ofNat 64 (stop Chunk.len first.toNat pre))
      (allocSize bytes)) (BitVec.ofNat 64 (stop Chunk.len first.toNat pre)), limit, limit⟩,
      (BitVec.ofNat 64 (stop Chunk.len first.toNat pre + 16), bytes) :: live⟩ (pre ++ k.serve bytes hb hk ++ post) := by
  have hstop : stop Chunk.len first.toNat (pre ++ k.serve bytes hb hk ++ post) =
      stop Chunk.len first.toNat (pre ++ k :: post) := by
    rw [List.append_assoc, stop_append, stop_append, stop_serve, stop_append]
    rfl
  have hlinked : Linked m (BitVec.ofNat 64 head.toNat) first.toNat (pre ++ k :: post) 0 := h.linked
  have hlinked := hlinked.serve h.above h.below hb hfree hk
  have hlive : ((BitVec.ofNat 64 (stop Chunk.len first.toNat pre + 16), bytes) :: live).Perm
      (blocks first.toNat (pre ++ k.serve bytes hb hk ++ post)) := by
    have hlive := h.live
    rw [blocks_append, blocks_free _ hfree] at hlive
    rw [List.append_assoc, blocks_append, blocks_append, blocks_serve, stop_serve]
    exact (hlive.cons _).trans List.perm_middle.symm
  exact ⟨h.above, h.aligned, hlinked, h.brk.trans (congrArg (BitVec.ofNat 64) hstop.symm), .inr rfl,
    hstop.symm ▸ h.below, hlive⟩

/-- Serving a request writes nothing outside the chunk. -/
theorem Models.same_serve {head first limit : BitVec 64} {m : Memory} {live : List (BitVec 64 × BitVec 64)}
    {pre post : List Chunk} {k : Chunk} {bytes : BitVec 64}
    (h : Models head first ⟨⟨m, limit, limit⟩, live⟩ (pre ++ k :: post)) (hfree : k.request = none)
    (hk : (allocSize bytes).toNat ≤ k.bytes) {lo hi : Nat} (hhi : hi ≤ 2 ^ 64)
    (hout : hi ≤ stop Chunk.len first.toNat pre ∨ stop Chunk.len first.toNat pre + k.len ≤ lo) :
    Same m (markUsed (split m (BitVec.ofNat 64 (stop Chunk.len first.toNat pre)) (allocSize bytes))
      (BitVec.ofNat 64 (stop Chunk.len first.toNat pre))) lo hi := by
  have hbelow := h.below
  have hin := stop_chunk_le first.toNat pre post k
  have hlen : k.len = 16 + k.bytes := rfl
  have hlinked : Linked m (BitVec.ofNat 64 head.toNat) first.toNat (pre ++ k :: post) 0 := h.linked
  have hword : k.word = BitVec.ofNat 64 k.bytes := by simp [Chunk.word, hfree]
  have hsame := Malloc.same_serve (hlinked.header.1.trans hword) (by omega) hk hhi
    (show hi ≤ stop Chunk.len first.toNat pre ∨ stop Chunk.len first.toNat pre + 16 + k.bytes ≤ lo by omega)
  rwa [BitVec.ofNat_toNat, BitVec.setWidth_eq] at hsame

theorem ofNat_add_sizeofMemchunk (a : Nat) : BitVec.ofNat 64 a + sizeofMemchunk = BitVec.ofNat 64 (a + 16) :=
  (BitVec.ofNat_add a 16).symm

theorem ofNat_toNat_head (head : BitVec 64) : BitVec.ofNat 64 head.toNat = head := by
  rw [BitVec.ofNat_toNat, BitVec.setWidth_eq]

/-- A row that the heap has grown by a chunk. -/
theorem Models.grown {head first bytes : BitVec 64} {s : State} {ks : List Chunk} (h : Models head first s ks)
    (hb : bytes.toNat < 2 ^ 47) (hgrant : (Malloc.knownLimit s.heap).toNat + (chunkSize bytes).toNat < 2 ^ 47) :
    ∃ m limit, grow s.heap (lastPtr head first.toNat ks) bytes true =
        (⟨m, limit, limit⟩, some (BitVec.ofNat 64 (stop Chunk.len first.toNat ks))) ∧
      Models head first ⟨⟨m, limit, limit⟩, s.live⟩ (ks ++ [fresh bytes hb]) := by
  have hbelow := h.below
  rw [h.knownLimit, BitVec.toNat_ofNat, Nat.mod_eq_of_lt (by omega)] at hgrant
  obtain ⟨m, hgrow, hlinked⟩ := grow_granted h.linked h.above hb h.knownLimit hgrant
  rw [ofNat_toNat_head] at hgrow
  have hlast : stop Chunk.len first.toNat (ks ++ [fresh bytes hb]) =
      stop Chunk.len first.toNat ks + (chunkSize bytes).toNat := by
    simp only [stop_append, stop, fresh_len]
  refine ⟨m, _, hgrow, h.above, h.aligned, hlinked, rfl, .inr rfl, by rw [hlast]; exact hgrant, ?_⟩
  rw [blocks_append, blocks_free _ rfl]
  simpa [blocks, laid] using h.live

theorem fits_iff {k : Chunk} {alloc : Nat} : k.fits alloc = true ↔ k.request = none ∧ alloc ≤ k.bytes := by
  simp [Chunk.fits]

/-- A chunk of the row serves the request. -/
structure Reused (head first : BitVec 64) (s : State) (ks : List Chunk) (bytes : BitVec 64)
    (hb : bytes.toNat < 2 ^ 47) (pre post : List Chunk) (k : Chunk) (m : Memory) : Prop where
  row : ks = pre ++ k :: post
  passed : ∀ j ∈ pre, j.fits (allocSize bytes).toNat = false
  free : k.request = none
  holds : (allocSize bytes).toNat ≤ k.bytes
  returns : ∀ granted, Malloc.malloc head s.heap bytes granted =
    some (⟨m, s.heap.limit, s.heap.brk⟩, BitVec.ofNat 64 (stop Chunk.len first.toNat pre + 16))
  same : ∀ {lo hi : Nat}, hi ≤ 2 ^ 64 →
    hi ≤ stop Chunk.len first.toNat pre ∨ stop Chunk.len first.toNat pre + k.len ≤ lo → Same s.heap.mem m lo hi
  models : Models head first
    ⟨⟨m, s.heap.limit, s.heap.brk⟩, (BitVec.ofNat 64 (stop Chunk.len first.toNat pre + 16), bytes) :: s.live⟩
    (pre ++ k.serve bytes hb holds ++ post)

/-- A new last chunk serves the request. -/
structure Grown (head first : BitVec 64) (s : State) (ks : List Chunk) (bytes : BitVec 64)
    (hb : bytes.toNat < 2 ^ 47) (m : Memory) (limit : BitVec 64) : Prop where
  passed : ∀ j ∈ ks, j.fits (allocSize bytes).toNat = false
  returns : Malloc.malloc head s.heap bytes true =
    some (⟨m, limit, limit⟩, BitVec.ofNat 64 (stop Chunk.len first.toNat ks + 16))
  same : ∀ {lo hi : Nat}, hi ≤ stop Chunk.len first.toNat ks →
    hi ≤ (lastPtr head first.toNat ks).toNat ∨ (lastPtr head first.toNat ks).toNat + 8 ≤ lo → Same s.heap.mem m lo hi
  models : Models head first
    ⟨⟨m, limit, limit⟩, (BitVec.ofNat 64 (stop Chunk.len first.toNat ks + 16), bytes) :: s.live⟩
    (ks ++ (fresh bytes hb).serve bytes hb (fits_iff.mp (fresh_fits bytes hb)).2)

/-- The search of `malloc`, and what the cursor points to where it stops. -/
structure Searched (head first : BitVec 64) (m : Memory) (alloc : BitVec 64) (pre post : List Chunk) : Prop where
  passed : ∀ k ∈ pre, k.fits alloc.toNat = false
  fits : ∀ k ∈ post.head?, k.fits alloc.toNat = true
  cursor : findLoop m alloc fuel head = some (lastPtr head first.toNat pre)
  next : next m (lastPtr head first.toNat pre) = target (stop Chunk.len first.toNat pre) 0 post

theorem Models.search {head first : BitVec 64} {s : State} {ks : List Chunk} (h : Models head first s ks)
    (alloc : BitVec 64) : ∃ pre post, ks = pre ++ post ∧ Searched head first s.heap.mem alloc pre post := by
  have habove := h.above
  have hbelow := h.below
  have hlength := length_le_stop first.toNat ks
  obtain ⟨pre, post, rfl, hfind, hpre, hpost⟩ := findLoop_spec alloc h.linked (by omega) (by omega)
    (n := fuel) (by simp only [fuel]; omega)
  have hnext := (linked_append.mp h.linked).1.next_lastPtr
  rw [ofNat_toNat_head] at hfind hnext
  exact ⟨pre, post, rfl, hpre, hpost, hfind, hnext⟩

/-- If no chunk fits and the kernel refuses, `malloc` returns 0. -/
theorem Models.malloc_refused {head first bytes : BitVec 64} {s : State} {ks : List Chunk} (h : Models head first s ks)
    (hno : ∀ k ∈ ks, k.fits (allocSize bytes).toNat = false) :
    Malloc.malloc head s.heap bytes false = some (⟨s.heap.mem, s.heap.brk, s.heap.brk⟩, 0) := by
  obtain ⟨pre, post, rfl, hsearch⟩ := h.search (allocSize bytes)
  cases post with
  | nil =>
    rw [List.append_nil] at h
    have hnext : next s.heap.mem (lastPtr head first.toNat pre) = 0 := hsearch.next
    simp only [Malloc.malloc, hsearch.cursor, Option.map_some, hnext, if_true, grow_refused h.knownLimit h.brk]
  | cons k post =>
    have hfits := hsearch.fits k rfl
    rw [hno k (by simp)] at hfits
    cases hfits

/-- `malloc` has the first chunk that fits serve the request, or one that it asks the kernel for. -/
theorem Models.malloc_cases {head first bytes : BitVec 64} {s : State} {ks : List Chunk} {granted : Bool}
    (h : Models head first s ks) (hb : bytes.toNat < 2 ^ 47)
    (hgrant : granted = true → (Malloc.knownLimit s.heap).toNat + (chunkSize bytes).toNat < 2 ^ 47) :
    (∃ pre post k m, Reused head first s ks bytes hb pre post k m) ∨
    granted = true ∧ (∃ m limit, Grown head first s ks bytes hb m limit) ∨
    granted = false ∧ (∀ j ∈ ks, j.fits (allocSize bytes).toNat = false) ∧
      Malloc.malloc head s.heap bytes granted = some (⟨s.heap.mem, s.heap.brk, s.heap.brk⟩, 0) := by
  have habove := h.above
  have hbelow := h.below
  obtain ⟨pre, post, rfl, hsearch⟩ := h.search (allocSize bytes)
  have hle := le_stop Chunk.len first.toNat pre
  cases post with
  | nil =>
    right
    simp only [List.append_nil] at h hbelow ⊢
    have hnext : next s.heap.mem (lastPtr head first.toNat pre) = 0 := hsearch.next
    cases granted with
    | false => exact .inr ⟨rfl, hsearch.passed, h.malloc_refused hsearch.passed⟩
    | true =>
      obtain ⟨m, limit, hgrow, hgrown⟩ := h.grown hb (hgrant rfl)
      have hserved := hgrown.serve hb rfl (fits_iff.mp (fresh_fits bytes hb)).2
      rw [List.append_nil] at hserved
      refine .inl ⟨rfl, _, limit, hsearch.passed, ?_, fun hhi hout => ?_, hserved⟩
      · simp only [Malloc.malloc, hsearch.cursor, Option.map_some, hnext, if_true, hgrow, ofNat_add_sizeofMemchunk]
      · obtain ⟨y, hy, hyb⟩ := lastPtr_spec head.toNat first.toNat pre
        rw [ofNat_toNat_head] at hy
        rw [hy, BitVec.toNat_ofNat, Nat.mod_eq_of_lt (by omega)] at hout
        rw [hy] at hgrow
        exact (same_grow h.knownLimit hgrow (by omega) (by omega) hhi hout).trans
          (hgrown.same_serve rfl (fits_iff.mp (fresh_fits bytes hb)).2 (by omega) (.inl hhi))
  | cons k post =>
    left
    have hin := stop_chunk_le first.toNat pre post k
    obtain ⟨hfree, hk⟩ := fits_iff.mp (hsearch.fits k rfl)
    have hnext : next s.heap.mem (lastPtr head first.toNat pre) = BitVec.ofNat 64 (stop Chunk.len first.toNat pre) :=
      hsearch.next
    have hne : BitVec.ofNat 64 (stop Chunk.len first.toNat pre) ≠ 0 := ofNat_ne_zero (by omega) (by omega)
    have hlimit : s.heap.limit = s.heap.brk := by
      rcases h.limit with ⟨-, hnil⟩ | hl
      · simp at hnil
      · exact hl
    have hknown : Models head first ⟨⟨s.heap.mem, s.heap.brk, s.heap.brk⟩, s.live⟩ (pre ++ k :: post) :=
      ⟨h.above, h.aligned, h.linked, h.brk, .inr rfl, h.below, h.live⟩
    have hserved := hknown.serve hb hfree hk
    have hsame := fun (lo hi : Nat) (hhi : hi ≤ 2 ^ 64) (hout : hi ≤ stop Chunk.len first.toNat pre ∨
      stop Chunk.len first.toNat pre + k.len ≤ lo) => hknown.same_serve hfree hk hhi hout
    generalize hm : markUsed (split s.heap.mem (BitVec.ofNat 64 (stop Chunk.len first.toNat pre)) (allocSize bytes))
      (BitVec.ofNat 64 (stop Chunk.len first.toNat pre)) = m at hserved hsame
    refine ⟨pre, post, k, m, rfl, hsearch.passed, hfree, hk, fun granted => ?_, fun hhi hout => hsame _ _ hhi hout, ?_⟩
    · simp only [Malloc.malloc, hsearch.cursor, Option.map_some, hnext, hne, if_false, hm, ofNat_add_sizeofMemchunk]
    · rw [hlimit]
      exact hserved

/-- `malloc` returns. It serves the request, unless the kernel was asked and refused. -/
theorem Models.malloc {head first bytes : BitVec 64} {s : State} {ks : List Chunk} {granted : Bool}
    (h : Models head first s ks) (ha : Admitted s (.malloc bytes granted)) :
    ∃ t, step head s (.malloc bytes granted) = some t ∧ (∃ ks', Models head first t ks') ∧
      (granted = true → ∃ p, t.live = (p, bytes) :: s.live) := by
  have hbelow := h.below
  have hptr : ∀ {a : Nat}, a < 2 ^ 47 → BitVec.ofNat 64 (a + 16) ≠ 0 := fun ha =>
    ofNat_ne_zero (by omega) (by omega)
  rcases h.malloc_cases ha.1 ha.2 with ⟨pre, post, k, m, hr⟩ | ⟨rfl, m, limit, hg⟩ | ⟨rfl, -, hm⟩
  · have hin := stop_chunk_le first.toNat pre post k
    rw [hr.row] at hbelow
    have hne := hptr (a := stop Chunk.len first.toNat pre) (by omega)
    simp only [step, hr.returns, Option.map_some, hne, if_false]
    exact ⟨_, rfl, ⟨_, hr.models⟩, fun _ => ⟨_, rfl⟩⟩
  · simp only [step, hg.returns, Option.map_some, hptr hbelow, if_false]
    exact ⟨_, rfl, ⟨_, hg.models⟩, fun _ => ⟨_, rfl⟩⟩
  · simp only [step, hm, Option.map_some, if_true]
    exact ⟨_, rfl, ⟨ks, h.above, h.aligned, h.linked, h.brk, .inr rfl, h.below, h.live⟩, nofun⟩

theorem mem_blocks {a : Nat} {ks : List Chunk} {b : BitVec 64 × BitVec 64} (h : b ∈ blocks a ks) :
    ∃ p ∈ laid Chunk.len a ks, p.2.request = some b.2 ∧ b.1 = BitVec.ofNat 64 (p.1 + 16) := by
  obtain ⟨p, hp, hb⟩ := List.mem_filterMap.mp h
  obtain ⟨r, hr, rfl⟩ := Option.map_eq_some_iff.mp hb
  exact ⟨p, hp, hr, rfl⟩

theorem toNat_ofNat_of_lt {a : Nat} (h : a < 2 ^ 48) : (BitVec.ofNat 64 a).toNat = a := by
  rw [BitVec.toNat_ofNat, Nat.mod_eq_of_lt (by omega)]

/-- Blocks lie at growing addresses. -/
theorem blocks_sorted {a : Nat} {ks : List Chunk} (h : stop Chunk.len a ks < 2 ^ 47) :
    (blocks a ks).Pairwise fun b c => b.1.toNat < c.1.toNat := by
  have hsorted := (laid_sorted Chunk.len_pos a ks).imp_of_mem (S := fun p q => p.1 < q.1 ∧ q.1 < 2 ^ 47) fun _ hq hlt => by
    have := laid_bounds hq
    exact ⟨hlt, by omega⟩
  refine hsorted.filterMap _ ?_
  rintro p q ⟨hlt, hq⟩ b hb c hc
  obtain ⟨r, -, rfl⟩ := Option.map_eq_some_iff.mp hb
  obtain ⟨r', -, rfl⟩ := Option.map_eq_some_iff.mp hc
  rw [toNat_ofNat_of_lt (by omega), toNat_ofNat_of_lt (by omega)]
  omega

/-- The chunk of a live block. -/
theorem Models.chunk_of_live {head first : BitVec 64} {s : State} {ks : List Chunk} {b : BitVec 64 × BitVec 64}
    (h : Models head first s ks) (hb : b ∈ s.live) :
    ∃ pre k post, ks = pre ++ k :: post ∧ k.request = some b.2 ∧
      b.1 = BitVec.ofNat 64 (stop Chunk.len first.toNat pre + 16) := by
  obtain ⟨p, hp, hr, he⟩ := mem_blocks (h.live.mem_iff.mp hb)
  obtain ⟨pre, post, hks, ha⟩ := exists_split hp
  exact ⟨pre, p.2, post, hks, hr, by rw [← ha]; exact he⟩

theorem Models.ne_zero_of_live {head first : BitVec 64} {s : State} {ks : List Chunk} {b : BitVec 64 × BitVec 64}
    (h : Models head first s ks) (hb : b ∈ s.live) : b.1 ≠ 0 := by
  have hbelow := h.below
  obtain ⟨pre, k, post, rfl, -, he⟩ := h.chunk_of_live hb
  have hle := stop_chunk_le first.toNat pre post k
  rw [he]
  exact ofNat_ne_zero (by omega) (by omega)

/-- The blocks of a row that lost one of them. -/
theorem blocks_erase {a : Nat} {pre post : List Chunk} {k : Chunk} {r : BitVec 64} (hr : k.request = some r)
    (hb : stop Chunk.len a (pre ++ k :: post) < 2 ^ 47) :
    (blocks a (pre ++ k :: post)).eraseP (fun b => b.1 = BitVec.ofNat 64 (stop Chunk.len a pre + 16)) =
      blocks a (pre ++ [k.release] ++ post) := by
  have hsorted := blocks_sorted hb
  have hcons : blocks (stop Chunk.len a pre) (k :: post) = (BitVec.ofNat 64 (stop Chunk.len a pre + 16), r) ::
      blocks (stop Chunk.len a pre + k.len) post := by
    simp [blocks, laid, block, hr]
  rw [blocks_append, hcons] at hsorted ⊢
  have hpre : ∀ b ∈ blocks a pre, ¬ decide (b.1 = BitVec.ofNat 64 (stop Chunk.len a pre + 16)) = true := by
    intro b hb he
    have hlt := (List.pairwise_append.mp hsorted).2.2 b hb _ (List.mem_cons_self ..)
    rw [of_decide_eq_true he] at hlt
    exact Nat.lt_irrefl _ hlt
  rw [List.eraseP_append_right _ hpre, List.eraseP_cons_of_pos (by simp), List.append_assoc, blocks_append,
    List.singleton_append, blocks_free (k := k.release) _ rfl]
  rfl

/-- `free` releases the chunk of the block, or does nothing. -/
theorem Models.free {head first ptr : BitVec 64} {s : State} {ks : List Chunk} (h : Models head first s ks)
    (ha : Admitted s (.free ptr)) :
    ∃ ks', Models head first ⟨free s.heap ptr, s.live.eraseP fun b => b.1 = ptr⟩ ks' := by
  have hbelow := h.below
  rcases ha with rfl | hlive
  · have hnone : ∀ b ∈ s.live, ¬ decide (b.1 = (0 : BitVec 64)) = true := fun b hb => by
      simpa using h.ne_zero_of_live hb
    rw [List.eraseP_of_forall_not hnone]
    exact ⟨ks, h⟩
  · obtain ⟨⟨_, r⟩, hb, rfl⟩ := List.mem_map.mp hlive
    have hne := h.ne_zero_of_live hb
    obtain ⟨pre, k, post, rfl, hr, he⟩ := h.chunk_of_live hb
    simp only at hne hr he ⊢
    have hchunk : BitVec.ofNat 64 (stop Chunk.len first.toNat pre + 16) - sizeofMemchunk =
        BitVec.ofNat 64 (stop Chunk.len first.toNat pre) := by
      rw [← ofNat_add_sizeofMemchunk, BitVec.add_sub_cancel]
    have hstop : stop Chunk.len first.toNat (pre ++ [k.release] ++ post) =
        stop Chunk.len first.toNat (pre ++ k :: post) := by
      simp only [stop_append, stop]
      rfl
    have hlinked := h.linked.release h.above hbelow
    have hperm : (s.live.eraseP fun b => b.1 = BitVec.ofNat 64 (stop Chunk.len first.toNat pre + 16)).Perm
        (blocks first.toNat (pre ++ [k.release] ++ post)) := by
      rw [← blocks_erase hr hbelow]
      refine (List.Perm.eraseP _ ?_ h.live.symm).symm
      refine (blocks_sorted hbelow).imp fun hlt hb hc => ?_
      rw [of_decide_eq_true hb, of_decide_eq_true hc] at hlt
      exact Nat.lt_irrefl _ hlt
    have hlimit : s.heap.limit = s.heap.brk := by
      rcases h.limit with ⟨-, hnil⟩ | hl
      · simp at hnil
      · exact hl
    subst he
    refine ⟨pre ++ [k.release] ++ post, h.above, h.aligned, ?_, ?_, .inr ?_, hstop.symm ▸ hbelow, hperm⟩
    · simpa only [Malloc.free, hne, if_false, hchunk] using hlinked
    · simpa only [Malloc.free, hne, if_false, hstop] using h.brk
    · simpa only [Malloc.free, hne, if_false] using hlimit

/-- A write in a block leaves every header alone. -/
theorem Models.write {head first ptr offset : BitVec 64} {byte : BitVec 8} {s : State} {ks : List Chunk}
    (h : Models head first s ks) (ha : Admitted s (.write ptr offset byte)) :
    Models head first { s with heap := { s.heap with
      mem := Function.update s.heap.mem (ptr + offset) byte } } ks := by
  have hbelow := h.below
  obtain ⟨b, hb, rfl, hoff⟩ := ha
  obtain ⟨pre, k, post, rfl, hr, he⟩ := h.chunk_of_live hb
  have hle := stop_chunk_le first.toNat pre post k
  have hlen : k.len = 16 + k.bytes := rfl
  have hholds := k.holds _ hr
  have haddr : b.1 + offset = BitVec.ofNat 64 (stop Chunk.len first.toNat pre + 16 + offset.toNat) := by
    rw [he, BitVec.ofNat_add _ offset.toNat, BitVec.ofNat_toNat, BitVec.setWidth_eq]
  have hlinked := h.linked.write h.above hbelow (w := stop Chunk.len first.toNat pre + 16 + offset.toNat)
    (by omega) (by omega) byte
  rw [List.append_assoc, List.singleton_append, ← haddr] at hlinked
  exact ⟨h.above, h.aligned, hlinked, h.brk, h.limit, hbelow, h.live⟩

end ThreadBites.Malloc

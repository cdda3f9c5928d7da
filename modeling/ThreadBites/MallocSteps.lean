import ThreadBites.MallocLayout

/-!
# What malloc and free do to a row of chunks

The search stops before the first unused chunk that is large enough. A chunk that
serves a request is cut in two if the rest is worth it; a grown heap has one more
chunk at its end, whose size comes from the pages and not from the request.
-/
namespace ThreadBites.Malloc

open ByteMemory Tiling

/-- Unused, and large enough. -/
def Chunk.fits (alloc : Nat) (k : Chunk) : Bool := k.request.isNone && decide (alloc ≤ k.bytes)

theorem suits_eq {m : Memory} {alloc : BitVec 64} {a : Nat} {k : Chunk}
    (hsize : size m (BitVec.ofNat 64 a) = k.word) (hk : k.bytes < 2 ^ 62) :
    suits m alloc (BitVec.ofNat 64 a) = k.fits alloc.toNat := by
  unfold suits Chunk.fits
  rw [hsize]
  cases hr : k.request with
  | some r =>
    have hu : k.word &&& MEMCHUNK_USED ≠ 0 := fun hz => by
      rw [Chunk.word_and_used hk, hr] at hz
      cases hz
    rw [decide_eq_false hu]
    rfl
  | none =>
    have hz := (Chunk.word_and_used hk).mpr hr
    have hw : k.word = BitVec.ofNat 64 k.bytes := by simp [Chunk.word, hr]
    have hle : (alloc ≤ k.word) = (alloc.toNat ≤ k.bytes) := by
      rw [hw, BitVec.le_def, BitVec.toNat_ofNat, Nat.mod_eq_of_lt (by omega)]
    simp [hz, hle]

theorem ofNat_ne_zero {a : Nat} (h : 0 < a) (hb : a < 2 ^ 64) : BitVec.ofNat 64 a ≠ 0 := by
  intro hz
  have hz := congrArg BitVec.toNat hz
  simp only [BitVec.toNat_ofNat, Nat.mod_eq_of_lt hb, BitVec.ofNat_eq_ofNat] at hz
  omega

/-- The search passes over the chunks that do not fit and stops before the first that does. -/
theorem findLoop_spec {m : Memory} {head : BitVec 64} {a : Nat} {ks : List Chunk} (alloc : BitVec 64)
    (h : Linked m head a ks 0) (ha : 0 < a) (hb : stop Chunk.len a ks < 2 ^ 62) {n : Nat}
    (hn : ks.length < n) :
    ∃ pre post, ks = pre ++ post ∧ findLoop m alloc n head = some (lastPtr head a pre) ∧
      (∀ k ∈ pre, k.fits alloc.toNat = false) ∧ ∀ k ∈ post.head?, k.fits alloc.toNat = true := by
  induction ks generalizing head a n with
  | nil =>
    obtain ⟨n, rfl⟩ : ∃ i, n = i + 1 := ⟨n - 1, by omega⟩
    have hz : next m head = 0 := h.first
    exact ⟨[], [], rfl, by simp [findLoop, hz, lastPtr], by simp, by simp⟩
  | cons k ks ih =>
    obtain ⟨n, rfl⟩ : ∃ i, n = i + 1 := ⟨n - 1, by omega⟩
    have hle := le_stop Chunk.len (a + k.len) ks
    have hlen : k.len = 16 + k.bytes := rfl
    simp only [stop] at hb
    have hfirst : next m head = BitVec.ofNat 64 a := h.first
    have hne : BitVec.ofNat 64 a ≠ 0 := ofNat_ne_zero ha (by omega)
    have hsuits : suits m alloc (BitVec.ofNat 64 a) = k.fits alloc.toNat := suits_eq h.headers.1 (by omega)
    by_cases hf : k.fits alloc.toNat = true
    · refine ⟨[], k :: ks, rfl, ?_, by simp, by simpa using hf⟩
      simp [findLoop, hfirst, hsuits, hf, lastPtr]
    · obtain ⟨pre, post, rfl, hfind, hpre, hpost⟩ :=
        ih h.tail (by omega) hb (by simpa using hn)
      refine ⟨k :: pre, post, rfl, ?_, ?_, hpost⟩
      · simp only [findLoop, hfirst, hne, hsuits, hf, false_or, lastPtr]
        exact hfind
      · intro k' hk'
        rcases List.mem_cons.mp hk' with rfl | hk'
        · simpa using hf
        · exact hpre k' hk'

/-- Rows are followed as before where their bytes, and the pointer to them, are the same. -/
theorem Linked.same {m m' : Memory} {x a : Nat} {ks : List Chunk} {e : BitVec 64}
    (h : Linked m (BitVec.ofNat 64 x) a ks e) (hs : Same m m' x (x + 8))
    (hs' : Same m m' a (stop Chunk.len a ks)) : Linked m' (BitVec.ofNat 64 x) a ks e :=
  ⟨by rw [next, hs.load64 (Nat.le_refl x) (Nat.le_refl (x + 8))]; exact h.first, h.headers.same hs'⟩

/-- The cursor is `head`, or a chunk of the row. -/
theorem lastPtr_spec (x a : Nat) (ks : List Chunk) :
    ∃ y, lastPtr (BitVec.ofNat 64 x) a ks = BitVec.ofNat 64 y ∧
      (y = x ∨ a ≤ y ∧ y + 16 ≤ stop Chunk.len a ks) := by
  induction ks generalizing x a with
  | nil => exact ⟨x, rfl, .inl rfl⟩
  | cons k ks ih =>
    have hle := le_stop Chunk.len (a + k.len) ks
    have hlen : k.len = 16 + k.bytes := rfl
    obtain ⟨y, he, hy⟩ := ih a (a + k.len)
    refine ⟨y, he, .inr ?_⟩
    simp only [stop]
    omega

/-- `cursor->next = e`, the cursor being after a row. -/
theorem Linked.setNext {m : Memory} {x a : Nat} {ks : List Chunk} {e : BitVec 64}
    (h : Linked m (BitVec.ofNat 64 x) a ks e) (hx : x + 16 ≤ a) (hb : stop Chunk.len a ks ≤ 2 ^ 64)
    (e' : BitVec 64) :
    Linked (setNext m (lastPtr (BitVec.ofNat 64 x) a ks) e') (BitVec.ofNat 64 x) a ks e' := by
  induction ks generalizing x a with
  | nil => exact ⟨load64_store64 m (BitVec.ofNat 64 x) e', trivial⟩
  | cons k ks ih =>
    have hle := le_stop Chunk.len (a + k.len) ks
    have hlen : k.len = 16 + k.bytes := rfl
    simp only [stop] at hb
    obtain ⟨y, he, hy⟩ := lastPtr_spec a (a + k.len) ks
    have htail := ih h.tail (by omega) hb
    simp only [lastPtr]
    rw [he] at htail ⊢
    refine ⟨?_, ?_, htail.first, htail.headers⟩
    · rw [next, Malloc.setNext, load64_store64_other m e' (by omega) (by omega) (by omega)]
      exact h.first
    · rw [size, ofNat_add_eight, Malloc.setNext, load64_store64_other m e' (by omega) (by omega) (by omega),
        ← ofNat_add_eight]
      exact h.headers.1

theorem fresh_bounds {bytes : BitVec 64} (hb : bytes.toNat < 2 ^ 47) :
    ((chunkSize bytes).toNat - 16) % 8 = 0 ∧ 16 ≤ (chunkSize bytes).toNat - 16 := by
  have := chunkSize_spec hb
  have := allocSize_spec hb
  omega

/-- The chunk that the heap grows by, whole pages less the header. -/
def fresh (bytes : BitVec 64) (hb : bytes.toNat < 2 ^ 47) : Chunk where
  bytes := (chunkSize bytes).toNat - 16
  request := none
  aligned := (fresh_bounds hb).1
  atLeast := (fresh_bounds hb).2
  holds := nofun

theorem fresh_len (bytes : BitVec 64) (hb : bytes.toNat < 2 ^ 47) :
    (fresh bytes hb).len = (chunkSize bytes).toNat := by
  have := chunkSize_spec hb
  have := allocSize_spec hb
  simp only [Chunk.len, fresh]
  omega

/-- The pages that a request asks for are enough for it. -/
theorem fresh_fits (bytes : BitVec 64) (hb : bytes.toNat < 2 ^ 47) :
    (fresh bytes hb).fits (allocSize bytes).toNat = true := by
  have := chunkSize_spec hb
  have hle : (allocSize bytes).toNat ≤ (fresh bytes hb).bytes := by
    simp only [fresh]
    omega
  exact decide_eq_true hle

/-- A heap that grows has one more chunk, which the old last one points to. -/
theorem grow_granted {h : Heap} {x a : Nat} {ks : List Chunk} {bytes : BitVec 64}
    (hl : Linked h.mem (BitVec.ofNat 64 x) a ks 0) (hx : x + 16 ≤ a) (hb : bytes.toNat < 2 ^ 47)
    (hlimit : knownLimit h = BitVec.ofNat 64 (stop Chunk.len a ks))
    (hend : stop Chunk.len a ks + (chunkSize bytes).toNat < 2 ^ 47) :
    ∃ m, grow h (lastPtr (BitVec.ofNat 64 x) a ks) bytes true =
        (⟨m, BitVec.ofNat 64 (stop Chunk.len a (ks ++ [fresh bytes hb])),
          BitVec.ofNat 64 (stop Chunk.len a (ks ++ [fresh bytes hb]))⟩,
          some (BitVec.ofNat 64 (stop Chunk.len a ks))) ∧
      Linked m (BitVec.ofNat 64 x) a (ks ++ [fresh bytes hb]) 0 := by
  have hle := le_stop Chunk.len a ks
  have hspec := chunkSize_spec hb
  have hspec' := allocSize_spec hb
  have hnew : stop Chunk.len a (ks ++ [fresh bytes hb]) = stop Chunk.len a ks + (chunkSize bytes).toNat := by
    simp only [stop_append, stop, fresh_len]
  generalize hL : stop Chunk.len a ks = L at *
  have hsum : BitVec.ofNat 64 L + chunkSize bytes = BitVec.ofNat 64 (L + (chunkSize bytes).toNat) := by
    rw [BitVec.ofNat_add, BitVec.ofNat_toNat, BitVec.setWidth_eq]
  have hne : BitVec.ofNat 64 L ≠ BitVec.ofNat 64 (L + (chunkSize bytes).toNat) := by
    intro he
    have he := congrArg BitVec.toNat he
    simp only [BitVec.toNat_ofNat] at he
    omega
  have hlinked := hl.setNext hx (by omega) (BitVec.ofNat 64 L)
  have hchunk := hlinked.next_lastPtr
  have hword : BitVec.ofNat 64 (L + (chunkSize bytes).toNat) - BitVec.ofNat 64 L - sizeofMemchunk =
      (fresh bytes hb).word := by
    apply BitVec.eq_of_toNat_eq
    have hs : sizeofMemchunk.toNat = 16 := rfl
    simp only [Chunk.word, fresh, BitVec.toNat_sub, BitVec.toNat_ofNat, hs, Option.isSome_none,
      Bool.false_eq_true, if_false]
    omega
  refine ⟨Malloc.setNext (setSize (Malloc.setNext h.mem (lastPtr (BitVec.ofNat 64 x) a ks) (BitVec.ofNat 64 L))
    (BitVec.ofNat 64 L) (fresh bytes hb).word) (BitVec.ofNat 64 L) 0, ?_, ?_⟩
  · simp only [grow, tbbrk, if_true, hlimit, hsum, hne, if_false, hnew, hchunk, hword]
  · generalize Malloc.setNext h.mem (lastPtr (BitVec.ofNat 64 x) a ks) (BitVec.ofNat 64 L) = m at *
    have hlow : Same m (Malloc.setNext (setSize m (BitVec.ofNat 64 L) (fresh bytes hb).word)
        (BitVec.ofNat 64 L) 0) 0 L := by
      simp only [Malloc.setNext, setSize, ofNat_add_eight]
      exact (same_store64 m _ (by omega) (by omega) (by omega)).trans
        (same_store64 _ _ (by omega) (by omega) (by omega))
    refine linked_append.mpr ⟨?_, ?_⟩
    · rw [hL]
      exact hlinked.same (hlow.mono (by omega) (by omega)) (hlow.mono (by omega) (by omega))
    · rw [hL]
      refine ⟨?_, load64_store64 _ _ _, trivial⟩
      simp only [size, Malloc.setNext, setSize, ofNat_add_eight]
      rw [load64_store64_other _ _ (by omega) (by omega) (by omega)]
      exact load64_store64 _ _ _

/-- Growing the heap writes to the cursor and at the end. -/
theorem same_grow {h h' : Heap} {x a lo hi : Nat} {bytes chunk : BitVec 64} {granted : Bool}
    (hlimit : knownLimit h = BitVec.ofNat 64 a)
    (hgrow : grow h (BitVec.ofNat 64 x) bytes granted = (h', some chunk)) (hx : x + 8 ≤ 2 ^ 64)
    (ha : a + 16 ≤ 2 ^ 64) (hhi : hi ≤ a) (hout : hi ≤ x ∨ x + 8 ≤ lo) : Same h.mem h'.mem lo hi := by
  simp only [grow, hlimit] at hgrow
  split at hgrow
  · cases hgrow
  · have hchunk : ∀ v, next (setNext h.mem (BitVec.ofNat 64 x) v) (BitVec.ofNat 64 x) = v :=
      fun v => load64_store64 _ _ v
    rw [hchunk] at hgrow
    cases hgrow
    simp only [setNext, setSize, ofNat_add_eight]
    exact ((same_store64 _ _ hx (by omega) hout).trans
      (same_store64 _ _ (by omega) (by omega) (by omega))).trans
      (same_store64 _ _ (by omega) (by omega) (by omega))

theorem grow_refused {h : Heap} {a : Nat} {ks : List Chunk} {cursor bytes : BitVec 64}
    (hlimit : knownLimit h = BitVec.ofNat 64 (stop Chunk.len a ks))
    (hbrk : h.brk = BitVec.ofNat 64 (stop Chunk.len a ks)) :
    grow h cursor bytes false = (⟨h.mem, h.brk, h.brk⟩, none) := by
  simp [grow, tbbrk, hlimit, hbrk]

/-- What becomes of a chunk that serves a request. -/
def Chunk.serve (k : Chunk) (bytes : BitVec 64) (hb : bytes.toNat < 2 ^ 47)
    (hk : (allocSize bytes).toNat ≤ k.bytes) : List Chunk :=
  if h : (allocSize bytes).toNat + 32 < k.bytes then
    [⟨(allocSize bytes).toNat, some bytes, (allocSize_spec hb).1, (allocSize_spec hb).2.1,
        fun _ hr => Option.some.inj hr ▸ (allocSize_spec hb).2.2.1⟩,
      ⟨k.bytes - (allocSize bytes).toNat - 16, none, by
        have := k.aligned
        have := allocSize_spec hb
        omega, by omega, nofun⟩]
  else [⟨k.bytes, some bytes, k.aligned, k.atLeast,
    fun _ hr => Option.some.inj hr ▸ Nat.le_trans (allocSize_spec hb).2.2.1 hk⟩]

theorem stop_serve (a : Nat) {k : Chunk} {bytes : BitVec 64} (hb : bytes.toNat < 2 ^ 47)
    (hk : (allocSize bytes).toNat ≤ k.bytes) : stop Chunk.len a (k.serve bytes hb hk) = a + k.len := by
  unfold Chunk.serve
  split
  · simp only [stop, Chunk.len]
    omega
  · rfl

/-- A chunk that is not worth cutting is left as it is. -/
theorem split_whole {m : Memory} {x bytes n : Nat} (hsize : size m (BitVec.ofNat 64 x) = BitVec.ofNat 64 bytes)
    (hb : bytes < 2 ^ 62) (hn : n ≤ bytes) (hw : ¬ n + 32 < bytes) :
    split m (BitVec.ofNat 64 x) (BitVec.ofNat 64 n) = m := by
  have hcond : ¬ BitVec.ofNat 64 n + sizeofMemchunk + 16 < BitVec.ofNat 64 bytes := by
    simp only [sizeofMemchunk]
    bv_omega
  simp only [split, hsize, hcond, if_false]

/-- The stores that cut a chunk in two. -/
theorem split_cut {m : Memory} {x bytes n : Nat} (hsize : size m (BitVec.ofNat 64 x) = BitVec.ofNat 64 bytes)
    (hx : x + 16 + bytes < 2 ^ 48) (hw : n + 32 < bytes) :
    split m (BitVec.ofNat 64 x) (BitVec.ofNat 64 n) =
      store64 (store64 (store64 (store64 m (BitVec.ofNat 64 (x + 16 + n + 8)) (BitVec.ofNat 64 (bytes - n - 16)))
        (BitVec.ofNat 64 (x + 16 + n)) (next m (BitVec.ofNat 64 x)))
        (BitVec.ofNat 64 x) (BitVec.ofNat 64 (x + 16 + n))) (BitVec.ofNat 64 (x + 8)) (BitVec.ofNat 64 n) := by
  have hcond : BitVec.ofNat 64 n + sizeofMemchunk + 16 < BitVec.ofNat 64 bytes := by
    simp only [sizeofMemchunk]
    bv_omega
  have hnew : BitVec.ofNat 64 x + sizeofMemchunk + BitVec.ofNat 64 n = BitVec.ofNat 64 (x + 16 + n) := by
    simp only [sizeofMemchunk]
    bv_omega
  have hrest : BitVec.ofNat 64 bytes - BitVec.ofNat 64 n - sizeofMemchunk = BitVec.ofNat 64 (bytes - n - 16) := by
    simp only [sizeofMemchunk]
    bv_omega
  simp only [split, hsize, hcond, if_true, hnew, hrest, setSize, setNext, next, ofNat_add_eight]
  rw [load64_store64_other _ _ (by omega) (by omega) (by omega)]

theorem markUsed_eq (m : Memory) (x : Nat) :
    markUsed m (BitVec.ofNat 64 x) =
      store64 m (BitVec.ofNat 64 (x + 8)) (load64 m (BitVec.ofNat 64 (x + 8)) ||| MEMCHUNK_USED) := by
  simp only [markUsed, setSize, size, ofNat_add_eight]

/-- `split` and the marking write nothing outside the chunk. -/
theorem same_serve {m : Memory} {x bytes n : Nat} (hsize : size m (BitVec.ofNat 64 x) = BitVec.ofNat 64 bytes)
    (hx : x + 16 + bytes < 2 ^ 48) (hn : n ≤ bytes) {lo hi : Nat} (hhi : hi ≤ 2 ^ 64)
    (hout : hi ≤ x ∨ x + 16 + bytes ≤ lo) :
    Same m (markUsed (split m (BitVec.ofNat 64 x) (BitVec.ofNat 64 n)) (BitVec.ofNat 64 x)) lo hi := by
  rw [markUsed_eq]
  by_cases hcut : n + 32 < bytes
  · rw [split_cut hsize hx hcut]
    exact ((((same_store64 m _ (by omega) hhi (by omega)).trans
      (same_store64 _ _ (by omega) hhi (by omega))).trans
      (same_store64 _ _ (by omega) hhi (by omega))).trans
      (same_store64 _ _ (by omega) hhi (by omega))).trans
      (same_store64 _ _ (by omega) hhi (by omega))
  · rw [split_whole hsize (by omega) hn hcut]
    exact same_store64 m _ (by omega) hhi (by omega)

/-- `split` and the marking write the headers of what becomes of the chunk. -/
theorem headers_serve {m : Memory} {e : BitVec 64} {x : Nat} {k : Chunk} {bytes : BitVec 64}
    (hsize : size m (BitVec.ofNat 64 x) = BitVec.ofNat 64 k.bytes) (hnext : next m (BitVec.ofNat 64 x) = e)
    (hx : x + 16 + k.bytes < 2 ^ 48) (hb : bytes.toNat < 2 ^ 47) (hk : (allocSize bytes).toNat ≤ k.bytes) :
    Headers (markUsed (split m (BitVec.ofNat 64 x) (BitVec.ofNat 64 (allocSize bytes).toNat)) (BitVec.ofNat 64 x))
      e x (k.serve bytes hb hk) := by
  unfold Chunk.serve
  split
  · rename_i hcut
    rw [split_cut hsize hx hcut, markUsed_eq, load64_store64, hnext]
    refine ⟨?_, ?_, ?_, ?_, trivial⟩
    · rw [size, ofNat_add_eight]
      exact load64_store64 _ _ _
    · rw [next, load64_store64_other _ _ (by omega) (by omega) (by omega),
        load64_store64_other _ _ (by omega) (by omega) (by omega), load64_store64]
      simp only [target, Chunk.len, Nat.add_assoc]
    · simp only [Chunk.len, ← Nat.add_assoc]
      rw [size, ofNat_add_eight, load64_store64_other _ _ (by omega) (by omega) (by omega),
        load64_store64_other _ _ (by omega) (by omega) (by omega),
        load64_store64_other _ _ (by omega) (by omega) (by omega),
        load64_store64_other _ _ (by omega) (by omega) (by omega), load64_store64]
      rfl
    · simp only [Chunk.len, ← Nat.add_assoc]
      rw [next, load64_store64_other _ _ (by omega) (by omega) (by omega),
        load64_store64_other _ _ (by omega) (by omega) (by omega),
        load64_store64_other _ _ (by omega) (by omega) (by omega), load64_store64]
      rfl
  · rename_i hcut
    have hload : load64 m (BitVec.ofNat 64 (x + 8)) = BitVec.ofNat 64 k.bytes := by
      rw [← ofNat_add_eight]
      exact hsize
    rw [split_whole hsize (by omega) hk hcut, markUsed_eq, hload]
    refine ⟨?_, ?_, trivial⟩
    · rw [size, ofNat_add_eight, load64_store64]
      rfl
    · rw [next, load64_store64_other _ _ (by omega) (by omega) (by omega)]
      exact hnext

/-- Chunks take the place of one in a row, if only the bytes of that one change. -/
theorem Linked.replace {m m' : Memory} {x a : Nat} {pre mid post : List Chunk} {k : Chunk} {e : BitVec 64}
    (h : Linked m (BitVec.ofNat 64 x) a (pre ++ k :: post) e) (hx : x + 16 ≤ a)
    (hend : stop Chunk.len a (pre ++ k :: post) < 2 ^ 47)
    (hsame : ∀ {lo hi : Nat}, hi ≤ 2 ^ 64 →
      hi ≤ stop Chunk.len a pre ∨ stop Chunk.len a pre + k.len ≤ lo → Same m m' lo hi)
    (hmid : Headers m' (target (stop Chunk.len a pre + k.len) e post) (stop Chunk.len a pre) mid)
    (hne : mid ≠ []) (hstop : stop Chunk.len (stop Chunk.len a pre) mid = stop Chunk.len a pre + k.len) :
    Linked m' (BitVec.ofNat 64 x) a (pre ++ mid ++ post) e := by
  obtain ⟨hpre, -, -, hpost⟩ := linked_append.mp h
  have hle := le_stop Chunk.len a pre
  rw [stop_append] at hend
  simp only [stop] at hend
  have hle' := le_stop Chunk.len (stop Chunk.len a pre + k.len) post
  have htarget : target (stop Chunk.len a pre) e (mid ++ post) = BitVec.ofNat 64 (stop Chunk.len a pre) := by
    cases mid with
    | nil => exact absurd rfl hne
    | cons => rfl
  rw [List.append_assoc, linked_append, headers_append, hstop, htarget]
  refine ⟨hpre.same (hsame (by omega) (by omega)) (hsame (by omega) (by omega)), hmid, ?_⟩
  exact hpost.same (hsame (by omega) (by omega))

/-- The header of a chunk of a row. -/
theorem Linked.header {m : Memory} {head e : BitVec 64} {a : Nat} {pre post : List Chunk} {k : Chunk}
    (h : Linked m head a (pre ++ k :: post) e) :
    size m (BitVec.ofNat 64 (stop Chunk.len a pre)) = k.word ∧
      next m (BitVec.ofNat 64 (stop Chunk.len a pre)) = target (stop Chunk.len a pre + k.len) e post := by
  obtain ⟨-, hsize, hnext, -⟩ := linked_append.mp h
  exact ⟨hsize, hnext⟩

/-- The end of a chunk of a row. -/
theorem stop_chunk_le (a : Nat) (pre post : List Chunk) (k : Chunk) :
    stop Chunk.len a pre + k.len ≤ stop Chunk.len a (pre ++ k :: post) := by
  rw [stop_append]
  exact le_stop Chunk.len (stop Chunk.len a pre + k.len) post

/-- A chunk of a row serves a request. -/
theorem Linked.serve {m : Memory} {x a : Nat} {pre post : List Chunk} {k : Chunk} {e bytes : BitVec 64}
    (h : Linked m (BitVec.ofNat 64 x) a (pre ++ k :: post) e) (hx : x + 16 ≤ a)
    (hend : stop Chunk.len a (pre ++ k :: post) < 2 ^ 47) (hb : bytes.toNat < 2 ^ 47)
    (hfree : k.request = none) (hk : (allocSize bytes).toNat ≤ k.bytes) :
    Linked (markUsed (split m (BitVec.ofNat 64 (stop Chunk.len a pre)) (allocSize bytes))
      (BitVec.ofNat 64 (stop Chunk.len a pre))) (BitVec.ofNat 64 x) a (pre ++ k.serve bytes hb hk ++ post) e := by
  obtain ⟨hsize, hnext⟩ := h.header
  have hle := stop_chunk_le a pre post k
  have hword : k.word = BitVec.ofNat 64 k.bytes := by simp [Chunk.word, hfree]
  have hlen : k.len = 16 + k.bytes := rfl
  have halloc : allocSize bytes = BitVec.ofNat 64 (allocSize bytes).toNat := by
    rw [BitVec.ofNat_toNat, BitVec.setWidth_eq]
  rw [hword] at hsize
  refine h.replace hx hend ?_ ?_ ?_ (stop_serve _ hb hk)
  · intro lo hi hhi hout
    rw [halloc]
    exact same_serve hsize (by omega) hk hhi (by omega)
  · rw [halloc]
    exact headers_serve hsize hnext (by omega) hb hk
  · unfold Chunk.serve
    split <;> simp

/-- A chunk of a row is released. -/
theorem Linked.release {m : Memory} {x a : Nat} {pre post : List Chunk} {k : Chunk} {e : BitVec 64}
    (h : Linked m (BitVec.ofNat 64 x) a (pre ++ k :: post) e) (hx : x + 16 ≤ a)
    (hend : stop Chunk.len a (pre ++ k :: post) < 2 ^ 47) :
    Linked (setSize m (BitVec.ofNat 64 (stop Chunk.len a pre))
      (size m (BitVec.ofNat 64 (stop Chunk.len a pre)) &&& ~~~MEMCHUNK_USED)) (BitVec.ofNat 64 x) a
      (pre ++ [k.release] ++ post) e := by
  obtain ⟨hsize, hnext⟩ := h.header
  have hle := stop_chunk_le a pre post k
  have hlen : k.len = 16 + k.bytes := rfl
  rw [hsize, Chunk.word_and_not_used (by omega), setSize, ofNat_add_eight]
  refine h.replace hx hend (fun hhi hout => same_store64 m _ (by omega) hhi (by omega)) ⟨?_, ?_, trivial⟩
    (by simp) rfl
  · rw [size, ofNat_add_eight, load64_store64]
    rfl
  · rw [next, load64_store64_other _ _ (by omega) (by omega) (by omega)]
    exact hnext

/-- A byte is written behind the header of a chunk of a row. -/
theorem Linked.write {m : Memory} {x a w : Nat} {pre post : List Chunk} {k : Chunk} {e : BitVec 64}
    (h : Linked m (BitVec.ofNat 64 x) a (pre ++ k :: post) e) (hx : x + 16 ≤ a)
    (hend : stop Chunk.len a (pre ++ k :: post) < 2 ^ 47) (hlo : stop Chunk.len a pre + 16 ≤ w)
    (hhi : w < stop Chunk.len a pre + k.len) (byte : BitVec 8) :
    Linked (Function.update m (BitVec.ofNat 64 w) byte) (BitVec.ofNat 64 x) a (pre ++ [k] ++ post) e := by
  obtain ⟨hsize, hnext⟩ := h.header
  have hle := stop_chunk_le a pre post k
  have hsame : Same m (Function.update m (BitVec.ofNat 64 w) byte) (stop Chunk.len a pre)
      (stop Chunk.len a pre + 16) := same_update m byte (by omega) (by omega) (by omega)
  refine h.replace hx hend (fun hhi' hout => same_update m byte (by omega) hhi' (by omega)) ⟨?_, ?_, trivial⟩
    (by simp) rfl
  · rw [size, ofNat_add_eight, hsame.load64 (by omega) (by omega), ← ofNat_add_eight]
    exact hsize
  · rw [next, hsame.load64 (Nat.le_refl _) (by omega)]
    exact hnext

end ThreadBites.Malloc

import ThreadBites.FirstFit

/-!
# malloc of any size

Near the top of the sizes the rounding, the pages, the new limit and the test for
a split wrap, each from another size on. What wraps may still end in a refusal.
-/
namespace ThreadBites.Malloc

open ByteMemory Tiling

/-- `brk` accepts the addresses from the start of the heap to a maximum. -/
def accepts (first top addr : BitVec 64) : Bool := first ≤ addr && addr ≤ top

/-- A block that holds the request is handed out. -/
structure Gives (head first : BitVec 64) (h : Heap) (l : List (BitVec 64)) (bytes : BitVec 64) (r : Heap × BitVec 64)
    (l' : List (BitVec 64)) : Prop where
  pointer : r.2 ≠ 0
  wellFormed : WellFormed head first r.1 l'
  inside : r.2 - sizeofMemchunk ∈ l'
  used : used r.1.mem (r.2 - sizeofMemchunk) = true
  holds : bytes.toNat ≤ payload r.1.mem (r.2 - sizeofMemchunk)
  brk : h.brk.toNat ≤ r.1.brk.toNat
  kept : ∀ q ∈ l, q ≠ r.2 - sizeofMemchunk → q ∈ l' ∧ Kept h.mem r.1.mem q

/-- `malloc` returns 0 and leaves everything as it is, or hands out a block. -/
def Right (head first top : BitVec 64) (h : Heap) (l : List (BitVec 64)) (bytes : BitVec 64) : Prop :=
  ∃ r, malloc head h bytes (accepts first top (knownLimit h + chunkSize bytes)) = some r ∧
    (Refuses head first h l r ∨ ∃ l', Gives head first h l bytes r l')

/-- No size that wraps gets through: the limit is not lowered, and for the last sizes there is no page to be had and,
where they are rounded up to 16, no unused chunk. -/
def Guarded (first top : BitVec 64) (h : Heap) (l : List (BitVec 64)) (bytes : BitVec 64) : Prop :=
  if bytes.toNat + 16 ≤ 2 ^ 64 then
    ¬ (first.toNat ≤ (h.brk.toNat + pages bytes.toNat) % 2 ^ 64 ∧ (h.brk.toNat + pages bytes.toNat) % 2 ^ 64 < h.brk.toNat)
  else top.toNat < h.brk.toNat + 4096 ∧ (2 ^ 64 - 8 < bytes.toNat → ∀ q ∈ l, used h.mem q = true)

theorem grow_null {h : Heap} {cursor bytes : BitVec 64} {granted : Bool} (hlimit : knownLimit h = h.brk)
    (hnull : granted = false ∨ chunkSize bytes = 0) : grow h cursor bytes granted = (⟨h.mem, h.brk, h.brk⟩, none) := by
  rcases hnull with rfl | hz
  · simp [grow, tbbrk, hlimit]
  · cases granted <;> simp [grow, tbbrk, hlimit, hz]

theorem grow_some {h : Heap} {cursor bytes : BitVec 64} (hlimit : knownLimit h = h.brk) (hne : chunkSize bytes ≠ 0) :
    ∃ m, grow h cursor bytes true = (⟨m, h.brk + chunkSize bytes, h.brk + chunkSize bytes⟩, some h.brk) := by
  have hmoved : ¬ h.brk = h.brk + chunkSize bytes := fun he => hne (by bv_omega)
  have hchunk : next (setNext h.mem cursor h.brk) cursor = h.brk := load64_store64 _ _ _
  simp only [grow, tbbrk, if_true, hlimit, hmoved, if_false, hchunk]
  exact ⟨_, rfl⟩

theorem Models.knownLimit_brk {head first : BitVec 64} {s : State} {ks : List Chunk} (h : Models head first s ks) :
    Malloc.knownLimit s.heap = s.heap.brk := h.knownLimit.trans h.brk.symm

/-- If no chunk fits and the limit moves, the chunk is written where the limit was. -/
theorem Models.malloc_unfit {head first bytes : BitVec 64} {s : State} {ks : List Chunk} (h : Models head first s ks)
    (hno : ∀ k ∈ ks, k.fits (allocSize bytes).toNat = false) (hne : chunkSize bytes ≠ 0) :
    ∃ m, Malloc.malloc head s.heap bytes true = some (⟨markUsed (split m s.heap.brk (allocSize bytes)) s.heap.brk,
        s.heap.brk + chunkSize bytes, s.heap.brk + chunkSize bytes⟩, s.heap.brk + sizeofMemchunk) ∧
      ∀ {lo hi : Nat}, hi ≤ stop Chunk.len first.toNat ks →
        hi ≤ (lastPtr head first.toNat ks).toNat ∨ (lastPtr head first.toNat ks).toNat + 8 ≤ lo → Same s.heap.mem m lo hi := by
  have habove := h.above
  have hbelow := h.below
  obtain ⟨pre, post, rfl, hsearch⟩ := h.search (allocSize bytes)
  cases post with
  | nil =>
    rw [List.append_nil] at h hbelow ⊢
    have hnext : next s.heap.mem (lastPtr head first.toNat pre) = 0 := hsearch.next
    obtain ⟨m, hgrow⟩ : ∃ m, grow s.heap (lastPtr head first.toNat pre) bytes true =
      (⟨m, s.heap.brk + chunkSize bytes, s.heap.brk + chunkSize bytes⟩, some s.heap.brk) := grow_some h.knownLimit_brk hne
    refine ⟨m, ?_, fun hhi hout => ?_⟩
    · simp only [Malloc.malloc, hsearch.cursor, Option.map_some, hnext, if_true, hgrow]
    · obtain ⟨y, hy, hyb⟩ := lastPtr_spec head.toNat first.toNat pre
      have hle := le_stop Chunk.len first.toNat pre
      rw [ofNat_toNat_head] at hy
      rw [hy, BitVec.toNat_ofNat, Nat.mod_eq_of_lt (by omega)] at hout
      rw [hy] at hgrow
      exact same_grow h.knownLimit hgrow (by omega) (by omega) hhi hout
  | cons k post =>
    have hfits := hsearch.fits k rfl
    rw [hno k (by simp)] at hfits
    cases hfits

/-- Whatever the size, `malloc` returns 0 if and only if no chunk fits and the limit stays where it is. -/
theorem Models.malloc_null {head first : BitVec 64} {s : State} {ks : List Chunk} (h : Models head first s ks)
    (bytes : BitVec 64) (granted : Bool) :
    ∃ r, Malloc.malloc head s.heap bytes granted = some r ∧
      (r.2 = 0 ↔ (∀ k ∈ ks, k.fits (allocSize bytes).toNat = false) ∧ (granted = false ∨ chunkSize bytes = 0)) ∧
      (r.2 = 0 → r.1 = ⟨s.heap.mem, s.heap.brk, s.heap.brk⟩) := by
  have habove := h.above
  have hbelow := h.below
  have hknown := h.knownLimit_brk
  obtain ⟨pre, post, rfl, hsearch⟩ := h.search (allocSize bytes)
  have hle := le_stop Chunk.len first.toNat pre
  cases post with
  | nil =>
    rw [List.append_nil] at h hbelow ⊢
    have hnext : next s.heap.mem (lastPtr head first.toNat pre) = 0 := hsearch.next
    by_cases hnull : granted = false ∨ chunkSize bytes = 0
    · refine ⟨(⟨s.heap.mem, s.heap.brk, s.heap.brk⟩, 0), ?_, ⟨fun _ => ⟨hsearch.passed, hnull⟩, fun _ => rfl⟩, fun _ => rfl⟩
      simp only [Malloc.malloc, hsearch.cursor, Option.map_some, hnext, if_true, grow_null hknown hnull]
    · rw [not_or, Bool.not_eq_false] at hnull
      obtain ⟨rfl, hne⟩ := hnull
      obtain ⟨m, hr, -⟩ := h.malloc_unfit hsearch.passed hne
      have hptr : s.heap.brk + sizeofMemchunk ≠ 0 := by
        rw [h.brk, ofNat_add_sizeofMemchunk]
        exact ofNat_ne_zero (by omega) (by omega)
      exact ⟨_, hr, ⟨fun hz => absurd hz hptr, fun hno => absurd hno.2 (by simpa using hne)⟩, fun hz => absurd hz hptr⟩
  | cons k post =>
    have hin := stop_chunk_le first.toNat pre post k
    have hfits := hsearch.fits k rfl
    have hnext : next s.heap.mem (lastPtr head first.toNat pre) = BitVec.ofNat 64 (stop Chunk.len first.toNat pre) :=
      hsearch.next
    have hne : BitVec.ofNat 64 (stop Chunk.len first.toNat pre) ≠ 0 := ofNat_ne_zero (by omega) (by omega)
    have hptr : BitVec.ofNat 64 (stop Chunk.len first.toNat pre) + sizeofMemchunk ≠ 0 := by
      rw [ofNat_add_sizeofMemchunk]
      exact ofNat_ne_zero (by omega) (by omega)
    obtain ⟨r, hr, hp⟩ : ∃ r, Malloc.malloc head s.heap bytes granted = some r ∧
        r.2 = BitVec.ofNat 64 (stop Chunk.len first.toNat pre) + sizeofMemchunk := by
      simp only [Malloc.malloc, hsearch.cursor, Option.map_some, hnext, hne, if_false]
      exact ⟨_, rfl, rfl⟩
    rw [← hp] at hptr
    refine ⟨r, hr, ⟨fun hz => absurd hz hptr, fun hno => ?_⟩, fun hz => absurd hz hptr⟩
    rw [hno.1 k (by simp)] at hfits
    cases hfits

theorem WellFormed.malloc_null {head first : BitVec 64} {h : Heap} {l : List (BitVec 64)} (hw : WellFormed head first h l)
    (bytes : BitVec 64) (granted : Bool) :
    ∃ r, malloc head h bytes granted = some r ∧ (r.2 = 0 → Refuses head first h l r) ∧
      (r.2 = 0 ↔ (∀ q ∈ l, ¬ Fits h.mem (allocSize bytes).toNat q) ∧ (granted = false ∨ chunkSize bytes = 0)) := by
  obtain ⟨ks, hm, rfl, -⟩ := hw.row
  obtain ⟨⟨h', p⟩, hr, hnull, hsame⟩ := hm.malloc_null bytes granted
  rw [← hm.unfit_iff] at hnull
  refine ⟨_, hr, fun hz => ?_, hnull⟩
  obtain rfl : h' = _ := hsame hz
  obtain rfl : p = 0 := hz
  exact hm.refuses

theorem WellFormed.knownLimit {head first : BitVec 64} {h : Heap} {l : List (BitVec 64)}
    (hw : WellFormed head first h l) : knownLimit h = h.brk := by
  obtain ⟨ks, hm, -, -⟩ := hw.row
  exact hm.knownLimit_brk

/-- The break after a chunk was appended. -/
theorem WellFormed.brk_moved {head first bytes : BitVec 64} {h : Heap} {l : List (BitVec 64)} {r : Heap × BitVec 64}
    (hw : WellFormed head first h l) (hno : ∀ q ∈ l, ¬ Fits h.mem (allocSize bytes).toNat q) (hne : chunkSize bytes ≠ 0)
    (hr : malloc head h bytes true = some r) : r.1.brk = h.brk + chunkSize bytes := by
  obtain ⟨ks, hm, rfl, -⟩ := hw.row
  obtain ⟨m, hr', -⟩ := hm.malloc_unfit ((hm.unfit_iff _).mp hno) hne
  obtain rfl := Option.some.inj (hr'.symm.trans hr)
  rfl

theorem WellFormed.first_le {head first : BitVec 64} {h : Heap} {l : List (BitVec 64)}
    (hw : WellFormed head first h l) : first.toNat ≤ h.brk.toNat := by
  obtain ⟨ks, hm, -, -⟩ := hw.row
  have hbelow := hm.below
  have hbrk : h.brk = _ := hm.brk
  rw [hbrk, toNat_ofNat_of_lt (by omega)]
  exact le_stop Chunk.len first.toNat ks

theorem Serves.holds {m : Memory} {p : BitVec 64} {total need : Nat} {rest : List (BitVec 64)}
    (h : Serves m p total need rest) (ht : need ≤ total) : need ≤ payload m p := by
  rcases h.rest with ⟨-, -, he⟩ | ⟨q, -, -, he, -⟩
  · omega
  · omega

theorem le_rounded (n : Nat) : n ≤ rounded n := by
  unfold rounded
  omega

theorem Reuses.chunk {head first bytes p : BitVec 64} {h : Heap} {l pre post rest : List (BitVec 64)}
    {r : Heap × BitVec 64} (hr : Reuses head first h l bytes pre p post rest r) : r.2 - sizeofMemchunk = p := by
  rw [hr.pointer.1, BitVec.add_sub_cancel]

theorem Reuses.mem_other {head first bytes p q : BitVec 64} {h : Heap} {l pre post rest : List (BitVec 64)}
    {r : Heap × BitVec 64} (hr : Reuses head first h l bytes pre p post rest r) (hq : q ∈ l) (hne : q ≠ p) :
    q ∈ pre ++ post := by
  rw [hr.row] at hq
  rcases List.mem_append.mp hq with hpre | hpost
  · exact List.mem_append_left _ hpre
  · exact List.mem_append_right _ (List.mem_of_ne_of_mem hne hpost)

theorem Reuses.gives {head first bytes p : BitVec 64} {h : Heap} {l pre post rest : List (BitVec 64)}
    {r : Heap × BitVec 64} (hr : Reuses head first h l bytes pre p post rest r) :
    Gives head first h l bytes r (pre ++ p :: rest ++ post) where
  pointer := hr.pointer.2
  wellFormed := hr.wellFormed
  inside := by simp [hr.chunk]
  used := by
    rw [hr.chunk]
    exact hr.serves.used
  holds := by
    rw [hr.chunk]
    exact Nat.le_trans (le_rounded _) (hr.serves.holds hr.fits.2)
  brk := by rw [hr.limits.2]
  kept := by
    intro q hq hne
    rw [hr.chunk] at hne
    have hother := hr.mem_other hq hne
    refine ⟨?_, hr.kept q hother⟩
    rcases List.mem_append.mp hother with hpre | hpost
    · simp [hpre]
    · simp [hpost]

theorem Appends.gives {head first bytes : BitVec 64} {h : Heap} {l rest : List (BitVec 64)} {r : Heap × BitVec 64}
    (hw : WellFormed head first h l) (hr : Appends head first h l bytes rest r) :
    Gives head first h l bytes r (l ++ Malloc.knownLimit h :: rest) := by
  have hchunk : r.2 - sizeofMemchunk = Malloc.knownLimit h := by rw [hr.pointer.1, BitVec.add_sub_cancel]
  have hroom : rounded bytes.toNat ≤ pages bytes.toNat - 16 := by
    unfold rounded pages
    omega
  constructor
  case pointer => exact hr.pointer.2
  case wellFormed => exact hr.wellFormed
  case inside => simp [hchunk]
  case used =>
    rw [hchunk]
    exact hr.serves.used
  case holds =>
    rw [hchunk]
    exact Nat.le_trans (le_rounded _) (hr.serves.holds hroom)
  case brk =>
    rw [hr.limits.2, hw.knownLimit]
    exact Nat.le_add_right _ _
  case kept => exact fun q hq _ => ⟨List.mem_append_left _ hq, hr.kept q hq⟩

/-- What is handed out lies below the limit, so a request that does not is not served. -/
theorem Gives.bytes_lt {head first bytes : BitVec 64} {h : Heap} {l l' : List (BitVec 64)} {r : Heap × BitVec 64}
    (hg : Gives head first h l bytes r l') : bytes.toNat < 2 ^ 47 := by
  have hbelow := hg.wellFormed.below
  have hin := (hg.wellFormed.mem_bounds hg.inside).2
  have hholds := hg.holds
  omega

/-- Serving a request writes nothing below the chunk if the rest of it does not begin below. -/
theorem same_split {m : Memory} {a b lo hi : Nat} {alloc : BitVec 64}
    (hrest : BitVec.ofNat 64 a + sizeofMemchunk + alloc = BitVec.ofNat 64 b) (hab : a ≤ b) (hb : b + 16 ≤ 2 ^ 64)
    (hhi : hi ≤ a) : Same m (markUsed (split m (BitVec.ofNat 64 a) alloc) (BitVec.ofNat 64 a)) lo hi := by
  have hsplit : Same m (split m (BitVec.ofNat 64 a) alloc) lo hi := by
    unfold split
    split
    · simp only [hrest, setSize, setNext, ofNat_add_eight]
      exact (((same_store64 m _ (by omega) (by omega) (by omega)).trans
        (same_store64 _ _ (by omega) (by omega) (by omega))).trans
        (same_store64 _ _ (by omega) (by omega) (by omega))).trans
        (same_store64 _ _ (by omega) (by omega) (by omega))
    · exact Same.refl _ _ _
  rw [markUsed_eq]
  exact hsplit.trans (same_store64 _ _ (by omega) (by omega) (by omega))

/-- The limit that a request asks for, where nothing wraps. -/
theorem WellFormed.target_toNat {head first bytes : BitVec 64} {h : Heap} {l : List (BitVec 64)}
    (hw : WellFormed head first h l) (hb : bytes.toNat < 2 ^ 47) :
    (Malloc.knownLimit h + chunkSize bytes).toNat = (Malloc.knownLimit h).toNat + pages bytes.toNat := by
  have hbelow := hw.below
  have hpages : (chunkSize bytes).toNat = pages bytes.toNat := by
    rw [chunkSize_toNat (by omega), Nat.mod_eq_of_lt (by unfold pages; omega)]
  rw [BitVec.toNat_add, hpages, hw.knownLimit, Nat.mod_eq_of_lt (by unfold pages; omega)]

theorem WellFormed.refuses_or_gives {head first bytes : BitVec 64} {h : Heap} {l : List (BitVec 64)} {granted : Bool}
    (hw : WellFormed head first h l) (hb : bytes.toNat < 2 ^ 47)
    (hgrant : granted = true → (Malloc.knownLimit h + chunkSize bytes).toNat < 2 ^ 47) :
    ∃ r, malloc head h bytes granted = some r ∧
      (Refuses head first h l r ∨ ∃ l', Gives head first h l bytes r l') := by
  rw [hw.target_toNat hb] at hgrant
  obtain ⟨r, hr, ho⟩ := hw.outcome hb hgrant
  refine ⟨r, hr, ?_⟩
  by_cases hfits : ∃ q ∈ l, Fits h.mem (rounded bytes.toNat) q
  · obtain ⟨pre, p, post, rest, hreuses⟩ := ho.reuses hfits
    exact .inr ⟨_, hreuses.gives⟩
  · have hno : ∀ q ∈ l, ¬ Fits h.mem (rounded bytes.toNat) q := fun q hq hf => hfits ⟨q, hq, hf⟩
    cases granted with
    | true =>
      obtain ⟨rest, happends⟩ := ho.appends hno rfl
      exact .inr ⟨_, happends.gives hw⟩
    | false => exact .inl (ho.refuses hno rfl)

theorem WellFormed.right_small {head first top bytes : BitVec 64} {h : Heap} {l : List (BitVec 64)}
    (hw : WellFormed head first h l) (htop : top.toNat < 2 ^ 47) (hb : bytes.toNat < 2 ^ 47) :
    Right head first top h l bytes := by
  refine hw.refuses_or_gives hb fun hg => ?_
  simp only [accepts, Bool.and_eq_true, decide_eq_true_eq, BitVec.le_def] at hg
  omega

/-- A request that no address space holds is right to be refused, and only that. -/
theorem WellFormed.right_large {head first top bytes : BitVec 64} {h : Heap} {l : List (BitVec 64)}
    (hw : WellFormed head first h l) (hb : 2 ^ 47 ≤ bytes.toNat) :
    Right head first top h l bytes ↔ (∀ q ∈ l, ¬ Fits h.mem (allocSize bytes).toNat q) ∧
      (accepts first top (h.brk + chunkSize bytes) = false ∨ chunkSize bytes = 0) := by
  obtain ⟨r, hr, hrefuses, hnull⟩ := hw.malloc_null bytes (accepts first top (h.brk + chunkSize bytes))
  rw [← hnull, Right, hw.knownLimit]
  constructor
  · rintro ⟨r', hr', href | ⟨l', hg⟩⟩
    · obtain rfl := Option.some.inj (hr.symm.trans hr')
      exact href.pointer
    · exact absurd hg.bytes_lt (by omega)
  · exact fun hz => ⟨r, hr, .inl (hrefuses hz)⟩

theorem accepts_eq_false {first top addr : BitVec 64} :
    accepts first top addr = false ↔ ¬ (first.toNat ≤ addr.toNat ∧ addr.toNat ≤ top.toNat) := by
  simp only [accepts, Bool.and_eq_false_iff, decide_eq_false_iff_not, BitVec.le_def]
  omega

/-- Every unused chunk has the 16 bytes that the last sizes are rounded up to. -/
theorem WellFormed.unfit_sixteen {head first : BitVec 64} {h : Heap} {l : List (BitVec 64)}
    (hw : WellFormed head first h l) : (∀ q ∈ l, ¬ Fits h.mem 16 q) ↔ ∀ q ∈ l, used h.mem q = true := by
  refine forall₂_congr fun q hq => ?_
  have hsize := (hw.sizes q hq).2
  simp [Fits, hsize]

/-- `malloc` is right for exactly the sizes that are guarded. -/
theorem malloc_sizes {head first top bytes : BitVec 64} {h : Heap} {l : List (BitVec 64)}
    (hw : WellFormed head first h l) (htop : top.toNat < 2 ^ 47) (hbrk : h.brk.toNat ≤ top.toNat) :
    Right head first top h l bytes ↔ Guarded first top h l bytes := by
  have hbelow := hw.below
  have hlt := bytes.isLt
  by_cases hb : bytes.toNat < 2 ^ 47
  · refine ⟨fun _ => ?_, fun _ => hw.right_small htop hb⟩
    rw [Guarded, if_pos (by omega), Nat.mod_eq_of_lt (by unfold pages; omega)]
    omega
  · rw [hw.right_large (by omega), accepts_eq_false, BitVec.toNat_add]
    unfold Guarded
    split
    · have hno : ∀ q ∈ l, ¬ Fits h.mem (allocSize bytes).toNat q := by
        rw [allocSize_toNat (by omega)]
        exact hw.unfit_of_large (by unfold rounded; omega)
      have hsize : (chunkSize bytes).toNat = pages bytes.toNat % 2 ^ 64 := chunkSize_toNat (by omega)
      have hzero : chunkSize bytes = 0 ↔ (chunkSize bytes).toNat = 0 := by
        rw [← BitVec.toNat_inj]
        rfl
      have hpages : 2 ^ 47 < pages bytes.toNat ∧ pages bytes.toNat ≤ 2 ^ 64 := by
        unfold pages
        omega
      rw [hzero, hsize]
      generalize pages bytes.toNat = n at hpages
      constructor
      · rintro ⟨-, hr⟩
        omega
      · exact fun hr => ⟨hno, by omega⟩
    · have hsize : chunkSize bytes = 4096 := chunkSize_wraps (by omega)
      have hpage : (4096 : BitVec 64).toNat = 4096 := rfl
      have hne : ¬ (4096 : BitVec 64) = 0 := by decide
      have hle := hw.first_le
      have hrefused : ¬ (first.toNat ≤ (h.brk.toNat + 4096) % 2 ^ 64 ∧ (h.brk.toNat + 4096) % 2 ^ 64 ≤ top.toNat) ↔
          top.toNat < h.brk.toNat + 4096 := by omega
      rw [hsize, hpage, or_iff_left hne, hrefused, and_comm]
      refine and_congr_right fun _ => ?_
      by_cases hw16 : 2 ^ 64 - 8 < bytes.toNat
      · rw [allocSize_wraps hw16, imp_iff_right hw16]
        exact hw.unfit_sixteen
      · refine iff_of_true ?_ fun h => absurd h hw16
        rw [allocSize_toNat (by omega)]
        exact hw.unfit_of_large (by unfold rounded; omega)

theorem blank_wellFormed : WellFormed 16 4096 blank.heap [] := blank_initial.models.wellFormed

/-- The kernel has no page left for `malloc(2^64 - 1)`, which is refused. -/
theorem malloc_sizes_refused : Right 16 4096 4096 blank.heap [] (-1) := by
  refine (malloc_sizes blank_wellFormed (by decide) (by decide)).mpr ?_
  rw [Guarded, if_neg (by decide)]
  exact ⟨by decide, fun _ => by simp⟩

/-- `malloc(2^64 - 1)` on a heap with nothing in it is given a page and returns a block of 16 bytes. -/
theorem malloc_sizes_wrapped : WellFormed 16 4096 blank.heap [] ∧ ¬ Right 16 4096 8192 blank.heap [] (-1) := by
  refine ⟨blank_wellFormed, fun hr => ?_⟩
  obtain ⟨-, hrefused | hzero⟩ := (blank_wellFormed.right_large (by decide)).mp hr
  · exact absurd hrefused (by decide)
  · exact absurd hzero (by decide)

end ThreadBites.Malloc

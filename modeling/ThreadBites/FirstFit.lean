import ThreadBites.WellFormedHeaps

/-!
# First fit

A request is served by the lowest unused chunk that holds it, without a call of
`brk`. Only if there is none is the kernel asked, for one more chunk at the end.
-/
namespace ThreadBites.Malloc

open ByteMemory Tiling

/-- The addresses that `malloc` calls `tbbrk` with. -/
def brkCalls (head : BitVec 64) (h : Heap) (bytes : BitVec 64) : Option (List (BitVec 64)) :=
  (findLoop h.mem (allocSize bytes) fuel head).map fun cursor =>
    if next h.mem cursor = 0 then (if h.limit = 0 then [0] else []) ++ [knownLimit h + chunkSize bytes] else []

/-- The chunk `p` serves the request, and the kernel is not asked. -/
structure Reuses (head first : BitVec 64) (h : Heap) (l : List (BitVec 64)) (bytes : BitVec 64)
    (pre : List (BitVec 64)) (p : BitVec 64) (post rest : List (BitVec 64)) (r : Heap × BitVec 64) : Prop where
  row : l = pre ++ p :: post
  fits : Fits h.mem (rounded bytes.toNat) p
  lowest : ∀ q ∈ l, Fits h.mem (rounded bytes.toNat) q → p.toNat ≤ q.toNat
  calls : brkCalls head h bytes = some []
  returns : ∀ granted, malloc head h bytes granted = some r
  pointer : r.2 = p + sizeofMemchunk ∧ r.2 ≠ 0
  limits : r.1.limit = h.limit ∧ r.1.brk = h.brk
  wellFormed : WellFormed head first r.1 (pre ++ p :: rest ++ post)
  serves : Serves r.1.mem p (payload h.mem p) (rounded bytes.toNat) rest
  kept : ∀ q ∈ pre ++ post, Kept h.mem r.1.mem q

/-- A chunk at the old limit serves the request. -/
structure Appends (head first : BitVec 64) (h : Heap) (l : List (BitVec 64)) (bytes : BitVec 64)
    (rest : List (BitVec 64)) (r : Heap × BitVec 64) : Prop where
  calls : brkCalls head h bytes = some ((if h.limit = 0 then [0] else []) ++ [knownLimit h + chunkSize bytes])
  returns : malloc head h bytes true = some r
  pointer : r.2 = knownLimit h + sizeofMemchunk ∧ r.2 ≠ 0
  limits : r.1.limit = r.1.brk ∧ r.1.brk.toNat = (knownLimit h).toNat + pages bytes.toNat
  wellFormed : WellFormed head first r.1 (l ++ knownLimit h :: rest)
  serves : Serves r.1.mem (knownLimit h) (pages bytes.toNat - 16) (rounded bytes.toNat) rest
  kept : ∀ q ∈ l, Kept h.mem r.1.mem q

/-- The kernel refused: the chunks and the break are as before. -/
structure Refuses (head first : BitVec 64) (h : Heap) (l : List (BitVec 64)) (r : Heap × BitVec 64) : Prop where
  pointer : r.2 = 0
  mem : r.1.mem = h.mem
  limits : knownLimit r.1 = knownLimit h ∧ r.1.brk = h.brk
  wellFormed : WellFormed head first r.1 l

/-- If a chunk fits, `brk` is not called. -/
theorem Models.brkCalls_fits {head first bytes : BitVec 64} {s : State} {ks : List Chunk} (h : Models head first s ks)
    {k : Chunk} (hk : k ∈ ks) (hfits : k.fits (allocSize bytes).toNat = true) : brkCalls head s.heap bytes = some [] := by
  have habove := h.above
  have hbelow := h.below
  obtain ⟨pre, post, rfl, hsearch⟩ := h.search (allocSize bytes)
  have hle := le_stop Chunk.len first.toNat pre
  cases post with
  | nil =>
    rw [List.append_nil] at hk
    rw [hsearch.passed k hk] at hfits
    cases hfits
  | cons k' post =>
    have hin := stop_chunk_le first.toNat pre post k'
    have hne : next s.heap.mem (lastPtr head first.toNat pre) ≠ 0 := by
      rw [hsearch.next]
      exact ofNat_ne_zero (by omega) (by omega)
    rw [brkCalls, hsearch.cursor, Option.map_some, if_neg hne]

/-- If no chunk fits, `brk` is called for the pages, after the first limit was found out. -/
theorem Models.brkCalls_unfit {head first bytes : BitVec 64} {s : State} {ks : List Chunk} (h : Models head first s ks)
    (hno : ∀ k ∈ ks, k.fits (allocSize bytes).toNat = false) :
    brkCalls head s.heap bytes =
      some ((if s.heap.limit = 0 then [0] else []) ++ [Malloc.knownLimit s.heap + chunkSize bytes]) := by
  obtain ⟨pre, post, rfl, hsearch⟩ := h.search (allocSize bytes)
  cases post with
  | nil =>
    have hnext : next s.heap.mem (lastPtr head first.toNat pre) = 0 := hsearch.next
    rw [brkCalls, hsearch.cursor, Option.map_some, if_pos hnext]
  | cons k post =>
    have hfits := hsearch.fits k rfl
    rw [hno k (by simp)] at hfits
    cases hfits

/-- A chunk that is in a row before and after, with the same bytes behind its header. -/
theorem Placed.kept {m m' : Memory} {first limit limit' : Nat} {p : Nat × Chunk} (h : Placed m first limit p)
    (h' : Placed m' first limit' p) (hs : Same m m' (p.1 + 16) (p.1 + 16 + p.2.bytes)) :
    Kept m m' (BitVec.ofNat 64 p.1) where
  size := h'.word.trans h.word.symm
  bytes := by
    rw [h.address, h.payload]
    exact hs

theorem Reused.reuses {head first bytes : BitVec 64} {h : Heap} {live : List (BitVec 64 × BitVec 64)}
    {ks pre post : List Chunk} {k : Chunk} {m : Memory} {hb : bytes.toNat < 2 ^ 47}
    (hw : Models head first ⟨h, live⟩ ks) (hr : Reused head first ⟨h, live⟩ ks bytes hb pre post k m) :
    ∃ rest, Reuses head first h (addresses first.toNat ks) bytes (addresses first.toNat pre)
      (BitVec.ofNat 64 (stop Chunk.len first.toNat pre)) (addresses (stop Chunk.len first.toNat pre + k.len) post) rest
      (⟨m, h.limit, h.brk⟩, BitVec.ofNat 64 (stop Chunk.len first.toNat pre + 16)) := by
  obtain rfl := hr.row
  have hbelow := hw.below
  have habove := hw.above
  have hin := stop_chunk_le first.toNat pre post k
  have hle := le_stop Chunk.len first.toNat pre
  have hlen : k.len = 16 + k.bytes := rfl
  have hneed : (allocSize bytes).toNat = rounded bytes.toNat := allocSize_toNat (by omega)
  have hchunk : (stop Chunk.len first.toNat pre, k) ∈ laid Chunk.len first.toNat (pre ++ k :: post) := by
    rw [laid_append]
    exact List.mem_append_right _ (List.mem_cons_self ..)
  have hplaced := hw.placed hchunk
  obtain ⟨rest, hrest, hserves⟩ := hr.models.serves
  have hwell := hr.models.wellFormed
  rw [hrest] at hwell
  have hrow : addresses first.toNat (pre ++ k :: post) = addresses first.toNat pre ++
      BitVec.ofNat 64 (stop Chunk.len first.toNat pre) :: addresses (stop Chunk.len first.toNat pre + k.len) post := by
    rw [addresses_append, addresses_cons]
  refine ⟨rest, hrow, ?_, ?_, ?_, hr.returns, ⟨(ofNat_add_sizeofMemchunk _).symm, ?_⟩, ⟨rfl, rfl⟩, hwell, ?_, ?_⟩
  · rw [← hneed]
    exact (hplaced.fits hbelow _).mpr (fits_iff.mpr ⟨hr.free, hr.holds⟩)
  · -- the chunks before it do not fit, and those after it lie above
    intro q hq hfits
    obtain ⟨p, hp, rfl⟩ := List.mem_map.mp hq
    have hp' := hw.placed hp
    rw [← hneed, hp'.fits hbelow] at hfits
    rw [hp'.address, hplaced.address]
    rw [laid_append] at hp
    rcases List.mem_append.mp hp with hpre | hpost
    · obtain ⟨l, r, hl, -⟩ := exists_split hpre
      rw [hr.passed p.2 (by rw [hl]; simp)] at hfits
      cases hfits
    · exact (laid_bounds hpost).1
  · exact hw.brkCalls_fits (by simp) (fits_iff.mpr ⟨hr.free, hr.holds⟩)
  · exact ofNat_ne_zero (by omega) (by omega)
  · rw [← hneed, show payload h.mem _ = k.bytes from hplaced.payload]
    exact hserves
  · intro q hq
    rcases List.mem_append.mp hq with hpre | hpost
    · obtain ⟨p, hp, rfl⟩ := List.mem_map.mp hpre
      have hp₁ : p ∈ laid Chunk.len first.toNat (pre ++ k :: post) := by
        rw [laid_append]
        exact List.mem_append_left _ hp
      have hp₂ : p ∈ laid Chunk.len first.toNat (pre ++ k.serve bytes hb hr.holds ++ post) := by
        rw [laid_append, laid_append]
        exact List.mem_append_left _ (List.mem_append_left _ hp)
      have hhi := (laid_bounds hp).2
      have hlen' : p.2.len = 16 + p.2.bytes := rfl
      exact (hw.placed hp₁).kept (hr.models.placed hp₂) (hr.same (by omega) (.inl (by omega)))
    · obtain ⟨p, hp, rfl⟩ := List.mem_map.mp hpost
      have hp₁ : p ∈ laid Chunk.len first.toNat (pre ++ k :: post) := by
        rw [laid_append]
        exact List.mem_append_right _ (List.mem_cons_of_mem _ hp)
      have hp₂ : p ∈ laid Chunk.len first.toNat (pre ++ k.serve bytes hb hr.holds ++ post) := by
        rw [laid_append, stop_append, stop_serve]
        exact List.mem_append_right _ hp
      have hlo := (laid_bounds hp).1
      have hhi := (hw.placed hp₁).high
      exact (hw.placed hp₁).kept (hr.models.placed hp₂) (hr.same (by omega) (.inr (by omega)))

/-- The cursor does not point to the size of a chunk, nor behind it. -/
theorem Models.cursor_clear {head first : BitVec 64} {s : State} {ks : List Chunk} (h : Models head first s ks)
    {p : Nat × Chunk} (hp : p ∈ laid Chunk.len first.toNat ks) :
    p.1 + 16 + p.2.bytes ≤ (lastPtr head first.toNat ks).toNat ∨ (lastPtr head first.toNat ks).toNat + 8 ≤ p.1 + 8 := by
  have habove := h.above
  have hlow := (laid_bounds hp).1
  have hlen : p.2.len = 16 + p.2.bytes := rfl
  rcases lastPtr_mem head first.toNat ks with he | hm
  · rw [he]
    exact .inr (by omega)
  · obtain ⟨q, hq, he⟩ := List.mem_map.mp hm
    have hlen' : q.2.len = 16 + q.2.bytes := rfl
    rw [← he, (h.placed hq).address]
    rcases laid_apart hp hq with rfl | hbefore | hafter
    · exact .inr (Nat.le_refl _)
    · exact .inl (by omega)
    · exact .inr (by omega)

theorem Grown.appends {head first bytes limit : BitVec 64} {h : Heap} {live : List (BitVec 64 × BitVec 64)}
    {ks : List Chunk} {m : Memory} {hb : bytes.toNat < 2 ^ 47} (hw : Models head first ⟨h, live⟩ ks)
    (hg : Grown head first ⟨h, live⟩ ks bytes hb m limit) :
    ∃ rest, Appends head first h (addresses first.toNat ks) bytes rest
      (⟨m, limit, limit⟩, BitVec.ofNat 64 (stop Chunk.len first.toNat ks + 16)) := by
  have hbelow := hw.below
  have habove := hw.above
  have hneed : (allocSize bytes).toNat = rounded bytes.toNat := allocSize_toNat (by omega)
  have hpages : (chunkSize bytes).toNat = pages bytes.toNat % 2 ^ 64 := chunkSize_toNat (by omega)
  have hlimit := hw.knownLimit
  simp only at hlimit
  have hmodels := hg.models
  rw [← List.append_nil (ks ++ _)] at hmodels
  obtain ⟨rest, hrest, hserves⟩ := hmodels.serves
  have hwell := hmodels.wellFormed
  rw [hrest, ← hlimit] at hwell
  rw [← hlimit] at hserves
  have hbytes : (fresh bytes hb).bytes = pages bytes.toNat - 16 := by
    simp only [fresh, hpages, pages]
    omega
  have hbelow' := hg.models.below
  have hend : limit = BitVec.ofNat 64 (stop Chunk.len first.toNat ks + pages bytes.toNat) := by
    have hbrk : limit = _ := hg.models.brk
    rw [hbrk, stop_append, stop_serve, fresh_len, hpages, Nat.mod_eq_of_lt (by unfold pages; omega)]
  rw [stop_append, stop_serve, fresh_len, hpages, Nat.mod_eq_of_lt (by unfold pages; omega)] at hbelow'
  refine ⟨rest, hw.brkCalls_unfit hg.passed, hg.returns, ⟨?_, ofNat_ne_zero (by omega) (by omega)⟩, ⟨rfl, ?_⟩, ?_, ?_, ?_⟩
  · rw [hlimit, ofNat_add_sizeofMemchunk]
  · rw [hend, toNat_ofNat_of_lt (by omega), hlimit, toNat_ofNat_of_lt (by omega)]
  · simpa [addresses, laid] using hwell
  · rw [← hneed, ← hbytes]
    exact hserves
  · intro q hq
    obtain ⟨p, hp, rfl⟩ := List.mem_map.mp hq
    have hp₂ : p ∈ laid Chunk.len first.toNat (ks ++ (fresh bytes hb).serve bytes hb (fits_iff.mp (fresh_fits bytes hb)).2) := by
      rw [laid_append]
      exact List.mem_append_left _ hp
    have hhi := (hw.placed hp).high
    have hclear := hw.cursor_clear hp
    exact (hw.placed hp).kept (hg.models.placed hp₂) (hg.same hhi (by omega))

theorem Models.refuses {head first : BitVec 64} {h : Heap} {live : List (BitVec 64 × BitVec 64)} {ks : List Chunk}
    (hw : Models head first ⟨h, live⟩ ks) :
    Refuses head first h (addresses first.toNat ks) (⟨h.mem, h.brk, h.brk⟩, 0) := by
  have hmodels : Models head first ⟨⟨h.mem, h.brk, h.brk⟩, live⟩ ks :=
    ⟨hw.above, hw.aligned, hw.linked, hw.brk, .inr rfl, hw.below, hw.live⟩
  exact ⟨rfl, rfl, ⟨hmodels.knownLimit.trans hw.knownLimit.symm, rfl⟩, hmodels.wellFormed⟩

theorem Models.unfit_iff {head first : BitVec 64} {s : State} {ks : List Chunk} (h : Models head first s ks) (need : Nat) :
    (∀ q ∈ addresses first.toNat ks, ¬ Fits s.heap.mem need q) ↔ ∀ k ∈ ks, k.fits need = false := by
  have hfits := fun {p : Nat × Chunk} (hp : p ∈ laid Chunk.len first.toNat ks) => (h.placed hp).fits h.below need
  constructor
  · intro hno k hk
    obtain ⟨pre, post, rfl⟩ := List.append_of_mem hk
    have hp : (stop Chunk.len first.toNat pre, k) ∈ laid Chunk.len first.toNat (pre ++ k :: post) := by
      rw [laid_append]
      exact List.mem_append_right _ (List.mem_cons_self ..)
    rw [← Bool.not_eq_true, ← hfits hp]
    exact hno _ (List.mem_map.mpr ⟨_, hp, rfl⟩)
  · intro hno q hq
    obtain ⟨p, hp, rfl⟩ := List.mem_map.mp hq
    obtain ⟨pre, post, hks, -⟩ := exists_split hp
    rw [hfits hp, hno p.2 (by rw [hks]; simp)]
    exact Bool.false_ne_true

/-- What `malloc` does where nothing wraps. -/
structure Outcome (head first : BitVec 64) (h : Heap) (l : List (BitVec 64)) (bytes : BitVec 64) (granted : Bool)
    (r : Heap × BitVec 64) : Prop where
  reuses : (∃ q ∈ l, Fits h.mem (rounded bytes.toNat) q) →
    ∃ pre p post rest, Reuses head first h l bytes pre p post rest r
  appends : (∀ q ∈ l, ¬ Fits h.mem (rounded bytes.toNat) q) → granted = true → ∃ rest, Appends head first h l bytes rest r
  refuses : (∀ q ∈ l, ¬ Fits h.mem (rounded bytes.toNat) q) → granted = false → Refuses head first h l r
  null : r.2 = 0 → granted = false ∧ ∀ q ∈ l, ¬ Fits h.mem (rounded bytes.toNat) q

theorem Models.outcome_refused {head first bytes : BitVec 64} {h : Heap} {live : List (BitVec 64 × BitVec 64)}
    {ks : List Chunk} (hw : Models head first ⟨h, live⟩ ks)
    (hno : ∀ q ∈ addresses first.toNat ks, ¬ Fits h.mem (rounded bytes.toNat) q) :
    Outcome head first h (addresses first.toNat ks) bytes false (⟨h.mem, h.brk, h.brk⟩, 0) where
  reuses := fun ⟨q, hq, hfits⟩ => absurd hfits (hno q hq)
  appends := fun _ ht => by cases ht
  refuses := fun _ _ => hw.refuses
  null := fun _ => ⟨rfl, hno⟩

theorem WellFormed.outcome {head first bytes : BitVec 64} {h : Heap} {l : List (BitVec 64)} {granted : Bool}
    (hw : WellFormed head first h l) (hb : bytes.toNat < 2 ^ 47)
    (hgrant : granted = true → (knownLimit h).toNat + pages bytes.toNat < 2 ^ 47) :
    ∃ r, malloc head h bytes granted = some r ∧ Outcome head first h l bytes granted r := by
  obtain ⟨ks, hm, rfl, -⟩ := hw.row
  have hneed : (allocSize bytes).toNat = rounded bytes.toNat := allocSize_toNat (by omega)
  have hsize : (chunkSize bytes).toNat = pages bytes.toNat := by
    rw [chunkSize_toNat (by omega), Nat.mod_eq_of_lt (by unfold pages; omega)]
  have hunfit := hm.unfit_iff (allocSize bytes).toNat
  rw [hneed] at hunfit
  rcases hm.malloc_cases hb (fun hg => by rw [hsize]; exact hgrant hg) with
    ⟨pre, post, k, m, hr⟩ | ⟨rfl, m, limit, hg⟩ | ⟨rfl, hno, hr⟩
  · obtain ⟨rest, hreuses⟩ := hr.reuses hm
    have hmem : BitVec.ofNat 64 (stop Chunk.len first.toNat pre) ∈ addresses first.toNat ks := by
      rw [hreuses.row]
      simp
    exact ⟨_, hr.returns granted, fun _ => ⟨_, _, _, rest, hreuses⟩,
      fun hno _ => absurd hreuses.fits (hno _ hmem), fun hno _ => absurd hreuses.fits (hno _ hmem),
      fun hz => absurd hz hreuses.pointer.2⟩
  · obtain ⟨rest, happends⟩ := hg.appends hm
    have hno := hg.passed
    rw [hneed] at hno
    exact ⟨_, hg.returns, fun ⟨q, hq, hfits⟩ => absurd hfits (hunfit.mpr hno q hq), fun _ _ => ⟨rest, happends⟩,
      fun _ hf => (by cases hf), fun hz => absurd hz happends.pointer.2⟩
  · rw [hneed] at hno
    exact ⟨_, hr, hm.outcome_refused (hunfit.mpr hno)⟩

theorem WellFormed.mem_bounds {head first q : BitVec 64} {h : Heap} {l : List (BitVec 64)}
    (hw : WellFormed head first h l) (hq : q ∈ l) :
    first.toNat ≤ q.toNat ∧ q.toNat + 16 + payload h.mem q ≤ h.brk.toNat := by
  obtain ⟨ks, hm, rfl, -⟩ := hw.row
  obtain ⟨p, hp, rfl⟩ := List.mem_map.mp hq
  have hbelow := hm.below
  have hplaced := hm.placed hp
  have hbrk : h.brk = _ := hm.brk
  rw [hplaced.address, hplaced.payload, hbrk, toNat_ofNat_of_lt (by omega)]
  exact ⟨hplaced.low, hplaced.high⟩

/-- No chunk is as large as the addresses of a program. -/
theorem WellFormed.unfit_of_large {head first : BitVec 64} {h : Heap} {l : List (BitVec 64)} {need : Nat}
    (hw : WellFormed head first h l) (hneed : 2 ^ 47 ≤ need) : ∀ q ∈ l, ¬ Fits h.mem need q := by
  rintro q hq ⟨-, hfits⟩
  have hbelow := hw.below
  have hin := (hw.mem_bounds hq).2
  omega

/-- If some unused chunk holds the request, the lowest one serves it and `brk` is not called. Otherwise a chunk is
appended, unless the kernel refuses. -/
theorem malloc_first_fit {head first bytes : BitVec 64} {h : Heap} {l : List (BitVec 64)} {granted : Bool}
    (hw : WellFormed head first h l) (hwrap : (knownLimit h).toNat + pages bytes.toNat < 2 ^ 64)
    (hgrant : granted = true → (knownLimit h).toNat + pages bytes.toNat < 2 ^ 47) :
    ∃ r, malloc head h bytes granted = some r ∧ Outcome head first h l bytes granted r := by
  by_cases hb : bytes.toNat < 2 ^ 47
  · exact hw.outcome hb hgrant
  · -- so large a request no chunk can hold, nor does the kernel grant it
    have hpages : bytes.toNat + 15 < pages bytes.toNat := by
      unfold pages
      omega
    obtain rfl : granted = false := by
      cases granted with
      | false => rfl
      | true =>
        have := hgrant rfl
        omega
    have hneed : (allocSize bytes).toNat = rounded bytes.toNat := allocSize_toNat (by unfold pages at hwrap; omega)
    have hno : ∀ q ∈ l, ¬ Fits h.mem (rounded bytes.toNat) q := hw.unfit_of_large (by unfold rounded; omega)
    obtain ⟨ks, hm, rfl, -⟩ := hw.row
    have hrow := (hm.unfit_iff _).mp hno
    rw [← hneed] at hrow
    exact ⟨_, hm.malloc_refused hrow, hm.outcome_refused hno⟩

theorem next_setSize {m : Memory} {x y : Nat} (v : BitVec 64) (hx : x + 16 ≤ 2 ^ 64) (hy : y + 8 ≤ 2 ^ 64)
    (h : y + 8 ≤ x + 8 ∨ x + 16 ≤ y) :
    next (setSize m (BitVec.ofNat 64 x) v) (BitVec.ofNat 64 y) = next m (BitVec.ofNat 64 y) := by
  rw [next, setSize, ofNat_add_eight]
  exact load64_store64_other m v (by omega) hy (by omega)

theorem next_setNext {m : Memory} {x y : Nat} (v : BitVec 64) (hx : x + 8 ≤ 2 ^ 64) (hy : y + 8 ≤ 2 ^ 64)
    (h : y + 8 ≤ x ∨ x + 8 ≤ y) :
    next (setNext m (BitVec.ofNat 64 x) v) (BitVec.ofNat 64 y) = next m (BitVec.ofNat 64 y) :=
  load64_store64_other m v hx hy h

theorem size_setNext {m : Memory} {x y : Nat} (v : BitVec 64) (hx : x + 8 ≤ 2 ^ 64) (hy : y + 16 ≤ 2 ^ 64)
    (h : y + 16 ≤ x ∨ x + 8 ≤ y + 8) :
    size (setNext m (BitVec.ofNat 64 x) v) (BitVec.ofNat 64 y) = size m (BitVec.ofNat 64 y) := by
  simp only [size, setNext, ofNat_add_eight]
  exact load64_store64_other m v (by omega) (by omega) (by omega)

theorem size_setSize {m : Memory} {x y : Nat} (v : BitVec 64) (hx : x + 16 ≤ 2 ^ 64) (hy : y + 16 ≤ 2 ^ 64)
    (h : y + 8 ≤ x ∨ x + 8 ≤ y) :
    size (setSize m (BitVec.ofNat 64 x) v) (BitVec.ofNat 64 y) = size m (BitVec.ofNat 64 y) := by
  simp only [size, setSize, ofNat_add_eight]
  exact load64_store64_other m v (by omega) (by omega) (by omega)

/-- Two unused chunks, of 16 bytes and of 4048. -/
def shelved : Heap where
  mem := setSize (setNext (setSize (setNext (setNext (fun _ => 0) (BitVec.ofNat 64 16) 4096) (BitVec.ofNat 64 4096) 4128)
    (BitVec.ofNat 64 4096) 16) (BitVec.ofNat 64 4128) 0) (BitVec.ofNat 64 4128) 4048
  limit := 8192
  brk := 8192

/-- The headers of the two. -/
theorem shelved_headers : (next shelved.mem 16 = 4096 ∧ next shelved.mem 4096 = 4128 ∧ next shelved.mem 4128 = 0) ∧
    size shelved.mem 4096 = 16 ∧ size shelved.mem 4128 = 4048 := by
  refine ⟨⟨?_, ?_, ?_⟩, ?_, ?_⟩
  · change next shelved.mem (BitVec.ofNat 64 16) = 4096
    rw [shelved, next_setSize _ (by omega) (by omega) (by omega), next_setNext _ (by omega) (by omega) (by omega),
      next_setSize _ (by omega) (by omega) (by omega), next_setNext _ (by omega) (by omega) (by omega)]
    exact load64_store64 _ _ _
  · change next shelved.mem (BitVec.ofNat 64 4096) = 4128
    rw [shelved, next_setSize _ (by omega) (by omega) (by omega), next_setNext _ (by omega) (by omega) (by omega),
      next_setSize _ (by omega) (by omega) (by omega)]
    exact load64_store64 _ _ _
  · change next shelved.mem (BitVec.ofNat 64 4128) = 0
    rw [shelved, next_setSize _ (by omega) (by omega) (by omega)]
    exact load64_store64 _ _ _
  · change size shelved.mem (BitVec.ofNat 64 4096) = 16
    rw [shelved, size_setSize _ (by omega) (by omega) (by omega), size_setNext _ (by omega) (by omega) (by omega)]
    exact load64_store64 _ _ _
  · exact load64_store64 _ _ _

theorem shelved_wellFormed : WellFormed 16 4096 shelved [4096, 4128] := by
  obtain ⟨⟨h16, h4096, h4128⟩, hfirst, hsecond⟩ := shelved_headers
  have hpayload : payload shelved.mem 4096 = 16 ∧ payload shelved.mem 4128 = 4048 := by
    rw [payload, payload, hfirst, hsecond]
    decide
  constructor
  · decide
  · decide
  · exact ⟨h16, by decide, h4096, by decide, h4128⟩
  · refine ⟨by decide, ?_⟩
    rw [hpayload.1]
    refine ⟨by decide, ?_⟩
    rw [hpayload.2]
    exact rfl
  · intro p hp
    rcases List.mem_pair.mp hp with rfl | rfl
    · rw [hpayload.1]; decide
    · rw [hpayload.2]; decide
  · exact .inr rfl
  · decide

/-- The second chunk is split. -/
theorem malloc_first_fit_split : ∃ r q, malloc 16 shelved 100 false = some r ∧
    Reuses 16 4096 shelved [4096, 4128] 100 [4096] 4128 [] [q] r := by
  obtain ⟨-, hfirst, hsecond⟩ := shelved_headers
  obtain ⟨r, hr, hout⟩ : ∃ r, malloc 16 shelved 100 false = some r ∧
      Outcome 16 4096 shelved [4096, 4128] 100 false r :=
    malloc_first_fit shelved_wellFormed (by decide) (by decide)
  have hsmall : ¬ Fits shelved.mem 104 4096 := by
    rw [Fits, used, payload, hfirst]
    decide
  have hlarge : Fits shelved.mem 104 4128 := by
    rw [Fits, used, payload, hsecond]
    decide
  obtain ⟨pre, p, post, rest, hreuses⟩ := hout.reuses ⟨4128, by simp, hlarge⟩
  have hfits : Fits shelved.mem 104 p := hreuses.fits
  obtain ⟨rfl, rfl, rfl⟩ : pre = [4096] ∧ p = 4128 ∧ post = [] := by
    rcases pre with _ | ⟨q, _ | ⟨q', pre⟩⟩
    · obtain ⟨rfl, -⟩ := List.cons.inj hreuses.row
      exact absurd hfits hsmall
    · obtain ⟨rfl, hrow⟩ := List.cons.inj hreuses.row
      obtain ⟨rfl, rfl⟩ := List.cons.inj hrow
      exact ⟨rfl, rfl, rfl⟩
    · have hlength := congrArg List.length hreuses.row
      simp at hlength
  rcases hreuses.serves.rest with ⟨-, hle, -⟩ | ⟨q, rfl, -⟩
  · rw [payload, hsecond] at hle
    exact absurd hle (by decide)
  · exact ⟨r, q, hr, hreuses⟩

end ThreadBites.Malloc

import ThreadBites.HeapLoops

/-!
# What realloc copies, and what a failed one loses

The number of bytes comes from the size in the header, with the bit of
`MEMCHUNK_USED` in it, so it is the new size whatever the old block holds. The
pointer that `malloc` returned is not looked at before the old block is released.
-/
namespace ThreadBites.HeapLoops

open ByteMemory Tiling
open Malloc (Heap sizeofMemchunk MEMCHUNK_USED WellFormed Kept used payload knownLimit chunkSize allocSize rounded pages)
open HeapBlocks (copied)

/-- The inner `malloc` returns a pointer. It did not lower the break, under which the new header would lie. -/
structure Succeeds (head : BitVec 64) (h : Heap) (size : BitVec 64) (granted : Bool) (r : Heap × BitVec 64) : Prop where
  returns : Malloc.malloc head h size granted = some r
  pointer : r.2 ≠ 0
  brk : h.brk.toNat ≤ r.1.brk.toNat

/-- `realloc` reads the first bytes of the old block, as many as both blocks hold, and writes as many of the new. -/
def CopiesHeld (head : BitVec 64) (h : Heap) (chunk size : BitVec 64) (granted : Bool) : Prop :=
  ∃ r c, realloc head h (chunk + sizeofMemchunk) size granted = some (r, c) ∧
    c.reads = run (chunk + sizeofMemchunk) (min (payload h.mem chunk) size.toNat) ∧
    c.writes = run r.2 (min (payload h.mem chunk) size.toNat)

/-- A used chunk keeps its header and its bytes in a call of `malloc`. -/
theorem kept_used {head first chunk bytes : BitVec 64} {h : Heap} {l : List (BitVec 64)} {granted : Bool}
    {r : Heap × BitVec 64} (hw : WellFormed head first h l) (hc : chunk ∈ l) (hu : used h.mem chunk = true)
    (hb : bytes.toNat < 2 ^ 47) (hgrant : granted = true → (knownLimit h).toNat + pages bytes.toNat < 2 ^ 47)
    (hr : Malloc.malloc head h bytes granted = some r) : Kept h.mem r.1.mem chunk := by
  obtain ⟨r', hr', ho⟩ := hw.outcome hb hgrant
  obtain rfl := Option.some.inj (hr.symm.trans hr')
  by_cases hfits : ∃ q ∈ l, Malloc.Fits h.mem (rounded bytes.toNat) q
  · obtain ⟨pre, p, post, rest, hreuses⟩ := ho.reuses hfits
    have hne : chunk ≠ p := by
      rintro rfl
      have hfree := hreuses.fits.1
      rw [hu] at hfree
      cases hfree
    exact hreuses.kept chunk (hreuses.mem_other hc hne)
  · have hno : ∀ q ∈ l, ¬ Malloc.Fits h.mem (rounded bytes.toNat) q := fun q hq hf => hfits ⟨q, hq, hf⟩
    cases granted with
    | true =>
      obtain ⟨rest, happends⟩ := ho.appends hno rfl
      exact happends.kept chunk hc
    | false =>
      rw [(ho.refuses hno rfl).mem]
      exact ⟨rfl, Same.refl _ _ _⟩

/-- Sizes that are rounded alike and ask for the same pages are the same to `malloc`. -/
theorem malloc_congr {head bytes bytes' : BitVec 64} {h : Heap} {granted : Bool}
    (halloc : allocSize bytes = allocSize bytes') (hchunk : chunkSize bytes = chunkSize bytes') :
    Malloc.malloc head h bytes granted = Malloc.malloc head h bytes' granted := by
  simp only [Malloc.malloc, Malloc.grow, halloc, hchunk]

theorem malloc_wraps {head bytes : BitVec 64} {h : Heap} {granted : Bool} (hb : 2 ^ 64 - 8 < bytes.toNat) :
    Malloc.malloc head h bytes granted = Malloc.malloc head h 0 granted :=
  malloc_congr (Malloc.allocSize_wraps hb) (Malloc.chunkSize_wraps (by omega))

/-- The sizes that leave too little of the page for a header have it written into the chunk itself. -/
theorem allocSize_last {bytes : BitVec 64} (hlo : 2 ^ 64 - 16 < bytes.toNat) (hhi : bytes.toNat ≤ 2 ^ 64 - 8) :
    allocSize bytes = -8 := by
  apply BitVec.eq_of_toNat_eq
  rw [Malloc.allocSize_toNat hhi, rounded]
  have : (-8 : BitVec 64).toNat = 2 ^ 64 - 8 := rfl
  omega

/-- A chunk keeps its size when the heap grows by a page and the header of the rest lands in the new chunk. -/
theorem size_kept_last {head first chunk size : BitVec 64} {h : Heap} {l : List (BitVec 64)} {r : Heap × BitVec 64}
    (hw : WellFormed head first h l) (hc : chunk ∈ l) (hlo : 2 ^ 64 - 16 < size.toNat) (hhi : size.toNat ≤ 2 ^ 64 - 8)
    (hr : Malloc.malloc head h size true = some r) : Malloc.size r.1.mem chunk = Malloc.size h.mem chunk := by
  have halloc := allocSize_last hlo hhi
  have hno : ∀ q ∈ l, ¬ Malloc.Fits h.mem (allocSize size).toNat q := by
    rw [halloc]
    exact hw.unfit_of_large (by decide)
  obtain ⟨ks, hm, rfl, -⟩ := hw.row
  have hbelow := hm.below
  have hbrk : h.brk = BitVec.ofNat 64 (stop Malloc.Chunk.len first.toNat ks) := hm.brk
  have hne : chunkSize size ≠ 0 := by
    rw [Malloc.chunkSize_wraps (by omega)]
    decide
  obtain ⟨m, hr', hsame⟩ := hm.malloc_unfit ((hm.unfit_iff _).mp hno) hne
  obtain rfl := Option.some.inj (hr'.symm.trans hr)
  obtain ⟨p, hp, rfl⟩ := List.mem_map.mp hc
  have hclear := hm.cursor_clear hp
  have hhigh := (hm.placed hp).high
  have hrest : BitVec.ofNat 64 (stop Malloc.Chunk.len first.toNat ks) + sizeofMemchunk + -8 =
      BitVec.ofNat 64 (stop Malloc.Chunk.len first.toNat ks + 8) := by
    rw [BitVec.add_assoc, BitVec.ofNat_add]
    rfl
  have hwhole : Same h.mem (Malloc.markUsed (Malloc.split m h.brk (allocSize size)) h.brk) (p.1 + 8) (p.1 + 8 + 8) := by
    rw [halloc, hbrk]
    exact (hsame (by omega) (by omega)).trans (Malloc.same_split hrest (by omega) (by omega) (by omega))
  simp only [Malloc.size, Malloc.ofNat_add_eight]
  exact hwhole.load64 (Nat.le_refl _) (Nat.le_refl _)

/-- A used chunk keeps its size whenever `malloc` succeeds. -/
theorem Succeeds.size_kept {head first chunk size : BitVec 64} {h : Heap} {l : List (BitVec 64)} {granted : Bool}
    {r : Heap × BitVec 64} (hs : Succeeds head h size granted r) (hw : WellFormed head first h l) (hc : chunk ∈ l)
    (hu : used h.mem chunk = true) (hgrant : granted = true → (knownLimit h + chunkSize size).toNat < 2 ^ 47) :
    Malloc.size r.1.mem chunk = Malloc.size h.mem chunk := by
  have hr := hs.returns
  by_cases hb : size.toNat < 2 ^ 47
  · rw [hw.target_toNat hb] at hgrant
    exact (kept_used hw hc hu hb hgrant hr).size
  by_cases hlast : 2 ^ 64 - 8 < size.toNat
  · rw [malloc_wraps hlast] at hr
    have hzero : chunkSize size = chunkSize 0 := Malloc.chunkSize_wraps (by omega)
    rw [hzero, hw.target_toNat (by decide)] at hgrant
    exact (kept_used hw hc hu (by decide) hgrant hr).size
  · have hno : ∀ q ∈ l, ¬ Malloc.Fits h.mem (allocSize size).toNat q := by
      rw [Malloc.allocSize_toNat (by omega)]
      exact hw.unfit_of_large (by unfold rounded; omega)
    obtain ⟨r', hr', -, hnull⟩ := hw.malloc_null size granted
    obtain rfl := Option.some.inj (hr.symm.trans hr')
    have hmoves : granted = true ∧ chunkSize size ≠ 0 := by
      have := mt hnull.mpr hs.pointer
      rw [not_and, not_or, Bool.not_eq_false] at this
      exact this hno
    obtain ⟨rfl, hne⟩ := hmoves
    by_cases hmost : 2 ^ 64 - 16 < size.toNat
    · exact size_kept_last hw hc hmost (by omega) hr
    · -- the limit that was asked for lies below the old one
      have hbrk := hw.brk_moved hno hne hr
      have hlowered := hs.brk
      have hbelow := hw.below
      have htarget := hgrant rfl
      have hsize : (chunkSize size).toNat = pages size.toNat % 2 ^ 64 := Malloc.chunkSize_toNat (by omega)
      have hzero : ¬ (chunkSize size).toNat = 0 := fun hz => hne (BitVec.eq_of_toNat_eq hz)
      rw [hbrk] at hlowered
      rw [hw.knownLimit] at htarget
      rw [BitVec.toNat_add, hsize] at hlowered htarget
      rw [hsize] at hzero
      unfold pages at hlowered htarget hzero
      omega

/-- The second word of the header of a used chunk, as a number. -/
theorem size_toNat {m : Memory} {chunk : BitVec 64} (hu : used m chunk = true) (hs : payload m chunk < 2 ^ 62) :
    (Malloc.size m chunk).toNat = payload m chunk + 2 ^ 62 := by
  have hbit : MEMCHUNK_USED.toNat = 2 ^ 62 := rfl
  have hor := Nat.two_pow_add_eq_or_of_lt hs 1
  rw [Malloc.size_eq, if_pos hu, BitVec.toNat_or, BitVec.toNat_ofNat, Nat.mod_eq_of_lt (by omega), hbit, Nat.or_comm]
  rw [Nat.mul_one] at hor
  omega

theorem copied_toNat (m : Memory) (chunk size : BitVec 64) :
    (copied m chunk size).toNat = min size.toNat (Malloc.size m chunk).toNat := by
  unfold copied
  split
  · rename_i hlt
    rw [BitVec.lt_def] at hlt
    omega
  · rename_i hge
    rw [BitVec.lt_def] at hge
    omega

theorem length_run (a : BitVec 64) (n : Nat) : (run a n).length = n := by simp [run]

/-- What a call of `realloc` does whose inner `malloc` succeeds: the bound of the loop is the new size, as far as the
flagged header goes. -/
theorem Succeeds.realloc_eq {head first chunk size : BitVec 64} {h : Heap} {l : List (BitVec 64)} {granted : Bool}
    {r : Heap × BitVec 64} (hs : Succeeds head h size granted r) (hw : WellFormed head first h l) (hc : chunk ∈ l)
    (hu : used h.mem chunk = true) (hgrant : granted = true → (knownLimit h + chunkSize size).toNat < 2 ^ 47) :
    ∃ h' m s d, realloc head h (chunk + sizeofMemchunk) size granted =
      if min size.toNat (payload h.mem chunk + 2 ^ 62) < 2 ^ 31 then
        some ((h', r.2), ⟨s, d, m, run (chunk + sizeofMemchunk) (min size.toNat (payload h.mem chunk + 2 ^ 62)),
          run r.2 (min size.toNat (payload h.mem chunk + 2 ^ 62))⟩)
      else none := by
  have hbelow := hw.below
  have hin := (hw.mem_bounds hc).2
  have hptr : chunk + sizeofMemchunk ≠ 0 := by
    intro hz
    have := congrArg BitVec.toNat hz
    have hs : sizeofMemchunk.toNat = 16 := rfl
    rw [BitVec.toNat_add, hs, Nat.mod_eq_of_lt (by omega)] at this
    simp at this
  have hbound : (copied r.1.mem (chunk + sizeofMemchunk - sizeofMemchunk) size).toNat =
      min size.toNat (payload h.mem chunk + 2 ^ 62) := by
    rw [BitVec.add_sub_cancel, copied_toNat, hs.size_kept hw hc hu hgrant, size_toNat hu (by omega)]
  simp only [realloc, hs.returns, Option.bind_some, hptr, hs.pointer, false_and, or_self, if_false, forInt_eq,
    copying_iterate, hbound]
  split
  · exact ⟨_, _, _, _, rfl⟩
  · exact ⟨r.1, r.1.mem, 0, 0, rfl⟩

theorem Succeeds.not_copiesHeld {head first chunk size : BitVec 64} {h : Heap} {l : List (BitVec 64)} {granted : Bool}
    {r : Heap × BitVec 64} (hs : Succeeds head h size granted r) (hw : WellFormed head first h l) (hc : chunk ∈ l)
    (hu : used h.mem chunk = true) (hgrant : granted = true → (knownLimit h + chunkSize size).toNat < 2 ^ 47)
    (hgrows : payload h.mem chunk < size.toNat) : ¬ CopiesHeld head h chunk size granted := by
  have hbelow := hw.below
  have hin := (hw.mem_bounds hc).2
  obtain ⟨h', m, s, d, hre⟩ := hs.realloc_eq hw hc hu hgrant
  rintro ⟨r', c, hsome, hreads, -⟩
  rw [hre] at hsome
  split at hsome
  · cases hsome
    have hlength := congrArg List.length hreads
    rw [length_run, length_run] at hlength
    omega
  · cases hsome

/-- `realloc` copies what the old block holds exactly when the new one is not larger, and an `int` can count it. -/
theorem realloc_copies {head first chunk size : BitVec 64} {h : Heap} {l : List (BitVec 64)} {granted : Bool}
    {r : Heap × BitVec 64} (hw : WellFormed head first h l) (hc : chunk ∈ l) (hu : used h.mem chunk = true)
    (hgrant : granted = true → (knownLimit h + chunkSize size).toNat < 2 ^ 47) (hs : Succeeds head h size granted r) :
    CopiesHeld head h chunk size granted ↔ size.toNat ≤ payload h.mem chunk ∧ size.toNat < 2 ^ 31 := by
  by_cases hgrows : payload h.mem chunk < size.toNat
  · exact iff_of_false (hs.not_copiesHeld hw hc hu hgrant hgrows) (by omega)
  · obtain ⟨h', m, s, d, hre⟩ := hs.realloc_eq hw hc hu hgrant
    have hbound : min size.toNat (payload h.mem chunk + 2 ^ 62) = size.toNat := by omega
    have hmin : min (payload h.mem chunk) size.toNat = size.toNat := by omega
    rw [CopiesHeld, hre, hbound, hmin]
    split
    · rename_i hlt
      exact iff_of_true ⟨_, _, rfl, rfl, rfl⟩ ⟨by omega, hlt⟩
    · rename_i hge
      exact iff_of_false (by rintro ⟨_, _, hsome, -⟩; cases hsome) (by omega)

/-- The heap after a first call of `malloc(4080)`: the chunk is used and fills the page. -/
def fullPage : Heap :=
  ⟨Malloc.setSize (Malloc.setNext (fun _ => 0) 16 4096) 4096 (4080 ||| MEMCHUNK_USED), 8192, 8192⟩

theorem fullPage_wellFormed : WellFormed 16 4096 fullPage [4096] where
  above := by decide
  aligned := by decide
  follows := ⟨by decide, by decide, show Malloc.next fullPage.mem 4096 = 0 by decide⟩
  fills := ⟨rfl, show 4096 + 16 + payload fullPage.mem 4096 = 8192 by decide⟩
  sizes := by simp only [List.forall_mem_singleton]; decide
  limit := .inr rfl
  below := by decide

theorem fullPage_used : used fullPage.mem 4096 = true := by decide

theorem fullPage_unfit (need : Nat) : ∀ q ∈ [(4096 : BitVec 64)], ¬ Malloc.Fits fullPage.mem need q := by
  rintro q hq ⟨hfree, -⟩
  obtain rfl := List.mem_singleton.mp hq
  rw [fullPage_used] at hfree
  cases hfree

/-- The kernel grants more pages. -/
theorem fullPage_succeeds {size : BitVec 64} (hsize : size.toNat < 2 ^ 20) : ∃ r, Succeeds 16 fullPage size true r := by
  have hw := fullPage_wellFormed
  have hpages : (chunkSize size).toNat = pages size.toNat := by
    rw [Malloc.chunkSize_toNat (by omega), Nat.mod_eq_of_lt (by unfold pages; omega)]
  have hpos : 4096 ≤ pages size.toNat := by
    unfold pages
    omega
  have hne : chunkSize size ≠ 0 := by
    intro hz
    rw [hz] at hpages
    simp at hpages
    omega
  obtain ⟨r, hr, -, hnull⟩ := hw.malloc_null size true
  refine ⟨r, hr, fun hz => ?_, ?_⟩
  · rcases (hnull.mp hz).2 with ht | hz
    · cases ht
    · exact hne hz
  · have hbrk : fullPage.brk.toNat = 8192 := rfl
    rw [hw.brk_moved (fullPage_unfit _) hne hr, BitVec.toNat_add, hbrk, hpages, Nat.mod_eq_of_lt (by unfold pages; omega)]
    omega

theorem fullPage_granted {size : BitVec 64} (hsize : size.toNat < 2 ^ 20) :
    true = true → (knownLimit fullPage + chunkSize size).toNat < 2 ^ 47 := by
  have hlimit : (knownLimit fullPage).toNat = 8192 := by decide
  rw [fullPage_wellFormed.target_toNat (by omega), hlimit]
  unfold pages
  omega

/-- `realloc(p, 100)` of the block of 4080 bytes. -/
theorem realloc_copies_shrunk : CopiesHeld 16 fullPage 4096 100 true := by
  obtain ⟨r, hs⟩ : ∃ r, Succeeds 16 fullPage 100 true r := fullPage_succeeds (by decide)
  exact (realloc_copies fullPage_wellFormed (List.mem_singleton.mpr rfl) fullPage_used (fullPage_granted (by decide)) hs).mpr
    ⟨by decide, by decide⟩

/-- `realloc(p, 5000)` of the block of 4080 bytes reads 920 bytes past it. -/
theorem realloc_copies_beyond : WellFormed 16 4096 fullPage [4096] ∧ used fullPage.mem 4096 = true ∧
    (∃ r, Succeeds 16 fullPage 5000 true r) ∧ ¬ CopiesHeld 16 fullPage 4096 5000 true := by
  obtain ⟨r, hs⟩ : ∃ r, Succeeds 16 fullPage 5000 true r := fullPage_succeeds (by decide)
  exact ⟨fullPage_wellFormed, fullPage_used, ⟨r, hs⟩, hs.not_copiesHeld fullPage_wellFormed (List.mem_singleton.mpr rfl)
    fullPage_used (fullPage_granted (by decide)) (by decide)⟩

/-- A failed `realloc` returns 0, writes nothing, and leaves the block and all chunks as they were. -/
def Survives (head first : BitVec 64) (h : Heap) (l : List (BitVec 64)) (chunk size : BitVec 64) (granted : Bool) : Prop :=
  ∃ r c, realloc head h (chunk + sizeofMemchunk) size granted = some (r, c) ∧ r.2 = 0 ∧ c.writes = [] ∧
    WellFormed head first r.1 l ∧ used r.1.mem chunk = true ∧ ∀ q ∈ l, Kept h.mem r.1.mem q

/-- `malloc` returned 0 and there is something to copy: the first byte goes through the null pointer. -/
theorem realloc_null {head first chunk size : BitVec 64} {h : Heap} {l : List (BitVec 64)} {granted : Bool}
    {r : Heap × BitVec 64} (hw : WellFormed head first h l) (hc : chunk ∈ l) (hu : used h.mem chunk = true)
    (hr : Malloc.malloc head h size granted = some r) (hz : r.2 = 0) (hne : size ≠ 0) :
    realloc head h (chunk + sizeofMemchunk) size granted = none := by
  have hbelow := hw.below
  have hin := (hw.mem_bounds hc).2
  obtain ⟨r', hr', hrefuses, -⟩ := hw.malloc_null size granted
  obtain rfl := Option.some.inj (hr.symm.trans hr')
  have hbound : copied r.1.mem (chunk + sizeofMemchunk - sizeofMemchunk) size ≠ 0 := by
    intro hzero
    have htoNat := copied_toNat r.1.mem chunk size
    rw [BitVec.add_sub_cancel] at hzero
    rw [hzero, (hrefuses hz).mem, size_toNat hu (by omega)] at htoNat
    have : (0 : BitVec 64).toNat = 0 := rfl
    exact hne (BitVec.eq_of_toNat_eq (by omega))
  simp only [realloc, hr, Option.bind_some]
  rw [if_pos (.inr ⟨hz, hbound⟩)]

theorem used_clear (m : Memory) (chunk w : BitVec 64) :
    used (Malloc.setSize m chunk (w &&& ~~~MEMCHUNK_USED)) chunk = false := by
  have hsize : Malloc.size (Malloc.setSize m chunk (w &&& ~~~MEMCHUNK_USED)) chunk = w &&& ~~~MEMCHUNK_USED :=
    load64_store64 _ _ _
  simp [used, hsize, BitVec.and_assoc]

/-- A `realloc` to no bytes releases the block. -/
theorem realloc_null_zero {head chunk : BitVec 64} {h : Heap} {granted : Bool} {r : Heap × BitVec 64} {c : Copying}
    (hr : realloc head h (chunk + sizeofMemchunk) 0 granted = some (r, c)) : used r.1.mem chunk = false := by
  simp only [realloc, Option.bind_eq_some_iff] at hr
  obtain ⟨q, -, hr⟩ := hr
  split at hr
  · cases hr
  · rename_i hok
    have hptr : chunk + sizeofMemchunk ≠ 0 := fun hz => hok (.inl hz)
    obtain ⟨c', -, hc'⟩ := Option.map_eq_some_iff.mp hr
    cases hc'
    simp only [Malloc.free, hptr, if_false, BitVec.add_sub_cancel]
    exact used_clear _ _ _

/-- Whatever it was asked for, a `realloc` whose inner `malloc` fails loses the block or crashes. -/
theorem realloc_failed {head first chunk size : BitVec 64} {h : Heap} {l : List (BitVec 64)} {granted : Bool}
    {r : Heap × BitVec 64} (hw : WellFormed head first h l) (hc : chunk ∈ l) (hu : used h.mem chunk = true)
    (hr : Malloc.malloc head h size granted = some r) (hz : r.2 = 0) :
    ¬ Survives head first h l chunk size granted := by
  rintro ⟨r', c, hre, -, -, -, hkept, -⟩
  by_cases hne : size = 0
  · subst hne
    rw [realloc_null_zero hre] at hkept
    cases hkept
  · rw [realloc_null hw hc hu hr hz hne] at hre
    cases hre

theorem fullPage_refused (size : BitVec 64) : ∃ r, Malloc.malloc 16 fullPage size false = some r ∧ r.2 = 0 := by
  obtain ⟨r, hr, -, hnull⟩ := fullPage_wellFormed.malloc_null size false
  exact ⟨r, hr, hnull.mpr ⟨fullPage_unfit _, .inl rfl⟩⟩

/-- `realloc(p, 5000)` of the block of 4080 bytes, which the kernel refuses. -/
theorem realloc_failed_refused : ¬ Survives 16 4096 fullPage [4096] 4096 5000 false := by
  obtain ⟨r, hr, hz⟩ := fullPage_refused 5000
  exact realloc_failed fullPage_wellFormed (List.mem_singleton.mpr rfl) fullPage_used hr hz

/-- The refused `realloc(p, 5000)` writes through the null pointer, and the refused `realloc(p, 0)` releases `p`. -/
theorem realloc_failed_crashes : WellFormed 16 4096 fullPage [4096] ∧ used fullPage.mem 4096 = true ∧
    (∃ r, Malloc.malloc 16 fullPage 5000 false = some r ∧ r.2 = 0) ∧
    realloc 16 fullPage 4112 5000 false = none ∧ ¬ Survives 16 4096 fullPage [4096] 4096 5000 false := by
  obtain ⟨r, hr, hz⟩ := fullPage_refused 5000
  have hnone : realloc 16 fullPage (4096 + sizeofMemchunk) 5000 false = none :=
    realloc_null fullPage_wellFormed (List.mem_singleton.mpr rfl) fullPage_used hr hz (by decide)
  refine ⟨fullPage_wellFormed, fullPage_used, ⟨r, hr, hz⟩, hnone, ?_⟩
  rintro ⟨r', c, hre, -⟩
  rw [hnone] at hre
  cases hre

end ThreadBites.HeapLoops

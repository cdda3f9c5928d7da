import ThreadBites.HeapOwners

/-!
# Many threads and one heap

While a thread is in a section of the allocator, what others do to their blocks can
be as if they did it before. So the accesses of all threads leave the heap as whole
calls one after the other do, and at every access each block holds what it should.
-/
namespace ThreadBites.HeapThreads

open Transition ByteMemory CriticalSections Tiling
open Malloc (sizeofMemchunk)
open HeapBlocks (Block Holds)

variable {τ : Type}

/-- The chunk of a block in use has headers and unused chunks around it, not in it. -/
theorem clear_of_live {head first : BitVec 64} {s : Malloc.State} {ks : List Malloc.Chunk} {b : BitVec 64 × BitVec 64}
    (hm : Malloc.Models head first s ks) (hb : b ∈ s.live) :
    Clear b.1.toNat (b.1.toNat + b.2.toNat) first.toNat ks ∧ head.toNat + 16 ≤ b.1.toNat - 8 := by
  have habove := hm.above
  obtain ⟨p, hp, hr, hpa, -, -⟩ := hm.placed_block (hm.live.mem_iff.mp hb)
  have hholds := p.2.holds _ hr
  have hlen : p.2.len = 16 + p.2.bytes := rfl
  have hbounds := laid_bounds hp
  have hapart : ∀ q ∈ laid Malloc.Chunk.len first.toNat ks, q = p ∨ p.1 + p.2.len ≤ q.1 ∨ q.1 + 16 + q.2.bytes ≤ p.1 := by
    intro q hq
    have hlen' : q.2.len = 16 + q.2.bytes := rfl
    rcases laid_apart hp hq with he | hlt | hlt
    · exact .inl he.symm
    · exact .inr (.inl hlt)
    · exact .inr (.inr (by omega))
  refine ⟨⟨fun q hq => ?_, fun q hq => ?_, fun q hq hfree => ?_, by omega⟩, by omega⟩
  · rcases hapart q hq with rfl | hlt | hlt <;> omega
  · rcases hapart q hq with rfl | hlt | hlt <;> omega
  · have hlen' : q.2.len = 16 + q.2.bytes := rfl
    rcases hapart q hq with rfl | hlt | hlt
    · rw [hr] at hfree
      cases hfree
    · omega
    · omega

/-- Blocks of two chunks have a header between them. -/
theorem headers_between {head first : BitVec 64} {s : Malloc.State} {ks : List Malloc.Chunk} {b c : BitVec 64 × BitVec 64}
    (hm : Malloc.Models head first s ks) (hb : b ∈ s.live) (hc : c ∈ s.live) (hne : b.1 ≠ c.1) :
    16 ≤ c.1.toNat ∧ (c.1.toNat ≤ b.1.toNat - 8 ∨ b.1.toNat + b.2.toNat + 16 ≤ c.1.toNat) := by
  obtain ⟨p, hp, hr, hpa, -, -⟩ := hm.placed_block (hm.live.mem_iff.mp hb)
  obtain ⟨q, hq, -, hqa, -, -⟩ := hm.placed_block (hm.live.mem_iff.mp hc)
  have hholds := p.2.holds _ hr
  have hlen : p.2.len = 16 + p.2.bytes := rfl
  have hlen' : q.2.len = 16 + q.2.bytes := rfl
  rcases laid_apart hp hq with rfl | hlt | hlt
  · exact absurd (BitVec.eq_of_toNat_eq (hpa.trans hqa.symm)) hne
  · omega
  · omega

theorem clear_nothing (a : Nat) (ks : List Malloc.Chunk) : Clear 8 0 a ks :=
  ⟨fun _ _ => .inr (Nat.zero_le _), fun _ _ => .inr (Nat.zero_le _), fun _ _ _ => .inr (Nat.zero_le _), Nat.zero_le _⟩

/-- What is so of the data at every access: each block holds what it should, and no two have a byte in common. -/
structure Sound (d : Shared τ) : Prop where
  holds : ∀ x ∈ d.entries, Holds d.heap.mem x.block
  apart : d.entries.Pairwise fun x y => x.block.ptr.toNat + x.block.bytes.toNat ≤ y.block.ptr.toNat ∨
    y.block.ptr.toNat + y.block.bytes.toNat ≤ x.block.ptr.toNat

theorem sound_whole {head first : BitVec 64} {d : Shared τ} (h : HeapBlocks.Inv head first d.whole) : Sound d := by
  refine ⟨fun x hx => whole_holds h hx, ?_⟩
  obtain ⟨ks, hm⟩ := h.row
  have hnodup := hm.nodup
  simp only [HeapBlocks.State.plain, Shared.whole, List.map_map] at hnodup
  refine (List.pairwise_map.mp hnodup).imp_of_mem fun {x y} hx hy hne => ?_
  exact hm.apart (mem_live hx) (mem_live hy) hne

variable [DecidableEq τ]

section Sections

variable {head first : BitVec 64} {s : State τ (Shared τ) Pc} {t : τ} {b₀ b : Section τ} {d : Shared τ}

/-- A section spares the blocks of the others. -/
theorem section_sparing (h : Inv head first s) (hb : sectionAt head t (s.place t) = some b₀) {x : Entry τ}
    (hx : x ∈ s.data.entries) (ho : x.owner ≠ some t) :
    b₀.Always (Sparing x.block.ptr.toNat (x.block.ptr.toNat + x.block.bytes.toNat) t s.data) s.data := by
  obtain ⟨ks, hm⟩ := h.blocks.row
  have hlive := mem_live hx
  obtain ⟨hclear, hhead⟩ := clear_of_live hm hlive
  have hends := HeapBlocks.ends_below hm (List.mem_map_of_mem hx)
  have hfree : ∀ {c : Block} {p : Pc}, s.data.Has t c → (freeSection t c.ptr p).Always
      (Sparing x.block.ptr.toNat (x.block.ptr.toNat + x.block.bytes.toNat) t s.data) s.data := by
    intro c p hc
    have hne : x.block.ptr ≠ c.ptr := by
      intro he
      obtain rfl := entry_unique h.blocks hx hc he
      exact ho rfl
    obtain ⟨hlow, hout⟩ := headers_between hm hlive (mem_live hc) hne
    refine free_sparing hlow ?_ hout p
    exact Nat.le_of_lt (Nat.lt_trans hends (by decide))
  have hplaced := h.placed t
  cases hp : s.place t <;> rw [hp] at hb hplaced <;> cases hb
  · rename_i bytes k
    exact malloc_sparing hm hclear (.inl hhead) (Purpose.Asks.below hplaced) k
  · obtain ⟨c, hc, rfl⟩ := hplaced
    exact hfree hc
  · exact hfree (Moving.has hplaced)

/-- A section has nothing to do with what changes no byte. -/
theorem section_idle (h : Inv head first s) (hb : sectionAt head t (s.place t) = some b₀) :
    b₀.Always (Sparing 8 0 t s.data) s.data := by
  obtain ⟨ks, hm⟩ := h.blocks.row
  have hfree : ∀ {c : Block} {p : Pc}, s.data.Has t c → (freeSection t c.ptr p).Always (Sparing 8 0 t s.data) s.data := by
    intro c p hc
    obtain ⟨q, -, -, hqa, -, -⟩ := hm.placed_block (hm.live.mem_iff.mp (mem_live hc))
    have hlow : 16 ≤ c.ptr.toNat := by
      have hqa : c.ptr.toNat = q.1 + 16 := hqa
      omega
    exact free_sparing hlow (by omega) (.inr (by omega)) p
  have hplaced := h.placed t
  cases hp : s.place t <;> rw [hp] at hb hplaced <;> cases hb
  · rename_i bytes k
    exact malloc_sparing hm (clear_nothing _ _) (.inr (Nat.zero_le _)) (Purpose.Asks.below hplaced) k
  · obtain ⟨c, hc, rfl⟩ := hplaced
    exact hfree hc
  · exact hfree (Moving.has hplaced)

/-- What is done to the data is done to a block of somebody else than `t`, or to no byte. -/
def Harmless (d : Shared τ) (t : τ) (f : Touch τ) : Prop :=
  f.Within 8 0 t ∨ ∃ x ∈ d.entries, x.owner ≠ some t ∧
    f.Within x.block.ptr.toNat (x.block.ptr.toNat + x.block.bytes.toNat) t

/-- It can as well be done before the section. -/
theorem runs_touch (h : Inv head first s) (hb : sectionAt head t (s.place t) = some b₀) (hruns : b₀.Runs s.data b d)
    {f : Touch τ} (hf : Harmless s.data t f) : b₀.Runs (f.apply s.data) b (f.apply d) := by
  rcases hf with hf | ⟨x, hx, ho, hf⟩
  · exact hruns.change ((section_idle h hb).imp fun _ _ hs => hs.ignores f hf)
  · exact hruns.change ((section_sparing h hb hx ho).imp fun _ _ hs => hs.ignores f hf)

theorem runs_others (h : Inv head first s) (hb : sectionAt head t (s.place t) = some b₀) (hruns : b₀.Runs s.data b d) :
    d.entries.filter (fun x => x.owner ≠ some t) = s.data.entries.filter fun x => x.owner ≠ some t :=
  (hruns.always (section_idle h hb)).here.others

theorem runs_mem (h : Inv head first s) (hb : sectionAt head t (s.place t) = some b₀) (hruns : b₀.Runs s.data b d)
    {x : Entry τ} (ho : x.owner ≠ some t) : x ∈ d.entries ↔ x ∈ s.data.entries := by
  have hmem := congrArg (x ∈ ·) (runs_others h hb hruns)
  simpa [List.mem_filter, ho] using hmem

theorem runs_find (h : Inv head first s) (hb : sectionAt head t (s.place t) = some b₀) (hruns : b₀.Runs s.data b d)
    (ptr : BitVec 64) : d.find ptr = s.data.find ptr := by
  have hfilter : ∀ l : List (Entry τ), l.find? (fun x => x.owner = none && x.block.ptr = ptr) =
      (l.filter fun x => x.owner ≠ some t).find? fun x => x.owner = none && x.block.ptr = ptr := by
    intro l
    rw [List.find?_filter]
    refine congrArg (l.find? ·) (funext fun x => ?_)
    cases x.owner <;> simp
  exact (hfilter _).trans ((congrArg _ (runs_others h hb hruns)).trans (hfilter _).symm)

/-- A change of the entries of somebody else than `t`, with a byte that is written. -/
def onEntries (byte : Option (BitVec 64 × BitVec 8)) (owner : Option τ) (g : Entry τ → Entry τ) : Touch τ where
  byte := byte
  change x := if x.owner = owner then g x else x

theorem onEntries_within {byte : Option (BitVec 64 × BitVec 8)} {owner : Option τ} {g : Entry τ → Entry τ} {lo hi : Nat}
    (hbyte : ∀ a b, byte = some (a, b) → lo ≤ a.toNat ∧ a.toNat < hi) (howner : owner ≠ some t)
    (hg : ∀ x, (g x).block.ptr = x.block.ptr) (hg' : ∀ x, x.owner = owner → (g x).owner ≠ some t) :
    (onEntries byte owner g).Within lo hi t := by
  refine ⟨hbyte, fun x hx => if_neg fun he => howner (he.symm.trans hx), fun x hx => ?_, fun x => ?_⟩
  · simp only [onEntries]
    split
    · rename_i he
      exact hg' x he
    · exact hx
  · simp only [onEntries]
    split
    · exact hg x
    · rfl

/-- A byte that is put in a block of somebody else. -/
theorem put_harmless (h : HeapBlocks.Inv head first d.whole) {x : Entry τ} (hx : x ∈ d.entries) (ho : x.owner ≠ some t)
    {offset : BitVec 64} (hoff : offset.toNat < x.block.bytes.toNat) (v : BitVec 8) :
    ∃ f : Touch τ, Harmless d t f ∧ ∀ d' : Shared τ, d'.put x.owner x.block.ptr offset v = f.apply d' := by
  obtain ⟨ks, hm⟩ := h.row
  have hends := HeapBlocks.ends_below hm (List.mem_map_of_mem hx)
  refine ⟨onEntries (some (x.block.ptr + offset, v)) x.owner
    (fun y => if y.block.ptr = x.block.ptr then { y with block := y.block.write offset v } else y),
    .inr ⟨x, hx, ho, onEntries_within ?_ ho (fun y => ?_) fun y hy => ?_⟩, fun _ => rfl⟩
  · rintro a b he
    cases he
    rw [BitVec.toNat_add, Nat.mod_eq_of_lt (by omega)]
    omega
  · split <;> rfl
  · split
    · exact hy ▸ ho
    · exact hy ▸ ho

/-- Blocks that go from one to another, neither being `t`. -/
theorem pass_harmless {owner owner' : Option τ} (ho : owner ≠ some t) (ho' : owner' ≠ some t) (p : Entry τ → Bool) :
    ∃ f : Touch τ, Harmless d t f ∧ ∀ d' : Shared τ, d'.pass owner p owner' = f.apply d' := by
  refine ⟨onEntries none owner fun x => if p x then { x with owner := owner' } else x,
    .inl (onEntries_within nofun ho (fun y => ?_) fun y hy => ?_), fun _ => rfl⟩
  · split <;> rfl
  · split
    · exact ho'
    · exact hy ▸ ho

/-- Blocks of the others have their bytes in the middle of a section. -/
theorem runs_unchanged (h : Inv head first s) (hb : sectionAt head t (s.place t) = some b₀) (hruns : b₀.Runs s.data b d)
    {x : Entry τ} (hx : x ∈ s.data.entries) (ho : x.owner ≠ some t) :
    Malloc.Unchanged s.data.heap.mem d.heap.mem (x.block.ptr, x.block.bytes) :=
  (hruns.always (section_sparing h hb hx ho)).here.same.mono (Nat.sub_le _ _) (Nat.le_refl _)

/-- And so have their chunks their sizes. -/
theorem runs_size (h : Inv head first s) (hb : sectionAt head t (s.place t) = some b₀) (hruns : b₀.Runs s.data b d)
    {x : Entry τ} (hx : x ∈ s.data.entries) (ho : x.owner ≠ some t) :
    Malloc.size d.heap.mem (x.block.ptr - sizeofMemchunk) = Malloc.size s.data.heap.mem (x.block.ptr - sizeofMemchunk) := by
  obtain ⟨ks, hm⟩ := h.blocks.row
  have hhead := (clear_of_live hm (mem_live hx)).2
  simp only at hhead
  have hat : x.block.ptr - sizeofMemchunk + 8 = BitVec.ofNat 64 (x.block.ptr.toNat - 8) := by
    simp only [sizeofMemchunk]
    bv_omega
  rw [Malloc.size, Malloc.size, hat]
  exact (hruns.always (section_sparing h hb hx ho)).here.same.load64 (Nat.le_refl _) (by omega)

/-- The next step of a call of another thread. -/
theorem next_runs (h : Inv head first s) (hb : sectionAt head t (s.place t) = some b₀) (hruns : b₀.Runs s.data b d)
    {u : τ} (hu : u ≠ t) {stray : BitVec 8} {r : Shared τ × Pc} (hr : nextStep d u stray (s.place u) = some r) :
    ∃ d', nextStep s.data u stray (s.place u) = some (d', r.2) ∧ b₀.Runs d' b r.1 := by
  have ho : some u ≠ some t := by simpa using hu
  have hput : ∀ {c : Block} {offset : BitVec 64} (v : BitVec 8), s.data.Has u c → offset.toNat < c.bytes.toNat →
      b₀.Runs (s.data.put (some u) c.ptr offset v) b (d.put (some u) c.ptr offset v) := by
    intro c offset v hc hoff
    obtain ⟨f, hf, happly⟩ := put_harmless h.blocks hc ho hoff v
    rw [happly, happly]
    exact runs_touch h hb hruns hf
  have hplaced := h.placed u
  cases hp : s.place u with
  | out ret => rw [hp] at hr; cases hr
  | malloc bytes k => rw [hp] at hr; cases hr
  | free ptr => rw [hp] at hr; cases hr
  | freeOld old ptr bytes => rw [hp] at hr; cases hr
  | got ptr bytes k =>
    rw [hp] at hr hplaced
    cases k with
    | malloc =>
      cases hr
      exact ⟨s.data, rfl, hruns⟩
    | calloc =>
      cases hr
      exact ⟨s.data, rfl, hruns⟩
    | realloc old =>
      have hcopied : HeapBlocks.copied d.heap.mem (old.ptr - sizeofMemchunk) bytes =
          HeapBlocks.copied s.data.heap.mem (old.ptr - sizeofMemchunk) bytes := by
        have hsize := runs_size h hb hruns hplaced.1.2 ho
        simp only [HeapBlocks.copied, hsize]
      simp only [nextStep, hcopied] at hr ⊢
      split at hr
      · cases hr
      · rename_i hok
        cases hr
        rw [if_neg hok]
        exact ⟨s.data, rfl, hruns⟩
  | zero ptr bytes i =>
    rw [hp] at hr hplaced
    obtain ⟨hi, content, hhas, -⟩ := hplaced
    simp only [nextStep] at hr ⊢
    split at hr
    · rename_i hlt
      cases hr
      rw [if_pos hlt]
      exact ⟨_, rfl, hput 0 hhas (by simp only [BitVec.toNat_ofNat]; omega)⟩
    · rename_i hge
      cases hr
      rw [if_neg hge]
      exact ⟨s.data, rfl, hruns⟩
  | copy old ptr bytes min i =>
    rw [hp] at hr hplaced
    obtain ⟨hmoving, hi, rfl, hz⟩ := hplaced
    simp only [nextStep] at hr ⊢
    split at hr
    · rename_i hlt
      cases hr
      have hne : ptr ≠ 0 := fun he => by
        rw [hz he] at hlt
        exact absurd hlt (Nat.not_lt_zero i)
      obtain ⟨content, hhas, -⟩ := hmoving.got hne
      have hread : (if i < old.bytes.toNat then d.heap.mem (old.ptr + BitVec.ofNat 64 i) else stray) =
          if i < old.bytes.toNat then s.data.heap.mem (old.ptr + BitVec.ofNat 64 i) else stray := by
        split
        · rename_i hold
          exact HeapBlocks.found_unchanged (runs_unchanged h hb hruns hmoving.has ho) hold
        · rfl
      rw [if_pos hlt, hread]
      exact ⟨_, rfl, hput _ hhas (by simp only [BitVec.toNat_ofNat]; omega)⟩
    · rename_i hge
      cases hr
      rw [if_neg hge]
      exact ⟨s.data, rfl, hruns⟩
  | back ptr bytes k =>
    rw [hp] at hr
    cases hr
    obtain ⟨f, hf, happly⟩ := pass_harmless (d := s.data) ho (Option.some_ne_none t).symm fun _ => true
    have hpass := runs_touch h hb hruns hf
    rw [← happly, ← happly] at hpass
    exact ⟨_, rfl, hpass⟩

/-- A step of another thread can as well be made before the section. -/
theorem outside_commutes (h : Inv head first s) (hb : sectionAt head t (s.place t) = some b₀) (hruns : b₀.Runs s.data b d)
    {u : τ} (hu : u ≠ t) {o : Outside} {r : Shared τ × Pc} (ha : demands.outer d u (s.place u) o)
    (hr : outside d u (s.place u) o = some r) : Commutes (code head) demands s.data b₀ b u (s.place u) o r := by
  have ho : some u ≠ some t := by simpa using hu
  have hnone : (none : Option τ) ≠ some t := (Option.some_ne_none t).symm
  have hfind := runs_find h hb hruns
  have hpass : ∀ ptr, b₀.Runs (s.data.pass none (·.block.ptr = ptr) (some u)) b (d.pass none (·.block.ptr = ptr) (some u)) := by
    intro ptr
    obtain ⟨f, hf, happly⟩ := pass_harmless (d := s.data) hnone ho (·.block.ptr = ptr)
    rw [happly, happly]
    exact runs_touch h hb hruns hf
  cases o with
  | next stray =>
    have hnext : nextStep d u stray (s.place u) = some r := by
      cases hp : s.place u <;> rw [hp] at hr <;> exact hr
    obtain ⟨d', hr', hruns'⟩ := next_runs h hb hruns hu hnext
    refine ⟨d', trivial, ?_, hruns'⟩
    rw [← hr']
    cases s.place u <;> rfl
  | malloc bytes =>
    cases hp : s.place u <;> rw [hp] at hr <;> cases hr
    exact ⟨s.data, ha, rfl, hruns⟩
  | calloc nmemb size =>
    cases hp : s.place u <;> rw [hp] at hr <;> cases hr
    exact ⟨s.data, ha, rfl, hruns⟩
  | realloc ptr bytes =>
    cases hp : s.place u <;> rw [hp] at hr <;> try cases hr
    obtain ⟨x, hx, rfl⟩ := Option.map_eq_some_iff.mp hr
    refine ⟨_, ha, ?_, hpass ptr⟩
    exact Option.map_eq_some_iff.mpr ⟨x, (hfind ptr).symm.trans hx, rfl⟩
  | free ptr =>
    cases hp : s.place u <;> rw [hp] at hr <;> try cases hr
    simp only [outside] at hr
    split at hr
    · rename_i hz
      cases hr
      exact ⟨s.data, trivial, if_pos hz, hruns⟩
    · rename_i hne
      obtain ⟨x, hx, rfl⟩ := Option.map_eq_some_iff.mp hr
      refine ⟨_, trivial, (if_neg hne).trans ?_, hpass ptr⟩
      exact Option.map_eq_some_iff.mpr ⟨x, (hfind ptr).symm.trans hx, rfl⟩
  | write ptr offset byte =>
    cases hp : s.place u <;> rw [hp] at hr <;> try cases hr
    obtain ⟨x, hx, rfl⟩ := Option.map_eq_some_iff.mp hr
    have hx' : s.data.find ptr = some x := (hfind ptr).symm.trans hx
    obtain ⟨hmem, hfree, rfl⟩ := find_spec hx'
    obtain ⟨f, hf, happly⟩ := put_harmless h.blocks hmem (hfree ▸ hnone) (ha x hx) byte
    have hput := runs_touch h hb hruns hf
    rw [← happly, ← happly, hfree] at hput
    refine ⟨_, fun y hy => ha y ((hfind _).trans hy), ?_, hput⟩
    exact Option.map_eq_some_iff.mpr ⟨x, hx', rfl⟩

/-- `free` writes nothing before it is over. -/
theorem free_reads {ptr : BitVec 64} {p : Pc} (d₀ : Shared τ) :
    (freeSection t ptr p).Always (fun b d => (∀ w p, b ≠ .done w p) → d = d₀) d₀ :=
  ⟨fun _ => rfl, fun _ => rfl, fun hno => absurd rfl (hno _ _)⟩

/-- In the middle of a section as well. -/
theorem sound_runs (h : Inv head first s) (hb : sectionAt head t (s.place t) = some b₀) (hruns : b₀.Runs s.data b d) :
    Sound d := by
  by_cases hdone : ∃ w p, b = .done w p
  · obtain ⟨w, p, rfl⟩ := hdone
    obtain ⟨answers, hexec⟩ := hruns.ends (ends_done.mpr rfl)
    exact sound_whole (section_inv h hb hexec).2.blocks
  · have hno : ∀ w p, b ≠ .done w p := fun w p he => hdone ⟨w, p, he⟩
    have hsound := sound_whole h.blocks
    have hentries := (hruns.always (section_idle h hb)).here.entries hno
    refine ⟨fun x hx => ?_, by rw [hentries]; exact hsound.apart⟩
    rw [hentries] at hx
    refine (hsound.holds x hx).unchanged ?_
    have hfree : ∀ {ptr : BitVec 64} {q : Pc}, b₀ = freeSection t ptr q →
        Malloc.Unchanged s.data.heap.mem d.heap.mem (x.block.ptr, x.block.bytes) := by
      rintro ptr q rfl
      rw [(hruns.always (free_reads s.data)).here hno]
      exact Same.refl _ _ _
    have hplaced := h.placed t
    cases hp : s.place t <;> rw [hp] at hb hplaced <;> cases hb
    · rename_i bytes k
      obtain ⟨ks, hm⟩ := h.blocks.row
      obtain ⟨hclear, hhead⟩ := clear_of_live hm (mem_live hx)
      have hsparing := malloc_sparing (t := t) hm hclear (.inl hhead) (Purpose.Asks.below hplaced) k
      exact (hruns.always hsparing).here.same.mono (Nat.sub_le _ _) (Nat.le_refl _)
    · exact hfree rfl
    · exact hfree rfl

end Sections

section Runs

variable [Fintype τ] {head first : BitVec 64}

theorem steady : Steady (code head) demands (Begins (τ := τ) head first) where
  entry_awake _ q := nomatch q
  exit_awake _ _ q := nomatch q
  keeps _ := .inr fun _ => rfl
  outside hs hb hruns hu ha hr := .inl (outside_commutes (reaches_inv hs) hb hruns hu ha hr)

variable {c : Fine (FutexLock.sectionLock (τ := τ)) (Shared τ) Pc Empty Bool}

/-- The accesses so far are those of whole calls, but for the section under way. -/
theorem reaches_sound (h : Reaches (FineInitial (Begins head first)) (fineStep (code head)) (FineAdmitted demands) c) :
    ∃ s, Tracks (code head) demands (Begins head first) c s ∧ Inv head first s ∧ Sound c.data := by
  obtain ⟨s, hs⟩ := reaches_atomic steady h
  have hinv := reaches_inv hs.reached
  refine ⟨s, hs, hinv, ?_⟩
  by_cases hq : c.Quiet
  · rw [(hs.matched.quiet hq).1]
    exact sound_whole hinv.blocks
  · obtain ⟨t, b, ht⟩ : ∃ t b, c.spot t = .inside b := by simpa [Fine.Quiet] using hq
    obtain ⟨b₀, hb, hruns⟩ := hs.matched.inside t b ht
    exact sound_runs hinv hb hruns

/-- The places of threads that are in no section are those of the atomic system. -/
theorem Tracks.at_place {s : State τ (Shared τ) Pc} (h : Tracks (code head) demands (Begins head first) c s) {u : τ} {p : Pc}
    (hp : (c.spot u).place = some p) : s.place u = p := by
  rcases h.matched.place u p hp with he | ⟨t, b, -, hput⟩
  · exact he
  · cases hput.1

/-- A memory that is full of sevens but for the first page. -/
def dirty : Malloc.Heap := ⟨fun a => if a < 4096 then 0 else 7, 0, 4096⟩

theorem dirty_initial : Malloc.Initial 16 4096 ⟨dirty, []⟩ where
  limit := rfl
  brk := rfl
  empty := by decide +kernel
  live := rfl
  above := by decide
  below := by decide
  aligned := by decide

/-- The start of a section of `t`, as far as `n` instructions. -/
def inSection (t : τ) (n : Nat) : List (FineAction (FutexLock.sectionLock (τ := τ)) Bool Outside) :=
  [.lock t, .within (.lockCas t), .enter t] ++ List.replicate n (.instr t)

def afterSection (t : τ) : List (FineAction (FutexLock.sectionLock (τ := τ)) Bool Outside) :=
  [.leave t none, .within (.unlockCas t), .within (.futexWake t none), .finish t]

/-- `t` calls `calloc(1, 1)`, and clears the byte while `u` is in the section of a `malloc`. -/
def zeroedBetween (t u : τ) : List (FineAction (FutexLock.sectionLock (τ := τ)) Bool Outside) :=
  [.outer t (.calloc 1 1)] ++ inSection t 6 ++ [.ask t true] ++ List.replicate 18 (.instr t) ++ afterSection t ++
    [.outer t (.next 0), .outer u (.malloc 8)] ++ inSection u 3 ++ [.outer t (.next 0), .outer t (.next 0)]

/-- The block that a call of `calloc` is about to return. -/
def calloced : Spot (Shared τ) Pc Empty Bool → Option (BitVec 64 × BitVec 64)
  | .out (.back ptr bytes .calloc) => some (ptr, bytes)
  | _ => none

theorem zeroedBetween_reached : ∃ c : Fine (FutexLock.sectionLock (τ := Fin 2)) (Shared (Fin 2)) Pc Empty Bool,
    Reaches (FineInitial (Begins 16 4096)) (fineStep (code 16)) (FineAdmitted demands) c ∧
    ¬c.Quiet ∧ calloced (c.spot 0) = some (4112, 1) ∧ c.data.heap.mem 4113 = 7 := by
  let atRest : Fine (FutexLock.sectionLock (τ := Fin 2)) (Shared (Fin 2)) Pc Empty Bool :=
    ⟨FutexLock.State.start, ⟨dirty, []⟩, fun _ => .out (.out 0)⟩
  have hinit : FineInitial (Begins 16 4096) atRest :=
    ⟨⟨atRest.data, fun _ => .out 0⟩, ⟨dirty_initial, fun _ => ⟨0, rfl⟩⟩, rfl⟩
  have hr := Reaches.run_get hinit (show (run (fineStep (code 16)) (FineAdmitted demands)
    (zeroedBetween 0 1) atRest).isSome from by decide +kernel)
  exact ⟨_, hr, by decide +kernel, by decide +kernel, by decide +kernel⟩

/-- Access by access, under `tb_futex_lock`: at every access of every thread each block in use holds what was put
in it, no two blocks have a byte in common, and whenever nobody is in a section the chunks tile the heap. -/
theorem heap_accesses_hold
    (h : Reaches (FineInitial (Begins head first)) (fineStep (code head)) (FineAdmitted demands) c) :
    (∀ x ∈ c.data.entries, ∀ i < x.block.bytes.toNat,
      c.data.heap.mem (x.block.ptr + BitVec.ofNat 64 i) = x.block.content i) ∧
    (c.data.entries.Pairwise fun x y => x.block.ptr.toNat + x.block.bytes.toNat ≤ y.block.ptr.toNat ∨
      y.block.ptr.toNat + y.block.bytes.toNat ≤ x.block.ptr.toNat) ∧
    (c.Quiet → ∃ l, Malloc.Tiled head first ⟨c.data.heap, c.data.entries.map fun x => (x.block.ptr, x.block.bytes)⟩ l) := by
  obtain ⟨s, hs, hinv, hsound⟩ := reaches_sound h
  refine ⟨hsound.holds, hsound.apart, fun hq => ?_⟩
  obtain ⟨ks, hm⟩ := hinv.blocks.row
  have htiled := hm.tiled
  rw [(hs.matched.quiet hq).1]
  simp only [HeapBlocks.State.plain, Shared.whole, List.map_map] at htiled
  exact ⟨_, htiled⟩

theorem heap_accesses_hold_between :
    ∃ c : Fine (FutexLock.sectionLock (τ := Fin 2)) (Shared (Fin 2)) Pc Empty Bool, ¬c.Quiet ∧
      calloced (c.spot 0) = some (4112, 1) ∧ ∀ x ∈ c.data.entries, ∀ i < x.block.bytes.toNat,
        c.data.heap.mem (x.block.ptr + BitVec.ofNat 64 i) = x.block.content i := by
  obtain ⟨c, hr, hq, ht, -⟩ := zeroedBetween_reached
  exact ⟨c, hq, ht, (heap_accesses_hold hr).1⟩

/-- Whatever other threads do meanwhile: when `malloc`, `calloc` or `realloc` is about to return a block, the block is
the caller's, it is all 0 after `calloc`, and after `realloc` it has the bytes of the old one, as far as both go. -/
theorem heap_accesses_return
    (h : Reaches (FineInitial (Begins head first)) (fineStep (code head)) (FineAdmitted demands) c) {t : τ}
    {ptr bytes : BitVec 64} {k : Purpose} (ht : c.spot t = .out (.back ptr bytes k)) (hptr : ptr ≠ 0) :
    (∃ x ∈ c.data.entries, x.owner = some t ∧ x.block.ptr = ptr ∧ x.block.bytes = bytes) ∧
    k.Filled bytes fun i => c.data.heap.mem (ptr + BitVec.ofNat 64 i) := by
  obtain ⟨s, hs, hinv, hsound⟩ := reaches_sound h
  have hplaced := hinv.placed t
  rw [Tracks.at_place hs (p := .back ptr bytes k) (by rw [ht]; rfl)] at hplaced
  obtain ⟨content, hhas, hfilled⟩ := hplaced hptr
  have hmem : ⟨⟨ptr, bytes, content⟩, some t⟩ ∈ c.data.entries := by
    by_cases hq : c.Quiet
    · rw [(hs.matched.quiet hq).1]
      exact hhas
    · obtain ⟨u, b, hu⟩ : ∃ u b, c.spot u = .inside b := by simpa [Fine.Quiet] using hq
      obtain ⟨b₀, hb, hruns⟩ := hs.matched.inside u b hu
      have hne : u ≠ t := by
        rintro rfl
        rw [ht] at hu
        cases hu
      exact (runs_mem hinv hb hruns (by simpa using hne.symm)).mpr hhas
  refine ⟨⟨_, hmem, rfl, rfl, rfl⟩, ?_⟩
  have hholds : ∀ i < bytes.toNat, c.data.heap.mem (ptr + BitVec.ofNat 64 i) = content i := hsound.holds _ hmem
  cases k with
  | malloc => trivial
  | calloc => exact fun i hi => (hholds i hi).trans (hfilled i hi)
  | realloc old => exact fun i hi => (hholds i (by omega)).trans (hfilled i hi)

theorem heap_accesses_return_between :
    ∃ c : Fine (FutexLock.sectionLock (τ := Fin 2)) (Shared (Fin 2)) Pc Empty Bool, ¬c.Quiet ∧
      c.data.heap.mem 4112 = 0 ∧ c.data.heap.mem 4113 = 7 := by
  obtain ⟨c, hr, hq, ht, hnext⟩ := zeroedBetween_reached
  have ht : c.spot 0 = .out (.back 4112 1 .calloc) := by
    unfold calloced at ht
    split at ht
    · rename_i he
      cases ht
      exact he
    · cases ht
  exact ⟨c, hq, (heap_accesses_return hr ht (by decide)).2 0 (by decide), hnext⟩

end Runs

end ThreadBites.HeapThreads

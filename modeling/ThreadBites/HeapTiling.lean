import ThreadBites.MallocTiling

/-!
# What a program can rely on

The tiling, read off the memory: the chunks are those that `head->next` leads to,
and sizes are read with the bit of `MEMCHUNK_USED` cleared.
-/
namespace ThreadBites.Malloc

open Transition ByteMemory Tiling

/-- The size of a chunk, without the bit of `MEMCHUNK_USED`. -/
def payload (m : Memory) (p : BitVec 64) : Nat := (size m p &&& ~~~MEMCHUNK_USED).toNat

/-- The size of the chunk that holds a block. -/
def blockBytes (m : Memory) (b : BitVec 64 × BitVec 64) : Nat := payload m (b.1 - sizeofMemchunk)

/-- `l` are the chunks that a chunk's `next` leads to. -/
def Follows (m : Memory) : BitVec 64 → List (BitVec 64) → Prop
  | p, [] => next m p = 0
  | p, q :: l => next m p = q ∧ q ≠ 0 ∧ Follows m q l

/-- The chunks fill the addresses from one to another, each beginning where the one before ends. -/
def Fills (m : Memory) : Nat → List (BitVec 64) → Nat → Prop
  | a, [], e => a = e
  | a, p :: l, e => p.toNat = a ∧ Fills m (a + 16 + payload m p) l e

/-- Two ranges of addresses have nothing in common. -/
def Apart (a n b k : Nat) : Prop := a + n ≤ b ∨ b + k ≤ a

/-- The chunks tile the heap, and the used ones are the blocks that the program holds. -/
structure Tiled (head first : BitVec 64) (s : State) (l : List (BitVec 64)) : Prop where
  follows : Follows s.heap.mem head l
  fills : s.heap.limit = 0 ∧ l = [] ∨ Fills s.heap.mem first.toNat l s.heap.limit.toNat
  ordered : l.Pairwise fun p q => p.toNat < q.toNat
  sizes : ∀ p ∈ l, payload s.heap.mem p % 8 = 0 ∧ 16 ≤ payload s.heap.mem p
  used : ∀ p ∈ l, size s.heap.mem p &&& MEMCHUNK_USED ≠ 0 ↔ p + sizeofMemchunk ∈ s.live.map Prod.fst
  held : ∀ b ∈ s.live, b.1 - sizeofMemchunk ∈ l ∧ b.2.toNat ≤ blockBytes s.heap.mem b
  counts : heapState head s.heap = some (l.length, s.live.length)
  disjoint : s.live.Pairwise fun b c =>
    Apart b.1.toNat (blockBytes s.heap.mem b) c.1.toNat (blockBytes s.heap.mem c)
  clear : ∀ b ∈ s.live, Apart b.1.toNat (blockBytes s.heap.mem b) head.toNat 16 ∧
    ∀ p ∈ l, Apart b.1.toNat (blockBytes s.heap.mem b) p.toNat 16

/-- The addresses of the chunks of a row. -/
def addresses (a : Nat) (ks : List Chunk) : List (BitVec 64) :=
  (laid Chunk.len a ks).map fun p => BitVec.ofNat 64 p.1

theorem Headers.mem_laid {m : Memory} {e : BitVec 64} {a : Nat} {ks : List Chunk} (h : Headers m e a ks)
    {p : Nat × Chunk} (hp : p ∈ laid Chunk.len a ks) : size m (BitVec.ofNat 64 p.1) = p.2.word := by
  induction ks generalizing a with
  | nil => cases hp
  | cons k ks ih =>
    rcases List.mem_cons.mp hp with rfl | hp
    · exact h.1
    · exact ih h.2.2 hp

theorem payload_of_word {m : Memory} {p : BitVec 64} {k : Chunk} (h : size m p = k.word) (hk : k.bytes < 2 ^ 48) :
    payload m p = k.bytes := by
  rw [payload, h, Chunk.word_and_not_used (by omega), toNat_ofNat_of_lt hk]

theorem Linked.follows {m : Memory} {head : BitVec 64} {a : Nat} {ks : List Chunk} (h : Linked m head a ks 0)
    (ha : 0 < a) (hb : stop Chunk.len a ks < 2 ^ 47) : Follows m head (addresses a ks) := by
  induction ks generalizing head a with
  | nil => exact h.first
  | cons k ks ih =>
    have hle := le_stop Chunk.len (a + k.len) ks
    have hpos := k.len_pos
    simp only [stop] at hb
    exact ⟨h.first, ofNat_ne_zero ha (by omega), ih h.tail (by omega) hb⟩

theorem Headers.fills {m : Memory} {a : Nat} {ks : List Chunk} (h : Headers m 0 a ks)
    (hb : stop Chunk.len a ks < 2 ^ 47) : Fills m a (addresses a ks) (stop Chunk.len a ks) := by
  induction ks generalizing a with
  | nil => rfl
  | cons k ks ih =>
    have hle := le_stop Chunk.len (a + k.len) ks
    have hlen : k.len = 16 + k.bytes := rfl
    simp only [stop] at hb
    have hend : a + 16 + payload m (BitVec.ofNat 64 a) = a + k.len := by
      rw [payload_of_word h.1 (by omega), hlen]
      omega
    refine ⟨toNat_ofNat_of_lt (by omega), ?_⟩
    rw [hend]
    exact ih h.2.2 hb

/-- `tb_heap_state` counts the chunks and the blocks. -/
theorem heapStateLoop_eq {m : Memory} {head : BitVec 64} {a : Nat} {ks : List Chunk} (h : Linked m head a ks 0)
    (ha : 0 < a) (hb : stop Chunk.len a ks < 2 ^ 47) {n : Nat} (hn : ks.length < n) (total allocated : Nat) :
    heapStateLoop m n head total allocated = some (total + ks.length, allocated + (blocks a ks).length) := by
  induction ks generalizing head a n total allocated with
  | nil =>
    obtain ⟨n, rfl⟩ : ∃ i, n = i + 1 := ⟨n - 1, by omega⟩
    have hz : next m head = 0 := h.first
    simp [heapStateLoop, hz, blocks, laid]
  | cons k ks ih =>
    obtain ⟨n, rfl⟩ : ∃ i, n = i + 1 := ⟨n - 1, by omega⟩
    have hle := le_stop Chunk.len (a + k.len) ks
    have hlen : k.len = 16 + k.bytes := rfl
    simp only [stop] at hb
    have hfirst : next m head = BitVec.ofNat 64 a := h.first
    have hne : BitVec.ofNat 64 a ≠ 0 := ofNat_ne_zero ha (by omega)
    have hsize : size m (BitVec.ofNat 64 a) = k.word := h.headers.1
    have hused := Chunk.word_and_used (k := k) (by omega)
    have htail := fun total allocated => ih h.tail (by omega) hb (n := n) (by simpa using hn) total allocated
    simp only [heapStateLoop, hfirst, hne, if_false, hsize, htail]
    cases hr : k.request with
    | none =>
      have hz := hused.mpr hr
      rw [hz, blocks_free a hr, if_neg (by simp), List.length_cons, Nat.add_assoc, Nat.add_comm 1]
    | some r =>
      have hz : k.word &&& MEMCHUNK_USED ≠ 0 := fun hz => by
        rw [hused, hr] at hz
        cases hz
      have hcons : (blocks a (k :: ks)).length = (blocks (a + k.len) ks).length + 1 := by
        simp [blocks, laid, block, hr]
      rw [if_pos hz, hcons, List.length_cons]
      congr 2 <;> omega

/-- What the memory says of a chunk of the row. -/
structure Placed (m : Memory) (first limit : Nat) (p : Nat × Chunk) : Prop where
  word : size m (BitVec.ofNat 64 p.1) = p.2.word
  payload : payload m (BitVec.ofNat 64 p.1) = p.2.bytes
  address : (BitVec.ofNat 64 p.1).toNat = p.1
  low : first ≤ p.1
  high : p.1 + 16 + p.2.bytes ≤ limit

theorem Models.placed {head first : BitVec 64} {s : State} {ks : List Chunk} (h : Models head first s ks)
    {p : Nat × Chunk} (hp : p ∈ laid Chunk.len first.toNat ks) :
    Placed s.heap.mem first.toNat (stop Chunk.len first.toNat ks) p := by
  have hbelow := h.below
  have hlen : p.2.len = 16 + p.2.bytes := rfl
  obtain ⟨hlo, hhi⟩ := laid_bounds hp
  have hword := h.linked.headers.mem_laid hp
  exact ⟨hword, payload_of_word hword (by omega), toNat_ofNat_of_lt (by omega), hlo, by omega⟩

/-- What the memory says of a block. -/
theorem Models.placed_block {head first : BitVec 64} {s : State} {ks : List Chunk} (h : Models head first s ks)
    {b : BitVec 64 × BitVec 64} (hb : b ∈ blocks first.toNat ks) :
    ∃ p ∈ laid Chunk.len first.toNat ks, p.2.request = some b.2 ∧ b.1.toNat = p.1 + 16 ∧
      b.1 - sizeofMemchunk = BitVec.ofNat 64 p.1 ∧ blockBytes s.heap.mem b = p.2.bytes := by
  have hbelow := h.below
  obtain ⟨p, hp, hr, he⟩ := mem_blocks hb
  have hplaced := h.placed hp
  have hhigh := hplaced.high
  have hchunk : b.1 - sizeofMemchunk = BitVec.ofNat 64 p.1 := by
    rw [he, ← ofNat_add_sizeofMemchunk, BitVec.add_sub_cancel]
  refine ⟨p, hp, hr, ?_, hchunk, ?_⟩
  · rw [he, toNat_ofNat_of_lt (by omega)]
  · rw [blockBytes, hchunk, hplaced.payload]

theorem Models.used {head first : BitVec 64} {s : State} {ks : List Chunk} (h : Models head first s ks)
    {p : Nat × Chunk} (hp : p ∈ laid Chunk.len first.toNat ks) :
    size s.heap.mem (BitVec.ofNat 64 p.1) &&& MEMCHUNK_USED ≠ 0 ↔
      BitVec.ofNat 64 p.1 + sizeofMemchunk ∈ s.live.map Prod.fst := by
  have hbelow := h.below
  have hplaced := h.placed hp
  have hhigh := hplaced.high
  rw [hplaced.word, Ne, Chunk.word_and_used (by omega), ofNat_add_sizeofMemchunk]
  constructor
  · intro hr
    obtain ⟨r, hr⟩ := Option.ne_none_iff_exists'.mp hr
    have hb : (BitVec.ofNat 64 (p.1 + 16), r) ∈ blocks first.toNat ks :=
      List.mem_filterMap.mpr ⟨p, hp, by simp [block, hr]⟩
    exact List.mem_map.mpr ⟨_, h.live.mem_iff.mpr hb, rfl⟩
  · intro hb
    obtain ⟨b, hb, he⟩ := List.mem_map.mp hb
    obtain ⟨q, hq, hr, hnat, -, -⟩ := h.placed_block (h.live.mem_iff.mp hb)
    rw [he, toNat_ofNat_of_lt (by omega)] at hnat
    have hpos := p.2.len_pos
    have hpos' := q.2.len_pos
    rcases laid_apart hp hq with rfl | hlt | hlt
    · simp [hr]
    · omega
    · omega

/-- Two different blocks have nothing in common. -/
theorem Models.disjoint {head first : BitVec 64} {s : State} {ks : List Chunk} (h : Models head first s ks) :
    s.live.Pairwise fun b c =>
      Apart b.1.toNat (blockBytes s.heap.mem b) c.1.toNat (blockBytes s.heap.mem c) := by
  refine (h.live.pairwise_iff fun hbc => hbc.symm).mpr ?_
  refine (blocks_sorted h.below).imp_of_mem fun {b c} hb hc hlt => ?_
  obtain ⟨p, hp, -, hpa, -, hpb⟩ := h.placed_block hb
  obtain ⟨q, hq, -, hqa, -, hqb⟩ := h.placed_block hc
  have hlen : p.2.len = 16 + p.2.bytes := rfl
  rw [Apart, hpa, hpb, hqa, hqb]
  rcases laid_apart hp hq with rfl | hpq | hqp
  · omega
  · exact .inl (by omega)
  · have := q.2.len_pos
    omega

/-- No block reaches into a header. -/
theorem Models.clear {head first : BitVec 64} {s : State} {ks : List Chunk} (h : Models head first s ks)
    {b : BitVec 64 × BitVec 64} (hb : b ∈ s.live) : Apart b.1.toNat (blockBytes s.heap.mem b) head.toNat 16 ∧
      ∀ q ∈ addresses first.toNat ks, Apart b.1.toNat (blockBytes s.heap.mem b) q.toNat 16 := by
  have habove := h.above
  obtain ⟨p, hp, -, hpa, -, hpb⟩ := h.placed_block (h.live.mem_iff.mp hb)
  have hlow := (h.placed hp).low
  have hlen : p.2.len = 16 + p.2.bytes := rfl
  rw [hpa, hpb]
  refine ⟨.inr (by omega), fun a ha => ?_⟩
  obtain ⟨q, hq, rfl⟩ := List.mem_map.mp ha
  have hlen' : q.2.len = 16 + q.2.bytes := rfl
  rw [(h.placed hq).address, Apart]
  rcases laid_apart hp hq with rfl | hpq | hqp <;> omega

theorem Models.tiled {head first : BitVec 64} {s : State} {ks : List Chunk} (h : Models head first s ks) :
    Tiled head first s (addresses first.toNat ks) where
  follows := by
    have habove := h.above
    have hlinked := h.linked
    rw [ofNat_toNat_head] at hlinked
    exact hlinked.follows (by omega) h.below
  fills := by
    rcases h.limit with ⟨hz, rfl⟩ | hl
    · exact .inl ⟨hz, rfl⟩
    · have hbelow := h.below
      rw [hl, h.brk, toNat_ofNat_of_lt (by omega)]
      exact .inr (h.linked.headers.fills hbelow)
  ordered := by
    refine List.pairwise_map.mpr ((laid_sorted Chunk.len_pos first.toNat ks).imp_of_mem fun hp hq hlt => ?_)
    rwa [(h.placed hp).address, (h.placed hq).address]
  sizes := by
    intro a ha
    obtain ⟨p, hp, rfl⟩ := List.mem_map.mp ha
    rw [(h.placed hp).payload]
    exact ⟨p.2.aligned, p.2.atLeast⟩
  used := by
    intro a ha
    obtain ⟨p, hp, rfl⟩ := List.mem_map.mp ha
    exact h.used hp
  held := by
    intro b hb
    obtain ⟨p, hp, hr, -, hchunk, hbytes⟩ := h.placed_block (h.live.mem_iff.mp hb)
    rw [hchunk, hbytes]
    exact ⟨List.mem_map.mpr ⟨p, hp, rfl⟩, p.2.holds _ hr⟩
  counts := by
    have habove := h.above
    have hbelow := h.below
    have hlength := length_le_stop first.toNat ks
    have hlinked := h.linked
    rw [ofNat_toNat_head] at hlinked
    rw [heapState, heapStateLoop_eq hlinked (by omega) hbelow (by simp only [fuel]; omega)]
    simp only [Nat.zero_add, addresses, List.length_map, length_laid, h.live.length_eq]
  disjoint := h.disjoint
  clear := fun _ hb => h.clear hb

/-- A step keeps the heap a row of chunks. -/
theorem Models.step {head first : BitVec 64} {s t : State} {ks : List Chunk} {a : Action}
    (h : Models head first s ks) (ha : Admitted s a) (hs : step head s a = some t) :
    ∃ ks', Models head first t ks' := by
  cases a with
  | malloc bytes granted =>
    obtain ⟨u, hu, hmodels, -⟩ := h.malloc ha
    rw [hu] at hs
    cases hs
    exact hmodels
  | free ptr =>
    cases hs
    exact h.free ha
  | write ptr offset byte =>
    cases hs
    exact ⟨ks, h.write ha⟩

theorem Initial.models {head first : BitVec 64} {s : State} (h : Initial head first s) : Models head first s [] where
  above := h.above
  aligned := h.aligned
  linked := ⟨by rw [ofNat_toNat_head]; exact h.empty, trivial⟩
  brk := by rw [h.brk]; exact (ofNat_toNat_head first).symm
  limit := .inl ⟨h.limit, rfl⟩
  below := h.below
  live := by rw [h.live]; exact .refl []

theorem reaches_models {head first : BitVec 64} {s : State} (h : Reaches (Initial head first) (step head) Admitted s) :
    ∃ ks, Models head first s ks :=
  h.invariant (I := fun s => ∃ ks, Models head first s ks) (fun _ h₀ => ⟨[], h₀.models⟩)
    fun _ _ _ _ ⟨_, hm⟩ ha hs => hm.step ha hs

/-- In every reached state the chunks tile the heap, and every call that is admitted returns. -/
theorem heap_tiling {head first : BitVec 64} {s : State} (h : Reaches (Initial head first) (step head) Admitted s) :
    (∃ l, Tiled head first s l) ∧ ∀ a, Admitted s a → (step head s a).isSome := by
  obtain ⟨ks, hm⟩ := reaches_models h
  refine ⟨⟨_, hm.tiled⟩, fun a ha => ?_⟩
  cases a with
  | malloc bytes granted =>
    obtain ⟨t, ht, -⟩ := hm.malloc ha
    rw [ht]
    rfl
  | free ptr => rfl
  | write ptr offset byte => rfl

/-- A memory of zeros, with `head` at 16 and the break at 4096. -/
def blank : State := ⟨⟨fun _ => 0, 0, 4096⟩, []⟩

theorem blank_initial : Initial 16 4096 blank where
  limit := rfl
  brk := rfl
  empty := rfl
  live := rfl
  above := by decide
  below := by decide
  aligned := by decide

/-- A first call of `malloc(100)` that the kernel grants. -/
theorem heap_tiling_served : ∃ s p l, Reaches (Initial 16 4096) (step 16) Admitted s ∧ s.live = [(p, 100)] ∧
    Tiled 16 4096 s l := by
  have ha : Admitted blank (.malloc 100 true) := by decide
  obtain ⟨s, hs, -, hserved⟩ := blank_initial.models.malloc ha
  obtain ⟨p, hp⟩ := hserved rfl
  have hr := (Reaches.start blank_initial).next ha hs
  obtain ⟨l, hl⟩ := (heap_tiling hr).1
  exact ⟨s, p, l, hr, hp, hl⟩

end ThreadBites.Malloc

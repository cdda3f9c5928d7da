import ThreadBites.HeapSections

/-!
# What the sections of the allocator leave alone

A section writes headers of chunks that it serves, grows the heap by or releases,
so a block that is in use keeps its bytes and its size. And it reads no byte of one,
so what other threads do to their blocks meanwhile makes no difference to it.
-/
namespace ThreadBites.HeapThreads

open Transition ByteMemory CriticalSections Tiling
open Malloc (Heap MEMCHUNK_USED sizeofMemchunk allocSize chunkSize)
open HeapBlocks (Block)

variable {τ : Type}

/-- What a thread does to the data without the lock: it may write a byte, and change what is known of entries. -/
structure Touch (τ : Type) where
  byte : Option (BitVec 64 × BitVec 8)
  change : Entry τ → Entry τ

def Touch.mem (f : Touch τ) (m : Memory) : Memory :=
  match f.byte with
  | none => m
  | some (a, b) => Function.update m a b

def Touch.apply (f : Touch τ) (d : Shared τ) : Shared τ :=
  { d with heap := { d.heap with mem := f.mem d.heap.mem }, entries := d.entries.map f.change }

/-- The byte is one from `lo` on below `hi`, and no entry of `t` is concerned. -/
structure Touch.Within (f : Touch τ) (lo hi : Nat) (t : τ) : Prop where
  byte : ∀ a b, f.byte = some (a, b) → lo ≤ a.toNat ∧ a.toNat < hi
  own : ∀ x : Entry τ, x.owner = some t → f.change x = x
  foreign : ∀ x : Entry τ, x.owner ≠ some t → (f.change x).owner ≠ some t
  ptr : ∀ x : Entry τ, (f.change x).block.ptr = x.block.ptr

theorem store_update_comm (m : Memory) {a w : BitVec 64} (v : Nat) (b : BitVec 8) {k : Nat}
    (h : ∀ i < k, w ≠ a + BitVec.ofNat 64 i) :
    store (Function.update m w b) a v k = Function.update (store m a v k) w b := by
  induction k generalizing m a v with
  | zero => rfl
  | succ k ih =>
    have h₀ : w ≠ a := by simpa using h 0 (Nat.succ_pos k)
    simp only [store]
    rw [Function.update_comm h₀, ih]
    intro i hi
    rw [add_one_add]
    exact h (i + 1) (by omega)

/-- A word does not contain an address below it or behind it. -/
theorem ne_of_apart {a w : BitVec 64} {lo hi : Nat} (ha : a.toNat + 8 ≤ 2 ^ 64)
    (hw : lo ≤ w.toNat ∧ w.toNat < hi) (h : a.toNat + 8 ≤ lo ∨ hi ≤ a.toNat) :
    ∀ i < 8, w ≠ a + BitVec.ofNat 64 i := by
  intro i hi he
  have he := congrArg BitVec.toNat he
  simp only [BitVec.toNat_add, BitVec.toNat_ofNat] at he
  omega

theorem Touch.Within.load64_mem {f : Touch τ} {lo hi : Nat} {t : τ} (hf : f.Within lo hi t) (m : Memory) {a : BitVec 64}
    (ha : a.toNat + 8 ≤ 2 ^ 64) (h : a.toNat + 8 ≤ lo ∨ hi ≤ a.toNat) : load64 (f.mem m) a = load64 m a := by
  unfold Touch.mem
  cases hb : f.byte with
  | none => rfl
  | some wb =>
    obtain ⟨w, b⟩ := wb
    have hne := ne_of_apart ha (hf.byte w b hb) h
    exact congrArg (BitVec.ofNat 64) (load_congr fun i hi => Function.update_of_ne (hne i hi).symm _ _)

theorem Touch.Within.store64_mem {f : Touch τ} {lo hi : Nat} {t : τ} (hf : f.Within lo hi t) (m : Memory) {a : BitVec 64}
    (v : BitVec 64) (ha : a.toNat + 8 ≤ 2 ^ 64) (h : a.toNat + 8 ≤ lo ∨ hi ≤ a.toNat) :
    store64 (f.mem m) a v = f.mem (store64 m a v) := by
  unfold Touch.mem
  cases hb : f.byte with
  | none => rfl
  | some wb =>
    obtain ⟨w, b⟩ := wb
    exact store_update_comm m _ b (ne_of_apart ha (hf.byte w b hb) h)

/-- What the bytes of a new block are is none of what is done elsewhere. -/
theorem Touch.Within.found_mem {f : Touch τ} {lo hi : Nat} {t : τ} (hf : f.Within lo hi t) (m : Memory) {ptr bytes : BitVec 64}
    (hptr : ptr.toNat + bytes.toNat ≤ 2 ^ 64) (hout : ptr.toNat + bytes.toNat ≤ lo ∨ hi ≤ ptr.toNat) :
    found (f.mem m) ptr bytes = found m ptr bytes := by
  funext i
  unfold found
  split
  · rename_i hi
    unfold Touch.mem
    cases hb : f.byte with
    | none => rfl
    | some wb =>
      obtain ⟨w, b⟩ := wb
      have hw := hf.byte w b hb
      refine Function.update_of_ne (fun he => ?_) _ _
      have he := congrArg BitVec.toNat he
      simp only [BitVec.toNat_add, BitVec.toNat_ofNat] at he
      omega
  · rfl

theorem Touch.Within.give {f : Touch τ} {lo hi : Nat} {t : τ} (hf : f.Within lo hi t) (d : Shared τ) {ptr bytes : BitVec 64}
    (hptr : ptr.toNat + bytes.toNat ≤ 2 ^ 64) (hout : ptr.toNat + bytes.toNat ≤ lo ∨ hi ≤ ptr.toNat) :
    (f.apply d).give t ptr bytes = f.apply (d.give t ptr bytes) := by
  unfold Shared.give
  split
  · rfl
  · change Shared.mk _ (_ :: _) = Shared.mk _ (f.change _ :: _)
    rw [hf.own _ rfl]
    have hfound : found (f.apply d).heap.mem ptr bytes = found d.heap.mem ptr bytes := hf.found_mem _ hptr hout
    rw [hfound]
    rfl

/-- The size that a new chunk is given stays when it is made the last one. -/
theorem size_linked (m : Memory) {a : BitVec 64} (v : BitVec 64) (ha : a.toNat + 16 ≤ 2 ^ 64) :
    Malloc.size (store64 (store64 m (a + 8) v) a 0) a = v := by
  obtain ⟨l, rfl⟩ : ∃ l, a = BitVec.ofNat 64 l := ⟨a.toNat, (Malloc.ofNat_toNat_head a).symm⟩
  have hl : BitVec.ofNat 64 l = BitVec.ofNat 64 (l % 2 ^ 64) := by
    apply BitVec.eq_of_toNat_eq
    simp
  rw [BitVec.toNat_ofNat] at ha
  rw [hl, Malloc.size, Malloc.ofNat_add_eight, load64_store64_other _ _ (by omega) (by omega) (by omega)]
  exact load64_store64 _ _ _

section Sparing

variable {lo hi : Nat} {t : τ} {d₀ d : Shared τ}

/-- The bytes from 8 below `lo` up to `hi` are as they were, and no block was taken into use or released. -/
structure Spared (lo hi : Nat) (d₀ d : Shared τ) : Prop where
  same : Same d₀.heap.mem d.heap.mem (lo - 8) hi
  entries : d.entries = d₀.entries

theorem Spared.refl : Spared lo hi d d := ⟨Same.refl _ _ _, rfl⟩

theorem Spared.setMem (h : Spared lo hi d₀ d) {a : BitVec 64} (v : BitVec 64) (ha : a.toNat + 8 ≤ 2 ^ 64)
    (hhi : hi ≤ 2 ^ 64) (hout : a.toNat + 8 ≤ lo - 8 ∨ hi ≤ a.toNat) :
    Spared lo hi d₀ (d.setMem (store64 d.heap.mem a v)) := by
  refine ⟨h.same.trans ?_, h.entries⟩
  have hsame : Same _ _ (lo - 8) hi := same_store64 d.heap.mem v ha hhi (by omega)
  rwa [Malloc.ofNat_toNat_head] at hsame

@[simp] theorem give_heap (ptr bytes : BitVec 64) : (d.give t ptr bytes).heap = d.heap := by
  unfold Shared.give
  split <;> rfl

variable [DecidableEq τ]

/-- At a point of a section of `t`: the bytes are as they were, and what is done to them from `lo` on makes
no difference to the next instruction. The last one takes a block into use, or releases one of `t`. -/
structure Sparing (lo hi : Nat) (t : τ) (d₀ : Shared τ) (b : Section τ) (d : Shared τ) : Prop where
  same : Same d₀.heap.mem d.heap.mem (lo - 8) hi
  others : d.entries.filter (fun x => x.owner ≠ some t) = d₀.entries.filter fun x => x.owner ≠ some t
  entries : (∀ w p, b ≠ .done w p) → d.entries = d₀.entries
  ignores : ∀ f : Touch τ, f.Within lo hi t → ∀ effect rest, b = .instr effect rest →
    rest (f.apply d) = rest d ∧ effect (f.apply d) = f.apply (effect d)

theorem Spared.sparing (h : Spared lo hi d₀ d) {b : Section τ}
    (hf : ∀ f : Touch τ, f.Within lo hi t → ∀ effect rest, b = .instr effect rest →
      rest (f.apply d) = rest d ∧ effect (f.apply d) = f.apply (effect d)) : Sparing lo hi t d₀ b d :=
  ⟨h.same, congrArg _ h.entries, fun _ => h.entries, hf⟩

theorem Spared.done (h : Spared lo hi d₀ d) {w : Wake Empty} {p : Pc} : Sparing lo hi t d₀ (.done w p) d := h.sparing nofun

theorem always_readWord (h : Spared lo hi d₀ d) {a : BitVec 64} {rest : BitVec 64 → Section τ}
    (ha : a.toNat + 8 ≤ 2 ^ 64) (hout : a.toNat + 8 ≤ lo ∨ hi ≤ a.toNat)
    (hrest : (rest (load64 d.heap.mem a)).Always (Sparing lo hi t d₀) d) :
    (readWord a rest).Always (Sparing lo hi t d₀) d := by
  refine ⟨h.sparing fun f hf effect rest' he => ?_, hrest⟩
  cases he
  exact ⟨congrArg rest (hf.load64_mem d.heap.mem ha hout), rfl⟩

theorem always_writeWord (h : Spared lo hi d₀ d) {a v : BitVec 64} {rest : Section τ}
    (ha : a.toNat + 8 ≤ 2 ^ 64) (hhi : hi ≤ 2 ^ 64) (hout : a.toNat + 8 ≤ lo - 8 ∨ hi ≤ a.toNat)
    (hrest : Spared lo hi d₀ (d.setMem (store64 d.heap.mem a v)) →
      rest.Always (Sparing lo hi t d₀) (d.setMem (store64 d.heap.mem a v))) :
    (writeWord a v rest).Always (Sparing lo hi t d₀) d := by
  refine ⟨h.sparing fun f hf effect rest' he => ?_, hrest (h.setMem v ha hhi hout)⟩
  cases he
  have hstore := hf.store64_mem d.heap.mem v ha (by omega)
  refine ⟨rfl, ?_⟩
  change (f.apply d).setMem (store64 (f.mem d.heap.mem) a v) = f.apply (d.setMem (store64 d.heap.mem a v))
  rw [hstore]
  rfl

/-- An instruction of the limit or of the break. -/
theorem Spared.instr (h : Spared lo hi d₀ d) {effect : Shared τ → Shared τ} {rest : Shared τ → Section τ}
    (hrest : ∀ f : Touch τ, rest (f.apply d) = rest d) (heffect : ∀ f : Touch τ, effect (f.apply d) = f.apply (effect d)) :
    Sparing lo hi t d₀ (.instr effect rest) d := by
  refine h.sparing fun f _ effect' rest' he => ?_
  cases he
  exact ⟨hrest f, heffect f⟩

theorem always_loadLimit (h : Spared lo hi d₀ d) {rest : BitVec 64 → Section τ}
    (hrest : (rest d.heap.limit).Always (Sparing lo hi t d₀) d) :
    (Body.load (·.heap.limit) rest).Always (Sparing lo hi t d₀) d :=
  ⟨h.instr (fun _ => rfl) fun _ => rfl, hrest⟩

theorem always_loadBrk (h : Spared lo hi d₀ d) {rest : BitVec 64 → Section τ}
    (hrest : (rest d.heap.brk).Always (Sparing lo hi t d₀) d) :
    (Body.load (·.heap.brk) rest).Always (Sparing lo hi t d₀) d :=
  ⟨h.instr (fun _ => rfl) fun _ => rfl, hrest⟩

theorem always_setLimit (h : Spared lo hi d₀ d) {v : BitVec 64} {rest : Section τ}
    (hrest : Spared lo hi d₀ (d.setLimit v) → rest.Always (Sparing lo hi t d₀) (d.setLimit v)) :
    (Body.store (·.setLimit v) rest).Always (Sparing lo hi t d₀) d :=
  ⟨h.instr (fun _ => rfl) fun _ => rfl, hrest ⟨h.same, h.entries⟩⟩

theorem always_setBrk (h : Spared lo hi d₀ d) {v : BitVec 64} {rest : Section τ}
    (hrest : Spared lo hi d₀ (d.setBrk v) → rest.Always (Sparing lo hi t d₀) (d.setBrk v)) :
    (Body.store (·.setBrk v) rest).Always (Sparing lo hi t d₀) d :=
  ⟨h.instr (fun _ => rfl) fun _ => rfl, hrest ⟨h.same, h.entries⟩⟩

/-- The chunk at `c`, of `size` bytes behind its header, is out of harm's way. -/
structure Roomy (lo hi : Nat) (c size : BitVec 64) : Prop where
  fits : c.toNat + 16 + size.toNat < 2 ^ 48
  apart : c.toNat + 16 + size.toNat ≤ lo - 8 ∨ hi ≤ c.toNat

theorem filter_give (ptr bytes : BitVec 64) : (d.give t ptr bytes).entries.filter (fun x => x.owner ≠ some t) =
    d.entries.filter fun x => x.owner ≠ some t := by
  unfold Shared.give
  split
  · rfl
  · exact List.filter_cons_of_neg (by simp)

/-- A chunk is taken into use. -/
theorem mark_sparing (h : Spared lo hi d₀ d) (hhi : hi ≤ 2 ^ 64) {c size bytes : BitVec 64} (hc : Roomy lo hi c size)
    (hb : bytes.toNat ≤ size.toNat) (k : Purpose) :
    (markSection t c bytes k).Always (Sparing lo hi t d₀) d := by
  obtain ⟨hfits, hapart⟩ := hc
  have hword : (c + 8).toNat = c.toNat + 8 := by bv_omega
  have hptr : (c + sizeofMemchunk).toNat = c.toNat + 16 := by
    simp only [sizeofMemchunk]
    bv_omega
  refine always_readWord h (by omega) (by omega) ?_
  have hset := h.setMem (load64 d.heap.mem (c + 8) ||| MEMCHUNK_USED) (a := c + 8) (by omega) hhi (by omega)
  have hend : Sparing lo hi t d₀ (.done .nobody (.got (c + sizeofMemchunk) bytes k))
      ((d.setMem (store64 d.heap.mem (c + 8) (load64 d.heap.mem (c + 8) ||| MEMCHUNK_USED))).give t
        (c + sizeofMemchunk) bytes) := by
    refine ⟨?_, ?_, fun hno => absurd rfl (hno _ _), fun _ _ _ _ he => by cases he⟩
    · rw [give_heap]
      exact hset.same
    · rw [filter_give]
      exact congrArg _ hset.entries
  refine ⟨h.sparing fun f hf effect rest he => ?_, hend⟩
  cases he
  refine ⟨rfl, ?_⟩
  have hstore := hf.store64_mem d.heap.mem (load64 d.heap.mem (c + 8) ||| MEMCHUNK_USED) (a := c + 8) (by omega) (by omega)
  change ((f.apply d).setMem (store64 (f.mem d.heap.mem) (c + 8) _)).give t _ bytes = f.apply ((d.setMem _).give t _ bytes)
  rw [hstore]
  exact hf.give (d.setMem _) (by omega) (by omega)

/-- A chunk serves a request. -/
theorem serve_sparing (h : Spared lo hi d₀ d) (hhi : hi ≤ 2 ^ 64) {c bytes : BitVec 64}
    (hc : Roomy lo hi c (Malloc.size d.heap.mem c)) (hb : bytes.toNat < 2 ^ 47)
    (hsize : (allocSize bytes).toNat ≤ (Malloc.size d.heap.mem c).toNat) (k : Purpose) :
    (splitSection c (allocSize bytes) (markSection t c bytes k)).Always (Sparing lo hi t d₀) d := by
  have halloc := Malloc.allocSize_spec hb
  obtain ⟨size, hword⟩ : ∃ size, load64 d.heap.mem (c + 8) = size := ⟨_, rfl⟩
  have hword' : Malloc.size d.heap.mem c = size := hword
  rw [hword'] at hc hsize
  have hmark := fun {d' : Shared τ} (h' : Spared lo hi d₀ d') => mark_sparing (t := t) h' hhi hc (show bytes.toNat ≤ size.toNat by omega) k
  obtain ⟨hfits, hapart⟩ := hc
  have h8 : (c + 8).toNat = c.toNat + 8 := by bv_omega
  refine always_readWord h (by omega) (by omega) ?_
  rw [hword]
  split
  · rename_i hcut
    have hcut : (allocSize bytes).toNat + 32 < size.toNat := by
      simp only [sizeofMemchunk] at hcut
      bv_omega
    have hnew : (c + sizeofMemchunk + allocSize bytes).toNat = c.toNat + 16 + (allocSize bytes).toNat := by
      simp only [sizeofMemchunk]
      bv_omega
    have hnew8 : (c + sizeofMemchunk + allocSize bytes + 8).toNat = c.toNat + 24 + (allocSize bytes).toNat := by
      simp only [sizeofMemchunk]
      bv_omega
    refine always_readWord h (by omega) (by omega) ?_
    refine always_writeWord h (by omega) hhi (by omega) fun h => always_readWord h (by omega) (by omega) ?_
    refine always_writeWord h (by omega) hhi (by omega) fun h => ?_
    refine always_writeWord h (by omega) hhi (by omega) fun h => ?_
    exact always_writeWord h (by omega) hhi (by omega) hmark
  · exact hmark h

/-- The heap grows by a chunk that begins at the old limit. -/
theorem link_sparing (h : Spared lo hi d₀ d) (hhi : hi ≤ 2 ^ 64) {cursor limit newLimit bytes : BitVec 64} {k : Purpose}
    {rest : BitVec 64 → Section τ} (hl : d.heap.limit = limit) (hcursor : cursor.toNat + 8 ≤ lo - 8 ∨ hi ≤ cursor.toNat)
    (hfits : cursor.toNat + 8 ≤ 2 ^ 64) (hlimit : hi ≤ limit.toNat) (hbelow : limit.toNat + 16 ≤ 2 ^ 64)
    (hrest : ∀ d', Spared lo hi d₀ d' → limit ≠ newLimit →
      Malloc.size d'.heap.mem limit = newLimit - limit - sizeofMemchunk → (rest limit).Always (Sparing lo hi t d₀) d') :
    (linkSection bytes cursor newLimit k rest).Always (Sparing lo hi t d₀) d := by
  refine always_loadLimit h (always_loadLimit h ?_)
  rw [hl]
  split
  · exact h.done
  · rename_i hne
    have h8 : (limit + 8).toNat = limit.toNat + 8 := by bv_omega
    refine always_loadLimit h ?_
    rw [hl]
    refine always_writeWord h hfits hhi hcursor fun h₁ => always_readWord h₁ hfits (by omega) ?_
    have hchunk : load64 (d.setMem (store64 d.heap.mem cursor limit)).heap.mem cursor = limit := load64_store64 _ _ _
    rw [hchunk]
    refine always_writeWord h₁ (by omega) hhi (by omega) fun h₂ => ?_
    refine always_writeWord h₂ (by omega) hhi (by omega) fun h₃ => always_setLimit h₃ fun h₄ => ?_
    refine hrest _ h₄ hne ?_
    simp only [setLimit_mem, setMem_mem]
    exact size_linked _ _ hbelow

/-- Where the chunks of a row are: no header holds a byte from `lo` on below `hi`, and what may be
written of a chunk lies below `lo - 8` or from `hi` on. -/
structure Clear (lo hi : Nat) (a : Nat) (ks : List Malloc.Chunk) : Prop where
  header : ∀ p ∈ laid Malloc.Chunk.len a ks, p.1 + 16 ≤ lo ∨ hi ≤ p.1
  pointer : ∀ p ∈ laid Malloc.Chunk.len a ks, p.1 + 8 ≤ lo - 8 ∨ hi ≤ p.1
  unused : ∀ p ∈ laid Malloc.Chunk.len a ks, p.2.request = none → p.1 + p.2.len ≤ lo - 8 ∨ hi ≤ p.1
  stop : hi ≤ stop Malloc.Chunk.len a ks

/-- The search reads headers only. -/
theorem find_sparing (h : Spared lo hi d₀ d) (alloc : BitVec 64) (rest : BitVec 64 → BitVec 64 → Section τ)
    {x a : Nat} {ks : List Malloc.Chunk} (hl : Malloc.Linked d.heap.mem (BitVec.ofNat 64 x) a ks 0) (ha : 0 < a)
    (hb : stop Malloc.Chunk.len a ks < 2 ^ 47) (hx : x + 8 ≤ lo ∨ hi ≤ x) (hxb : x + 8 ≤ 2 ^ 64)
    (hclear : ∀ p ∈ laid Malloc.Chunk.len a ks, p.1 + 16 ≤ lo ∨ hi ≤ p.1)
    (hrest : ∀ pre post chunk, ks = pre ++ post → (∀ k ∈ post.head?, k.fits alloc.toNat = true) →
      (post ≠ [] → chunk = BitVec.ofNat 64 (stop Malloc.Chunk.len a pre)) →
      (rest (Malloc.lastPtr (BitVec.ofNat 64 x) a pre) chunk).Always (Sparing lo hi t d₀) d)
    {n : Nat} (hn : ks.length < n) (chunk : BitVec 64) :
    (findSection alloc rest n (BitVec.ofNat 64 x) chunk).Always (Sparing lo hi t d₀) d := by
  induction ks generalizing x a n chunk with
  | nil =>
    obtain ⟨n, rfl⟩ : ∃ i, n = i + 1 := ⟨n - 1, by omega⟩
    have hxn : (BitVec.ofNat 64 x).toNat = x := by rw [BitVec.toNat_ofNat, Nat.mod_eq_of_lt (by omega)]
    refine always_readWord h (by omega) (by omega) ?_
    rw [if_pos (show load64 d.heap.mem (BitVec.ofNat 64 x) = 0 from hl.first)]
    exact hrest [] [] chunk rfl (by simp) (fun hne => absurd rfl hne)
  | cons k ks ih =>
    obtain ⟨n, rfl⟩ : ∃ i, n = i + 1 := ⟨n - 1, by omega⟩
    have hxn : (BitVec.ofNat 64 x).toNat = x := by rw [BitVec.toNat_ofNat, Nat.mod_eq_of_lt (by omega)]
    have hle := le_stop Malloc.Chunk.len (a + k.len) ks
    have hlen : k.len = 16 + k.bytes := rfl
    simp only [stop] at hb
    have han : (BitVec.ofNat 64 a).toNat = a := by rw [BitVec.toNat_ofNat, Nat.mod_eq_of_lt (by omega)]
    have han8 : (BitVec.ofNat 64 a + 8).toNat = a + 8 := by bv_omega
    have hfirst : load64 d.heap.mem (BitVec.ofNat 64 x) = BitVec.ofNat 64 a := hl.first
    have hne : BitVec.ofNat 64 a ≠ 0 := Malloc.ofNat_ne_zero ha (by omega)
    have hhere := hclear (a, k) (List.mem_cons_self ..)
    simp only at hhere
    have htail : k.fits alloc.toNat = false → ∀ chunk,
        (findSection alloc rest n (BitVec.ofNat 64 a) chunk).Always (Sparing lo hi t d₀) d := by
      intro hno chunk
      refine ih hl.tail (by omega) hb (by omega) (by omega) (fun p hp => hclear p (List.mem_cons_of_mem _ hp))
        (fun pre post chunk he hfits hchunk => ?_) (by simpa using hn) chunk
      exact hrest (k :: pre) post chunk (by rw [he, List.cons_append]) hfits hchunk
    have hsuits : Malloc.suits d.heap.mem alloc (BitVec.ofNat 64 a) = k.fits alloc.toNat :=
      Malloc.suits_eq hl.headers.1 (by omega)
    have hsuits' : Malloc.suits d.heap.mem alloc (BitVec.ofNat 64 a) = true ↔
        load64 d.heap.mem (BitVec.ofNat 64 a + 8) &&& MEMCHUNK_USED = 0 ∧ alloc ≤ load64 d.heap.mem (BitVec.ofNat 64 a + 8) := by
      rw [Malloc.suits, Bool.and_eq_true, decide_eq_true_eq, decide_eq_true_eq]
      rfl
    have hnext : k.fits alloc.toNat = false → ∀ chunk, (readWord (BitVec.ofNat 64 x) fun n' => findSection alloc rest n n' chunk).Always
        (Sparing lo hi t d₀) d := by
      intro hno chunk
      refine always_readWord h (by omega) (by omega) ?_
      rw [hfirst]
      exact htail hno chunk
    refine always_readWord h (by omega) (by omega) ?_
    rw [hfirst, if_neg hne]
    refine always_readWord h (by omega) (by omega) ?_
    rw [hfirst]
    refine always_readWord h (by omega) (by omega) ?_
    rw [hsuits] at hsuits'
    split
    · rename_i hu
      refine always_readWord h (by omega) (by omega) ?_
      split
      · rename_i hsize
        exact hrest [] (k :: ks) _ rfl (by simpa using hsuits'.mpr ⟨hu, hsize⟩) fun _ => rfl
      · rename_i hsize
        exact hnext (Bool.eq_false_iff.mpr fun hf => hsize (hsuits'.mp hf).2) _
    · rename_i hu
      exact hnext (Bool.eq_false_iff.mpr fun hf => hu (hsuits'.mp hf).1) _

theorem chunkSize_lt {bytes : BitVec 64} (hb : bytes.toNat < 2 ^ 47) : (chunkSize bytes).toNat < 2 ^ 48 := by
  rw [Malloc.chunkSize_toNat (by omega), Malloc.pages]
  omega

/-- The chunk that the heap grows by serves the request. -/
theorem grown_sparing (h : Spared lo hi d₀ d) (hhi : hi ≤ 2 ^ 64) {limit bytes : BitVec 64} {k : Purpose}
    (hlimit : hi ≤ limit.toNat) (hbelow : limit.toNat < 2 ^ 47) (hgrant : (limit + chunkSize bytes).toNat < 2 ^ 47)
    (hb : bytes.toNat < 2 ^ 47)
    (hsize : Malloc.size d.heap.mem limit = limit + chunkSize bytes - limit - sizeofMemchunk) :
    (splitSection limit (allocSize bytes) (markSection t limit bytes k)).Always (Sparing lo hi t d₀) d := by
  have hlt := chunkSize_lt hb
  have hchunk := (Malloc.chunkSize_spec hb).2
  rw [BitVec.toNat_add, Nat.mod_eq_of_lt (by omega)] at hgrant
  have hword : (Malloc.size d.heap.mem limit).toNat = (chunkSize bytes).toNat - 16 := by
    have hs : sizeofMemchunk.toNat = 16 := rfl
    rw [hsize, BitVec.toNat_sub, BitVec.toNat_sub, BitVec.toNat_add, hs]
    omega
  exact serve_sparing h hhi ⟨by omega, .inr hlimit⟩ hb (by omega) k

/-- What Linux returns is the old limit, or one that leaves room for the request. -/
theorem brk_sparing (h : Spared lo hi d₀ d) (hhi : hi ≤ 2 ^ 64) {cursor limit bytes : BitVec 64} {k : Purpose}
    (hl : d.heap.limit = limit) (hbrk : d.heap.brk = limit)
    (hcursor : cursor.toNat + 8 ≤ lo - 8 ∨ hi ≤ cursor.toNat) (hfits : cursor.toNat + 8 ≤ 2 ^ 64)
    (hlimit : hi ≤ limit.toNat) (hbelow : limit.toNat < 2 ^ 47) (hb : bytes.toNat < 2 ^ 47) :
    (brkSection (limit + chunkSize bytes) fun newLimit => linkSection bytes cursor newLimit k fun chunk =>
      splitSection chunk (allocSize bytes) (markSection t chunk bytes k)).Always (Sparing lo hi t d₀) d := by
  have hroom : limit.toNat + 16 ≤ 2 ^ 64 := by omega
  refine ⟨h.sparing nofun, fun granted => ?_⟩
  dsimp only
  split
  · rename_i hg
    refine always_setBrk h fun h' => ?_
    refine link_sparing h' hhi ((setBrk_limit _ d).trans hl) hcursor hfits hlimit hroom fun d' h' _ hsize => ?_
    exact grown_sparing h' hhi hlimit hbelow hg.2 hb hsize
  · refine always_loadBrk h (link_sparing h hhi hl hcursor hfits hlimit hroom fun d' _ hne => ?_)
    exact absurd hbrk.symm hne

/-- Before the heap can grow its limit has to be known. -/
theorem grow_sparing (h : Spared lo hi d₀ d) (hhi : hi ≤ 2 ^ 64) {cursor limit bytes : BitVec 64} {k : Purpose}
    (hl : d.heap.limit = 0 ∨ d.heap.limit = limit) (hbrk : d.heap.brk = limit) (hne : limit ≠ 0)
    (hcursor : cursor.toNat + 8 ≤ lo - 8 ∨ hi ≤ cursor.toNat) (hfits : cursor.toNat + 8 ≤ 2 ^ 64)
    (hlimit : hi ≤ limit.toNat) (hbelow : limit.toNat < 2 ^ 47) (hb : bytes.toNat < 2 ^ 47) :
    (growSection bytes cursor k fun chunk =>
      splitSection chunk (allocSize bytes) (markSection t chunk bytes k)).Always (Sparing lo hi t d₀) d := by
  unfold growSection knowLimit
  refine always_loadLimit h ?_
  rcases hl with hz | hl
  · rw [if_pos hz]
    refine always_loadBrk h ?_
    rw [hbrk]
    refine always_setLimit h fun h' => always_loadLimit h' ?_
    rw [setLimit_limit]
    have hl' : (d.setLimit limit).heap.limit = limit := setLimit_limit limit d
    exact brk_sparing h' hhi hl' ((setLimit_brk limit d).trans hbrk) hcursor hfits hlimit hbelow hb
  · rw [if_neg (hl ▸ hne)]
    refine always_loadLimit h ?_
    rw [hl]
    exact brk_sparing h hhi hl hbrk hcursor hfits hlimit hbelow hb

/-- The cursor is at a header whose pointer may be written. -/
theorem Clear.cursor (head : BitVec 64) {a : Nat} {pre post : List Malloc.Chunk} (hclear : Clear lo hi a (pre ++ post))
    (hhead : head.toNat + 8 ≤ lo - 8 ∨ hi ≤ head.toNat) (hbelow : Tiling.stop Malloc.Chunk.len a (pre ++ post) < 2 ^ 47)
    (hlow : head.toNat < 2 ^ 47) :
    ((Malloc.lastPtr head a pre).toNat + 8 ≤ lo - 8 ∨ hi ≤ (Malloc.lastPtr head a pre).toNat) ∧
      (Malloc.lastPtr head a pre).toNat < 2 ^ 47 := by
  rcases Malloc.lastPtr_mem head a pre with he | hmem
  · rw [he]
    exact ⟨hhead, hlow⟩
  · obtain ⟨p, hp, he⟩ := List.mem_map.mp hmem
    have hp' : p ∈ laid Malloc.Chunk.len a (pre ++ post) := by
      rw [laid_append]
      exact List.mem_append_left _ hp
    have hbounds := laid_bounds hp'
    rw [← he, Malloc.toNat_ofNat_of_lt (by omega)]
    exact ⟨hclear.pointer p hp', by omega⟩

/-- The section of `malloc` touches no block. -/
theorem malloc_sparing {head first bytes : BitVec 64} {live : List (BitVec 64 × BitVec 64)} {ks : List Malloc.Chunk}
    (hm : Malloc.Models head first ⟨d.heap, live⟩ ks) (hclear : Clear lo hi first.toNat ks)
    (hhead : head.toNat + 16 ≤ lo - 8 ∨ hi ≤ head.toNat) (hb : bytes.toNat < 2 ^ 47) (k : Purpose) :
    (mallocSection head t bytes k).Always (Sparing lo hi t d) d := by
  have h : Spared lo hi d d := .refl
  have habove := hm.above
  have hbelow := hm.below
  have hstop := hclear.stop
  have hlength := Malloc.length_le_stop first.toNat ks
  have hhi : hi ≤ 2 ^ 64 := by omega
  have hfind := find_sparing (t := t) h (allocSize bytes) (fun cursor chunk => readWord cursor fun n =>
      if n = 0 then growSection bytes cursor k fun chunk => splitSection chunk (allocSize bytes) (markSection t chunk bytes k)
      else splitSection chunk (allocSize bytes) (markSection t chunk bytes k)) hm.linked (by omega) hbelow (by omega)
    (by omega) hclear.header ?_ (n := Malloc.fuel) (by simp only [Malloc.fuel]; omega) 0
  · rwa [Malloc.ofNat_toNat_head] at hfind
  · rintro pre post chunk rfl hfits hchunk
    rw [Malloc.ofNat_toNat_head]
    have hnext := (Malloc.linked_append.mp hm.linked).1.next_lastPtr
    rw [Malloc.ofNat_toNat_head] at hnext
    obtain ⟨hcursor, hlow⟩ := hclear.cursor head (by omega) hbelow (by omega)
    have hnext : load64 d.heap.mem (Malloc.lastPtr head first.toNat pre) =
      Malloc.target (stop Malloc.Chunk.len first.toNat pre) 0 post := hnext
    refine always_readWord h (by omega) (by omega) ?_
    rw [hnext]
    cases post with
    | nil =>
      rw [List.append_nil] at hbelow hstop hm
      have hbrk := hm.brk
      have hlimit : (BitVec.ofNat 64 (stop Malloc.Chunk.len first.toNat pre)).toNat =
        stop Malloc.Chunk.len first.toNat pre := Malloc.toNat_ofNat_of_lt (by omega)
      have hle := le_stop Malloc.Chunk.len first.toNat pre
      rw [if_pos (show Malloc.target _ 0 [] = 0 from rfl)]
      refine grow_sparing h hhi ?_ hbrk (Malloc.ofNat_ne_zero (by omega) (by omega)) hcursor (by omega) (by omega)
        (by omega) hb
      rcases hm.limit with ⟨hz, -⟩ | hl
      · exact .inl hz
      · exact .inr (hl.trans hbrk)
    | cons j post =>
      obtain ⟨hfree, hj⟩ := Malloc.fits_iff.mp (hfits j rfl)
      have hin := Malloc.stop_chunk_le first.toNat pre post j
      have hle := le_stop Malloc.Chunk.len first.toNat pre
      have hlen : j.len = 16 + j.bytes := rfl
      have hmem : (stop Malloc.Chunk.len first.toNat pre, j) ∈ laid Malloc.Chunk.len first.toNat (pre ++ j :: post) := by
        rw [laid_append]
        exact List.mem_append_right _ (List.mem_cons_self ..)
      have hunused : stop Malloc.Chunk.len first.toNat pre + j.len ≤ lo - 8 ∨ hi ≤ stop Malloc.Chunk.len first.toNat pre :=
        hclear.unused _ hmem hfree
      have hsize : Malloc.size d.heap.mem (BitVec.ofNat 64 (stop Malloc.Chunk.len first.toNat pre)) = BitVec.ofNat 64 j.bytes := by
        rw [(Malloc.linked_append.mp hm.linked).2.1, Malloc.Chunk.word, hfree]
        rfl
      have hbytes : (BitVec.ofNat 64 j.bytes).toNat = j.bytes := Malloc.toNat_ofNat_of_lt (by omega)
      have hat := Malloc.toNat_ofNat_of_lt (a := stop Malloc.Chunk.len first.toNat pre) (by omega)
      have hne : Malloc.target (stop Malloc.Chunk.len first.toNat pre) 0 (j :: post) ≠ 0 :=
        Malloc.ofNat_ne_zero (by omega) (by omega)
      rw [if_neg hne, hchunk (List.cons_ne_nil _ _)]
      refine serve_sparing h hhi ⟨?_, ?_⟩ hb ?_ k
      · rw [hsize, hat, hbytes]
        omega
      · rw [hsize, hat, hbytes]
        omega
      · rw [hsize, hbytes]
        exact hj

theorem Touch.Within.isOf {f : Touch τ} (hf : f.Within lo hi t) (ptr : BitVec 64) (x : Entry τ) :
    (f.change x).isOf t ptr = x.isOf t ptr := by
  by_cases hx : x.owner = some t
  · rw [hf.own x hx]
  · have hx' := hf.foreign x hx
    simp only [Entry.isOf, hx, hx', decide_false, Bool.and_false]

theorem Touch.Within.take {f : Touch τ} (hf : f.Within lo hi t) (d : Shared τ) (ptr : BitVec 64) :
    (f.apply d).take t ptr = f.apply (d.take t ptr) := by
  have hmap : (d.entries.map f.change).eraseP (·.isOf t ptr) = (d.entries.eraseP (·.isOf t ptr)).map f.change := by
    rw [List.eraseP_map]
    exact congrArg (fun q => (d.entries.eraseP q).map f.change) (funext (hf.isOf ptr))
  simp only [Shared.take, Touch.apply, hmap]

/-- A release of a block of `t` leaves the entries of the others. -/
theorem filter_take (d : Shared τ) (ptr : BitVec 64) : (d.take t ptr).entries.filter (fun x => x.owner ≠ some t) =
    d.entries.filter fun x => x.owner ≠ some t := by
  rw [Shared.take]
  induction d.entries with
  | nil => rfl
  | cons x l ih =>
    by_cases hx : x.isOf t ptr = true
    · have ho : x.owner = some t := of_decide_eq_true (Bool.and_eq_true_iff.mp hx).2
      rw [List.eraseP_cons_of_pos hx, List.filter_cons_of_neg (by simpa using ho)]
    · rw [List.eraseP_cons_of_neg hx, List.filter_cons, List.filter_cons, ih]

/-- The section of `free` writes to the header of the block. -/
theorem free_sparing {ptr : BitVec 64} (hptr : 16 ≤ ptr.toNat) (hhi : hi ≤ 2 ^ 64)
    (hout : ptr.toNat ≤ lo - 8 ∨ hi + 16 ≤ ptr.toNat) (p : Pc) :
    (freeSection t ptr p).Always (Sparing lo hi t d) d := by
  have h : Spared lo hi d d := .refl
  have hat : (ptr - sizeofMemchunk + 8).toNat = ptr.toNat - 8 := by
    simp only [sizeofMemchunk]
    bv_omega
  obtain ⟨v, hv⟩ : ∃ v, load64 d.heap.mem (ptr - sizeofMemchunk + 8) &&& ~~~MEMCHUNK_USED = v := ⟨_, rfl⟩
  have hset := h.setMem v (a := ptr - sizeofMemchunk + 8) (by omega) hhi (by omega)
  refine always_readWord h (by omega) (by omega) ?_
  rw [hv]
  refine ⟨h.sparing fun f hf effect rest he => ?_, hset.same, ?_, fun hno => absurd rfl (hno _ _), fun _ _ _ _ he => by cases he⟩
  · cases he
    have hstore := hf.store64_mem d.heap.mem v (a := ptr - sizeofMemchunk + 8) (by omega) (by omega)
    refine ⟨rfl, ?_⟩
    change ((f.apply d).setMem (store64 (f.mem d.heap.mem) _ v)).take t ptr = f.apply ((d.setMem _).take t ptr)
    rw [hstore]
    exact hf.take (d.setMem _) ptr
  · exact (filter_take (d.setMem _) ptr).trans (congrArg _ hset.entries)

end Sparing

end ThreadBites.HeapThreads

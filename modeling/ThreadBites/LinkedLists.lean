import Mathlib.Data.List.Chain
import Mathlib.Logic.Function.Basic

/-!
# Doubly linked lists in a memory

A list of nodes is linked when each node points to the next one and back to the one
before it, and the last one points to nothing. Inserting or removing a node keeps a
list linked, and so does whatever leaves its nodes alone.
-/
namespace LinkedLists

universe u

variable {α ε : Type u}

structure Node (α ε : Type u) where
  next : Option α
  prev : Option α
  element : ε

/-- There is no node at an address that is not allocated. -/
abbrev Memory (α ε : Type u) := α → Option (Node α ε)

def nextOf (m : Memory α ε) (a : α) : Option (Option α) := (m a).map Node.next

def prevOf (m : Memory α ε) (a : α) : Option (Option α) := (m a).map Node.prev

def elementOf (m : Memory α ε) (a : α) : Option ε := (m a).map Node.element

/-- The nodes of a list point from one to the next. -/
structure Path (m : Memory α ε) (l : List α) : Prop where
  nodup : l.Nodup
  chain : l.IsChain fun a b => nextOf m a = some (some b)
  last : ∀ a ∈ l.getLast?, nextOf m a = some none

/-- And they point back. -/
structure Links (m : Memory α ε) (l : List α) : Prop extends Path m l where
  back : l.IsChain fun a b => prevOf m b = some (some a)

/-- What an insertion of `x` behind `c` does. -/
structure Inserted (m m' : Memory α ε) (c x : α) : Prop where
  next_new : nextOf m' x = nextOf m c
  next_here : nextOf m' c = some (some x)
  next_other : ∀ a, a ≠ x → a ≠ c → nextOf m' a = nextOf m a
  prev_new : prevOf m' x = some (some c)
  prev_after : ∀ b, nextOf m c = some (some b) → prevOf m' b = some (some x)
  prev_other : ∀ a, a ≠ x → nextOf m c ≠ some (some a) → prevOf m' a = prevOf m a
  element : elementOf m' = elementOf m
  other : ∀ a, a ≠ x → a ≠ c → nextOf m c ≠ some (some a) → m' a = m a

/-- What a removal of `x`, which comes behind `c`, does. -/
structure Removed (m m' : Memory α ε) (c x : α) : Prop where
  next_here : nextOf m' c = nextOf m x
  next_other : ∀ a, a ≠ c → nextOf m' a = nextOf m a
  prev_after : ∀ b, nextOf m x = some (some b) → prevOf m' b = some (some c)
  prev_other : ∀ a, nextOf m x ≠ some (some a) → prevOf m' a = prevOf m a
  element : elementOf m' = elementOf m
  other : ∀ a, a ≠ c → nextOf m x ≠ some (some a) → m' a = m a

variable {m m' : Memory α ε} {l l₁ l₂ : List α} {a b c x : α}

/-- A node points to the one that follows it. -/
theorem Path.next (h : Path m (l₁ ++ c :: l₂)) : nextOf m c = some l₂.head? := by
  cases l₂ with
  | nil => exact h.last c (by simp)
  | cons b l₂ => exact (List.isChain_append_cons_cons.mp h.chain).2.1

theorem Path.head (h : Path m (c :: l)) : nextOf m c = some l.head? :=
  have h' : Path m ([] ++ c :: l) := h
  h'.next

theorem Path.right (h : Path m (l₁ ++ c :: l₂)) : Path m (c :: l₂) where
  nodup := (List.nodup_append.mp h.nodup).2.1
  chain := h.chain.right_of_append
  last a ha := h.last a (by rw [List.getLast?_append_of_ne_nil l₁ (by simp)]; exact ha)

theorem Path.tail (h : Path m (c :: a :: l)) : Path m (a :: l) :=
  have h' : Path m ([c] ++ a :: l) := h
  h'.right

theorem Path.allocated (h : Path m l) (ha : a ∈ l) : ∃ n, m a = some n := by
  obtain ⟨l₁, l₂, rfl⟩ := List.append_of_mem ha
  have hnext := h.next
  cases hn : m a with
  | none => simp [nextOf, hn] at hnext
  | some n => exact ⟨n, rfl⟩

/-- A node points back to the one that it follows. -/
theorem Links.prev (h : Links m (l₁ ++ c :: x :: l₂)) : prevOf m x = some (some c) :=
  (List.isChain_append_cons_cons.mp h.back).2.1

theorem Path.congr (h : Path m l) (hn : ∀ a ∈ l, nextOf m' a = nextOf m a) : Path m' l where
  nodup := h.nodup
  chain := h.chain.imp_of_mem_imp fun a _ ha _ hab => (hn a ha).trans hab
  last a ha := (hn a (List.mem_of_getLast? ha)).trans (h.last a ha)

/-- Whatever leaves the nodes of a list alone keeps it linked. -/
theorem Links.congr (h : Links m l) (hm : ∀ a ∈ l, m' a = m a) : Links m' l where
  toPath := h.toPath.congr fun a ha => by rw [nextOf, hm a ha, nextOf]
  back := h.back.imp_of_mem_imp fun a b _ hb hab => by
    rw [prevOf, hm b hb]
    exact hab

/-- The nodes of a list on the two sides of a node of it. -/
theorem Path.sides (h : Path m (l₁ ++ c :: l₂)) : c ∉ l₁ ∧ c ∉ l₂ ∧ ∀ a ∈ l₁, a ∉ l₂ := by
  have hnodup := h.nodup
  rw [List.nodup_append] at hnodup
  obtain ⟨-, hright, hdisjoint⟩ := hnodup
  refine ⟨fun hc => hdisjoint c hc c List.mem_cons_self rfl, (List.nodup_cons.mp hright).1,
    fun a ha hm => hdisjoint a ha a (List.mem_cons_of_mem c hm) rfl⟩

/-- The nodes up to `c` have no pointer to what comes behind it. -/
theorem Path.next_ne (h : Path m (l₁ ++ c :: l₂)) (ha : a ∈ l₁ ++ [c]) :
    nextOf m c ≠ some (some a) := by
  obtain ⟨-, hc, hdisjoint⟩ := h.sides
  rw [h.next]
  intro he
  have hmem : a ∈ l₂ := List.mem_of_head? (Option.some.inj he)
  rcases List.mem_append.mp ha with ha | ha
  · exact hdisjoint a ha hmem
  · rw [List.mem_singleton.mp ha] at hmem
    exact hc hmem

/-- The chain up to `c` does not depend on where `c` points to. -/
theorem Path.chain_left (h : Path m (l₁ ++ c :: l₂))
    (hn : ∀ a ∈ l₁, a ≠ c → nextOf m' a = nextOf m a) :
    (l₁ ++ [c]).IsChain fun a b => nextOf m' a = some (some b) := by
  refine (List.isChain_split.mp h.chain).1.imp_of_mem_imp fun a b ha hb hab => ?_
  have hne : a ≠ c := fun he => h.next_ne hb (he ▸ hab)
  rcases List.mem_append.mp ha with ha | ha
  · exact (hn a ha hne).trans hab
  · exact absurd (List.mem_singleton.mp ha) hne

/-- The chain behind `c` does not depend on `c`. -/
theorem Path.chain_right (h : Path m (l₁ ++ c :: l₂))
    (hn : ∀ a ∈ l₂, nextOf m' a = nextOf m a) :
    l₂.IsChain fun a b => nextOf m' a = some (some b) :=
  h.right.chain.tail.imp_of_mem_imp fun a _ ha _ hab => (hn a ha).trans hab

theorem Path.last_right (h : Path m (l₁ ++ c :: l₂)) (hn : ∀ a ∈ l₂, nextOf m' a = nextOf m a) :
    ∀ a ∈ l₂.getLast?, nextOf m' a = some none := by
  intro a ha
  have hne : l₂ ≠ [] := fun he => by simp [he] at ha
  rw [hn a (List.mem_of_getLast? ha)]
  refine h.right.last a ?_
  rw [← List.singleton_append, List.getLast?_append_of_ne_nil _ hne]
  exact ha

/-- A path up to `c` and a path behind it make one path where `c` points to what is behind it. -/
theorem Path.join (hnodup : (l₁ ++ c :: l₂).Nodup)
    (hleft : (l₁ ++ [c]).IsChain fun a b => nextOf m a = some (some b))
    (hc : nextOf m c = some l₂.head?) (hright : l₂.IsChain fun a b => nextOf m a = some (some b))
    (hlast : ∀ a ∈ l₂.getLast?, nextOf m a = some none) : Path m (l₁ ++ c :: l₂) where
  nodup := hnodup
  chain := List.isChain_split.mpr
    ⟨hleft, List.isChain_cons.mpr ⟨fun b hb => hc.trans (congrArg some hb), hright⟩⟩
  last := by
    cases l₂ with
    | nil => simpa using hc
    | cons b l₂ => simpa [List.getLast?_cons_cons] using hlast

theorem nodup_insert :
    (l₁ ++ c :: x :: l₂).Nodup ↔ x ∉ l₁ ++ c :: l₂ ∧ (l₁ ++ c :: l₂).Nodup := by
  have hperm : (l₁ ++ c :: x :: l₂).Perm (x :: (l₁ ++ c :: l₂)) := by
    have hmiddle : ((l₁ ++ [c]) ++ x :: l₂).Perm (x :: ((l₁ ++ [c]) ++ l₂)) := List.perm_middle
    simpa using hmiddle
  rw [hperm.nodup_iff, List.nodup_cons]

theorem Path.insert (h : Path m (l₁ ++ c :: l₂)) (hx : x ∉ l₁ ++ c :: l₂)
    (hi : Inserted m m' c x) : Path m' (l₁ ++ c :: x :: l₂) := by
  have hnodup := nodup_insert.mpr ⟨hx, h.nodup⟩
  simp only [List.mem_append, List.mem_cons, not_or] at hx
  obtain ⟨hx₁, -, hx₂⟩ := hx
  have hleft : ∀ a ∈ l₁, a ≠ c → nextOf m' a = nextOf m a := fun a ha =>
    hi.next_other a fun he => hx₁ (he ▸ ha)
  have hright : ∀ a ∈ l₂, nextOf m' a = nextOf m a := fun a ha =>
    hi.next_other a (fun he => hx₂ (he ▸ ha)) fun he => h.sides.2.1 (he ▸ ha)
  have hnew : Path m' ([] ++ x :: l₂) :=
    Path.join (hnodup.sublist (by simp)) (List.isChain_singleton x) (hi.next_new.trans h.next)
      (h.chain_right hright) (h.last_right hright)
  exact Path.join hnodup (h.chain_left hleft) hi.next_here hnew.chain hnew.last

/-- The node that `c` points to is the one that points back to `c`. -/
theorem Links.prev_next (h : Links m (l₁ ++ c :: l₂)) (hb : nextOf m c = some (some b))
    (hab : prevOf m b = some (some a)) : a = c := by
  have hhead : l₂.head? = some b := Option.some.inj (h.next.symm.trans hb)
  obtain ⟨l, rfl⟩ := List.head?_eq_some_iff.mp hhead
  exact Option.some.inj (Option.some.inj (hab.symm.trans h.prev))

/-- A list stays linked when a node is inserted behind one of its nodes. -/
theorem Links.insert (h : Links m (l₁ ++ c :: l₂)) (hx : x ∉ l₁ ++ c :: l₂)
    (hi : Inserted m m' c x) : Links m' (l₁ ++ c :: x :: l₂) where
  toPath := h.toPath.insert hx hi
  back := by
    simp only [List.mem_append, List.mem_cons, not_or] at hx
    obtain ⟨hx₁, hxc, hx₂⟩ := hx
    obtain ⟨hleft, hright⟩ := List.isChain_split.mp h.back
    refine List.isChain_append_cons_cons.mpr ⟨?_, hi.prev_new, List.isChain_cons.mpr ⟨fun b hb => ?_, ?_⟩⟩
    · refine hleft.imp_of_mem_imp fun a b _ hb hab => ?_
      have hbx : b ≠ x := by
        rintro rfl
        simp [hx₁, hxc] at hb
      exact (hi.prev_other b hbx (h.next_ne hb)).trans hab
    · exact hi.prev_after b (h.next.trans (congrArg some hb))
    · refine hright.tail.imp_of_mem_imp fun a b ha hb hab => ?_
      have hbx : b ≠ x := fun he => hx₂ (he ▸ hb)
      have hnext : nextOf m c ≠ some (some b) := fun hnext =>
        h.sides.2.1 (h.prev_next hnext hab ▸ ha)
      exact (hi.prev_other b hbx hnext).trans hab

theorem Path.remove (h : Path m (l₁ ++ c :: x :: l₂)) (hr : Removed m m' c x) :
    Path m' (l₁ ++ c :: l₂) := by
  have h' : Path m ((l₁ ++ [c]) ++ x :: l₂) := by simpa using h
  have hright : ∀ a ∈ l₂, nextOf m' a = nextOf m a := fun a ha =>
    hr.next_other a fun he => h.sides.2.1 (he ▸ List.mem_cons_of_mem x ha)
  exact Path.join (nodup_insert.mp h.nodup).2 (h.chain_left fun a _ => hr.next_other a)
    (hr.next_here.trans h'.next) (h'.chain_right hright) (h'.last_right hright)

/-- A list stays linked when a node behind one of its nodes is removed. -/
theorem Links.remove (h : Links m (l₁ ++ c :: x :: l₂)) (hr : Removed m m' c x) :
    Links m' (l₁ ++ c :: l₂) where
  toPath := h.toPath.remove hr
  back := by
    have h' : Links m ((l₁ ++ [c]) ++ x :: l₂) := by simpa using h
    obtain ⟨hleft, -⟩ := List.isChain_split.mp h.back
    obtain ⟨-, hright⟩ := List.isChain_split.mp h'.back
    refine List.isChain_split.mpr ⟨?_, List.isChain_cons.mpr ⟨fun b hb => ?_, ?_⟩⟩
    · refine hleft.imp_of_mem_imp fun a b _ hb hab => ?_
      exact (hr.prev_other b (h'.next_ne (List.mem_append_left _ hb))).trans hab
    · exact hr.prev_after b (h'.next.trans (congrArg some hb))
    · refine hright.tail.imp_of_mem_imp fun a b ha hb hab => ?_
      have hnext : nextOf m x ≠ some (some b) := fun hnext =>
        h'.sides.2.1 (h'.prev_next hnext hab ▸ ha)
      exact (hr.prev_other b hnext).trans hab

/-- `for(; cursor->next && skip(cursor->next->element); cursor = cursor->next);`, for at most `fuel`
tests. -/
def walk (skip : ε → Bool) : Nat → α → Memory α ε → Option α
  | 0, _, _ => none
  | fuel + 1, cursor, m => do
    let n ← m cursor
    match n.next with
    | none => some cursor
    | some b => do
      let nb ← m b
      if skip nb.element then walk skip fuel b m else some cursor

/-- A node is allocated if and only if it has an element. -/
theorem allocated_iff : (∃ n, m a = some n) ↔ (elementOf m a).isSome := by
  cases h : m a with
  | none => simp [elementOf, h]
  | some n => simp [elementOf, h]

/-- Nodes with the same elements are allocated at the same addresses. -/
theorem allocated_congr (he : elementOf m' = elementOf m) (ha : ∃ n, m a = some n) :
    ∃ n, m' a = some n := by
  rwa [allocated_iff, he, ← allocated_iff]

theorem walk_last {skip : ε → Bool} (fuel : Nat) (h : nextOf m c = some none) :
    walk skip (fuel + 1) c m = some c := by
  obtain ⟨n, hn, hnext⟩ := Option.map_eq_some_iff.mp h
  simp [walk, hn, hnext]

theorem walk_next {skip : ε → Bool} (fuel : Nat) (h : nextOf m c = some (some b))
    (hb : ∃ n, m b = some n) :
    walk skip (fuel + 1) c m = if (elementOf m b).any skip then walk skip fuel b m else some c := by
  obtain ⟨n, hn, hnext⟩ := Option.map_eq_some_iff.mp h
  obtain ⟨nb, hnb⟩ := hb
  simp [walk, hn, hnext, hnb, elementOf]

/-- The walk ends at the last of the nodes that it skips. -/
theorem walk_eq {skip : ε → Bool} {fuel : Nat} (h : Path m (c :: (l₁ ++ l₂)))
    (hskip : ∀ a ∈ l₁, (elementOf m a).any skip) (hstop : ∀ a ∈ l₂.head?, ¬(elementOf m a).any skip)
    (hfuel : l₁.length < fuel) :
    ∃ l d, c :: l₁ = l ++ [d] ∧ walk skip fuel c m = some d := by
  obtain ⟨fuel, rfl⟩ := Nat.exists_eq_succ_of_ne_zero (Nat.ne_of_gt (Nat.zero_lt_of_lt hfuel))
  induction l₁ generalizing c fuel with
  | nil =>
    refine ⟨[], c, rfl, ?_⟩
    cases l₂ with
    | nil => exact walk_last fuel h.head
    | cons b l₂ =>
      rw [walk_next fuel h.head (h.allocated (by simp)), if_neg (hstop b rfl)]
  | cons a l₁ ih =>
    obtain ⟨fuel, rfl⟩ := Nat.exists_eq_succ_of_ne_zero (Nat.ne_of_gt (Nat.zero_lt_of_lt
      (Nat.lt_of_succ_lt_succ hfuel)))
    have htail : Path m (a :: (l₁ ++ l₂)) := h.tail
    obtain ⟨l, d, hl, hwalk⟩ := ih htail (fun b hb => hskip b (List.mem_cons_of_mem a hb)) fuel
      (Nat.lt_of_succ_lt_succ hfuel)
    refine ⟨c :: l, d, by rw [hl, List.cons_append], ?_⟩
    rw [walk_next _ h.head (h.allocated (by simp)), if_pos (hskip a List.mem_cons_self)]
    exact hwalk

section Stores

variable [DecidableEq α]

/-- `a->next = p` -/
def setNext (m : Memory α ε) (a : α) (p : Option α) : Option (Memory α ε) :=
  (m a).map fun n => Function.update m a (some { n with next := p })

/-- `a->prev = p` -/
def setPrev (m : Memory α ε) (a : α) (p : Option α) : Option (Memory α ε) :=
  (m a).map fun n => Function.update m a (some { n with prev := p })

/-- What a store to `a->next` does. -/
structure StoredNext (m m' : Memory α ε) (a : α) (p : Option α) : Prop where
  next : nextOf m' a = some p
  prev : prevOf m' = prevOf m
  element : elementOf m' = elementOf m
  other : ∀ b, b ≠ a → m' b = m b

/-- What a store to `a->prev` does. -/
structure StoredPrev (m m' : Memory α ε) (a : α) (p : Option α) : Prop where
  next : nextOf m' = nextOf m
  prev : prevOf m' a = some p
  element : elementOf m' = elementOf m
  other : ∀ b, b ≠ a → m' b = m b

omit [DecidableEq α] in
theorem StoredNext.next_other {p : Option α} (h : StoredNext m m' a p) (hb : b ≠ a) :
    nextOf m' b = nextOf m b :=
  congrArg (Option.map Node.next) (h.other b hb)

omit [DecidableEq α] in
theorem StoredPrev.prev_other {p : Option α} (h : StoredPrev m m' a p) (hb : b ≠ a) :
    prevOf m' b = prevOf m b :=
  congrArg (Option.map Node.prev) (h.other b hb)

theorem setNext_stored (p : Option α) (h : ∃ n, m a = some n) :
    ∃ m', setNext m a p = some m' ∧ StoredNext m m' a p := by
  obtain ⟨n, hn⟩ := h
  refine ⟨_, by rw [setNext, hn, Option.map_some], ?_, ?_, ?_, fun b hb => Function.update_of_ne hb _ _⟩
  · simp [nextOf]
  · funext b
    by_cases hb : b = a
    · subst hb
      simp [prevOf, hn]
    · simp [prevOf, hb]
  · funext b
    by_cases hb : b = a
    · subst hb
      simp [elementOf, hn]
    · simp [elementOf, hb]

theorem setPrev_stored (p : Option α) (h : ∃ n, m a = some n) :
    ∃ m', setPrev m a p = some m' ∧ StoredPrev m m' a p := by
  obtain ⟨n, hn⟩ := h
  refine ⟨_, by rw [setPrev, hn, Option.map_some], ?_, ?_, ?_, fun b hb => Function.update_of_ne hb _ _⟩
  · funext b
    by_cases hb : b = a
    · subst hb
      simp [nextOf, hn]
    · simp [nextOf, hb]
  · simp [prevOf]
  · funext b
    by_cases hb : b = a
    · subst hb
      simp [elementOf, hn]
    · simp [elementOf, hb]

end Stores

end LinkedLists

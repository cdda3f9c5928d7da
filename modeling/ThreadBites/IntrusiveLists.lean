import ThreadBites.LinkedLists
import ThreadBites.Scheduling

/-!
# Lists of nodes with a head

The head of a list is a node that holds no element. The functions on lists follow
pointers and store them; a null pointer, or a node that was freed, has no fields. A
list with its operations is the sequence of its nodes.
-/
namespace ThreadBites.Lists

open LinkedLists

variable {α ε : Type} [DecidableEq α]

/-- `if(node->next) node->next->prev = p;` -/
def setPrevOfNext (m : Memory α ε) (node : α) (p : Option α) : Option (Memory α ε) := do
  match ← nextOf m node with
  | none => some m
  | some b => setPrev m b p

/-- The statements that `list_add` and `list_add_here` end with. -/
def linkBehind (cursor node : α) (m : Memory α ε) : Option (Memory α ε) := do
  let m ← setNext m node (← nextOf m cursor)
  let m ← setNext m cursor (some node)
  let m ← setPrev m node (some cursor)
  setPrevOfNext m node (some node)

def listAdd (fuel : Nat) (list node : α) (front : Bool) (m : Memory α ε) : Option (Memory α ε) := do
  let cursor ← if front then some list else walk (fun _ => true) fuel list m
  linkBehind cursor node m

def listAddHere (fuel : Nat) (list node : α) (here : ε → ε → Bool) (m : Memory α ε) :
    Option (Memory α ε) := do
  let element ← elementOf m node
  let cursor ← walk (fun e => !here element e) fuel list m
  linkBehind cursor node m

def listRm (node : α) (m : Memory α ε) : Option (Memory α ε) := do
  let before ← (← prevOf m node)
  let m ← setNext m before (← nextOf m node)
  setPrevOfNext m node (← prevOf m node)

/-- The node behind the ones that the loop of `list_find_elem` or of `list_find_elem_func` passes. -/
def findNode (fuel : Nat) (list : α) (test : ε → Bool) (m : Memory α ε) : Option (Option α) := do
  let cursor ← walk (fun e => !test e) fuel list m
  nextOf m cursor

def listFindElem [DecidableEq ε] (fuel : Nat) (list : α) (element : ε) (m : Memory α ε) :
    Option (Option α) :=
  findNode fuel list (fun e => e = element) m

def listFindElemFunc (fuel : Nat) (list : α) (element : ε) (func : ε → ε → Bool) (m : Memory α ε) :
    Option (Option α) :=
  findNode fuel list (func element) m

def free (m : Memory α ε) (node : α) : Option (Memory α ε) :=
  (m node).map fun _ => Function.update m node none

/-- `while(list->next)`, for at most `fuel` tests. -/
def listClear : Nat → α → Memory α ε → Option (Memory α ε)
  | 0, _, _ => none
  | fuel + 1, list, m => do
    match ← nextOf m list with
    | none => some m
    | some node => do
      let m ← setNext m list (← nextOf m node)
      listClear fuel list (← free m node)

variable {m : Memory α ε} {list node c x : α} {l l₁ l₂ : List α}

/-- What a store to the node that `node` points to does, if there is one. -/
structure StoredBack (m m' : Memory α ε) (behind p : Option α) : Prop where
  next : nextOf m' = nextOf m
  prev : ∀ b, behind = some b → prevOf m' b = some p
  element : elementOf m' = elementOf m
  other : ∀ a, behind ≠ some a → m' a = m a

theorem setPrevOfNext_stored {behind : Option α} (p : Option α) (h : nextOf m node = some behind)
    (hb : ∀ b, behind = some b → ∃ n, m b = some n) :
    ∃ m', setPrevOfNext m node p = some m' ∧ StoredBack m m' behind p := by
  cases behind with
  | none =>
    refine ⟨m, by simp [setPrevOfNext, h], rfl, fun b hb => ?_, rfl, fun _ _ => rfl⟩
    cases hb
  | some b =>
    obtain ⟨m', hset, hs⟩ := setPrev_stored p (hb b rfl)
    refine ⟨m', by simp [setPrevOfNext, h, hset], hs.next, ?_, hs.element, fun a ha => ?_⟩
    · rintro a ⟨⟩
      exact hs.prev
    · exact hs.other a fun he => ha (congrArg some he.symm)

/-- A node is inserted behind `cursor`. -/
theorem linkBehind_inserted (h : Path m (l₁ ++ c :: l₂)) (hx : x ∉ l₁ ++ c :: l₂)
    (hnew : ∃ n, m x = some n) : ∃ m', linkBehind c x m = some m' ∧ Inserted m m' c x := by
  have hxc : x ≠ c := fun he => hx (by simp [he])
  have hx₂ : x ∉ l₂ := fun hm => hx (by simp [hm])
  have hc := h.allocated (show c ∈ l₁ ++ c :: l₂ by simp)
  obtain ⟨m₁, hset₁, h₁⟩ := setNext_stored l₂.head? hnew
  obtain ⟨m₂, hset₂, h₂⟩ := setNext_stored (some x) (allocated_congr h₁.element hc)
  have helement₂ : elementOf m₂ = elementOf m := h₂.element.trans h₁.element
  obtain ⟨m₃, hset₃, h₃⟩ := setPrev_stored (some c) (allocated_congr helement₂ hnew)
  have helement₃ : elementOf m₃ = elementOf m := h₃.element.trans helement₂
  have hnext : nextOf m₃ x = some l₂.head? := by rw [h₃.next, h₂.next_other hxc, h₁.next]
  obtain ⟨m', hset, hs⟩ := setPrevOfNext_stored (some x) hnext fun b hb =>
    allocated_congr helement₃ (h.allocated (by simp [List.mem_of_head? hb]))
  have hhead {a : α} (ha : nextOf m c ≠ some (some a)) : l₂.head? ≠ some a := fun he =>
    ha (h.next.trans (congrArg some he))
  refine ⟨m', ?_, ?_⟩
  · unfold linkBehind
    simp only [h.next, hset₁, hset₂, hset₃, hset, Option.bind_eq_bind, Option.bind_some]
  · refine ⟨?_, ?_, fun a hax hac => ?_, ?_, fun b hb => ?_, fun a hax ha => ?_, ?_, fun a hax hac ha => ?_⟩
    · rw [hs.next, hnext, h.next]
    · rw [hs.next, h₃.next, h₂.next]
    · rw [hs.next, h₃.next, h₂.next_other hac, h₁.next_other hax]
    · have hxhead : l₂.head? ≠ some x := fun he => hx₂ (List.mem_of_head? he)
      rw [prevOf, hs.other x hxhead, ← prevOf, h₃.prev]
    · exact hs.prev b (Option.some.inj (h.next.symm.trans hb))
    · rw [prevOf, hs.other a (hhead ha), ← prevOf, h₃.prev_other hax, h₂.prev, h₁.prev]
    · exact hs.element.trans helement₃
    · rw [hs.other a (hhead ha), h₃.other a hax, h₂.other a hac, h₁.other a hax]

/-- A node is removed from behind the one that it points back to. -/
theorem listRm_removed (h : Links m (l₁ ++ c :: x :: l₂)) :
    ∃ m', listRm x m = some m' ∧ Removed m m' c x := by
  have h' : Path m ((l₁ ++ [c]) ++ x :: l₂) := by simpa using h.toPath
  have hxc : x ≠ c := fun he => h.sides.2.1 (he ▸ List.mem_cons_self)
  obtain ⟨m₁, hset₁, h₁⟩ := setNext_stored l₂.head? (h.allocated (show c ∈ _ by simp))
  have hnext : nextOf m₁ x = some l₂.head? := (h₁.next_other hxc).trans h'.next
  have hprev : prevOf m₁ x = some (some c) := by rw [h₁.prev, h.prev]
  obtain ⟨m', hset, hs⟩ := setPrevOfNext_stored (some c) hnext fun b hb =>
    allocated_congr h₁.element (h.allocated (by simp [List.mem_of_head? hb]))
  have hhead {a : α} (ha : nextOf m x ≠ some (some a)) : l₂.head? ≠ some a := fun he =>
    ha (h'.next.trans (congrArg some he))
  refine ⟨m', ?_, ?_⟩
  · unfold listRm
    simp only [h.prev, h'.next, hset₁, hprev, hset, Option.bind_eq_bind, Option.bind_some]
  · refine ⟨?_, fun a ha => ?_, fun b hb => ?_, fun a ha => ?_, ?_, fun a hac ha => ?_⟩
    · rw [hs.next, h₁.next, h'.next]
    · rw [hs.next, h₁.next_other ha]
    · exact hs.prev b (Option.some.inj (h'.next.symm.trans hb))
    · rw [prevOf, hs.other a (hhead ha), ← prevOf, h₁.prev]
    · exact hs.element.trans h₁.element
    · rw [hs.other a (hhead ha), h₁.other a hac]

/-- What an operation that inserts or removes a node leaves behind. -/
structure Relinked (m m' : Memory α ε) (list x : α) (l l' : List α) : Prop where
  links : Links m' (list :: l')
  element : elementOf m' = elementOf m
  other : ∀ a, a ∉ list :: l → a ≠ x → m' a = m a

omit [DecidableEq α] in
/-- The whole list, around the last node of a part of it. -/
theorem split_behind (hc : list :: l₁ = l ++ [c]) (l₂ : List α) :
    list :: (l₁ ++ l₂) = l ++ c :: l₂ := by
  rw [← List.cons_append, hc, List.append_assoc, List.singleton_append]

/-- A node is inserted behind the last of the nodes that are skipped. -/
theorem linkBehind_relinked (h : Links m (list :: (l₁ ++ l₂))) (hx : x ∉ list :: (l₁ ++ l₂))
    (hnew : ∃ n, m x = some n) (hc : list :: l₁ = l ++ [c]) :
    ∃ m', linkBehind c x m = some m' ∧ Relinked m m' list x (l₁ ++ l₂) (l₁ ++ x :: l₂) := by
  have h' : Links m (l ++ c :: l₂) := split_behind hc l₂ ▸ h
  have hx' : x ∉ l ++ c :: l₂ := split_behind hc l₂ ▸ hx
  obtain ⟨m', hlink, hi⟩ := linkBehind_inserted h'.toPath hx' hnew
  refine ⟨m', hlink, ?_, hi.element, fun a ha hax => ?_⟩
  · rw [split_behind hc]
    exact h'.insert hx' hi
  · rw [split_behind hc] at ha
    refine hi.other a hax (fun he => ha (by simp [he])) fun he => ?_
    have hmem : a ∈ l₂ := List.mem_of_head? (Option.some.inj (h'.next.symm.trans he))
    exact ha (by simp [hmem])

theorem listAdd_front (fuel : Nat) (h : Links m (list :: l)) (hx : x ∉ list :: l)
    (hnew : ∃ n, m x = some n) :
    ∃ m', listAdd fuel list x true m = some m' ∧ Relinked m m' list x l (x :: l) := by
  have hc : [list] = [] ++ [list] := rfl
  have h' : Links m (list :: ([] ++ l)) := h
  exact linkBehind_relinked h' hx hnew hc

theorem listAdd_back {fuel : Nat} (h : Links m (list :: l)) (hx : x ∉ list :: l)
    (hnew : ∃ n, m x = some n) (hfuel : l.length < fuel) :
    ∃ m', listAdd fuel list x false m = some m' ∧ Relinked m m' list x l (l ++ [x]) := by
  have hl : l ++ [] = l := List.append_nil l
  have hskip : ∀ a ∈ l, (elementOf m a).any fun _ => true := fun a ha => by
    obtain ⟨n, hn⟩ := h.allocated (List.mem_cons_of_mem list ha)
    simp [elementOf, hn]
  rw [← hl] at h hx
  obtain ⟨before, c, hc, hwalk⟩ := walk_eq h.toPath hskip (by simp) hfuel
  obtain ⟨m', hlink, hr⟩ := linkBehind_relinked h hx hnew hc
  rw [hl] at hr
  refine ⟨m', ?_, hr⟩
  rw [listAdd]
  simp only [Bool.false_eq_true, if_false, hwalk, Option.bind_eq_bind, Option.bind_some, hlink]

theorem listAddHere_split {μ : Type} (here : μ → μ → Bool) (x : μ) (l : List μ) :
    Sched.listAddHere here x l =
      l.takeWhile (fun y => !here x y) ++ x :: l.dropWhile (fun y => !here x y) := by
  induction l with
  | nil => rfl
  | cons y l ih =>
    rw [Sched.listAddHere]
    by_cases h : here x y
    · simp [h]
    · simp [h, ih]

/-- The node of the list with an element that satisfies a test. -/
def satisfies (m : Memory α ε) (test : ε → Bool) (a : α) : Bool := (elementOf m a).any test

omit [DecidableEq α] in
/-- The walk over the nodes whose elements fail a test ends right before the first one that passes it. -/
theorem walk_until {fuel : Nat} (test : ε → Bool) (h : Links m (list :: l)) (hfuel : l.length < fuel) :
    ∃ before c, list :: l.takeWhile (fun a => !satisfies m test a) = before ++ [c] ∧
      walk (fun e => !test e) fuel list m = some c := by
  have hvalue (a : α) (ha : a ∈ l) : ((elementOf m a).any fun e => !test e) = !satisfies m test a := by
    obtain ⟨n, hn⟩ := h.allocated (List.mem_cons_of_mem list ha)
    simp [satisfies, elementOf, hn]
  have hl : l.takeWhile (fun a => !satisfies m test a) ++
      l.dropWhile (fun a => !satisfies m test a) = l := List.takeWhile_append_dropWhile
  refine walk_eq (hl.symm ▸ h.toPath) (fun a ha => ?_) (fun a ha => ?_)
    (lt_of_le_of_lt (List.takeWhile_sublist _).length_le hfuel)
  · rw [hvalue a ((List.takeWhile_sublist _).mem ha)]
    have hfails := List.mem_takeWhile_imp ha
    exact hfails
  · have hhead := List.head?_dropWhile_not (fun a => !satisfies m test a) l
    rw [Option.mem_def.mp ha] at hhead
    rw [hvalue a ((List.dropWhile_sublist _).mem (List.mem_of_head? ha))]
    simpa using hhead

/-- The new node comes before the first one whose element is tested to be behind it. -/
theorem listAddHere_relinked {fuel : Nat} {e : ε} (here : ε → ε → Bool) (h : Links m (list :: l))
    (hx : x ∉ list :: l) (he : elementOf m x = some e) (hfuel : l.length < fuel) :
    ∃ m', listAddHere fuel list x here m = some m' ∧
      Relinked m m' list x l (Sched.listAddHere (fun _ => satisfies m (here e)) x l) := by
  have hnew : ∃ n, m x = some n := allocated_iff.mpr (by rw [he]; rfl)
  have hl : l.takeWhile (fun a => !satisfies m (here e) a) ++
      l.dropWhile (fun a => !satisfies m (here e) a) = l := List.takeWhile_append_dropWhile
  obtain ⟨before, c, hc, hwalk⟩ := walk_until (here e) h hfuel
  obtain ⟨m', hlink, hr⟩ := linkBehind_relinked (hl.symm ▸ h) (hl.symm ▸ hx) hnew hc
  rw [hl] at hr
  refine ⟨m', ?_, ?_⟩
  · rw [listAddHere]
    simp only [he, hwalk, Option.bind_eq_bind, Option.bind_some, hlink]
  · rw [listAddHere_split]
    exact hr

theorem listRm_relinked (h : Links m (list :: (l₁ ++ x :: l₂))) :
    ∃ m', listRm x m = some m' ∧ Relinked m m' list x (l₁ ++ x :: l₂) (l₁ ++ l₂) := by
  obtain ⟨l, c, hc⟩ : ∃ l c, list :: l₁ = l ++ [c] :=
    ⟨_, _, (List.dropLast_append_getLast (List.cons_ne_nil list l₁)).symm⟩
  have h' : Links m (l ++ c :: x :: l₂) := split_behind hc (x :: l₂) ▸ h
  have h'' : Path m ((l ++ [c]) ++ x :: l₂) := by simpa using h'.toPath
  obtain ⟨m', hrm, hr⟩ := listRm_removed h'
  refine ⟨m', hrm, split_behind hc l₂ ▸ h'.remove hr, hr.element, fun a ha _ => ?_⟩
  rw [split_behind hc] at ha
  refine hr.other a (fun he => ?_) fun he => ?_
  · exact ha (by simp [he])
  · have hmem : a ∈ l₂ := List.mem_of_head? (Option.some.inj (h''.next.symm.trans he))
    exact ha (by simp [hmem])

omit [DecidableEq α] in
/-- The node that is found is the first one whose element passes the test. -/
theorem findNode_eq {fuel : Nat} (test : ε → Bool) (h : Links m (list :: l)) (hfuel : l.length < fuel) :
    findNode fuel list test m = some (l.find? (satisfies m test)) := by
  obtain ⟨before, c, hc, hwalk⟩ := walk_until test h hfuel
  have hpath : Path m (before ++ c :: l.dropWhile fun a => !satisfies m test a) := by
    rw [← split_behind hc, List.takeWhile_append_dropWhile]
    exact h.toPath
  have hfind : findNode fuel list test m = nextOf m c :=
    congrArg (· >>= fun cursor => nextOf m cursor) hwalk
  rw [hfind, hpath.next, List.find?_eq_head?_dropWhile_not]

/-- All the nodes behind the head are freed. -/
theorem listClear_eq {fuel : Nat} (h : Path m (list :: l)) (hfuel : l.length < fuel) :
    ∃ m', listClear fuel list m = some m' ∧ Links m' [list] ∧
      (∀ a, elementOf m' a = if a ∈ l then none else elementOf m a) ∧
      ∀ a, a ∉ list :: l → m' a = m a := by
  obtain ⟨fuel, rfl⟩ := Nat.exists_eq_succ_of_ne_zero (Nat.ne_of_gt (Nat.zero_lt_of_lt hfuel))
  induction l generalizing m fuel with
  | nil =>
    refine ⟨m, by simp [listClear, h.head], ⟨h, List.isChain_singleton list⟩, fun a => by simp,
      fun a _ => rfl⟩
  | cons x l ih =>
    obtain ⟨fuel, rfl⟩ := Nat.exists_eq_succ_of_ne_zero (Nat.ne_of_gt (Nat.zero_lt_of_lt
      (Nat.lt_of_succ_lt_succ hfuel)))
    have h' : Path m ([list] ++ x :: l) := h
    have hxlist : x ≠ list := fun he => by
      have := h.nodup
      simp [he] at this
    obtain ⟨m₁, hset, h₁⟩ := setNext_stored l.head? (h.allocated List.mem_cons_self)
    obtain ⟨nx, hx⟩ := allocated_congr h₁.element (h.allocated (show x ∈ list :: x :: l by simp))
    have hfree : free m₁ x = some (Function.update m₁ x none) := by rw [free, hx, Option.map_some]
    have hother (a : α) (hax : a ≠ x) (ha : a ≠ list) : Function.update m₁ x none a = m a := by
      rw [Function.update_of_ne hax, h₁.other a ha]
    have hnext (a : α) (ha : a ∈ l) : nextOf (Function.update m₁ x none) a = nextOf m a := by
      have hax : a ≠ x := fun he => h'.sides.2.1 (he ▸ ha)
      have hal : a ≠ list := fun he => (List.nodup_cons.mp h.nodup).1 (by simp [← he, ha])
      rw [nextOf, hother a hax hal, nextOf]
    have hhead : nextOf (Function.update m₁ x none) list = some l.head? := by
      rw [nextOf, Function.update_of_ne hxlist.symm, ← nextOf, h₁.next]
    have hpath : Path (Function.update m₁ x none) ([] ++ list :: l) :=
      Path.join (h.nodup.sublist (by simp)) (List.isChain_singleton list) hhead
        (h'.chain_right hnext) (h'.last_right hnext)
    obtain ⟨m', hclear, hlinks, helement, hrest⟩ := ih hpath fuel (Nat.lt_of_succ_lt_succ hfuel)
    refine ⟨m', ?_, hlinks, fun a => ?_, fun a ha => ?_⟩
    · rw [listClear]
      simp only [h.head, h'.next, List.head?_cons, hset, hfree, Option.bind_eq_bind, Option.bind_some]
      exact hclear
    · rw [helement]
      by_cases hax : a = x
      · subst hax
        simp [elementOf]
      · have hkept : elementOf (Function.update m₁ x none) a = elementOf m a := by
          rw [elementOf, Function.update_of_ne hax, ← elementOf, h₁.element]
        simp [hkept, hax]
    · simp only [List.mem_cons, not_or] at ha
      rw [hrest a (by simp [ha]), hother a ha.2.1 ha.1]

end ThreadBites.Lists

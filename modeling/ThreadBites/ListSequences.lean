import ThreadBites.IntrusiveLists

/-!
# Lists as sequences

What the operations on a list do to the sequence of its nodes, for any row of them.
Between the operations the client may allocate nodes. Cells that are not in the list
are left alone, and with them the other lists; the order by priority is kept.
-/
namespace ThreadBites.Lists

open LinkedLists Sched

/-- The nodes of a list, and the elements of all the nodes that are allocated. -/
structure Sequence (α ε : Type) where
  nodes : List α
  element : α → Option ε

/-- An operation on a list; `new` is the allocation of a node, whose pointers may be anything. -/
inductive Op (α ε : Type) where
  | new (node : α) (contents : Node α ε)
  | add (node : α) (front : Bool)
  | addHere (node : α) (here : ε → ε → Bool)
  | rm (node : α)
  | findElem (element : ε)
  | findElemFunc (element : ε) (func : ε → ε → Bool)
  | clear

variable {α ε : Type} [DecidableEq α]

/-- The operation on the memory, with the pointer that it returns. -/
def Op.exec [DecidableEq ε] (fuel : Nat) (list : α) (m : Memory α ε) :
    Op α ε → Option (Memory α ε × Option α)
  | .new node contents => some (Function.update m node (some contents), none)
  | .add node front => (listAdd fuel list node front m).map fun m => (m, none)
  | .addHere node here => (listAddHere fuel list node here m).map fun m => (m, none)
  | .rm node => (listRm node m).map fun m => (m, none)
  | .findElem element => (listFindElem fuel list element m).map fun r => (m, r)
  | .findElemFunc element func => (listFindElemFunc fuel list element func m).map fun r => (m, r)
  | .clear => (listClear fuel list m).map fun m => (m, none)

/-- A row of operations, with the pointers that they return. -/
def run [DecidableEq ε] (fuel : Nat) (list : α) :
    List (Op α ε) → Memory α ε → Option (Memory α ε × List (Option α))
  | [], m => some (m, [])
  | op :: ops, m => do
    let (m, r) ← op.exec fuel list m
    let (m, rs) ← run fuel list ops m
    some (m, r :: rs)

/-- Whether the element of a node comes before the element of another by `here`. -/
def Sequence.before (s : Sequence α ε) (here : ε → ε → Bool) (node other : α) : Bool :=
  (s.element node).any fun e => (s.element other).any (here e)

/-- The operation on the sequence. -/
def Sequence.apply (s : Sequence α ε) : Op α ε → Sequence α ε
  | .new node contents => { s with element := Function.update s.element node (some contents.element) }
  | .add node front => { s with nodes := if front then node :: s.nodes else s.nodes ++ [node] }
  | .addHere node here => { s with nodes := Sched.listAddHere (s.before here) node s.nodes }
  | .rm node => { s with nodes := s.nodes.erase node }
  | .findElem _ => s
  | .findElemFunc _ _ => s
  | .clear => ⟨[], fun a => if a ∈ s.nodes then none else s.element a⟩

/-- What the operation returns. -/
def Sequence.result [DecidableEq ε] (s : Sequence α ε) : Op α ε → Option α
  | .findElem element => s.nodes.find? fun a => (s.element a).any fun e => e = element
  | .findElemFunc element func => s.nodes.find? fun a => (s.element a).any (func element)
  | _ => none

def Sequence.after (s : Sequence α ε) (ops : List (Op α ε)) : Sequence α ε := ops.foldl .apply s

def Sequence.results [DecidableEq ε] : Sequence α ε → List (Op α ε) → List (Option α)
  | _, [] => []
  | s, op :: ops => s.result op :: (s.apply op).results ops

/-- A node that is added is allocated and not in the list, and one that is removed is in the list. -/
def Op.Ready (list : α) (s : Sequence α ε) : Op α ε → Prop
  | .new node _ => s.element node = none
  | .add node _ => node ∉ list :: s.nodes ∧ (s.element node).isSome
  | .addHere node _ => node ∉ list :: s.nodes ∧ (s.element node).isSome
  | .rm node => node ∈ s.nodes
  | .findElem _ => True
  | .findElemFunc _ _ => True
  | .clear => True

def Sequence.Legal (list : α) : Sequence α ε → List (Op α ε) → Prop
  | _, [] => True
  | s, op :: ops => op.Ready list s ∧ (s.apply op).Legal list ops

/-- The node that an operation brings into the list or into the memory. -/
def Op.nodes : Op α ε → List α
  | .new node _ => [node]
  | .add node _ => [node]
  | .addHere node _ => [node]
  | .rm _ => []
  | .findElem _ => []
  | .findElemFunc _ _ => []
  | .clear => []

/-- The memory holds the nodes of the sequence as a list behind its head. -/
structure Represents (list : α) (m : Memory α ε) (s : Sequence α ε) : Prop where
  links : Links m (list :: s.nodes)
  element : elementOf m = s.element

variable {list x : α} {m m' : Memory α ε} {s : Sequence α ε} {fuel : Nat}

omit [DecidableEq α] in
theorem Represents.relinked (h : Represents list m s) {l : List α}
    (hr : Relinked m m' list x s.nodes l) : Represents list m' { s with nodes := l } ∧
      ∀ a, a ∉ list :: s.nodes → a ∉ [x] → m' a = m a :=
  ⟨⟨hr.links, hr.element.trans h.element⟩, fun a ha hax =>
    hr.other a ha fun he => hax (he ▸ List.mem_singleton_self a)⟩

omit [DecidableEq α] in
theorem Represents.allocated (h : Represents list m s) (hx : (s.element x).isSome) :
    ∃ n, m x = some n := by
  rwa [allocated_iff, h.element]

/-- The allocation of a node leaves the list alone. -/
theorem Represents.new (h : Represents list m s) (hx : s.element x = none) (contents : Node α ε) :
    Represents list (Function.update m x (some contents)) (s.apply (.new x contents)) where
  links := h.links.congr fun a ha => by
    have hax : a ≠ x := by
      rintro rfl
      have hsome := allocated_iff.mp (h.links.allocated ha)
      rw [h.element, hx] at hsome
      cases hsome
    exact Function.update_of_ne hax _ _
  element := by
    funext a
    by_cases hax : a = x
    · subst hax
      simp [elementOf, Sequence.apply]
    · have ha := congrFun h.element a
      simpa [elementOf, Sequence.apply, hax] using ha

variable [DecidableEq ε]

/-- An operation on the list is the operation on its sequence. -/
theorem Op.exec_refines {op : Op α ε} (h : Represents list m s) (hready : op.Ready list s)
    (hfuel : s.nodes.length < fuel) :
    ∃ m', op.exec fuel list m = some (m', s.result op) ∧ Represents list m' (s.apply op) ∧
      ∀ a, a ∉ list :: s.nodes → a ∉ op.nodes → m' a = m a := by
  cases op with
  | new node contents =>
    refine ⟨_, rfl, h.new hready contents, fun a _ ha => ?_⟩
    exact Function.update_of_ne (by simpa [Op.nodes] using ha) _ _
  | add node front =>
    obtain ⟨hx, hsome⟩ := hready
    cases front with
    | true =>
      obtain ⟨m', hadd, hr⟩ := listAdd_front fuel h.links hx (h.allocated hsome)
      exact ⟨m', by rw [Op.exec, hadd]; rfl, h.relinked hr⟩
    | false =>
      obtain ⟨m', hadd, hr⟩ := listAdd_back h.links hx (h.allocated hsome) hfuel
      exact ⟨m', by rw [Op.exec, hadd]; rfl, h.relinked hr⟩
  | addHere node here =>
    obtain ⟨hx, hsome⟩ := hready
    obtain ⟨e, he⟩ := Option.isSome_iff_exists.mp hsome
    obtain ⟨m', hadd, hr⟩ := listAddHere_relinked here h.links hx (by rw [h.element, he]) hfuel
    have hbefore : s.before here node = satisfies m (here e) := by
      funext other
      simp [Sequence.before, satisfies, he, h.element]
    rw [listAddHere_split, ← hbefore, ← listAddHere_split (s.before here)] at hr
    exact ⟨m', by rw [Op.exec, hadd]; rfl, h.relinked hr⟩
  | rm node =>
    obtain ⟨l₁, l₂, -, hnodes, herase⟩ := List.exists_erase_eq hready
    obtain ⟨m', hrm, hr⟩ := listRm_relinked (hnodes ▸ h.links)
    rw [← hnodes, ← herase] at hr
    refine ⟨m', by rw [Op.exec, hrm]; rfl, (h.relinked hr).1, fun a ha _ => hr.other a ha ?_⟩
    rintro rfl
    exact ha (List.mem_cons_of_mem list hready)
  | findElem element =>
    refine ⟨m, ?_, h, fun _ _ _ => rfl⟩
    rw [Op.exec, listFindElem, findNode_eq _ h.links hfuel, Sequence.result, ← h.element]
    rfl
  | findElemFunc element func =>
    refine ⟨m, ?_, h, fun _ _ _ => rfl⟩
    rw [Op.exec, listFindElemFunc, findNode_eq _ h.links hfuel, Sequence.result, ← h.element]
    rfl
  | clear =>
    obtain ⟨m', hclear, hlinks, helement, hother⟩ := listClear_eq h.links.toPath hfuel
    refine ⟨m', by rw [Op.exec, hclear]; rfl, ⟨hlinks, ?_⟩, fun a ha _ => hother a ha⟩
    funext a
    rw [helement, h.element]
    rfl

omit [DecidableEq ε] in
theorem Sequence.mem_apply {op : Op α ε} {a : α} (h : a ∈ (s.apply op).nodes) :
    a ∈ s.nodes ∨ a ∈ op.nodes := by
  cases op with
  | new node contents => exact .inl h
  | add node front =>
    cases front with
    | true =>
      rcases List.mem_cons.mp h with rfl | h
      · exact .inr (List.mem_singleton_self a)
      · exact .inl h
    | false => exact List.mem_append.mp h
  | addHere node here =>
    rcases Sched.mem_listAddHere.mp h with rfl | h
    · exact .inr (List.mem_singleton_self a)
    · exact .inl h
  | rm node => exact .inl (List.mem_of_mem_erase h)
  | findElem element => exact .inl h
  | findElemFunc element func => exact .inl h
  | clear => cases h

omit [DecidableEq ε] in
theorem Sequence.apply_length (s : Sequence α ε) (op : Op α ε) :
    (s.apply op).nodes.length ≤ s.nodes.length + 1 := by
  cases op with
  | new node contents => exact Nat.le_succ _
  | add node front =>
    cases front with
    | true => exact le_rfl
    | false => simp [Sequence.apply]
  | addHere node here =>
    have hlength : (s.nodes.takeWhile (fun y => !s.before here node y) ++
        s.nodes.dropWhile (fun y => !s.before here node y)).length = s.nodes.length := by
      rw [List.takeWhile_append_dropWhile]
    rw [List.length_append] at hlength
    simp only [Sequence.apply, listAddHere_split, List.length_append, List.length_cons]
    omega
  | rm node => exact Nat.le_succ_of_le List.length_erase_le
  | findElem element => exact Nat.le_succ _
  | findElemFunc element func => exact Nat.le_succ _
  | clear => exact Nat.zero_le _

/-- A row of operations on the list is that row on its sequence. -/
theorem run_refines {ops : List (Op α ε)} (h : Represents list m s) (hlegal : s.Legal list ops)
    (hfuel : s.nodes.length + ops.length < fuel) :
    ∃ m', run fuel list ops m = some (m', s.results ops) ∧ Represents list m' (s.after ops) ∧
      ∀ a, a ∉ list :: s.nodes → (∀ op ∈ ops, a ∉ op.nodes) → m' a = m a := by
  induction ops generalizing m s with
  | nil => exact ⟨m, rfl, h, fun _ _ _ => rfl⟩
  | cons op ops ih =>
    obtain ⟨hready, hrest⟩ := hlegal
    rw [List.length_cons] at hfuel
    have hroom : s.nodes.length < fuel := by omega
    obtain ⟨m₁, hexec, h₁, hother₁⟩ := Op.exec_refines h hready hroom
    have hlength := s.apply_length op
    obtain ⟨m', hrun, h', hother'⟩ := ih h₁ hrest (by omega)
    refine ⟨m', ?_, h', fun a ha hops => ?_⟩
    · rw [run]
      simp only [hexec, hrun, Option.bind_eq_bind, Option.bind_some, Sequence.results]
    · have hop := hops op List.mem_cons_self
      rw [hother' a ?_ fun op' hop' => hops op' (List.mem_cons_of_mem op hop'), hother₁ a ha hop]
      simp only [List.mem_cons, not_or] at ha ⊢
      exact ⟨ha.1, fun hmem => (Sequence.mem_apply hmem).elim ha.2 hop⟩

/-- The elements of the nodes of a list, in their order. -/
def Sequence.elements (s : Sequence α ε) : List ε := s.nodes.filterMap s.element

/-- The priorities of the elements do not increase along the list. -/
def NonIncreasing (mutexInfo : ε → SchedInfo) (s : Sequence α ε) : Prop :=
  s.elements.Pairwise fun e f => (mutexInfo f).priority ≤ (mutexInfo e).priority

omit [DecidableEq α] [DecidableEq ε] in
/-- The list of elements that a thread keeps is the one of the nodes in the memory. -/
theorem elements_addHere {here : ε → ε → Bool} {e : ε} (he : s.element x = some e) {l : List α}
    (hl : ∀ a ∈ l, (s.element a).isSome) :
    (Sched.listAddHere (s.before here) x l).filterMap s.element =
      Sched.listAddHere here e (l.filterMap s.element) := by
  induction l with
  | nil => simp [Sched.listAddHere, he]
  | cons y l ih =>
    obtain ⟨f, hf⟩ := Option.isSome_iff_exists.mp (hl y List.mem_cons_self)
    have htail := ih fun a ha => hl a (List.mem_cons_of_mem y ha)
    have hbefore : s.before here x y = here e f := by simp [Sequence.before, he, hf]
    rw [List.filterMap_cons_some hf, Sched.listAddHere, Sched.listAddHere, hbefore]
    split
    · rw [List.filterMap_cons_some he, List.filterMap_cons_some hf]
    · rw [List.filterMap_cons_some hf, htail]

omit [DecidableEq α] [DecidableEq ε] in
/-- What comes behind a node that was inserted by priority has a lower one. -/
theorem lower_behind {mutexInfo : ε → SchedInfo} {e : ε} (he : s.element x = some e)
    (hall : ∀ a ∈ s.nodes, (s.element a).isSome) (h : NonIncreasing mutexInfo s) {a : α}
    (ha : a ∈ s.nodes.dropWhile fun y => !s.before (mutexPrioSmaller mutexInfo) x y) {f : ε}
    (hf : s.element a = some f) : (mutexInfo f).priority < (mutexInfo e).priority := by
  have hsorted := (List.pairwise_filterMap.mp h).sublist
    (List.dropWhile_sublist fun y => !s.before (mutexPrioSmaller mutexInfo) x y)
  have hhead := List.head?_dropWhile_not (fun y => !s.before (mutexPrioSmaller mutexInfo) x y) s.nodes
  have hsub := List.dropWhile_sublist (l := s.nodes)
    fun y => !s.before (mutexPrioSmaller mutexInfo) x y
  generalize (s.nodes.dropWhile fun y => !s.before (mutexPrioSmaller mutexInfo) x y) = behind at *
  cases behind with
  | nil => cases ha
  | cons b behind =>
    obtain ⟨g, hg⟩ := Option.isSome_iff_exists.mp (hall b (hsub.mem List.mem_cons_self))
    have hlt : (mutexInfo g).priority < (mutexInfo e).priority := by
      simpa [Sequence.before, he, hg, mutexPrioSmaller] using hhead
    rcases List.mem_cons.mp ha with rfl | ha
    · rw [hf] at hg
      exact Option.some.inj hg ▸ hlt
    · exact lt_of_le_of_lt ((List.pairwise_cons.mp hsorted).1 a ha g hg f hf) hlt

omit [DecidableEq ε] in
/-- An insertion by priority keeps the order, behind the nodes of equal priority. -/
theorem listAddHere_nonIncreasing {mutexInfo : ε → SchedInfo} (h : Represents list m s) {e : ε}
    (he : s.element x = some e) (hs : NonIncreasing mutexInfo s) :
    ∃ front back, s.nodes = front ++ back ∧
      (s.apply (.addHere x (mutexPrioSmaller mutexInfo))).nodes = front ++ x :: back ∧
      NonIncreasing mutexInfo (s.apply (.addHere x (mutexPrioSmaller mutexInfo))) ∧
      ∀ a ∈ back, ∀ f, s.element a = some f → (mutexInfo f).priority < (mutexInfo e).priority := by
  have hall : ∀ a ∈ s.nodes, (s.element a).isSome := fun a ha => by
    rw [← h.element]
    exact allocated_iff.mp (h.links.allocated (List.mem_cons_of_mem list ha))
  refine ⟨_, _, List.takeWhile_append_dropWhile.symm, listAddHere_split _ _ _, ?_, fun a ha f hf => ?_⟩
  · rw [NonIncreasing, Sequence.elements]
    simp only [Sequence.apply]
    rw [elements_addHere he hall]
    exact listAddHere_sorted hs
  · exact lower_behind he hall hs ha hf

/-- A list in the memory refines the sequence of its nodes: any row of operations does to the one what
it does to the other, and nothing to other lists; and an insertion by priority keeps the order. -/
theorem list_refines_sequence (h : Represents list m s) :
    (∀ ops fuel, s.Legal list ops → s.nodes.length + ops.length < fuel →
      ∃ m', run fuel list ops m = some (m', s.results ops) ∧ Represents list m' (s.after ops) ∧
        (∀ a, a ∉ list :: s.nodes → (∀ op ∈ ops, a ∉ op.nodes) → m' a = m a) ∧
        ∀ other l, Links m (other :: l) →
          (∀ a ∈ other :: l, a ∉ list :: s.nodes ∧ ∀ op ∈ ops, a ∉ op.nodes) →
          Links m' (other :: l)) ∧
    ∀ (mutexInfo : ε → SchedInfo) node e fuel, node ∉ list :: s.nodes → s.element node = some e →
      s.nodes.length < fuel → NonIncreasing mutexInfo s →
      ∃ m' front back, listAddHere fuel list node (mutexPrioSmaller mutexInfo) m = some m' ∧
        s.nodes = front ++ back ∧ Represents list m' ⟨front ++ node :: back, s.element⟩ ∧
        NonIncreasing mutexInfo ⟨front ++ node :: back, s.element⟩ ∧
        ∀ a ∈ back, ∀ f, s.element a = some f → (mutexInfo f).priority < (mutexInfo e).priority := by
  refine ⟨fun ops fuel hlegal hfuel => ?_, fun mutexInfo node e fuel hx he hfuel hs => ?_⟩
  · obtain ⟨m', hrun, hrep, hother⟩ := run_refines h hlegal hfuel
    refine ⟨m', hrun, hrep, hother, fun other l hlinks hdisjoint => hlinks.congr fun a ha => ?_⟩
    exact hother a (hdisjoint a ha).1 (hdisjoint a ha).2
  · obtain ⟨front, back, hnodes, hafter, hsorted, hlower⟩ := listAddHere_nonIncreasing h he hs
    have hready : (Op.addHere node (mutexPrioSmaller mutexInfo)).Ready list s :=
      ⟨hx, by rw [he]; rfl⟩
    obtain ⟨m', hexec, hrep, -⟩ := Op.exec_refines h hready hfuel
    obtain ⟨m'', hadd, heq⟩ := Option.map_eq_some_iff.mp hexec
    obtain ⟨rfl, -⟩ := Prod.mk.inj heq
    have happly : s.apply (.addHere node (mutexPrioSmaller mutexInfo)) =
        ⟨front ++ node :: back, s.element⟩ := congrArg (Sequence.mk · s.element) hafter
    rw [happly] at hrep hsorted
    exact ⟨m'', front, back, hadd, hnodes, hrep, hsorted, hlower⟩

/-- A list of one node, and a node that is not in it. -/
def oneNode : Memory Nat Nat
  | 0 => some ⟨some 1, none, 0⟩
  | 1 => some ⟨none, some 0, 10⟩
  | 2 => some ⟨none, none, 10⟩
  | _ => none

theorem oneNode_represents : Represents 0 oneNode ⟨[1], elementOf oneNode⟩ where
  links := by
    refine ⟨⟨by decide, List.isChain_cons_cons.mpr ⟨rfl, List.isChain_singleton 1⟩, fun a ha => ?_⟩,
      List.isChain_cons_cons.mpr ⟨rfl, List.isChain_singleton 1⟩⟩
    obtain rfl : 1 = a := Option.some.inj ha
    rfl
  element := rfl

/-- A row of operations on the list of one node, and an insertion of an element of equal priority. -/
theorem oneNode_run :
    (∃ m', run 9 0 [.new 3 ⟨none, none, 12⟩, .add 3 true, .rm 1, .findElem 12, .clear] oneNode =
      some (m', [none, none, none, some 3, none])) ∧
    ∃ m', listAddHere 9 0 2 (mutexPrioSmaller (SchedInfo.mk .fifo)) oneNode = some m' ∧
      Links m' [0, 1, 2] := by
  obtain ⟨hrun, hadd⟩ := list_refines_sequence oneNode_represents
  refine ⟨?_, ?_⟩
  · have hlegal : Sequence.Legal 0 ⟨[1], elementOf oneNode⟩
        [.new 3 ⟨none, none, 12⟩, .add 3 true, .rm 1, .findElem 12, .clear] :=
      ⟨rfl, ⟨by decide, rfl⟩, List.mem_cons_of_mem 3 (List.mem_singleton_self 1), trivial, trivial, trivial⟩
    obtain ⟨m', hm, -⟩ := hrun _ 9 hlegal (by decide)
    exact ⟨m', hm⟩
  · have hsorted : NonIncreasing (SchedInfo.mk .fifo) ⟨[1], elementOf oneNode⟩ :=
      List.pairwise_singleton _ _
    obtain ⟨m', front, back, hm, hnodes, hrep, -, hlower⟩ :=
      hadd (SchedInfo.mk .fifo) 2 10 9 (by decide) rfl (by decide) hsorted
    cases front with
    | nil =>
      have hlt := hlower 1 (by rw [← List.nil_append back, ← hnodes]; exact List.mem_singleton_self 1) 10 rfl
      exact absurd hlt (by decide)
    | cons a front =>
      obtain ⟨rfl, hrest⟩ := List.cons.inj hnodes
      obtain ⟨rfl, rfl⟩ := List.append_eq_nil_iff.mp hrest.symm
      exact ⟨m', hm, hrep.links⟩

end ThreadBites.Lists

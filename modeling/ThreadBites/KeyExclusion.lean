import ThreadBites.KeyRaces

/-!
# Who gets a key

If every compare-and-swap that succeeds has a value of the parity that was
tested, the successful swaps of a slot alternate: it is acquired, released,
acquired and so on. Two creations that both test a free slot break that, since
the second one reads the number that the first one left.
-/
namespace ThreadBites.KeyRaces

open Transition Keys

variable {τ φ : Type}

/-- The last successful swap of the key acquired it. -/
def live (key : Nat) : List (Swap τ) → Bool
  | [] => false
  | x :: rest => if x.acquires key then true else if x.releases key then false else live key rest

/-- Each swap acquired a key that was not live or released one that was. -/
def Alternates : List (Swap τ) → Prop
  | [] => True
  | x :: rest => (∀ key, x.acquires key = true → live key rest = false) ∧
      (∀ key, x.releases key = true → live key rest = true) ∧ Alternates rest

section

variable {key : Nat} {newer older : List (Swap τ)}

theorem Alternates.suffix (h : Alternates (newer ++ older)) : Alternates older := by
  induction newer with
  | nil => exact h
  | cons x newer ih => exact ih h.2.2

/-- A key that stops to be live was released. -/
theorem released_of_dead (hl : live key older = true) (hd : live key (newer ++ older) = false) :
    ∃ x ∈ newer, x.releases key = true := by
  induction newer with
  | nil => exact absurd (hl.symm.trans hd) (by decide)
  | cons x newer ih =>
    simp only [List.cons_append, live] at hd
    cases ha : x.acquires key with
    | true => rw [ha, if_pos rfl] at hd; cases hd
    | false =>
      cases hr : x.releases key with
      | true => exact ⟨x, List.mem_cons_self .., hr⟩
      | false =>
        simp only [ha, hr, Bool.false_eq_true, if_false] at hd
        obtain ⟨y, hy, hyr⟩ := ih hd
        exact ⟨y, List.mem_cons_of_mem x hy, hyr⟩

/-- The first swap of a live key releases it. -/
theorem Alternates.released (h : Alternates (newer ++ older)) (hl : live key older = true)
    (ht : ∃ x ∈ newer, x.acquires key = true ∨ x.releases key = true) : ∃ x ∈ newer, x.releases key = true := by
  obtain ⟨x, hx, ha | hr⟩ := ht
  · obtain ⟨front, back, rfl⟩ := List.append_of_mem hx
    rw [List.append_assoc, List.cons_append] at h
    obtain ⟨y, hy, hyr⟩ := released_of_dead hl (h.suffix.1 key ha)
    exact ⟨y, by simp [hy], hyr⟩
  · exact ⟨x, hx, hr⟩

/-- A key that is released while nobody acquires it is released once, and then is not live. -/
theorem Alternates.one_release (h : Alternates (newer ++ older))
    (hr : ∃ x ∈ newer, x.releases key = true) (hn : ∀ x ∈ newer, x.acquires key = false) :
    newer.countP (·.releases key) = 1 ∧ live key (newer ++ older) = false := by
  induction newer with
  | nil => obtain ⟨x, hx, -⟩ := hr; cases hx
  | cons x newer ih =>
    have hna := hn x (List.mem_cons_self ..)
    have hrest := fun y hy => hn y (List.mem_cons_of_mem x hy)
    simp only [List.cons_append, live, hna, Bool.false_eq_true, if_false, List.countP_cons]
    cases hx : x.releases key with
    | true =>
      have hnone : ∀ y ∈ newer, y.releases key = false := by
        intro y hy
        by_contra hyr
        have := (ih h.2.2 ⟨y, hy, by simpa using hyr⟩ hrest).2
        exact absurd (this.symm.trans (h.2.1 key hx)) (by decide)
      have hzero : newer.countP (·.releases key) = 0 := by
        rw [List.countP_eq_zero]
        intro y hy
        simp [hnone y hy]
      rw [hzero]
      exact ⟨rfl, rfl⟩
    | false =>
      obtain ⟨y, hy, hyr⟩ := hr
      have hmem : y ∈ newer := by
        rcases List.mem_cons.mp hy with rfl | hy
        · exact absurd (hyr.symm.trans hx) (by decide)
        · exact hy
      simpa using ih h.2.2 ⟨y, hmem, hyr⟩ hrest

end

/-- Some swap of the key is among `since`. -/
def Touched (key : Nat) (since : List (Swap τ)) : Prop :=
  ∃ x ∈ since, x.acquires key = true ∨ x.releases key = true

/-- What a thread at a place knows of the swaps since its call began and of those `before` it. -/
def Placed (keys : Nat → Slot φ) (t : τ) (before since : List (Swap τ)) : Pc φ → Prop
  | .out => True
  | .created _ key => ∀ k, key = some k → .acquired t k ∈ since
  | .deleted key ret => (ret = 0 ↔ .released t key ∈ since) ∧
      (live key before = true → ∃ x ∈ since, x.releases key = true)
  | .test _ i => i < maxKeys ∧ ∀ k, .released t k ∉ since
  | .reread _ i expected _ => i < maxKeys ∧ (∀ k, .released t k ∉ since) ∧
      (Touched i since ∨ ∀ e, expected = some e → e = (keys i).seq)
  | .storeDestructor _ i => .acquired t i ∈ since

structure Inv (s : State τ φ) : Prop where
  odd : ∀ k, (s.keys k).seq % 2 = 1 ↔ live k s.log = true
  range : ∀ k, live k s.log = true → k < maxKeys
  alternates : Alternates s.log
  place : ∀ t, ∃ since, s.log = since ++ s.called t ∧ Placed s.keys t (s.called t) since (s.pc t)

theorem inv_start : Inv (State.start : State τ φ) where
  odd k := by simp [State.start, live]
  range k h := by simp [State.start, live] at h
  alternates := trivial
  place t := ⟨[], rfl, trivial⟩

/-- A step that swaps nothing leaves what the other threads know. -/
theorem Placed.of_seq {keys keys' : Nat → Slot φ} {t : τ} {before since : List (Swap τ)} {c : Pc φ}
    (h : Placed keys t before since c) (hk : ∀ i, (keys' i).seq = (keys i).seq) :
    Placed keys' t before since c := by
  cases c with
  | reread f i expected new => exact ⟨h.1, h.2.1, h.2.2.imp id fun he e hx => (he e hx).trans (hk i).symm⟩
  | _ => exact h

/-- A swap of another thread is one more of those since the call began. -/
theorem Placed.cons {keys : Nat → Slot φ} {t u : τ} {before since : List (Swap τ)} {c : Pc φ} {f : Call φ}
    {i new : Nat} (h : Placed keys t before since c) (hne : t ≠ u) :
    Placed (Function.update keys i { keys i with seq := new }) t before (f.entry u i :: since) c := by
  have hnot : ∀ k, Swap.released t k ≠ f.entry u i := by
    intro k he
    cases f <;> simp only [Call.entry] at he <;> cases he
    exact hne rfl
  cases c with
  | out => trivial
  | created ret key => exact fun k hk => List.mem_cons_of_mem _ (h k hk)
  | deleted key ret =>
    refine ⟨h.1.trans ⟨List.mem_cons_of_mem _, fun hm => ?_⟩, fun hl => ?_⟩
    · exact (List.mem_cons.mp hm).resolve_left (hnot key)
    · obtain ⟨x, hx, hr⟩ := h.2 hl
      exact ⟨x, List.mem_cons_of_mem _ hx, hr⟩
  | test g j =>
    exact ⟨h.1, fun k hm => h.2 k ((List.mem_cons.mp hm).resolve_left (hnot k))⟩
  | reread g j expected new' =>
    refine ⟨h.1, fun k hm => h.2.1 k ((List.mem_cons.mp hm).resolve_left (hnot k)), ?_⟩
    by_cases hj : j = i
    · subst j
      exact .inl ⟨_, List.mem_cons_self .., by cases f <;> simp [Call.entry, Swap.acquires, Swap.releases]⟩
    · rw [Function.update_of_ne hj]
      refine h.2.2.imp (fun ⟨x, hx, ht⟩ => ⟨x, List.mem_cons_of_mem _ hx, ht⟩) id
  | storeDestructor destructor j => exact List.mem_cons_of_mem _ h

/-- A call that does not get its slot goes on to the next one or returns. -/
theorem placed_failed {keys : Nat → Slot φ} {t : τ} {before since : List (Swap τ)} {f : Call φ} {i : Nat}
    (hno : ∀ k, .released t k ∉ since)
    (hr : f.wants = false → live i before = true → ∃ x ∈ since, x.releases i = true) :
    Placed keys t before since (f.failed i) := by
  cases f with
  | create destructor =>
    simp only [Call.failed]
    split
    · rename_i hi; exact ⟨hi, hno⟩
    · exact fun k hk => by cases hk
  | delete => exact ⟨⟨fun h => absurd h (by decide), fun h => absurd h (hno i)⟩, hr rfl⟩

variable [DecidableEq τ]

/-- A step that swaps nothing moves its own thread to a place where what it knows suits. -/
theorem Inv.goto {s : State τ φ} (h : Inv s) {t : τ} {c : Pc φ}
    (hc : ∀ since, s.log = since ++ s.called t → Placed s.keys t (s.called t) since (s.pc t) →
      Placed s.keys t (s.called t) since c) : Inv (s.goto t c) where
  odd := h.odd
  range := h.range
  alternates := h.alternates
  place u := by
    obtain ⟨since, hlog, hp⟩ := h.place u
    refine ⟨since, hlog, ?_⟩
    by_cases hu : u = t
    · subst u
      simpa [State.goto] using hc since hlog hp
    · simpa [State.goto, hu] using hp

theorem Inv.call {s : State τ φ} (h : Inv s) {t : τ} {c : Pc φ} (hc : Placed s.keys t s.log [] c) :
    Inv (s.call t c) where
  odd := h.odd
  range := h.range
  alternates := h.alternates
  place u := by
    by_cases hu : u = t
    · subst u
      exact ⟨[], by simp [State.call, State.goto], by simpa [State.call, State.goto] using hc⟩
    · obtain ⟨since, hlog, hp⟩ := h.place u
      exact ⟨since, by simpa [State.call, State.goto, hu] using hlog, by simpa [State.call, State.goto, hu] using hp⟩

theorem Inv.swapped {s : State τ φ} (h : Inv s) {t : τ} {f : Call φ} {i new : Nat}
    (hpc : s.pc t = .reread f i (some (s.keys i).seq) (some new)) (hw : keyUnused (s.keys i).seq = f.wants)
    (hn : keyUnused new = !f.wants) : Inv (s.swapped t f i new) := by
  have hi : i < maxKeys := by
    obtain ⟨since, -, hp⟩ := h.place t
    rw [hpc] at hp
    exact hp.1
  have hodd := h.odd i
  have hparity : ∀ k, ((s.swapped t f i new).keys k).seq % 2 = 1 ↔ live k (s.swapped t f i new).log = true := by
    intro k
    by_cases hk : k = i
    · subst k
      cases f <;> simp [State.swapped, State.goto, live, Call.entry, Call.wants, Swap.acquires, Swap.releases] at hn ⊢ <;>
        omega
    · have hki := Ne.symm hk
      have := h.odd k
      cases f <;>
        simpa [State.swapped, State.goto, live, Call.entry, Swap.acquires, Swap.releases, hk, hki] using this
  constructor
  · exact hparity
  · intro k hl
    by_cases hk : k = i
    · rw [hk]; exact hi
    · refine h.range k ?_
      have hki := Ne.symm hk
      cases f <;> simpa [State.swapped, State.goto, live, Call.entry, Swap.acquires, Swap.releases, hki] using hl
  · refine ⟨fun k hk => ?_, fun k hk => ?_, h.alternates⟩
    · cases f with
      | create destructor =>
        obtain rfl : i = k := by simpa [Call.entry, Swap.acquires] using hk
        rw [Bool.eq_false_iff, ne_eq, ← hodd]
        simp [Call.wants] at hw
        omega
      | delete => cases hk
    · cases f with
      | create destructor => cases hk
      | delete =>
        obtain rfl : i = k := by simpa [Call.entry, Swap.releases] using hk
        rw [← hodd]
        simpa [Call.wants] using hw
  · intro u
    obtain ⟨since, hlog, hp⟩ := h.place u
    refine ⟨f.entry t i :: since, by simp [State.swapped, State.goto, hlog], ?_⟩
    by_cases hu : u = t
    · subst u
      cases f with
      | create destructor => simp [State.swapped, State.goto, Call.succeeded, Placed, Call.entry]
      | delete => simp [State.swapped, State.goto, Call.succeeded, Placed, Call.entry, Swap.releases]
    · simpa [State.swapped, State.goto, hu] using hp.cons hu

theorem Inv.step {s s' : State τ φ} {a : Action τ φ} (h : Inv s) (ha : Apt s a) (hs : Stepped s a s') : Inv s' := by
  cases hs with
  | keyCreate ho => exact h.call ⟨by decide, fun k hm => by cases hm⟩
  | keyDelete ho hk => exact h.call ⟨hk, fun k hm => by cases hm⟩
  | @outOfRange t key ho hk =>
    refine h.call ⟨⟨fun h => absurd h (by decide), fun hm => by cases hm⟩, fun hl => ?_⟩
    have := h.range key hl
    omega
  | passed hpc hw =>
    refine h.goto fun since _ hp => ?_
    rw [hpc] at hp
    exact ⟨hp.1, hp.2, .inr fun e he => by cases he⟩
  | @turned t f i hpc hw =>
    refine h.goto fun since hlog hp => ?_
    rw [hpc] at hp
    refine placed_failed hp.2 fun hf hl => released_of_dead hl ?_
    -- the test saw an even number
    rw [← hlog, Bool.eq_false_iff, ne_eq, ← h.odd]
    rw [hf] at hw
    simp at hw
    omega
  | readExpected hpc =>
    refine h.goto fun since _ hp => ?_
    rw [hpc] at hp
    exact ⟨hp.1, hp.2.1, .inr fun e he => (Option.some.inj he).symm⟩
  | readNew hpc =>
    refine h.goto fun since _ hp => ?_
    rw [hpc] at hp
    exact hp
  | swapped hpc =>
    unfold Apt at ha
    simp only at ha
    rw [hpc] at ha
    exact h.swapped hpc (ha rfl).1 (ha rfl).2
  | @missed t f i expected new hpc he =>
    refine h.goto fun since hlog hp => ?_
    rw [hpc] at hp
    obtain ⟨-, hno, ht⟩ := hp
    refine placed_failed hno fun _ hl => ?_
    -- the number is not the one that was read, so somebody swapped it since
    exact (hlog ▸ h.alternates).released hl (ht.resolve_right fun hx => he (hx expected rfl).symm)
  | @stored t destructor i hpc =>
    have hseq : ∀ k, (Function.update s.keys i { s.keys i with destructor := destructor } k).seq = (s.keys k).seq := by
      intro k
      by_cases hk : k = i
      · subst k; simp
      · simp [hk]
    constructor
    · exact fun k => (iff_of_eq (by simp only [State.goto, hseq])).trans (h.odd k)
    · exact h.range
    · exact h.alternates
    · intro u
      obtain ⟨since, hlog, hp⟩ := h.place u
      refine ⟨since, hlog, ?_⟩
      by_cases hu : u = t
      · subst u
        rw [hpc] at hp
        simpa [State.goto, Placed] using hp
      · simpa [State.goto, hu] using hp.of_seq hseq

theorem reaches_inv {s : State τ φ} (h : Reaches Initial KeyRaces.step Apt s) : Inv s :=
  h.invariant (fun _ h₀ => h₀ ▸ inv_start) fun _ _ _ _ hi ha hs => hi.step ha (step_stepped hs)

/-- Keys are given to one creation at a time, in a state and in the steps from it that meet `ok`. -/
structure Exclusive (ok : State τ φ → Action τ φ → Prop) (s : State τ φ) : Prop where
  between : ∀ key newer middle older t u,
    s.log = newer ++ .acquired t key :: (middle ++ .acquired u key :: older) → ∃ x ∈ middle, x.releases key = true
  live : ∀ key, keyUnused (s.keys key).seq = false ↔ live key s.log = true
  created : ∀ t key, s.pc t = .created 0 (some key) → ∃ newer since,
    s.log = newer ++ .acquired t key :: (since ++ s.called t) ∧
    ((∀ x ∈ newer, x.releases key = false) → keyUnused (s.keys key).seq = false)
  deleted : ∀ t key ret, s.pc t = .deleted key ret → ∃ since, s.log = since ++ s.called t ∧
    (ret = 0 ↔ .released t key ∈ since) ∧
    (KeyRaces.live key (s.called t) = true → ∃ x ∈ since, x.releases key = true) ∧
    (KeyRaces.live key (s.called t) = true → (∀ x ∈ since, x.acquires key = false) →
      since.countP (·.releases key) = 1 ∧ keyUnused (s.keys key).seq = true)
  acquires : ∀ a s' key, ok s a → step s a = some s' → keyUnused (s.keys key).seq = true →
    keyUnused (s'.keys key).seq = false → ∃ t destructor, a = .swap t ∧ s'.log = .acquired t key :: s.log ∧
      s'.pc t = .storeDestructor destructor key
  releases : ∀ a s' t key, ok s a → step s a = some s' → s'.log = .released t key :: s.log →
    keyUnused (s.keys key).seq = false ∧ keyUnused (s'.keys key).seq = true ∧ s'.pc t = .deleted key 0

omit [DecidableEq τ] in
theorem Inv.live {s : State τ φ} (h : Inv s) (key : Nat) :
    keyUnused (s.keys key).seq = false ↔ live key s.log = true :=
  (keyUnused_eq_false _).trans (h.odd key)

omit [DecidableEq τ] in
theorem Inv.between {s : State τ φ} (h : Inv s) {key : Nat} {newer middle older : List (Swap τ)} {t u : τ}
    (hlog : s.log = newer ++ .acquired t key :: (middle ++ .acquired u key :: older)) :
    ∃ x ∈ middle, x.releases key = true := by
  have halt := h.alternates
  rw [hlog] at halt
  have hdead := halt.suffix.1 key (by simp [Swap.acquires])
  exact released_of_dead (by simp [KeyRaces.live, Swap.acquires]) hdead

omit [DecidableEq τ] in
theorem Inv.created {s : State τ φ} (h : Inv s) {t : τ} {key : Nat} (hpc : s.pc t = .created 0 (some key)) :
    ∃ newer since, s.log = newer ++ .acquired t key :: (since ++ s.called t) ∧
      ((∀ x ∈ newer, x.releases key = false) → keyUnused (s.keys key).seq = false) := by
  obtain ⟨since, hlog, hp⟩ := h.place t
  rw [hpc] at hp
  obtain ⟨newer, middle, rfl⟩ := List.append_of_mem (hp key rfl)
  refine ⟨newer, middle, by simpa using hlog, fun hno => ?_⟩
  rw [h.live, hlog]
  by_contra hd
  rw [Bool.not_eq_true, List.append_assoc, List.cons_append] at hd
  obtain ⟨x, hx, hr⟩ := released_of_dead (by simp [KeyRaces.live, Swap.acquires]) hd
  exact absurd (hr.symm.trans (hno x hx)) (by decide)

omit [DecidableEq τ] in
theorem Inv.deleted {s : State τ φ} (h : Inv s) {t : τ} {key : Nat} {ret : Int} (hpc : s.pc t = .deleted key ret) :
    ∃ since, s.log = since ++ s.called t ∧ (ret = 0 ↔ .released t key ∈ since) ∧
      (KeyRaces.live key (s.called t) = true → ∃ x ∈ since, x.releases key = true) ∧
      (KeyRaces.live key (s.called t) = true → (∀ x ∈ since, x.acquires key = false) →
        since.countP (·.releases key) = 1 ∧ keyUnused (s.keys key).seq = true) := by
  obtain ⟨since, hlog, hp⟩ := h.place t
  rw [hpc] at hp
  refine ⟨since, hlog, hp.1, hp.2, fun hl hn => ?_⟩
  obtain ⟨hone, hdead⟩ := (hlog ▸ h.alternates).one_release (hp.2 hl) hn
  refine ⟨hone, ?_⟩
  by_contra hu
  rw [Bool.not_eq_true, h.live, hlog, hdead] at hu
  cases hu

omit [DecidableEq τ] in
theorem entry_acquires {t : τ} {f : Call φ} {i : Nat} (hf : f.wants = true) :
    (∃ destructor, f.succeeded i = .storeDestructor destructor i) ∧ f.entry t i = .acquired t i := by
  cases f with
  | create destructor => exact ⟨⟨destructor, rfl⟩, rfl⟩
  | delete => cases hf

theorem Inv.exclusive {s : State τ φ} (h : Inv s) : Exclusive Apt s where
  between key newer middle older t u hlog := h.between hlog
  live := h.live
  created t key hpc := h.created hpc
  deleted t key ret hpc := h.deleted hpc
  acquires a s' key ha hs hfree hlive := by
    have hchanged : (s.keys key).seq ≠ (s'.keys key).seq := by
      intro he
      rw [← he, hfree] at hlive
      cases hlive
    cases step_stepped hs with
    | @swapped t f i new hpc =>
      unfold Apt at ha
      simp only at ha
      rw [hpc] at ha
      by_cases hk : key = i
      · subst key
        obtain ⟨⟨destructor, hd⟩, he⟩ := entry_acquires (t := t) (i := i) ((ha rfl).1.symm.trans hfree)
        exact ⟨t, destructor, rfl, by simp [State.swapped, State.goto, he], by simp [State.swapped, State.goto, hd]⟩
      · exact absurd (by simp [State.swapped, State.goto, hk]) hchanged
    | @stored t destructor i hpc =>
      refine absurd ?_ hchanged
      by_cases hk : key = i
      · subst key; simp [State.goto]
      · simp [State.goto, hk]
    | _ => exact absurd rfl hchanged
  releases a s' t key ha hs hlog := by
    cases step_stepped hs with
    | @swapped u f i new hpc =>
      unfold Apt at ha
      simp only at ha
      rw [hpc] at ha
      obtain ⟨hw, hn⟩ := ha rfl
      cases f with
      | create destructor => simp [State.swapped, State.goto, Call.entry] at hlog
      | delete =>
        simp only [State.swapped, State.goto, Call.entry, List.cons.injEq, Swap.released.injEq, and_true] at hlog
        obtain ⟨rfl, rfl⟩ := hlog
        exact ⟨hw, by simpa [State.swapped, State.goto, Call.wants] using hn,
          by simp [State.swapped, State.goto, Call.succeeded]⟩
    | _ => exact absurd hlog.symm (List.cons_ne_self _ _)

/-- In every run where the compare-and-swaps that succeed have values of the tested parity, keys are given
to one creation at a time. -/
theorem keys_exclusive {s : State τ φ} (h : Reaches Initial step Apt s) : Exclusive Apt s :=
  (reaches_inv h).exclusive

/-- Thread `t` creates a key, up to where it is about to swap. -/
def creating (t : τ) : List (Action τ φ) := [.keyCreate t none, .test t, .readExpected t, .readNew t]

/-- Thread `t` creates a key, and `t` and `u` delete it at the same time. -/
def deletedTwice (t u : τ) (key : Nat) : List (Action τ φ) :=
  creating t ++ [Action.swap t, Action.storeDestructor t, Action.keyDelete t key, Action.keyDelete u key, Action.test t,
    Action.test u, Action.readExpected t, Action.readExpected u, Action.readNew t, Action.readNew u, Action.swap u,
    Action.swap t]

theorem keys_exclusive_deleted : ∃ s : State (Fin 2) Nat,
    s.pc 0 = .deleted 0 (-EINVAL) ∧ s.pc 1 = .deleted 0 0 ∧ Exclusive Apt s := by
  obtain ⟨s, hr, h0, h1⟩ : ∃ s : State (Fin 2) Nat, Reaches Initial step Apt s ∧
      s.pc 0 = .deleted 0 (-EINVAL) ∧ s.pc 1 = .deleted 0 0 :=
    ⟨_, Reaches.run_get (show Initial State.start from rfl)
      (show (run step Apt (deletedTwice (0 : Fin 2) 1 0) State.start).isSome from by decide), by decide, by decide⟩
  exact ⟨s, h0, h1, keys_exclusive hr⟩

/-- Two threads test slot 0 while it is free; the second one reads the number that the swap of the first one
left, and both get the key, which then is not live. -/
def createdTwice (t u : τ) : List (Action τ φ) :=
  [Action.keyCreate u none, Action.test u] ++ creating t ++ [Action.swap t, Action.storeDestructor t,
    Action.readExpected u, Action.readNew u, Action.swap u, Action.storeDestructor u]

theorem keys_shared : ∃ s : State (Fin 2) Nat, Reaches Initial step anyStep s ∧
    s.pc 0 = .created 0 (some 0) ∧ s.pc 1 = .created 0 (some 0) ∧ s.log = [.acquired 1 0, .acquired 0 0] ∧
    keyUnused (s.keys 0).seq = true ∧ ¬ Exclusive anyStep s := by
  obtain ⟨s, hr, h0, h1, hlog, hu⟩ : ∃ s : State (Fin 2) Nat, Reaches Initial step anyStep s ∧
      s.pc 0 = .created 0 (some 0) ∧ s.pc 1 = .created 0 (some 0) ∧ s.log = [.acquired 1 0, .acquired 0 0] ∧
      keyUnused (s.keys 0).seq = true :=
    ⟨_, Reaches.run_get (show Initial State.start from rfl)
      (show (run step anyStep (createdTwice (0 : Fin 2) 1) State.start).isSome from by decide),
      by decide, by decide, by decide, by decide⟩
  refine ⟨s, hr, h0, h1, hlog, hu, fun h => ?_⟩
  obtain ⟨x, hx, -⟩ := h.between 0 [] [] [] 1 0 hlog
  cases hx

end ThreadBites.KeyRaces

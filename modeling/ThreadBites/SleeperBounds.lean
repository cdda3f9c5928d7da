import ThreadBites.InheritBoost

/-!
# The priority that a sleeper is recorded with

The entry of an owner is only raised while it owns the mutex, so what a thread
records with the owner stays recorded until somebody takes the mutex, and bounds
the thread when it sleeps. The next owner has a cleared entry, whoever sleeps.
-/
namespace ThreadBites.InheritBoost

open Transition WaitQueue Sched

variable {τ μ : Type} [DecidableEq μ]

section Entries

variable {m k : μ} {info : SchedInfo} {th : Thread μ} {mutexInfo : μ → SchedInfo}

theorem filter_eraseP_self (l : List (μ × SchedInfo)) :
    (l.eraseP fun im => im.1 = m).filter (fun im => im.1 = m) = (l.filter fun im => im.1 = m).tail := by
  induction l with
  | nil => rfl
  | cons im rest ih =>
    by_cases h : im.1 = m
    · rw [List.eraseP_cons_of_pos (by simpa using h), List.filter_cons_of_pos (by simpa using h), List.tail_cons]
    · rw [List.eraseP_cons_of_neg (by simpa using h), List.filter_cons_of_neg (by simpa using h),
        List.filter_cons_of_neg (by simpa using h), ih]

theorem filter_eraseP_other (h : k ≠ m) (l : List (μ × SchedInfo)) :
    (l.eraseP fun im => im.1 = k).filter (fun im => im.1 = m) = l.filter fun im => im.1 = m := by
  induction l with
  | nil => rfl
  | cons im rest ih =>
    by_cases hk : im.1 = k
    · have hm : im.1 ≠ m := hk ▸ h
      rw [List.eraseP_cons_of_pos (by simpa using hk), List.filter_cons_of_neg (by simpa using hm)]
    · rw [List.eraseP_cons_of_neg (by simpa using hk), List.filter_cons, List.filter_cons, ih]

theorem filter_setEntry_self (l : List (μ × SchedInfo)) :
    (setEntry m info l).filter (fun im => im.1 = m) = match l.filter (fun im => im.1 = m) with
      | [] => []
      | _ :: rest => (m, info) :: rest := by
  induction l with
  | nil => rfl
  | cons im rest ih =>
    by_cases h : im.1 = m
    · simp [setEntry, h]
    · rw [setEntry, if_neg h, List.filter_cons_of_neg (by simpa using h), List.filter_cons_of_neg (by simpa using h), ih]

theorem filter_setEntry_other (h : k ≠ m) (l : List (μ × SchedInfo)) :
    (setEntry k info l).filter (fun im => im.1 = m) = l.filter fun im => im.1 = m := by
  induction l with
  | nil => rfl
  | cons im rest ih =>
    by_cases hk : im.1 = k
    · rw [setEntry, if_pos hk, List.filter_cons_of_neg (by simpa using h),
        List.filter_cons_of_neg (by simpa using hk ▸ h)]
    · rw [setEntry, if_neg hk, List.filter_cons, List.filter_cons, ih]

theorem find_eq_head (th : Thread μ) (m : μ) : th.find m = (entries m th).head? := (List.head?_filter ..).symm

/-- Taking the mutex adds a cleared entry. -/
theorem entries_inheritMutexAdd (h : entries m th = []) : entries m (inheritMutexAdd m th) = [(m, .zero)] := by
  have ha : entries m (inheritMutexAdd m th) = entries m th ++ [(m, .zero)] := by
    simp [entries, inheritMutexAdd, List.filter_append]
  rw [ha, h]
  rfl

/-- Giving the mutex back removes its entry. -/
theorem entries_inheritMutexUnsched {im : μ × SchedInfo} (h : entries m th = [im]) (ret : Int) :
    entries m (inheritMutexUnsched mutexInfo m th ret) = [] := by
  unfold entries at h ⊢
  rw [inheritMutexUnsched_inheritMutexes, filter_eraseP_self, h]
  rfl

/-- Who goes through the section finds its priority recorded, and nobody's priority is lowered. -/
theorem entries_inheritMutexSched {e : SchedInfo} {rest : List (μ × SchedInfo)} (h : entries m th = (m, e) :: rest)
    (mutexInfo : μ → SchedInfo) (info : SchedInfo) (ret : Int) :
    ∃ e', entries m (inheritMutexSched mutexInfo m info th ret) = (m, e') :: rest ∧
      e.priority ≤ e'.priority ∧ info.priority ≤ e'.priority := by
  have hfind : th.find m = some (m, e) := by rw [find_eq_head, h]; rfl
  simp only [inheritMutexSched, hfind]
  split
  · rename_i hr
    refine ⟨info, ?_, ?_, Nat.le_refl _⟩
    · unfold entries at h ⊢
      simp only [Thread.computeSched, setSched_inheritMutexes]
      rw [filter_setEntry_self, h]
    · simp [raises] at hr
      omega
  · rename_i hr
    refine ⟨e, h, Nat.le_refl _, ?_⟩
    simp [raises] at hr
    omega

/-- A function that runs for another reason leaves the entries for the mutex. -/
theorem entries_run {f : Section μ} (hf : f.entry ≠ some m) :
    entries m (f.run mutexInfo th) = entries m th := by
  unfold entries
  cases f with
  | protectMutexSched k => simp [Section.run]
  | protectMutexUnsched k => simp [Section.run]
  | inheritMutexAdd k =>
    have hk : k ≠ m := by simpa [Section.entry] using hf
    simp [Section.run, inheritMutexAdd, List.filter_append, hk]
  | inheritMutexUnsched k =>
    have hk : k ≠ m := by simpa [Section.entry] using hf
    simp only [Section.run, inheritMutexUnsched_inheritMutexes]
    exact filter_eraseP_other hk _
  | inheritMutexSched k info =>
    have hk : k ≠ m := by simpa [Section.entry] using hf
    simp only [Section.run]
    rcases inheritMutexSched_inheritMutexes mutexInfo k th 0 info with he | he <;> rw [he]
    exact filter_setEntry_other hk _
  | setUser info => rfl
  | computeSched => simp [Section.run, Thread.computeSched]

/-- The thread runs with at least the priority of each of its entries. -/
def Covered (th : Thread μ) : Prop := ∀ im ∈ th.inheritMutexes, im.2.priority ≤ th.schedInfo.priority

omit [DecidableEq μ] in
theorem covered_computeSched (th : Thread μ) : Covered (th.computeSched mutexInfo 0) := by
  intro im him
  rw [Thread.computeSched, setSched_inheritMutexes] at him
  exact (effective_strongest mutexInfo th).priority_le (List.mem_cons_of_mem _ (List.mem_map_of_mem him))

/-- Every function recomputes, or leaves the setting and adds no entry that is not cleared. -/
theorem Covered.run (h : Covered th) (mutexInfo : μ → SchedInfo) (f : Section μ) : Covered (f.run mutexInfo th) := by
  cases f with
  | protectMutexSched k =>
    simp only [Section.run, protectMutexSched]
    split
    · exact covered_computeSched _
    · exact h
  | protectMutexUnsched k =>
    simp only [Section.run, protectMutexUnsched]
    split
    · split
      · exact covered_computeSched _
      · exact h
    · exact h
  | inheritMutexAdd k =>
    intro im him
    rcases List.mem_append.mp him with him | him
    · exact h im him
    · rw [List.mem_singleton.mp him]
      exact Nat.zero_le _
  | inheritMutexUnsched k =>
    simp only [Section.run, inheritMutexUnsched]
    split
    · exact h
    · split
      · exact covered_computeSched _
      · exact fun im him => h im (List.mem_of_mem_eraseP him)
  | inheritMutexSched k info =>
    simp only [Section.run, inheritMutexSched]
    split
    · exact h
    · split
      · exact covered_computeSched _
      · exact h
  | setUser info => exact h
  | computeSched => exact covered_computeSched _

end Entries

/-- What a thread recorded with the owner is still there, who sleeps for the mutex is recorded, and the
owner runs with what is recorded. -/
structure Inv (m : μ) (s : State τ μ) : Prop where
  word : s.futex = if s.owner.isSome then 1 else 0
  entry : ∀ o, s.owner = some o → ∃ e, entries m (s.thread o) = [(m, e)]
  noEntry : ∀ t, s.owner ≠ some t → entries m (s.thread t) = []
  covered : ∀ t, Covered (s.thread t)
  recorded : ∀ t o, s.takenSince t = false → s.owner = some o → ∀ im ∈ entries m (s.thread o),
    (s.checked t).priority ≤ im.2.priority
  bound : ∀ t o, s.pc t = .asleep → s.owner = some o → ∀ im ∈ entries m (s.thread o),
    (s.checked t).priority ≤ im.2.priority

theorem initial_inv {m : μ} {s : State τ μ} (h : Initial s) : Inv m s := by
  obtain ⟨hf, ho, hpc, hi⟩ := h
  constructor
  · rw [hf, ho]; rfl
  · simp [ho]
  · intro t _; simp [entries, hi t]
  · intro t im him; simp [hi t] at him
  · simp [ho]
  · simp [ho]

variable [DecidableEq τ] {mutexInfo : μ → SchedInfo} {m : μ} {s s' : State τ μ} {a : Action τ μ}

/-- A step that only moves a thread, and not to sleep. -/
theorem Inv.goto (h : Inv m s) {t : τ} {c : Pc} (hc : c ≠ .asleep) : Inv m (s.goto t c) where
  word := h.word
  entry := h.entry
  noEntry := h.noEntry
  covered := h.covered
  recorded := h.recorded
  bound u o hu := by
    by_cases hut : u = t
    · subst u
      exact absurd (by simpa [State.goto] using hu) hc
    · exact h.bound u o (by simpa [State.goto, hut] using hu)

theorem Inv.acquire (h : Inv m s) {t : τ} (hf : s.futex = 0)
    (hquiet : ∀ u, s.pc u = .asleep → (s.checked u).priority = 0) : Inv m (s.acquire m t) := by
  have hfree : s.owner = none := by
    have := h.word
    cases ho : s.owner with
    | none => rfl
    | some o => rw [hf, ho] at this; cases this
  have hnone : ∀ u, entries m (s.thread u) = [] := fun u => h.noEntry u (by rw [hfree]; simp)
  constructor
  · rfl
  · intro o ho
    obtain rfl : t = o := Option.some.inj ho
    exact ⟨.zero, by simpa [State.acquire, State.setThread, State.goto] using entries_inheritMutexAdd (hnone t)⟩
  · intro u hu
    have hut : u ≠ t := fun he => hu (he ▸ rfl)
    simpa [State.acquire, State.setThread, State.goto, hut] using hnone u
  · intro u
    by_cases hut : u = t
    · subst u
      have hc := (h.covered t).run (fun _ => .zero) (.inheritMutexAdd m)
      simp only [Section.run] at hc
      simpa [State.acquire, State.setThread, State.goto] using hc
    · simpa [State.acquire, State.setThread, State.goto, hut] using h.covered u
  · intro u o hu
    cases hu
  · intro u o hu _ im _
    by_cases hut : u = t
    · subst u
      simp [State.acquire, State.goto] at hu
    · have := hquiet u (by simpa [State.acquire, State.setThread, State.goto, hut] using hu)
      simp only [State.acquire, State.setThread, State.goto, this]
      exact Nat.zero_le _

theorem Inv.check (h : Inv m s) {t o : τ} (ho : s.owner = some o) : Inv m (s.check mutexInfo m t o) := by
  obtain ⟨e, he⟩ := h.entry o ho
  obtain ⟨e', he', hle, hinfo⟩ := entries_inheritMutexSched he mutexInfo (s.thread t).schedInfo 0
  have hentry : entries m ((s.check mutexInfo m t o).thread o) = [(m, e')] := by
    simpa [State.check, State.setThread, State.goto] using he'
  constructor
  · exact h.word
  · intro p hp
    obtain rfl : o = p := Option.some.inj (ho.symm.trans hp)
    exact ⟨e', hentry⟩
  · intro u hu
    have huo : u ≠ o := fun hx => hu (hx ▸ ho)
    simpa [State.check, State.setThread, State.goto, huo] using h.noEntry u hu
  · intro u
    by_cases huo : u = o
    · subst u
      have hc := (h.covered o).run mutexInfo (.inheritMutexSched m (s.thread t).schedInfo)
      simp only [Section.run] at hc
      simpa [State.check, State.setThread, State.goto] using hc
    · simpa [State.check, State.setThread, State.goto, huo] using h.covered u
  · intro u p hu hp im him
    obtain rfl : o = p := Option.some.inj (ho.symm.trans hp)
    rw [hentry, List.mem_singleton] at him
    by_cases hut : u = t
    · subst u
      simpa [State.check, State.setThread, State.goto, him] using hinfo
    · have hb := h.recorded u o (by simpa [State.check, State.setThread, State.goto, hut] using hu) ho (m, e)
        (by rw [he]; exact List.mem_singleton_self _)
      simp only [State.check, State.setThread, State.goto, Function.update_of_ne hut, him]
      exact Nat.le_trans hb hle
  · intro u p hu hp im him
    obtain rfl : o = p := Option.some.inj (ho.symm.trans hp)
    rw [hentry, List.mem_singleton] at him
    by_cases hut : u = t
    · subst u
      simp [State.check, State.goto] at hu
    · have hb := h.bound u o (by simpa [State.check, State.setThread, State.goto, hut] using hu) ho (m, e)
        (by rw [he]; exact List.mem_singleton_self _)
      simp only [State.check, State.setThread, State.goto, Function.update_of_ne hut, him]
      exact Nat.le_trans hb hle

theorem Inv.release (h : Inv m s) {t o : τ} (ho : s.owner = some o) (pc : τ → Pc) :
    Inv m { s.release mutexInfo m t o with pc := pc } := by
  obtain ⟨e, he⟩ := h.entry o ho
  constructor
  · rfl
  · intro p hp; cases hp
  · intro u _
    by_cases huo : u = o
    · subst u
      simpa [State.release, State.setThread, State.goto] using entries_inheritMutexUnsched he 0
    · have := h.noEntry u fun hu => huo (Option.some.inj (hu.symm.trans ho))
      simpa [State.release, State.setThread, State.goto, huo] using this
  · intro u
    by_cases huo : u = o
    · subst u
      have hc := (h.covered o).run mutexInfo (.inheritMutexUnsched m)
      simp only [Section.run] at hc
      simpa [State.release, State.setThread, State.goto] using hc
    · simpa [State.release, State.setThread, State.goto, huo] using h.covered u
  · intro u p _ hp; cases hp
  · intro u p _ hp; cases hp

theorem Inv.other (h : Inv m s) {t : τ} {f : Section μ} (hf : f.entry ≠ some m) :
    Inv m (s.setThread t (f.run mutexInfo (s.thread t))) := by
  have hsame : ∀ u, entries m ((s.setThread t (f.run mutexInfo (s.thread t))).thread u) = entries m (s.thread u) := by
    intro u
    by_cases hut : u = t
    · subst u; simp [State.setThread, entries_run hf]
    · simp [State.setThread, hut]
  constructor
  · exact h.word
  · exact fun o ho => by rw [hsame]; exact h.entry o ho
  · exact fun u hu => by rw [hsame]; exact h.noEntry u hu
  · intro u
    by_cases hut : u = t
    · subst u; simpa [State.setThread] using (h.covered t).run mutexInfo f
    · simpa [State.setThread, hut] using h.covered u
  · exact fun u o hu ho im him => h.recorded u o hu ho im (hsame o ▸ him)
  · exact fun u o hu ho im him => h.bound u o hu ho im (hsame o ▸ him)

theorem Inv.step (h : Inv m s) (ha : SeenOwner s a) (hs : Stepped mutexInfo m s a s') : Inv m s' := by
  cases hs with
  | called hpc => exact h.goto (by simp)
  | acquired hpc hf => exact h.acquire hf (ha hf hpc)
  | checked hpc hf ho => exact h.check ho
  | busy hpc hf => exact h.goto (by simp)
  | released hpc ho hw => exact h.release ho _
  | @slept t hpc hf =>
    refine ⟨h.word, h.entry, h.noEntry, h.covered, h.recorded, fun u o hu ho im him => ?_⟩
    by_cases hut : u = t
    · subst u
      cases htaken : s.takenSince t with
      | false => exact h.recorded t o htaken ho im him
      | true =>
        change (s.checked t).priority ≤ im.2.priority
        rw [ha hf htaken]
        exact Nat.zero_le _
    · exact h.bound u o (by simpa [State.goto, hut] using hu) ho im him
  | missed hpc hf => exact h.goto (by simp)
  | interrupted hpc => exact h.goto (by simp)
  | other hf => exact h.other hf

variable [Fintype τ]

/-- In every run where the mutex is taken only with nobody asleep that had a priority, and who had one goes
to sleep only for the owner that it recorded it with, a sleeper's priority is recorded with the owner, and
the owner runs with it. -/
theorem sleeper_bounded (h : Reaches Initial (step mutexInfo m) SeenOwner s) {t o : τ}
    (ht : s.pc t = .asleep) (ho : s.owner = some o) :
    ∃ e, (s.thread o).find m = some (m, e) ∧ (s.checked t).priority ≤ e.priority ∧
      (s.checked t).priority ≤ (s.thread o).schedInfo.priority := by
  have hi : Inv m s := h.invariant (I := Inv m) (fun _ h₀ => initial_inv h₀)
    fun _ _ _ _ hi ha hs => hi.step ha (step_stepped hs)
  obtain ⟨e, he⟩ := hi.entry o ho
  have hle := hi.bound t o ht ho (m, e) (by rw [he]; exact List.mem_singleton_self _)
  have hmem : (m, e) ∈ (s.thread o).inheritMutexes := by
    have : (m, e) ∈ entries m (s.thread o) := by rw [he]; exact List.mem_singleton_self _
    exact List.mem_of_mem_filter this
  refine ⟨e, ?_, hle, Nat.le_trans hle (hi.covered o (m, e) hmem)⟩
  rw [find_eq_head, he]
  rfl

/-- A free mutex, and threads with their user settings. -/
def State.start (user : τ → SchedInfo) : State τ μ :=
  ⟨0, none, fun _ => .out 0, fun t => ⟨user t, user t, [], []⟩, fun _ => .zero, fun _ => true⟩

omit [DecidableEq μ] [DecidableEq τ] [Fintype τ] in
theorem start_initial (user : τ → SchedInfo) : Initial (State.start user : State τ μ) :=
  ⟨rfl, rfl, rfl, fun _ => rfl⟩

/-- Thread `o` holds the mutex, and `t` blocks on it. -/
def blocked (o t : τ) : List (Action τ μ) :=
  [.call o .lock, .enter o none, .call t .lock, .enter t none, .futexWait t]

theorem sleeper_bounded_blocked : ∃ s : State (Fin 2) Unit, s.pc 1 = .asleep ∧ s.owner = some 0 ∧
    (s.checked 1).priority = 7 ∧ (s.thread 0).userSchedInfo.priority = 0 ∧
    7 ≤ (s.thread 0).schedInfo.priority := by
  obtain ⟨s, hr, ht, ho, hc, hu⟩ : ∃ s : State (Fin 2) Unit,
      Reaches Initial (step (fun _ => .zero) ()) SeenOwner s ∧ s.pc 1 = .asleep ∧ s.owner = some 0 ∧
      (s.checked 1).priority = 7 ∧ (s.thread 0).userSchedInfo.priority = 0 :=
    ⟨_, Reaches.run_get (start_initial fun t => if t = 1 then ⟨.fifo, 7⟩ else .zero)
      (show (run (step (fun _ => .zero) ()) SeenOwner (blocked (0 : Fin 2) 1)
        (State.start fun t => if t = 1 then ⟨.fifo, 7⟩ else .zero)).isSome from by decide),
      by decide, by decide, by decide, by decide⟩
  obtain ⟨e, -, -, hle⟩ := sleeper_bounded hr ht ho
  exact ⟨s, ht, ho, hc, hu, hc ▸ hle⟩

/-- Threads `t` and `u` sleep, `o` wakes `t` when it gives the mutex back, and `t` takes it while `u` sleeps
on. -/
def handedOver (o t u : τ) : List (Action τ μ) :=
  blocked o t ++ [.call u .lock, .enter u none, .futexWait u, .call o .unlock, .enter o (some t), .enter t none]

theorem sleeper_unbounded : ∃ s : State (Fin 3) Unit, Reaches Initial (step (fun _ => .zero) ()) anyStep s ∧
    s.pc 2 = .asleep ∧ s.owner = some 1 ∧ s.checked 2 = ⟨.fifo, 9⟩ ∧
    (s.thread 1).find () = some ((), .zero) ∧ (s.thread 1).schedInfo = ⟨.fifo, 5⟩ :=
  ⟨_, Reaches.run_get (start_initial fun t => if t = 2 then ⟨.fifo, 9⟩ else if t = 1 then ⟨.fifo, 5⟩ else .zero)
    (show (run (step (fun _ => .zero) ()) anyStep (handedOver (0 : Fin 3) 1 2) (State.start fun t =>
      if t = 2 then ⟨.fifo, 9⟩ else if t = 1 then ⟨.fifo, 5⟩ else .zero)).isSome from by decide),
    by decide, by decide, by decide, by decide, by decide⟩

end ThreadBites.InheritBoost

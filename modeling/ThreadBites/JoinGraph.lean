import ThreadBites.DescriptorCalls

/-!
# Who waits for whom

The threads are there from the start and join one another in any order, exit and
terminate. A thread that `tbthread_join` let in waits for the thread of the
descriptor. The check looks at the caller, the target and `joiner` of the caller,
so it finds cycles of one and of two threads and no longer ones.
-/
namespace ThreadBites.Threads

open Transition WaitQueue

variable {τ δ : Type}

/-- The descriptor that a thread in `tbthread_join` waits for. -/
def Pc.waitsFor : Pc τ δ → Option δ
  | .readTid d (.join _) => some d
  | .waitTid d _ (.join _) => some d
  | .asleep d _ (.join _) => some d
  | _ => none

/-- Thread `t` waits for thread `u`. -/
def Waits (s : State τ δ) (t u : τ) : Prop := (s.pc t).waitsFor = some (s.self u)

instance [DecidableEq δ] (s : State τ δ) (t u : τ) : Decidable (Waits s t u) :=
  inferInstanceAs (Decidable (_ = _))

/-- Each thread is in user code and has a descriptor of its own, and nobody was joined. -/
structure Standing (s : State τ δ) : Prop where
  user : ∀ t, s.pc t = .user
  own : Function.Injective s.self
  joiner : ∀ d, (s.mem d).joiner = none

/-- No thread is created. -/
def NoCreate (_ : State τ δ) : Action τ δ → Prop
  | .create _ _ _ => False
  | _ => True

instance (s : State τ δ) : (a : Action τ δ) → Decidable (NoCreate s a)
  | .create _ _ _ => isFalse id
  | .mprotect _ _ => isTrue trivial
  | .allocate _ _ => isTrue trivial
  | .clone _ _ => isTrue trivial
  | .setSched _ _ => isTrue trivial
  | .wakeStart _ _ => isTrue trivial
  | .next _ => isTrue trivial
  | .interrupt _ => isTrue trivial
  | .start _ => isTrue trivial
  | .exit _ _ => isTrue trivial
  | .exitSection _ => isTrue trivial
  | .terminate _ => isTrue trivial
  | .detach _ _ => isTrue trivial
  | .join _ _ => isTrue trivial

/-- In user code, in `tbthread_join` or in the end of `tbthread_exit`. -/
def Pc.joining : Pc τ δ → Bool
  | .user | .leaving | .dead => true
  | .readTid _ (.join _) | .waitTid _ _ (.join _) | .asleep _ _ (.join _) => true
  | .readRetval _ _ => true
  | .release _ .exit | .release _ (.join _) => true
  | _ => false

/-- Who waits for a descriptor is its joiner, and no two threads wait for each other. -/
structure Edges (s : State τ δ) : Prop where
  own : Function.Injective s.self
  joining : ∀ t, (s.pc t).joining = true
  joiner : ∀ t d, (s.pc t).waitsFor = some d → (s.mem d).joiner = some (s.self t)
  apart : ∀ t u, Waits s t u → ¬ Waits s u t

theorem Standing.edges {s : State τ δ} (h : Standing s) : Edges s where
  own := h.own
  joining := fun t => by rw [h.user t]; rfl
  joiner := fun t d hd => by rw [h.user t] at hd; cases hd
  apart := fun t u hw => by rw [Waits, h.user t] at hw; cases hw

/-- A thread that stops to wait, and a memory in which each joiner stays. -/
theorem Edges.keep {s s' : State τ δ} (h : Edges s) (hself : s'.self = s.self)
    (hmem : ∀ d, (s'.mem d).joiner = (s.mem d).joiner) (hjoining : ∀ t, (s'.pc t).joining = true)
    (hpc : ∀ t d, (s'.pc t).waitsFor = some d → (s.pc t).waitsFor = some d) : Edges s' where
  own := hself ▸ h.own
  joining := hjoining
  joiner := fun t d hd => by rw [hmem, hself]; exact h.joiner t d (hpc t d hd)
  apart := fun t u htu hut => by
    rw [Waits, hself] at htu hut
    exact h.apart t u (hpc t _ htu) (hpc u _ hut)

theorem resume_joining {p : Pc τ δ} (h : p.joining = true) : (resume p).joining = true := by
  cases p with
  | asleep d tid w =>
    cases w with
    | join o => rfl
    | _ => cases h
  | _ => exact h

theorem resume_waitsFor {p : Pc τ δ} {d : δ} (h : (resume p).waitsFor = some d) : p.waitsFor = some d := by
  cases p with
  | asleep e tid w => cases w <;> cases h
  | _ => exact h

variable [DecidableEq τ]

/-- One thread moves on, and starts no wait. -/
theorem Edges.move {s : State τ δ} (h : Edges s) {sh : Shared τ δ} {t : τ} {p : Pc τ δ} (hself : sh.self = s.self)
    (hmem : ∀ d, (sh.mem d).joiner = (s.mem d).joiner) (hp : p.joining = true)
    (hw : ∀ d, p.waitsFor = some d → (s.pc t).waitsFor = some d) : Edges (s.move sh t p) := by
  refine h.keep hself hmem (fun u => ?_) (fun u d hd => ?_)
  · by_cases hu : u = t
    · subst u
      simpa [State.move] using hp
    · simpa [State.move, hu] using h.joining u
  · by_cases hu : u = t
    · subst u
      exact hw d (by simpa [State.move] using hd)
    · simpa [State.move, hu] using hd

theorem count_keeps (s : Shared τ δ) (o : Option τ) : (s.count o).self = s.self ∧ (s.count o).mem = s.mem := by
  cases o <;> exact ⟨rfl, rfl⟩

omit [DecidableEq τ] in
theorem called_keeps (s : Shared τ δ) (t : τ) (d : δ) (ret : Int) :
    (s.called t d ret).self = s.self ∧ (s.called t d ret).mem = s.mem := by
  unfold Shared.called
  split <;> exact ⟨rfl, rfl⟩

variable [DecidableEq δ]

theorem join_writes (s : Shared τ δ) (t : τ) (d : δ) : (s.join t d).self = s.self ∧
    (s.join t d).mem = Function.update s.mem d
      { s.mem d with joinStatus := .joinableFixed, joiner := some (s.self t) } := by
  unfold Shared.join
  split <;> exact ⟨rfl, rfl⟩

theorem detach_writes (s : Shared τ δ) (d : δ) : (s.detach d).self = s.self ∧
    (s.detach d).mem = Function.update s.mem d { s.mem d with joinStatus := .detached } := by
  unfold Shared.detach
  split <;> exact ⟨rfl, rfl⟩

omit [DecidableEq τ] in
/-- A change of one descriptor that leaves its joiner. -/
theorem joiner_update {mem : δ → Desc δ} {d : δ} {v : Desc δ} (hv : v.joiner = (mem d).joiner) (e : δ) :
    (Function.update mem d v e).joiner = (mem e).joiner := by
  by_cases he : e = d
  · subst e
    simpa using hv
  · simp [he]

/-- A join that is let in: nobody waits for the target, and the target does not wait for the caller. -/
theorem Edges.join {s : State τ δ} (h : Edges s) {t : τ} {d : δ} (he : joinError s.toShared t d = none) {o : Option τ} :
    Edges (s.move ((s.called t d 0).join t d) t (.readTid d (.join o))) := by
  obtain ⟨hother, -, -, hnone, hmutual⟩ := joinError_none he
  obtain ⟨hself, hmem⟩ := join_writes (s.called t d 0) t d
  rw [(called_keeps s.toShared t d 0).1] at hself hmem
  rw [(called_keeps s.toShared t d 0).2] at hmem
  have hold : ∀ u, (s.pc u).waitsFor ≠ some d := by
    intro u hu
    rw [h.joiner u d hu] at hnone
    cases hnone
  have hpc : ∀ u e, u ≠ t → ((s.move ((s.called t d 0).join t d) t (.readTid d (.join o))).pc u).waitsFor = some e →
      (s.pc u).waitsFor = some e := by
    intro u e hu hw
    simpa [State.move, hu] using hw
  have hnew : ∀ e, ((s.move ((s.called t d 0).join t d) t (.readTid d (.join o))).pc t).waitsFor = some e → e = d := by
    intro e hw
    simpa [State.move, Pc.waitsFor, eq_comm] using hw
  -- a wait of the target for the caller would have made the target the caller's joiner
  have hfree : ∀ u, s.self u = d → (s.pc u).waitsFor ≠ some (s.self t) := by
    intro u hu hw
    exact hmutual (hu ▸ h.joiner u _ hw)
  constructor
  · exact hself ▸ h.own
  · intro u
    by_cases hu : u = t
    · subst u
      simp [State.move, Pc.joining]
    · simpa [State.move, hu] using h.joining u
  · intro u e hw
    show ((Shared.join _ _ _).mem e).joiner = some ((Shared.join _ _ _).self u)
    rw [hself, hmem]
    by_cases hu : u = t
    · subst u
      rw [hnew e hw]
      simp
    · have hw' := hpc u e hu hw
      have hed : e ≠ d := by
        rintro rfl
        exact hold u hw'
      rw [Function.update_of_ne hed]
      exact h.joiner u e hw'
  · intro u v huv hvu
    have huv : ((s.move ((s.called t d 0).join t d) t (.readTid d (.join o))).pc u).waitsFor = some (s.self v) :=
      hself ▸ huv
    have hvu : ((s.move ((s.called t d 0).join t d) t (.readTid d (.join o))).pc v).waitsFor = some (s.self u) :=
      hself ▸ hvu
    by_cases hu : u = t
    · subst u
      have hv := hnew _ huv
      by_cases hvt : v = t
      · subst v
        exact hother hv.symm
      · exact hfree v hv (hpc v _ hvt hvu)
    · by_cases hvt : v = t
      · subst v
        exact hfree u (hnew _ hvu) (hpc u _ hu huv)
      · exact h.apart u v (hpc u _ hu huv) (hpc v _ hvt hvu)

variable [Fintype τ]

theorem Edges.step {s s' : State τ δ} {a : Action τ δ} (h : Edges s) (ha : NoCreate s a) (hs : Stepped s a s') :
    Edges s' := by
  -- no thread is in a create or has not started yet
  have hnot : ∀ {t : τ} {p : Pc τ δ}, s.pc t = p → p.joining = false → False := by
    intro t p hpc hp
    rw [← hpc, h.joining t] at hp
    cases hp
  cases hs with
  | create => exact ha.elim
  | mprotect hpc | setSched hpc | checkStart hpc | startWait hpc | startInterrupted hpc | recheckStart hpc
  | addUsed hpc | clear hpc | fill hpc | cloneFailed hpc | storeTid hpc | storeStart hpc | started hpc =>
    exact (hnot hpc rfl).elim
  | tookNone hpc _ | took hpc _ | allocate hpc _ | wakeStart hpc _ => exact (hnot hpc rfl).elim
  | cloned hpc _ _ => exact (hnot hpc rfl).elim
  | @readTid t d w hpc =>
    cases w with
    | reuse | failed => exact (hnot hpc rfl).elim
    | join o =>
      refine h.move rfl (fun _ => rfl) ?_ (fun e he => ?_)
      · split <;> rfl
      · rw [hpc]
        split at he
        · cases he
        · exact he
  | @waitTid t d k w hpc =>
    cases w with
    | reuse | failed => exact (hnot hpc rfl).elim
    | join o =>
      refine h.move rfl (fun _ => rfl) ?_ (fun e he => ?_)
      · split <;> rfl
      · rw [hpc]
        split at he
        · exact he
        · cases he
  | @interrupted t d k w hpc =>
    cases w with
    | reuse | failed => exact (hnot hpc rfl).elim
    | join o => exact h.move rfl (fun _ => rfl) rfl (fun e he => by rw [hpc]; exact he)
  | readRetval hpc => exact h.move rfl (fun _ => rfl) rfl (fun e he => by cases he)
  | @release t d r hpc =>
    obtain ⟨hself, hmem⟩ := count_keeps s.toShared (r.thread t)
    have hcrash : Edges { s with toShared := (s.count (r.thread t)).crash } :=
      h.keep hself (fun e => congrArg (fun m => (m e).joiner) hmem) h.joining fun _ _ he => he
    unfold ThreadBites.Threads.release
    cases d with
    | none => exact hcrash
    | some d =>
      simp only
      split
      · refine h.move hself (fun e => congrArg (fun m => (m e).joiner) hmem) ?_ (fun e he => ?_)
        · cases r <;> rfl
        · cases r <;> cases he
      · exact hcrash
  | @exit t retval hpc => exact h.move rfl (joiner_update rfl) rfl (fun e he => by cases he)
  | exitSection hpc he =>
    refine h.move rfl (joiner_update rfl) ?_ (fun e hw => ?_)
    · split <;> rfl
    · split at hw <;> cases hw
  | @terminate u hpc =>
    have hw := wakeAll_woken (asleepOn (s.self u)) resume s.pc
    refine h.keep rfl (joiner_update rfl) (fun v => ?_) (fun v e he => ?_)
    · by_cases hv : v = u
      · subst v
        simp [Pc.joining]
      · simp only [Function.update_of_ne hv]
        rcases hw v with hsame | ⟨-, hres⟩
        · rw [hsame]; exact h.joining v
        · rw [hres]; exact resume_joining (h.joining v)
    · by_cases hv : v = u
      · subst v
        simp [Pc.waitsFor] at he
      · simp only [Function.update_of_ne hv] at he
        rcases hw v with hsame | ⟨-, hres⟩
        · rwa [hsame] at he
        · rw [hres] at he
          exact resume_waitsFor he
  | notDetached => exact h
  | @detached t d hpc he =>
    obtain ⟨hself, hmem⟩ := detach_writes s.toShared d
    refine h.move hself (fun e => ?_) rfl (fun e he => by cases he)
    rw [hmem]
    exact joiner_update (v := { s.mem d with joinStatus := .detached }) rfl e
  | @notJoined t d e hpc he =>
    obtain ⟨hself, hmem⟩ := called_keeps s.toShared t d e
    exact h.move hself (fun _ => by rw [hmem]) rfl (fun e he => by cases he)
  | joined hpc he => exact h.join he

theorem reaches_edges {s : State τ δ} (h : Reaches Standing step NoCreate s) : Edges s :=
  h.invariant (I := Edges) (fun _ h₀ => h₀.edges) fun _ _ _ _ hi ha hs => hi.step ha (step_stepped hs).2

/-- What a join that would close a cycle of one or two threads comes to: it is refused, and the
target is as before. -/
structure Refused (s s' : State τ δ) (t : τ) (d : δ) : Prop where
  self : d = s.self t → joinError s.toShared t d = some (-EDEADLK)
  pair : d ∈ s.used → (s.mem d).joinStatus ≠ .detached → joinError s.toShared t d = some (-EDEADLK)
  other : joinError s.toShared t d = some (-EDEADLK) ∨ d ∉ s.used ∧ joinError s.toShared t d = some (-ESRCH) ∨
    (s.mem d).joinStatus = .detached ∧ joinError s.toShared t d = some (-EINVAL)
  kept : s'.mem = s.mem

/-- No thread waits for itself and no two wait for each other, however the threads join; a join that
would make them is refused. -/
theorem join_no_mutual_wait {s : State τ δ} (h : Reaches Standing step NoCreate s) :
    (∀ t u, Waits s t u → ¬ Waits s u t) ∧
    ∀ t d s', step s (.join t d) = some s' → (d = s.self t ∨ ∃ u, d = s.self u ∧ Waits s u t) → Refused s s' t d := by
  have hi := reaches_edges h
  refine ⟨hi.apart, fun t d s' hs hd => ?_⟩
  have hjoiner : d ≠ s.self t → (s.mem (s.self t)).joiner = some d := by
    intro hne
    obtain ⟨u, rfl, hw⟩ := hd.resolve_left hne
    exact hi.joiner u _ hw
  have herror : joinError s.toShared t d = if d = s.self t then some (-EDEADLK)
      else if d ∉ s.used then some (-ESRCH)
      else if (s.mem d).joinStatus = .detached then some (-EINVAL) else some (-EDEADLK) := by
    unfold joinError
    by_cases hself : d = s.self t
    · simp [hself]
    · simp [hself, hjoiner hself]
  constructor
  · intro hself
    rw [herror, if_pos hself]
  · intro hused hdetached
    simp only [herror, hused, hdetached, not_true, if_false, ite_self]
  · rw [herror]
    split
    · exact .inl rfl
    · split
      · rename_i hused
        exact .inr (.inl ⟨hused, rfl⟩)
      · split
        · rename_i hdetached
          exact .inr (.inr ⟨hdetached, rfl⟩)
        · exact .inl rfl
  · obtain ⟨-, hs⟩ := step_stepped hs
    cases hs with
    | notJoined hpc he => exact (called_keeps s.toShared t d _).2
    | joined hpc he =>
      obtain ⟨hother, -, -, -, hmutual⟩ := joinError_none he
      exact absurd (hjoiner hother) hmutual

/-- Threads that run, each with its own joinable descriptor in `used_desc`. -/
def standing (used : List τ) (tid : τ → BitVec 32) : State τ τ where
  mem t := { (Desc.zero : Desc τ) with tid := tid t, joinStatus := .joinable }
  heap := used
  used := used
  free := []
  self t := t
  id := tid
  exiting _ := false
  crashed := false
  role t := .lent t
  last t := some t
  record _ := .empty
  calls := []
  values := []
  pc _ := .user

omit [DecidableEq τ] [Fintype τ] in
theorem standing_standing (used : List τ) (tid : τ → BitVec 32) : Standing (standing used tid) :=
  ⟨fun _ => rfl, Function.injective_id, fun _ => rfl⟩

/-- Two threads, the second of which waits for the first: the first one cannot join it. -/
theorem join_no_mutual_wait_refused : ∃ s s' : State (Fin 2) (Fin 2), Waits s 1 0 ∧
    step s (.join 0 1) = some s' ∧ Refused s s' 0 1 := by
  obtain ⟨s, hr, hw, hself, s', hs⟩ : ∃ s : State (Fin 2) (Fin 2), Reaches Standing step NoCreate s ∧
      Waits s 1 0 ∧ s.self 1 = 1 ∧ ∃ s', step s (.join 0 1) = some s' := by
    have hr := Reaches.run_get (standing_standing [0, 1] fun t => if t = 0 then 7 else 8)
      (show (run step NoCreate [.join 1 0] (standing [(0 : Fin 2), 1] fun t => if t = 0 then 7 else 8)).isSome
        from by decide)
    exact ⟨_, hr, by decide, rfl, _, rfl⟩
  exact ⟨s, s', hw, hs, (join_no_mutual_wait hr).2 0 1 s' hs (.inr ⟨1, hself.symm, hw⟩)⟩

/-- Three threads in a circle, each of whose joins was let in. -/
theorem join_circle : ∃ s : State (Fin 3) (Fin 3), Reaches Standing step NoCreate s ∧
    Function.Injective s.id ∧ Waits s 0 1 ∧ Waits s 1 2 ∧ Waits s 2 0 := by
  have hr := Reaches.run_get (standing_standing [0, 1, 2] fun t => if t = 0 then 7 else if t = 1 then 8 else 9)
    (show (run step NoCreate [.join 0 1, .join 1 2, .join 2 0, .next 0, .next 1, .next 2, .next 0, .next 1, .next 2]
      (standing [(0 : Fin 3), 1, 2] fun t => if t = 0 then 7 else if t = 1 then 8 else 9)).isSome from by decide)
  exact ⟨_, hr, by decide, by decide, by decide, by decide⟩

end ThreadBites.Threads

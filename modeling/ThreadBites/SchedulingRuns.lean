import ThreadBites.Scheduling

/-!
# The cached setting is the computed one

`tb_compute_sched` runs only when the first protect mutex changes, when an
inherit mutex is boosted, and when the entry of a mutex that is given back has
the setting of the thread. Valid settings have one strongest, and what is skipped
leaves it where it was.
-/
namespace ThreadBites.Sched

open Transition

variable {μ : Type}

/-- A thread with the mutexes that it holds. `pending` means that `tbthread_setschedparam` has written the
user setting and not recomputed yet; `desc_mutex` lets in one such call at a time. -/
structure State (μ : Type) where
  thread : Thread μ
  holds : μ → Bool
  pending : Bool

/-- The thread starts with its user setting and no mutexes. -/
def Initial (s : State μ) : Prop :=
  s.thread.userSchedInfo.Valid ∧ s.thread.schedInfo = s.thread.userSchedInfo ∧
    s.thread.protectMutexes = [] ∧ s.thread.inheritMutexes = [] ∧ s.holds = (fun _ => false) ∧ s.pending = false

/-- The sections under the lock of the descriptor: of a lock or a trylock that gets its mutex, of an unlock,
of another thread with the setting `info` that blocks on a mutex, and the two steps of
`tbthread_setschedparam`. -/
inductive Action (μ : Type) where
  | lock (m : μ)
  | unlock (m : μ)
  | boost (m : μ) (info : SchedInfo)
  | setUser (policy priority : Int)
  | recompute
  deriving DecidableEq, Repr

/-- The two lists of the thread record the mutexes that it holds, the protect mutexes by descending
priority, and all settings are valid. -/
structure Recorded (ms : Mutexes μ) (s : State μ) : Prop where
  protect : ∀ m, m ∈ s.thread.protectMutexes ↔ s.holds m = true ∧ ms.protects m = true
  protectNodup : s.thread.protectMutexes.Nodup
  sorted : s.thread.protectMutexes.Pairwise fun a b => (ms.info b).priority ≤ (ms.info a).priority
  inherit : ∀ m, m ∈ s.thread.inheritMutexes.map (·.1) ↔ s.holds m = true ∧ ms.protects m = false
  inheritNodup : (s.thread.inheritMutexes.map (·.1)).Nodup
  user : s.thread.userSchedInfo.Valid
  entries : ∀ im ∈ s.thread.inheritMutexes, im.2.Valid

section

variable {ms : Mutexes μ} {s : State μ}

theorem Recorded.looked_valid (h : Recorded ms s) : ∀ i ∈ s.thread.looked ms.info, i.Valid :=
  Sched.looked_valid h.user ms.info_valid h.entries

theorem Initial.recorded (h : Initial s) : Recorded ms s := by
  obtain ⟨hu, -, hp, hi, hh, -⟩ := h
  constructor <;> simp [hp, hi, hh, hu]

theorem Initial.settled (h : Initial s) : Settled ms.info s.thread := by
  obtain ⟨-, hs, hp, hi, -, -⟩ := h
  simp [Settled, Thread.effective, hs, hp, hi]

/-- What looking at the first protect mutex only finds is the strongest of all settings. -/
theorem Recorded.strongest (h : Recorded ms s) :
    Strongest (s.thread.sources ms.info) (s.thread.effective ms.info) := by
  have hbest := effective_strongest ms.info s.thread
  have hsorted := h.sorted
  unfold Thread.looked at hbest
  unfold Thread.sources
  cases hl : s.thread.protectMutexes with
  | nil => simpa [hl] using hbest
  | cons m rest =>
    simp only [hl] at hbest hsorted
    have hfirst := (List.pairwise_cons.mp hsorted).1
    have hraise := raise_rank s.thread.userSchedInfo (ms.info m)
    refine hbest.of_le ?_ fun x hx => ?_
    · rcases List.mem_cons.mp hbest.mem with he | hmem
      · rw [he, raise_eq]
        split <;> simp
      · simp [hmem]
    · rcases List.mem_cons.mp hx with rfl | hx
      · exact ⟨_, List.mem_cons_self .., by omega⟩
      · rcases List.mem_append.mp hx with hx | hx
        · obtain ⟨k, hk, rfl⟩ := List.mem_map.mp hx
          refine ⟨_, List.mem_cons_self .., ?_⟩
          rcases List.mem_cons.mp hk with rfl | hk
          · omega
          · have := ms.info_rank (hfirst k hk)
            omega
        · exact ⟨x, List.mem_cons_of_mem _ hx, Nat.le_refl _⟩

theorem Recorded.sources_valid (h : Recorded ms s) : ∀ i ∈ s.thread.sources ms.info, i.Valid := by
  intro i hi
  rcases List.mem_cons.mp hi with rfl | hi
  · exact h.user
  · rcases List.mem_append.mp hi with hi | hi
    · obtain ⟨m, -, rfl⟩ := List.mem_map.mp hi
      exact ms.info_valid m
    · obtain ⟨im, him, rfl⟩ := List.mem_map.mp hi
      exact h.entries im him

end

variable [DecidableEq μ]

def step (ms : Mutexes μ) (s : State μ) : Action μ → Option (State μ)
  | .lock m =>
      if s.holds m then none
      else some { s with
        thread := if ms.protects m then protectMutexSched ms.info m s.thread 0 else inheritMutexAdd m s.thread
        holds := Function.update s.holds m true }
  | .unlock m =>
      if s.holds m then some { s with
        thread := if ms.protects m then protectMutexUnsched ms.info m s.thread 0
          else inheritMutexUnsched ms.info m s.thread 0
        holds := Function.update s.holds m false }
      else none
  | .boost m info =>
      if s.holds m ∧ ms.protects m = false then
        some { s with thread := inheritMutexSched ms.info m info s.thread 0 }
      else none
  | .setUser policy priority =>
      if s.pending then none
      else match schedParam policy priority with
        | .error _ => some s
        | .ok info => some { s with thread := { s.thread with userSchedInfo := info }, pending := true }
  | .recompute =>
      if s.pending then some { s with thread := s.thread.computeSched ms.info 0, pending := false } else none

/-- User settings, and those of the threads that block, are pairs that the kernel accepts. -/
def Accepted (_ : State μ) : Action μ → Prop
  | .boost _ info => info.Valid
  | .setUser policy priority => match schedParam policy priority with
    | .error _ => True
    | .ok info => info.Valid
  | _ => True

instance (s : State μ) (a : Action μ) : Decidable (Accepted s a) := by
  cases a <;> simp only [Accepted] <;> first | infer_instance | (split <;> infer_instance)

/-- What a step does, case by case. -/
inductive Stepped (ms : Mutexes μ) (s : State μ) : Action μ → State μ → Prop where
  | lockedProtect {m} (hm : s.holds m = false) (hp : ms.protects m = true) :
      Stepped ms s (.lock m) { s with
        thread := protectMutexSched ms.info m s.thread 0
        holds := Function.update s.holds m true }
  | lockedInherit {m} (hm : s.holds m = false) (hp : ms.protects m = false) :
      Stepped ms s (.lock m) { s with
        thread := inheritMutexAdd m s.thread
        holds := Function.update s.holds m true }
  | unlockedProtect {m} (hm : s.holds m = true) (hp : ms.protects m = true) :
      Stepped ms s (.unlock m) { s with
        thread := protectMutexUnsched ms.info m s.thread 0
        holds := Function.update s.holds m false }
  | unlockedInherit {m} (hm : s.holds m = true) (hp : ms.protects m = false) :
      Stepped ms s (.unlock m) { s with
        thread := inheritMutexUnsched ms.info m s.thread 0
        holds := Function.update s.holds m false }
  | boosted {m info} (hm : s.holds m = true) (hp : ms.protects m = false) :
      Stepped ms s (.boost m info) { s with thread := inheritMutexSched ms.info m info s.thread 0 }
  | refused {policy priority e} (hi : schedParam policy priority = .error e) :
      Stepped ms s (.setUser policy priority) s
  | wroteUser {policy priority info} (hi : schedParam policy priority = .ok info) :
      Stepped ms s (.setUser policy priority)
        { s with thread := { s.thread with userSchedInfo := info }, pending := true }
  | recomputed (hp : s.pending = true) :
      Stepped ms s .recompute { s with thread := s.thread.computeSched ms.info 0, pending := false }

theorem step_stepped {ms : Mutexes μ} {s s' : State μ} {a : Action μ} (h : step ms s a = some s') :
    Stepped ms s a s' := by
  cases a with
  | lock m =>
    simp only [step, Option.ite_none_left_eq_some, Option.some.injEq, Bool.not_eq_true] at h
    obtain ⟨hm, rfl⟩ := h
    cases hp : ms.protects m
    · simpa using Stepped.lockedInherit hm hp
    · simpa using Stepped.lockedProtect hm hp
  | unlock m =>
    simp only [step, Option.ite_none_right_eq_some, Option.some.injEq] at h
    obtain ⟨hm, rfl⟩ := h
    cases hp : ms.protects m
    · simpa using Stepped.unlockedInherit hm hp
    · simpa using Stepped.unlockedProtect hm hp
  | boost m info =>
    simp only [step, Option.ite_none_right_eq_some, Option.some.injEq] at h
    obtain ⟨⟨hm, hp⟩, rfl⟩ := h
    exact .boosted hm hp
  | setUser policy priority =>
    simp only [step, Option.ite_none_left_eq_some, Bool.not_eq_true] at h
    obtain ⟨hpend, h⟩ := h
    split at h
    · rename_i hi; cases h; exact .refused hi
    · rename_i hi; cases h; exact .wroteUser hi
  | recompute =>
    simp only [step, Option.ite_none_right_eq_some, Option.some.injEq] at h
    exact h.2 ▸ .recomputed h.1

variable {ms : Mutexes μ} {s s' : State μ} {a : Action μ}

/-- A mutex is recorded in the list of its kind when it is taken, and not any more when it is given back. -/
theorem recorded_update {f : μ → Bool} {P : μ → Prop} {l k : List μ} {m : μ} {b : Bool} (hm : P m)
    (h : ∀ x, x ∈ l ↔ f x = true ∧ P x) (hk : ∀ x, x ∈ k ↔ (x = m ∧ b = true) ∨ (x ≠ m ∧ x ∈ l)) (x : μ) :
    x ∈ k ↔ Function.update f m b x = true ∧ P x := by
  rw [hk]
  by_cases hx : x = m
  · subst x; simp [hm]
  · simp [hx, h x]

/-- Mutexes of the other kind are recorded as before. -/
theorem recorded_other {f : μ → Bool} {P : μ → Prop} {l : List μ} {m : μ} {b : Bool} (hm : ¬ P m)
    (h : ∀ x, x ∈ l ↔ f x = true ∧ P x) (x : μ) : x ∈ l ↔ Function.update f m b x = true ∧ P x := by
  rw [h]
  by_cases hx : x = m
  · subst x; simp [hm]
  · simp [hx]

theorem Recorded.step (h : Recorded ms s) (ha : Accepted s a) (hs : Stepped ms s a s') : Recorded ms s' := by
  cases hs with
  | @lockedProtect m hm hp =>
    have hnot : m ∉ s.thread.protectMutexes := fun hmem => by simp [((h.protect m).mp hmem).1] at hm
    constructor
    · refine recorded_update hp h.protect fun x => ?_
      rw [protectMutexSched_protectMutexes, mem_listAddHere]
      by_cases hx : x = m <;> simp [hx]
    · simpa using listAddHere_nodup h.protectNodup hnot
    · simpa using listAddHere_sorted h.sorted
    · simpa using recorded_other (by simp [hp]) h.inherit
    · simpa using h.inheritNodup
    · simpa using h.user
    · simpa using h.entries
  | @lockedInherit m hm hp =>
    have hnot : m ∉ s.thread.inheritMutexes.map (·.1) := fun hmem => by simp [((h.inherit m).mp hmem).1] at hm
    constructor
    · exact recorded_other (by simp [hp]) h.protect
    · exact h.protectNodup
    · exact h.sorted
    · refine recorded_update hp h.inherit fun x => ?_
      rw [inheritMutexAdd, List.map_append, List.mem_append]
      by_cases hx : x = m <;> simp [hx]
    · rw [inheritMutexAdd, List.map_append, List.nodup_append]
      refine ⟨h.inheritNodup, by simp, fun x hx y hy => ?_⟩
      rintro rfl
      simp only [List.map_cons, List.map_nil, List.mem_singleton] at hy
      exact hnot (hy ▸ hx)
    · exact h.user
    · intro im him
      rcases List.mem_append.mp him with him | him
      · exact h.entries im him
      · rw [List.mem_singleton.mp him]; exact zero_valid
  | @unlockedProtect m hm hp =>
    constructor
    · refine recorded_update hp h.protect fun x => ?_
      rw [protectMutexUnsched_protectMutexes, h.protectNodup.mem_erase_iff]
      simp
    · simpa using h.protectNodup.erase m
    · simpa using h.sorted.sublist List.erase_sublist
    · simpa using recorded_other (by simp [hp]) h.inherit
    · simpa using h.inheritNodup
    · simpa using h.user
    · simpa using h.entries
  | @unlockedInherit m hm hp =>
    constructor
    · simpa using recorded_other (by simp [hp]) h.protect
    · simpa using h.protectNodup
    · simpa using h.sorted
    · refine recorded_update hp h.inherit fun x => ?_
      rw [inheritMutexUnsched_inheritMutexes, eraseP_fst, h.inheritNodup.mem_erase_iff]
      simp
    · rw [inheritMutexUnsched_inheritMutexes, eraseP_fst]
      exact h.inheritNodup.erase m
    · simpa using h.user
    · intro im him
      rw [inheritMutexUnsched_inheritMutexes] at him
      exact h.entries im (List.mem_of_mem_eraseP him)
  | @boosted m info hm hp =>
    have hfst : (inheritMutexSched ms.info m info s.thread 0).inheritMutexes.map (·.1) =
        s.thread.inheritMutexes.map (·.1) := by
      rcases inheritMutexSched_inheritMutexes ms.info m s.thread 0 info with he | he <;> rw [he]
      exact setEntry_fst m info _
    constructor
    · simpa using h.protect
    · simpa using h.protectNodup
    · simpa using h.sorted
    · rw [hfst]; exact h.inherit
    · rw [hfst]; exact h.inheritNodup
    · simpa using h.user
    · intro im him
      rcases inheritMutexSched_inheritMutexes ms.info m s.thread 0 info with he | he <;> rw [he] at him
      · exact h.entries im him
      · rcases mem_setEntry him with rfl | him
        · exact ha
        · exact h.entries im him
  | refused hi => exact h
  | @wroteUser policy priority info hi =>
    have hv : info.Valid := by simpa only [Accepted, hi] using ha
    exact ⟨h.protect, h.protectNodup, h.sorted, h.inherit, h.inheritNodup, hv, h.entries⟩
  | recomputed hp =>
    constructor
    · simpa [Thread.computeSched] using h.protect
    · simpa [Thread.computeSched] using h.protectNodup
    · simpa [Thread.computeSched] using h.sorted
    · simpa [Thread.computeSched] using h.inherit
    · simpa [Thread.computeSched] using h.inheritNodup
    · simpa [Thread.computeSched] using h.user
    · simpa [Thread.computeSched] using h.entries

/-- What is skipped leaves the setting where it was, unless a new user setting waits to be taken in. -/
theorem settled_step (h : Recorded ms s) (hq : s.pending = false → Settled ms.info s.thread)
    (hs : Stepped ms s a s') : s'.pending = false → Settled ms.info s'.thread := by
  cases hs with
  | lockedProtect hm hp => exact fun hpend => settled_protectMutexSched (hq hpend)
  | lockedInherit hm hp => exact fun hpend => settled_inheritMutexAdd (hq hpend) h.looked_valid
  | unlockedProtect hm hp => exact fun hpend => settled_protectMutexUnsched (hq hpend)
  | unlockedInherit hm hp => exact fun hpend => settled_inheritMutexUnsched (hq hpend) h.looked_valid
  | boosted hm hp => exact fun hpend => settled_inheritMutexSched (hq hpend)
  | refused hi => exact hq
  | wroteUser hi => exact fun hpend => by cases hpend
  | recomputed hp => exact fun _ => computeSched_settled

theorem reaches_recorded (h : Reaches Initial (Sched.step ms) Accepted s) :
    Recorded ms s ∧ (s.pending = false → Settled ms.info s.thread) :=
  h.invariant (I := fun s => Recorded ms s ∧ (s.pending = false → Settled ms.info s.thread))
    (fun _ h₀ => ⟨h₀.recorded, fun _ => h₀.settled⟩) fun _ _ _ _ hi ha hs =>
    ⟨hi.1.step ha (step_stepped hs), settled_step hi.1 hi.2 (step_stepped hs)⟩


/-- The setting of the thread is the computed one, has the highest priority of all settings that the
mutexes it holds and its user setting give, and the policy of the first of those. -/
structure Recomputed (ms : Mutexes μ) (s : State μ) : Prop where
  scratch : s.thread.schedInfo = s.thread.effective ms.info
  protect : s.thread.protectMutexes.Nodup ∧
    ∀ m, m ∈ s.thread.protectMutexes ↔ s.holds m = true ∧ ms.protects m = true
  inherit : (s.thread.inheritMutexes.map (·.1)).Nodup ∧
    ∀ m, m ∈ s.thread.inheritMutexes.map (·.1) ↔ s.holds m = true ∧ ms.protects m = false
  user : s.thread.userSchedInfo.priority ≤ s.thread.schedInfo.priority
  ceilings : ∀ m, s.holds m = true → ms.protects m = true → ms.ceiling m ≤ s.thread.schedInfo.priority
  entries : ∀ im ∈ s.thread.inheritMutexes, im.2.priority ≤ s.thread.schedInfo.priority
  attained : ∃ i ∈ s.thread.sources ms.info, i.priority = s.thread.schedInfo.priority
  policy : s.thread.schedInfo.policy = firstPolicy s.thread.schedInfo.priority (s.thread.sources ms.info)

omit [DecidableEq μ] in
theorem Recorded.recomputed (h : Recorded ms s) (hs : Settled ms.info s.thread) : Recomputed ms s := by
  have hbest := h.strongest
  rw [← hs] at hbest
  constructor
  · exact hs
  · exact ⟨h.protectNodup, h.protect⟩
  · exact ⟨h.inheritNodup, h.inherit⟩
  · exact hbest.priority_le (List.mem_cons_self ..)
  · intro m hm hp
    rw [← ms.info_priority hp]
    have hmem := List.mem_map_of_mem (f := ms.info) ((h.protect m).mpr ⟨hm, hp⟩)
    exact hbest.priority_le (List.mem_cons_of_mem _ (List.mem_append_left _ hmem))
  · intro im him
    exact hbest.priority_le (List.mem_cons_of_mem _ (List.mem_append_right _ (List.mem_map_of_mem him)))
  · exact ⟨_, hbest.mem, rfl⟩
  · exact (hbest.firstPolicy h.sources_valid).symm

/-- In every run with settings that the kernel accepts, where no call of `tbthread_setschedparam` is
between its two steps, the setting of the thread is the computed one. -/
theorem sched_recomputed (h : Reaches Initial (step ms) Accepted s) (hp : s.pending = false) :
    Recomputed ms s := by
  obtain ⟨hr, hq⟩ := reaches_recorded h
  exact hr.recomputed (hq hp)

/-- A thread with nothing but a user setting. -/
def State.alone (user : SchedInfo) : State μ := ⟨⟨user, user, [], []⟩, fun _ => false, false⟩

/-- The user setting is changed, a mutex of each kind is taken, the inheriting one is boosted, and the other
one is given back. -/
def mixed (protect inherit : μ) (info : SchedInfo) : List (Action μ) :=
  [.setUser 2 5, .recompute, .lock protect, .lock inherit, .boost inherit info, .unlock protect]

theorem sched_recomputed_mixed : ∃ (ms : Mutexes Bool) (s : State Bool),
    s.thread.schedInfo = ⟨.rr, 20⟩ ∧ s.holds false = true ∧ Recomputed ms s := by
  let ms : Mutexes Bool := ⟨id, fun _ => 10, fun _ => by decide⟩
  obtain ⟨s, hr, hs, hh, hp⟩ : ∃ s : State Bool, Reaches Initial (step ms) Accepted s ∧
      s.thread.schedInfo = ⟨.rr, 20⟩ ∧ s.holds false = true ∧ s.pending = false :=
    ⟨_, Reaches.run_get (show Initial (State.alone .zero) from ⟨zero_valid, rfl, rfl, rfl, rfl, rfl⟩)
      (show (run (step ms) Accepted (mixed true false ⟨.rr, 20⟩) (State.alone .zero)).isSome from by decide),
      by decide, by decide, by decide⟩
  exact ⟨ms, s, hs, hh, sched_recomputed hr hp⟩

end ThreadBites.Sched

import ThreadBites.SchedInfo
import ThreadBites.Transition

/-!
# The scheduling of a thread

The functions of `tb-sched.c` on the record of one thread, each of them a
section under the lock of its descriptor. `malloc` is taken to succeed; `ret` is
what `sched_setscheduler` returns.
-/
namespace ThreadBites.Sched

variable {μ : Type}

def EINVAL : Int := 22

/-- The scheduling fields of a descriptor. An element of `inherit_mutexes` is a mutex with the setting
recorded for it. -/
structure Thread (μ : Type) where
  userSchedInfo : SchedInfo
  schedInfo : SchedInfo
  protectMutexes : List μ
  inheritMutexes : List (μ × SchedInfo)
  deriving DecidableEq, Repr

/-- `tb_set_sched`. -/
def Thread.setSched (th : Thread μ) (info : SchedInfo) (ret : Int) : Thread μ :=
  if ret = 0 then { th with schedInfo := info } else th

/-- The setting that `tb_compute_sched` finds: it looks at the user setting, the first protect mutex, and
all the inherit mutexes. -/
def Thread.effective (mutexInfo : μ → SchedInfo) (th : Thread μ) : SchedInfo :=
  (th.inheritMutexes.map (·.2)).foldl raise <| match th.protectMutexes with
    | [] => th.userSchedInfo
    | m :: _ => raise th.userSchedInfo (mutexInfo m)

def Thread.computeSched (mutexInfo : μ → SchedInfo) (th : Thread μ) (ret : Int) : Thread μ :=
  th.setSched (th.effective mutexInfo) ret

def mutexPrioSmaller (mutexInfo : μ → SchedInfo) (this next : μ) : Bool :=
  (mutexInfo next).priority < (mutexInfo this).priority

def listAddHere (here : μ → μ → Bool) (x : μ) : List μ → List μ
  | [] => [x]
  | y :: rest => if here x y then x :: y :: rest else y :: listAddHere here x rest

/-- The checks of `tbthread_setschedparam`, which returns `-EINVAL` where they fail. -/
def schedParam (policy priority : Int) : Except Int SchedInfo :=
  if policy ≠ 0 ∧ policy ≠ 1 ∧ policy ≠ 2 then .error (-EINVAL)
  else if priority < 0 ∨ 99 < priority then .error (-EINVAL)
  else .ok ⟨if policy = 0 then .normal else if policy = 1 then .fifo else .rr, priority.toNat⟩

theorem schedParam_error {policy priority e : Int} (h : schedParam policy priority = .error e) : e = -EINVAL := by
  unfold schedParam at h
  split at h
  · cases h; rfl
  · split at h
    · cases h; rfl
    · cases h

/-- The mutexes of a program, as `tbthread_mutex_init` makes them of attributes: `ceiling` is 0 or what
`tbthread_mutexattr_setprioceiling` let in, and a mutex that does not protect inherits. -/
structure Mutexes (μ : Type) where
  protects : μ → Bool
  ceiling : μ → Nat
  ceiling_le : ∀ m, ceiling m ≤ 99

/-- The `sched_info` of a mutex. -/
def Mutexes.info (ms : Mutexes μ) (m : μ) : SchedInfo :=
  if ms.protects m = true ∧ ms.ceiling m ≠ 0 then ⟨.fifo, ms.ceiling m⟩ else .zero

theorem Mutexes.info_valid (ms : Mutexes μ) (m : μ) : (ms.info m).Valid := by
  unfold Mutexes.info
  split
  · rename_i h; exact fifo_valid (by omega) (ms.ceiling_le m)
  · exact zero_valid

theorem Mutexes.info_priority (ms : Mutexes μ) {m : μ} (h : ms.protects m = true) :
    (ms.info m).priority = ms.ceiling m := by
  unfold Mutexes.info
  split
  · rfl
  · rename_i hc
    rw [not_and, not_not] at hc
    exact (hc h).symm

/-- Ceilings of lower priority are of lower rank. -/
theorem Mutexes.info_rank (ms : Mutexes μ) {m k : μ} (h : (ms.info m).priority ≤ (ms.info k).priority) :
    (ms.info m).rank ≤ (ms.info k).rank := by
  have hr : ∀ m, (ms.info m).policy ≠ .rr := by
    intro m
    unfold Mutexes.info
    split <;> simp [SchedInfo.zero]
  simp only [SchedInfo.rank, if_neg (hr m), if_neg (hr k)]
  omega

variable [DecidableEq μ]

def protectMutexSched (mutexInfo : μ → SchedInfo) (m : μ) (th : Thread μ) (ret : Int) : Thread μ :=
  let th := { th with protectMutexes := listAddHere (mutexPrioSmaller mutexInfo) m th.protectMutexes }
  if th.protectMutexes.head? = some m then th.computeSched mutexInfo ret else th

def protectMutexUnsched (mutexInfo : μ → SchedInfo) (m : μ) (th : Thread μ) (ret : Int) : Thread μ :=
  if m ∈ th.protectMutexes then
    let reschedule := th.protectMutexes.head? = some m
    let th := { th with protectMutexes := th.protectMutexes.erase m }
    if reschedule then th.computeSched mutexInfo ret else th
  else th

def inheritMutexAdd (m : μ) (th : Thread μ) : Thread μ :=
  { th with inheritMutexes := th.inheritMutexes ++ [(m, .zero)] }

def Thread.find (th : Thread μ) (m : μ) : Option (μ × SchedInfo) :=
  th.inheritMutexes.find? fun im => im.1 = m

def inheritMutexUnsched (mutexInfo : μ → SchedInfo) (m : μ) (th : Thread μ) (ret : Int) : Thread μ :=
  match th.find m with
  | none => th
  | some im =>
    let th := { th with inheritMutexes := th.inheritMutexes.eraseP fun im => im.1 = m }
    if im.2 = th.schedInfo then th.computeSched mutexInfo ret else th

/-- Write the setting of the first entry for a mutex. -/
def setEntry (m : μ) (info : SchedInfo) : List (μ × SchedInfo) → List (μ × SchedInfo)
  | [] => []
  | im :: rest => if im.1 = m then (m, info) :: rest else im :: setEntry m info rest

/-- `tb_inherit_mutex_sched` on the owner, where `info` is the `sched_info` of the thread that blocks. -/
def inheritMutexSched (mutexInfo : μ → SchedInfo) (m : μ) (info : SchedInfo) (th : Thread μ) (ret : Int) :
    Thread μ :=
  match th.find m with
  | none => th
  | some im =>
    if raises im.2 info then
      { th with inheritMutexes := setEntry m info th.inheritMutexes }.computeSched mutexInfo ret
    else th

section Lists

variable {here : μ → μ → Bool} {x y : μ} {l : List μ}

omit [DecidableEq μ] in
theorem mem_listAddHere : y ∈ listAddHere here x l ↔ y = x ∨ y ∈ l := by
  induction l with
  | nil => simp [listAddHere]
  | cons z rest ih =>
    simp only [listAddHere]
    split
    · simp
    · simp only [List.mem_cons, ih]
      exact or_left_comm

omit [DecidableEq μ] in
theorem listAddHere_nodup (h : l.Nodup) (hx : x ∉ l) : (listAddHere here x l).Nodup := by
  induction l with
  | nil => simp [listAddHere]
  | cons z rest ih =>
    simp only [listAddHere]
    split
    · exact List.nodup_cons.mpr ⟨hx, h⟩
    · obtain ⟨hz, hrest⟩ := List.nodup_cons.mp h
      rw [List.mem_cons, not_or] at hx
      refine List.nodup_cons.mpr ⟨fun hm => ?_, ih hrest hx.2⟩
      rcases mem_listAddHere.mp hm with rfl | hm
      · exact hx.1 rfl
      · exact hz hm

omit [DecidableEq μ] in
/-- The new node is the first one, or the first one stays. -/
theorem listAddHere_head (here : μ → μ → Bool) (x : μ) (l : List μ) :
    (listAddHere here x l).head? = some x ∨ (listAddHere here x l).head? = l.head? := by
  cases l with
  | nil => exact .inl rfl
  | cons z rest =>
    simp only [listAddHere]
    split
    · exact .inl rfl
    · exact .inr rfl

omit [DecidableEq μ] in
/-- The list stays sorted by priority, equal ones in the order in which they came. -/
theorem listAddHere_sorted {mutexInfo : μ → SchedInfo}
    (h : l.Pairwise fun a b => (mutexInfo b).priority ≤ (mutexInfo a).priority) :
    (listAddHere (mutexPrioSmaller mutexInfo) x l).Pairwise fun a b =>
      (mutexInfo b).priority ≤ (mutexInfo a).priority := by
  induction l with
  | nil => simp [listAddHere]
  | cons z rest ih =>
    obtain ⟨hz, hrest⟩ := List.pairwise_cons.mp h
    simp only [listAddHere]
    split
    · rename_i hhere
      simp only [mutexPrioSmaller, decide_eq_true_eq] at hhere
      refine List.pairwise_cons.mpr ⟨fun y hy => ?_, h⟩
      rcases List.mem_cons.mp hy with rfl | hy
      · omega
      · have := hz y hy
        omega
    · rename_i hhere
      simp only [mutexPrioSmaller, decide_eq_true_eq, Nat.not_lt] at hhere
      refine List.pairwise_cons.mpr ⟨fun y hy => ?_, ih hrest⟩
      rcases mem_listAddHere.mp hy with rfl | hy
      · exact hhere
      · exact hz y hy

theorem erase_head (h : l.head? ≠ some x) : (l.erase x).head? = l.head? := by
  cases l with
  | nil => rfl
  | cons z rest =>
    have hz : z ≠ x := fun he => h (by rw [he]; rfl)
    rw [List.erase_cons_tail (by simpa using hz)]
    rfl

theorem setEntry_fst (m : μ) (info : SchedInfo) (l : List (μ × SchedInfo)) :
    (setEntry m info l).map (·.1) = l.map (·.1) := by
  induction l with
  | nil => rfl
  | cons im rest ih =>
    simp only [setEntry]
    split
    · rename_i h; simp [h]
    · simp [ih]

theorem mem_setEntry {m : μ} {info : SchedInfo} {l : List (μ × SchedInfo)} {e : μ × SchedInfo}
    (h : e ∈ setEntry m info l) : e = (m, info) ∨ e ∈ l := by
  induction l with
  | nil => cases h
  | cons im rest ih =>
    simp only [setEntry] at h
    split at h
    · rcases List.mem_cons.mp h with rfl | h
      · exact .inl rfl
      · exact .inr (List.mem_cons_of_mem im h)
    · rcases List.mem_cons.mp h with rfl | h
      · exact .inr (List.mem_cons_self ..)
      · exact (ih h).imp id (List.mem_cons_of_mem im)

theorem eraseP_fst (m : μ) (l : List (μ × SchedInfo)) :
    (l.eraseP fun im => im.1 = m).map (·.1) = (l.map (·.1)).erase m := by
  induction l with
  | nil => rfl
  | cons im rest ih =>
    by_cases h : im.1 = m
    · rw [List.eraseP_cons_of_pos (by simpa using h), List.map_cons, h, List.erase_cons_head]
    · rw [List.eraseP_cons_of_neg (by simpa using h), List.map_cons, List.map_cons,
        List.erase_cons_tail (by simpa using h), ih]

omit [DecidableEq μ] in
/-- The element that is found is the only one that `list_rm` takes out. -/
theorem mem_eraseP_of_ne {p : μ → Bool} (hf : l.find? p = some x) (hy : y ∈ l) (hne : y ≠ x) : y ∈ l.eraseP p := by
  induction l with
  | nil => cases hy
  | cons z rest ih =>
    cases hz : p z with
    | true =>
      rw [List.find?_cons_of_pos hz, Option.some.injEq] at hf
      rw [List.eraseP_cons_of_pos hz]
      exact (List.mem_cons.mp hy).resolve_left (hf ▸ hne)
    | false =>
      rw [List.find?_cons_of_neg (by simp [hz])] at hf
      rw [List.eraseP_cons_of_neg (by simp [hz])]
      rcases List.mem_cons.mp hy with rfl | hy
      · exact List.mem_cons_self ..
      · exact List.mem_cons_of_mem z (ih hf hy)

end Lists

section Settled

variable {mutexInfo : μ → SchedInfo} {th : Thread μ}

omit [DecidableEq μ]

@[simp] theorem setSched_userSchedInfo (i : SchedInfo) (ret : Int) :
    (th.setSched i ret).userSchedInfo = th.userSchedInfo := by
  unfold Thread.setSched; split <;> rfl

@[simp] theorem setSched_protectMutexes (i : SchedInfo) (ret : Int) :
    (th.setSched i ret).protectMutexes = th.protectMutexes := by
  unfold Thread.setSched; split <;> rfl

@[simp] theorem setSched_inheritMutexes (i : SchedInfo) (ret : Int) :
    (th.setSched i ret).inheritMutexes = th.inheritMutexes := by
  unfold Thread.setSched; split <;> rfl

@[simp] theorem setSched_schedInfo (i : SchedInfo) : (th.setSched i 0).schedInfo = i := rfl

/-- What `tb_compute_sched` finds depends on the user setting, the first protect mutex and the settings of
the inherit mutexes. -/
theorem effective_congr {th' : Thread μ} (hu : th'.userSchedInfo = th.userSchedInfo)
    (hp : th'.protectMutexes.head? = th.protectMutexes.head?) (hi : th'.inheritMutexes = th.inheritMutexes) :
    th'.effective mutexInfo = th.effective mutexInfo := by
  unfold Thread.effective
  rw [hu, hi]
  cases h : th.protectMutexes <;> cases h' : th'.protectMutexes <;> rw [h, h'] at hp <;> simp at hp
  rw [hp]

/-- The cached setting is the one that `tb_compute_sched` finds. -/
def Settled (mutexInfo : μ → SchedInfo) (th : Thread μ) : Prop := th.schedInfo = th.effective mutexInfo

theorem computeSched_settled : Settled mutexInfo (th.computeSched mutexInfo 0) := by
  have he : (th.computeSched mutexInfo 0).effective mutexInfo = th.effective mutexInfo :=
    effective_congr (by simp [Thread.computeSched]) (by simp [Thread.computeSched]) (by simp [Thread.computeSched])
  exact he.symm

/-- The settings that `tb_compute_sched` looks at. -/
def Thread.looked (mutexInfo : μ → SchedInfo) (th : Thread μ) : List SchedInfo :=
  (match th.protectMutexes with
    | [] => th.userSchedInfo
    | m :: _ => raise th.userSchedInfo (mutexInfo m)) :: th.inheritMutexes.map (·.2)

theorem effective_strongest (mutexInfo : μ → SchedInfo) (th : Thread μ) :
    Strongest (th.looked mutexInfo) (th.effective mutexInfo) :=
  foldl_raise_strongest _ _

/-- The user setting, the ceilings of all protect mutexes, and the settings of all inherit mutexes. -/
def Thread.sources (mutexInfo : μ → SchedInfo) (th : Thread μ) : List SchedInfo :=
  th.userSchedInfo :: (th.protectMutexes.map mutexInfo ++ th.inheritMutexes.map (·.2))

end Settled

section Fields

variable (mutexInfo : μ → SchedInfo) (m : μ) (th : Thread μ) (ret : Int)

@[simp] theorem protectMutexSched_userSchedInfo :
    (protectMutexSched mutexInfo m th ret).userSchedInfo = th.userSchedInfo := by
  simp only [protectMutexSched]
  split <;> simp [Thread.computeSched]

@[simp] theorem protectMutexSched_protectMutexes : (protectMutexSched mutexInfo m th ret).protectMutexes =
    listAddHere (mutexPrioSmaller mutexInfo) m th.protectMutexes := by
  simp only [protectMutexSched]
  split <;> simp [Thread.computeSched]

@[simp] theorem protectMutexSched_inheritMutexes :
    (protectMutexSched mutexInfo m th ret).inheritMutexes = th.inheritMutexes := by
  simp only [protectMutexSched]
  split <;> simp [Thread.computeSched]

@[simp] theorem protectMutexUnsched_userSchedInfo :
    (protectMutexUnsched mutexInfo m th ret).userSchedInfo = th.userSchedInfo := by
  simp only [protectMutexUnsched]
  split
  · split <;> simp [Thread.computeSched]
  · rfl

@[simp] theorem protectMutexUnsched_protectMutexes :
    (protectMutexUnsched mutexInfo m th ret).protectMutexes = th.protectMutexes.erase m := by
  simp only [protectMutexUnsched]
  split
  · split <;> simp [Thread.computeSched]
  · rename_i hm; exact (List.erase_of_not_mem hm).symm

@[simp] theorem protectMutexUnsched_inheritMutexes :
    (protectMutexUnsched mutexInfo m th ret).inheritMutexes = th.inheritMutexes := by
  simp only [protectMutexUnsched]
  split
  · split <;> simp [Thread.computeSched]
  · rfl

@[simp] theorem inheritMutexUnsched_userSchedInfo :
    (inheritMutexUnsched mutexInfo m th ret).userSchedInfo = th.userSchedInfo := by
  simp only [inheritMutexUnsched]
  split
  · rfl
  · split <;> simp [Thread.computeSched]

@[simp] theorem inheritMutexUnsched_protectMutexes :
    (inheritMutexUnsched mutexInfo m th ret).protectMutexes = th.protectMutexes := by
  simp only [inheritMutexUnsched]
  split
  · rfl
  · split <;> simp [Thread.computeSched]

@[simp] theorem inheritMutexUnsched_inheritMutexes : (inheritMutexUnsched mutexInfo m th ret).inheritMutexes =
    th.inheritMutexes.eraseP fun im => im.1 = m := by
  simp only [inheritMutexUnsched]
  split
  · rename_i hf
    exact (List.eraseP_of_forall_not fun im him => by simpa using List.find?_eq_none.mp hf im him).symm
  · split <;> simp [Thread.computeSched]

variable (info : SchedInfo)

@[simp] theorem inheritMutexSched_userSchedInfo :
    (inheritMutexSched mutexInfo m info th ret).userSchedInfo = th.userSchedInfo := by
  simp only [inheritMutexSched]
  split
  · rfl
  · split <;> simp [Thread.computeSched]

@[simp] theorem inheritMutexSched_protectMutexes :
    (inheritMutexSched mutexInfo m info th ret).protectMutexes = th.protectMutexes := by
  simp only [inheritMutexSched]
  split
  · rfl
  · split <;> simp [Thread.computeSched]

theorem inheritMutexSched_inheritMutexes :
    (inheritMutexSched mutexInfo m info th ret).inheritMutexes = th.inheritMutexes ∨
    (inheritMutexSched mutexInfo m info th ret).inheritMutexes = setEntry m info th.inheritMutexes := by
  simp only [inheritMutexSched]
  split
  · exact .inl rfl
  · split
    · exact .inr (by simp [Thread.computeSched])
    · exact .inl rfl

end Fields

section Kept

variable {mutexInfo : μ → SchedInfo} {th : Thread μ} {m : μ}

theorem settled_protectMutexSched (h : Settled mutexInfo th) :
    Settled mutexInfo (protectMutexSched mutexInfo m th 0) := by
  unfold protectMutexSched
  simp only
  split
  · exact computeSched_settled
  · rename_i hhead
    have hsame := (listAddHere_head (mutexPrioSmaller mutexInfo) m th.protectMutexes).resolve_left hhead
    refine h.trans (Eq.symm ?_)
    exact effective_congr rfl hsame rfl

theorem settled_protectMutexUnsched (h : Settled mutexInfo th) :
    Settled mutexInfo (protectMutexUnsched mutexInfo m th 0) := by
  unfold protectMutexUnsched
  simp only
  split
  · split
    · exact computeSched_settled
    · rename_i hhead
      refine h.trans (Eq.symm ?_)
      exact effective_congr rfl (erase_head hhead) rfl
  · exact h

omit [DecidableEq μ] in
theorem looked_valid (hu : th.userSchedInfo.Valid) (hm : ∀ m, (mutexInfo m).Valid)
    (hi : ∀ im ∈ th.inheritMutexes, im.2.Valid) : ∀ i ∈ th.looked mutexInfo, i.Valid := by
  intro i hmem
  rcases List.mem_cons.mp hmem with rfl | hmem
  · split
    · exact hu
    · exact raise_valid hu (hm _)
  · obtain ⟨im, him, rfl⟩ := List.mem_map.mp hmem
    exact hi im him

omit [DecidableEq μ] in
/-- A cleared entry does not change the setting of a thread with valid ones. -/
theorem settled_inheritMutexAdd (h : Settled mutexInfo th) (hv : ∀ i ∈ th.looked mutexInfo, i.Valid) :
    Settled mutexInfo (inheritMutexAdd m th) := by
  have hzero : ∀ i : SchedInfo, i.Valid → raise i .zero = i := by
    intro i hi
    obtain ⟨p, n⟩ := i
    rw [raise_eq, if_neg]
    cases p <;> simp [SchedInfo.Valid, SchedInfo.rank, SchedInfo.zero] at hi ⊢
    omega
  have he : (inheritMutexAdd m th).effective mutexInfo = raise (th.effective mutexInfo) .zero := by
    simp [Thread.effective, inheritMutexAdd]
  exact h.trans (he.trans (hzero _ (hv _ (effective_strongest mutexInfo th).mem))).symm

/-- An entry that is not the setting of the thread is not the strongest one. -/
theorem settled_inheritMutexUnsched (h : Settled mutexInfo th) (hv : ∀ i ∈ th.looked mutexInfo, i.Valid) :
    Settled mutexInfo (inheritMutexUnsched mutexInfo m th 0) := by
  unfold inheritMutexUnsched
  split
  · exact h
  · rename_i im hfind
    simp only
    split
    · exact computeSched_settled
    · rename_i hne
      have hbest := effective_strongest mutexInfo th
      have hsub : ∀ i ∈ Thread.looked mutexInfo
          { th with inheritMutexes := th.inheritMutexes.eraseP fun im => im.1 = m }, i ∈ th.looked mutexInfo := by
        intro i hi
        rcases List.mem_cons.mp hi with rfl | hi
        · exact List.mem_cons_self ..
        · obtain ⟨e, he, rfl⟩ := List.mem_map.mp hi
          exact List.mem_cons_of_mem _ (List.mem_map.mpr ⟨e, List.mem_of_mem_eraseP he, rfl⟩)
      have hstays : th.effective mutexInfo ∈ Thread.looked mutexInfo
          { th with inheritMutexes := th.inheritMutexes.eraseP fun im => im.1 = m } := by
        rcases List.mem_cons.mp hbest.mem with he | hmem
        · exact List.mem_cons.mpr (.inl he)
        · obtain ⟨e, he, heq⟩ := List.mem_map.mp hmem
          refine List.mem_cons_of_mem _ (List.mem_map.mpr ⟨e, ?_, heq⟩)
          refine mem_eraseP_of_ne hfind he fun him => hne ?_
          rw [← him, heq]
          exact h.symm
      exact h.trans ((hbest.of_le hstays fun i hi => ⟨i, hsub i hi, Nat.le_refl _⟩).unique
        (fun i hi => hv i (hsub i hi)) (effective_strongest mutexInfo _))

theorem settled_inheritMutexSched (h : Settled mutexInfo th) {info : SchedInfo} :
    Settled mutexInfo (inheritMutexSched mutexInfo m info th 0) := by
  unfold inheritMutexSched
  split
  · exact h
  · split
    · exact computeSched_settled
    · exact h

end Kept

end ThreadBites.Sched

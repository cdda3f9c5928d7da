import ThreadBites.CondVarSignals

/-!
# How many waiters a signal releases

Signals are numbered as they are issued. A waiter that leaves the wait loop
leaves a record: whether a broadcast ran since it began to wait, and the signal
its decrement of `signal_num` is put down to. The sequence number starts
anywhere; the `int` a wait saved of it is compared with it as 64 bits.
-/
namespace ThreadBites.CondVar

open Transition Tally WaitQueue

variable {τ μ : Type}

/-- A departure from the wait loop. -/
structure Leave where
  covered : Bool
  signal : Option Nat
  deriving DecidableEq, Repr

/-- The condition variable and its history; `outstanding` numbers the signals of `sent`. -/
structure Ledger (τ μ : Type) where
  state : State τ μ
  issued : Nat
  outstanding : List Nat
  leaves : List Leave

/-- No history, and any sequence number. -/
def Ledger.start (seq : BitVec 64) : Ledger τ μ := ⟨.start seq, 0, [], []⟩

def Ledger.Initial (l : Ledger τ μ) : Prop := ∃ seq, l = .start seq

def Ledger.consumed (l : Ledger τ μ) : List Nat := l.leaves.filterMap Leave.signal

/-- The waiters that left although no broadcast ran since they began to wait. -/
def Ledger.alone (l : Ledger τ μ) : Nat := l.leaves.countP fun v => !v.covered

/-- Enter a step to `s'` in the history. -/
def Ledger.record (l : Ledger τ μ) (s' : State τ μ) : Action τ μ → Ledger τ μ
  | .signal _ _ =>
      if l.state.cond.signalNum < s'.cond.signalNum then
        { l with state := s', issued := l.issued + 1, outstanding := l.outstanding ++ [l.issued] }
      else { l with state := s' }
  | .recheck t pick =>
      let covered := !uncovered l.state.casts (l.state.pc t)
      if waiting (s'.pc t) then { l with state := s' }
      else if s'.cond.signalNum < l.state.cond.signalNum then
        { l with
          state := s'
          outstanding := l.outstanding.eraseIdx pick
          leaves := l.leaves ++ [⟨covered, l.outstanding[pick]?⟩] }
      else { l with state := s', leaves := l.leaves ++ [⟨covered, none⟩] }
  | _ => { l with state := s' }

/-- Every departure has its reason, and no signal is the reason of two. -/
structure OneEach (l : Ledger τ μ) : Prop where
  reason : ∀ v ∈ l.leaves, v.covered = true ∨ v.signal.isSome = true
  once : l.consumed.Nodup
  issued : ∀ n ∈ l.consumed, n < l.issued
  bound : l.alone ≤ l.issued

/-- The comparison of `bseq` with `broadcast_seq` is right for a value saved of it just now. -/
def fitsInt (seq : BitVec 64) : Prop := seq.toNat < 2 ^ 31 ∨ 2 ^ 64 - 2 ^ 31 ≤ seq.toNat

instance (seq : BitVec 64) : Decidable (fitsInt seq) := inferInstanceAs (Decidable (_ ∨ _))

/-- A waiter that finds no signal and that no broadcast covered compares an `int` that holds
the sequence number. -/
def FitsWhenCompared (s : State τ μ) : Action τ μ → Prop
  | .recheck t _ => s.cond.signalNum = 0 → uncovered s.casts (s.pc t) = true → fitsInt s.cond.broadcastSeq
  | _ => True

instance (s : State τ μ) : (a : Action τ μ) → Decidable (FitsWhenCompared s a)
  | .recheck _ _ => inferInstanceAs (Decidable (_ → _ → _))
  | .broadcast _ => isTrue trivial
  | .signal _ _ => isTrue trivial
  | .call _ _ => isTrue trivial
  | .waitBegin _ _ => isTrue trivial
  | .futexWait _ => isTrue trivial
  | .interrupt _ => isTrue trivial
  | .relock _ => isTrue trivial

/-- Saving 64 bits in an `int` and extending the sign gives them back exactly in the range of `int`. -/
theorem signExtend_truncate (seq : BitVec 64) :
    (seq.truncate 32).signExtend 64 = seq ↔ fitsInt seq := by
  have hseq := seq.isLt
  rw [← BitVec.toNat_inj, BitVec.toNat_signExtend, BitVec.msb_eq_decide]
  simp only [fitsInt, BitVec.truncate_eq_setWidth, BitVec.toNat_setWidth]
  by_cases hm : 2 ^ 31 ≤ seq.toNat % 2 ^ 32
  · simp only [show (32 - 1 : Nat) = 31 from rfl, hm, decide_true, if_true]
    omega
  · simp only [show (32 - 1 : Nat) = 31 from rfl, hm, decide_false, Bool.false_eq_true, if_false]
    omega

/-- A wait began no later than now, and one that no broadcast covered saved the sequence number. -/
def Sampled (s : State τ μ) : Prop :=
  ∀ t w, waitOf (s.pc t) = some w → w.casts ≤ s.casts ∧
    (w.casts = s.casts → w.sample.bseq = s.cond.broadcastSeq.truncate 32)

theorem sampled_start (seq : BitVec 64) : Sampled (State.start seq : State τ μ) := by
  intro t w h
  cases h

/-- The history agrees with the condition variable: every number issued stands at most once
among the outstanding signals and the consumed ones. -/
structure Booked (l : Ledger τ μ) : Prop where
  sent : Issued l.state
  sampled : Sampled l.state
  length : l.outstanding.length = l.state.cond.signalNum
  fresh : (l.outstanding ++ l.consumed).Nodup
  issued : ∀ n ∈ l.outstanding ++ l.consumed, n < l.issued
  reason : ∀ v ∈ l.leaves, v.covered = true ∨ v.signal.isSome = true

theorem booked_start (seq : BitVec 64) : Booked (Ledger.start seq : Ledger τ μ) where
  sent := issued_start seq
  sampled := sampled_start seq
  length := rfl
  fresh := by simp [Ledger.start, Ledger.consumed]
  issued := by simp [Ledger.start, Ledger.consumed]
  reason := by simp [Ledger.start]

/-- A step that neither issues nor consumes a signal and lets nobody leave. -/
theorem Booked.quiet {l : Ledger τ μ} (h : Booked l) {s' : State τ μ} (hsent : Issued s')
    (hsampled : Sampled s') (hnum : s'.cond.signalNum = l.state.cond.signalNum) :
    Booked { l with state := s' } :=
  ⟨hsent, hsampled, hnum ▸ h.length, h.fresh, h.issued, h.reason⟩

/-- A departure without a signal. -/
theorem Booked.release {l : Ledger τ μ} (h : Booked l) {s' : State τ μ} (hsent : Issued s')
    (hsampled : Sampled s') (hnum : s'.cond.signalNum = l.state.cond.signalNum) :
    Booked { l with state := s', leaves := l.leaves ++ [⟨true, none⟩] } where
  sent := hsent
  sampled := hsampled
  length := hnum ▸ h.length
  fresh := by simpa [Ledger.consumed] using h.fresh
  issued := by simpa [Ledger.consumed] using h.issued
  reason := by
    intro v hv
    rcases List.mem_append.mp hv with hv | hv
    · exact h.reason v hv
    · rw [List.mem_singleton.mp hv]
      exact .inl rfl

/-- A signal gets the next number, which nobody has yet. -/
theorem Booked.issue {l : Ledger τ μ} (h : Booked l) {s' : State τ μ} (hsent : Issued s')
    (hsampled : Sampled s') (hnum : s'.cond.signalNum = l.state.cond.signalNum + 1) :
    Booked { l with state := s', issued := l.issued + 1, outstanding := l.outstanding ++ [l.issued] } := by
  have hperm : (l.outstanding ++ [l.issued] ++ l.consumed).Perm (l.issued :: (l.outstanding ++ l.consumed)) := by
    simp
  have hnew : l.issued ∉ l.outstanding ++ l.consumed := fun hm => absurd (h.issued _ hm) (lt_irrefl _)
  constructor
  · exact hsent
  · exact hsampled
  · simp [hnum, h.length]
  · exact hperm.nodup_iff.mpr (List.nodup_cons.mpr ⟨hnew, h.fresh⟩)
  · intro n hn
    rcases List.mem_cons.mp (hperm.mem_iff.mp hn) with rfl | hn
    · exact Nat.lt_succ_self _
    · exact Nat.lt_succ_of_lt (h.issued n hn)
  · exact h.reason

/-- A departure that takes an outstanding signal. -/
theorem Booked.consume {l : Ledger τ μ} (h : Booked l) {s' : State τ μ} {pick : Nat} {covered : Bool}
    (hpick : pick < l.outstanding.length) (hsent : Issued s') (hsampled : Sampled s')
    (hnum : s'.cond.signalNum = l.state.cond.signalNum - 1) :
    Booked { l with
      state := s'
      outstanding := l.outstanding.eraseIdx pick
      leaves := l.leaves ++ [⟨covered, l.outstanding[pick]?⟩] } := by
  have hget : l.outstanding[pick]? = some l.outstanding[pick] := List.getElem?_eq_getElem hpick
  have hperm : (l.outstanding.eraseIdx pick ++ (l.consumed ++ [l.outstanding[pick]])).Perm
      (l.outstanding ++ l.consumed) := by
    rw [← List.append_assoc]
    refine List.perm_append_comm.trans ?_
    exact (List.getElem_cons_eraseIdx_perm hpick).append_right l.consumed
  constructor
  · exact hsent
  · exact hsampled
  · have := h.length
    simp only [List.length_eraseIdx_of_lt hpick]
    omega
  · simpa [Ledger.consumed, hget] using hperm.nodup_iff.mpr h.fresh
  · intro n hn
    exact h.issued n (hperm.mem_iff.mp (by simpa [Ledger.consumed, hget] using hn))
  · intro v hv
    rcases List.mem_append.mp hv with hv | hv
    · exact h.reason v hv
    · rw [List.mem_singleton.mp hv, hget]
      exact .inr rfl

/-- Each departure that no broadcast covered accounts for a signal. -/
theorem countP_alone_le {leaves : List Leave}
    (hr : ∀ v ∈ leaves, v.covered = true ∨ v.signal.isSome = true) :
    (leaves.countP fun v => !v.covered) ≤ (leaves.filterMap Leave.signal).length := by
  induction leaves with
  | nil => exact Nat.zero_le _
  | cons v rest ih =>
    have hrest := ih fun u hu => hr u (List.mem_cons_of_mem v hu)
    rcases hr v List.mem_cons_self with hv | hv
    · rw [List.countP_cons_of_neg (by simp [hv])]
      exact hrest.trans ((List.sublist_cons_self v rest).filterMap _).length_le
    · obtain ⟨n, hn⟩ := Option.isSome_iff_exists.mp hv
      rw [List.filterMap_cons_some hn, List.length_cons, List.countP_cons]
      split <;> omega

/-- Whoever left alone holds a number of its own, and the numbers stay below `issued`. -/
theorem Booked.bound {l : Ledger τ μ} (h : Booked l) : l.alone ≤ l.issued := by
  have hsub : l.consumed ⊆ List.range l.issued := fun n hn =>
    List.mem_range.mpr (h.issued n (List.mem_append_right _ hn))
  have hlen := ((List.nodup_append.mp h.fresh).2.1.subperm hsub).length_le
  rw [List.length_range] at hlen
  exact (countP_alone_le h.reason).trans hlen

variable [DecidableEq τ] [Fintype τ] [DecidableEq μ]

theorem sampled_step {s s' : State τ μ} {a : Action τ μ} (h : Sampled s) (hs : Stepped s a s') :
    Sampled s' := by
  intro u w hw
  rcases wait_step hs hw with hold | ⟨hseq, hcasts, -⟩
  · obtain ⟨hle, hseq⟩ := h u w hold
    have hmono := (counters_step hs).1
    refine ⟨hle.trans hmono, fun hc => ?_⟩
    -- a broadcast since would have made the wait older
    have hsame : s'.casts = s.casts := by omega
    rw [hseq (hc.trans hsame), broadcastSeq_step hs hsame]
  · exact ⟨hcasts.le, fun _ => hseq⟩

def Ledger.step (l : Ledger τ μ) (a : Action τ μ) : Option (Ledger τ μ) :=
  (CondVar.step l.state a).map fun s' => l.record s' a

/-- The condition of a step, on the condition variable. -/
def Ledger.FitsWhenCompared (l : Ledger τ μ) (a : Action τ μ) : Prop := CondVar.FitsWhenCompared l.state a

instance (l : Ledger τ μ) (a : Action τ μ) : Decidable (l.FitsWhenCompared a) :=
  inferInstanceAs (Decidable (CondVar.FitsWhenCompared l.state a))

theorem booked_step {l : Ledger τ μ} {s' : State τ μ} {a : Action τ μ} (h : Booked l)
    (ha : l.FitsWhenCompared a) (hs : Stepped l.state a s') : Booked (l.record s' a) := by
  have hsent := issued_step h.sent hs
  have hsampled := sampled_step h.sampled hs
  cases hs with
  | signalIdle hpc hw =>
    simp only [Ledger.record, State.goto, lt_irrefl, if_false]
    exact h.quiet hsent hsampled rfl
  | signal hpc hw hwake =>
    simp only [Ledger.record, Nat.lt_succ_self, if_true]
    exact h.issue hsent hsampled rfl
  | @consumed t w st pick hpc hn hp =>
    have hlt : l.state.cond.signalNum - 1 < l.state.cond.signalNum := by omega
    have hpick : pick < l.outstanding.length := by
      rw [h.length, ← h.sent.count]
      exact hp
    simp only [Ledger.record, State.goto, leave, Function.update_self, waiting, waitOf, Option.isSome_none,
      Bool.false_eq_true, if_false, hlt, if_true]
    exact h.consume hpick hsent hsampled rfl
  | @released t w st pick hpc hn hb =>
    -- the comparison failed, so the sample is of an older sequence number
    have hcovered : uncovered l.state.casts (l.state.pc t) = false := by
      by_contra hu
      have hu : uncovered l.state.casts (l.state.pc t) = true := by simpa using hu
      have hw : w.casts = l.state.casts := by simpa [uncovered, hpc, waitOf] using hu
      have hseq := (h.sampled t w (by rw [hpc]; rfl)).2 hw
      exact hb (by rw [hseq]; exact (signExtend_truncate _).mpr (ha hn hu))
    simp only [Ledger.record, State.goto, leave, Function.update_self, waiting, waitOf, Option.isSome_none,
      Bool.false_eq_true, if_false, lt_irrefl, hcovered, Bool.not_false]
    exact h.release hsent hsampled rfl
  | @stayed t w st pick hpc hn hb =>
    simp only [Ledger.record, State.goto, Function.update_self, waiting, waitOf, Option.isSome_some, if_true]
    exact h.quiet hsent hsampled rfl
  | _ => exact h.quiet hsent hsampled rfl

theorem reaches_booked {l : Ledger τ μ} (h : Reaches Ledger.Initial Ledger.step Ledger.FitsWhenCompared l) :
    Booked l := by
  refine h.invariant ?_ ?_
  · rintro l ⟨seq, rfl⟩
    exact booked_start seq
  · intro l a l' _ hi ha hs
    obtain ⟨s', hs', rfl⟩ := Option.map_eq_some_iff.mp hs
    exact booked_step hi ha (step_stepped hs')

/-- In a run whose comparisons of `bseq` all hold an `int`, whoever leaves the wait loop was
covered by a broadcast or holds a signal of its own; so a signal releases at most one waiter. -/
theorem cond_one_release_each {l : Ledger τ μ}
    (h : Reaches Ledger.Initial Ledger.step Ledger.FitsWhenCompared l) : OneEach l := by
  have hi := reaches_booked h
  constructor
  · exact hi.reason
  · exact (List.nodup_append.mp hi.fresh).2.1
  · exact fun n hn => hi.issued n (List.mem_append_right _ hn)
  · exact hi.bound

/-- Two threads begin to wait; one sleeps and is woken by a signal that the other finds out
about when it gets to `FUTEX_WAIT`. -/
def twoWaiters (t u v : τ) (m : μ) : List (Action τ μ) :=
  [Action.call t (.wait m), Action.waitBegin t 0, Action.futexWait t,
    Action.call u (.wait m), Action.waitBegin u 0, Action.call v .signal, Action.signal v (some t),
    Action.futexWait u, Action.recheck t 0, Action.recheck u 0]

/-- With the sequence number at `-1` the second waiter goes back to sleep. -/
theorem cond_one_release_each_two : ∃ l : Ledger (Fin 3) Unit,
    Reaches Ledger.Initial Ledger.step Ledger.FitsWhenCompared l ∧ l.issued = 1 ∧ l.alone = 1 ∧ OneEach l := by
  have hr := Reaches.run_get (show Ledger.Initial (Ledger.start (-1) : Ledger (Fin 3) Unit) from ⟨_, rfl⟩)
    (show (run Ledger.step Ledger.FitsWhenCompared (twoWaiters 0 1 2 ()) (Ledger.start (-1))).isSome from by decide)
  exact ⟨_, hr, by decide, by decide, cond_one_release_each hr⟩

/-- With the sequence number at `2^31` one signal lets both waiters go. -/
theorem cond_two_releases : ∃ l : Ledger (Fin 3) Unit,
    Reaches Ledger.Initial Ledger.step anyStep l ∧ l.state.casts = 0 ∧ l.issued = 1 ∧ l.alone = 2 ∧ ¬ OneEach l := by
  have hr := Reaches.run_get (show Ledger.Initial (Ledger.start (2 ^ 31) : Ledger (Fin 3) Unit) from ⟨_, rfl⟩)
    (show (run Ledger.step anyStep (twoWaiters 0 1 2 ()) (Ledger.start (2 ^ 31))).isSome from by decide)
  exact ⟨_, hr, by decide, by decide, by decide, fun h => absurd h.bound (by decide)⟩

end ThreadBites.CondVar

import ThreadBites.CondVarWaiters

/-!
# Which waiter consumes a signal

A waiter that rechecks looks at `signal_num` before it looks at the broadcast
sequence. A waiter that a broadcast has already released therefore takes a
signal that was sent for somebody who is still blocked. It cannot if it has left
the loop by then: whoever waits when no released waiter is in the loop began to
wait after the last broadcast.
-/
namespace ThreadBites.CondVar

open Transition Tally WaitQueue

variable {τ μ : Type}

/-- A decrement of `signal_num`: the signal that it is put down to, and the wait that made it. -/
structure Taking (μ : Type) where
  signal : Sent
  wait : Wait μ
  deriving DecidableEq

/-- A broadcast had covered the wait before the signal was sent, though uncovered waiters outnumbered
the outstanding signals then. -/
def Taking.Swallows (x : Taking μ) : Prop := x.signal.guarded = true ∧ x.wait.casts < x.signal.casts

/-- The wait was in progress when the signal was sent, and no broadcast had covered it. -/
def Wait.BlockedAt (w : Wait μ) (g : Sent) : Prop := w.bumps ≤ g.bumps ∧ w.casts = g.casts

instance (w : Wait μ) (g : Sent) : Decidable (w.BlockedAt g) := inferInstanceAs (Decidable (_ ∧ _))

/-- The condition variable and the decrements so far. -/
structure Served (τ μ : Type) where
  state : State τ μ
  takings : List (Taking μ)

def Served.start : Served τ μ := ⟨.start 0, []⟩

def Served.Initial (l : Served τ μ) : Prop := l = .start

/-- What a step to `s'` takes. -/
def Served.taking (l : Served τ μ) (s' : State τ μ) : Action τ μ → List (Taking μ)
  | .recheck t pick =>
      if s'.cond.signalNum < l.state.cond.signalNum then
        match l.state.sent[pick]?, waitOf (l.state.pc t) with
        | some g, some w => [⟨g, w⟩]
        | _, _ => []
      else []
  | _ => []

/-- A waiter that was blocked when the signal of a decrement was sent is left waiting, with none
outstanding. -/
def Served.LeavesWaiting (l : Served τ μ) (x : Taking μ) : Prop :=
  l.state.cond.signalNum = 0 ∧ ∃ u w, waitOf (l.state.pc u) = some w ∧ w.BlockedAt x.signal

/-- The outstanding signals are as many as `signal_num` says and no newer than the broadcasts. -/
structure Issued (s : State τ μ) : Prop where
  count : s.sent.length = s.cond.signalNum
  casts : ∀ g ∈ s.sent, g.casts ≤ s.casts

theorem issued_start (seq : BitVec 64) : Issued (State.start seq : State τ μ) where
  count := rfl
  casts := by simp [State.start]

/-- A wait that began before a signal was sent began before the broadcasts after it. -/
structure Dated (s : State τ μ) : Prop where
  issued : Issued s
  sent : ∀ g ∈ s.sent, g.bumps < s.bumps
  waits : ∀ t w, waitOf (s.pc t) = some w → w.bumps ≤ s.bumps ∧ w.casts ≤ s.casts
  order : ∀ g ∈ s.sent, ∀ t w, waitOf (s.pc t) = some w → w.bumps ≤ g.bumps → w.casts ≤ g.casts

/-- Nobody in the loop was covered by a broadcast before a signal that found the uncovered waiters in
the majority. -/
def Unpassed (s : State τ μ) : Prop :=
  ∀ g ∈ s.sent, g.guarded = true → ∀ t w, waitOf (s.pc t) = some w → g.casts ≤ w.casts

theorem dated_start (seq : BitVec 64) : Dated (State.start seq : State τ μ) where
  issued := issued_start seq
  sent := by simp [State.start]
  waits := by simp [State.start, waitOf]
  order := by simp [State.start]

variable [DecidableEq τ]

theorem waitOf_goto {s : State τ μ} {t : τ} {c : Pc μ} (hc : waitOf c = waitOf (s.pc t) ∨ waitOf c = none) (u : τ) :
    waitOf ((s.goto t c).pc u) = waitOf (s.pc u) ∨ waitOf ((s.goto t c).pc u) = none := by
  by_cases hu : u = t
  · subst u
    simpa [State.goto] using hc
  · exact .inl (by simp [State.goto, hu])

variable [Fintype τ] [DecidableEq μ]

/-- When a signal is counted that finds the uncovered waiters in the majority, there is no waiter in the
loop that a broadcast has released. -/
def NoneReleased (s : State τ μ) : Action τ μ → Prop
  | .signal _ _ => s.cond.signalNum < tally (uncovered s.casts) s.pc →
      ∀ u, waiting (s.pc u) = true → uncovered s.casts (s.pc u) = true
  | _ => True

instance (s : State τ μ) : (a : Action τ μ) → Decidable (NoneReleased s a)
  | .signal _ _ => inferInstanceAs (Decidable (_ → _))
  | .broadcast _ => isTrue trivial
  | .call _ _ => isTrue trivial
  | .waitBegin _ _ => isTrue trivial
  | .futexWait _ => isTrue trivial
  | .interrupt _ => isTrue trivial
  | .recheck _ _ => isTrue trivial
  | .relock _ => isTrue trivial

/-- A wait after a step was in progress before it, or begins with it. -/
theorem wait_step {s s' : State τ μ} {a : Action τ μ} (hs : Stepped s a s') {u : τ} {w : Wait μ}
    (hw : waitOf (s'.pc u) = some w) :
    waitOf (s.pc u) = some w ∨
      w.sample.bseq = s'.cond.broadcastSeq.truncate 32 ∧ w.casts = s'.casts ∧ w.bumps = s'.bumps := by
  have old : waitOf (s'.pc u) = waitOf (s.pc u) ∨ waitOf (s'.pc u) = none → waitOf (s.pc u) = some w ∨
      w.sample.bseq = s'.cond.broadcastSeq.truncate 32 ∧ w.casts = s'.casts ∧ w.bumps = s'.bumps := by
    rintro (he | he)
    · exact .inl (he ▸ hw)
    · rw [he] at hw; cases hw
  cases hs with
  | @call t f st hpc => exact old (waitOf_goto (.inr (by cases f <;> rfl)) u)
  | broadcastIdle hpc hn => exact old (waitOf_goto (s := { s with casts := s.casts + 1 }) (.inr rfl) u)
  | @broadcast t hpc hn =>
    refine old ?_
    rw [(wakeAll_woken asleep resume (s.goto t (.out 0)).pc).same (fun x _ => waitOf_resume x) u]
    exact waitOf_goto (.inr rfl) u
  | @signal t woken pc hpc hn hwake =>
    refine old ?_
    rw [(wakeOne_woken hwake).same (fun x _ => waitOf_resume x) u]
    exact waitOf_goto (.inr rfl) u
  | @waitBegun t m hpc hm =>
    by_cases hu : u = t
    · subst u
      right
      have he : w = ⟨m, ⟨s.cond.broadcastSeq.truncate 32, s.cond.futex⟩, s.casts, s.bumps⟩ := by
        simpa [State.goto, waitOf, eq_comm] using hw
      subst w
      exact ⟨rfl, rfl, rfl⟩
    · exact .inl (by simpa [State.goto, hu] using hw)
  | slept hpc hf => exact old (waitOf_goto (.inl (by rw [hpc]; rfl)) u)
  | missed hpc hf => exact old (waitOf_goto (.inl (by rw [hpc]; rfl)) u)
  | interrupted hpc => exact old (waitOf_goto (.inl (by rw [hpc]; rfl)) u)
  | stayed hpc hn hb => exact old (waitOf_goto (.inl (by rw [hpc]; rfl)) u)
  | signalIdle | waitFailed | consumed | released | relocked => exact old (waitOf_goto (.inr rfl) u)

theorem counters_step {s s' : State τ μ} {a : Action τ μ} (hs : Stepped s a s') :
    s.casts ≤ s'.casts ∧ s.bumps ≤ s'.bumps := by
  cases hs <;> exact ⟨by simp [State.goto], by simp [State.goto]⟩

/-- Without a broadcast the sequence number stays. -/
theorem broadcastSeq_step {s s' : State τ μ} {a : Action τ μ} (hs : Stepped s a s') (hc : s'.casts = s.casts) :
    s'.cond.broadcastSeq = s.cond.broadcastSeq := by
  cases hs with
  | broadcastIdle | broadcast => exact absurd hc (Nat.succ_ne_self _)
  | waitFailed => simp [State.goto]
  | _ => rfl

/-- A signal that is outstanding after a step was so before it, or is sent with it. -/
theorem sent_step {s s' : State τ μ} {a : Action τ μ} (hs : Stepped s a s') {g : Sent} (hg : g ∈ s'.sent) :
    g ∈ s.sent ∨ (∃ t woken, a = .signal t woken) ∧ s'.casts = s.casts ∧ s'.bumps = s.bumps + 1 ∧
      g = ⟨s.casts, s.bumps, s.sent.length < tally (uncovered s.casts) s.pc⟩ := by
  cases hs with
  | signal hpc hw hwake =>
    rcases List.mem_append.mp hg with hg | hg
    · exact .inl hg
    · exact .inr ⟨⟨_, _, rfl⟩, rfl, rfl, List.mem_singleton.mp hg⟩
  | consumed hpc hn hp => exact .inl (List.mem_of_mem_eraseIdx hg)
  | _ => exact .inl hg

theorem issued_step {s s' : State τ μ} {a : Action τ μ} (h : Issued s) (hs : Stepped s a s') :
    Issued s' := by
  refine ⟨?_, fun g hg => ?_⟩
  · cases hs with
    | signal hpc hw hwake => simp [h.count]
    | @consumed t w st pick hpc hn hp =>
      have := h.count
      simp only [State.goto, leave, List.length_eraseIdx_of_lt hp]
      omega
    | _ => exact h.count
  · have hle := (counters_step hs).1
    rcases sent_step hs hg with hg | ⟨-, hc, -, rfl⟩
    · exact (h.casts g hg).trans hle
    · exact hle

theorem reaches_issued {s : State τ μ} {ok : State τ μ → Action τ μ → Prop}
    (h : Reaches Initial step ok s) : Issued s :=
  h.invariant (fun _ h₀ => h₀ ▸ issued_start 0) fun _ _ _ _ hi _ hs => issued_step hi (step_stepped hs)

theorem dated_step {s s' : State τ μ} {a : Action τ μ} (h : Dated s) (hs : Stepped s a s') : Dated s' := by
  obtain ⟨hcasts, hbumps⟩ := counters_step hs
  refine ⟨issued_step h.issued hs, fun g hg => ?_, fun u w hw => ?_, fun g hg u w hw hle => ?_⟩
  · rcases sent_step hs hg with hg | ⟨-, -, hb, rfl⟩
    · exact lt_of_lt_of_le (h.sent g hg) hbumps
    · simp only
      omega
  · rcases wait_step hs hw with hw | ⟨-, hc, hb⟩
    · have := h.waits u w hw
      omega
    · omega
  · rcases sent_step hs hg with hg | ⟨-, hc, hb, rfl⟩ <;> rcases wait_step hs hw with hw | ⟨-, hwc, hwb⟩
    · exact h.order g hg u w hw hle
    · have := h.sent g hg
      omega
    · exact (h.waits u w hw).2
    · simp only at hle
      omega

theorem unpassed_step {s s' : State τ μ} {a : Action τ μ} (hd : Dated s) (h : Unpassed s) (ha : NoneReleased s a)
    (hs : Stepped s a s') : Unpassed s' := by
  obtain ⟨hcasts, -⟩ := counters_step hs
  intro g hg hguard u w hw
  rcases sent_step hs hg with hg | ⟨⟨t, woken, rfl⟩, hc, -, rfl⟩ <;> rcases wait_step hs hw with hw | ⟨-, hwc, -⟩
  · exact h g hg hguard u w hw
  · have := hd.issued.casts g hg
    omega
  · -- nobody released was in the loop when the signal was sent
    have hmost : s.cond.signalNum < tally (uncovered s.casts) s.pc := by
      rw [← hd.issued.count]
      simpa using hguard
    have hunc := ha hmost u (by simp [waiting, hw])
    have : w.casts = s.casts := by simpa [uncovered, hw] using hunc
    simp only
    omega
  · simp only
    omega

/-- The condition of a step, on the condition variable. -/
def Served.NoneReleased (l : Served τ μ) (a : Action τ μ) : Prop := CondVar.NoneReleased l.state a

instance (l : Served τ μ) (a : Action τ μ) : Decidable (l.NoneReleased a) :=
  inferInstanceAs (Decidable (CondVar.NoneReleased l.state a))

def Served.step (l : Served τ μ) (a : Action τ μ) : Option (Served τ μ) :=
  (CondVar.step l.state a).map fun s' => ⟨s', l.takings ++ l.taking s' a⟩

omit [DecidableEq τ] [Fintype τ] [DecidableEq μ] in
/-- What a step takes was outstanding, and who takes it was in the loop. -/
theorem mem_taking {l : Served τ μ} {s' : State τ μ} {a : Action τ μ} {x : Taking μ} (hx : x ∈ l.taking s' a) :
    x.signal ∈ l.state.sent ∧ ∃ t, waitOf (l.state.pc t) = some x.wait := by
  cases a with
  | recheck t pick =>
    simp only [Served.taking] at hx
    split at hx
    · split at hx
      · rename_i g w hg hw
        rw [List.mem_singleton.mp hx]
        exact ⟨List.mem_of_getElem? hg, t, hw⟩
      · cases hx
    · cases hx
  | _ => cases hx

/-- What the takings so far were: by whom and of which signals. -/
structure Fair (l : Served τ μ) : Prop where
  dated : Dated l.state
  unpassed : Unpassed l.state
  takings : ∀ x ∈ l.takings, (x.signal.guarded = true → x.signal.casts ≤ x.wait.casts) ∧
    (x.wait.bumps ≤ x.signal.bumps → x.wait.casts ≤ x.signal.casts)

theorem reaches_fair {l : Served τ μ} (h : Reaches Served.Initial Served.step Served.NoneReleased l) : Fair l := by
  refine h.invariant ?_ ?_
  · rintro l rfl
    exact ⟨dated_start 0, by simp [Unpassed, Served.start, State.start], by simp [Served.start]⟩
  · intro l a l' _ hi ha hs
    obtain ⟨s', hs', rfl⟩ := Option.map_eq_some_iff.mp hs
    have hstep := step_stepped hs'
    refine ⟨dated_step hi.dated hstep, unpassed_step hi.dated hi.unpassed ha hstep, fun x hx => ?_⟩
    rcases List.mem_append.mp hx with hx | hx
    · exact hi.takings x hx
    · obtain ⟨hg, t, hw⟩ := mem_taking hx
      exact ⟨fun hguard => hi.unpassed x.signal hg hguard t x.wait hw, hi.dated.order x.signal hg t x.wait hw⟩

/-- In a run where no released waiter is in the loop when a signal is counted, no decrement is ever made
by a waiter that was covered before its signal, whichever signal it is put down to. If a waiter that was
blocked when the signal was sent is left waiting, then who took the signal was blocked then as well, or
began to wait after it. -/
theorem cond_signal_not_swallowed {l : Served τ μ}
    (h : Reaches Served.Initial Served.step Served.NoneReleased l) {x : Taking μ} (hx : x ∈ l.takings) :
    ¬ x.Swallows ∧ (x.signal.guarded = true → l.LeavesWaiting x →
      x.wait.BlockedAt x.signal ∨ x.signal.bumps < x.wait.bumps) := by
  obtain ⟨hcasts, horder⟩ := (reaches_fair h).takings x hx
  refine ⟨fun ⟨hguard, hlt⟩ => absurd (hcasts hguard) (Nat.not_le.mpr hlt), fun hguard _ => ?_⟩
  rcases Nat.lt_or_ge x.signal.bumps x.wait.bumps with hlt | hle
  · exact .inr hlt
  · exact .inl ⟨hle, Nat.le_antisymm (horder hle) (hcasts hguard)⟩

/-- Two threads wait and sleep; a signal wakes one of them and then a broadcast the other, which gets to
the lock first. -/
def coveredLater (t u v : τ) : List (Action τ Unit) :=
  [.call t (.wait ()), .waitBegin t 0, .futexWait t, .call u (.wait ()), .waitBegin u 0, .futexWait u,
    .call v .signal, .signal v (some t), .call v .broadcast, .broadcast v, .recheck u 0]

theorem cond_signal_not_swallowed_later : ∃ (l : Served (Fin 3) Unit) (x : Taking Unit), x ∈ l.takings ∧
    l.LeavesWaiting x ∧ ¬ x.Swallows ∧ (x.wait.BlockedAt x.signal ∨ x.signal.bumps < x.wait.bumps) := by
  have hr := Reaches.run_get (show Served.Initial (Served.start : Served (Fin 3) Unit) from rfl)
    (show (run Served.step Served.NoneReleased (coveredLater 0 1 2) Served.start).isSome from by decide)
  obtain ⟨l, hr, x, hx, hguard, hleft⟩ : ∃ l : Served (Fin 3) Unit,
      Reaches Served.Initial Served.step Served.NoneReleased l ∧ ∃ x ∈ l.takings, x.signal.guarded = true ∧
      l.LeavesWaiting x :=
    ⟨_, hr, _, List.mem_singleton_self _, by decide, by decide, 0, _, rfl, by decide⟩
  have h := cond_signal_not_swallowed hr hx
  exact ⟨l, x, hx, hleft, h.1, h.2 hguard hleft⟩

omit [DecidableEq τ] [Fintype τ] [DecidableEq μ] in
theorem uncovered_waiting {casts : Nat} {c : Pc μ} (h : uncovered casts c = true) : waiting c = true := by
  cases hc : waitOf c <;> simp_all [uncovered, waiting]

/-- A released waiter that has come to the lock takes the signal that was sent last. -/
theorem recheck_takes {l : Served τ μ} {u : τ} {w : Wait μ} {st : Int} {old : List Sent} {g : Sent}
    (hpc : l.state.pc u = .recheck w st) (hn : l.state.cond.signalNum ≠ 0) (hsent : l.state.sent = old ++ [g]) :
    ∃ l', l.step (.recheck u old.length) = some l' ∧ ⟨g, w⟩ ∈ l'.takings := by
  have hlength : old.length < l.state.sent.length := by simp [hsent]
  have hget : l.state.sent[old.length]? = some g := by simp [hsent]
  have hlt : l.state.cond.signalNum - 1 < l.state.cond.signalNum := by omega
  have hstep : (step l.state (.recheck u old.length)).isSome := by
    simp [step, hpc, stepRecheck, recheck, hn, hlength]
  refine ⟨_, Option.map_eq_some_iff.mpr ⟨_, (Option.some_get hstep).symm, rfl⟩, List.mem_append_right _ ?_⟩
  have hnum : ((step l.state (.recheck u old.length)).get hstep).cond.signalNum = l.state.cond.signalNum - 1 := by
    simp [step, hpc, stepRecheck, recheck, hn, hlength, State.goto, leave]
  simp [Served.taking, hnum, hlt, hget, hpc, waitOf]

omit [DecidableEq τ] [DecidableEq μ] in
/-- Who was released does not sleep. -/
theorem released_awake {s : State τ μ} (h : Counted s) {u : τ} {w : Wait μ} (hw : waitOf (s.pc u) = some w)
    (hlt : w.casts < s.casts) : asleep (s.pc u) = false := by
  by_contra hsl
  cases hp : s.pc u <;> simp [hp, asleep] at hsl
  rw [hp] at hw
  cases hw
  exact absurd ((h.placed u).sleep w hp) (by omega)

/-- A signal that finds the uncovered waiters in the majority is counted, and leaves who is awake in the
loop where it is. -/
theorem signal_counted {s s' : State τ μ} (h : Counted s) (hi : Issued s) {t u : τ} {woken : Option τ}
    (hmost : s.cond.signalNum < tally (uncovered s.casts) s.pc) (hu : waiting (s.pc u) = true)
    (hawake : asleep (s.pc u) = false) (hs : Stepped s (.signal t woken) s') :
    s'.pc u = s.pc u ∧ s'.cond.signalNum ≠ 0 ∧ s'.cond.futex = s.cond.futex + 1 ∧
      s'.sent = s.sent ++ [⟨s.casts, s.bumps, true⟩] := by
  cases hs with
  | signalIdle hpc hn =>
    have hwait := h.waiters
    have := tally_le_tally (p := uncovered s.casts) (q := waiting) (f := s.pc) (g := s.pc)
      fun _ hv => uncovered_waiting hv
    omega
  | @signal t woken pc hpc hn hwake =>
    have hut : u ≠ t := by
      rintro rfl
      simp [hpc, waiting, waitOf] at hu
    have he := (wakeOne_woken hwake).of_not_asleep (u := u) (by simpa [State.goto, hut] using hawake)
    refine ⟨by simpa [State.goto, hut] using he, Nat.succ_ne_zero _, rfl, ?_⟩
    simp [hi.count, hmost]

/-- The condition of the signals is exact: one that is counted while a released waiter is in the loop can
be swallowed by that waiter, in at most two steps of it. -/
theorem signal_swallowable {l l' : Served τ μ} (hc : Counted l.state) (hi : Issued l.state) {t : τ} {woken : Option τ}
    (hfew : l.state.bumps + 1 < 2 ^ 32) (ha : ¬ l.NoneReleased (.signal t woken))
    (hs : l.step (.signal t woken) = some l') :
    ∃ l'', Reaches (· = l') Served.step anyStep l'' ∧ ∃ x ∈ l''.takings, x.Swallows := by
  obtain ⟨hmost, hreleased⟩ := Classical.not_imp.mp ha
  obtain ⟨u, hu⟩ := not_forall.mp hreleased
  obtain ⟨hu, hcov⟩ := Classical.not_imp.mp hu
  obtain ⟨s', hs', rfl⟩ := Option.map_eq_some_iff.mp hs
  obtain ⟨w, hw⟩ := Option.isSome_iff_exists.mp hu
  obtain ⟨hsample, hle, hcasts, hold⟩ := (hc.placed u).sample w hw
  have hlt : w.casts < l.state.casts := lt_of_le_of_ne hcasts (by simpa [uncovered, hw] using hcov)
  have hawake := released_awake hc hw hlt
  obtain ⟨hpcu, hnum, hfutex, hsent⟩ := signal_counted hc hi hmost hu hawake (step_stepped hs')
  generalize l.takings ++ l.taking s' (.signal t woken) = taken
  have hnext : Reaches (· = (⟨s', taken⟩ : Served τ μ)) Served.step anyStep ⟨s', taken⟩ := .start rfl
  cases hp : l.state.pc u <;> rw [hp] at hw hawake hpcu <;> cases hw
  · -- the increment of the word has made its sample stale
    have hne : s'.cond.futex ≠ w.sample.futex := by
      rw [hfutex, word_bump hc.word, hsample]
      intro he
      have := sample_current (Nat.le_succ_of_le hle) (by omega) he
      omega
    have hwait : Served.step ⟨s', taken⟩ (.futexWait u) =
        some ⟨s'.goto u (.recheck w (-EWOULDBLOCK)), taken ++ []⟩ := by
      simp only [Served.step, step, hpcu, hne, if_false, Option.map_some]
      rfl
    obtain ⟨l'', hs'', hx⟩ := recheck_takes (l := ⟨s'.goto u (.recheck w (-EWOULDBLOCK)), taken ++ []⟩)
      (Function.update_self u _ s'.pc) hnum hsent
    exact ⟨l'', .next (.next hnext trivial hwait) trivial hs'', _, hx, rfl, hlt⟩
  · cases hawake
  · obtain ⟨l'', hs'', hx⟩ := recheck_takes (l := ⟨s', taken⟩) hpcu hnum hsent
    exact ⟨l'', .next hnext trivial hs'', _, hx, rfl, hlt⟩

/-- Thread `t` waits and is released by a broadcast; thread `u` begins to wait and sleeps; a signal
wakes it; thread `t` gets to the lock first. -/
def overtaken (t u v : τ) : List (Action τ Unit) :=
  [.call t (.wait ()), .waitBegin t 0, .futexWait t, .call v .broadcast, .broadcast v,
    .call u (.wait ()), .waitBegin u 0, .futexWait u, .call v .signal, .signal v (some u), .recheck t 0]

/-- The released thread takes the signal and leaves the blocked one waiting, with none outstanding. -/
theorem cond_signal_swallowed : ∃ l : Served (Fin 3) Unit, Reaches Served.Initial Served.step anyStep l ∧
    ∃ x ∈ l.takings, x.Swallows ∧ l.LeavesWaiting x := by
  have hr := Reaches.run_get (show Served.Initial (Served.start : Served (Fin 3) Unit) from rfl)
    (show (run Served.step anyStep (overtaken 0 1 2) Served.start).isSome from by decide)
  exact ⟨_, hr, _, List.mem_singleton_self _, ⟨by decide, by decide⟩, by decide, 1, _, rfl, by decide⟩

end ThreadBites.CondVar

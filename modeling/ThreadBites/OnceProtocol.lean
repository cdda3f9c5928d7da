import ThreadBites.OnceBalance

/-!
# The once protocol

What any number of calls with a balanced `func` keep, and that `func` completes
once where cancellation is deferred.
-/
namespace ThreadBites.Once

open Transition Cancel

variable {τ : Type}

/-- The word is in progress only with somebody to change it. -/
structure Kept (s : State τ) : Prop where
  inv : Inv s
  tidy : ∀ t, Tidy (s.thread t)
  held : s.word = .inProgress → ∃ t, (s.thread t).owner

theorem kept_start (status : τ → BitVec 8) : Kept (State.start τ status) where
  inv := inv_start status
  tidy := fun t => tidy_start (status t)
  held := fun h => by cases h

/-- An execution of `func` that has completed has its call store `TB_ONCE_DONE`. -/
def CompletesOnce (s : State τ) : Prop :=
  s.completions = 0 ∨ s.completions = 1 ∧ (s.stored = true ∨ ∃ t, (s.thread t).pc.finished = true)

/-- Cancellation does not act from the handler of `SIGCANCEL`. -/
def Deferred (s : State τ) : Prop :=
  ∀ t, has .enabled (s.thread t).status = true → has .deferred (s.thread t).status = true

variable [DecidableEq τ]

/-- `func` pops the handlers that it pushes, said of the thread that takes the step. -/
def Balanced (s : State τ) (a : Action τ) : Prop := (s.thread a.thread).Balanced a.act

theorem tidy_after {s : State τ} {t : τ} {th : Thread} {ev : Event} (h : ∀ u, Tidy (s.thread u)) (hth : Tidy th)
    (u : τ) : Tidy ((s.after t th ev).thread u) := by
  obtain ⟨x, hx, he⟩ := after_thread s t th ev u
  have htidy : Tidy x := by
    rcases hx with ⟨-, rfl⟩ | ⟨-, rfl⟩
    · exact hth
    · exact h u
  rcases he with ⟨-, he⟩ | ⟨-, he⟩
  · rwa [he]
  · rw [he]
    exact htidy.woken

theorem owner_after {s : State τ} {t u : τ} {th : Thread} {ev : Event} (hth : u = t → th.owner)
    (hu : u ≠ t → (s.thread u).owner) : ((s.after t th ev).thread u).owner := by
  have hplace : (((s.after t th ev).thread u).pc.owns || decide (0 < ((s.after t th ev).thread u).pc.pending)) = true := by
    refine place_after (f := fun p => p.owns || decide (0 < p.pending)) rfl (fun hut => ?_) fun hut => ?_
    · simpa [Thread.owner] using hth hut
    · simpa [Thread.owner] using hu hut
  simpa [Thread.owner] using hplace

theorem cuts_after (s : State τ) (t : τ) (th : Thread) (ev : Event) : ((s.after t th ev).thread t).cuts = th.cuts := by
  obtain ⟨x, ⟨-, rfl⟩ | ⟨hne, -⟩, ⟨-, he⟩ | ⟨-, he⟩⟩ := after_thread s t th ev t
  · rw [he]
  · rw [he, woken_cuts]
  · exact absurd rfl hne
  · exact absurd rfl hne

theorem Kept.step {s u : State τ} {a : Action τ} (h : Kept s) (hb : Balanced s a) (hs : step s a = some u) : Kept u := by
  have hsound := h.inv.sound a.thread
  have htidy := h.tidy a.thread
  obtain ⟨th, ev, hstep, rfl⟩ := step_eq hs
  refine ⟨h.inv.step (htidy.clean hsound hb hstep) hs, tidy_after h.tidy (htidy.step hsound hb hstep), fun hword => ?_⟩
  have hstays : s.word = .inProgress → ev ≠ .done → ev ≠ .reset → ∃ t, ((s.after a.thread th ev).thread t).owner := by
    intro hbefore hdone hreset
    obtain ⟨t, ht⟩ := h.held hbefore
    refine ⟨t, owner_after ?_ fun _ => ht⟩
    rintro rfl
    exact htidy.owner hsound hb hstep ht hdone hreset
  cases ev with
  | claim => exact ⟨a.thread, owner_after (fun _ => .inl ((step_goes hstep).owns_of_claim rfl)) fun hne => absurd rfl hne⟩
  | done => cases hword
  | reset => cases hword
  | _ => exact hstays hword (by simp) (by simp)

theorem reaches_kept {s : State τ} (h : Reaches Initial step Balanced s) : Kept s :=
  h.invariant (I := Kept) (fun _ ⟨status, _, h₀⟩ => h₀ ▸ kept_start status) fun _ _ _ _ hi hb hs => hi.step hb hs

/-- An execution of `func` that has completed is not lost where cancellation is deferred. -/
theorem finished_step {word : Word} {th th' : Thread} {ev : Event} {a : Act}
    (hd : has .enabled th.status = true → has .deferred th.status = true) (hf : th.pc.finished = true)
    (hs : th.step word a = some (th', ev)) : th'.pc.finished = true ∨ ev = .done := by
  have hsignal : th.signal = th := by
    have hno : ¬ (has .deferred th.status = false ∧ acts th.status = true) := by
      rintro ⟨hoff, hacts⟩
      rw [hd (acts_iff.mp hacts).1] at hoff
      cases hoff
    rw [Thread.signal, if_neg hno, woken_of_place rfl hf]
  unfold Thread.step at hs
  split at hs
  · cases hpc : th.pc with
    | returned => simp only [Thread.next, hpc] at hs; cases hs; exact .inl rfl
    | pop => simp only [Thread.next, hpc] at hs; cases hs; exact .inl rfl
    | store => simp only [Thread.next, hpc] at hs; cases hs; exact .inr rfl
    | _ => rw [hpc] at hf; cases hf
  · cases hs
    exact .inl hf
  · obtain ⟨-, he⟩ := Option.ite_none_left_eq_some.mp hs
    cases he
    exact .inl (by rwa [hsignal])
  · obtain ⟨hpc, -⟩ := Option.ite_none_right_eq_some.mp hs
    rw [hpc] at hf
    cases hf
  · split at hs
    · rename_i c hpc
      rw [hpc] at hf
      cases hf
    · cases hs

theorem CompletesOnce.step {s u : State τ} {a : Action τ} (h : CompletesOnce s) (hi : Inv s) (hd : Deferred s)
    (hs : step s a = some u) : CompletesOnce u := by
  obtain ⟨th, ev, hstep, rfl⟩ := step_eq hs
  have hgoes := step_goes hstep
  by_cases hev : ev = .complete
  · subst hev
    obtain ⟨ho, hbefore, hafter⟩ := hgoes.finished_of_complete rfl
    have hnone : s.completions = 0 := by
      refine h.resolve_right ?_
      rintro ⟨-, hstored | ⟨t, ht⟩⟩
      · rw [hi.owner_not_stored (.inl ho)] at hstored
        cases hstored
      · obtain rfl := hi.one t a.thread (.inl (Pc.owns_of_finished ht)) (.inl ho)
        rw [ht] at hbefore
        cases hbefore
    refine .inr ⟨by simp [State.after, State.happens, hnone], .inr ⟨a.thread, ?_⟩⟩
    exact place_after rfl (fun _ => hafter) fun hne => absurd rfl hne
  · have hsame : (s.after a.thread th ev).completions = s.completions := by
      cases ev <;> first | rfl | exact absurd rfl hev
    have hstored : s.stored = true → (s.after a.thread th ev).stored = true := by
      cases ev <;> simp [State.after, State.happens]
    rw [CompletesOnce, hsame]
    rcases h with hzero | ⟨hone, hst | ⟨t, ht⟩⟩
    · exact .inl hzero
    · exact .inr ⟨hone, .inl (hstored hst)⟩
    · refine .inr ⟨hone, ?_⟩
      by_cases hdone : ev = .done
      · subst hdone
        exact .inl rfl
      · refine .inr ⟨t, place_after rfl ?_ fun _ => ht⟩
        rintro rfl
        exact (finished_step (hd _) ht hstep).resolve_right hdone

/-- The protocol, said of a state: an execution of `func` is alone with the word in progress; a return of 0 comes after
one that has completed, and none starts after it; a thread that is cancelled as the executor calls `once_cleanup` before
it has ended, and then holds the word that goes back to new; and a wait on another value is about to be ended. -/
structure Protocol (s : State τ) : Prop where
  exclusive : ∀ t u, (s.thread t).pc.runs = true → (s.thread u).pc.runs = true → t = u
  inProgress : ∀ t, (s.thread t).pc.runs = true → s.word = .inProgress
  completed : 0 < s.returns → 0 < s.completions
  noneStarts : 0 < s.returns → ∀ a u, step s a = some u → u.starts = s.starts
  held : s.word = .inProgress → ∃ t, (s.thread t).owner
  cancelled : ∀ a u, Balanced s a → step s a = some u → (s.thread a.thread).pc.owns = true →
    (u.thread a.thread).pc.ending = true → (u.thread a.thread).cuts = 1
  resets : ∀ t, (s.thread t).resets ≤ (s.thread t).cuts ∧ (s.thread t).cuts ≤ 1
  ended : ∀ t, (s.thread t).pc = .ended → (s.thread t).resets = (s.thread t).cuts
  resetting : ∀ t c, (s.thread t).pc = .reset c →
    s.word = .inProgress ∧ (s.thread t).cuts = 1 ∧ ∀ u, (s.thread u).owner → u = t
  fresh : ∀ a u, step s a = some u → s.word ≠ .new → u.word = .new → ∃ c, (s.thread a.thread).pc = .reset c
  woken : ∀ t, (s.thread t).pc = .asleep → s.word ≠ .inProgress → ∃ u, (s.thread u).pc.wakes = true

theorem Pc.owns_of_runs {p : Pc} (h : p.runs = true) : p.owns = true := by
  cases p <;> first | exact h | cases h

theorem Kept.protocol {s : State τ} (h : Kept s) : Protocol s where
  exclusive := fun t u ht hu => h.inv.one t u (.inl (Pc.owns_of_runs ht)) (.inl (Pc.owns_of_runs hu))
  inProgress := fun t ht => h.inv.word t (.inl (Pc.owns_of_runs ht))
  completed := fun hr => h.inv.completed (h.inv.returns hr)
  noneStarts := fun hr => (h.inv.staysDone (h.inv.returns hr)).2
  held := h.held
  cancelled := by
    intro a u hb hs ho he
    obtain ⟨th, ev, hstep, rfl⟩ := step_eq hs
    obtain ⟨-, hending⟩ | ⟨hne, -⟩ := place_before (f := Pc.ending) rfl he
    · rw [cuts_after]
      exact (h.tidy a.thread).cuts_of_owns (h.inv.sound a.thread) hb ho hstep hending
    · exact absurd rfl hne
  resets := fun t => by
    have haccount := (h.inv.sound t).account
    exact ⟨by omega, (h.inv.sound t).cut⟩
  ended := fun t ht => by
    have haccount := (h.inv.sound t).account
    rw [ht] at haccount
    exact haccount
  resetting := by
    intro t c ht
    have howner : (s.thread t).owner := .inr (by rw [ht]; exact Nat.succ_pos _)
    have haccount := (h.inv.sound t).account
    have hcut := (h.inv.sound t).cut
    rw [ht] at haccount
    simp only [Pc.pending] at haccount
    exact ⟨h.inv.word t howner, by omega, fun u hu => h.inv.one u t hu howner⟩
  fresh := by
    intro a u hs hne hnew
    obtain ⟨th, ev, hstep, rfl⟩ := step_eq hs
    cases ev with
    | reset => exact (step_goes hstep).resets rfl
    | claim => cases hnew
    | done => cases hnew
    | _ => exact absurd hnew hne
  woken := h.inv.asleep

theorem completesOnce {s : State τ} (h : Reaches Initial step (fun s a => Balanced s a ∧ Deferred s) s) :
    CompletesOnce s := by
  have hkept : Kept s ∧ CompletesOnce s := by
    refine h.invariant (I := fun s => Kept s ∧ CompletesOnce s) ?_ ?_
    · rintro _ ⟨status, -, rfl⟩
      exact ⟨kept_start status, .inl rfl⟩
    · rintro s a u - ⟨hi, hc⟩ ⟨hb, hd⟩ hs
      exact ⟨hi.step hb hs, hc.step hi.inv hd hs⟩
  exact hkept.2

/-- The once protocol holds in every interleaving of calls whose `func` pops what it pushes. -/
theorem once_protocol {s : State τ} (h : Reaches Initial step Balanced s) :
    Protocol s ∧ (Reaches Initial step (fun s a => Balanced s a ∧ Deferred s) s → s.completions ≤ 1) := by
  refine ⟨(reaches_kept h).protocol, fun hd => ?_⟩
  rcases completesOnce hd with hzero | ⟨hone, -⟩
  · omega
  · omega

instance (s : State τ) (a : Action τ) : Decidable (Balanced s a) :=
  inferInstanceAs (Decidable ((s.thread a.thread).Balanced a.act))

instance [Fintype τ] (s : State τ) : Decidable (Deferred s) :=
  inferInstanceAs (Decidable (∀ t, has .enabled (s.thread t).status = true → has .deferred (s.thread t).status = true))

/-- The first thread is cancelled in `func` while the second one waits for it, and then tries in its place. -/
def retriedRun (t u : τ) : List (Action τ) :=
  entered t ++ [⟨t, .push⟩, ⟨t, .request⟩, ⟨t, .testcancel⟩, ⟨t, .next⟩] ++ ⟨u, .once⟩ :: List.replicate 6 ⟨u, .next⟩ ++
    List.replicate 6 ⟨t, .next⟩ ++ List.replicate 8 ⟨u, .next⟩ ++ left u

theorem once_protocol_retried : ∃ s : State Bool, Reaches Initial step Balanced s ∧ (s.thread false).resets = 1 ∧
    s.starts = 2 ∧ s.returns = 1 ∧ Protocol s ∧ s.completions ≤ 1 := by
  obtain ⟨s, hr, hresets, hstarts, hreturns⟩ : ∃ s : State Bool,
      Reaches Initial step (fun s a => Balanced s a ∧ Deferred s) s ∧ (s.thread false).resets = 1 ∧ s.starts = 2 ∧
        s.returns = 1 :=
    ⟨_, Reaches.run_get ⟨_, fun _ => .inl rfl, rfl⟩ (show (run step (fun s a => Balanced s a ∧ Deferred s)
      (retriedRun false true) (State.start Bool fun _ => createdStatus)).isSome from by decide), by decide, by decide,
      by decide⟩
  have hb : Reaches Initial step Balanced s := hr.weaken fun _ _ hok => hok.1
  have hprotocol := once_protocol hb
  exact ⟨s, hb, hresets, hstarts, hreturns, hprotocol.1, hprotocol.2 hr⟩

end ThreadBites.Once

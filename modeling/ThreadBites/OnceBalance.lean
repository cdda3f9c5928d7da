import ThreadBites.OnceRuns

/-!
# A balanced func

A `func` that pops the handlers that it pushes leaves `once_cleanup` in front of
the list when it returns, so the call takes off what it put there. A thread that
ends with `once_cleanup` in its list was cancelled, and is not cancelled again.
-/
namespace ThreadBites.Once

open Transition Cancel

/-- `func` pops what it pushes, and returns or is cut short by `tbthread_testcancel`. -/
def Thread.Balanced (th : Thread) (a : Act) : Prop :=
  th.pc = .code .func →
    match a with
    | .pop _ => th.stack.head? ≠ some .once
    | .ret => th.stack.head? = some .once
    | .exit => False
    | _ => True

instance (th : Thread) : ∀ a, Decidable (th.Balanced a)
  | .pop _ => inferInstanceAs (Decidable (th.pc = .code .func → th.stack.head? ≠ some .once))
  | .ret => inferInstanceAs (Decidable (th.pc = .code .func → th.stack.head? = some .once))
  | .exit => inferInstanceAs (Decidable (th.pc = .code .func → False))
  | .once => inferInstanceAs (Decidable (_ → True))
  | .push => inferInstanceAs (Decidable (_ → True))
  | .setcancelstate _ => inferInstanceAs (Decidable (_ → True))
  | .setcanceltype _ => inferInstanceAs (Decidable (_ → True))
  | .testcancel => inferInstanceAs (Decidable (_ → True))
  | .next => inferInstanceAs (Decidable (_ → True))
  | .request => inferInstanceAs (Decidable (_ → True))
  | .signal => inferInstanceAs (Decidable (_ → True))
  | .interrupt => inferInstanceAs (Decidable (_ → True))

/-- `once_cleanup` is in the list. -/
def Pc.linked : Pc → Bool
  | .restore .call => true
  | .testCont .call => true
  | .cont .call => true
  | .code .func => true
  | .testCode .func => true
  | _ => false

/-- It is what the call is about to pop. -/
def Pc.top : Pc → Bool
  | .returned => true
  | .pop => true
  | _ => false

structure Tidy (th : Thread) : Prop where
  linked : th.pc.linked = true → th.stack.count .once = 1
  top : th.pc.top = true → th.stack.head? = some .once
  store : th.pc = .store → th.stack.count .once = 0
  canceled : th.pc.ending = true → 0 < th.stack.count .once → has .canceled th.status = true

theorem tidy_start (status : BitVec 8) : Tidy (Thread.start status) where
  linked := fun h => by cases h
  top := fun h => by cases h
  store := fun h => by cases h
  canceled := fun h => by cases h

/-- A step to `q` needs no more of the list than one at `p` has. -/
def Pc.keeps (p q : Pc) : Bool :=
  (!q.linked || p.linked) && (!q.top || p.top) && !(q = .store) && (!q.ending || p.ending)

theorem Tidy.follow {th : Thread} {p q : Pc} (h : Tidy th) (hpc : th.pc = p) (status : BitVec 8) (saved : Bool)
    (hkeeps : p.keeps q = true) (hx : has .canceled th.status = true → has .canceled status = true) :
    Tidy ({ th with status := status, saved := saved }.goto q) := by
  simp only [Pc.keeps, Bool.and_eq_true, Bool.or_eq_true, Bool.not_eq_true', decide_eq_false_iff_not] at hkeeps
  obtain ⟨⟨⟨hlinked, htop⟩, hstore⟩, hending⟩ := hkeeps
  subst hpc
  have hno : ∀ {b : Bool}, b = true → b ≠ false := by simp
  exact ⟨fun hq => h.linked (hlinked.resolve_left (hno hq)), fun hq => h.top (htop.resolve_left (hno hq)),
    fun hq => absurd hq hstore, fun hq hpos => hx (h.canceled (hending.resolve_left (hno hq)) hpos)⟩

/-- A thread that is cancelled. -/
theorem tidy_exit {th : Thread} (hx : 0 < th.stack.count .once → has .canceled th.status = true) : Tidy th.exit where
  linked := fun h => by cases h
  top := fun h => by cases h
  store := fun h => by cases h
  canceled := fun _ hpos => hx hpos

theorem Tidy.test {th : Thread} {p q : Pc} (h : Tidy th) (hpc : th.pc = p) (hkeeps : p.keeps q = true) :
    Tidy (th.test q) := by
  unfold Thread.test
  split
  · exact tidy_exit fun _ => by simp
  · exact h.follow hpc th.status th.saved hkeeps id

theorem tidy_clear {th : Thread} {q : Pc} (hlinked : q.linked = false) (htop : q.top = false) :
    Tidy ({ th with stack := [] }.goto q) where
  linked := fun h => by rw [show q.linked = true from h] at hlinked; cases hlinked
  top := fun h => by rw [show q.top = true from h] at htop; cases htop
  store := fun _ => rfl
  canceled := fun _ hpos => absurd hpos (Nat.lt_irrefl 0)

theorem Tidy.next {word : Word} {th th' : Thread} {ev : Event} (h : Tidy th) (hsound : Sound th)
    (hs : th.next word = some (th', ev)) : Tidy th' := by
  have hput : ∀ value, has .canceled th.status = true → has .canceled (put .enabled value th.status) = true := by simp
  unfold Thread.next at hs
  split at hs
  · rename_i rest hpc; cases hs; exact h.follow hpc th.status th.saved rfl id
  · cases hs
  · rename_i c hpc; cases hs; exact h.test hpc (by cases c <;> rfl)
  · rename_i hpc
    split at hs <;> cases hs
    · exact h.follow hpc th.status th.saved rfl id
    · exact h.follow hpc th.status th.saved rfl id
  · rename_i hpc; cases hs; exact h.follow hpc _ _ rfl (hput false)
  · rename_i hpc
    split at hs <;> cases hs
    · exact h.follow hpc th.status th.saved rfl id
    · exact h.follow hpc th.status th.saved rfl id
  · rename_i hpc
    cases hs
    have hcount : (Entry.once :: th.stack).count .once = 1 := by simp [hsound.push hpc]
    refine ⟨fun _ => hcount, ?_, ?_, ?_⟩
    · intro hq; cases hq
    · intro hq; cases hq
    · intro hq; cases hq
  · rename_i k hpc
    cases hs
    split
    · exact h.follow hpc _ th.saved (by cases k <;> rfl) (hput _)
    · exact h.follow hpc _ th.saved (by cases k <;> rfl) (hput _)
  · rename_i k hpc; cases hs; exact h.test hpc (by cases k <;> rfl)
  · rename_i hpc; cases hs; exact h.follow hpc th.status th.saved rfl id
  · rename_i hpc
    cases hs
    split
    · exact h.follow hpc th.status th.saved rfl id
    · exact h.follow hpc th.status th.saved rfl id
  · rename_i hpc; cases hs; exact h.follow hpc th.status th.saved rfl id
  · rename_i hpc; cases hs; exact h.follow hpc _ _ rfl (hput false)
  · rename_i hpc
    cases hs
    have htop := h.top (by rw [hpc]; rfl)
    refine ⟨?_, ?_, fun _ => ?_, ?_⟩
    · intro hq; cases hq
    · intro hq; cases hq
    · have hfew := hsound.few
      obtain ⟨rest, hstack⟩ := List.head?_eq_some_iff.mp htop
      rw [hstack, List.count_cons_self] at hfew
      simp only [Thread.goto, hstack, List.tail_cons]
      omega
    · intro hq; cases hq
  · rename_i hpc; cases hs; exact h.follow hpc th.status th.saved rfl id
  · rename_i hpc; cases hs; exact h.follow hpc th.status th.saved rfl id
  · cases hs
  · rename_i hpc
    cases hs
    split
    · exact h.follow hpc th.status th.saved rfl id
    · exact h.follow hpc th.status th.saved rfl id
  · rename_i c hpc
    cases hs
    have hkeeps : (Pc.reset c).keeps (.wakeReset c) = true := by simp [Pc.keeps, Pc.linked, Pc.top, Pc.ending]
    have hfollow := h.follow hpc th.status th.saved hkeeps id
    exact ⟨hfollow.linked, hfollow.top, hfollow.store, hfollow.canceled⟩
  · rename_i c hpc
    cases hs
    obtain ⟨hending, -, -⟩ := hsound.reset c (.inr hpc)
    have hkeeps : (Pc.wakeReset c).keeps c.pc = true := by
      cases c with
      | exit rest => rfl
      | pop c => cases c <;> first | rfl | cases hending
    exact h.follow hpc th.status th.saved hkeeps id
  · rename_i hpc; cases hs; exact h.follow hpc _ th.saved rfl (hput false)
  · cases hs; exact tidy_clear rfl rfl
  · rename_i rest hpc; cases hs; exact h.follow hpc th.status th.saved rfl id
  · rename_i rest hpc; cases hs; exact h.follow hpc th.status th.saved rfl id
  · cases hs; exact tidy_clear rfl rfl
  · cases hs

/-- Code of the program changes the list in front of `once_cleanup`. -/
theorem Tidy.stack {th : Thread} {c : Code} {stack : List Entry} (h : Tidy th) (hpc : th.pc = .code c)
    (hne : c.ending = false) (hcount : stack.count .once = th.stack.count .once) : Tidy { th with stack := stack } where
  linked := fun hq => hcount.trans (h.linked hq)
  top := fun hq => by
    simp only [hpc] at hq
    cases hq
  store := fun hq => hcount.trans (h.store hq)
  canceled := fun hq => by
    simp only [hpc] at hq
    rw [show c.ending = true from hq] at hne
    cases hne

theorem Tidy.calls {th th' : Thread} {ev : Event} {c : Code} {a : Act} (h : Tidy th) (hsound : Sound th)
    (hb : th.Balanced a) (hpc : th.pc = .code c) (hs : th.calls c a = some (th', ev)) : Tidy th' := by
  cases a with
  | once =>
    obtain ⟨rfl, he⟩ := Option.ite_none_right_eq_some.mp hs
    cases he
    exact h.follow hpc th.status th.saved rfl id
  | push =>
    obtain ⟨hne, he⟩ := Option.ite_none_left_eq_some.mp hs
    cases he
    exact h.stack hpc (by simpa using hne) (by simp)
  | pop execute =>
    obtain ⟨hne, he⟩ := Option.ite_none_left_eq_some.mp hs
    cases he
    have hne : c.ending = false := by simpa using hne
    unfold Thread.pop
    split
    · exact h
    · rename_i rest hstack
      cases c with
      | user =>
        have hnone := hsound.unlisted (by rw [hpc]; rfl) (by rw [hpc]; rfl)
        simp [hstack] at hnone
      | func => exact absurd (by rw [hstack]; rfl) (hb hpc)
      | handler rest => cases hne
    · rename_i rest hstack
      exact h.stack hpc hne (by simp [hstack])
  | setcancelstate enable =>
    cases hs
    cases enable with
    | true => exact h.follow hpc _ th.saved (by cases c <;> rfl) (by simp)
    | false => exact h.follow hpc _ th.saved (by cases c <;> rfl) (by simp)
  | setcanceltype deferred =>
    cases hs
    exact h.follow hpc _ th.saved (by cases c <;> rfl) (by simp)
  | testcancel =>
    cases hs
    exact h.follow hpc th.status th.saved (by cases c <;> rfl) id
  | exit =>
    obtain ⟨hne, he⟩ := Option.ite_none_left_eq_some.mp hs
    cases he
    cases c with
    | user =>
      have hnone := hsound.unlisted (by rw [hpc]; rfl) (by rw [hpc]; rfl)
      exact tidy_exit fun hpos => by omega
    | func => exact (hb hpc).elim
    | handler rest => exact absurd rfl hne
  | ret =>
    cases c with
    | user =>
      cases hs
      exact h.follow hpc th.status th.saved rfl id
    | func =>
      cases hs
      refine ⟨?_, fun _ => hb hpc, ?_, ?_⟩
      · intro hq; cases hq
      · intro hq; cases hq
      · intro hq; cases hq
    | handler rest => cases hs
  | next => cases hs
  | request => cases hs
  | signal => cases hs
  | interrupt => cases hs

theorem Tidy.woken {th : Thread} (h : Tidy th) : Tidy th.woken := by
  unfold Thread.woken
  split
  · rename_i hpc
    exact h.follow hpc th.status th.saved rfl id
  · exact h

theorem Tidy.step {word : Word} {th th' : Thread} {ev : Event} {a : Act} (h : Tidy th) (hsound : Sound th)
    (hb : th.Balanced a) (hs : th.step word a = some (th', ev)) : Tidy th' := by
  unfold Thread.step at hs
  split at hs
  · exact h.next hsound hs
  · cases hs
    exact ⟨h.linked, h.top, h.store, fun hq hpos => by simpa using h.canceled hq hpos⟩
  · obtain ⟨-, he⟩ := Option.ite_none_left_eq_some.mp hs
    cases he
    unfold Thread.signal
    split
    · exact tidy_exit fun _ => by simp
    · exact h.woken
  · obtain ⟨hpc, he⟩ := Option.ite_none_right_eq_some.mp hs
    cases he
    exact h.follow hpc th.status th.saved rfl id
  · split at hs
    · rename_i c hpc
      exact h.calls hsound hb hpc hs
    · cases hs

theorem acts_of_cutBy {th : Thread} {a : Act} (h : th.cutBy a = true) : acts th.status = true := by
  cases a with
  | next =>
    cases hpc : th.pc with
    | testCode c => simpa [Thread.cutBy, hpc] using h
    | testCont k => simpa [Thread.cutBy, hpc] using h
    | _ => simp [Thread.cutBy, hpc] at h
  | signal =>
    simp only [Thread.cutBy, Bool.and_eq_true] at h
    exact h.2
  | _ => cases h

/-- A balanced `func` keeps the word in order. -/
theorem Tidy.clean {word : Word} {th th' : Thread} {ev : Event} {a : Act} (h : Tidy th) (hsound : Sound th)
    (hb : th.Balanced a) (hs : th.step word a = some (th', ev)) : th.Clean a := by
  refine ⟨fun hcut hending => ?_, ?_⟩
  · -- a thread with `once_cleanup` in the list ends because it is cancelled
    obtain ⟨-, -, hnew⟩ := acts_iff.mp (acts_of_cutBy hcut)
    have hnone : ¬ 0 < th.stack.count .once := fun hpos => by
      rw [h.canceled hending hpos] at hnew
      cases hnew
    have hlisted := hsound.listed
    omega
  · cases a with
    | pop execute =>
      cases execute with
      | true =>
        intro hne htop
        cases hpc : th.pc with
        | code c =>
          cases c with
          | user =>
            have hnone := hsound.unlisted (by rw [hpc]; rfl) hne
            obtain ⟨rest, hstack⟩ := List.head?_eq_some_iff.mp htop
            simp [hstack] at hnone
          | func => exact hb hpc htop
          | handler rest =>
            rw [hpc] at hne
            cases hne
        | _ => simp [Thread.step, hpc] at hs
      | false => trivial
    | next => exact fun hpc => List.count_eq_zero.mp (h.store hpc)
    | _ => trivial

/-- Where cancellation can strike the executor, `once_cleanup` is in its list. -/
theorem Tidy.listed_of_owns {th : Thread} (h : Tidy th) (hsound : Sound th) (ho : th.pc.owns = true)
    (hon : th.pc.held = false) : th.stack.count .once = 1 := by
  have hfew := hsound.few
  have htop : th.pc.top = true → th.stack.count .once = 1 := fun hq => by
    obtain ⟨rest, hstack⟩ := List.head?_eq_some_iff.mp (h.top hq)
    rw [hstack, List.count_cons_self] at hfew ⊢
    omega
  cases hpc : th.pc with
  | code c => cases c <;> first | exact h.linked (by rw [hpc]; rfl) | simp [hpc, Pc.owns, Code.owns] at ho
  | testCode c => cases c <;> first | exact h.linked (by rw [hpc]; rfl) | simp [hpc, Pc.owns, Code.owns] at ho
  | testCont k => cases k <;> first | exact h.linked (by rw [hpc]; rfl) | simp [hpc, Pc.owns, Cont.owns] at ho
  | cont k => cases k <;> first | exact h.linked (by rw [hpc]; rfl) | simp [hpc, Pc.owns, Cont.owns] at ho
  | returned => exact htop (by rw [hpc]; rfl)
  | reset c => exact (hsound.reset c (.inl hpc)).2.1
  | wakeReset c => exact (hsound.reset c (.inr hpc)).2.1
  | _ => simp [hpc, Pc.owns, Pc.held] at ho hon

theorem Caller.ending_of_owns {c : Caller} (h : c.owns = true) : c.ending = false := by
  cases hc : c.ending with
  | true =>
    rw [Caller.owns_of_ending hc] at h
    cases h
  | false => rfl

theorem Pc.ending_of_owns {p : Pc} (h : p.owns = true) : p.ending = false := by
  cases p with
  | code c => cases c <;> first | rfl | cases h
  | testCode c => cases c <;> first | rfl | cases h
  | reset c => exact Caller.ending_of_owns h
  | wakeReset c => exact Caller.ending_of_owns h
  | _ => first | rfl | cases h

/-- The thread enters `tbthread_exit` because it is cancelled. -/
def Thread.CutTo (th th' : Thread) : Prop :=
  acts th.status = true ∧
    ∃ (status : BitVec 8) (blocked : Bool), th' = { th with status := status, blocked := blocked }.exit

theorem cutTo_test {th : Thread} {q : Pc} (hq : q.ending = false) (he : (th.test q).pc.ending = true) :
    th.CutTo (th.test q) := by
  unfold Thread.test at he ⊢
  split at he
  · rename_i hacts
    rw [if_pos hacts]
    exact ⟨hacts, _, th.blocked, rfl⟩
  · rw [show q.ending = true from he] at hq
    cases hq

theorem next_cutTo {word : Word} {th th' : Thread} {ev : Event} (h : Sound th) (ho : th.pc.owns = true)
    (hs : th.next word = some (th', ev)) (he : th'.pc.ending = true) : th.CutTo th' := by
  cases hpc : th.pc with
  | code c =>
    rw [hpc] at ho
    cases c with
    | func => simp [Thread.next, hpc] at hs
    | _ => cases ho
  | testCode c =>
    simp only [Thread.next, hpc] at hs
    cases hs
    rw [hpc] at ho
    exact cutTo_test (Pc.ending_of_owns ho) he
  | testCont k =>
    simp only [Thread.next, hpc] at hs
    cases hs
    exact cutTo_test rfl he
  | restore k =>
    simp only [Thread.next, hpc] at hs
    cases hs
    cases hsaved : th.saved <;> simp [Thread.goto, hsaved, Pc.ending] at he
  | cont k =>
    rw [hpc] at ho
    cases k with
    | call =>
      simp only [Thread.next, hpc] at hs
      cases hs
      cases he
    | _ => cases ho
  | reset c =>
    rw [hpc] at ho
    have hending := (h.reset c (.inl hpc)).1
    rw [Caller.ending_of_owns ho] at hending
    cases hending
  | wakeReset c =>
    rw [hpc] at ho
    have hending := (h.reset c (.inr hpc)).1
    rw [Caller.ending_of_owns ho] at hending
    cases hending
  | _ =>
    simp only [Thread.next, hpc] at hs
    first
      | (rw [hpc] at ho; cases ho; done)
      | (cases hs; cases he)

theorem calls_cutTo {th th' : Thread} {ev : Event} {a : Act} (hb : th.Balanced a)
    (hpc : th.pc = .code .func) (hs : th.calls .func a = some (th', ev)) (he : th'.pc.ending = true) : th.CutTo th' := by
  cases a with
  | pop execute =>
    cases hs
    unfold Thread.pop at he
    split at he
    · rw [hpc] at he
      cases he
    · rename_i hstack
      exact absurd (by rw [hstack]; rfl) (hb hpc)
    · simp only [hpc] at he
      cases he
  | push =>
    cases hs
    simp only [hpc] at he
    cases he
  | setcancelstate enable =>
    cases hs
    cases enable <;> cases he
  | exit => exact (hb hpc).elim
  | _ => first
    | (cases hs; done)
    | (cases hs; cases he)

theorem step_cutTo {word : Word} {th th' : Thread} {ev : Event} {a : Act} (h : Sound th) (hb : th.Balanced a)
    (ho : th.pc.owns = true) (hs : th.step word a = some (th', ev)) (he : th'.pc.ending = true) : th.CutTo th' := by
  have hne := Pc.ending_of_owns ho
  unfold Thread.step at hs
  split at hs
  · exact next_cutTo h ho hs he
  · cases hs
    rw [hne] at he
    cases he
  · obtain ⟨-, hs⟩ := Option.ite_none_left_eq_some.mp hs
    cases hs
    unfold Thread.signal at he ⊢
    split at he
    · rename_i hacts
      rw [if_pos hacts]
      exact ⟨hacts.2, _, _, rfl⟩
    · have hbefore := woken_place (f := Pc.ending) rfl he
      rw [hne] at hbefore
      cases hbefore
  · obtain ⟨-, hs⟩ := Option.ite_none_right_eq_some.mp hs
    cases hs
    cases he
  · split at hs
    · rename_i c hpc
      rw [hpc] at ho
      cases c with
      | func => exact calls_cutTo hb hpc hs he
      | _ => cases ho
    · cases hs

theorem Tidy.cuts_of_owns {word : Word} {th th' : Thread} {ev : Event} {a : Act} (h : Tidy th) (hsound : Sound th)
    (hb : th.Balanced a) (ho : th.pc.owns = true) (hs : th.step word a = some (th', ev)) (he : th'.pc.ending = true) :
    th'.cuts = 1 := by
  have hne := Pc.ending_of_owns ho
  obtain ⟨hacts, status, blocked, rfl⟩ := step_cutTo hsound hb ho hs he
  have hheld : th.pc.held = false := by
    by_contra hheld
    have hoff := hsound.held (by simpa using hheld)
    rw [(acts_iff.mp hacts).1] at hoff
    cases hoff
  simp [Thread.exit, hne, hsound.uncut hne, h.listed_of_owns hsound ho hheld]

/-- The counts of a thread grow where `tbthread_exit` is entered and where `once_cleanup` is called. -/
theorem step_counts {word : Word} {th th' : Thread} {ev : Event} {a : Act} (hs : th.step word a = some (th', ev)) :
    th.cuts ≤ th'.cuts ∧ (ev ≠ .reset → th'.resets = th.resets) := by
  have hexit : ∀ (status : BitVec 8) (blocked : Bool),
      th.cuts ≤ ({ th with status := status, blocked := blocked }.exit).cuts ∧
        ({ th with status := status, blocked := blocked }.exit).resets = th.resets := by
    intro status blocked
    refine ⟨?_, rfl⟩
    simp only [Thread.exit]
    split <;> omega
  have htest : ∀ q, th.cuts ≤ (th.test q).cuts ∧ (th.test q).resets = th.resets := by
    intro q
    unfold Thread.test
    split
    · exact hexit _ th.blocked
    · exact ⟨Nat.le_refl _, rfl⟩
  unfold Thread.step at hs
  split at hs
  · unfold Thread.next at hs
    split at hs <;> (try split at hs) <;> cases hs
    all_goals first
      | exact ⟨Nat.le_refl _, fun _ => rfl⟩
      | exact ⟨(htest _).1, fun _ => (htest _).2⟩
      | exact ⟨Nat.le_refl _, fun hne => absurd rfl hne⟩
  · cases hs
    exact ⟨Nat.le_refl _, fun _ => rfl⟩
  · obtain ⟨-, he⟩ := Option.ite_none_left_eq_some.mp hs
    cases he
    unfold Thread.signal
    split
    · exact ⟨(hexit _ _).1, fun _ => (hexit _ _).2⟩
    · exact ⟨Nat.le_of_eq (woken_cuts th).symm, fun _ => woken_resets th⟩
  · obtain ⟨-, he⟩ := Option.ite_none_right_eq_some.mp hs
    cases he
    exact ⟨Nat.le_refl _, fun _ => rfl⟩
  · split at hs
    · rename_i c hpc
      cases a with
      | pop execute =>
        obtain ⟨-, he⟩ := Option.ite_none_left_eq_some.mp hs
        cases he
        unfold Thread.pop
        split
        · exact ⟨Nat.le_refl _, fun _ => rfl⟩
        · exact ⟨Nat.le_refl _, fun _ => rfl⟩
        · exact ⟨Nat.le_refl _, fun _ => rfl⟩
      | exit =>
        obtain ⟨-, he⟩ := Option.ite_none_left_eq_some.mp hs
        cases he
        exact ⟨(hexit _ _).1, fun _ => (hexit _ _).2⟩
      | _ =>
        simp only [Thread.calls] at hs
        first
          | (cases hs; done)
          | (split at hs <;> cases hs <;> exact ⟨Nat.le_refl _, fun _ => rfl⟩)
          | (cases hs; exact ⟨Nat.le_refl _, fun _ => rfl⟩)
    · cases hs

theorem Goes.owns {word : Word} {p q : Pc} {ev : Event} (h : Goes word p q ev) (hp : p.owns = true)
    (hq : q.ending = false) : q.owns = true ∨ ev = .done := by
  cases h with
  | exit => cases hq
  | done => exact .inr rfl
  | restored k => cases k <;> first | exact .inl rfl | cases hp
  | restoredTest k => cases k <;> first | exact .inl rfl | cases hp
  | wakeReset c =>
    cases c with
    | pop c => exact .inl hp
    | exit rest => cases hp
  | _ => first
    | exact .inl hp
    | exact .inl rfl

/-- An executor stays one, or has the reset of the word still to make. -/
theorem Tidy.owner {word : Word} {th th' : Thread} {ev : Event} {a : Act} (h : Tidy th) (hsound : Sound th)
    (hb : th.Balanced a) (hs : th.step word a = some (th', ev)) (howner : th.owner) (hdone : ev ≠ .done)
    (hreset : ev ≠ .reset) : th'.owner := by
  have hafter := (hsound.step (h.clean hsound hb hs) hs).sound.account
  have hbefore := hsound.account
  obtain ⟨hcuts, hresets⟩ := step_counts hs
  have hsame := hresets hreset
  rcases howner with ho | hp
  · cases he : th'.pc.ending with
    | true =>
      have hone := h.cuts_of_owns hsound hb ho hs he
      have hzero := hsound.uncut (Pc.ending_of_owns ho)
      exact .inr (by omega)
    | false => exact .inl (((step_goes hs).owns ho he).resolve_right hdone)
  · exact .inr (by omega)

end ThreadBites.Once

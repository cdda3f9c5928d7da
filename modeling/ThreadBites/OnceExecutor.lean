import ThreadBites.Once

/-!
# The executor

A thread is the executor from its compare-and-swap until it stores
`TB_ONCE_DONE`, or until its `once_cleanup` has reset the word if it ends before
that. What a step keeps of this is said of one thread at a time.
-/
namespace ThreadBites.Once

open Transition Cancel

def Code.owns : Code → Bool
  | .func => true
  | _ => false

def Cont.owns : Cont → Bool
  | .call => true
  | _ => false

def Caller.owns : Caller → Bool
  | .pop c => c.owns
  | .exit _ => false

/-- Between the compare-and-swap and the store of `TB_ONCE_DONE`. -/
def Pc.owns : Pc → Bool
  | .code c => c.owns
  | .testCode c => c.owns
  | .push => true
  | .restore k => k.owns
  | .testCont k => k.owns
  | .cont k => k.owns
  | .returned => true
  | .pop => true
  | .store => true
  | .reset c => c.owns
  | .wakeReset c => c.owns
  | _ => false

def Code.pending : Code → Nat
  | .handler rest => rest.count .once
  | _ => 0

def Caller.pending : Caller → Nat
  | .pop c => c.pending
  | .exit rest => rest.count .once

/-- The calls of `once_cleanup` that `tbthread_exit` has still to make. -/
def Pc.pending : Pc → Nat
  | .code c => c.pending
  | .testCode c => c.pending
  | .reset c => c.pending + 1
  | .wakeReset c => c.pending
  | .exit rest => rest.count .once
  | _ => 0

/-- Cancellation is disabled by the call. -/
def Pc.held : Pc → Bool
  | .cas => true
  | .push => true
  | .restore _ => true
  | .pop => true
  | .store => true
  | .wakeDone => true
  | _ => false

/-- An execution of `func` is in progress. -/
def Pc.runs : Pc → Bool
  | .code c => c.owns
  | .testCode c => c.owns
  | .reset c => c.owns
  | .wakeReset c => c.owns
  | _ => false

def Thread.owner (th : Thread) : Prop := th.pc.owns = true ∨ 0 < th.pc.pending

/-- A place that plays the same part as another. -/
def Pc.Alike (p q : Pc) : Prop := q.owns = p.owns ∧ q.pending = p.pending ∧ q.ending = p.ending

/-- `tbthread_testcancel` acts in this step. -/
def Thread.cutBy (th : Thread) : Act → Bool
  | .next => match th.pc with
      | .testCode _ => acts th.status
      | .testCont _ => acts th.status
      | _ => false
  | .signal => !th.blocked && !has .deferred th.status && acts th.status
  | _ => false

/-- The conditions on a step of a thread under which the word stays in order: `tbthread_exit` is not entered again
with an `once_cleanup` in the list that was called, no pop calls `once_cleanup`, and it is not in the
list any more when `TB_ONCE_DONE` is stored. -/
def Thread.Clean (th : Thread) (a : Act) : Prop :=
  (th.cutBy a = true → th.pc.ending = true → th.stack.count .once = th.pc.pending) ∧
    match a with
    | .pop true => th.pc.ending = false → th.stack.head? ≠ some .once
    | .next => th.pc = .store → Entry.once ∉ th.stack
    | _ => True

instance (th : Thread) : ∀ a, Decidable (th.Clean a)
  | .pop true => inferInstanceAs (Decidable (_ ∧ (th.pc.ending = false → th.stack.head? ≠ some .once)))
  | .next => inferInstanceAs (Decidable (_ ∧ (th.pc = .store → Entry.once ∉ th.stack)))
  | .pop false => inferInstanceAs (Decidable (_ ∧ True))
  | .once => inferInstanceAs (Decidable (_ ∧ True))
  | .push => inferInstanceAs (Decidable (_ ∧ True))
  | .setcancelstate _ => inferInstanceAs (Decidable (_ ∧ True))
  | .setcanceltype _ => inferInstanceAs (Decidable (_ ∧ True))
  | .testcancel => inferInstanceAs (Decidable (_ ∧ True))
  | .exit => inferInstanceAs (Decidable (_ ∧ True))
  | .ret => inferInstanceAs (Decidable (_ ∧ True))
  | .request => inferInstanceAs (Decidable (_ ∧ True))
  | .signal => inferInstanceAs (Decidable (_ ∧ True))
  | .interrupt => inferInstanceAs (Decidable (_ ∧ True))

/-- What is kept of a thread by such steps. -/
structure Sound (th : Thread) : Prop where
  few : th.stack.count .once ≤ 1
  unlisted : th.pc.owns = false → th.pc.ending = false → th.stack.count .once = 0
  push : th.pc = .push → th.stack.count .once = 0
  listed : th.pc.pending ≤ th.stack.count .once
  held : th.pc.held = true → has .enabled th.status = false
  reset : ∀ c, th.pc = .reset c ∨ th.pc = .wakeReset c →
    c.ending = true ∧ th.stack.count .once = 1 ∧ c.pending = 0
  account : th.resets + th.pc.pending = th.cuts
  uncut : th.pc.ending = false → th.cuts = 0
  cut : th.cuts ≤ 1

theorem sound_start (status : BitVec 8) : Sound (Thread.start status) where
  few := Nat.zero_le 1
  unlisted := fun _ _ => rfl
  push := fun _ => rfl
  listed := Nat.le_refl 0
  held := fun h => by cases h
  reset := by simp [Thread.start]
  account := rfl
  uncut := fun _ => rfl
  cut := Nat.zero_le 1

/-- A step within the same part, that does not touch the list. -/
theorem Sound.follow {th : Thread} {q : Pc} (h : Sound th) (status : BitVec 8) (blocked saved : Bool)
    (halike : th.pc.Alike q) (hpush : q ≠ .push) (hheld : q.held = true → has .enabled status = false)
    (hreset : ∀ c, q = .reset c → c.ending = true) (hwake : ∀ c, q ≠ .wakeReset c) :
    Sound { th with status := status, blocked := blocked, saved := saved, pc := q } := by
  obtain ⟨howns, hpending, hending⟩ := halike
  refine ⟨h.few, ?_, fun he => absurd he hpush, ?_, hheld, ?_, ?_, ?_, h.cut⟩
  · intro hno hne
    exact h.unlisted (howns ▸ hno) (hending ▸ hne)
  · rw [hpending]
    exact h.listed
  · rintro c (rfl | rfl)
    · have hlisted := h.listed
      have hfew := h.few
      have hone : c.pending + 1 = th.pc.pending := hpending
      exact ⟨hreset c rfl, by simp only; omega, by omega⟩
    · exact absurd rfl (hwake c)
  · rw [hpending]
    exact h.account
  · intro hne
    exact h.uncut (hending ▸ hne)

/-- `tbthread_exit`, not entered again after `once_cleanup` was called. -/
theorem Sound.exit {th : Thread} (h : Sound th) (status : BitVec 8) (blocked : Bool)
    (hagain : th.pc.ending = true → th.stack.count .once = th.pc.pending) :
    Sound { th with status := status, blocked := blocked }.exit where
  few := h.few
  unlisted := fun _ hne => by cases hne
  push := fun he => by cases he
  listed := Nat.le_refl _
  held := fun he => by cases he
  reset := by simp [Thread.exit]
  account := by
    have haccount := h.account
    cases he : th.pc.ending with
    | true =>
      simp only [Thread.exit, Pc.pending, he, if_true, hagain he]
      exact haccount
    | false =>
      have hcuts := h.uncut he
      simp only [Thread.exit, Pc.pending, he, Bool.false_eq_true, if_false]
      omega
  uncut := fun hne => by cases hne
  cut := by
    have hfew := h.few
    have hcut := h.cut
    cases he : th.pc.ending with
    | true => simpa [Thread.exit, he] using hcut
    | false =>
      have hcuts := h.uncut he
      simp only [Thread.exit, he, Bool.false_eq_true, if_false]
      omega

/-- What a step does to the part that a thread plays. -/
structure Moved (word : Word) (th th' : Thread) (ev : Event) : Prop where
  sound : Sound th'
  keeps : ev ≠ .claim → th'.owner → th.owner
  claims : ev = .claim → word = .new
  ends : ev = .done ∨ ev = .reset → th.owner ∧ ¬ th'.owner

/-- Events of steps after which a thread plays the part that it played. -/
def Event.plain : Event → Bool
  | .claim => false
  | .done => false
  | .reset => false
  | _ => true

theorem Moved.plain {word : Word} {th th' : Thread} {ev : Event} (hev : ev.plain = true) (hsound : Sound th')
    (hkeeps : th'.owner → th.owner) : Moved word th th' ev where
  sound := hsound
  keeps := fun _ => hkeeps
  claims := fun he => by rw [he] at hev; cases hev
  ends := by rintro (rfl | rfl) <;> cases hev

theorem Sound.moved_follow {word : Word} {th : Thread} {q : Pc} {ev : Event} (h : Sound th) (hev : ev.plain = true)
    (status : BitVec 8) (blocked saved : Bool) (halike : th.pc.Alike q) (hpush : q ≠ .push)
    (hheld : q.held = true → has .enabled status = false) (hreset : ∀ c, q = .reset c → c.ending = true)
    (hwake : ∀ c, q ≠ .wakeReset c) :
    Moved word th { th with status := status, blocked := blocked, saved := saved, pc := q } ev := by
  refine .plain hev (h.follow status blocked saved halike hpush hheld hreset hwake) fun howner => ?_
  obtain ⟨howns, hpending, -⟩ := halike
  rcases howner with ho | hp
  · exact .inl (howns ▸ ho)
  · exact .inr (hpending ▸ hp)

theorem Sound.moved_exit {word : Word} {th : Thread} {ev : Event} (h : Sound th) (hev : ev.plain = true)
    (status : BitVec 8) (blocked : Bool)
    (hagain : th.pc.ending = true → th.stack.count .once = th.pc.pending) :
    Moved word th { th with status := status, blocked := blocked }.exit ev := by
  refine .plain hev (h.exit status blocked hagain) fun howner => ?_
  have hpos : 0 < th.stack.count .once := by
    rcases howner with ho | hp
    · cases ho
    · exact hp
  cases he : th.pc.ending with
  | true => exact .inr (hagain he ▸ hpos)
  | false =>
    cases ho : th.pc.owns with
    | true => exact .inl ho
    | false => exact absurd (h.unlisted ho he) (by omega)

/-- Places that nothing but the part that they play is said of. -/
def Pc.simple : Pc → Bool
  | .push => false
  | .reset _ => false
  | .wakeReset _ => false
  | p => !p.held

theorem Pc.simple_spec {q : Pc} (h : q.simple = true) :
    q ≠ .push ∧ q.held = false ∧ (∀ c, q ≠ .reset c) ∧ ∀ c, q ≠ .wakeReset c := by
  cases q <;> simp [Pc.simple, Pc.held] at h ⊢

theorem Sound.moved_goto {word : Word} {th : Thread} {p q : Pc} {ev : Event} (h : Sound th) (hpc : th.pc = p)
    (hev : ev.plain = true) (status : BitVec 8) (saved : Bool) (halike : p.Alike q) (hq : q.simple = true) :
    Moved word th ({ th with status := status, saved := saved }.goto q) ev := by
  obtain ⟨hpush, hheld, hreset, hwake⟩ := Pc.simple_spec hq
  exact h.moved_follow hev status th.blocked saved (hpc ▸ halike) hpush (by simp [hheld])
    (fun c he => absurd he (hreset c)) hwake

/-- `tbthread_testcancel` in code that goes on at a place that plays the same part. -/
theorem Sound.moved_test {word : Word} {th : Thread} {p q : Pc} (h : Sound th) (hpc : th.pc = p)
    (hagain : acts th.status = true → th.pc.ending = true → th.stack.count .once = th.pc.pending)
    (halike : p.Alike q) (hq : q.simple = true) : Moved word th (th.test q) .quiet := by
  unfold Thread.test
  split
  · rename_i hacts
    exact h.moved_exit rfl (put .canceled true th.status) th.blocked (hagain hacts)
  · exact h.moved_goto hpc rfl th.status th.saved halike hq

/-- A place outside `tbthread_exit` that is not one of `once_cleanup`, with a new list. -/
theorem Sound.relisted {th : Thread} {q : Pc} (h : Sound th) (hne : th.pc.ending = false) (status : BitVec 8)
    (saved : Bool) (stack : List Entry) (hfew : stack.count .once ≤ 1) (hzero : th.pc.pending = 0)
    (hq : q.pending = 0) (hunlisted : q.owns = false → q.ending = false → stack.count .once = 0)
    (hpush : q = .push → stack.count .once = 0) (hheld : q.held = true → has .enabled status = false)
    (hreset : ∀ c, q ≠ .reset c ∧ q ≠ .wakeReset c) :
    Sound ({ th with status := status, saved := saved, stack := stack }.goto q) where
  few := hfew
  unlisted := hunlisted
  push := hpush
  listed := by
    simp only [Thread.goto, hq]
    omega
  held := hheld
  reset := by
    rintro c (he | he)
    · exact absurd he (hreset c).1
    · exact absurd he (hreset c).2
  account := by
    have haccount := h.account
    simp only [Thread.goto, hq]
    omega
  uncut := fun _ => h.uncut hne
  cut := h.cut

/-- The executor takes the word. -/
theorem Sound.claim {th : Thread} (h : Sound th) (hpc : th.pc = .cas) : Moved .new th (th.goto .push) .claim where
  sound := by
    have hnone := h.unlisted (by rw [hpc]; rfl) (by rw [hpc]; rfl)
    refine h.relisted (by rw [hpc]; rfl) th.status th.saved th.stack h.few (by rw [hpc]; rfl) rfl ?_ (fun _ => hnone)
      (fun _ => h.held (by rw [hpc]; rfl)) (by simp)
    intro hno
    cases hno
  keeps := fun hne => absurd rfl hne
  claims := fun _ => rfl
  ends := by simp

/-- The executor puts `once_cleanup` in front of its list. -/
theorem Sound.moved_push {word : Word} {th : Thread} (h : Sound th) (hpc : th.pc = .push) :
    Moved word th ({ th with stack := .once :: th.stack }.goto (.restore .call)) .quiet := by
  refine .plain rfl ?_ fun _ => .inl (by rw [hpc]; rfl)
  have hcount : (Entry.once :: th.stack).count .once = 1 := by simp [h.push hpc]
  refine h.relisted (by rw [hpc]; rfl) th.status th.saved _ (Nat.le_of_eq hcount) (by rw [hpc]; rfl) rfl ?_ (by simp)
    (fun _ => h.held (by rw [hpc]; rfl)) (by simp)
  intro hno
  cases hno

theorem count_tail_le (l : List Entry) : l.tail.count .once ≤ l.count .once := (List.tail_sublist l).count_le _

/-- The executor pops. -/
theorem Sound.moved_pop {word : Word} {th : Thread} (h : Sound th) (hpc : th.pc = .pop) :
    Moved word th ({ th with stack := th.stack.tail }.goto .store) .quiet := by
  refine .plain rfl ?_ fun _ => .inl (by rw [hpc]; rfl)
  refine h.relisted (by rw [hpc]; rfl) th.status th.saved _ ((count_tail_le _).trans h.few) (by rw [hpc]; rfl) rfl ?_
    (by simp) (fun _ => h.held (by rw [hpc]; rfl)) (by simp)
  intro hno
  cases hno

/-- The executor is done, and its `once_cleanup` is not in the list. -/
theorem Sound.moved_store {word : Word} {th : Thread} (h : Sound th) (hpc : th.pc = .store)
    (hnone : Entry.once ∉ th.stack) : Moved word th (th.goto .wakeDone) .done where
  sound := by
    have hzero := List.count_eq_zero.mpr hnone
    exact h.relisted (by rw [hpc]; rfl) th.status th.saved th.stack h.few (by rw [hpc]; rfl) rfl (fun _ _ => hzero)
      (fun _ => hzero) (fun _ => h.held (by rw [hpc]; rfl)) (by simp)
  keeps := by
    rintro - (ho | hp)
    · cases ho
    · cases hp
  claims := fun he => by cases he
  ends := fun _ => ⟨.inl (by rw [hpc]; rfl), by simp [Thread.owner, Thread.goto, Pc.owns, Pc.pending]⟩

theorem Caller.owns_of_ending {c : Caller} (h : c.ending = true) : c.owns = false := by
  cases c with
  | pop c => cases c <;> first | rfl | cases h
  | exit rest => rfl

/-- `once_cleanup` resets the word, and is not called again. -/
theorem Sound.moved_reset {word : Word} {th : Thread} {c : Caller} (h : Sound th) (hpc : th.pc = .reset c) :
    Moved word th ({ th with resets := th.resets + 1 }.goto (.wakeReset c)) .reset := by
  obtain ⟨hending, hone, hzero⟩ := h.reset c (.inl hpc)
  have haccount := h.account
  rw [hpc] at haccount
  simp only [Pc.pending] at haccount
  refine ⟨⟨h.few, ?_, fun he => ?_, ?_, fun he => ?_, ?_, ?_, fun hne => ?_, h.cut⟩, ?_, fun he => ?_, fun _ => ⟨?_, ?_⟩⟩
  · intro _ hne
    exact absurd hending (by simpa [Thread.goto, Pc.ending] using hne)
  · cases he
  · simp only [Thread.goto, Pc.pending]
    omega
  · cases he
  · rintro d (he | he)
    · cases he
    · cases he
      exact ⟨hending, hone, hzero⟩
  · simp only [Thread.goto, Pc.pending]
    omega
  · exact absurd hending (by simpa [Thread.goto, Pc.ending] using hne)
  · intro _ _
    exact .inr (by rw [hpc]; exact Nat.succ_pos _)
  · cases he
  · exact .inr (by rw [hpc]; exact Nat.succ_pos _)
  · simp [Thread.owner, Thread.goto, Pc.owns, Pc.pending, Caller.owns_of_ending hending, hzero]

/-- `clear` leaves nothing to `tbthread_exit`. -/
theorem Sound.moved_clear {word : Word} {th : Thread} (h : Sound th) (hpc : th.pc = .clear) :
    Moved word th ({ th with stack := [] }.goto (.exit [])) .quiet := by
  refine .plain rfl ?_ ?_
  · exact h.relisted (by rw [hpc]; rfl) th.status th.saved [] (Nat.zero_le 1) (by rw [hpc]; rfl) rfl (fun _ _ => rfl)
      (fun _ => rfl) (by simp [Pc.held]) (by simp)
  · rintro (ho | hp)
    · cases ho
    · cases hp

/-- `tbthread_exit` has called its handlers. -/
theorem Sound.moved_ended {word : Word} {th : Thread} (h : Sound th) (hpc : th.pc = .exit []) :
    Moved word th ({ th with stack := [] }.goto .ended) .quiet := by
  have haccount := h.account
  rw [hpc] at haccount
  refine .plain rfl ⟨Nat.zero_le 1, fun _ _ => rfl, fun _ => rfl, Nat.zero_le 0, ?_, by simp [Thread.goto], haccount, ?_,
    h.cut⟩ ?_
  · intro he
    cases he
  · intro hne
    cases hne
  · rintro (ho | hp)
    · cases ho
    · cases hp

theorem Sound.next {word : Word} {th th' : Thread} {ev : Event} (h : Sound th) (hc : th.Clean .next)
    (hs : th.next word = some (th', ev)) : Moved word th th' ev := by
  have hcut := hc.1
  have hoff : has .enabled (put .enabled false th.status) = false := by simp
  unfold Thread.next at hs
  split at hs
  · rename_i rest hpc
    cases hs
    exact h.moved_goto hpc rfl th.status th.saved ⟨rfl, rfl, rfl⟩ rfl
  · cases hs
  · rename_i c hpc
    cases hs
    simp only [Thread.cutBy, hpc] at hcut
    exact h.moved_test hpc (hpc ▸ hcut) ⟨rfl, rfl, rfl⟩ rfl
  · rename_i hpc
    split at hs <;> cases hs
    · exact h.moved_goto hpc rfl th.status th.saved ⟨rfl, rfl, rfl⟩ rfl
    · exact h.moved_goto hpc rfl th.status th.saved ⟨rfl, rfl, rfl⟩ rfl
  · rename_i hpc
    cases hs
    exact h.moved_follow rfl _ th.blocked _ (by rw [hpc]; exact ⟨rfl, rfl, rfl⟩) (by simp) (fun _ => hoff) (by simp) (by simp)
  · rename_i hpc
    split at hs
    · rename_i hword
      cases hs
      rw [hword]
      exact h.claim hpc
    · cases hs
      exact h.moved_follow rfl th.status th.blocked th.saved (by rw [hpc]; exact ⟨rfl, rfl, rfl⟩) (by simp)
        (fun _ => h.held (by rw [hpc]; rfl)) (by simp) (by simp)
  · rename_i hpc
    cases hs
    exact h.moved_push hpc
  · rename_i k hpc
    cases hs
    split
    · exact h.moved_goto hpc rfl _ th.saved ⟨rfl, rfl, rfl⟩ rfl
    · exact h.moved_goto hpc rfl _ th.saved ⟨rfl, rfl, rfl⟩ rfl
  · rename_i k hpc
    cases hs
    simp only [Thread.cutBy, hpc] at hcut
    exact h.moved_test hpc (hpc ▸ hcut) ⟨rfl, rfl, rfl⟩ rfl
  · rename_i hpc
    cases hs
    exact h.moved_goto hpc rfl th.status th.saved ⟨rfl, rfl, rfl⟩ rfl
  · rename_i hpc
    cases hs
    split
    · exact h.moved_goto hpc rfl th.status th.saved ⟨rfl, rfl, rfl⟩ rfl
    · exact h.moved_goto hpc rfl th.status th.saved ⟨rfl, rfl, rfl⟩ rfl
  · rename_i hpc
    cases hs
    exact h.moved_goto hpc rfl th.status th.saved ⟨rfl, rfl, rfl⟩ rfl
  · rename_i hpc
    cases hs
    exact h.moved_follow rfl _ th.blocked _ (by rw [hpc]; exact ⟨rfl, rfl, rfl⟩) (by simp) (fun _ => hoff) (by simp) (by simp)
  · rename_i hpc
    cases hs
    exact h.moved_pop hpc
  · rename_i hpc
    cases hs
    exact h.moved_store hpc (hc.2 hpc)
  · rename_i hpc
    cases hs
    exact h.moved_follow rfl th.status th.blocked th.saved (by rw [hpc]; exact ⟨rfl, rfl, rfl⟩) (by simp)
      (fun _ => h.held (by rw [hpc]; rfl)) (by simp) (by simp)
  · cases hs
  · rename_i hpc
    cases hs
    split
    · exact h.moved_goto hpc rfl th.status th.saved ⟨rfl, rfl, rfl⟩ rfl
    · exact h.moved_goto hpc rfl th.status th.saved ⟨rfl, rfl, rfl⟩ rfl
  · rename_i c hpc
    cases hs
    exact h.moved_reset hpc
  · rename_i c hpc
    cases hs
    have hsimple : c.pc.simple = true := by cases c <;> rfl
    exact h.moved_goto hpc rfl th.status th.saved (by cases c <;> exact ⟨rfl, rfl, rfl⟩) hsimple
  · rename_i hpc
    cases hs
    exact h.moved_goto hpc rfl _ th.saved ⟨rfl, rfl, rfl⟩ rfl
  · rename_i hpc
    cases hs
    exact h.moved_clear hpc
  · rename_i rest hpc
    cases hs
    have halike : (Pc.exit (.once :: rest)).Alike (.reset (.exit rest)) :=
      ⟨rfl, by simp [Pc.pending, Caller.pending], rfl⟩
    exact h.moved_follow rfl th.status th.blocked th.saved (hpc ▸ halike) (by simp) (by simp [Pc.held])
      (fun c he => by cases he; rfl) (by simp)
  · rename_i rest hpc
    cases hs
    exact h.moved_goto hpc rfl th.status th.saved ⟨rfl, by simp [Pc.pending, Code.pending], rfl⟩ rfl
  · rename_i hpc
    cases hs
    exact h.moved_ended hpc
  · cases hs

/-- Code of the program changes the list, and adds no `once_cleanup`. -/
theorem Sound.moved_stack {word : Word} {th : Thread} {c : Code} {stack : List Entry} (h : Sound th)
    (hpc : th.pc = .code c) (hne : c.ending = false) (hle : stack.count .once ≤ th.stack.count .once) :
    Moved word th ({ th with stack := stack }.goto (.code c)) .quiet := by
  have hzero : c.pending = 0 := by cases c <;> first | rfl | cases hne
  refine .plain rfl ?_ fun howner => ?_
  · refine h.relisted (by rw [hpc]; exact hne) th.status th.saved stack (hle.trans h.few) (by rw [hpc]; exact hzero)
      hzero (fun hno _ => ?_) (by simp) (by simp [Pc.held]) (by simp)
    have hnone := h.unlisted (by rw [hpc]; exact hno) (by rw [hpc]; exact hne)
    omega
  · rwa [Thread.owner, hpc]

theorem goto_self {th : Thread} {p : Pc} (hpc : th.pc = p) : th.goto p = th := by
  subst hpc
  rfl

theorem Sound.calls {word : Word} {th th' : Thread} {ev : Event} {c : Code} {a : Act} (h : Sound th) (hc : th.Clean a)
    (hpc : th.pc = .code c) (hs : th.calls c a = some (th', ev)) : Moved word th th' ev := by
  cases a with
  | once =>
    obtain ⟨rfl, he⟩ := Option.ite_none_right_eq_some.mp hs
    cases he
    exact h.moved_goto hpc rfl th.status th.saved ⟨rfl, rfl, rfl⟩ rfl
  | push =>
    obtain ⟨hne, he⟩ := Option.ite_none_left_eq_some.mp hs
    cases he
    have hself : { th with stack := .other :: th.stack }.goto (.code c) = { th with stack := .other :: th.stack } :=
      goto_self hpc
    rw [← hself]
    exact h.moved_stack hpc (by simpa using hne) (by simp)
  | pop execute =>
    obtain ⟨hne, he⟩ := Option.ite_none_left_eq_some.mp hs
    cases he
    have hne : c.ending = false := by simpa using hne
    unfold Thread.pop
    split
    · have hmoved : Moved word th (th.goto (.code c)) .quiet :=
        h.moved_goto hpc rfl th.status th.saved ⟨rfl, rfl, rfl⟩ rfl
      rwa [goto_self hpc] at hmoved
    · rename_i rest hstack
      cases execute with
      | true => exact absurd (by rw [hstack]; rfl) (hc.2 (by rw [hpc]; exact hne))
      | false => exact h.moved_stack hpc hne (by simp [hstack])
    · rename_i rest hstack
      have hself : { th with stack := rest }.goto (.code c) = { th with stack := rest } := goto_self hpc
      rw [← hself]
      exact h.moved_stack hpc hne (by simp [hstack])
  | setcancelstate enable =>
    cases hs
    cases enable with
    | true => exact h.moved_goto hpc rfl _ th.saved ⟨rfl, rfl, rfl⟩ rfl
    | false => exact h.moved_goto hpc rfl _ th.saved ⟨rfl, rfl, rfl⟩ rfl
  | setcanceltype deferred =>
    cases hs
    exact h.moved_goto hpc rfl _ th.saved ⟨rfl, rfl, rfl⟩ rfl
  | testcancel =>
    cases hs
    exact h.moved_goto hpc rfl th.status th.saved ⟨rfl, rfl, rfl⟩ rfl
  | exit =>
    obtain ⟨hne, he⟩ := Option.ite_none_left_eq_some.mp hs
    cases he
    refine h.moved_exit rfl th.status th.blocked fun he => ?_
    rw [hpc] at he
    exact absurd he hne
  | ret =>
    cases c with
    | user =>
      cases hs
      exact h.moved_goto hpc rfl th.status th.saved ⟨rfl, rfl, rfl⟩ rfl
    | func =>
      cases hs
      exact h.moved_goto hpc rfl th.status th.saved ⟨rfl, rfl, rfl⟩ rfl
    | handler rest => cases hs
  | next => cases hs
  | request => cases hs
  | signal => cases hs
  | interrupt => cases hs

/-- A thread that is woken. -/
theorem Sound.moved_woken {word : Word} {th : Thread} (h : Sound th) : Moved word th th.woken .quiet := by
  unfold Thread.woken
  split
  · rename_i hpc
    exact h.moved_goto hpc rfl th.status th.saved ⟨rfl, rfl, rfl⟩ rfl
  · exact .plain rfl h id

/-- `SIGCANCEL`. -/
theorem Sound.signal {word : Word} {th : Thread} (h : Sound th) (hc : th.Clean .signal) (hb : th.blocked = false) :
    Moved word th th.signal .quiet := by
  have hcut := hc.1
  unfold Thread.signal
  split
  · rename_i hacts
    exact h.moved_exit rfl (put .canceled true th.status) true (hcut (by simp [Thread.cutBy, hb, hacts]))
  · exact h.moved_woken

/-- A step that meets the conditions keeps the thread sound, and says what becomes of its part. -/
theorem Sound.step {word : Word} {th th' : Thread} {ev : Event} {a : Act} (h : Sound th) (hc : th.Clean a)
    (hs : th.step word a = some (th', ev)) : Moved word th th' ev := by
  unfold Thread.step at hs
  split at hs
  · exact h.next hc hs
  · cases hs
    refine .plain rfl ⟨h.few, h.unlisted, h.push, h.listed, fun hheld => ?_, h.reset, h.account, h.uncut, h.cut⟩ id
    simpa using h.held hheld
  · obtain ⟨hb, he⟩ := Option.ite_none_left_eq_some.mp hs
    cases he
    exact h.signal hc (by simpa using hb)
  · obtain ⟨hpc, he⟩ := Option.ite_none_right_eq_some.mp hs
    cases he
    exact h.moved_goto hpc rfl th.status th.saved ⟨rfl, rfl, rfl⟩ rfl
  · split at hs
    · rename_i c hpc
      exact h.calls hc hpc hs
    · cases hs

end ThreadBites.Once

import ThreadBites.Transition

/-!
# Programs over locks

What functions do with locks: they take them, give them back, wait for something
else, and call each other and the code of the program. A branch on data is a
choice, so that every run of the code is a run here. `wp` is the weakest
precondition on the locks that a thread has; a function is checked once, against
a bound on the locks that it may be called with.
-/
namespace LockPrograms

open Transition

variable {L W F ι τ : Type}

/-- `clear` overwrites the word of a lock, `wait` is for what is no lock, `any` reads something of type `ι`
that others may have written, `user` is the code of the program, which may call every function, `exit` ends
the thread, and `fault` has no result. -/
inductive Prog (L W F ι : Type) where
  | skip
  | acquire (l : L)
  | release (l : L)
  | clear (l : L)
  | wait (w : W)
  | seq (p q : Prog L W F ι)
  | choice (p q : Prog L W F ι)
  | any (f : ι → Prog L W F ι)
  | loop (p : Prog L W F ι)
  | call (f : F)
  | user
  | exit
  | fault

def steps : List (Prog L W F ι) → Prog L W F ι
  | [] => .skip
  | p :: rest => .seq p (steps rest)

def optional (p : Prog L W F ι) : Prog L W F ι := .choice .skip p

/-- What is left to do, and the returns of the calls in progress. `held` is history: the locks that the
thread had at the call. -/
inductive Frame (L W F ι : Type) where
  | run (p : Prog L W F ι)
  | ret (f : F) (held : List L)

/-- `locked` are the words of the locks. History: the locks that a thread has taken and not released, the
last one first. -/
structure State (τ L W F ι : Type) where
  stack : τ → List (Frame L W F ι)
  locked : L → Bool
  held : τ → List L

/-- Threads that are gone, or in the code of the program, or at the start of a function. -/
structure Initial (s : State τ L W F ι) : Prop where
  stack : ∀ t, s.stack t = [] ∨ s.stack t = [.run .user] ∨ ∃ f, s.stack t = [.run (.call f)]
  locked : ∀ l, s.locked l = false
  held : ∀ t, s.held t = []

inductive Move (F ι : Type) where
  | go
  | left
  | right
  | pick (i : ι)
  | enter (f : F)
  deriving DecidableEq, Repr

variable [DecidableEq L] [DecidableEq τ]

def State.goto (s : State τ L W F ι) (t : τ) (k : List (Frame L W F ι)) : State τ L W F ι :=
  { s with stack := Function.update s.stack t k }

def State.take (s : State τ L W F ι) (t : τ) (l : L) : State τ L W F ι :=
  { s with locked := Function.update s.locked l true, held := Function.update s.held t (l :: s.held t) }

/-- The word is cleared, whoever has the lock. -/
def State.drop (s : State τ L W F ι) (t : τ) (l : L) : State τ L W F ι :=
  { s with locked := Function.update s.locked l false, held := Function.update s.held t ((s.held t).erase l) }

def State.clear (s : State τ L W F ι) (l : L) : State τ L W F ι :=
  { s with locked := Function.update s.locked l false }

/-- Thread `t` goes on with `p`, and with `k` after it. -/
def next (body : F → Prog L W F ι) (s : State τ L W F ι) (t : τ) (k : List (Frame L W F ι)) :
    Prog L W F ι → Move F ι → Option (State τ L W F ι)
  | .skip, .go => some (s.goto t k)
  | .acquire l, .go => if s.locked l = true then none else some ((s.take t l).goto t k)
  | .release l, .go => some ((s.drop t l).goto t k)
  | .clear l, .go => some ((s.clear l).goto t k)
  | .wait _, .go => some (s.goto t k)
  | .seq p q, .go => some (s.goto t (.run p :: .run q :: k))
  | .choice p _, .left => some (s.goto t (.run p :: k))
  | .choice _ q, .right => some (s.goto t (.run q :: k))
  | .any f, .pick i => some (s.goto t (.run (f i) :: k))
  | .loop p, .left => some (s.goto t (.run p :: .run (.loop p) :: k))
  | .loop _, .right => some (s.goto t k)
  | .call f, .go => some (s.goto t (.run (body f) :: .ret f (s.held t) :: k))
  | .user, .enter f => some (s.goto t (.run (.call f) :: .run .user :: k))
  | .user, .go => some (s.goto t k)
  | .exit, .go => some (s.goto t [])
  | _, _ => none

def step (body : F → Prog L W F ι) (s : State τ L W F ι) : τ × Move F ι → Option (State τ L W F ι)
  | (t, move) => match s.stack t with
    | [] => none
    | .ret _ _ :: k => match move with
      | .go => some (s.goto t k)
      | _ => none
    | .run p :: k => next body s t k p move

/-- The lock that a thread is about to take, or waits for. -/
def State.wants (s : State τ L W F ι) (t : τ) : Option L :=
  match s.stack t with
  | .run (.acquire l) :: _ => some l
  | _ => none

/-- What a thread may wait for that is no lock. -/
def State.waits (s : State τ L W F ι) (t : τ) : Option W :=
  match s.stack t with
  | .run (.wait w) :: _ => some w
  | _ => none

/-- Thread `t` wants a lock that `u` has. -/
def State.WaitsFor (s : State τ L W F ι) (t u : τ) : Prop :=
  ∃ l, s.wants t = some l ∧ l ∈ s.held u

section Rules

variable (rank : L → Nat) (bound : F → Nat)

omit [DecidableEq L] [DecidableEq τ]

/-- All the locks are of a lower rank. -/
def Low (h : List L) (n : Nat) : Prop := ∀ l ∈ h, rank l < n

/-- The weakest precondition on the locks that a thread has. -/
def wp : Prog L W F ι → (List L → Prop) → List L → Prop
  | .skip, Q, h => Q h
  | .acquire l, Q, h => Low rank h (rank l) ∧ Q (l :: h)
  | .release l, Q, h => ∃ rest, h = l :: rest ∧ Q rest
  | .clear _, Q, h => Q h
  | .wait _, Q, h => h = [] ∧ Q h
  | .seq p q, Q, h => wp p (wp q Q) h
  | .choice p q, Q, h => wp p Q h ∧ wp q Q h
  | .any f, Q, h => ∀ i, wp (f i) Q h
  | .loop p, Q, h => wp p (fun h' => h' = h) h ∧ Q h
  | .call f, Q, h => Low rank h (bound f) ∧ Q h
  | .user, Q, h => h = [] ∧ Q h
  | .exit, _, h => h = []
  | .fault, _, _ => True

/-- With locks below the rank, all goes upwards and the same locks are held afterwards. -/
def Keeps (n : Nat) (p : Prog L W F ι) : Prop := ∀ h, Low rank h n → wp rank bound p (fun h' => h' = h) h

/-- Each function may be called with locks below its bound. -/
def Checked (body : F → Prog L W F ι) : Prop := ∀ f, Keeps rank bound (bound f) (body f)

variable {rank bound}

@[simp] theorem low_nil (n : Nat) : Low rank [] n := by
  intro l hl
  cases hl

@[simp] theorem low_cons {l : L} {h : List L} {n : Nat} : Low rank (l :: h) n ↔ rank l < n ∧ Low rank h n :=
  List.forall_mem_cons

@[simp] theorem low_zero {h : List L} : Low rank h 0 ↔ h = [] := by
  constructor
  · intro hl
    cases h with
    | nil => rfl
    | cons l rest => exact absurd (hl l (List.mem_cons_self ..)) (Nat.not_lt_zero _)
  · intro hl
    rw [hl]
    exact low_nil 0

theorem Low.mono {h : List L} {m n : Nat} (hl : Low rank h m) (hmn : m ≤ n) : Low rank h n :=
  fun l hm => Nat.lt_of_lt_of_le (hl l hm) hmn

theorem wp_mono {p : Prog L W F ι} {Q R : List L → Prop} (hQ : ∀ h, Q h → R h) {h : List L}
    (hp : wp rank bound p Q h) : wp rank bound p R h := by
  induction p generalizing Q R h with
  | skip => exact hQ h hp
  | acquire l => exact ⟨hp.1, hQ _ hp.2⟩
  | release l =>
    obtain ⟨rest, he, hr⟩ := hp
    exact ⟨rest, he, hQ rest hr⟩
  | clear l => exact hQ h hp
  | wait w => exact ⟨hp.1, hQ h hp.2⟩
  | seq p q ihp ihq => exact ihp (fun _ hq => ihq hQ hq) hp
  | choice p q ihp ihq => exact ⟨ihp hQ hp.1, ihq hQ hp.2⟩
  | any f ih => exact fun i => ih i hQ (hp i)
  | loop p ih => exact ⟨hp.1, hQ h hp.2⟩
  | call f => exact ⟨hp.1, hQ h hp.2⟩
  | user => exact ⟨hp.1, hQ h hp.2⟩
  | exit => exact hp
  | fault => trivial

@[simp] theorem wp_steps_nil {Q : List L → Prop} {h : List L} :
    wp rank bound (steps [] : Prog L W F ι) Q h ↔ Q h := Iff.rfl

@[simp] theorem wp_steps_cons {p : Prog L W F ι} {rest : List (Prog L W F ι)} {Q : List L → Prop} {h : List L} :
    wp rank bound (steps (p :: rest)) Q h ↔ wp rank bound p (wp rank bound (steps rest) Q) h := Iff.rfl

@[simp] theorem wp_optional {p : Prog L W F ι} {Q : List L → Prop} {h : List L} :
    wp rank bound (optional p) Q h ↔ Q h ∧ wp rank bound p Q h := Iff.rfl

section Keeps

variable {n : Nat} {p q : Prog L W F ι}

/-- What waits or calls back is called without any lock. -/
theorem keeps_zero : Keeps rank bound 0 p ↔ wp rank bound p (fun h => h = []) [] := by
  constructor
  · exact fun hp => hp [] (low_nil 0)
  · intro hp h hl
    rw [low_zero.mp hl]
    exact hp

theorem keeps_skip : Keeps rank bound n (.skip : Prog L W F ι) := fun _ _ => rfl

theorem keeps_clear {l : L} : Keeps rank bound n (.clear l : Prog L W F ι) := fun _ _ => rfl

theorem keeps_call {f : F} (hn : n ≤ bound f) : Keeps rank bound n (.call f : Prog L W F ι) :=
  fun _ hl => ⟨hl.mono hn, rfl⟩

theorem keeps_seq (hp : Keeps rank bound n p) (hq : Keeps rank bound n q) : Keeps rank bound n (.seq p q) := by
  intro h hl
  apply wp_mono (Q := fun h' => h' = h) _ (hp h hl)
  intro h' he
  rw [he]
  exact hq h hl

theorem keeps_optional (hp : Keeps rank bound n p) : Keeps rank bound n (optional p) :=
  fun h hl => ⟨rfl, hp h hl⟩

/-- A section under a lock. -/
theorem keeps_section {l : L} (hn : n ≤ rank l) (hp : Keeps rank bound (rank l + 1) p) :
    Keeps rank bound n (steps [.acquire l, p, .release l]) := by
  intro h hl
  have hheld : Low rank (l :: h) (rank l + 1) := low_cons.mpr ⟨Nat.lt_succ_self _, hl.mono (Nat.le_succ_of_le hn)⟩
  refine ⟨hl.mono hn, ?_⟩
  apply wp_mono (Q := fun h' => h' = l :: h) _ (hp _ hheld)
  intro h' he
  exact ⟨h, he, rfl⟩

end Keeps

end Rules

section Runs

variable {rank : L → Nat} {bound : F → Nat} {body : F → Prog L W F ι} {s s' : State τ L W F ι} {t : τ}

omit [DecidableEq L] [DecidableEq τ] in
/-- What is left to do can be done with the locks that the thread has. -/
def Fits (rank : L → Nat) (bound : F → Nat) : List (Frame L W F ι) → List L → Prop
  | [], h => h = []
  | .run p :: k, h => wp rank bound p (Fits rank bound k) h
  | .ret _ held :: k, h => h = held ∧ Fits rank bound k h

/-- A word can be clear under a thread that has the lock, so that others have it too. -/
structure Inv (rank : L → Nat) (bound : F → Nat) (s : State τ L W F ι) : Prop where
  fits : ∀ t, Fits rank bound (s.stack t) (s.held t)
  sorted : ∀ t, (s.held t).Pairwise fun l k => rank k < rank l
  locked : ∀ l, s.locked l = true → ∃ t, l ∈ s.held t

omit [DecidableEq L] [DecidableEq τ] in
theorem Initial.inv (h : Initial s) : Inv rank bound s := by
  constructor
  · intro t
    rw [h.held]
    rcases h.stack t with he | he | ⟨f, he⟩ <;> rw [he]
    · rfl
    · exact ⟨rfl, rfl⟩
    · exact ⟨low_nil _, rfl⟩
  · intro t
    simp [h.held]
  · intro l hl
    simp [h.locked] at hl

omit [DecidableEq L] in
/-- A thread goes on and takes or drops no lock. -/
theorem Inv.goto (h : Inv rank bound s) {k : List (Frame L W F ι)} (hk : Fits rank bound k (s.held t)) :
    Inv rank bound (s.goto t k) := by
  constructor
  · intro u
    by_cases hu : u = t
    · subst u
      simpa [State.goto] using hk
    · simpa [State.goto, hu] using h.fits u
  · exact h.sorted
  · exact h.locked

/-- A thread takes a lock above those that it has. -/
theorem Inv.take (h : Inv rank bound s) {l : L} {k : List (Frame L W F ι)}
    (hlow : Low rank (s.held t) (rank l)) (hk : Fits rank bound k (l :: s.held t)) :
    Inv rank bound ((s.take t l).goto t k) := by
  have hheld : ∀ u m, m ∈ ((s.take t l).goto t k).held u ↔ m ∈ s.held u ∨ u = t ∧ m = l := by
    intro u m
    by_cases hu : u = t
    · subst u
      simp [State.goto, State.take, or_comm]
    · simp [State.goto, State.take, hu]
  constructor
  · intro u
    by_cases hu : u = t
    · subst u
      simpa [State.goto, State.take] using hk
    · simpa [State.goto, State.take, hu] using h.fits u
  · intro u
    by_cases hu : u = t
    · subst u
      have hsorted : (l :: s.held t).Pairwise fun l k => rank k < rank l :=
        List.pairwise_cons.mpr ⟨hlow, h.sorted t⟩
      simpa [State.goto, State.take] using hsorted
    · simpa [State.goto, State.take, hu] using h.sorted u
  · intro m hm
    simp only [hheld]
    by_cases he : m = l
    · exact ⟨t, .inr ⟨rfl, he⟩⟩
    · obtain ⟨u, hu⟩ := h.locked m (by simpa [State.goto, State.take, he] using hm)
      exact ⟨u, .inl hu⟩

/-- A thread drops the lock that it took last. -/
theorem Inv.drop (h : Inv rank bound s) {l : L} {rest : List L} {k : List (Frame L W F ι)}
    (hlast : s.held t = l :: rest) (hk : Fits rank bound k rest) : Inv rank bound ((s.drop t l).goto t k) := by
  have hsorted := h.sorted t
  rw [hlast] at hsorted
  obtain ⟨-, hrest⟩ := List.pairwise_cons.mp hsorted
  have hself : ((s.drop t l).goto t k).held t = rest := by
    simp [State.goto, State.drop, hlast]
  have hother : ∀ {u}, u ≠ t → ((s.drop t l).goto t k).held u = s.held u := fun hu => by
    simp [State.goto, State.drop, hu]
  constructor
  · intro u
    by_cases hu : u = t
    · subst u
      rw [hself]
      simpa [State.goto] using hk
    · rw [hother hu]
      simpa [State.goto, State.drop, hu] using h.fits u
  · intro u
    by_cases hu : u = t
    · subst u
      rw [hself]
      exact hrest
    · rw [hother hu]
      exact h.sorted u
  · intro m hm
    have hne : m ≠ l := by
      intro he
      simp [State.goto, State.drop, he] at hm
    obtain ⟨u, hu⟩ := h.locked m (by simpa [State.goto, State.drop, hne] using hm)
    by_cases he : u = t
    · subst u
      rw [hlast] at hu
      exact ⟨t, hself ▸ (List.mem_cons.mp hu).resolve_left hne⟩
    · exact ⟨u, hother he ▸ hu⟩

omit [DecidableEq τ] in
/-- A word is cleared, whoever has the lock. -/
theorem Inv.clear (h : Inv rank bound s) (l : L) : Inv rank bound (s.clear l) := by
  constructor
  · exact h.fits
  · exact h.sorted
  · intro m hm
    by_cases he : m = l
    · simp [State.clear, he] at hm
    · exact h.locked m (by simpa [State.clear, he] using hm)

theorem next_inv (hb : Checked rank bound body) (h : Inv rank bound s) {p : Prog L W F ι} {k : List (Frame L W F ι)}
    (hs : s.stack t = .run p :: k) {move : Move F ι} (hn : next body s t k p move = some s') : Inv rank bound s' := by
  have hfits := h.fits t
  rw [hs] at hfits
  unfold next at hn
  split at hn
  · cases hn
    exact h.goto hfits
  · split at hn <;> cases hn
    exact h.take hfits.1 hfits.2
  · cases hn
    obtain ⟨rest, hlast, hk⟩ := hfits
    exact h.drop hlast hk
  · cases hn
    exact (h.clear _).goto hfits
  · cases hn
    exact h.goto hfits.2
  · cases hn
    exact h.goto hfits
  · cases hn
    exact h.goto hfits.1
  · cases hn
    exact h.goto hfits.2
  · cases hn
    exact h.goto (hfits _)
  · cases hn
    apply h.goto
    -- one pass comes back to the locks that the loop started with
    apply wp_mono (Q := fun h' => h' = s.held t) _ hfits.1
    intro h' he
    rw [he]
    exact hfits
  · cases hn
    exact h.goto hfits.2
  · cases hn
    rename_i f
    apply h.goto
    apply wp_mono (Q := fun h' => h' = s.held t) _ (hb f _ hfits.1)
    intro h' he
    rw [he]
    exact ⟨rfl, hfits.2⟩
  · cases hn
    apply h.goto
    refine ⟨?_, hfits⟩
    rw [hfits.1]
    exact low_nil _
  · cases hn
    exact h.goto hfits.2
  · cases hn
    exact h.goto hfits
  · cases hn

theorem step_inv (hb : Checked rank bound body) (h : Inv rank bound s) {a : τ × Move F ι}
    (hs : step body s a = some s') : Inv rank bound s' := by
  obtain ⟨t, move⟩ := a
  simp only [step] at hs
  split at hs
  · cases hs
  · rename_i f held k hk
    split at hs <;> cases hs
    have hfits := h.fits t
    rw [hk] at hfits
    exact h.goto hfits.2
  · rename_i p k hk
    exact next_inv hb h hk hs

/-- Runs of checked functions keep the order. -/
theorem reaches_inv (hb : Checked rank bound body) (h : Reaches Initial (step body) anyStep s) : Inv rank bound s :=
  h.invariant (I := Inv rank bound) (fun _ h₀ => h₀.inv) fun _ _ _ _ hs _ h => step_inv hb hs h

end Runs

section Results

variable {rank : L → Nat} {bound : F → Nat} {s : State τ L W F ι} {t u : τ}

omit [DecidableEq L] [DecidableEq τ]

/-- Locks are taken upwards in rank. -/
theorem Inv.wants (h : Inv rank bound s) {l : L} (hw : s.wants t = some l) : Low rank (s.held t) (rank l) := by
  unfold State.wants at hw
  split at hw <;> cases hw
  rename_i hs
  have hfits := h.fits t
  rw [hs] at hfits
  exact hfits.1

/-- Who finds a lock taken waits for a thread that has it. -/
theorem Inv.blocked (h : Inv rank bound s) {l : L} (hw : s.wants t = some l) (hl : s.locked l = true) :
    ∃ u, s.WaitsFor t u := by
  obtain ⟨u, hu⟩ := h.locked l hl
  exact ⟨u, l, hw, hu⟩

/-- No lock is held while a thread waits for anything else. -/
theorem Inv.waits (h : Inv rank bound s) {w : W} (hw : s.waits t = some w) : s.held t = [] := by
  unfold State.waits at hw
  split at hw <;> cases hw
  rename_i hs
  have hfits := h.fits t
  rw [hs] at hfits
  exact hfits.1

theorem Inv.user (h : Inv rank bound s) {k : List (Frame L W F ι)} (hs : s.stack t = .run .user :: k) :
    s.held t = [] := by
  have hfits := h.fits t
  rw [hs] at hfits
  exact hfits.1

/-- A function returns with the locks that it was called with. -/
theorem Inv.returns (h : Inv rank bound s) {f : F} {held : List L} {k : List (Frame L W F ι)}
    (hs : s.stack t = .ret f held :: k) : s.held t = held := by
  have hfits := h.fits t
  rw [hs] at hfits
  exact hfits.1

/-- Only the holder gives a lock back. -/
theorem Inv.releases (h : Inv rank bound s) {l : L} {k : List (Frame L W F ι)}
    (hs : s.stack t = .run (.release l) :: k) : l ∈ s.held t := by
  have hfits := h.fits t
  rw [hs] at hfits
  obtain ⟨rest, hlast, -⟩ := hfits
  rw [hlast]
  exact List.mem_cons_self ..

/-- A thread that is gone has left no lock behind. -/
theorem Inv.gone (h : Inv rank bound s) (hs : s.stack t = []) : s.held t = [] := by
  have hfits := h.fits t
  rw [hs] at hfits
  exact hfits

/-- What is wanted has a higher rank at each thread further on. -/
theorem Inv.climbs (h : Inv rank bound s) (htu : Relation.TransGen s.WaitsFor t u) :
    ∃ l, s.wants t = some l ∧ ∀ m, s.wants u = some m → rank l < rank m := by
  induction htu with
  | single hw =>
    obtain ⟨l, hl, hheld⟩ := hw
    exact ⟨l, hl, fun m hm => h.wants hm l hheld⟩
  | tail _ hw ih =>
    obtain ⟨l, hl, hclimb⟩ := ih
    obtain ⟨k, hk, hheld⟩ := hw
    exact ⟨l, hl, fun m hm => (hclimb k hk).trans (h.wants hm k hheld)⟩

/-- Threads never wait for one another in a circle. -/
theorem Inv.acyclic (h : Inv rank bound s) : ¬ Relation.TransGen s.WaitsFor t t := by
  intro ht
  obtain ⟨l, hl, hclimb⟩ := h.climbs ht
  exact Nat.lt_irrefl _ (hclimb l hl)

end Results

end LockPrograms

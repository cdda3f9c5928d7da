import ThreadBites.Transition
import ThreadBites.WaitQueue

/-!
# Critical sections as single steps

Parties share data that they touch inside of critical sections, instruction by
instruction, and outside of them step by step. A section may end with a wake of
sleepers. The system of single steps has whatever lock the sections are under;
the atomic system makes a section in one step and has no lock.
-/
namespace CriticalSections

open Transition WaitQueue

/-- Whom a section wakes when it is over: nobody, or sleepers of a queue. -/
inductive Wake (Q : Type) where
  | nobody
  | one (q : Q)
  | all (q : Q)
  deriving DecidableEq, Repr

/-- The instructions of a section. Each makes an effect on the data and goes on from what the data
were; `ask` takes what the environment answers, and `fault` has no result. -/
inductive Body (D P Q ι : Type) where
  | done (wake : Wake Q) (place : P)
  | fault
  | instr (effect : D → D) (rest : D → Body D P Q ι)
  | ask (rest : ι → Body D P Q ι)

variable {τ D P Q ι ω : Type}

/-- Read something of the data. -/
def Body.load {α : Type} (f : D → α) (rest : α → Body D P Q ι) : Body D P Q ι := .instr id fun d => rest (f d)

/-- Write something to the data. -/
def Body.store (f : D → D) (rest : Body D P Q ι) : Body D P Q ι := .instr f fun _ => rest

/-- Go on with a value, where there is one. -/
def Body.need {α : Type} (v : Option α) (rest : α → Body D P Q ι) : Body D P Q ι := v.elim .fault rest

/-- All of a section at once, with the answers to what it asks. -/
def Body.exec : Body D P Q ι → List ι → D → Option (D × Wake Q × P)
  | .done w p, _, d => some (d, w, p)
  | .fault, _, _ => none
  | .instr effect rest, answers, d => (rest d).exec answers (effect d)
  | .ask _, [], _ => none
  | .ask rest, i :: answers, d => (rest i).exec answers d

@[simp] theorem exec_done {w : Wake Q} {p : P} {answers : List ι} {d : D} :
    (Body.done w p : Body D P Q ι).exec answers d = some (d, w, p) := rfl

@[simp] theorem exec_load {α : Type} {f : D → α} {rest : α → Body D P Q ι} {answers : List ι} {d : D} :
    (Body.load f rest).exec answers d = (rest (f d)).exec answers d := rfl

@[simp] theorem exec_store {f : D → D} {rest : Body D P Q ι} {answers : List ι} {d : D} :
    (Body.store f rest).exec answers d = rest.exec answers (f d) := rfl

@[simp] theorem exec_need {α : Type} {v : Option α} {rest : α → Body D P Q ι} {answers : List ι} {d : D} :
    (Body.need v rest).exec answers d = v.bind fun x => (rest x).exec answers d := by
  cases v <;> rfl

/-- An outcome of a section that begins with data `d`. -/
def Body.Ends (b : Body D P Q ι) (d : D) (r : D × Wake Q × P) : Prop := ∃ answers, b.exec answers d = some r

@[simp] theorem ends_done {w : Wake Q} {p : P} {d : D} {r : D × Wake Q × P} :
    (Body.done w p : Body D P Q ι).Ends d r ↔ r = (d, w, p) := by
  simp [Body.Ends, Body.exec, eq_comm]

@[simp] theorem ends_fault {d : D} {r : D × Wake Q × P} : ¬(Body.fault : Body D P Q ι).Ends d r := by
  simp [Body.Ends, Body.exec]

@[simp] theorem ends_instr {effect : D → D} {rest : D → Body D P Q ι} {d : D} {r : D × Wake Q × P} :
    (Body.instr effect rest).Ends d r ↔ (rest d).Ends (effect d) r := Iff.rfl

@[simp] theorem ends_load {α : Type} {f : D → α} {rest : α → Body D P Q ι} {d : D} {r : D × Wake Q × P} :
    (Body.load f rest).Ends d r ↔ (rest (f d)).Ends d r := Iff.rfl

@[simp] theorem ends_store {f : D → D} {rest : Body D P Q ι} {d : D} {r : D × Wake Q × P} :
    (Body.store f rest).Ends d r ↔ rest.Ends (f d) r := Iff.rfl

@[simp] theorem ends_need {α : Type} {v : Option α} {rest : α → Body D P Q ι} {d : D} {r : D × Wake Q × P} :
    (Body.need v rest).Ends d r ↔ ∃ x, v = some x ∧ (rest x).Ends d r := by
  cases v <;> simp [Body.need]

@[simp] theorem ends_ask {rest : ι → Body D P Q ι} {d : D} {r : D × Wake Q × P} :
    (Body.ask rest).Ends d r ↔ ∃ i, (rest i).Ends d r := by
  constructor
  · rintro ⟨_ | ⟨i, answers⟩, h⟩
    · cases h
    · exact ⟨i, answers, h⟩
  · rintro ⟨i, answers, h⟩
    exact ⟨i :: answers, h⟩

/-- A section that began as `b₀` with data `d₀` has come to `b` and `d`. -/
inductive Body.Runs (b₀ : Body D P Q ι) (d₀ : D) : Body D P Q ι → D → Prop where
  | start : Runs b₀ d₀ b₀ d₀
  | instr {effect : D → D} {rest : D → Body D P Q ι} {d : D} (h : Runs b₀ d₀ (.instr effect rest) d) :
    Runs b₀ d₀ (rest d) (effect d)
  | ask {rest : ι → Body D P Q ι} {d : D} (h : Runs b₀ d₀ (.ask rest) d) (i : ι) : Runs b₀ d₀ (rest i) d

/-- What is left of a section leads to an outcome of the whole. -/
theorem Body.Runs.ends {b₀ b : Body D P Q ι} {d₀ d : D} {r : D × Wake Q × P} (h : b₀.Runs d₀ b d)
    (hr : b.Ends d r) : b₀.Ends d₀ r := by
  induction h with
  | start => exact hr
  | instr _ ih => exact ih hr
  | ask _ i ih => exact ih (ends_ask.mpr ⟨i, hr⟩)

/-- An outcome is where the section comes to. -/
theorem Body.Ends.runs {b : Body D P Q ι} {d : D} {r : D × Wake Q × P} (h : b.Ends d r) :
    b.Runs d (.done r.2.1 r.2.2) r.1 := by
  suffices hall : ∀ {b' : Body D P Q ι} {d' : D} {answers : List ι}, b.Runs d b' d' →
      b'.exec answers d' = some r → b.Runs d (.done r.2.1 r.2.2) r.1 from hall .start h.choose_spec
  intro b'
  induction b' with
  | done w p =>
    intro d' answers hruns hr
    cases hr
    exact hruns
  | fault => exact fun _ hr => nomatch hr
  | instr effect rest ih => exact fun hruns hr => ih _ hruns.instr hr
  | ask rest ih =>
    intro d' answers hruns hr
    cases answers with
    | nil => cases hr
    | cons i answers => exact ih i (hruns.ask i) hr

/-- What holds at every point of a section, whatever it is answered. -/
def Body.Always (φ : Body D P Q ι → D → Prop) : Body D P Q ι → D → Prop
  | .done w p, d => φ (.done w p) d
  | .fault, d => φ .fault d
  | .instr effect rest, d => φ (.instr effect rest) d ∧ (rest d).Always φ (effect d)
  | .ask rest, d => φ (.ask rest) d ∧ ∀ i, (rest i).Always φ d

@[simp] theorem always_done {φ : Body D P Q ι → D → Prop} {w : Wake Q} {p : P} {d : D} :
    (Body.done w p).Always φ d ↔ φ (.done w p) d := Iff.rfl

@[simp] theorem always_load {α : Type} {φ : Body D P Q ι → D → Prop} {f : D → α} {rest : α → Body D P Q ι} {d : D} :
    (Body.load f rest).Always φ d ↔ φ (.load f rest) d ∧ (rest (f d)).Always φ d := Iff.rfl

@[simp] theorem always_store {φ : Body D P Q ι → D → Prop} {f : D → D} {rest : Body D P Q ι} {d : D} :
    (Body.store f rest).Always φ d ↔ φ (.store f rest) d ∧ rest.Always φ (f d) := Iff.rfl

theorem always_need {α : Type} {φ : Body D P Q ι → D → Prop} {v : Option α} {rest : α → Body D P Q ι} {d : D}
    (hnone : v = none → φ .fault d) (hsome : ∀ x, v = some x → (rest x).Always φ d) : (Body.need v rest).Always φ d := by
  cases v with
  | none => exact hnone rfl
  | some x => exact hsome x rfl

theorem Body.Always.here {φ : Body D P Q ι → D → Prop} {b : Body D P Q ι} {d : D} (h : b.Always φ d) : φ b d := by
  cases b with
  | done => exact h
  | fault => exact h
  | instr => exact h.1
  | ask => exact h.1

theorem Body.Always.imp {φ ψ : Body D P Q ι → D → Prop} (himp : ∀ b d, φ b d → ψ b d) {b : Body D P Q ι} {d : D}
    (h : b.Always φ d) : b.Always ψ d := by
  induction b generalizing d with
  | done w p => exact himp _ _ h
  | fault => exact himp _ _ h
  | instr effect rest ih => exact ⟨himp _ _ h.1, ih d h.2⟩
  | ask rest ih => exact ⟨himp _ _ h.1, fun i => ih i (h.2 i)⟩

/-- What holds from a point on also holds from each later point on. -/
theorem Body.Always.from_here {φ : Body D P Q ι → D → Prop} {b : Body D P Q ι} {d : D} (h : b.Always φ d) :
    b.Always (fun b d => b.Always φ d) d := by
  induction b generalizing d with
  | done w p => exact h
  | fault => exact h
  | instr effect rest ih => exact ⟨h, ih d h.2⟩
  | ask rest ih => exact ⟨h, fun i => ih i (h.2 i)⟩

theorem Body.Runs.always {φ : Body D P Q ι → D → Prop} {b₀ b : Body D P Q ι} {d₀ d : D} (h : b₀.Runs d₀ b d)
    (ha : b₀.Always φ d₀) : b.Always φ d := by
  induction h with
  | start => exact ha
  | instr _ ih => exact ih.2
  | ask _ i ih => exact ih.2 i

/-- A change of the data that no instruction of a section sees or undoes. -/
def Body.Ignores (f : D → D) (b : Body D P Q ι) (d : D) : Prop :=
  b.Always (fun b d => ∀ effect rest, b = .instr effect rest → rest (f d) = rest d ∧ effect (f d) = f (effect d)) d

/-- The change can be made before the section as well. -/
theorem Body.Runs.change {f : D → D} {b₀ b : Body D P Q ι} {d₀ d : D} (h : b₀.Runs d₀ b d) (hf : b₀.Ignores f d₀) :
    b₀.Runs (f d₀) b (f d) := by
  induction h with
  | start => exact .start
  | @instr effect rest d h ih =>
    obtain ⟨hrest, heffect⟩ := (h.always hf).here effect rest rfl
    have hi := ih.instr
    rwa [hrest, heffect] at hi
  | ask _ i ih => exact ih.ask i

/-- What the parties do: the section that begins at a place, the steps at the other places, and who
sleeps in which queue. At the places `waits` a party looks at the data only to wait or to go on. -/
structure Code (τ D P Q ι ω : Type) where
  enter : τ → P → Option (Body D P Q ι)
  outer : D → τ → P → ω → Option (D × P)
  waits : P → Bool
  asleep : Q → P → Bool
  resume : Q → P → P

/-- A wake, of the sleeper that the environment names where it is a wake of one. -/
def wake {S : Type} [Fintype τ] [DecidableEq τ] (asleep : Q → S → Bool) (resume : Q → S → S) :
    Wake Q → Option τ → (τ → S) → Option (τ → S)
  | .nobody, _, f => some f
  | .one q, woken, f => wakeOne (asleep q) (resume q) f woken
  | .all q, _, f => some (wakeAll (asleep q) (resume q) f)

/-- The data, and the places of the parties. -/
structure State (τ D P : Type) where
  data : D
  place : τ → P

inductive Action (τ ι ω : Type) where
  | outer (t : τ) (o : ω)
  | enter (t : τ) (answers : List ι) (woken : Option τ)

/-- What is asked of a run: of the steps outside of sections, and of the data that a section leaves. -/
structure Demands (τ D P ω : Type) where
  outer : D → τ → P → ω → Prop
  leave : D → Prop

section Atomic

variable [Fintype τ] [DecidableEq τ] (C : Code τ D P Q ι ω) (ok : Demands τ D P ω)

/-- One step of the atomic system. -/
def step (s : State τ D P) : Action τ ι ω → Option (State τ D P)
  | .outer t o => (C.outer s.data t (s.place t) o).map fun r => ⟨r.1, Function.update s.place t r.2⟩
  | .enter t answers woken => (C.enter t (s.place t)).bind fun b => (b.exec answers s.data).bind fun r =>
      (wake C.asleep C.resume r.2.1 woken (Function.update s.place t r.2.2)).map fun place => ⟨r.1, place⟩

def Admitted (s : State τ D P) : Action τ ι ω → Prop
  | .outer t o => ok.outer s.data t (s.place t) o
  | .enter t answers _ => ∀ b r, C.enter t (s.place t) = some b → b.exec answers s.data = some r → ok.leave r.1

end Atomic

/-- Where a party is with respect to a lock. -/
inductive Phase where
  | free
  | acquiring
  | held
  | releasing
  deriving DecidableEq, Repr

/-- A step inside of the calls of a lock. -/
inductive Phase.Goes : Phase → Phase → Prop where
  | waits : Goes .acquiring .acquiring
  | acquired : Goes .acquiring .held
  | works : Goes .releasing .releasing
  | released : Goes .releasing .free

/-- A lock, with an invariant of its own: it is called and returns, by steps of the caller, and
only one party at a time is between its return from `lock` and its call of `unlock`. -/
structure Lock (τ : Type) where
  State : Type
  Action : Type
  start : State
  lock : State → τ → Option State
  unlock : State → τ → Option State
  step : State → Action → Option State
  mover : Action → τ
  phase : State → τ → Phase
  Inv : State → Prop
  inv_start : Inv start
  free_start : ∀ t, phase start t = .free
  exclusive : ∀ {s t u}, Inv s → phase s t = .held → phase s u = .held → t = u
  lock_spec : ∀ {s t s'}, Inv s → phase s t = .free → lock s t = some s' →
    Inv s' ∧ phase s' t = .acquiring ∧ ∀ u, u ≠ t → phase s' u = phase s u
  unlock_spec : ∀ {s t s'}, Inv s → phase s t = .held → unlock s t = some s' →
    Inv s' ∧ phase s' t = .releasing ∧ ∀ u, u ≠ t → phase s' u = phase s u
  step_spec : ∀ {s a s'}, Inv s → step s a = some s' →
    Inv s' ∧ (phase s (mover a)).Goes (phase s' (mover a)) ∧ ∀ u, u ≠ mover a → phase s' u = phase s u

/-- Where a party is: outside, in the call of `lock` before the section of a place, in the section,
or in the call of `unlock` and going on at a place. -/
inductive Spot (D P Q ι : Type) where
  | out (p : P)
  | locking (p : P)
  | inside (b : Body D P Q ι)
  | unlocking (p : P)

/-- The place of a party that is in no section. -/
def Spot.place : Spot D P Q ι → Option P
  | .out p => some p
  | .locking p => some p
  | .inside _ => none
  | .unlocking p => some p

def Spot.asleep (asleep : Q → P → Bool) (q : Q) : Spot D P Q ι → Bool
  | .out p => asleep q p
  | _ => false

def Spot.resume (resume : Q → P → P) (q : Q) : Spot D P Q ι → Spot D P Q ι
  | .out p => .out (resume q p)
  | c => c

/-- A state of the system of single steps. -/
structure Fine (L : Lock τ) (D P Q ι : Type) where
  lock : L.State
  data : D
  spot : τ → Spot D P Q ι

inductive FineAction (L : Lock τ) (ι ω : Type) where
  | outer (t : τ) (o : ω)
  | lock (t : τ)
  | within (a : L.Action)
  | enter (t : τ)
  | instr (t : τ)
  | ask (t : τ) (i : ι)
  | leave (t : τ) (woken : Option τ)
  | finish (t : τ)

section Fine

variable {L : Lock τ} [Fintype τ] [DecidableEq τ]

def Fine.goto (c : Fine L D P Q ι) (t : τ) (x : Spot D P Q ι) : Fine L D P Q ι :=
  { c with spot := Function.update c.spot t x }

/-- One step of the system of single steps. The wake of a section is the last thing it does before
it calls `unlock`. -/
def fineStep (C : Code τ D P Q ι ω) (c : Fine L D P Q ι) : FineAction L ι ω → Option (Fine L D P Q ι)
  | .outer t o => match c.spot t with
    | .out p => (C.outer c.data t p o).map fun r => { c with data := r.1 }.goto t (.out r.2)
    | _ => none
  | .lock t => match c.spot t with
    | .out p => if (C.enter t p).isSome then (L.lock c.lock t).map fun l => { c with lock := l }.goto t (.locking p)
        else none
    | _ => none
  | .within a => (L.step c.lock a).map fun l => { c with lock := l }
  | .enter t => match c.spot t with
    | .locking p => if L.phase c.lock t = .held then (C.enter t p).map fun b => c.goto t (.inside b) else none
    | _ => none
  | .instr t => match c.spot t with
    | .inside (.instr effect rest) => some ({ c with data := effect c.data }.goto t (.inside (rest c.data)))
    | _ => none
  | .ask t i => match c.spot t with
    | .inside (.ask rest) => some (c.goto t (.inside (rest i)))
    | _ => none
  | .leave t woken => match c.spot t with
    | .inside (.done w p) => (L.unlock c.lock t).bind fun l =>
        (wake (Spot.asleep C.asleep) (Spot.resume C.resume) w woken (c.goto t (.unlocking p)).spot).map fun spot =>
          { c with lock := l, spot := spot }
    | _ => none
  | .finish t => match c.spot t with
    | .unlocking p => if L.phase c.lock t = .free then some (c.goto t (.out p)) else none
    | _ => none

def FineAdmitted (ok : Demands τ D P ω) (c : Fine L D P Q ι) : FineAction L ι ω → Prop
  | .outer t o => ∀ p, c.spot t = .out p → ok.outer c.data t p o
  | .leave _ _ => ok.leave c.data
  | _ => True

/-- Nobody is in a section. -/
def Fine.Quiet (c : Fine L D P Q ι) : Prop := ∀ t b, c.spot t ≠ .inside b

/-- The system of single steps begins as the atomic one, with nobody in a call of the lock. -/
def FineInitial (init : State τ D P → Prop) (c : Fine L D P Q ι) : Prop :=
  ∃ s, init s ∧ c = ⟨L.start, s.data, fun t => .out (s.place t)⟩

end Fine

section Decidable

variable {L : Lock τ}

instance {ok : Demands τ D P ω} [∀ d t p o, Decidable (ok.outer d t p o)] [∀ d, Decidable (ok.leave d)] (c : Fine L D P Q ι) :
    (a : FineAction L ι ω) → Decidable (FineAdmitted ok c a)
  | .outer t o => match h : c.spot t with
    | .out p => decidable_of_iff (ok.outer c.data t p o)
        ⟨fun hp _ hq => Spot.out.inj (h.symm.trans hq) ▸ hp, fun hall => hall p h⟩
    | .locking _ => isTrue fun _ hp => nomatch h.symm.trans hp
    | .inside _ => isTrue fun _ hp => nomatch h.symm.trans hp
    | .unlocking _ => isTrue fun _ hp => nomatch h.symm.trans hp
  | .leave _ _ => inferInstanceAs (Decidable (ok.leave _))
  | .lock _ | .within _ | .enter _ | .instr _ | .ask _ _ | .finish _ => isTrue trivial

theorem quiet_iff (c : Fine L D P Q ι) : c.Quiet ↔ ∀ t, (c.spot t).place.isSome := by
  refine forall_congr' fun t => ?_
  cases c.spot t <;> simp [Spot.place]

instance [Fintype τ] (c : Fine L D P Q ι) : Decidable c.Quiet := decidable_of_iff _ (quiet_iff c).symm

end Decidable

end CriticalSections

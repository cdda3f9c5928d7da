import ThreadBites.Descriptors

/-!
# Conditions on runs

They name the ways in which the code goes wrong: a thread ends before its create
has stored the id, a join is let in where the thread is not there yet or releases
its descriptor itself, the scheduling of a new thread fails when it runs already
or is joined, and a descriptor is released that is in no list.
-/
namespace ThreadBites.Threads

variable {τ δ : Type}

/-- The descriptor has a thread whose id is in it, that does not release it itself, and that its create
does not give up. -/
def Joinable (s : State τ δ) (d : δ) : Prop :=
  match s.role d with
  | .lent u => (s.phase u = .born → (s.record u).stored = true) ∧ s.phase u ≠ .releasing ∧
      (s.mem d).startStatus ≠ .exit
  | _ => False

/-- A create lets its thread run if no create gave up the thread of the descriptor, and gives it up if
nobody joins it and it does not run. -/
def Settles (s : State τ δ) : Pc τ δ → Prop
  | .storeStart d _ true => (s.mem d).startStatus ≠ .exit
  | .storeStart d u false => (s.mem d).joiner = none ∧ (s.phase u).early = true
  | _ => True

/-- The handle came from a create that has returned, and its descriptor was not released. -/
def Handle (s : State τ δ) (d : δ) (u : τ) : Prop := s.role d = .lent u ∧ (s.record u).returned = true

variable [DecidableEq τ]

/-- About to store the id of `u`. -/
def Pc.stores (u : τ) : Pc τ δ → Bool
  | .storeTid _ _ v => v = u
  | _ => false

/-- The conditions on a step under which descriptors stay in order. -/
def Orderly (s : State τ δ) : Action τ δ → Prop
  | .terminate u => ∀ v, (s.pc v).stores u = false
  | .join t d => d ≠ s.self t → d ∈ s.used → (s.mem d).joinStatus ≠ .detached → (s.mem d).joiner = none → Joinable s d
  | .next t => Settles s (s.pc t)
  | _ => True

/-- The conditions on a step under which descriptors are released once: besides being orderly, the guard
page is granted, the initial thread does not end by `tbthread_exit`, and a detached thread does not join
itself, which is answered with `-EDEADLK`. -/
def Careful (main : τ) (s : State τ δ) (a : Action τ δ) : Prop :=
  Orderly s a ∧ match a with
    | .mprotect _ granted => granted = true
    | .exitSection t => t ≠ main
    | .join t d => d = s.self t → ∀ u, s.last d = some u → (s.record u).detached = false
    | _ => True

/-- `clone` and the store of the id are one step, scheduling does not fail, handles are joined and detached
while they are valid, and no thread is joined that is detached. -/
def Proper (s : State τ δ) (a : Action τ δ) : Prop :=
  (∀ t u, (s.pc t).stores u = true → a = .next t) ∧ match a with
    | .setSched _ ok => ok = true
    | .detach _ d => ∃ u, Handle s d u
    | .join _ d => ∃ u, Handle s d u ∧ (s.record u).detached = false
    | _ => True

variable [DecidableEq δ]

instance (s : State τ δ) (d : δ) : Decidable (Joinable s d) := by
  unfold Joinable
  split <;> infer_instance

instance (s : State τ δ) (p : Pc τ δ) : Decidable (Settles s p) := by
  unfold Settles
  split <;> infer_instance

instance (s : State τ δ) (d : δ) (u : τ) : Decidable (Handle s d u) := by
  unfold Handle
  infer_instance

variable [Fintype τ]

instance (s : State τ δ) (a : Action τ δ) : Decidable (Orderly s a) := by
  cases a <;> unfold Orderly <;> infer_instance

instance (main : τ) (s : State τ δ) (a : Action τ δ) : Decidable (Careful main s a) := by
  cases a <;> unfold Careful <;> infer_instance

instance (s : State τ δ) (a : Action τ δ) : Decidable (Proper s a) := by
  cases a <;> unfold Proper <;> infer_instance

end ThreadBites.Threads

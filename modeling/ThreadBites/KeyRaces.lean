import ThreadBites.Keys

/-!
# Concurrent creation and deletion of keys

`KEY_UNUSED` reads the sequence number of a slot, and the compare-and-swap of
`KEY_ACQUIRE` and `KEY_RELEASE` comes after two more reads of it, whose order
the language leaves open. Each read and each compare-and-swap is a step.
-/
namespace ThreadBites.KeyRaces

open Transition Keys

variable {τ φ : Type}

inductive Call (φ : Type) where
  | create (destructor : Option φ)
  | delete
  deriving DecidableEq, Repr

/-- Where a thread is. `created` and `deleted` are outside, with what the last call returned; `reread` has
the expected and the new value of the swap as far as they are read. -/
inductive Pc (φ : Type) where
  | out
  | created (ret : Int) (key : Option Nat)
  | deleted (key : Nat) (ret : Int)
  | test (f : Call φ) (i : Nat)
  | reread (f : Call φ) (i : Nat) (expected new : Option Nat)
  | storeDestructor (destructor : Option φ) (i : Nat)
  deriving DecidableEq, Repr

def Pc.outside : Pc φ → Bool
  | .out => true
  | .created .. => true
  | .deleted .. => true
  | _ => false

/-- A compare-and-swap that succeeded. -/
inductive Swap (τ : Type) where
  | acquired (t : τ) (key : Nat)
  | released (t : τ) (key : Nat)
  deriving DecidableEq, Repr

def Swap.acquires (key : Nat) : Swap τ → Bool
  | .acquired _ k => k = key
  | .released _ _ => false

def Swap.releases (key : Nat) : Swap τ → Bool
  | .acquired _ _ => false
  | .released _ k => k = key

/-- `log` has the successful swaps, newest first, and `called` what it had when the thread's last call
began; no step reads them. -/
structure State (τ φ : Type) where
  keys : Nat → Slot φ
  pc : τ → Pc φ
  log : List (Swap τ)
  called : τ → List (Swap τ)

def State.start : State τ φ where
  keys := fun _ => ⟨0, none⟩
  pc := fun _ => .out
  log := []
  called := fun _ => []

def Initial (s : State τ φ) : Prop := s = State.start

/-- A call, or the next access of a thread. -/
inductive Action (τ φ : Type) where
  | keyCreate (t : τ) (destructor : Option φ)
  | keyDelete (t : τ) (key : Nat)
  | test (t : τ)
  | readExpected (t : τ)
  | readNew (t : τ)
  | swap (t : τ)
  | storeDestructor (t : τ)
  deriving DecidableEq, Repr

/-- The parity that `KEY_UNUSED` has to find for a call to go on. -/
def Call.wants : Call φ → Bool
  | .create _ => true
  | .delete => false

/-- Where a call goes that does not get slot `i`. -/
def Call.failed : Call φ → Nat → Pc φ
  | .create destructor, i => if i + 1 < maxKeys then .test (.create destructor) (i + 1) else .created (-ENOMEM) none
  | .delete, i => .deleted i (-EINVAL)

/-- Where a call goes whose compare-and-swap succeeds. -/
def Call.succeeded : Call φ → Nat → Pc φ
  | .create destructor, i => .storeDestructor destructor i
  | .delete, i => .deleted i 0

def Call.entry (t : τ) : Call φ → Nat → Swap τ
  | .create _, i => .acquired t i
  | .delete, i => .released t i

variable [DecidableEq τ]

def State.goto (s : State τ φ) (t : τ) (c : Pc φ) : State τ φ :=
  { s with pc := Function.update s.pc t c }

/-- A call begins. -/
def State.call (s : State τ φ) (t : τ) (c : Pc φ) : State τ φ :=
  { s with called := Function.update s.called t s.log }.goto t c

/-- The compare-and-swap of a call succeeds. -/
def State.swapped (s : State τ φ) (t : τ) (f : Call φ) (i new : Nat) : State τ φ :=
  { s with
    keys := Function.update s.keys i { s.keys i with seq := new }
    log := f.entry t i :: s.log }.goto t (f.succeeded i)

def step (s : State τ φ) : Action τ φ → Option (State τ φ)
  | .keyCreate t destructor =>
      if (s.pc t).outside then some (s.call t (.test (.create destructor) 0)) else none
  | .keyDelete t key =>
      if (s.pc t).outside then
        some (s.call t (if maxKeys ≤ key then .deleted key (-EINVAL) else .test .delete key))
      else none
  | .test t => match s.pc t with
    | .test f i =>
        some (s.goto t (if keyUnused (s.keys i).seq = f.wants then .reread f i none none else f.failed i))
    | _ => none
  | .readExpected t => match s.pc t with
    | .reread f i none new => some (s.goto t (.reread f i (some (s.keys i).seq) new))
    | _ => none
  | .readNew t => match s.pc t with
    | .reread f i expected none => some (s.goto t (.reread f i expected (some (increment (s.keys i).seq))))
    | _ => none
  | .swap t => match s.pc t with
    | .reread f i (some expected) (some new) =>
        some (if (s.keys i).seq = expected then s.swapped t f i new else s.goto t (f.failed i))
    | _ => none
  | .storeDestructor t => match s.pc t with
    | .storeDestructor destructor i =>
        some ({ s with keys := Function.update s.keys i { s.keys i with destructor := destructor } }.goto t
          (.created 0 (some i)))
    | _ => none

/-- A compare-and-swap that succeeds has an expected value of the parity that `KEY_UNUSED` found, and a new
value of the other one. -/
def Apt (s : State τ φ) : Action τ φ → Prop
  | .swap t => match s.pc t with
    | .reread f i (some expected) (some new) =>
        (s.keys i).seq = expected → keyUnused expected = f.wants ∧ keyUnused new = !f.wants
    | _ => True
  | _ => True

instance (s : State τ φ) (a : Action τ φ) : Decidable (Apt s a) := by
  cases a <;> simp only [Apt] <;> first | infer_instance | (split <;> infer_instance)

/-- What a step does, case by case. -/
inductive Stepped (s : State τ φ) : Action τ φ → State τ φ → Prop where
  | keyCreate {t destructor} (ho : (s.pc t).outside = true) :
      Stepped s (.keyCreate t destructor) (s.call t (.test (.create destructor) 0))
  | keyDelete {t key} (ho : (s.pc t).outside = true) (hk : key < maxKeys) :
      Stepped s (.keyDelete t key) (s.call t (.test .delete key))
  | outOfRange {t key} (ho : (s.pc t).outside = true) (hk : maxKeys ≤ key) :
      Stepped s (.keyDelete t key) (s.call t (.deleted key (-EINVAL)))
  | passed {t f i} (hpc : s.pc t = .test f i) (hw : keyUnused (s.keys i).seq = f.wants) :
      Stepped s (.test t) (s.goto t (.reread f i none none))
  | turned {t f i} (hpc : s.pc t = .test f i) (hw : keyUnused (s.keys i).seq ≠ f.wants) :
      Stepped s (.test t) (s.goto t (f.failed i))
  | readExpected {t f i new} (hpc : s.pc t = .reread f i none new) :
      Stepped s (.readExpected t) (s.goto t (.reread f i (some (s.keys i).seq) new))
  | readNew {t f i expected} (hpc : s.pc t = .reread f i expected none) :
      Stepped s (.readNew t) (s.goto t (.reread f i expected (some (increment (s.keys i).seq))))
  | swapped {t f i new} (hpc : s.pc t = .reread f i (some (s.keys i).seq) (some new)) :
      Stepped s (.swap t) (s.swapped t f i new)
  | missed {t f i expected new} (hpc : s.pc t = .reread f i (some expected) (some new))
      (he : (s.keys i).seq ≠ expected) : Stepped s (.swap t) (s.goto t (f.failed i))
  | stored {t destructor i} (hpc : s.pc t = .storeDestructor destructor i) :
      Stepped s (.storeDestructor t)
        ({ s with keys := Function.update s.keys i { s.keys i with destructor := destructor } }.goto t
          (.created 0 (some i)))

theorem step_stepped {s s' : State τ φ} {a : Action τ φ} (h : step s a = some s') : Stepped s a s' := by
  cases a with
  | keyCreate t destructor =>
    simp only [step, Option.ite_none_right_eq_some, Option.some.injEq] at h
    exact h.2 ▸ .keyCreate h.1
  | keyDelete t key =>
    simp only [step, Option.ite_none_right_eq_some, Option.some.injEq] at h
    obtain ⟨ho, rfl⟩ := h
    split
    · rename_i hk; exact .outOfRange ho hk
    · rename_i hk; exact .keyDelete ho (by omega)
  | test t =>
    simp only [step] at h
    split at h
    · rename_i hpc
      cases h
      split
      · rename_i hw; exact .passed hpc hw
      · rename_i hw; exact .turned hpc hw
    · cases h
  | readExpected t =>
    simp only [step] at h
    split at h
    · rename_i hpc; cases h; exact .readExpected hpc
    · cases h
  | readNew t =>
    simp only [step] at h
    split at h
    · rename_i hpc; cases h; exact .readNew hpc
    · cases h
  | swap t =>
    simp only [step] at h
    split at h
    · rename_i f i expected new hpc
      cases h
      split
      · rename_i he; subst he; exact .swapped hpc
      · rename_i he; exact .missed hpc he
    · cases h
  | storeDestructor t =>
    simp only [step] at h
    split at h
    · rename_i hpc; cases h; exact .stored hpc
    · cases h

end ThreadBites.KeyRaces

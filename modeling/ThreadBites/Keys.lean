import ThreadBites.Transition

/-!
# Keys of thread-specific data

The functions of `tb-tls.c`, each taken as atomic. A slot of `keys` is in use
when its sequence number is odd. Next to each value a thread keeps the sequence
number that the slot had when the value was set.
-/
namespace ThreadBites.Keys

variable {ν φ : Type}

def ENOMEM : Int := 12

def EINVAL : Int := 22

def maxKeys : Nat := 1024

/-- An element of `keys`; a null destructor is `none`. -/
structure Slot (φ : Type) where
  seq : Nat
  destructor : Option φ
  deriving DecidableEq, Repr

/-- An element of the `tls` array of a descriptor; a null pointer is `none`. -/
structure Cell (ν : Type) where
  seq : Nat
  data : Option ν
  deriving DecidableEq, Repr

/-- `KEY_UNUSED` of a sequence number. -/
def keyUnused (seq : Nat) : Bool := seq % 2 = 0

/-- The 64-bit increment of `KEY_ACQUIRE` and `KEY_RELEASE`. -/
def increment (seq : Nat) : Nat := (seq + 1) % 2 ^ 64

/-- Swap in the next sequence number of slot `i`. -/
def bump (keys : Nat → Slot φ) (i : Nat) : Nat → Slot φ :=
  Function.update keys i { keys i with seq := increment (keys i).seq }

/-- The loop of `tbthread_key_create` at slot `i` with `n` slots to go: the return value, what it stores
in `*key`, and the slots. -/
def createLoop (keys : Nat → Slot φ) (destructor : Option φ) (i : Nat) :
    Nat → Int × Option Nat × (Nat → Slot φ)
  | 0 => (-ENOMEM, none, keys)
  | n + 1 =>
      if keyUnused (keys i).seq then
        (0, some i, Function.update (bump keys i) i { bump keys i i with destructor := destructor })
      else createLoop keys destructor (i + 1) n

def keyCreate (keys : Nat → Slot φ) (destructor : Option φ) : Int × Option Nat × (Nat → Slot φ) :=
  createLoop keys destructor 0 maxKeys

def keyDelete (keys : Nat → Slot φ) (key : Nat) : Int × (Nat → Slot φ) :=
  if maxKeys ≤ key then (-EINVAL, keys)
  else if keyUnused (keys key).seq then (-EINVAL, keys)
  else (0, bump keys key)

/-- `tbthread_getspecific` in a thread with the array `tls`. -/
def getspecific (keys : Nat → Slot φ) (tls : Nat → Cell ν) (key : Nat) : Option ν :=
  if maxKeys ≤ key ∨ keyUnused (keys key).seq then none
  else if (tls key).seq = (keys key).seq then (tls key).data else none

def setspecific (keys : Nat → Slot φ) (tls : Nat → Cell ν) (key : Nat) (value : Option ν) :
    Int × (Nat → Cell ν) :=
  if maxKeys ≤ key ∨ keyUnused (keys key).seq then (-EINVAL, tls)
  else (0, Function.update tls key ⟨(keys key).seq, value⟩)

/-- What `tbthread_create` and `tbthread_init` make of the array with `memset`. -/
def clearedTls : Nat → Cell ν := fun _ => ⟨0, none⟩

@[simp] theorem keyUnused_eq_true (seq : Nat) : keyUnused seq = true ↔ seq % 2 = 0 := by simp [keyUnused]

@[simp] theorem keyUnused_eq_false (seq : Nat) : keyUnused seq = false ↔ seq % 2 = 1 := by simp [keyUnused]

theorem increment_of_lt {seq : Nat} (h : seq + 1 < 2 ^ 64) : increment seq = seq + 1 := Nat.mod_eq_of_lt h

@[simp] theorem bump_self (keys : Nat → Slot φ) (i : Nat) : (bump keys i i).seq = increment (keys i).seq := by
  simp [bump]

theorem bump_of_ne (keys : Nat → Slot φ) {i k : Nat} (h : k ≠ i) : bump keys i k = keys k := by
  simp [bump, h]

/-- The loop takes the first free slot of those it looks at, or fails if there is none. -/
theorem createLoop_spec (keys : Nat → Slot φ) (destructor : Option φ) (i n : Nat) :
    (∃ k, i ≤ k ∧ k < i + n ∧ (keys k).seq % 2 = 0 ∧ (∀ m, i ≤ m → m < k → (keys m).seq % 2 = 1) ∧
      createLoop keys destructor i n =
        (0, some k, Function.update (bump keys k) k { bump keys k k with destructor := destructor })) ∨
    (∀ m, i ≤ m → m < i + n → (keys m).seq % 2 = 1) ∧ createLoop keys destructor i n = (-ENOMEM, none, keys) := by
  induction n generalizing i with
  | zero => exact .inr ⟨fun m hm hlt => by omega, rfl⟩
  | succ n ih =>
    by_cases hi : keyUnused (keys i).seq = true
    · left
      refine ⟨i, Nat.le_refl i, by omega, (keyUnused_eq_true _).mp hi, fun m hm hlt => by omega, ?_⟩
      simp only [createLoop, hi, if_true]
    · have hodd : (keys i).seq % 2 = 1 := by simpa using hi
      have hfirst : ∀ k, (∀ m, i + 1 ≤ m → m < k → (keys m).seq % 2 = 1) →
          ∀ m, i ≤ m → m < k → (keys m).seq % 2 = 1 := by
        intro k h m hm hlt
        by_cases he : m = i
        · rw [he]; exact hodd
        · exact h m (by omega) hlt
      have hloop : createLoop keys destructor i (n + 1) = createLoop keys destructor (i + 1) n := by
        simp only [createLoop, hi, if_false, Bool.false_eq_true]
      rw [hloop]
      rcases ih (i + 1) with ⟨k, hk, hlt, heven, hbefore, he⟩ | ⟨hall, he⟩
      · exact .inl ⟨k, by omega, by omega, heven, hfirst k hbefore, he⟩
      · exact .inr ⟨fun m hm hlt => hfirst (i + 1 + n) hall m hm (by omega), he⟩

/-- A key that is created was free, and its slot gets the next number and the destructor. -/
theorem keyCreate_spec (keys : Nat → Slot φ) (destructor : Option φ) :
    (∃ k, k < maxKeys ∧ (keys k).seq % 2 = 0 ∧
      keyCreate keys destructor =
        (0, some k, Function.update (bump keys k) k { bump keys k k with destructor := destructor })) ∨
    (∀ k, k < maxKeys → (keys k).seq % 2 = 1) ∧ keyCreate keys destructor = (-ENOMEM, none, keys) := by
  rcases createLoop_spec keys destructor 0 maxKeys with ⟨k, -, hlt, heven, -, he⟩ | ⟨hall, he⟩
  · exact .inl ⟨k, by omega, heven, he⟩
  · exact .inr ⟨fun k hk => hall k (Nat.zero_le k) (by omega), he⟩

theorem keyDelete_spec (keys : Nat → Slot φ) (key : Nat) :
    (key < maxKeys ∧ (keys key).seq % 2 = 1 ∧ keyDelete keys key = (0, bump keys key)) ∨
    ((maxKeys ≤ key ∨ (keys key).seq % 2 = 0) ∧ keyDelete keys key = (-EINVAL, keys)) := by
  unfold keyDelete
  by_cases hr : maxKeys ≤ key
  · exact .inr ⟨.inl hr, by rw [if_pos hr]⟩
  · by_cases hu : keyUnused (keys key).seq = true
    · exact .inr ⟨.inr ((keyUnused_eq_true _).mp hu), by rw [if_neg hr, if_pos hu]⟩
    · exact .inl ⟨by omega, by simpa using hu, by rw [if_neg hr, if_neg hu]⟩

theorem setspecific_spec (keys : Nat → Slot φ) (tls : Nat → Cell ν) (key : Nat) (value : Option ν) :
    (key < maxKeys ∧ (keys key).seq % 2 = 1 ∧
      setspecific keys tls key value = (0, Function.update tls key ⟨(keys key).seq, value⟩)) ∨
    ((maxKeys ≤ key ∨ (keys key).seq % 2 = 0) ∧ setspecific keys tls key value = (-EINVAL, tls)) := by
  unfold setspecific
  by_cases h : maxKeys ≤ key ∨ keyUnused (keys key).seq = true
  · exact .inr ⟨by simpa using h, by rw [if_pos h]⟩
  · have h' := h
    simp only [not_or, Nat.not_le, Bool.not_eq_true, keyUnused_eq_false] at h'
    exact .inl ⟨h'.1, h'.2, by rw [if_neg h]⟩

end ThreadBites.Keys

import ThreadBites.Transition

/-!
# cancel_status

Four bits of a byte say whether a thread lets itself be cancelled, whether it
waits for `tbthread_testcancel` with that, whether it was asked to, and whether
it has begun.
-/
namespace ThreadBites.Cancel

def TB_CANCEL_ENABLED : BitVec 8 := 0x01

def TB_CANCEL_DEFERRED : BitVec 8 := 0x02

def TB_CANCELING : BitVec 8 := 0x04

def TB_CANCELED : BitVec 8 := 0x08

inductive Bit where
  | enabled
  | deferred
  | canceling
  | canceled
  deriving DecidableEq, Repr

def Bit.mask : Bit → BitVec 8
  | .enabled => TB_CANCEL_ENABLED
  | .deferred => TB_CANCEL_DEFERRED
  | .canceling => TB_CANCELING
  | .canceled => TB_CANCELED

/-- `val & bitmask`. -/
def has (b : Bit) (val : BitVec 8) : Bool := val &&& b.mask ≠ 0

/-- `newval |= bitmask`, or `newval &= ~bitmask`. -/
def put (b : Bit) (value : Bool) (val : BitVec 8) : BitVec 8 :=
  if value then val ||| b.mask else val &&& ~~~b.mask

theorem mask_ne_zero (b : Bit) : b.mask ≠ 0#8 := by
  cases b <;> decide

theorem mask_and_mask (b b' : Bit) : b'.mask &&& b.mask = if b = b' then b.mask else 0 := by
  cases b <;> cases b' <;> rfl

theorem not_mask_and_mask (b b' : Bit) : ~~~b'.mask &&& b.mask = if b = b' then 0 else b.mask := by
  cases b <;> cases b' <;> rfl

/-- A bit that is set or cleared leaves the others. -/
@[simp] theorem has_put (b b' : Bit) (value : Bool) (val : BitVec 8) :
    has b (put b' value val) = if b = b' then value else has b val := by
  have hne := mask_ne_zero b
  cases value with
  | true =>
    have hand : (val ||| b'.mask) &&& b.mask = (val &&& b.mask) ||| (b'.mask &&& b.mask) :=
      BitVec.and_or_distrib_right
    rw [mask_and_mask] at hand
    simp only [has, put, if_true, hand]
    split <;> simp [hne]
  | false =>
    have hand : (val &&& ~~~b'.mask) &&& b.mask = val &&& (~~~b'.mask &&& b.mask) := BitVec.and_assoc ..
    rw [not_mask_and_mask] at hand
    simp only [has, put, Bool.false_eq_true, if_false, hand]
    split <;> simp

/-- The status that `tbthread_create` gives a thread. -/
def createdStatus : BitVec 8 := TB_CANCEL_ENABLED ||| TB_CANCEL_DEFERRED

/-- `tbthread_testcancel` does not return. -/
def acts (val : BitVec 8) : Bool := has .enabled val && has .canceling val && !has .canceled val

/-- The thread is to be signalled. -/
def signals (val : BitVec 8) : Bool := has .enabled val && !has .deferred val

theorem acts_iff {val : BitVec 8} :
    acts val = true ↔ has .enabled val = true ∧ has .canceling val = true ∧ has .canceled val = false := by
  simp [acts, and_assoc]

end ThreadBites.Cancel

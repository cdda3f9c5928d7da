import Mathlib

/-!
# Scheduling settings

A policy with a priority, as `SCHED_INFO_PACK` packs them. Of several settings
the code takes one with the highest priority, and among those the first one that
is not `SCHED_RR`. For the settings that the kernel accepts this is the largest
one in a linear order.
-/
namespace ThreadBites.Sched

inductive Policy where
  | normal
  | fifo
  | rr
  deriving DecidableEq, Repr

/-- The `sched_info` of a thread, of a mutex or of an entry for one. -/
structure SchedInfo where
  policy : Policy
  priority : Nat
  deriving DecidableEq, Repr

/-- A field that `memset` has cleared. -/
def SchedInfo.zero : SchedInfo := ⟨.normal, 0⟩

/-- The pairs that `sched_setscheduler` accepts. -/
def SchedInfo.Valid (i : SchedInfo) : Prop :=
  match i.policy with
  | .normal => i.priority = 0
  | _ => 1 ≤ i.priority ∧ i.priority ≤ 99

instance (i : SchedInfo) : Decidable i.Valid := by
  unfold SchedInfo.Valid
  split <;> infer_instance

/-- The comparison made wherever a setting may replace another one: a higher priority, or the same
priority where the other policy is `SCHED_RR`. -/
def raises (a b : SchedInfo) : Bool :=
  a.priority < b.priority || (a.priority = b.priority && a.policy = .rr)

def raise (a b : SchedInfo) : SchedInfo := if raises a b then b else a

/-- Where a setting stands: by priority, and `SCHED_RR` below the others of its priority. -/
def SchedInfo.rank (i : SchedInfo) : Nat := 2 * i.priority + if i.policy = .rr then 0 else 1

theorem zero_valid : SchedInfo.zero.Valid := rfl

theorem fifo_valid {n : Nat} (h : 1 ≤ n) (h' : n ≤ 99) : SchedInfo.Valid ⟨.fifo, n⟩ := ⟨h, h'⟩

/-- Valid settings of one rank are the same. -/
theorem rank_inj {a b : SchedInfo} (ha : a.Valid) (hb : b.Valid) (h : a.rank = b.rank) : a = b := by
  obtain ⟨pa, na⟩ := a
  obtain ⟨pb, nb⟩ := b
  cases pa <;> cases pb <;> simp [SchedInfo.Valid, SchedInfo.rank] at ha hb h ⊢ <;> omega

theorem priority_le_of_rank {a b : SchedInfo} (h : a.rank ≤ b.rank) : a.priority ≤ b.priority := by
  simp only [SchedInfo.rank] at h
  split at h <;> split at h <;> omega

/-- Replacing a setting gives the one of higher rank. -/
theorem raise_eq (a b : SchedInfo) : raise a b = if a.rank < b.rank then b else a := by
  obtain ⟨pa, na⟩ := a
  obtain ⟨pb, nb⟩ := b
  rcases Nat.lt_trichotomy na nb with h | rfl | h
  · have hr : raises ⟨pa, na⟩ ⟨pb, nb⟩ = true := by simp [raises, h]
    rw [raise, if_pos hr, if_pos]
    simp only [SchedInfo.rank]
    split <;> split <;> omega
  · cases pa <;> cases pb <;> simp [raise, raises, SchedInfo.rank]
  · have hr : raises ⟨pa, na⟩ ⟨pb, nb⟩ = false := by simp [raises]; omega
    rw [raise, if_neg (by simp [hr]), if_neg]
    simp only [SchedInfo.rank]
    split <;> split <;> omega

theorem raise_rank (a b : SchedInfo) : (raise a b).rank = max a.rank b.rank := by
  rw [raise_eq]
  split <;> omega

theorem raise_valid {a b : SchedInfo} (ha : a.Valid) (hb : b.Valid) : (raise a b).Valid := by
  unfold raise
  split
  · exact hb
  · exact ha

/-- `r` is among the settings and none of them is of a higher rank. -/
structure Strongest (l : List SchedInfo) (r : SchedInfo) : Prop where
  mem : r ∈ l
  le : ∀ x ∈ l, x.rank ≤ r.rank

/-- Replacing settings one after the other ends with the strongest one. -/
theorem foldl_raise_strongest (a : SchedInfo) (l : List SchedInfo) : Strongest (a :: l) (l.foldl raise a) := by
  induction l generalizing a with
  | nil => exact ⟨List.mem_cons_self .., fun x hx => by simp at hx; simp [hx]⟩
  | cons b l ih =>
    obtain ⟨hmem, hle⟩ := ih (raise a b)
    have hrank := raise_rank a b
    have hraise := hle (raise a b) (List.mem_cons_self ..)
    refine ⟨?_, fun x hx => ?_⟩
    · rcases List.mem_cons.mp hmem with he | hmem
      · rw [List.foldl_cons, he, raise_eq]
        split <;> simp
      · exact List.mem_cons_of_mem a (List.mem_cons_of_mem b hmem)
    · rw [List.foldl_cons]
      rcases List.mem_cons.mp hx with rfl | hx
      · omega
      · rcases List.mem_cons.mp hx with rfl | hx
        · omega
        · exact hle x (List.mem_cons_of_mem _ hx)

namespace Strongest

variable {l k : List SchedInfo} {r s : SchedInfo}

/-- Valid settings have one strongest. -/
theorem unique (hl : ∀ x ∈ l, x.Valid) (h : Strongest l r) (h' : Strongest l s) : r = s :=
  rank_inj (hl r h.mem) (hl s h'.mem) (Nat.le_antisymm (h'.le r h.mem) (h.le s h'.mem))

/-- Settings may be left out, and weaker ones put in, as long as the strongest one stays. -/
theorem of_le (h : Strongest l r) (hm : r ∈ k) (hk : ∀ x ∈ k, ∃ y ∈ l, x.rank ≤ y.rank) : Strongest k r where
  mem := hm
  le x hx := by
    obtain ⟨y, hy, hle⟩ := hk x hx
    exact Nat.le_trans hle (h.le y hy)

theorem priority_le (h : Strongest l r) {x : SchedInfo} (hx : x ∈ l) : x.priority ≤ r.priority :=
  priority_le_of_rank (h.le x hx)

end Strongest

/-- The policy of the first setting of a priority that is not `SCHED_RR`, else `SCHED_RR`. -/
def firstPolicy (priority : Nat) (l : List SchedInfo) : Policy :=
  match l.find? fun i => i.priority = priority ∧ i.policy ≠ .rr with
  | some i => i.policy
  | none => .rr

/-- The strongest of valid settings has the policy of the first one of its priority that is not
`SCHED_RR`. -/
theorem Strongest.firstPolicy {l : List SchedInfo} {r : SchedInfo} (hl : ∀ x ∈ l, x.Valid) (h : Strongest l r) :
    firstPolicy r.priority l = r.policy := by
  unfold Sched.firstPolicy
  split
  · rename_i i hi
    have hmem := List.mem_of_find?_eq_some hi
    have hp := List.find?_some hi
    simp only [ne_eq, decide_eq_true_eq] at hp
    have hle := h.le i hmem
    simp only [SchedInfo.rank, hp.1, if_neg hp.2] at hle
    have hr : r.policy ≠ .rr := by
      intro hr
      rw [if_pos hr] at hle
      omega
    rw [rank_inj (hl i hmem) (hl r h.mem) (by simp [SchedInfo.rank, hp.1, hp.2, hr])]
  · rename_i hnone
    have := List.find?_eq_none.mp hnone r h.mem
    simp only [ne_eq, true_and, decide_eq_true_eq, Decidable.not_not] at this
    exact this.symm

end ThreadBites.Sched

import Mathlib

/-!
# Pieces laid end to end

A row of pieces starts at an address and each piece begins where the one before
it ends, so the row determines every address and no two pieces overlap.
-/
namespace Tiling

variable {ι : Type} (len : ι → Nat)

/-- Where a row that starts at `a` stops. -/
def stop (a : Nat) : List ι → Nat
  | [] => a
  | x :: l => stop (a + len x) l

/-- The pieces of a row that starts at `a`, with their addresses. -/
def laid (a : Nat) : List ι → List (Nat × ι)
  | [] => []
  | x :: l => (a, x) :: laid (a + len x) l

theorem stop_append (a : Nat) (l r : List ι) : stop len a (l ++ r) = stop len (stop len a l) r := by
  induction l generalizing a with
  | nil => rfl
  | cons x l ih => exact ih (a + len x)

theorem le_stop (a : Nat) (l : List ι) : a ≤ stop len a l := by
  induction l generalizing a with
  | nil => exact Nat.le_refl a
  | cons x l ih => exact Nat.le_trans (Nat.le_add_right a (len x)) (ih (a + len x))

theorem laid_append (a : Nat) (l r : List ι) :
    laid len a (l ++ r) = laid len a l ++ laid len (stop len a l) r := by
  induction l generalizing a with
  | nil => rfl
  | cons x l ih => simp only [List.cons_append, laid, stop, ih]

theorem length_laid (a : Nat) (l : List ι) : (laid len a l).length = l.length := by
  induction l generalizing a with
  | nil => rfl
  | cons x l ih => simp only [laid, List.length_cons, ih]

variable {len}

theorem laid_bounds {a : Nat} {l : List ι} {p : Nat × ι} (h : p ∈ laid len a l) :
    a ≤ p.1 ∧ p.1 + len p.2 ≤ stop len a l := by
  induction l generalizing a with
  | nil => cases h
  | cons x l ih =>
    rcases List.mem_cons.mp h with rfl | h
    · exact ⟨Nat.le_refl a, le_stop len (a + len x) l⟩
    · obtain ⟨hl, hh⟩ := ih h
      exact ⟨by omega, hh⟩

/-- Two pieces of a row are the same, or one ends before the other begins. -/
theorem laid_apart {a : Nat} {l : List ι} {p q : Nat × ι} (hp : p ∈ laid len a l) (hq : q ∈ laid len a l) :
    p = q ∨ p.1 + len p.2 ≤ q.1 ∨ q.1 + len q.2 ≤ p.1 := by
  induction l generalizing a with
  | nil => cases hp
  | cons x l ih =>
    rcases List.mem_cons.mp hp with rfl | hp <;> rcases List.mem_cons.mp hq with rfl | hq
    · exact .inl rfl
    · exact .inr (.inl (laid_bounds hq).1)
    · exact .inr (.inr (laid_bounds hp).1)
    · exact ih hp hq

/-- A piece of a row has pieces before it and after it. -/
theorem exists_split {a : Nat} {l : List ι} {p : Nat × ι} (h : p ∈ laid len a l) :
    ∃ pre post, l = pre ++ p.2 :: post ∧ p.1 = stop len a pre := by
  induction l generalizing a with
  | nil => cases h
  | cons x l ih =>
    rcases List.mem_cons.mp h with rfl | h
    · exact ⟨[], l, rfl, rfl⟩
    · obtain ⟨pre, post, rfl, he⟩ := ih h
      exact ⟨x :: pre, post, rfl, he⟩

/-- Pieces that are not empty lie at growing addresses. -/
theorem laid_sorted (hpos : ∀ x, 0 < len x) (a : Nat) (l : List ι) :
    (laid len a l).Pairwise fun p q => p.1 < q.1 := by
  induction l generalizing a with
  | nil => exact List.Pairwise.nil
  | cons x l ih =>
    refine List.Pairwise.cons (fun q hq => ?_) (ih (a + len x))
    have := (laid_bounds hq).1
    have := hpos x
    simp only
    omega

end Tiling

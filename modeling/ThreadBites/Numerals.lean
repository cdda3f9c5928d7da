import Mathlib.Data.Nat.Digits.Lemmas

/-!
# Numerals

A number is written with a symbol for each digit, the most significant one first,
without leading zeros; zero is the symbol of the digit 0. A negative number has a
sign in front. What is written can be read, so different numbers look different.
-/
namespace Numerals

variable {α : Type*}

/-- The numeral of `n` in base `b`. -/
def numeral (symbol : Nat → α) (b n : Nat) : List α :=
  if n = 0 then [symbol 0] else ((Nat.digits b n).map symbol).reverse

/-- The number that a numeral stands for. -/
def read (digit : α → Option Nat) (b : Nat) : List α → Option Nat
  | [] => none
  | l => (l.reverse.mapM digit).map (Nat.ofDigits b)

/-- The numeral of an integer. -/
def signed (symbol : Nat → α) (minus : α) (b : Nat) (z : Int) : List α :=
  if z < 0 then minus :: numeral symbol b z.natAbs else numeral symbol b z.natAbs

/-- The integer that a numeral, maybe with a sign, stands for. -/
def readSigned [DecidableEq α] (digit : α → Option Nat) (minus : α) (b : Nat) : List α → Option Int
  | [] => none
  | c :: l =>
    if c = minus then (read digit b l).map fun n : Nat => -(n : Int)
    else (read digit b (c :: l)).map fun n : Nat => (n : Int)

variable {symbol : Nat → α} {digit : α → Option Nat} {minus : α} {b m n : Nat}

@[simp] theorem numeral_zero : numeral symbol b 0 = [symbol 0] := by simp [numeral]

theorem numeral_pos (h : n ≠ 0) : numeral symbol b n = ((Nat.digits b n).map symbol).reverse := by
  simp [numeral, h]

theorem numeral_ne_nil : numeral symbol b n ≠ [] := by
  by_cases h : n = 0
  · simp [h]
  · simp [numeral_pos h, Nat.digits_ne_nil_iff_ne_zero, h]

/-- A numeral shows digits of its base. -/
theorem mem_numeral (hb : 1 < b) {c : α} (h : c ∈ numeral symbol b n) : ∃ d < b, c = symbol d := by
  by_cases hn : n = 0
  · subst n
    exact ⟨0, by omega, by simpa using h⟩
  · rw [numeral_pos hn, List.mem_reverse, List.mem_map] at h
    obtain ⟨d, hd, rfl⟩ := h
    exact ⟨d, Nat.digits_lt_base hb hd, rfl⟩

theorem mapM_symbol {l : List Nat} (h : ∀ d ∈ l, digit (symbol d) = some d) :
    (l.map symbol).mapM digit = some l := by
  induction l with
  | nil => rfl
  | cons d l ih =>
    have htail := ih fun e he => h e (List.mem_cons_of_mem d he)
    simp [List.mapM_cons, h d List.mem_cons_self, htail]

theorem read_of_ne_nil {l : List α} (h : l ≠ []) :
    read digit b l = (l.reverse.mapM digit).map (Nat.ofDigits b) := by
  cases l with
  | nil => exact absurd rfl h
  | cons c l => rfl

/-- A numeral is read as the number that it was written for. -/
theorem read_numeral (hb : 1 < b) (hd : ∀ d < b, digit (symbol d) = some d) :
    read digit b (numeral symbol b n) = some n := by
  rw [read_of_ne_nil numeral_ne_nil]
  by_cases hn : n = 0
  · simp [hn, hd 0 (by omega), Nat.ofDigits]
  · rw [numeral_pos hn, List.reverse_reverse,
      mapM_symbol fun d h => hd d (Nat.digits_lt_base hb h), Option.map_some, Nat.ofDigits_digits]

theorem numeral_injective (hb : 1 < b) (hd : ∀ d < b, digit (symbol d) = some d)
    (h : numeral symbol b m = numeral symbol b n) : m = n := by
  have hm := read_numeral (n := m) hb hd
  rw [h, read_numeral hb hd] at hm
  exact (Option.some.inj hm).symm

theorem readSigned_of_head [DecidableEq α] {l : List α} (hne : l ≠ []) (h : minus ∉ l) :
    readSigned digit minus b l = (read digit b l).map fun n : Nat => (n : Int) := by
  cases l with
  | nil => exact absurd rfl hne
  | cons c l =>
    have hc : c ≠ minus := fun he => h (he ▸ List.mem_cons_self)
    simp [readSigned, hc]

/-- A numeral with its sign is read as the integer that it was written for. -/
theorem readSigned_signed [DecidableEq α] (hb : 1 < b) (hd : ∀ d < b, digit (symbol d) = some d)
    (hm : ∀ d < b, symbol d ≠ minus) (z : Int) :
    readSigned digit minus b (signed symbol minus b z) = some z := by
  unfold signed
  split
  · rename_i hz
    simp only [readSigned, if_true, read_numeral hb hd, Option.map_some]
    exact congrArg some (by omega)
  · rename_i hz
    have hsign : minus ∉ numeral symbol b z.natAbs := fun h => by
      obtain ⟨d, hlt, he⟩ := mem_numeral hb h
      exact hm d hlt he.symm
    rw [readSigned_of_head numeral_ne_nil hsign, read_numeral hb hd, Option.map_some]
    exact congrArg some (by omega)

end Numerals

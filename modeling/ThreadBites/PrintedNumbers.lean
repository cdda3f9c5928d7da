import ThreadBites.Numerals
import ThreadBites.Printing

/-!
# What is printed of a number

The loop fills the buffer from its end with the digits of the number, and 30 places
are enough for 64 bits. A negative number is printed without its sign, as the number
that its bits are when they are read as unsigned.
-/
namespace ThreadBites.Printing

open Numerals

/-- The symbol of a digit, and the digit of a symbol. -/
def symbol (d : Nat) : Byte := byte (Nat.digitChar d)

def digit (c : Byte) : Option Nat :=
  if 48 ≤ c.toNat ∧ c.toNat ≤ 57 then some (c.toNat - 48)
  else if 97 ≤ c.toNat ∧ c.toNat ≤ 102 then some (c.toNat - 87) else none

theorem digit_symbol : ∀ d < 16, digit (symbol d) = some d := by decide

theorem symbol_ne_minus : ∀ d < 16, symbol d ≠ byte '-' := by decide

theorem hexDigits : ∀ d < 16, (chars "0123456789abcdef")[d]? = some (symbol d) := by decide

theorem decDigits : ∀ d < 10, (chars "0123456789")[d]? = some (symbol d) := by decide

theorem readBuffer_congr {str str' : Buffer} {cursor length : Nat}
    (h : ∀ i, cursor ≤ i → str' i = str i) :
    readBuffer str' cursor length = readBuffer str cursor length := by
  induction length generalizing cursor with
  | zero => rfl
  | succ length ih =>
    have htail := ih fun i hi => h i (Nat.le_of_succ_le hi)
    simp only [readBuffer, h cursor le_rfl, htail]

/-- A byte that is written in front of what is read. -/
theorem readBuffer_update {str : Buffer} {cursor length : Nat} {c : Byte} {l : List Byte}
    (h : readBuffer str (cursor + 1) length = .ok l) :
    readBuffer (Function.update str cursor (some c)) cursor (length + 1) = .ok (c :: l) := by
  have htail : readBuffer (Function.update str cursor (some c)) (cursor + 1) length =
      readBuffer str (cursor + 1) length :=
    readBuffer_congr fun i hi => Function.update_of_ne (by omega) _ _
  simp only [readBuffer, Function.update_self, htail, h, Except.map]

variable {digits : List Byte} {base n : BitVec 64}

theorem digits_step (hb : 1 < base.toNat) (hn : n ≠ 0) :
    Nat.digits base.toNat n.toNat =
      (n % base).toNat :: Nat.digits base.toNat (n / base).toNat := by
  have hpos : 0 < n.toNat := Nat.pos_of_ne_zero fun h => hn (BitVec.eq_of_toNat_eq h)
  rw [Nat.digits_def' hb hpos, BitVec.toNat_umod, BitVec.toNat_udiv]

/-- The loop writes all the digits of a number for which there is room, in front of what is there. -/
theorem digitLoop_eq (hb : 1 < base.toNat)
    (hd : ∀ d < base.toNat, digits[d]? = some (symbol d)) {cursor length : Nat} {str : Buffer}
    {l : List Byte} (hn : n.toNat < base.toNat ^ cursor)
    (hl : readBuffer str (cursor + 1) length = .ok l) :
    ∃ rest str', digitLoop digits base cursor n str = .ok (rest, str') ∧
      rest + (Nat.digits base.toNat n.toNat).length = cursor ∧
      readBuffer str' (rest + 1) (length + (Nat.digits base.toNat n.toNat).length) =
        .ok (((Nat.digits base.toNat n.toNat).map symbol).reverse ++ l) := by
  induction cursor generalizing n length str l with
  | zero =>
    have hzero : n.toNat = 0 := by simpa using hn
    exact ⟨0, str, rfl, by simp [hzero], by simpa [hzero] using hl⟩
  | succ cursor ih =>
    by_cases hzero : n = 0
    · subst n
      exact ⟨cursor + 1, str, by simp [digitLoop], by simp, by simpa using hl⟩
    · have hrem : (n % base).toNat < base.toNat := by
        rw [BitVec.toNat_umod]
        exact Nat.mod_lt _ (by omega)
      have hdiv : (n / base).toNat < base.toNat ^ cursor := by
        rw [BitVec.toNat_udiv]
        exact Nat.div_lt_of_lt_mul (by rwa [← Nat.pow_succ'])
      obtain ⟨rest, str', hloop, hrest, hread⟩ :=
        ih hdiv (readBuffer_update (c := symbol (n % base).toNat) hl)
      refine ⟨rest, str', ?_, ?_, ?_⟩
      · simp only [digitLoop, hzero, if_false, hd _ hrem, hloop]
      · rw [digits_step hb hzero, List.length_cons]
        omega
      · rw [digits_step hb hzero, List.length_cons]
        rw [show length + ((Nat.digits base.toNat (n / base).toNat).length + 1) =
          length + 1 + (Nat.digits base.toNat (n / base).toNat).length by omega]
        simpa using hread

/-- What is written of a number that is not 0. -/
theorem printDigits_eq (hb : 1 < base.toNat) (hroom : 2 ^ 64 ≤ base.toNat ^ 30)
    (hd : ∀ d < base.toNat, digits[d]? = some (symbol d)) (hn : n ≠ 0) :
    printDigits digits base n = .ok [.number (numeral symbol base.toNat n.toNat)] := by
  have hlt : n.toNat < base.toNat ^ 30 := lt_of_lt_of_le n.isLt hroom
  have hfresh : readBuffer freshBuffer (30 + 1) 0 = .ok [] := rfl
  obtain ⟨rest, str, hloop, hrest, hread⟩ := digitLoop_eq hb hd hlt hfresh
  have hpos : n.toNat ≠ 0 := fun h => hn (BitVec.eq_of_toNat_eq h)
  have hlength : 31 - (rest + 1) = 0 + (Nat.digits base.toNat n.toNat).length := by omega
  rw [printDigits, hloop]
  simp only [bind, Except.bind, hlength, hread, List.append_nil, numeral_pos hpos]

theorem symbol_zero : chars "0" = [symbol 0] := by decide

/-- `printNum` prints the numeral of a number in each of the bases that it is called with. -/
theorem printNum_eq {b : Nat} (h₁ : 5 ≤ b) (h₂ : b ≤ 16) (num : BitVec 64) :
    printNum num b = .ok [.number (numeral symbol b num.toNat)] := by
  have hrange : ¬((b : Int) ≤ 0 ∨ 16 < (b : Int)) := by omega
  unfold printNum
  rw [if_neg hrange]
  by_cases hzero : num = 0
  · simp [hzero, symbol_zero]
  · have hbase : (BitVec.ofInt 64 b).toNat = b := by
      rw [BitVec.toNat_ofInt]
      omega
    have hroom : 2 ^ 64 ≤ b ^ 30 := le_trans (by decide) (Nat.pow_le_pow_left h₁ 30)
    rw [if_neg hzero, printDigits_eq (by omega) (by rwa [hbase])
      (fun d hd => hexDigits d (by omega)) hzero, hbase]

/-- A base that no conversion sets prints nothing. -/
theorem printNum_zero (num : BitVec 64) : printNum num 0 = .ok [] := by simp [printNum]

/-- `printNumS` prints the numeral of the bits of its argument. -/
theorem printNumS_eq (num : BitVec 64) :
    printNumS num = .ok [.number (numeral symbol 10 num.toNat)] := by
  unfold printNumS
  by_cases hzero : num = 0
  · simp [hzero, symbol_zero]
  · have hbase : 1 < (10 : BitVec 64).toNat := by decide
    rw [if_neg hzero, printDigits_eq hbase (by decide) decDigits hzero]
    rfl

/-- What `printNumS` writes is the numeral of `num` with its sign, and is read as `num`. -/
def PrintsSigned (num : BitVec 64) : Prop :=
  ∃ bytes, printNumS num = .ok [.number bytes] ∧ bytes = signed symbol (byte '-') 10 num.toInt ∧
    readSigned digit (byte '-') 10 bytes = some num.toInt

theorem readSigned_printed (z : Int) :
    readSigned digit (byte '-') 10 (signed symbol (byte '-') 10 z) = some z :=
  readSigned_signed (by decide) (fun d hd => digit_symbol d (by omega))
    (fun d hd => symbol_ne_minus d (by omega)) z

/-- No sign is ever printed. -/
theorem not_printsSigned {num : BitVec 64} (h : num.toInt < 0) : ¬PrintsSigned num := by
  rintro ⟨bytes, hprint, hsigned, -⟩
  rw [printNumS_eq, signed, if_pos h] at *
  have hbytes : numeral symbol 10 num.toNat = bytes := by simpa using hprint
  have hminus : byte '-' ∈ numeral symbol 10 num.toNat := by simp [hbytes, hsigned]
  obtain ⟨d, hd, he⟩ := mem_numeral (by decide) hminus
  exact symbol_ne_minus d (by omega) he.symm

theorem printsSigned_of_nonneg {num : BitVec 64} (h : 0 ≤ num.toInt) : PrintsSigned num := by
  have hnat : num.toInt.natAbs = num.toNat := by
    rw [BitVec.toInt_eq_toNat_of_msb (BitVec.msb_eq_false_iff_two_mul_lt.mpr ?_)]
    · rfl
    · rw [BitVec.toInt_eq_toNat_cond] at h
      have := num.isLt
      split at h <;> omega
  refine ⟨_, printNumS_eq num, ?_, ?_⟩
  · rw [signed, if_neg (by omega), hnat]
  · rw [← hnat, ← readSigned_printed num.toInt, signed, if_neg (by omega)]

/-- A number prints faithfully if and only if it is not negative, and no other one prints the same. -/
theorem printNumS_faithful (num : BitVec 64) :
    (PrintsSigned num ↔ 0 ≤ num.toInt) ∧ ∀ num', printNumS num = printNumS num' → num = num' := by
  refine ⟨⟨fun h => ?_, printsSigned_of_nonneg⟩, fun num' h => ?_⟩
  · by_contra hneg
    exact not_printsSigned (by omega) h
  · rw [printNumS_eq, printNumS_eq] at h
    have hsame : numeral symbol 10 num.toNat = numeral symbol 10 num'.toNat := by simpa using h
    exact BitVec.eq_of_toNat_eq
      (numeral_injective (by decide) (fun d hd => digit_symbol d (by omega)) hsame)

/-- -1 is printed as a number of 20 digits. -/
theorem minus_one_unsigned :
    printNumS (-1) = .ok [.number (chars "18446744073709551615")] ∧
      ¬((∀ num, PrintsSigned num) ∧ ∀ num num', printNumS num = printNumS num' → num = num') := by
  refine ⟨rfl, fun h => ?_⟩
  have hneg : (-1 : BitVec 64).toInt < 0 := by decide
  exact not_printsSigned hneg (h.1 (-1))

end ThreadBites.Printing

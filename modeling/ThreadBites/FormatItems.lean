import ThreadBites.PrintedNumbers

/-!
# Format strings in items

A format string is a row of bytes that are printed as they are and of conversions,
and it may end within a conversion. What `tbprint` does with an item is one step of
a machine that knows only the literal it has not written yet; the local variables of
the scan are determined by it.
-/
namespace ThreadBites.Printing

open Numerals

/-- A byte that is printed as it is, or a conversion with its letters `l`. -/
inductive Item where
  | plain (c : Byte) (h : c ≠ 0 ∧ c ≠ byte '%')
  | conversion (ls : Nat) (c : Byte) (h : c ≠ 0 ∧ c ≠ byte 'l')

/-- How a format string ends: after an item, after a `%`, or after a `%` and letters `l`. -/
inductive Ending where
  | closed
  | percent
  | letters (more : Nat)

def Item.text : Item → List Byte
  | .plain c _ => [c]
  | .conversion ls c _ => byte '%' :: (List.replicate ls (byte 'l') ++ [c])

def Ending.text : Ending → List Byte
  | .closed => []
  | .percent => [byte '%']
  | .letters more => byte '%' :: List.replicate (more + 1) (byte 'l')

theorem letters_split (l : List Byte) :
    ∃ ls rest, l = List.replicate ls (byte 'l') ++ rest ∧ rest.head? ≠ some (byte 'l') := by
  induction l with
  | nil => exact ⟨0, [], rfl, by simp⟩
  | cons c l ih =>
    by_cases hc : c = byte 'l'
    · obtain ⟨ls, rest, rfl, hrest⟩ := ih
      exact ⟨ls + 1, rest, by simp [hc, List.replicate_succ], hrest⟩
    · exact ⟨0, c :: l, rfl, by simpa using hc⟩

/-- Every format string is a row of items and an ending. -/
theorem exists_items (l : List Byte) (h : 0 ∉ l) :
    ∃ (items : List Item) (ending : Ending), l = items.flatMap Item.text ++ ending.text := by
  induction hn : l.length using Nat.strong_induction_on generalizing l with
  | _ n ih =>
    cases l with
    | nil => exact ⟨[], .closed, rfl⟩
    | cons c l =>
      rw [List.mem_cons, not_or] at h
      by_cases hc : c = byte '%'
      · subst c
        obtain ⟨ls, rest, rfl, hrest⟩ := letters_split l
        cases rest with
        | nil =>
          cases ls with
          | zero => exact ⟨[], .percent, rfl⟩
          | succ more => exact ⟨[], .letters more, by simp [Ending.text]⟩
        | cons d rest =>
          simp only [List.mem_append, List.mem_cons, not_or] at h
          obtain ⟨items, ending, rfl⟩ := ih rest.length (by simp at hn; omega) rest h.2.2.2 rfl
          have hd : d ≠ 0 ∧ d ≠ byte 'l' := ⟨fun he => h.2.2.1 he.symm, by simpa using hrest⟩
          exact ⟨.conversion ls d hd :: items, ending, by simp [Item.text]⟩
      · obtain ⟨items, ending, rfl⟩ := ih l.length (by simp at hn; omega) l h.2 rfl
        exact ⟨.plain c ⟨fun he => h.1 he.symm, hc⟩ :: items, ending, by simp [Item.text]⟩

/-- Where the scan is between two items: the literal that is not written yet, the arguments that are
left, and what was written. -/
structure Stage where
  literal : List Byte
  ap : List (BitVec 64)
  written : List Write

/-- The local variables when `rest` is left of the format. -/
def Stage.locals (s : Stage) (rest : List Byte) : Locals :=
  ⟨s.literal.length, 0, 0, 0, some rest, some (s.literal ++ rest), s.ap, s.written⟩

/-- The base of a conversion of an unsigned number. -/
def base (c : Byte) : Option Nat :=
  if c = byte 'x' then some 16 else if c = byte 'u' then some 10
  else if c = byte 'o' then some 8 else none

/-- What a conversion with `ls` letters writes of its argument. -/
def numberWrites (ls : Nat) (c : Byte) (slot : BitVec 64) : List Write :=
  match base c with
  | some b => [.number (numeral symbol b (unsignedArg ls slot).toNat)]
  | none => if c = byte 'd' then [.number (numeral symbol 10 (signedArg ls slot).toNat)] else []

/-- What `tbprint` does with an item. -/
def Item.step (text : BitVec 64 → CString) (s : Stage) : Item → Except Fault Stage
  | .plain c _ =>
    if (s.literal.length : Int) < intMax then .ok { s with literal := s.literal ++ [c] }
    else .error .overflow
  | .conversion ls c _ => do
    if c = byte 's' ∧ ls = 0 then
      let (str, ap) ← vaArg s.ap
      .ok ⟨[], ap, s.written ++ [.format s.literal, .argument (text str).bytes]⟩
    else if (ls : Int) ≤ intMax then
      let (slot, ap) ← vaArg s.ap
      .ok ⟨[], ap, s.written ++ .format s.literal :: numberWrites ls c slot⟩
    else .error .overflow

/-- What is written after the last item, where `tbprint` returns. -/
def Ending.finish (s : Stage) : Ending → Except Fault (List Write × List (BitVec 64))
  | .closed => .ok (s.written ++ if s.literal = [] then [] else [.format s.literal], s.ap)
  | .percent =>
    .ok (s.written ++ .format s.literal :: if s.literal = [] then [] else [.format s.literal], s.ap)
  | .letters more =>
    if (more : Int) < intMax then do
      let _ ← vaArg s.ap
      .error .outside
    else .error .overflow

variable {text : BitVec 64 → CString}

theorem skipLs_letters {ls : Nat} {rest : List Byte} (h : rest.head? ≠ some (byte 'l')) {sz : Int}
    (hsz : sz ≤ intMax) :
    skipLs (List.replicate ls (byte 'l') ++ rest) sz =
      if sz + ls ≤ intMax then .ok (rest, sz + ls) else .error .overflow := by
  induction ls generalizing sz with
  | zero =>
    cases rest with
    | nil => simp [skipLs, hsz]
    | cons c rest =>
      have hc : c ≠ byte 'l' := by simpa using h
      simp [skipLs, hc, hsz]
  | succ ls ih =>
    rw [List.replicate_succ, List.cons_append, skipLs, if_pos rfl, increment]
    by_cases hlt : sz < intMax
    · have hsum : sz + 1 + ls = sz + (ls + 1 : Nat) := by omega
      rw [if_pos hlt]
      simp only [bind, Except.bind, ih (Int.add_one_le_of_lt hlt), hsum]
    · rw [if_neg hlt, if_neg (by omega)]
      rfl

theorem writeFormat_literal (literal rest : List Byte) :
    writeFormat (some (literal ++ rest)) literal.length = .ok (.format literal) := by
  simp [writeFormat]

theorem unsignedArg_cast (ls : Nat) (slot : BitVec 64) :
    unsignedArg (if 2 < (ls : Int) then 2 else ls) slot = unsignedArg ls slot := by
  have h : (if 2 < (ls : Int) then (2 : Int) else ls) = 0 ↔ (ls : Int) = 0 := by split <;> omega
  simp only [unsignedArg, h]

theorem signedArg_cast (ls : Nat) (slot : BitVec 64) :
    signedArg (if 2 < (ls : Int) then 2 else ls) slot = signedArg ls slot := by
  have h : (if 2 < (ls : Int) then (2 : Int) else ls) = 0 ↔ (ls : Int) = 0 := by split <;> omega
  simp only [signedArg, h]

/-- What `printNum` prints in the base that a conversion sets. -/
theorem printNum_conversion (ls : Nat) {c : Byte} (hd : c ≠ byte 'd') (slot : BitVec 64) :
    printNum (unsignedArg ls slot) (if c = byte 'x' then 16 else if c = byte 'u' then 10
      else if c = byte 'o' then 8 else 0) = .ok (numberWrites ls c slot) := by
  have hprint (b : Nat) (h₁ : 5 ≤ b) (h₂ : b ≤ 16) := printNum_eq h₁ h₂ (unsignedArg ls slot)
  by_cases hx : c = byte 'x'
  · subst c
    exact hprint 16 (by decide) (by decide)
  by_cases hu : c = byte 'u'
  · subst c
    exact hprint 10 (by decide) (by decide)
  by_cases ho : c = byte 'o'
  · subst c
    exact hprint 8 (by decide) (by decide)
  · simp [hx, hu, ho, hd, numberWrites, base, printNum_zero]

theorem printNumS_conversion (ls : Nat) (slot : BitVec 64) :
    printNumS (signedArg ls slot) = .ok (numberWrites ls (byte 'd') slot) :=
  printNumS_eq (signedArg ls slot)

/-- The conversion of a number is that of the byte behind its letters, or of the NUL. -/
theorem convertNumber_eq {ls : Nat} {c : Byte} {l : List Byte} (hl : l.head? ≠ some (byte 'l'))
    (hc : deref (some l) = .ok c) (s : Locals)
    (hsz : s.sz = 0) (hbase : s.base = 0) (hsgn : s.sgn = 0)
    (hcursor : s.cursor = some (List.replicate ls (byte 'l') ++ l)) :
    convertNumber s =
      if (ls : Int) ≤ intMax then do
        let (slot, ap) ← vaArg s.ap
        .ok { s with cursor := some l, ap, written := s.written ++ numberWrites ls c slot }
      else .error .overflow := by
  have hzero : (0 : Int) ≤ intMax := by decide
  have hskip : skipLs (List.replicate ls (byte 'l') ++ l) 0 = _ := skipLs_letters hl hzero
  rw [Int.zero_add] at hskip
  rw [convertNumber, hcursor, Option.getD_some, hsz, hskip]
  by_cases hls : (ls : Int) ≤ intMax
  · rw [if_pos hls, if_pos hls]
    cases hap : s.ap with
    | nil => simp only [bind, Except.bind, hc, vaArg]
    | cons slot ap =>
      simp only [bind, Except.bind, hc, vaArg, unsignedArg_cast, signedArg_cast, hbase, hsgn]
      by_cases hd : c = byte 'd'
      · subst c
        simp [printNumS_conversion]
      · simp [hd, printNum_conversion]
  · rw [if_neg hls, if_neg hls]
    rfl

theorem scan_turn {fuel : Nat} {s : Locals} {c : Byte} {l : List Byte} (h : s.cursor = some (c :: l))
    (hc : c ≠ 0) : scan text (fuel + 1) s = turn text c s >>= Turn.next (scan text fuel) := by
  rw [scan, h]
  simp only [deref, bind, Except.bind, if_neg hc]

theorem turn_plain {s : Stage} {c : Byte} (h : c ≠ byte '%') (rest : List Byte) :
    turn text c (s.locals (c :: rest)) =
      if (s.literal.length : Int) < intMax then
        .ok (.again (Stage.locals { s with literal := s.literal ++ [c] } rest))
      else .error .overflow := by
  have hlength : (s.locals (c :: rest)).length = s.literal.length := rfl
  rw [turn, if_neg h, hlength]
  by_cases hlt : (s.literal.length : Int) < intMax
  · rw [if_pos hlt, increment, if_pos hlt]
    simp [Stage.locals, advance, bind, Except.bind]
  · rw [if_neg hlt, increment, if_neg hlt]
    rfl

/-- The local variables behind the `%` of a conversion, where the literal has been written. -/
def Stage.converting (s : Stage) (rest : List Byte) : Locals :=
  { s.locals (byte '%' :: rest) with cursor := some rest, written := s.written ++ [.format s.literal] }

theorem turn_percent (s : Stage) (rest : List Byte) :
    turn text (byte '%') (s.locals (byte '%' :: rest)) = (do
      let c ← deref (some rest)
      if c = 0 then .ok (.stop (s.converting rest))
      else do
        let s ← if c = byte 's' then convertString text (s.converting rest)
          else convertNumber (s.converting rest)
        let cursor := advance s.cursor
        .ok (.again { s with cursor, start := cursor, length := 0 })) := by
  rw [turn, if_pos rfl]
  simp only [Stage.locals, writeFormat_literal, bind, Except.bind]
  rfl

/-- A turn of the scan over a byte that is printed as it is. -/
theorem scan_plain (fuel : Nat) (s : Stage) {c : Byte} (h : c ≠ 0 ∧ c ≠ byte '%') (rest : List Byte) :
    scan text (fuel + 1) (s.locals (c :: rest)) =
      (Item.plain c h).step text s >>= fun s' => scan text fuel (s'.locals rest) := by
  rw [scan_turn rfl h.1, turn_plain h.2, Item.step]
  split
  · rfl
  · rfl

/-- What is left of a format behind a `%` begins with the letters of the conversion. -/
theorem deref_letters (ls : Nat) (c : Byte) (rest : List Byte) :
    deref (some (List.replicate ls (byte 'l') ++ c :: rest)) = .ok (if ls = 0 then c else byte 'l') := by
  cases ls with
  | zero => rfl
  | succ ls => simp [List.replicate_succ, deref]

theorem turn_conversion (s : Stage) {ls : Nat} {c : Byte} (h : c ≠ 0 ∧ c ≠ byte 'l')
    (rest : List Byte) :
    turn text (byte '%') (s.locals (byte '%' :: (List.replicate ls (byte 'l') ++ c :: rest))) =
      (Item.conversion ls c h).step text s >>= fun s' => .ok (.again (s'.locals rest)) := by
  rw [turn_percent, deref_letters]
  by_cases hstr : c = byte 's' ∧ ls = 0
  · obtain ⟨rfl, rfl⟩ := hstr
    have hzero : byte 's' ≠ 0 := by decide
    simp only [bind, Except.bind, if_true, if_neg hzero, Item.step, and_self, convertString]
    cases hap : s.ap with
    | nil => simp [Stage.converting, Stage.locals, hap, vaArg]
    | cons slot ap => simp [Stage.converting, Stage.locals, hap, vaArg, advance]
  · have hfirst : (if ls = 0 then c else byte 'l') ≠ byte 's' := by
      split
      · rename_i hls
        exact fun he => hstr ⟨he, hls⟩
      · decide
    have hzero : (if ls = 0 then c else byte 'l') ≠ 0 := by
      split
      · exact h.1
      · decide
    simp only [bind, Except.bind, if_neg hzero, if_neg hfirst, Item.step, if_neg hstr]
    have hnext : (c :: rest).head? ≠ some (byte 'l') := by simpa using h.2
    rw [convertNumber_eq hnext rfl _ rfl rfl rfl rfl]
    by_cases hls : (ls : Int) ≤ intMax
    · simp only [if_pos hls]
      cases hap : s.ap with
      | nil => simp [Stage.converting, Stage.locals, hap, vaArg, bind, Except.bind]
      | cons slot ap => simp [Stage.converting, Stage.locals, hap, vaArg, advance, bind, Except.bind]
    · simp only [if_neg hls]

/-- A turn of the scan is a step over one item. -/
theorem scan_item (fuel : Nat) (s : Stage) (item : Item) (rest : List Byte) :
    scan text (fuel + 1) (s.locals (item.text ++ rest)) =
      item.step text s >>= fun s' => scan text fuel (s'.locals rest) := by
  cases item with
  | plain c h => exact scan_plain fuel s h rest
  | conversion ls c h =>
    have hpercent : byte '%' ≠ 0 := by decide
    have htext : (Item.conversion ls c h).text ++ rest =
        byte '%' :: (List.replicate ls (byte 'l') ++ c :: rest) := by simp [Item.text]
    rw [htext, scan_turn rfl hpercent, turn_conversion s h]
    cases (Item.conversion ls c h).step text s with
    | error f => rfl
    | ok s' => rfl

/-- The scan goes over the items one by one. -/
theorem scan_items (fuel : Nat) (s : Stage) (items : List Item) (rest : List Byte) :
    scan text (fuel + items.length) (s.locals (items.flatMap Item.text ++ rest)) =
      items.foldlM (Item.step text) s >>= fun s' => scan text fuel (s'.locals rest) := by
  induction items generalizing s with
  | nil => rfl
  | cons item items ih =>
    rw [List.length_cons, ← Nat.add_assoc, List.flatMap_cons, List.append_assoc, scan_item,
      List.foldlM_cons]
    cases item.step text s with
    | error f => rfl
    | ok s' => exact ih s'

theorem finish_locals {s : Locals} {literal rest : List Byte} (hlength : s.length = literal.length)
    (hstart : s.start = some (literal ++ rest)) :
    s.finish = .ok (s.written ++ if literal = [] then [] else [.format literal], s.ap) := by
  rw [Locals.finish, hlength, hstart, writeFormat_literal]
  by_cases h : literal = []
  · simp [h]
  · simp [h, bind, Except.bind]

/-- The literal before a `%` that ends the format is written twice. -/
theorem scan_percent (fuel : Nat) (s : Stage) :
    scan text (fuel + 1) (s.locals [byte '%']) = .ok (s.converting []) := by
  have hpercent : byte '%' ≠ 0 := by decide
  rw [scan_turn rfl hpercent, turn_percent]
  rfl

/-- The scan goes on behind the NUL when the format ends in letters. -/
theorem scan_letters (fuel : Nat) (s : Stage) (more : Nat) :
    scan text (fuel + 2) (s.locals (Ending.letters more).text) =
      if (more : Int) < intMax then do
        let _ ← vaArg s.ap
        .error .outside
      else .error .overflow := by
  have hpercent : byte '%' ≠ 0 := by decide
  have hzero : byte 'l' ≠ 0 := by decide
  have hs : byte 'l' ≠ byte 's' := by decide
  have hderef : deref (some (List.replicate (more + 1) (byte 'l'))) = .ok (byte 'l') := rfl
  rw [Ending.text, scan_turn rfl hpercent, turn_percent, hderef]
  simp only [bind, Except.bind, if_neg hzero, if_neg hs]
  have hnext : ([] : List Byte).head? ≠ some (byte 'l') := by simp
  have hcursor : (s.converting (List.replicate (more + 1) (byte 'l'))).cursor =
      some (List.replicate (more + 1) (byte 'l') ++ []) := by simp [Stage.converting]
  rw [convertNumber_eq hnext rfl _ rfl rfl rfl hcursor]
  by_cases hmore : (more : Int) < intMax
  · rw [if_pos hmore, if_pos (by omega)]
    cases hap : s.ap with
    | nil => simp [Stage.converting, Stage.locals, hap, vaArg, bind, Except.bind]
    | cons slot ap =>
      simp [Stage.converting, Stage.locals, hap, vaArg, bind, Except.bind, advance, Turn.next, scan, deref]
  · rw [if_neg hmore, if_neg (by omega)]

/-- What `tbprint` does from the ending of the format on. -/
theorem scan_ending (fuel : Nat) (s : Stage) (ending : Ending) :
    (scan text (fuel + ending.text.length + 1) (s.locals ending.text) >>= Locals.finish) =
      ending.finish s := by
  cases ending with
  | closed => exact finish_locals rfl rfl
  | percent =>
    have hlength : (s.converting []).length = s.literal.length := rfl
    have hfinish := finish_locals hlength rfl
    rw [Ending.text, scan_percent]
    simpa [bind, Except.bind, Ending.finish, Stage.converting, Stage.locals] using hfinish
  | letters more =>
    have hfuel : fuel + (Ending.letters more).text.length + 1 = fuel + more + 1 + 2 := by
      simp [Ending.text]
      omega
    rw [hfuel, scan_letters, Ending.finish]
    split
    · cases s.ap with
      | nil => rfl
      | cons slot ap => rfl
    · rfl

/-- `tbprint` goes over the items of its format one by one, and then does what is left to do. -/
theorem tbprint_eq {format : CString} {items : List Item} {ending : Ending}
    (h : format.bytes = items.flatMap Item.text ++ ending.text) (args : List (BitVec 64)) :
    tbprint text format args =
      items.foldlM (Item.step text) ⟨[], args, []⟩ >>= fun s => ending.finish s := by
  have hitems (items : List Item) : items.length ≤ (items.flatMap Item.text).length := by
    induction items with
    | nil => exact le_rfl
    | cons item items ih =>
      have hpos : 1 ≤ item.text.length := by
        cases item with
        | plain c h => simp [Item.text]
        | conversion ls c h => simp [Item.text]
      simp only [List.flatMap_cons, List.length_append, List.length_cons]
      omega
  obtain ⟨spare, hspare⟩ := Nat.exists_eq_add_of_le' (hitems items)
  have hfuel : format.bytes.length + 1 = spare + ending.text.length + 1 + items.length := by
    rw [h, List.length_append]
    omega
  have henter : Locals.enter format args = Stage.locals ⟨[], args, []⟩ format.bytes := rfl
  rw [tbprint, hfuel, henter, h, scan_items]
  cases items.foldlM (Item.step text) ⟨[], args, []⟩ with
  | error f => rfl
  | ok s => exact scan_ending spare s ending

end ThreadBites.Printing

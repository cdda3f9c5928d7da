import ThreadBites.FormatStrings

/-!
# The text that a format string stands for

A format string of literals and of known conversions comes with an argument for each
conversion. Its text is the literals and the rendered arguments in order, and it is
printed whenever the counters of the scan do not overflow.
-/
namespace ThreadBites.Printing

open Numerals

/-- The conversions of unsigned numbers. -/
inductive Radix where
  | x | u | o
  deriving DecidableEq, Repr

def Radix.char : Radix → Byte
  | .x => byte 'x'
  | .u => byte 'u'
  | .o => byte 'o'

def Radix.base : Radix → Nat
  | .x => 16
  | .u => 10
  | .o => 8

/-- The value of an argument with 32 bits, or with 64 bits for a conversion with letters `l`. -/
def unsignedValue (ls : Nat) (num : BitVec 64) : Nat :=
  if ls = 0 then (num.setWidth 32).toNat else num.toNat

def signedValue (ls : Nat) (num : BitVec 64) : Int :=
  if ls = 0 then (num.setWidth 32).toInt else num.toInt

/-- A literal, or a conversion with its argument. -/
inductive Piece where
  | literal (run : List Byte) (h : ∀ c ∈ run, c ≠ 0 ∧ c ≠ byte '%')
  | string (str : BitVec 64)
  | unsigned (ls : Nat) (radix : Radix) (num : BitVec 64)
  | decimal (ls : Nat) (num : BitVec 64) (h : 0 ≤ signedValue ls num)

/-- A piece in the format string. -/
def Piece.text : Piece → List Byte
  | .literal run _ => run
  | .string _ => chars "%s"
  | .unsigned ls radix _ => byte '%' :: (List.replicate ls (byte 'l') ++ [radix.char])
  | .decimal ls _ _ => byte '%' :: (List.replicate ls (byte 'l') ++ [byte 'd'])

def Piece.args : Piece → List (BitVec 64)
  | .literal _ _ => []
  | .string str => [str]
  | .unsigned _ _ num => [num]
  | .decimal _ num _ => [num]

/-- The text that a piece stands for. -/
def Piece.rendered (text : BitVec 64 → CString) : Piece → List Byte
  | .literal run _ => run
  | .string str => (text str).bytes
  | .unsigned ls radix num => numeral symbol radix.base (unsignedValue ls num)
  | .decimal ls num _ => numeral symbol 10 (signedValue ls num).toNat

theorem Radix.char_ne (radix : Radix) : radix.char ≠ 0 ∧ radix.char ≠ byte 'l' := by
  cases radix with
  | x => decide
  | u => decide
  | o => decide

theorem s_ne : byte 's' ≠ 0 ∧ byte 's' ≠ byte 'l' := by decide

theorem d_ne : byte 'd' ≠ 0 ∧ byte 'd' ≠ byte 'l' := by decide

/-- The items of a piece. -/
def Piece.items : Piece → List Item
  | .literal run h => run.pmap .plain h
  | .string _ => [.conversion 0 (byte 's') s_ne]
  | .unsigned ls radix _ => [.conversion ls radix.char radix.char_ne]
  | .decimal ls _ _ => [.conversion ls (byte 'd') d_ne]

theorem literal_text {run : List Byte} (h : ∀ c ∈ run, c ≠ 0 ∧ c ≠ byte '%') :
    (run.pmap Item.plain h).flatMap Item.text = run := by
  induction run with
  | nil => rfl
  | cons c run ih => simp [Item.text, ih fun d hd => h d (List.mem_cons_of_mem c hd)]

theorem Piece.items_text (piece : Piece) : piece.items.flatMap Item.text = piece.text := by
  cases piece with
  | literal run h => exact literal_text h
  | string str => rfl
  | unsigned ls radix num => simp [Piece.items, Piece.text, Item.text]
  | decimal ls num h => simp [Piece.items, Piece.text, Item.text]

theorem Item.text_noNul (item : Item) : 0 ∉ item.text := by
  have hpercent : (0 : Byte) ≠ byte '%' := by decide
  have hl : (0 : Byte) ≠ byte 'l' := by decide
  cases item with
  | plain c h => simpa [Item.text] using h.1.symm
  | conversion ls c h =>
    simp only [Item.text, List.mem_cons, List.mem_append, List.mem_replicate, List.not_mem_nil, or_false,
      not_or, not_and]
    exact ⟨hpercent, fun _ => hl, h.1.symm⟩

/-- The format string of a row of pieces. -/
def formatOf (pieces : List Piece) : CString where
  bytes := pieces.flatMap Piece.text
  noNul h := by
    obtain ⟨piece, -, hmem⟩ := List.mem_flatMap.mp h
    rw [← piece.items_text] at hmem
    obtain ⟨item, -, hmem⟩ := List.mem_flatMap.mp hmem
    exact item.text_noNul hmem

theorem formatOf_items (pieces : List Piece) :
    (formatOf pieces).bytes = (pieces.flatMap Piece.items).flatMap Item.text := by
  simp [formatOf, List.flatMap_assoc, Piece.items_text]

/-- All the bytes that have been written, and those of the pending literal. -/
def Stage.printed (s : Stage) : List Byte := s.written.flatMap Write.bytes ++ s.literal

/-- The text of the pieces is what `tbprint` writes, and it takes the arguments of the pieces. -/
def PrintsText (text : BitVec 64 → CString) (pieces : List Piece) (extra : List (BitVec 64)) : Prop :=
  ∃ written, tbprint text (formatOf pieces) (pieces.flatMap Piece.args ++ extra) = .ok (written, extra) ∧
    written.flatMap Write.bytes = pieces.flatMap (Piece.rendered text)

variable {text : BitVec 64 → CString} {s s' : Stage}

theorem unsignedArg_value (ls : Nat) (num : BitVec 64) :
    (unsignedArg ls num).toNat = unsignedValue ls num := by
  unfold unsignedArg unsignedValue
  by_cases h : ls = 0
  · simp [h]
    omega
  · simp [h]

theorem signedArg_value {ls : Nat} {num : BitVec 64} (h : 0 ≤ signedValue ls num) :
    (signedArg ls num).toNat = (signedValue ls num).toNat := by
  have hvalue : (signedArg ls num).toInt = signedValue ls num := by
    unfold signedArg signedValue
    by_cases hls : ls = 0
    · simp [hls, BitVec.toInt_signExtend_of_le]
    · simp [hls]
  rw [← hvalue] at h ⊢
  rw [BitVec.toInt_eq_toNat_cond] at h ⊢
  have := (signedArg ls num).isLt
  split at h <;> split <;> omega

theorem plain_printed {c : Byte} {h : c ≠ 0 ∧ c ≠ byte '%'} (hstep : (Item.plain c h).step text s = .ok s') :
    s'.ap = s.ap ∧ s'.printed = s.printed ++ [c] := by
  rw [Item.step] at hstep
  split at hstep
  · cases hstep
    exact ⟨rfl, by simp [Stage.printed]⟩
  · cases hstep

theorem conversion_printed {ls : Nat} {c : Byte} {h : c ≠ 0 ∧ c ≠ byte 'l'} {slot : BitVec 64}
    {ap : List (BitVec 64)} (hap : s.ap = slot :: ap)
    (hstep : (Item.conversion ls c h).step text s = .ok s') :
    s'.ap = ap ∧ s'.printed = s.printed ++
      if c = byte 's' ∧ ls = 0 then (text slot).bytes
      else (numberWrites ls c slot).flatMap Write.bytes := by
  rw [Item.step, hap] at hstep
  split at hstep
  · rename_i hstr
    cases hstep
    exact ⟨rfl, by simp [Stage.printed, Write.bytes, hstr]⟩
  · rename_i hstr
    split at hstep
    · cases hstep
      exact ⟨rfl, by simp [Stage.printed, Write.bytes, hstr]⟩
    · cases hstep

/-- The row of a literal is printed byte by byte. -/
theorem literal_printed {run : List Byte} {h : ∀ c ∈ run, c ≠ 0 ∧ c ≠ byte '%'}
    (hrun : (run.pmap Item.plain h).foldlM (Item.step text) s = .ok s') :
    s'.ap = s.ap ∧ s'.printed = s.printed ++ run := by
  induction run generalizing s with
  | nil =>
    cases hrun
    exact ⟨rfl, (List.append_nil _).symm⟩
  | cons c run ih =>
    rw [List.pmap_cons, List.foldlM_cons] at hrun
    cases hstep : (Item.plain c (h c List.mem_cons_self)).step text s with
    | error f =>
      rw [hstep] at hrun
      cases hrun
    | ok s₁ =>
      rw [hstep] at hrun
      obtain ⟨hap, hprinted⟩ := plain_printed hstep
      obtain ⟨hap', hprinted'⟩ := ih (h := fun d hd => h d (List.mem_cons_of_mem c hd)) hrun
      exact ⟨hap'.trans hap, by rw [hprinted', hprinted, List.append_assoc, List.singleton_append]⟩

theorem numberWrites_radix (ls : Nat) (radix : Radix) (num : BitVec 64) :
    (numberWrites ls radix.char num).flatMap Write.bytes =
      numeral symbol radix.base (unsignedValue ls num) := by
  have hbase : base radix.char = some radix.base := by
    cases radix with
    | x => rfl
    | u => rfl
    | o => rfl
  simp [numberWrites, hbase, Write.bytes, unsignedArg_value]

theorem numberWrites_decimal {ls : Nat} {num : BitVec 64} (h : 0 ≤ signedValue ls num) :
    (numberWrites ls (byte 'd') num).flatMap Write.bytes =
      numeral symbol 10 (signedValue ls num).toNat := by
  have hbase : base (byte 'd') = none := rfl
  simp [numberWrites, hbase, Write.bytes, signedArg_value h]

theorem foldlM_singleton (item : Item) :
    [item].foldlM (Item.step text) s = item.step text s :=
  bind_pure _

/-- A piece that is printed takes its argument and is printed as what it stands for. -/
theorem Piece.printed {piece : Piece} {ap : List (BitVec 64)} (hap : s.ap = piece.args ++ ap)
    (hrun : piece.items.foldlM (Item.step text) s = .ok s') :
    s'.ap = ap ∧ s'.printed = s.printed ++ piece.rendered text := by
  cases piece with
  | literal run h =>
    obtain ⟨hrest, hprinted⟩ := literal_printed hrun
    exact ⟨hrest.trans hap, hprinted⟩
  | string str =>
    rw [Piece.items, foldlM_singleton] at hrun
    exact conversion_printed hap hrun
  | unsigned ls radix num =>
    rw [Piece.items, foldlM_singleton] at hrun
    have hs : radix.char ≠ byte 's' := by cases radix <;> decide
    obtain ⟨hrest, hprinted⟩ := conversion_printed hap hrun
    rw [if_neg (fun h => hs h.1), numberWrites_radix] at hprinted
    exact ⟨hrest, hprinted⟩
  | decimal ls num h =>
    rw [Piece.items, foldlM_singleton] at hrun
    have hs : byte 'd' ≠ byte 's' := by decide
    obtain ⟨hrest, hprinted⟩ := conversion_printed hap hrun
    rw [if_neg (fun h => hs h.1), numberWrites_decimal h] at hprinted
    exact ⟨hrest, hprinted⟩

theorem pieces_printed {pieces : List Piece} {extra : List (BitVec 64)}
    (hap : s.ap = pieces.flatMap Piece.args ++ extra)
    (hrun : (pieces.flatMap Piece.items).foldlM (Item.step text) s = .ok s') :
    s'.ap = extra ∧ s'.printed = s.printed ++ pieces.flatMap (Piece.rendered text) := by
  induction pieces generalizing s with
  | nil =>
    cases hrun
    exact ⟨hap, (List.append_nil _).symm⟩
  | cons piece pieces ih =>
    rw [List.flatMap_cons, List.foldlM_append] at hrun
    rw [List.flatMap_cons, List.append_assoc] at hap
    cases hstep : piece.items.foldlM (Item.step text) s with
    | error f =>
      rw [hstep] at hrun
      cases hrun
    | ok s₁ =>
      rw [hstep] at hrun
      obtain ⟨hap₁, hprinted₁⟩ := Piece.printed hap hstep
      obtain ⟨hap', hprinted'⟩ := ih hap₁ hrun
      exact ⟨hap', by rw [hprinted', hprinted₁, List.flatMap_cons, List.append_assoc]⟩

/-- The conversions of a row of items. -/
theorem conversions_items (items : List Item) (n : Nat) :
    conversions (.literal n) (items.flatMap Item.text) = (items.map Item.takes).sum := by
  induction items generalizing n with
  | nil => rfl
  | cons item items ih =>
    rw [List.flatMap_cons, conversions_item, ih, List.map_cons, List.sum_cons, Nat.add_comm]

theorem Piece.takes_args (piece : Piece) : (piece.items.map Item.takes).sum = piece.args.length := by
  cases piece with
  | literal run h =>
    simp [Piece.items, Piece.args, List.map_pmap, Item.takes]
  | string str => rfl
  | unsigned ls radix num => rfl
  | decimal ls num h => rfl

/-- There is an argument for each conversion. -/
theorem conversions_pieces (pieces : List Piece) :
    conversions (.literal 0) (formatOf pieces).bytes = (pieces.flatMap Piece.args).length := by
  rw [formatOf_items, conversions_items]
  induction pieces with
  | nil => rfl
  | cons piece pieces ih => simp [List.flatMap_cons, Piece.takes_args, ih]

variable (text) in
/-- The items of the pieces are printed, or the scan cannot count them. -/
theorem pieces_run (pieces : List Piece) (extra : List (BitVec 64)) :
    (∃ s, (pieces.flatMap Piece.items).foldlM (Item.step text)
        ⟨[], pieces.flatMap Piece.args ++ extra, []⟩ = .ok s ∧
      Counted (.literal 0) (formatOf pieces).bytes) ∨
    ((pieces.flatMap Piece.items).foldlM (Item.step text)
        ⟨[], pieces.flatMap Piece.args ++ extra, []⟩ = .error .overflow ∧
      ¬Counted (.literal 0) (formatOf pieces).bytes) := by
  have hargs : conversions (.literal 0) (formatOf pieces).bytes ≤
      (pieces.flatMap Piece.args ++ extra).length := by
    rw [conversions_pieces, List.length_append]
    exact Nat.le_add_right _ _
  have hroom : (([] : List Byte).length : Int) ≤ intMax := by decide
  have hitems : (formatOf pieces).bytes = (pieces.flatMap Piece.items).flatMap Item.text ++ [] := by
    rw [formatOf_items, List.append_nil]
  rw [hitems] at hargs ⊢
  rcases items_goes text (pieces.flatMap Piece.items) ⟨[], pieces.flatMap Piece.args ++ extra, []⟩
    [] hroom hargs with ⟨s, hrun, hgoes⟩ | hnot
  · exact .inl ⟨s, hrun, hgoes.counted.mpr (counted_nil.mpr (hgoes.room hroom))⟩
  · exact .inr hnot

theorem tbprint_pieces (text : BitVec 64 → CString) (pieces : List Piece) (args : List (BitVec 64)) :
    tbprint text (formatOf pieces) args =
      (pieces.flatMap Piece.items).foldlM (Item.step text) ⟨[], args, []⟩ >>= fun s =>
        Ending.closed.finish s :=
  tbprint_eq (by rw [formatOf_items, Ending.text, List.append_nil]) args

theorem PrintsText.counted {pieces : List Piece} {extra : List (BitVec 64)}
    (h : PrintsText text pieces extra) : Counted (.literal 0) (formatOf pieces).bytes := by
  rcases pieces_run text pieces extra with ⟨-, -, hcounted⟩ | ⟨hrun, -⟩
  · exact hcounted
  · obtain ⟨written, hprint, -⟩ := h
    rw [tbprint_pieces, hrun] at hprint
    cases hprint

theorem printsText_of_counted {pieces : List Piece} {extra : List (BitVec 64)}
    (h : Counted (.literal 0) (formatOf pieces).bytes) : PrintsText text pieces extra := by
  rcases pieces_run text pieces extra with ⟨s, hrun, -⟩ | ⟨-, hnot⟩
  · obtain ⟨hap, hprinted⟩ := pieces_printed rfl hrun
    refine ⟨s.written ++ if s.literal = [] then [] else [.format s.literal], ?_, ?_⟩
    · rw [tbprint_pieces, hrun, ← hap]
      rfl
    · rw [List.flatMap_append, flush_bytes fun _ => rfl]
      exact hprinted
  · exact absurd h hnot

/-- The text of the pieces is printed if and only if the scan can count their literals and letters. -/
theorem tbprint_text_iff (text : BitVec 64 → CString) (pieces : List Piece) (extra : List (BitVec 64)) :
    PrintsText text pieces extra ↔ Counted (.literal 0) (formatOf pieces).bytes :=
  ⟨PrintsText.counted, printsText_of_counted⟩

theorem after_literal {run : List Byte} (h : ∀ c ∈ run, c ≠ byte '%') (n : Nat) :
    (Mode.literal n).after run = .literal (n + run.length) := by
  induction run generalizing n with
  | nil => rfl
  | cons c run ih =>
    have htail := ih (fun d hd => h d (List.mem_cons_of_mem c hd)) (n + 1)
    have hhead : (Mode.literal n).after [c] = .literal (n + 1) := if_neg (h c List.mem_cons_self)
    rw [← List.singleton_append, after_append, hhead, htail, List.length_append, List.length_singleton,
      Nat.add_assoc]

theorem not_prints_long {run : List Byte} {h : ∀ c ∈ run, c ≠ 0 ∧ c ≠ byte '%'}
    {extra : List (BitVec 64)} (hlong : intMax < (run.length : Int)) :
    ¬PrintsText text [.literal run h] extra := by
  intro hprints
  have hbytes : (formatOf [.literal run h]).bytes = run := List.append_nil run
  have hcounter := hprints.counted run (by rw [hbytes])
  rw [after_literal fun c hc => (h c hc).2] at hcounter
  simp only [Mode.counter, Nat.zero_add] at hcounter
  omega

/-- A literal of `2^31` bytes is more than `length` can count. -/
theorem long_literal : ¬∀ text pieces extra, PrintsText text pieces extra := by
  intro h
  have ha : ∀ c ∈ List.replicate (2 ^ 31) (byte 'a'), c ≠ 0 ∧ c ≠ byte '%' := fun c hc => by
    rw [List.eq_of_mem_replicate hc]
    decide
  have hlong : intMax < ((List.replicate (2 ^ 31) (byte 'a')).length : Int) := by
    rw [List.length_replicate]
    decide
  exact not_prints_long hlong (h (fun _ => ⟨[], by decide⟩) [.literal _ ha] [])

end ThreadBites.Printing

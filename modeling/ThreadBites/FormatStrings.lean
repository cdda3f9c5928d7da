import ThreadBites.FormatItems

/-!
# What a format string prints

The bytes of a format are read one by one: outside of conversions they are printed,
and a `%` begins a conversion, which ends at the first byte that is not an `l`. The
scan does the same as long as its counters do not overflow and the format does not
end in letters; a literal before a `%` at the end is written twice.
-/
namespace ThreadBites.Printing

open Numerals

/-- How far a format has been read: behind a literal of some length, or within a conversion, behind
its letters `l`; the length of the literal before the `%` is kept. -/
inductive Mode where
  | literal (length : Nat)
  | conversion (length ls : Nat)

def Mode.next (c : Byte) : Mode → Mode
  | .literal n => if c = byte '%' then .conversion n 0 else .literal (n + 1)
  | .conversion n ls => if c = byte 'l' then .conversion n (ls + 1) else .literal 0

def Mode.after (m : Mode) (l : List Byte) : Mode := l.foldl (fun m c => m.next c) m

/-- The length of a literal, or the number of letters of a conversion, up to here. -/
def Mode.counter : Mode → Nat
  | .literal n => n
  | .conversion _ ls => ls

/-- The bytes that are not in a conversion. -/
def outside : Mode → List Byte → List Byte
  | _, [] => []
  | .literal n, c :: l =>
    if c = byte '%' then outside (.conversion n 0) l else c :: outside (.literal (n + 1)) l
  | .conversion n ls, c :: l =>
    if c = byte 'l' then outside (.conversion n (ls + 1)) l else outside (.literal 0) l

/-- The number of conversions, with one that ends in letters and without one that is only a `%`. -/
def conversions : Mode → List Byte → Nat
  | .literal _, [] => 0
  | .conversion _ ls, [] => if ls = 0 then 0 else 1
  | .literal n, c :: l =>
    if c = byte '%' then conversions (.conversion n 0) l else conversions (.literal (n + 1)) l
  | .conversion n ls, c :: l =>
    if c = byte 'l' then conversions (.conversion n (ls + 1)) l else conversions (.literal 0) l + 1

/-- No literal and no row of letters is longer than an `int` can count. -/
def Counted (m : Mode) (l : List Byte) : Prop :=
  ∀ read, read <+: l → ((m.after read).counter : Int) ≤ intMax

/-- A format may end outside of conversions, or at a `%` that has no literal before it. -/
def Mode.Ended : Mode → Prop
  | .literal _ => True
  | .conversion n ls => n = 0 ∧ ls = 0

/-- The formats that `tbprint` can print. -/
structure Clean (format : CString) : Prop where
  counted : Counted (.literal 0) format.bytes
  ended : (Mode.after (.literal 0) format.bytes).Ended

/-- The bytes that were written from the format. -/
def formatBytes (written : List Write) : List Byte :=
  written.flatMap fun
    | .format bytes => bytes
    | .argument _ | .number _ => []

/-- The scan terminates within the format, and writes the bytes outside of conversions once and in
order. -/
def StaysInside (text : BitVec 64 → CString) (format : CString) (args : List (BitVec 64)) : Prop :=
  ∃ written ap, tbprint text format args = .ok (written, ap) ∧
    formatBytes written = outside (.literal 0) format.bytes

variable {text : BitVec 64 → CString} {m : Mode} {n ls : Nat} {c : Byte} {l : List Byte}

theorem counted_cons : Counted m (c :: l) ↔ (m.counter : Int) ≤ intMax ∧ Counted (m.next c) l := by
  constructor
  · intro h
    refine ⟨h [] List.nil_prefix, fun read hread => ?_⟩
    exact h (c :: read) (List.cons_prefix_cons.mpr ⟨rfl, hread⟩)
  · rintro ⟨hhead, htail⟩ read hread
    cases read with
    | nil => exact hhead
    | cons d read =>
      obtain ⟨rfl, hrest⟩ := List.cons_prefix_cons.mp hread
      exact htail read hrest

theorem Counted.head (h : Counted m l) : (m.counter : Int) ≤ intMax := h [] List.nil_prefix

theorem counted_nil : Counted m [] ↔ (m.counter : Int) ≤ intMax := by
  refine ⟨Counted.head, fun h read hread => ?_⟩
  rw [List.prefix_nil.mp hread]
  exact h

theorem after_append (m : Mode) (l l' : List Byte) : m.after (l ++ l') = (m.after l).after l' :=
  List.foldl_append

section Letters

variable (n ls : Nat) (more : Nat) (l : List Byte)

theorem after_letters :
    (Mode.conversion n ls).after (List.replicate more (byte 'l')) = .conversion n (ls + more) := by
  induction more generalizing ls with
  | zero => rfl
  | succ more ih =>
    have htail := ih (ls + 1)
    simp only [Mode.after] at htail ⊢
    simpa [List.replicate_succ, Mode.next, Nat.add_assoc, Nat.add_comm 1] using htail

theorem counted_letters :
    Counted (.conversion n ls) (List.replicate more (byte 'l') ++ l) ↔
      Counted (.conversion n (ls + more)) l := by
  induction more generalizing ls with
  | zero => rfl
  | succ more ih =>
    have hsum : ls + (more + 1) = ls + 1 + more := by omega
    rw [List.replicate_succ, List.cons_append, counted_cons, Mode.next, if_pos rfl, ih, hsum]
    refine and_iff_right_of_imp fun h => ?_
    have := h.head
    simp only [Mode.counter] at this ⊢
    omega

theorem outside_letters :
    outside (.conversion n ls) (List.replicate more (byte 'l') ++ l) =
      outside (.conversion n (ls + more)) l := by
  induction more generalizing ls with
  | zero => rfl
  | succ more ih =>
    have hsum : ls + (more + 1) = ls + 1 + more := by omega
    rw [List.replicate_succ, List.cons_append, outside, if_pos rfl, ih, hsum]

theorem conversions_letters :
    conversions (.conversion n ls) (List.replicate more (byte 'l') ++ l) =
      conversions (.conversion n (ls + more)) l := by
  induction more generalizing ls with
  | zero => rfl
  | succ more ih =>
    have hsum : ls + (more + 1) = ls + 1 + more := by omega
    rw [List.replicate_succ, List.cons_append, conversions, if_pos rfl, ih, hsum]

end Letters

/-- The length of the literal behind an item. -/
def Item.pending (n : Nat) : Item → Nat
  | .plain _ _ => n + 1
  | .conversion _ _ _ => 0

/-- What an item counts to. -/
def Item.count : Item → Nat
  | .plain _ _ => 0
  | .conversion ls _ _ => ls

/-- The bytes of an item that are printed as they are. -/
def Item.outside : Item → List Byte
  | .plain c _ => [c]
  | .conversion _ _ _ => []

/-- The arguments that an item takes. -/
def Item.takes : Item → Nat
  | .plain _ _ => 0
  | .conversion _ _ _ => 1

theorem conversion_text (ls : Nat) (c : Byte) (h : c ≠ 0 ∧ c ≠ byte 'l') (l : List Byte) :
    (Item.conversion ls c h).text ++ l =
      byte '%' :: (List.replicate ls (byte 'l') ++ c :: l) := by
  simp [Item.text]

theorem after_item (item : Item) (n : Nat) :
    (Mode.literal n).after item.text = .literal (item.pending n) := by
  cases item with
  | plain c h => simp [Item.text, Mode.after, Mode.next, h.2, Item.pending]
  | conversion ls c h =>
    have hletters := after_letters n 0 ls
    rw [Nat.zero_add] at hletters
    have htext : (Item.conversion ls c h).text = [byte '%'] ++ List.replicate ls (byte 'l') ++ [c] :=
      rfl
    rw [htext, after_append, after_append, show (Mode.literal n).after [byte '%'] = .conversion n 0 from
      rfl, hletters]
    simp [Mode.after, Mode.next, h.2, Item.pending]

theorem counted_item (item : Item) (n : Nat) (l : List Byte) :
    Counted (.literal n) (item.text ++ l) ↔
      (n : Int) ≤ intMax ∧ (item.count : Int) ≤ intMax ∧ Counted (.literal (item.pending n)) l := by
  have hzero : ((0 : Nat) : Int) ≤ intMax := by decide
  cases item with
  | plain c h =>
    rw [Item.text, List.singleton_append, counted_cons, Mode.next, if_neg h.2]
    exact and_congr_right fun _ => (and_iff_right hzero).symm
  | conversion ls c h =>
    rw [conversion_text, counted_cons, Mode.next, if_pos rfl, counted_letters, Nat.zero_add, counted_cons,
      Mode.next, if_neg h.2]
    rfl

theorem outside_item (item : Item) (n : Nat) (l : List Byte) :
    outside (.literal n) (item.text ++ l) = item.outside ++ outside (.literal (item.pending n)) l := by
  cases item with
  | plain c h => simp [Item.text, outside, h.2, Item.outside, Item.pending]
  | conversion ls c h =>
    rw [conversion_text, outside, if_pos rfl, outside_letters, outside, if_neg h.2]
    rfl

theorem conversions_item (item : Item) (n : Nat) (l : List Byte) :
    conversions (.literal n) (item.text ++ l) =
      conversions (.literal (item.pending n)) l + item.takes := by
  cases item with
  | plain c h => simp [Item.text, conversions, h.2, Item.takes, Item.pending]
  | conversion ls c h =>
    rw [conversion_text, conversions, if_pos rfl, conversions_letters, conversions, if_neg h.2]
    rfl

/-- What holds of the stage and what is left of the format as the scan goes on. -/
structure Stage.Goes (s : Stage) (l : List Byte) (s' : Stage) (l' : List Byte) : Prop where
  counted : Counted (.literal s.literal.length) l ↔ Counted (.literal s'.literal.length) l'
  room : (s.literal.length : Int) ≤ intMax → (s'.literal.length : Int) ≤ intMax
  args : conversions (.literal s.literal.length) l ≤ s.ap.length →
    conversions (.literal s'.literal.length) l' ≤ s'.ap.length
  after : (Mode.literal s.literal.length).after l = (Mode.literal s'.literal.length).after l'
  shown : formatBytes s.written ++ s.literal ++ outside (.literal s.literal.length) l =
    formatBytes s'.written ++ s'.literal ++ outside (.literal s'.literal.length) l'

theorem Stage.Goes.refl (s : Stage) (l : List Byte) : s.Goes l s l :=
  ⟨Iff.rfl, id, id, rfl, rfl⟩

theorem Stage.Goes.trans {s s' s'' : Stage} {l l' l'' : List Byte} (h : s.Goes l s' l')
    (h' : s'.Goes l' s'' l'') : s.Goes l s'' l'' :=
  ⟨h.counted.trans h'.counted, h'.room ∘ h.room, h'.args ∘ h.args, h.after.trans h'.after,
    h.shown.trans h'.shown⟩

theorem formatBytes_append (w w' : List Write) :
    formatBytes (w ++ w') = formatBytes w ++ formatBytes w' :=
  List.flatMap_append

theorem formatBytes_numberWrites (ls : Nat) (c : Byte) (slot : BitVec 64) :
    formatBytes (numberWrites ls c slot) = [] := by
  unfold numberWrites
  cases base c with
  | some b => rfl
  | none =>
    dsimp only
    split
    · rfl
    · rfl

/-- What an item does to the stage. -/
theorem Stage.goes_item {s s' : Stage} (item : Item) (l : List Byte)
    (hroom : (s.literal.length : Int) ≤ intMax) (hcount : (item.count : Int) ≤ intMax)
    (hpending : s'.literal.length = item.pending s.literal.length)
    (hroom' : (s'.literal.length : Int) ≤ intMax) (hap : s.ap.length = s'.ap.length + item.takes)
    (hshown : formatBytes s'.written ++ s'.literal =
      formatBytes s.written ++ s.literal ++ item.outside) :
    s.Goes (item.text ++ l) s' l where
  counted := by
    rw [counted_item, hpending]
    exact ⟨fun h => h.2.2, fun h => ⟨hroom, hcount, h⟩⟩
  room _ := hroom'
  args h := by
    rw [conversions_item, ← hpending] at h
    omega
  after := by rw [after_append, after_item, hpending]
  shown := by simp only [outside_item, hpending, hshown, List.append_assoc]

variable (text) in
/-- An item that is not printed is one that a counter cannot count. -/
theorem Item.step_goes (item : Item) (s : Stage) (l : List Byte)
    (hroom : (s.literal.length : Int) ≤ intMax)
    (h : conversions (.literal s.literal.length) (item.text ++ l) ≤ s.ap.length) :
    (∃ s', item.step text s = .ok s' ∧ s.Goes (item.text ++ l) s' l) ∨
      (item.step text s = .error .overflow ∧
        ¬Counted (.literal s.literal.length) (item.text ++ l)) := by
  have hzero : ((0 : Nat) : Int) ≤ intMax := by decide
  cases item with
  | plain c hc =>
    rw [Item.step]
    by_cases hlt : (s.literal.length : Int) < intMax
    · rw [if_pos hlt]
      refine .inl ⟨_, rfl, Stage.goes_item _ l hroom hzero ?_ ?_ rfl ?_⟩
      · simp [Item.pending]
      · simpa using Int.add_one_le_of_lt hlt
      · simp [Item.outside]
    · rw [if_neg hlt, counted_item]
      refine .inr ⟨rfl, fun hcounted => ?_⟩
      have := hcounted.2.2.head
      simp only [Item.pending, Mode.counter] at this
      omega
  | conversion ls c hc =>
    rw [conversions_item] at h
    rw [Item.step]
    cases hap : s.ap with
    | nil =>
      rw [hap] at h
      simp [Item.takes] at h
    | cons slot ap =>
      have hlength : s.ap.length = ap.length + 1 := by rw [hap, List.length_cons]
      by_cases hstr : c = byte 's' ∧ ls = 0
      · rw [if_pos hstr]
        refine .inl ⟨_, rfl, Stage.goes_item _ l hroom ?_ rfl hzero hlength ?_⟩
        · rw [Item.count, hstr.2]
          exact hzero
        · simp [formatBytes, Item.outside]
      · rw [if_neg hstr]
        by_cases hls : (ls : Int) ≤ intMax
        · rw [if_pos hls]
          refine .inl ⟨_, rfl, Stage.goes_item _ l hroom hls rfl hzero hlength ?_⟩
          have hnumber := formatBytes_numberWrites ls c slot
          simpa [formatBytes, Item.outside] using hnumber
        · rw [if_neg hls, counted_item]
          exact .inr ⟨rfl, fun hcounted => hls hcounted.2.1⟩

variable (text) in
/-- The items are printed unless one of them is more than a counter can count. -/
theorem items_goes (items : List Item) (s : Stage) (l : List Byte)
    (hroom : (s.literal.length : Int) ≤ intMax)
    (h : conversions (.literal s.literal.length) (items.flatMap Item.text ++ l) ≤ s.ap.length) :
    (∃ s', items.foldlM (Item.step text) s = .ok s' ∧ s.Goes (items.flatMap Item.text ++ l) s' l) ∨
      (items.foldlM (Item.step text) s = .error .overflow ∧
        ¬Counted (.literal s.literal.length) (items.flatMap Item.text ++ l)) := by
  induction items generalizing s with
  | nil => exact .inl ⟨s, rfl, .refl s l⟩
  | cons item items ih =>
    rw [List.flatMap_cons, List.append_assoc] at h ⊢
    rw [List.foldlM_cons]
    rcases item.step_goes text s _ hroom h with ⟨s', hstep, hgoes⟩ | ⟨hstep, hnot⟩
    · rw [hstep]
      rcases ih s' (hgoes.room hroom) (hgoes.args h) with ⟨s'', hrun, hgoes'⟩ | ⟨hrun, hnot⟩
      · exact .inl ⟨s'', hrun, hgoes.trans hgoes'⟩
      · exact .inr ⟨hrun, fun hcounted => hnot (hgoes.counted.mp hcounted)⟩
    · rw [hstep]
      exact .inr ⟨rfl, hnot⟩

/-- The last literal is written if there is one. -/
theorem flush_bytes {f : Write → List Byte} (hf : ∀ bytes, f (.format bytes) = bytes)
    (literal : List Byte) : (if literal = [] then [] else [Write.format literal]).flatMap f = literal := by
  split
  · rename_i h
    rw [h]
    rfl
  · simp [hf]

theorem formatBytes_flush (literal : List Byte) :
    formatBytes (if literal = [] then [] else [.format literal]) = literal :=
  flush_bytes (fun _ => rfl) literal

/-- The endings with which nothing is read behind the NUL or written twice. -/
theorem ending_stays (ending : Ending) (s : Stage) :
    (∃ written ap, ending.finish s = .ok (written, ap) ∧
      formatBytes written = formatBytes s.written ++ s.literal) ↔
      ((Mode.literal s.literal.length).after ending.text).Ended := by
  cases ending with
  | closed =>
    refine iff_of_true ⟨_, _, rfl, ?_⟩ trivial
    rw [formatBytes_append, formatBytes_flush]
  | percent =>
    have hafter : (Mode.literal s.literal.length).after Ending.percent.text =
        .conversion s.literal.length 0 := rfl
    have hbytes : formatBytes (.format s.literal :: if s.literal = [] then [] else [.format s.literal]) =
        s.literal ++ s.literal := by
      rw [← List.singleton_append, formatBytes_append, formatBytes_flush]
      simp [formatBytes]
    rw [hafter]
    constructor
    · rintro ⟨written, ap, hfinish, hwritten⟩
      obtain ⟨rfl, -⟩ := Prod.mk.inj (Except.ok.inj hfinish)
      rw [formatBytes_append, hbytes] at hwritten
      exact ⟨by simpa using hwritten, rfl⟩
    · rintro ⟨hempty, -⟩
      have hliteral : s.literal = [] := List.length_eq_zero_iff.mp hempty
      refine ⟨_, _, rfl, ?_⟩
      rw [formatBytes_append, hbytes, hliteral]
      rfl
  | letters more =>
    have hafter : (Mode.literal s.literal.length).after (Ending.letters more).text =
        .conversion s.literal.length (0 + (more + 1)) := after_letters _ _ _
    have herror : ∀ r, (Ending.letters more).finish s ≠ .ok r := by
      intro r
      rw [Ending.finish]
      split
      · cases s.ap with
        | nil => simp [vaArg, bind, Except.bind]
        | cons slot ap => simp [vaArg, bind, Except.bind]
      · simp
    rw [hafter]
    refine iff_of_false ?_ fun hended => ?_
    · rintro ⟨written, ap, hfinish, -⟩
      exact herror _ hfinish
    · simp [Mode.Ended] at hended

theorem outside_ending (ending : Ending) (n : Nat) : outside (.literal n) ending.text = [] := by
  cases ending with
  | closed => rfl
  | percent => rfl
  | letters more =>
    have hletters := outside_letters n 0 (more + 1) []
    rw [List.append_nil] at hletters
    rw [Ending.text, outside, if_pos rfl, hletters]
    rfl

theorem counted_ending {ending : Ending} {n : Nat} (hroom : (n : Int) ≤ intMax)
    (h : ((Mode.literal n).after ending.text).Ended) : Counted (.literal n) ending.text := by
  cases ending with
  | closed => exact counted_nil.mpr hroom
  | percent =>
    have hzero : ((0 : Nat) : Int) ≤ intMax := by decide
    exact counted_cons.mpr ⟨hroom, counted_nil.mpr hzero⟩
  | letters more =>
    have hafter : (Mode.literal n).after (Ending.letters more).text =
        .conversion n (0 + (more + 1)) := after_letters _ _ _
    rw [hafter] at h
    simp [Mode.Ended] at h

/-- With enough arguments, the scan of `tbprint` stays inside the formats that are clean, and of no
others. -/
theorem tbprint_inside_iff (text : BitVec 64 → CString) (format : CString) (args : List (BitVec 64))
    (h : conversions (.literal 0) format.bytes ≤ args.length) :
    StaysInside text format args ↔ Clean format := by
  obtain ⟨items, ending, hformat⟩ := exists_items format.bytes format.noNul
  have hclean : Clean format ↔ Counted (.literal 0) format.bytes ∧
      ((Mode.literal 0).after format.bytes).Ended := ⟨fun h => ⟨h.1, h.2⟩, fun h => ⟨h.1, h.2⟩⟩
  rw [hclean, StaysInside, tbprint_eq hformat]
  rw [hformat] at h ⊢
  have hroom : (([] : List Byte).length : Int) ≤ intMax := by decide
  rcases items_goes text items ⟨[], args, []⟩ ending.text hroom h with
    ⟨s, hrun, hgoes⟩ | ⟨hrun, hnot⟩
  · have hshown : outside (.literal 0) (items.flatMap Item.text ++ ending.text) =
        formatBytes s.written ++ s.literal := by
      simpa [outside_ending, formatBytes] using hgoes.shown
    have hafter : (Mode.literal 0).after (items.flatMap Item.text ++ ending.text) =
        (Mode.literal s.literal.length).after ending.text := hgoes.after
    have hcounted : Counted (.literal 0) (items.flatMap Item.text ++ ending.text) ↔
        Counted (.literal s.literal.length) ending.text := hgoes.counted
    rw [hrun, hshown, hafter, hcounted, and_iff_right_of_imp (counted_ending (hgoes.room hroom))]
    exact ending_stays ending s
  · rw [hrun]
    refine iff_of_false ?_ fun hcounted => hnot hcounted.1
    rintro ⟨written, ap, hprint, -⟩
    cases hprint

/-- The literals of `a%xb` are printed around its number. -/
theorem inside_example : StaysInside (fun _ => ⟨[], by decide⟩) ⟨chars "a%xb", by decide⟩ [255] := by
  refine (tbprint_inside_iff _ _ _ (by decide)).mpr ⟨?_, trivial⟩
  have hint (n : Nat) (hn : n ≤ 2) : (n : Int) ≤ intMax := le_trans (Int.ofNat_le.mpr hn) (by decide)
  refine counted_cons.mpr ⟨hint 0 (by decide), counted_cons.mpr ⟨hint 1 (by decide),
    counted_cons.mpr ⟨hint 0 (by decide), counted_cons.mpr ⟨hint 0 (by decide),
      counted_nil.mpr (hint 1 (by decide))⟩⟩⟩⟩

/-- The literal of `a%` is printed twice, and `%l` is read behind its NUL. -/
theorem unclean_formats :
    tbprint (fun _ => ⟨[], by decide⟩) ⟨chars "a%", by decide⟩ [] =
        .ok ([.format (chars "a"), .format (chars "a")], []) ∧
      tbprint (fun _ => ⟨[], by decide⟩) ⟨chars "%l", by decide⟩ [0] = .error .outside ∧
      ¬∀ text format args, conversions (.literal 0) format.bytes ≤ args.length →
        StaysInside text format args := by
  refine ⟨rfl, rfl, fun h => ?_⟩
  obtain ⟨written, ap, hprint, hwritten⟩ :=
    h (fun _ => ⟨[], by decide⟩) ⟨chars "a%", by decide⟩ [] (by decide)
  have htwice : written = [.format (chars "a"), .format (chars "a")] :=
    (congrArg Prod.fst (Except.ok.inj hprint)).symm
  rw [htwice] at hwritten
  exact absurd hwritten (by decide)

end ThreadBites.Printing

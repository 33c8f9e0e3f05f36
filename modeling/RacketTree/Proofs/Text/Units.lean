import RacketTree.Proofs.Text.Positions

/-!
# Texts in UTF-16 code units

A client holds a text as UTF-16 code units (`Units.ofText`), in lines that only a newline ends
(`Units.lines`). It gives a place as a line and a number of code units in it (`Units.place?`): the
line has to be there and long enough, and the place must not lie between the halves of a surrogate
pair.

Such a place is an offset in the characters of the text, and `Lines.place?` finds it
(`exists_place?_eq`): the code units before and behind the place are those of the characters before
and behind the offset.
-/

namespace RacketTree.Units

/-! ## Texts, lines and places -/

/-- The code units of a text. -/
def ofText (text : List Char) : List Nat :=
  text.flatMap fun c => Text.codeUnits c.toNat

/-- The code unit that ends a line. -/
def newline : Nat := 0x0A

/-- The first line with one more code unit in front. -/
def extend (unit : Nat) : List (List Nat) → List (List Nat)
  | [] => [[unit]]
  | line :: rest => (unit :: line) :: rest

/-- The lines of a text without the newlines that end them. -/
def lines : List Nat → List (List Nat)
  | [] => [[]]
  | unit :: rest => if unit = newline then [] :: lines rest else extend unit (lines rest)

/-- The number of code units in whole lines. -/
def before : List (List Nat) → Nat
  | [] => 0
  | line :: rest => line.length + 1 + before rest

/-- The offset of a character in a line. -/
def offset? (units : List Nat) (line character : Nat) : Option Nat :=
  match (lines units)[line]? with
  | none => none
  | some text =>
    if character ≤ text.length then some (before ((lines units).take line) + character) else none

/-- The first half of a surrogate pair. -/
def isHigh (unit : Nat) : Bool :=
  0xD800 ≤ unit && unit < 0xDC00

/-- The second half of a surrogate pair. -/
def isLow (unit : Nat) : Bool :=
  0xDC00 ≤ unit && unit < 0xE000

/-- The offset lies between the halves of a surrogate pair. -/
def splitsPair (units : List Nat) (offset : Nat) : Bool :=
  (units.take offset).getLast?.any isHigh && (units.drop offset).head?.any isLow

/-- The offset of a line and a character that a client may give. -/
def place? (units : List Nat) (line character : Nat) : Option Nat :=
  (offset? units line character).filter fun offset => !splitsPair units offset

/-- The text with `inserted` in place of the range between two offsets in either order. -/
def replace (units : List Nat) (start stop : Nat) (inserted : List Nat) : List Nat :=
  units.take (min start stop) ++ inserted ++ units.drop (max start stop)

/-! ## Code units of characters -/

theorem ofText_append (xs ys : List Char) : ofText (xs ++ ys) = ofText xs ++ ofText ys :=
  List.flatMap_append

theorem ofText_cons (c : Char) (text : List Char) :
    ofText (c :: text) = Text.codeUnits c.toNat ++ ofText text :=
  List.flatMap_cons

/-- A character is one code unit that is no half of a pair, or two halves. -/
theorem codeUnits_cases (c : Char) :
    (Text.codeUnits c.toNat = [c.toNat] ∧ Text.units16 c = 1) ∨
      ∃ high low, Text.codeUnits c.toNat = [high, low] ∧ Text.units16 c = 2 ∧
        isHigh high = true ∧ isLow low = true := by
  by_cases hwide : c.toNat > 0xFFFF
  · refine .inr ⟨_, _, if_pos hwide, if_pos hwide, ?_, ?_⟩
    · have hmax : c.toNat < 0x110000 := by
        have := c.valid
        simp only [UInt32.isValidChar, Nat.isValidChar] at this
        have hval : c.val.toNat = c.toNat := rfl
        omega
      simp only [isHigh, Bool.and_eq_true, decide_eq_true_eq]
      omega
    · simp only [isLow, Bool.and_eq_true, decide_eq_true_eq]
      omega
  · exact .inl ⟨if_neg hwide, if_neg hwide⟩

theorem length_ofText (text : List Char) : (ofText text).length = Text.length16 text := by
  induction text with
  | nil => rfl
  | cons c text ih =>
    rw [ofText_cons, List.length_append, ih, Text.length16]
    rcases codeUnits_cases c with ⟨hunits, hlength⟩ | ⟨high, low, hunits, hlength, -⟩ <;>
      rw [hunits, hlength] <;> rfl

theorem count_ofText (text : List Char) : (ofText text).count newline = text.count '\n' := by
  induction text with
  | nil => rfl
  | cons c text ih =>
    rw [ofText_cons, List.count_append, ih, List.count_cons, Nat.add_comm]
    congr 1
    rcases codeUnits_cases c with ⟨hunits, -⟩ | ⟨high, low, hunits, hlength, hhigh, hlow⟩
    · by_cases hc : c = '\n'
      · rw [hc]
        rfl
      · have hne : c.toNat ≠ newline := fun h => hc (Char.toNat_inj.mp h)
        rw [hunits, if_neg (by simpa using hc)]
        exact List.count_eq_zero.mpr (by simpa using hne.symm)
    · simp only [isHigh, isLow, Bool.and_eq_true, decide_eq_true_eq] at hhigh hlow
      have hc : c ≠ '\n' := by
        rintro rfl
        cases hlength
      rw [hunits, if_neg (by simpa using hc)]
      apply List.count_eq_zero.mpr
      simp only [newline, List.mem_cons, List.not_mem_nil, or_false, not_or]
      omega

theorem not_mem_ofText {line : List Char} (h : '\n' ∉ line) : newline ∉ ofText line := by
  rw [← List.count_eq_zero] at h ⊢
  rw [count_ofText, h]

theorem whole_ofText {front : List Char} (h : Lines.Whole '\n' front) :
    Lines.Whole newline (ofText front) := by
  rcases h.cases with rfl | ⟨before, rfl⟩
  · exact Lines.whole_nil
  · rw [ofText_append]
    exact Lines.whole_snoc _

/-! ## Lines of code units -/

/-- Lines one behind the other, with a newline after each. -/
def closed : List (List Nat) → List Nat
  | [] => []
  | line :: rest => line ++ newline :: closed rest

theorem length_closed (ls : List (List Nat)) : (closed ls).length = before ls := by
  induction ls with
  | nil => rfl
  | cons line ls ih =>
    rw [closed, List.length_append, List.length_cons, ih, before]
    omega

theorem whole_closed (ls : List (List Nat)) : Lines.Whole newline (closed ls) := by
  induction ls with
  | nil => exact Lines.whole_nil
  | cons line ls ih =>
    rw [closed]
    rcases ih.cases with hnil | ⟨front, hsnoc⟩
    · rw [hnil]
      exact Lines.whole_snoc line
    · have hwhole := @Lines.whole_snoc _ newline (line ++ newline :: front)
      rwa [hsnoc, ← List.cons_append, ← List.append_assoc]

theorem count_closed {ls : List (List Nat)} (h : ∀ l ∈ ls, newline ∉ l) :
    (closed ls).count newline = ls.length := by
  induction ls with
  | nil => rfl
  | cons line ls ih =>
    obtain ⟨hline, hls⟩ := List.forall_mem_cons.mp h
    rw [closed, List.count_append, List.count_eq_zero.mpr hline, List.count_cons_self, ih hls,
      List.length_cons, Nat.zero_add]

theorem lines_ne_nil (units : List Nat) : lines units ≠ [] := by
  cases units with
  | nil => exact List.cons_ne_nil _ _
  | cons unit units =>
    rw [lines]
    split
    · exact List.cons_ne_nil _ _
    · cases lines units <;> exact List.cons_ne_nil _ _

theorem lines_cons {unit : Nat} (units : List Nat) (h : unit ≠ newline) :
    ∃ line rest, lines units = line :: rest ∧ lines (unit :: units) = (unit :: line) :: rest := by
  obtain ⟨line, rest, hlines⟩ := List.exists_cons_of_ne_nil (lines_ne_nil units)
  refine ⟨line, rest, hlines, ?_⟩
  rw [lines, if_neg h, hlines, extend]

theorem not_mem_of_mem_lines {units line : List Nat} (h : line ∈ lines units) : newline ∉ line := by
  induction units generalizing line with
  | nil =>
    rw [List.mem_singleton.mp h]
    exact List.not_mem_nil
  | cons unit units ih =>
    by_cases hunit : unit = newline
    · rw [lines, if_pos hunit] at h
      rcases List.mem_cons.mp h with rfl | h
      · exact List.not_mem_nil
      · exact ih h
    · obtain ⟨first, rest, hlines, hmore⟩ := lines_cons units hunit
      rw [hmore] at h
      rw [hlines] at ih
      rcases List.mem_cons.mp h with rfl | h
      · rw [List.mem_cons, not_or]
        exact ⟨Ne.symm hunit, ih List.mem_cons_self⟩
      · exact ih (List.mem_cons_of_mem _ h)

/-- The lines before one and the line itself are the front of the text. -/
theorem closed_take_lines {units line : List Nat} {i : Nat} (h : (lines units)[i]? = some line) :
    closed ((lines units).take i) ++ line <+: units := by
  induction units generalizing i line with
  | nil =>
    cases i with
    | zero =>
      cases h
      exact List.nil_prefix
    | succ i => cases h
  | cons unit units ih =>
    by_cases hunit : unit = newline
    · rw [lines, if_pos hunit] at h ⊢
      cases i with
      | zero =>
        cases h
        exact List.nil_prefix
      | succ i =>
        rw [List.getElem?_cons_succ] at h
        rw [hunit, List.take_succ_cons, closed, List.nil_append, List.cons_append,
          List.prefix_cons_inj]
        exact ih h
    · obtain ⟨first, rest, hlines, hmore⟩ := lines_cons units hunit
      rw [hlines] at ih
      rw [hmore] at h ⊢
      cases i with
      | zero =>
        cases h
        have hfirst := @ih first 0 rfl
        rw [List.take_zero, closed, List.nil_append] at hfirst ⊢
        exact (List.prefix_cons_inj unit).mpr hfirst
      | succ i =>
        rw [List.getElem?_cons_succ] at h
        have hrest := @ih line (i + 1) h
        rw [List.take_succ_cons, closed] at hrest ⊢
        exact (List.prefix_cons_inj unit).mpr hrest

/-- A place has whole lines before it, as many as its row says, and then as many code units of one
line as its character says. -/
theorem exists_of_offset? {units : List Nat} {line character offset : Nat}
    (h : offset? units line character = some offset) :
    ∃ front text, front ++ text = units.take offset ∧ offset ≤ units.length ∧
      Lines.Whole newline front ∧ newline ∉ text ∧ front.count newline = line ∧
      text.length = character := by
  unfold offset? at h
  split at h
  · cases h
  · rename_i text htext
    split at h
    · rename_i hle
      cases h
      obtain ⟨rest, hunits⟩ := closed_take_lines htext
      have hfree : ∀ l ∈ (lines units).take line, newline ∉ l :=
        fun l hl => not_mem_of_mem_lines (List.mem_of_mem_take hl)
      have hline : line < (lines units).length := (List.getElem?_eq_some_iff.mp htext).1
      have hlength := length_closed ((lines units).take line)
      refine ⟨closed ((lines units).take line), text.take character, ?_, ?_, whole_closed _, ?_, ?_, ?_⟩
      · nth_rewrite 3 [← hunits]
        rw [List.append_assoc, ← hlength, List.take_length_add_append, List.take_append_of_le_length hle]
      · have htotal := congrArg List.length hunits
        simp only [List.length_append] at htotal
        omega
      · exact fun hmem =>
          not_mem_of_mem_lines (List.mem_of_getElem? htext) (List.mem_of_mem_take hmem)
      · rw [count_closed hfree, List.length_take]
        omega
      · rw [List.length_take]
        omega
    · cases h

/-! ## Places between characters -/

theorem splitsPair_of_cons {units : List Nat} {unit offset : Nat}
    (h : splitsPair (unit :: units) (offset + 1) = false) : splitsPair units offset = false := by
  rw [Bool.eq_false_iff] at h ⊢
  intro hsplit
  apply h
  simp only [splitsPair, Bool.and_eq_true] at hsplit ⊢
  obtain ⟨hhigh, hlow⟩ := hsplit
  refine ⟨?_, hlow⟩
  rw [List.take_succ_cons]
  cases htake : units.take offset with
  | nil =>
    rw [htake] at hhigh
    cases hhigh
  | cons first rest =>
    rw [List.getLast?_cons_cons, ← htake]
    exact hhigh

/-- A place that does not lie inside of a pair lies between two characters. -/
theorem exists_boundary {text : List Char} {offset : Nat} (hle : offset ≤ (ofText text).length)
    (h : splitsPair (ofText text) offset = false) :
    ∃ o, o ≤ text.length ∧ ofText (text.take o) = (ofText text).take offset := by
  induction text generalizing offset with
  | nil => exact ⟨0, Nat.le_refl _, by simp [ofText]⟩
  | cons c text ih =>
    cases offset with
    | zero => exact ⟨0, Nat.zero_le _, rfl⟩
    | succ n =>
      rw [ofText_cons] at hle h ⊢
      rcases codeUnits_cases c with ⟨hunits, -⟩ | ⟨high, low, hunits, -, hhigh, hlow⟩
      · rw [hunits, List.singleton_append] at hle h ⊢
        obtain ⟨o, ho, htake⟩ := ih (Nat.le_of_succ_le_succ hle) (splitsPair_of_cons h)
        refine ⟨o + 1, Nat.succ_le_succ ho, ?_⟩
        rw [List.take_succ_cons, ofText_cons, htake, hunits, List.take_succ_cons,
          List.singleton_append]
      · rw [hunits, List.cons_append, List.singleton_append] at hle h ⊢
        cases n with
        | zero => simp [splitsPair, hhigh, hlow] at h
        | succ n =>
          obtain ⟨o, ho, htake⟩ := ih (Nat.le_of_succ_le_succ (Nat.le_of_succ_le_succ hle))
            (splitsPair_of_cons (splitsPair_of_cons h))
          refine ⟨o + 1, Nat.succ_le_succ ho, ?_⟩
          rw [List.take_succ_cons, ofText_cons, htake, hunits, List.take_succ_cons,
            List.take_succ_cons, List.cons_append, List.singleton_append]

/-- The place that a client gives is an offset in the characters of the text. -/
theorem exists_place?_eq {text : List Char} {line character offset : Nat}
    (h : place? (ofText text) line character = some offset) :
    ∃ o, o ≤ text.length ∧ ofText (text.take o) = (ofText text).take offset ∧
      offset ≤ (ofText text).length ∧
      (Lines.ofText text).place? (.int line) (.int character) = some (.exact o) := by
  obtain ⟨hoffset, hpair⟩ := Option.filter_eq_some_iff.mp h
  obtain ⟨front, rest, hsplit, hle, hfront, hrest, rfl, rfl⟩ := exists_of_offset? hoffset
  obtain ⟨o, ho, htake⟩ := exists_boundary hle (by simpa using hpair)
  obtain ⟨lines, start, hchars, hlines, hstart⟩ := Lines.exists_whole '\n' (text.take o)
  -- the lines of the characters are the lines of the code units
  rw [← htake, hchars, ofText_append] at hsplit
  obtain ⟨rfl, rfl⟩ := Lines.eq_of_append_eq hfront hrest (whole_ofText hlines)
    (not_mem_ofText hstart) hsplit
  refine ⟨o, ho, htake, hle, ?_⟩
  have hplace := Lines.place?_append hlines hstart (text.drop o)
  rw [← hchars, List.take_append_drop, List.length_take, Nat.min_eq_left ho] at hplace
  rw [count_ofText, length_ofText, hplace]

/-! ## Replacing -/

theorem ofText_drop {text : List Char} {o offset : Nat}
    (htake : ofText (text.take o) = (ofText text).take offset)
    (hle : offset ≤ (ofText text).length) : ofText (text.drop o) = (ofText text).drop offset := by
  have hsplit : ofText (text.take o) ++ ofText (text.drop o) = ofText text := by
    rw [← ofText_append, List.take_append_drop]
  have hlength : (ofText (text.take o)).length = offset := by
    rw [htake, List.length_take, Nat.min_eq_left hle]
  rw [← hsplit, List.drop_left' hlength]

theorem offset_le {text : List Char} {i j start stop : Nat} (hij : i ≤ j)
    (hstart : ofText (text.take i) = (ofText text).take start) (hle : start ≤ (ofText text).length)
    (hstop : ofText (text.take j) = (ofText text).take stop) : start ≤ stop := by
  obtain ⟨rest, hrest⟩ : text.take i <+: text.take j := List.take_prefix_take_left hij
  have hlength := congrArg List.length hstop
  rw [← hrest, ofText_append, hstart, List.length_append, List.length_take, List.length_take] at hlength
  omega

/-- Replacing characters between two offsets replaces the code units between the places. -/
theorem ofText_splice {text : List Char} {i j start stop : Nat}
    (hstart : ofText (text.take i) = (ofText text).take start) (hi : start ≤ (ofText text).length)
    (hstop : ofText (text.take j) = (ofText text).take stop) (hj : stop ≤ (ofText text).length)
    (inserted : List Char) :
    ofText (text.take (min i j) ++ inserted ++ text.drop (max i j)) =
      replace (ofText text) start stop (ofText inserted) := by
  rw [ofText_append, ofText_append, replace]
  rcases Nat.le_total i j with hij | hji
  · have hle := offset_le hij hstart hi hstop
    rw [Nat.min_eq_left hij, Nat.max_eq_right hij, Nat.min_eq_left hle, Nat.max_eq_right hle, hstart,
      ofText_drop hstop hj]
  · have hle := offset_le hji hstop hj hstart
    rw [Nat.min_eq_right hji, Nat.max_eq_left hji, Nat.min_eq_right hle, Nat.max_eq_left hle, hstop,
      ofText_drop hstart hi]

end RacketTree.Units

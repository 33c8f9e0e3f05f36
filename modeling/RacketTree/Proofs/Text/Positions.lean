import Mathlib.Data.List.Basic
import RacketTree.Server.Position

/-!
# Places in a text

A place in a text has whole lines before it (`Whole`), then the characters of its own line. The row
and the column of an offset are the number of the lines and the length of the stretch
(`position_append`), and the column in UTF-16 code units is the length of the stretch in code units
(`position16_append`). So positions lie in the order of their offsets (`position16_lt`), and the
position of an offset leads back to it (`place?_append`).
-/

namespace RacketTree

namespace Lines

/-! ## Whole lines -/

section Whole

variable {α : Type} {newline : α} {front front' line line' : List α}

/-- There is nothing, or a newline at the end. -/
def Whole (newline : α) (front : List α) : Prop :=
  ∀ x ∈ front.getLast?, x = newline

theorem whole_nil : Whole newline [] :=
  nofun

theorem whole_snoc (front : List α) : Whole newline (front ++ [newline]) := by
  intro x hx
  rw [List.getLast?_concat] at hx
  exact (Option.mem_some.mp hx).symm

theorem Whole.cases (h : Whole newline front) :
    front = [] ∨ ∃ before, front = before ++ [newline] := by
  rcases List.eq_nil_or_concat front with hnil | ⟨before, x, hconcat⟩
  · exact .inl hnil
  · refine .inr ⟨before, ?_⟩
    rw [hconcat, List.concat_eq_append] at h ⊢
    rw [h x (by simp)]

/-- Every text is whole lines and the start of one more. -/
theorem exists_whole [DecidableEq α] (newline : α) (text : List α) :
    ∃ front line, text = front ++ line ∧ Whole newline front ∧ newline ∉ line := by
  induction text with
  | nil => exact ⟨[], [], rfl, whole_nil, List.not_mem_nil⟩
  | cons x text ih =>
    obtain ⟨front, line, rfl, hfront, hline⟩ := ih
    by_cases hx : front = [] ∧ x ≠ newline
    · obtain ⟨rfl, hne⟩ := hx
      exact ⟨[], x :: line, rfl, whole_nil, fun h => (List.mem_cons.mp h).elim (hne ·.symm) hline⟩
    · refine ⟨x :: front, line, rfl, ?_, hline⟩
      rcases hfront.cases with rfl | ⟨before, rfl⟩
      · have heq : x = newline := by
          by_contra hne
          exact hx ⟨rfl, hne⟩
        rw [heq]
        exact whole_snoc []
      · exact whole_snoc (x :: before)

theorem takeWhile_reverse [DecidableEq α] (hfront : Whole newline front) (hline : newline ∉ line) :
    (front ++ line).reverse.takeWhile (· ≠ newline) = line.reverse := by
  have hall : ∀ x ∈ line.reverse, decide (x ≠ newline) = true := by
    intro x hx
    rw [decide_eq_true_eq]
    rintro rfl
    exact hline (List.mem_reverse.mp hx)
  rw [List.reverse_append, List.takeWhile_append_of_pos hall]
  rcases hfront.cases with rfl | ⟨before, rfl⟩ <;> simp

/-- There is only one way to cut a text behind its last whole line. -/
theorem eq_of_append_eq [DecidableEq α] (hfront : Whole newline front) (hline : newline ∉ line)
    (hfront' : Whole newline front') (hline' : newline ∉ line')
    (h : front ++ line = front' ++ line') : front = front' ∧ line = line' := by
  have hreverse := takeWhile_reverse hfront hline
  rw [h, takeWhile_reverse hfront' hline', List.reverse_inj] at hreverse
  cases hreverse
  exact ⟨List.append_cancel_right h, rfl⟩

end Whole

/-! ## Where lines start -/

variable {front line rest : List Char}

theorem startsAfter_append (offset : Nat) (xs ys : List Char) :
    startsAfter offset (xs ++ ys) =
      startsAfter offset xs ++ startsAfter (offset + xs.length) ys := by
  induction xs generalizing offset with
  | nil => rfl
  | cons x xs ih =>
    rw [List.cons_append, startsAfter, startsAfter, ih, List.length_cons, Nat.add_right_comm,
      Nat.add_assoc]
    split
    · rw [List.cons_append]
    · rfl

theorem startsAfter_of_not_mem (offset : Nat) (h : '\n' ∉ line) : startsAfter offset line = [] := by
  induction line generalizing offset with
  | nil => rfl
  | cons x line ih =>
    obtain ⟨hx, hline⟩ := List.ne_and_not_mem_of_not_mem_cons h
    rw [startsAfter, if_neg (Ne.symm hx), ih _ hline]

theorem length_startsAfter (offset : Nat) (text : List Char) :
    (startsAfter offset text).length = text.count '\n' := by
  induction text generalizing offset with
  | nil => rfl
  | cons x text ih =>
    rw [startsAfter, List.count_cons]
    by_cases hx : x = '\n'
    · rw [if_pos hx, List.length_cons, ih, if_pos (beq_iff_eq.mpr hx)]
    · rw [if_neg hx, ih, if_neg (fun h => hx (beq_iff_eq.mp h)), Nat.add_zero]

theorem mem_startsAfter {offset start : Nat} {text : List Char}
    (h : start ∈ startsAfter offset text) :
    offset < start ∧ start ≤ offset + text.length := by
  induction text generalizing offset with
  | nil => cases h
  | cons x text ih =>
    rw [startsAfter] at h
    rw [List.length_cons]
    split at h
    · rcases List.mem_cons.mp h with rfl | h
      · omega
      · have := ih h
        omega
    · have := ih h
      omega

/-- The last line to start in whole lines starts behind them. -/
theorem getElem?_starts (hfront : Whole '\n' front) (rest : List Char) :
    (ofText (front ++ rest)).starts[front.count '\n']? = some front.length := by
  rw [ofText, startsAfter_append, Nat.zero_add]
  rcases hfront.cases with rfl | ⟨before, rfl⟩
  · rfl
  · have hlength : (startsAfter 0 before).length = before.count '\n' := length_startsAfter 0 before
    have hlast : startsAfter 0 (before ++ ['\n']) = startsAfter 0 before ++ [before.length + 1] := by
      rw [startsAfter_append, Nat.zero_add]
      rfl
    rw [List.count_append, List.count_singleton_self, hlast, List.length_append, List.length_singleton,
      List.getElem?_cons_succ, List.append_assoc, List.getElem?_append_right (Nat.le_of_eq hlength),
      hlength, Nat.sub_self]
    rfl

theorem countP_starts (hline : '\n' ∉ line) (rest : List Char) :
    (ofText (front ++ line ++ rest)).starts.countP (· ≤ (front ++ line).length) =
      front.count '\n' + 1 := by
  have hbefore : ∀ start ∈ startsAfter 0 front, decide (start ≤ (front ++ line).length) = true := by
    intro start hmem
    have := (mem_startsAfter hmem).2
    rw [decide_eq_true_eq, List.length_append]
    omega
  have hafter : ∀ start ∈ startsAfter (front ++ line).length rest,
      ¬decide (start ≤ (front ++ line).length) = true := by
    intro start hmem
    have := (mem_startsAfter hmem).1
    rw [decide_eq_true_eq]
    omega
  have hfirst : decide (0 ≤ (front ++ line).length) = true := by simp
  rw [ofText, startsAfter_append, startsAfter_append, startsAfter_of_not_mem _ hline, List.append_nil,
    Nat.zero_add, List.countP_cons, if_pos hfirst, List.countP_append, List.countP_eq_length.mpr hbefore,
    List.countP_eq_zero.mpr hafter, length_startsAfter, Nat.add_zero]

/-! ## Positions of offsets -/

theorem startOf_append (hfront : Whole '\n' front) (rest : List Char) :
    (ofText (front ++ rest)).startOf (front.count '\n') = front.length := by
  rw [startOf, List.getD_eq_getElem?_getD, getElem?_starts hfront]
  rfl

/-- The point behind whole lines and a stretch of one more line. -/
theorem position_append (hfront : Whole '\n' front) (hline : '\n' ∉ line) (rest : List Char) :
    (ofText (front ++ line ++ rest)).position (front ++ line).length =
      ⟨front.count '\n', line.length⟩ := by
  have hle : (front ++ line).length ≤ (front ++ line ++ rest).length := by
    simp only [List.length_append]
    omega
  have hmin : min ((front ++ line).length : Int).toNat (ofText (front ++ line ++ rest)).text.length =
      (front ++ line).length :=
    Nat.min_eq_left hle
  have hstart := startOf_append hfront (line ++ rest)
  rw [← List.append_assoc] at hstart
  simp only [position, hmin, countP_starts hline rest, Nat.add_sub_cancel, hstart]
  rw [List.length_append, Nat.add_sub_cancel_left]

theorem length16_of_ascii {text : List Char} (h : ∀ c ∈ text, c.toNat < 0x80) :
    Text.length16 text = text.length := by
  induction text with
  | nil => rfl
  | cons c text ih =>
    obtain ⟨hc, htext⟩ := List.forall_mem_cons.mp h
    rw [Text.length16, Text.units16, if_neg (by omega), ih htext, List.length_cons, Nat.add_comm]

theorem toNat_of_isAscii {text : List Char} (h : (ofText text).isAscii = true) :
    ∀ c ∈ text, c.toNat < 0x80 := by
  intro c hc
  exact of_decide_eq_true (List.all_eq_true.mp h c hc)

/-- The same in code units. -/
theorem position16_append (hfront : Whole '\n' front) (hline : '\n' ∉ line) (rest : List Char) :
    (ofText (front ++ line ++ rest)).position16 (front ++ line).length =
      ⟨front.count '\n', Text.length16 line⟩ := by
  have hstart := startOf_append hfront (line ++ rest)
  rw [← List.append_assoc] at hstart
  rw [position16, position_append hfront hline]
  split
  · rename_i hascii
    rw [length16_of_ascii fun c hc => toNat_of_isAscii hascii c (by simp [hc])]
  · simp only [hstart]
    rw [ofText, List.append_assoc, List.drop_left, List.take_left]

theorem position16_of_take {text : List Char} {i : Nat} (hi : i ≤ text.length)
    (htake : text.take i = front ++ line) (hfront : Whole '\n' front) (hline : '\n' ∉ line) :
    (ofText text).position16 i = ⟨front.count '\n', Text.length16 line⟩ := by
  have hposition := position16_append hfront hline (text.drop i)
  rwa [← htake, List.take_append_drop, List.length_take, Nat.min_eq_left hi] at hposition

theorem length16_append (xs ys : List Char) :
    Text.length16 (xs ++ ys) = Text.length16 xs + Text.length16 ys := by
  induction xs with
  | nil => rw [List.nil_append, Text.length16, Nat.zero_add]
  | cons x xs ih => rw [List.cons_append, Text.length16, Text.length16, ih, Nat.add_assoc]

theorem length16_pos {text : List Char} (h : text ≠ []) : 0 < Text.length16 text := by
  cases text with
  | nil => exact absurd rfl h
  | cons c text =>
    rw [Text.length16, Text.units16]
    split <;> omega

end Lines

/-- The point comes before another one in a text. -/
def Point.Before (p q : Point) : Prop :=
  p.row < q.row ∨ p.row = q.row ∧ p.column < q.column

namespace Lines

/-- Positions lie in the order of their offsets. -/
theorem position16_lt {text : List Char} {i j : Nat} (hij : i < j) (hj : j ≤ text.length) :
    ((ofText text).position16 i).Before ((ofText text).position16 j) := by
  obtain ⟨front, line, htake, hfront, hline⟩ := exists_whole '\n' (text.take i)
  obtain ⟨front', line', hextra, hfront', hline'⟩ := exists_whole '\n' ((text.take j).drop i)
  have hsplit : text.take j = front ++ line ++ (front' ++ line') := by
    have hshorter : (text.take j).take i = text.take i := by
      rw [List.take_take, Nat.min_eq_left (Nat.le_of_lt hij)]
    rw [← hextra, ← htake, ← hshorter, List.take_append_drop]
  have hextra_ne : front' ++ line' ≠ [] := by
    rw [← hextra, Ne, List.drop_eq_nil_iff, List.length_take]
    omega
  rw [position16_of_take (by omega) htake hfront hline]
  rcases hfront'.cases with rfl | ⟨before, rfl⟩
  · -- the two offsets are in one line
    rw [List.nil_append] at hextra_ne hsplit
    have hboth : '\n' ∉ line ++ line' := by
      rw [List.mem_append, not_or]
      exact ⟨hline, hline'⟩
    rw [position16_of_take hj (hsplit.trans (List.append_assoc _ _ _)) hfront hboth]
    refine .inr ⟨rfl, ?_⟩
    show Text.length16 line < Text.length16 (line ++ line')
    rw [length16_append]
    have := length16_pos hextra_ne
    omega
  · have hwhole : Whole '\n' (front ++ line ++ (before ++ ['\n'])) := by
      rw [← List.append_assoc]
      exact whole_snoc _
    rw [position16_of_take hj (hsplit.trans (List.append_assoc _ _ _).symm) hwhole hline']
    refine .inl ?_
    show front.count '\n' < (front ++ line ++ (before ++ ['\n'])).count '\n'
    simp only [List.count_append, List.count_singleton_self]
    omega

/-! ## Offsets of positions -/

variable {front line rest : List Char}

theorem count_ofText (text : List Char) : (ofText text).count = text.count '\n' + 1 := by
  rw [count, ofText, List.length_cons, length_startsAfter]

theorem atIndex?_natCast {α : Type} (xs : List α) (i : Nat) : Text.atIndex? xs i = xs[i]? := by
  rw [Text.atIndex?, if_pos (Int.natCast_nonneg i), Int.toNat_natCast]

theorem slice_natCast {α : Type} (xs : List α) {lo hi : Nat} (hlo : lo ≤ xs.length)
    (hhi : hi ≤ xs.length) : Text.slice xs lo hi = (xs.take hi).drop lo := by
  have hbound {i : Nat} (hi : i ≤ xs.length) : Text.bound xs.length i = i := by
    rw [Text.bound, if_neg (by omega)]
    omega
  rw [Text.slice, hbound hlo, hbound hhi]

/-- The row behind whole lines. -/
theorem line?_append (hfront : Whole '\n' front) (hline : '\n' ∉ line)
    (hrest : ∀ c ∈ rest.head?, c = '\n') :
    (ofText (front ++ line ++ rest)).line? (front.count '\n') = some line := by
  have hstart := getElem?_starts hfront (line ++ rest)
  rw [← List.append_assoc] at hstart
  have hnone : line.count '\n' = 0 := List.count_eq_zero.mpr hline
  rw [line?, atIndex?_natCast, hstart, count_ofText]
  simp only [List.count_append, hnone, Nat.add_zero]
  cases rest with
  | nil =>
    have hlast : ¬((front.count '\n' : Int) + 1 < ((front.count '\n' + 1 : Nat) : Int)) := by
      omega
    simp only [List.count_nil, Nat.add_zero, if_neg hlast, List.append_nil]
    show some (Text.slice (front ++ line) front.length (front ++ line).length) = some line
    rw [slice_natCast, List.take_length, List.drop_left]
    · simp
    · exact Nat.le_refl _
  | cons c rest =>
    obtain rfl : c = '\n' := hrest c rfl
    have hmore : (front.count '\n' : Int) + 1 <
        ((front.count '\n' + ('\n' :: rest).count '\n' + 1 : Nat) : Int) := by
      rw [List.count_cons_self]
      omega
    -- the next line starts behind the newline
    have hnext := getElem?_starts (whole_snoc (front ++ line)) rest
    simp only [List.count_append, hnone, List.count_singleton_self, Nat.add_zero,
      List.append_assoc (front ++ line), List.singleton_append] at hnext
    have hindex : (front.count '\n' : Int) + 1 = ((front.count '\n' + 1 : Nat) : Int) := rfl
    simp only [if_pos hmore]
    rw [hindex, atIndex?_natCast, hnext]
    show some (Text.slice (front ++ line ++ '\n' :: rest) front.length
      (((front ++ line ++ ['\n']).length : Int) - 1)) = some line
    have hstop : ((front ++ line ++ ['\n']).length : Int) - 1 = ((front ++ line).length : Nat) := by
      rw [List.length_append, List.length_singleton]
      omega
    rw [hstop, slice_natCast, List.take_left, List.drop_left]
    · simp
    · simp

theorem column16_append (line tail : List Char) (units : Nat) :
    column16 units ((units + Text.length16 line : Nat) : Int) (line ++ tail) = line.length := by
  induction line generalizing units with
  | nil =>
    cases tail with
    | nil => rfl
    | cons c tail =>
      rw [List.nil_append, column16, if_pos]
      · rfl
      · simp [Text.length16]
  | cons c line ih =>
    have hpos : 0 < Text.length16 (c :: line) := length16_pos (List.cons_ne_nil _ _)
    have hunits : units + Text.length16 (c :: line) =
        units + Text.units16 c + Text.length16 line := by
      rw [Text.length16, Nat.add_assoc]
    rw [List.cons_append, column16, if_neg (by omega), hunits, ih, List.length_cons, Nat.add_comm]

theorem exists_line_rest (text : List Char) :
    ∃ tail rest, text = tail ++ rest ∧ '\n' ∉ tail ∧ ∀ c ∈ rest.head?, c = '\n' := by
  refine ⟨text.takeWhile (· ≠ '\n'), text.dropWhile (· ≠ '\n'),
    List.takeWhile_append_dropWhile.symm, ?_, ?_⟩
  · intro hmem
    have := List.all_eq_true.mp List.all_takeWhile _ hmem
    simp at this
  · intro c hc
    have := List.head?_dropWhile_not (· ≠ '\n') text
    rw [hc] at this
    simpa using this

/-- The number of characters of a line before a character of a client. -/
def columnIn (l : Lines) (character : Int) (line : List Char) : Nat :=
  if l.isAscii then min character.toNat line.length else column16 0 character line

/-- The place of a character in the row behind whole lines. -/
theorem place?_row (hfront : Whole '\n' front) (hline : '\n' ∉ line)
    (hrest : ∀ c ∈ rest.head?, c = '\n') (character : Int) :
    (ofText (front ++ line ++ rest)).place? (.int (front.count '\n')) (.int character) =
      some (.exact (front.length + columnIn (ofText (front ++ line ++ rest)) character line)) := by
  have hrow := line?_append hfront hline hrest
  have hcount : ¬((ofText (front ++ line ++ rest)).count : Int) ≤ front.count '\n' := by
    rw [count_ofText]
    simp only [List.count_append]
    omega
  cases hascii : (ofText (front ++ line ++ rest)).isAscii with
  | true =>
    have hstart := startOf_append hfront (line ++ rest)
    rw [← List.append_assoc] at hstart
    have hneg : ¬((front.count '\n' : Nat) : Int) < 0 := by
      omega
    simp only [place?, Json.asInt?, if_neg hcount, hascii, Bool.not_true, Bool.false_eq_true, if_false,
      if_neg hneg, Int.toNat_natCast, placeInRow?, Option.map_some, offset, hstart, lengthOf, hrow,
      Option.getD_some, columnIn, if_true]
  | false =>
    have hindex := getElem?_starts hfront (line ++ rest)
    rw [← List.append_assoc] at hindex
    -- in an empty row every character stands for its start
    have hcolumn : ∃ column, (if some line = some [] then some 0 else some character) = some column ∧
        column16 0 column line = column16 0 character line := by
      cases line with
      | nil => exact ⟨0, rfl, rfl⟩
      | cons c line => exact ⟨character, if_neg (by simp), rfl⟩
    obtain ⟨column, hgiven, hsame⟩ := hcolumn
    simp only [place?, Json.asInt?, if_neg hcount, hascii, Bool.not_false, if_true, placeInRow16?, hrow,
      roundedCharacter?, hgiven, offset16?, Bool.false_eq_true, if_false, atIndex?_natCast, hindex,
      columnIn]
    show some (Place.exact (front.length + column16 0 column line)) = _
    rw [hsame]

/-- The position behind whole lines and a stretch of one more line leads back to its offset. -/
theorem place?_append (hfront : Whole '\n' front) (hline : '\n' ∉ line) (rest : List Char) :
    (ofText (front ++ line ++ rest)).place? (.int (front.count '\n')) (.int (Text.length16 line)) =
      some (.exact (front ++ line).length) := by
  obtain ⟨tail, rest, rfl, htail, hrest⟩ := exists_line_rest rest
  have hboth : '\n' ∉ line ++ tail := by
    rw [List.mem_append, not_or]
    exact ⟨hline, htail⟩
  have htext : front ++ line ++ (tail ++ rest) = front ++ (line ++ tail) ++ rest := by
    simp only [List.append_assoc]
  have hcolumn : columnIn (ofText (front ++ (line ++ tail) ++ rest)) (Text.length16 line)
      (line ++ tail) = line.length := by
    unfold columnIn
    split
    · rename_i hascii
      rw [length16_of_ascii fun c hc => toNat_of_isAscii hascii c (by simp [hc]), Int.toNat_natCast,
        List.length_append, Nat.min_eq_left (Nat.le_add_right _ _)]
    · have hunits := column16_append line tail 0
      rwa [Nat.zero_add] at hunits
  rw [htext, place?_row hfront hboth hrest, hcolumn, List.length_append]

/-! ## Any position -/

/-- The lines of a text up to a row, the row and what comes behind it. -/
theorem exists_row {text : List Char} {row : Nat} (h : row ≤ text.count '\n') :
    ∃ front line rest, text = front ++ line ++ rest ∧ Whole '\n' front ∧ front.count '\n' = row ∧
      '\n' ∉ line ∧ ∀ c ∈ rest.head?, c = '\n' := by
  obtain ⟨line, rest, rfl, hline, hrest⟩ := exists_line_rest text
  induction row generalizing line rest with
  | zero => exact ⟨[], line, rest, rfl, whole_nil, rfl, hline, hrest⟩
  | succ row ih =>
    rw [List.count_append, List.count_eq_zero.mpr hline, Nat.zero_add] at h
    cases rest with
    | nil => cases h
    | cons c rest =>
      obtain rfl : c = '\n' := hrest c rfl
      rw [List.count_cons_self] at h
      obtain ⟨line', rest', rfl, hline', hrest'⟩ := exists_line_rest rest
      obtain ⟨front, last, behind, htext, hfront, hcount, hlast, hbehind⟩ :=
        ih line' rest' (Nat.le_of_succ_le_succ h) hline' hrest'
      refine ⟨line ++ '\n' :: front, last, behind, ?_, ?_, ?_, hlast, hbehind⟩
      · rw [htext]
        simp only [List.append_assoc, List.cons_append]
      · rcases hfront.cases with rfl | ⟨before, rfl⟩
        · exact whole_snoc line
        · have := @whole_snoc _ '\n' (line ++ '\n' :: before)
          rwa [List.append_assoc] at this
      · rw [List.count_append, List.count_eq_zero.mpr hline, List.count_cons_self, hcount,
          Nat.zero_add]

theorem column16_le (units : Nat) (character : Int) (line : List Char) :
    column16 units character line ≤ line.length := by
  induction line generalizing units with
  | nil => exact Nat.le_refl _
  | cons c line ih =>
    rw [column16, List.length_cons]
    split
    · omega
    · have := ih (units + Text.units16 c)
      omega

/-- Every line and character stands for a place in the text. -/
theorem exists_place? (text : List Char) (line character : Nat) :
    ∃ o, o ≤ text.length ∧
      (ofText text).place? (.int line) (.int character) = some (.exact o) := by
  by_cases hline : text.count '\n' < line
  · refine ⟨text.length, Nat.le_refl _, ?_⟩
    have hcount : ((ofText text).count : Int) ≤ line := by
      rw [count_ofText]
      omega
    simp only [place?, Json.asInt?, if_pos hcount]
    rfl
  · obtain ⟨front, row, rest, rfl, hfront, rfl, hrow, hrest⟩ := exists_row (Nat.le_of_not_lt hline)
    refine ⟨_, ?_, place?_row hfront hrow hrest character⟩
    have hcolumn : columnIn (ofText (front ++ row ++ rest)) character row ≤ row.length := by
      unfold columnIn
      split
      · exact Nat.min_le_right _ _
      · exact column16_le 0 character row
    simp only [List.length_append]
    omega

end Lines

end RacketTree

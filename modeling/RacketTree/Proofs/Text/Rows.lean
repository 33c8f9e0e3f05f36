import RacketTree.Proofs.Text.Positions

/-!
# Rows of a text

`IsRow` cuts a text into the lines before a row, the row and what comes behind it. What a line index
says of the row is read off the cut: the text of the row, its number, where it starts, and for each
of its columns the offset and the point. Every row of a text has its cut (`exists_isRow`), and every
offset lies in a column of a row (`exists_column`).
-/

namespace RacketTree.Lines

/-- A text is whole lines, a row and the end of the text or a newline with what follows. -/
structure IsRow (text front line rest : List Char) : Prop where
  text_eq : text = front ++ line ++ rest
  whole : Whole '\n' front
  not_mem : '\n' ∉ line
  head : ∀ c ∈ rest.head?, c = '\n'

variable {text front line rest : List Char}

theorem maxRow_ofText (text : List Char) : (ofText text).maxRow = text.count '\n' := by
  rw [maxRow, count_ofText, Nat.add_sub_cancel]

/-- Every row up to the greatest is there. -/
theorem exists_isRow {row : Nat} (h : row ≤ (ofText text).maxRow) :
    ∃ front line rest, IsRow text front line rest ∧ front.count '\n' = row := by
  rw [maxRow_ofText] at h
  obtain ⟨front, line, rest, htext, hfront, hrow, hline, hrest⟩ := exists_row h
  exact ⟨front, line, rest, ⟨htext, hfront, hline, hrest⟩, hrow⟩

/-- A text that is cut anywhere is cut in a row. -/
theorem exists_isRow_append (before behind : List Char) :
    ∃ front start tail rest, before = front ++ start ∧ behind = tail ++ rest ∧
      IsRow (before ++ behind) front (start ++ tail) rest := by
  obtain ⟨front, start, rfl, hfront, hstart⟩ := exists_whole '\n' before
  obtain ⟨tail, rest, rfl, htail, hrest⟩ := exists_line_rest behind
  have hline : '\n' ∉ start ++ tail := by
    rw [List.mem_append, not_or]
    exact ⟨hstart, htail⟩
  exact ⟨front, start, tail, rest, rfl, rfl, by simp only [List.append_assoc], hfront, hline, hrest⟩

/-- Every offset lies in a column of a row. -/
theorem exists_column {o : Nat} (h : o ≤ text.length) :
    ∃ front line rest column, IsRow text front line rest ∧ column ≤ line.length ∧
      front.length + column = o := by
  obtain ⟨front, start, tail, rest, htake, -, hrow⟩ :=
    exists_isRow_append (text.take o) (text.drop o)
  rw [List.take_append_drop] at hrow
  have hlength := congrArg List.length htake
  rw [List.length_take, Nat.min_eq_left h, List.length_append] at hlength
  refine ⟨front, start ++ tail, rest, start.length, hrow, ?_, hlength.symm⟩
  rw [List.length_append]
  exact Nat.le_add_right _ _

namespace IsRow

theorem line? (h : IsRow text front line rest) :
    (ofText text).line? (front.count '\n') = some line := by
  rw [h.text_eq]
  exact line?_append h.whole h.not_mem h.head

/-- A row that a line index has is a row of its text. -/
theorem of_line? {row : Nat} (h : (ofText text).line? row = some line) :
    ∃ front rest, IsRow text front line rest ∧ front.count '\n' = row := by
  have hrow : row ≤ (ofText text).maxRow := by
    by_contra hbeyond
    have hnone : (ofText text).starts[row]? = none := by
      rw [List.getElem?_eq_none_iff]
      simp only [Lines.maxRow, Lines.count] at hbeyond
      omega
    rw [Lines.line?, atIndex?_natCast, hnone] at h
    cases h
  obtain ⟨front, line', rest, hisRow, rfl⟩ := exists_isRow hrow
  rw [hisRow.line?, Option.some_inj] at h
  exact ⟨front, rest, h ▸ hisRow, rfl⟩

theorem lengthOf (h : IsRow text front line rest) :
    (ofText text).lengthOf (front.count '\n') = line.length := by
  rw [Lines.lengthOf, h.line?]
  rfl

theorem getElem?_starts (h : IsRow text front line rest) :
    (ofText text).starts[front.count '\n']? = some front.length := by
  rw [h.text_eq, List.append_assoc]
  exact Lines.getElem?_starts h.whole (line ++ rest)

theorem startOf (h : IsRow text front line rest) :
    (ofText text).startOf (front.count '\n') = front.length := by
  rw [h.text_eq, List.append_assoc]
  exact startOf_append h.whole (line ++ rest)

theorem row_le (h : IsRow text front line rest) : front.count '\n' ≤ (ofText text).maxRow := by
  rw [maxRow_ofText, h.text_eq, List.append_assoc, List.count_append]
  exact Nat.le_add_right _ _

theorem not_count_le (h : IsRow text front line rest) :
    ¬((ofText text).count : Int) ≤ front.count '\n' := by
  have := h.row_le
  rw [maxRow_ofText] at this
  rw [count_ofText]
  omega

theorem length_le (h : IsRow text front line rest) : front.length + line.length ≤ text.length := by
  rw [h.text_eq, List.length_append, List.length_append]
  exact Nat.le_add_right _ _

/-- The text up to a column of the row. -/
theorem take (h : IsRow text front line rest) {column : Nat} (hcolumn : column ≤ line.length) :
    text.take (front.length + column) = front ++ line.take column := by
  rw [h.text_eq, List.append_assoc, List.take_length_add_append,
    List.take_append_of_le_length hcolumn]

theorem not_mem_take (h : IsRow text front line rest) (column : Nat) :
    '\n' ∉ line.take column :=
  fun hmem => h.not_mem (List.mem_of_mem_take hmem)

/-- The text behind a column of the row. -/
theorem append_drop (h : IsRow text front line rest) {column : Nat}
    (hcolumn : column ≤ line.length) :
    front ++ line.take column ++ text.drop (front.length + column) = text := by
  rw [← h.take hcolumn, List.take_append_drop]

/-! ## Columns -/

theorem position (h : IsRow text front line rest) {column : Nat} (hcolumn : column ≤ line.length) :
    (ofText text).position ((front.length + column : Nat) : Int) =
      ⟨front.count '\n', column⟩ := by
  have hpoint := position_append h.whole (h.not_mem_take column)
    (text.drop (front.length + column))
  rwa [h.append_drop hcolumn, List.length_append, List.length_take, Nat.min_eq_left hcolumn]
    at hpoint

theorem offset (h : IsRow text front line rest) (column : Int) :
    (ofText text).offset (front.count '\n') column =
      front.length + min column.toNat line.length := by
  have hneg : ¬((front.count '\n' : Nat) : Int) < 0 := by
    omega
  rw [Lines.offset, if_neg hneg, if_neg h.not_count_le, Int.toNat_natCast, h.startOf, h.lengthOf]

theorem offset_column (h : IsRow text front line rest) {column : Nat}
    (hcolumn : column ≤ line.length) :
    (ofText text).offset (front.count '\n') column = front.length + column := by
  rw [h.offset, Int.toNat_natCast, Nat.min_eq_left hcolumn]

theorem position16 (h : IsRow text front line rest) {column : Nat}
    (hcolumn : column ≤ line.length) :
    (ofText text).position16 ((front.length + column : Nat) : Int) =
      ⟨front.count '\n', Text.length16 (line.take column)⟩ := by
  refine position16_of_take ?_ (h.take hcolumn) h.whole (h.not_mem_take column)
  have := h.length_le
  omega

end IsRow

end RacketTree.Lines

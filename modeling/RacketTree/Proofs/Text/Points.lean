import Mathlib.Data.Set.Function
import Mathlib.Order.Bounds.Basic
import RacketTree.Proofs.Text.Rows
import RacketTree.Proofs.Text.Units

/-!
# Offsets, points and code units

The offsets of a text stand one to one with its points, in order, and `Lines.offset` leads back from
a point to its offset (`bijOn_position`, `position_lt`). Columns in UTF-16 code units are in order
too, but not every number of code units is one: inside of a surrogate pair and behind the end of a
row there is no offset. `IsColumnAt` says which column such a number stands for.

A text in ASCII is looked up without counting code units. `IsRow.offset16?` says that this makes no
difference.
-/

namespace RacketTree.Lines

variable {text front line rest : List Char}

/-! ## Points -/

/-- The points of a text: in each row the columns up to its end. -/
def points (l : Lines) : Set Point :=
  {p | p.row ≤ l.maxRow ∧ p.column ≤ l.lengthOf p.row}

theorem exists_of_mem_points {p : Point} (hp : p ∈ (ofText text).points) :
    ∃ front line rest, IsRow text front line rest ∧ front.count '\n' = p.row ∧
      p.column ≤ line.length := by
  obtain ⟨front, line, rest, hrow, hcount⟩ := exists_isRow hp.1
  refine ⟨front, line, rest, hrow, hcount, ?_⟩
  rw [← hrow.lengthOf, hcount]
  exact hp.2

theorem position_mem_points {o : Nat} (ho : o ≤ text.length) :
    (ofText text).position o ∈ (ofText text).points := by
  obtain ⟨front, line, rest, column, hrow, hcolumn, rfl⟩ := exists_column ho
  rw [hrow.position hcolumn]
  refine ⟨hrow.row_le, ?_⟩
  show column ≤ (ofText text).lengthOf (front.count '\n')
  rwa [hrow.lengthOf]

theorem offset_position {o : Nat} (ho : o ≤ text.length) :
    (ofText text).offset ((ofText text).position o).row ((ofText text).position o).column = o := by
  obtain ⟨front, line, rest, column, hrow, hcolumn, rfl⟩ := exists_column ho
  rw [hrow.position hcolumn]
  exact hrow.offset_column hcolumn

theorem offset_le_of_mem_points {p : Point} (hp : p ∈ (ofText text).points) :
    (ofText text).offset p.row p.column ≤ text.length := by
  obtain ⟨front, line, rest, hrow, hcount, hcolumn⟩ := exists_of_mem_points hp
  rw [← hcount, hrow.offset_column hcolumn]
  exact (Nat.add_le_add_left hcolumn _).trans hrow.length_le

theorem position_offset {p : Point} (hp : p ∈ (ofText text).points) :
    (ofText text).position ((ofText text).offset p.row p.column) = p := by
  obtain ⟨front, line, rest, hrow, hcount, hcolumn⟩ := exists_of_mem_points hp
  rw [← hcount, hrow.offset_column hcolumn, hrow.position hcolumn, hcount]

theorem invOn_position (text : List Char) :
    Set.InvOn (fun p : Point => (ofText text).offset p.row p.column)
      (fun o : Nat => (ofText text).position o) (Set.Iic text.length) (ofText text).points :=
  ⟨fun _ ho => offset_position ho, fun _ hp => position_offset hp⟩

theorem bijOn_position (text : List Char) :
    Set.BijOn (fun o : Nat => (ofText text).position o) (Set.Iic text.length)
      (ofText text).points :=
  (invOn_position text).bijOn (fun _ ho => position_mem_points ho)
    (fun _ hp => offset_le_of_mem_points hp)

theorem startOf_add_column {o : Nat} (ho : o ≤ text.length) :
    (ofText text).startOf ((ofText text).position o).row + ((ofText text).position o).column =
      o := by
  obtain ⟨front, line, rest, column, hrow, hcolumn, rfl⟩ := exists_column ho
  rw [hrow.position hcolumn]
  show (ofText text).startOf (front.count '\n') + column = _
  rw [hrow.startOf]

theorem row_position16 (l : Lines) (o : Int) : (l.position16 o).row = (l.position o).row := by
  rw [position16]
  split <;> rfl

/-- Points lie in the order of their offsets. -/
theorem position_lt {i j : Nat} (hij : i < j) (hj : j ≤ text.length) :
    ((ofText text).position i).Before ((ofText text).position j) := by
  -- the rows are those of the positions in code units, and in one row the columns differ as the
  -- offsets do
  have hi := startOf_add_column ((Nat.le_of_lt hij).trans hj)
  have hj' := startOf_add_column hj
  have hbefore := position16_lt hij hj
  rw [Point.Before, row_position16, row_position16] at hbefore
  rcases hbefore with hrow | ⟨hrow, -⟩
  · exact .inl hrow
  · refine .inr ⟨hrow, ?_⟩
    rw [hrow] at hi
    omega

/-! ## Columns in code units -/

/-- The columns of a row with at least a number of code units before them. -/
def columnsFrom (line : List Char) (character : Int) : Set Nat :=
  {column | column ≤ line.length ∧ character ≤ (Units.ofText (line.take column)).length}

/-- The column that a number of code units stands for: the least one with as many before it, or the
end of a row that has fewer. -/
def IsColumnAt (line : List Char) (character : Int) (column : Nat) : Prop :=
  IsLeast (columnsFrom line character) column ∨
    columnsFrom line character = ∅ ∧ column = line.length

theorem lt_of_lt_column16 {units column : Nat} {character : Int} {line : List Char}
    (h : column < column16 units character line) :
    ((units + Text.length16 (line.take column) : Nat) : Int) < character := by
  induction line generalizing units column with
  | nil => cases h
  | cons c line ih =>
    rw [column16] at h
    split at h
    · cases h
    · rename_i hmore
      cases column with
      | zero =>
        rw [List.take_zero, Text.length16]
        omega
      | succ column =>
        have hlt := ih (Nat.lt_of_succ_lt_succ (Nat.add_comm 1 _ ▸ h))
        rw [List.take_succ_cons, Text.length16]
        omega

theorem le_of_column16_lt {units : Nat} {character : Int} {line : List Char}
    (h : column16 units character line < line.length) :
    character ≤ (units + Text.length16 (line.take (column16 units character line)) : Nat) := by
  induction line generalizing units with
  | nil => cases h
  | cons c line ih =>
    rw [column16] at h ⊢
    split at h
    · rename_i hunits
      rw [if_pos hunits, List.take_zero, Text.length16]
      exact hunits
    · rename_i hunits
      rw [List.length_cons, Nat.add_comm 1] at h
      have hle := ih (Nat.lt_of_succ_lt_succ h)
      rw [if_neg hunits, Nat.add_comm 1, List.take_succ_cons, Text.length16]
      omega

/-- Counting code units along a row finds the column. -/
theorem isColumnAt_column16 (line : List Char) (character : Int) :
    IsColumnAt line character (column16 0 character line) := by
  have hbefore : ∀ column ∈ columnsFrom line character,
      column16 0 character line ≤ column := by
    rintro column ⟨-, hunits⟩
    by_contra hlt
    have := lt_of_lt_column16 (Nat.lt_of_not_le hlt)
    rw [Units.length_ofText] at hunits
    omega
  have hle := column16_le 0 character line
  by_cases hreached : column16 0 character line ∈ columnsFrom line character
  · exact .inl ⟨hreached, hbefore⟩
  · -- the count has come to the end of the row
    have hend : column16 0 character line = line.length := by
      by_contra hne
      have hunits := le_of_column16_lt (Nat.lt_of_le_of_ne hle hne)
      rw [Nat.zero_add, ← Units.length_ofText] at hunits
      exact hreached ⟨hle, hunits⟩
    refine .inr ⟨Set.eq_empty_of_forall_notMem fun column hcolumn => ?_, hend⟩
    have hlast : column = column16 0 character line :=
      Nat.le_antisymm (hend ▸ hcolumn.1) (hbefore column hcolumn)
    exact hreached (hlast ▸ hcolumn)

/-- In ASCII the code units are the characters, so that there is nothing to count. -/
theorem column16_of_ascii {line : List Char} (h : ∀ c ∈ line, c.toNat < 0x80) (units : Nat)
    (character : Int) :
    column16 units character line = min (character - units).toNat line.length := by
  induction line generalizing units with
  | nil => rw [column16, List.length_nil, Nat.min_zero]
  | cons c line ih =>
    obtain ⟨hc, hline⟩ := List.forall_mem_cons.mp h
    have hone : Text.units16 c = 1 := if_neg (by omega)
    rw [column16, List.length_cons, hone, ih hline]
    split <;> omega

theorem IsRow.mem_text (h : IsRow text front line rest) {c : Char} (hc : c ∈ line) : c ∈ text := by
  rw [h.text_eq]
  simp [hc]

/-- The offset of a number of code units in a row, whether or not the text is in ASCII. -/
theorem IsRow.offset16? (h : IsRow text front line rest) (character : Int) :
    (ofText text).offset16? (front.count '\n') character =
      some (front.length + column16 0 character line) := by
  rw [Lines.offset16?, if_neg h.not_count_le]
  split
  · rename_i hascii
    have hline : ∀ c ∈ line, c.toNat < 0x80 := fun c hc => toNat_of_isAscii hascii c (h.mem_text hc)
    rw [h.offset, column16_of_ascii hline, Int.natCast_zero, Int.sub_zero]
  · rw [h.line?, atIndex?_natCast, h.getElem?_starts]
    rfl

theorem offset16?_of_maxRow_lt {row : Nat} (h : (ofText text).maxRow < row) (character : Int) :
    (ofText text).offset16? row character = some text.length := by
  rw [maxRow_ofText] at h
  have hcount : ((ofText text).count : Int) ≤ row := by
    rw [count_ofText]
    omega
  rw [offset16?, if_pos hcount]
  rfl

theorem exists_isColumnAt {row : Nat} (h : row ≤ (ofText text).maxRow) (character : Int) :
    ∃ line column, (ofText text).line? row = some line ∧ IsColumnAt line character column ∧
      (ofText text).offset16? row character = some ((ofText text).offset row column) := by
  obtain ⟨front, line, rest, hrow, rfl⟩ := exists_isRow h
  refine ⟨line, column16 0 character line, hrow.line?, isColumnAt_column16 line character, ?_⟩
  rw [hrow.offset16?, hrow.offset_column (column16_le 0 character line)]

theorem offset16?_position16 {o : Nat} (ho : o ≤ text.length) :
    (ofText text).offset16? ((ofText text).position16 o).row ((ofText text).position16 o).column =
      some o := by
  obtain ⟨front, line, rest, column, hrow, hcolumn, rfl⟩ := exists_column ho
  have hunits := column16_append (line.take column) (line.drop column) 0
  rw [Nat.zero_add, List.take_append_drop, List.length_take, Nat.min_eq_left hcolumn] at hunits
  rw [hrow.position16 hcolumn]
  show (ofText text).offset16? (front.count '\n') (Text.length16 (line.take column)) = _
  rw [hrow.offset16?, hunits]

/-- Offsets stand one to one with points and with positions in code units, in order. From a point or
a position the offset comes back. Any row and number of code units have an offset too: that of the
column they stand for, or the end of the text if there is no such row. -/
theorem positions_correspond (text : List Char) :
    let l := ofText text
    Set.BijOn (fun o : Nat => l.position o) (Set.Iic text.length) l.points ∧
    Set.InvOn (fun p : Point => l.offset p.row p.column) (fun o : Nat => l.position o)
      (Set.Iic text.length) l.points ∧
    (∀ i j : Nat, i < j → j ≤ text.length →
      (l.position i).Before (l.position j) ∧ (l.position16 i).Before (l.position16 j)) ∧
    (∀ o : Nat, o ≤ text.length →
      l.offset16? (l.position16 o).row (l.position16 o).column = some o) ∧
    ∀ (row : Nat) (character : Int),
      (l.maxRow < row → l.offset16? row character = some text.length) ∧
      (row ≤ l.maxRow → ∃ line column, l.line? row = some line ∧ IsColumnAt line character column ∧
        l.offset16? row character = some (l.offset row column)) := by
  refine ⟨bijOn_position text, invOn_position text, fun i j hij hj => ?_, fun o ho => ?_,
    fun row character => ⟨fun h => ?_, fun h => ?_⟩⟩
  · exact ⟨position_lt hij hj, position16_lt hij hj⟩
  · exact offset16?_position16 ho
  · exact offset16?_of_maxRow_lt h character
  · exact exists_isColumnAt h character

/-- A surrogate pair before a newline. The place between its halves stands for the one behind it. -/
theorem positions_correspond_pair :
    let l := ofText ['😀', '\n', 'a']
    (l.position 1).Before (l.position 2) ∧ (l.position16 1).Before (l.position16 2) ∧
      l.offset16? (l.position16 1).row (l.position16 1).column = some 1 ∧
      (∃ line column, l.line? 0 = some line ∧ IsColumnAt line 1 column ∧
        l.offset16? 0 1 = some (l.offset 0 column)) ∧
      l.offset16? 0 1 = some 1 ∧ l.offset16? 2 0 = some 3 := by
  intro l
  obtain ⟨-, -, horder, hback, hany⟩ := positions_correspond ['😀', '\n', 'a']
  obtain ⟨hpoint, hunits⟩ := horder 1 2 (by decide) (by decide)
  exact ⟨hpoint, hunits, hback 1 (by decide), (hany 0 1).2 (by decide), by decide,
    (hany 2 0).1 (by decide)⟩

end RacketTree.Lines

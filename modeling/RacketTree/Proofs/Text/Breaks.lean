import RacketTree.Proofs.Text.Splitting
import RacketTree.Text.LineBreak

/-!
# Line boundaries and rows

A text is printed line by line, cut at every line boundary, and a line index knows the newline only.
What is printed never holds a boundary (`isLineBreak_of_mem_breakLines`). More boundaries give no
fewer lines, so every row that has text has its number among the lines
(`row_lt_length_breakLines`). The lines are the rows if newlines are the only boundaries
(`line?_of_getElem?_breakLines`).
-/

namespace RacketTree.Text

variable {line front rest text : List Char} {c : Char} {row : Nat}

/-- The line goes on with a character that is no boundary. -/
theorem breakLinesFrom_cons (h : isLineBreak c = false) (line rest : List Char) :
    breakLinesFrom line (c :: rest) = breakLinesFrom (c :: line) rest := by
  rw [breakLinesFrom]
  · exact if_neg (Bool.eq_false_iff.mp h)
  · rintro rest rfl -
    cases h

/-- The line goes on up to the next boundary. -/
theorem breakLinesFrom_append (h : ∀ c ∈ front, isLineBreak c = false) (line rest : List Char) :
    breakLinesFrom line (front ++ rest) = breakLinesFrom (front.reverse ++ line) rest := by
  induction front generalizing line with
  | nil => rfl
  | cons c front ih =>
    obtain ⟨hc, hfront⟩ := List.forall_mem_cons.mp h
    rw [List.cons_append, breakLinesFrom_cons hc, ih hfront, List.reverse_cons, List.append_assoc,
      List.singleton_append]

/-- A text without boundaries is one line, if it is not empty. -/
theorem breakLines_of_forall (h : ∀ c ∈ line, isLineBreak c = false) :
    breakLines line = if line.isEmpty then [] else [line] := by
  have happend := breakLinesFrom_append h [] []
  rw [List.append_nil, List.append_nil] at happend
  rw [breakLines, happend, breakLinesFrom, List.isEmpty_reverse, List.reverse_reverse]

theorem breakLines_newline (h : ∀ c ∈ line, isLineBreak c = false) (rest : List Char) :
    breakLines (line ++ '\n' :: rest) = line :: breakLines rest := by
  rw [breakLines, breakLinesFrom_append h, List.append_nil, breakLinesFrom, List.reverse_reverse]
  · rfl
  · intro rest h
    exact absurd h (by decide)

/-- There is no boundary in a line. -/
theorem isLineBreak_of_mem_breakLinesFrom (hline : ∀ c ∈ line, isLineBreak c = false) :
    ∀ l ∈ breakLinesFrom line text, ∀ c ∈ l, isLineBreak c = false := by
  fun_induction breakLinesFrom line text with
  | case1 => simp
  | case2 line hne => simpa using hline
  | case3 line rest ih => simpa using ⟨hline, ih (List.forall_mem_nil _)⟩
  | case4 line c rest _ _ ih => simpa using ⟨hline, ih (List.forall_mem_nil _)⟩
  | case5 line c rest _ hc ih =>
    exact ih (List.forall_mem_cons.mpr ⟨Bool.eq_false_iff.mpr hc, hline⟩)

theorem isLineBreak_of_mem_breakLines (h : line ∈ breakLines text) :
    ∀ c ∈ line, isLineBreak c = false :=
  isLineBreak_of_mem_breakLinesFrom (List.forall_mem_nil _) line h

/-! ## Rows with text -/

theorem breakLinesFrom_ne_nil (hline : line ≠ []) : breakLinesFrom line text ≠ [] := by
  fun_induction breakLinesFrom line text with
  | case1 line hempty => exact absurd (List.isEmpty_iff.mp hempty) hline
  | case2 => exact List.cons_ne_nil _ _
  | case3 => exact List.cons_ne_nil _ _
  | case4 => exact List.cons_ne_nil _ _
  | case5 line c rest _ _ ih => exact ih (List.cons_ne_nil _ _)

/-- There are more lines than newlines before a character. -/
theorem count_lt_length_breakLinesFrom (line front rest : List Char) (c : Char) :
    front.count '\n' < (breakLinesFrom line (front ++ c :: rest)).length := by
  generalize htext : front ++ c :: rest = text
  -- along the cutting, each newline before the character ends a line of its own
  fun_induction breakLinesFrom line text generalizing front with
  | case1 => simp at htext
  | case2 => simp at htext
  | case3 line text ih =>
    -- the character may stand before the two characters of the boundary, between them or behind
    rcases front with _ | ⟨d, _ | ⟨e, front⟩⟩
    · exact Nat.zero_lt_succ _
    · obtain rfl : d = '\r' := (List.cons.inj htext).1
      exact Nat.zero_lt_succ _
    · simp only [List.cons_append, List.cons.injEq] at htext
      obtain ⟨rfl, rfl, htext⟩ := htext
      rw [List.count_cons_of_ne (by decide), List.count_cons_self, List.length_cons]
      exact Nat.succ_lt_succ (ih front htext)
  | case4 line d text _ _ ih =>
    cases front with
    | nil => exact Nat.zero_lt_succ _
    | cons _ front =>
      have := ih front (List.cons.inj htext).2
      rw [List.length_cons, List.count_cons]
      split <;> omega
  | case5 line d text _ hd ih =>
    cases front with
    | nil => exact List.length_pos_of_ne_nil (breakLinesFrom_ne_nil (List.cons_ne_nil _ _))
    | cons e front =>
      obtain ⟨rfl, hbehind⟩ := List.cons.inj htext
      rw [List.count_cons_of_ne]
      · exact ih front hbehind
      · rintro rfl
        exact hd rfl

theorem row_lt_length_breakLines (h : (Lines.ofText text).line? row = some line)
    (hline : line ≠ []) : row < (breakLines text).length := by
  obtain ⟨front, rest, hrow, rfl⟩ := Lines.IsRow.of_line? h
  obtain ⟨c, line, rfl⟩ := List.exists_cons_of_ne_nil hline
  rw [hrow.text_eq, List.append_assoc]
  exact count_lt_length_breakLinesFrom [] front (line ++ rest) c

/-- Every character but a newline stands in a row. -/
theorem exists_line?_of_mem (h : c ∈ text) (hc : c ≠ '\n') :
    ∃ (row : Nat) (line : List Char), (Lines.ofText text).line? row = some line ∧ c ∈ line := by
  obtain ⟨before, behind, rfl⟩ := List.append_of_mem h
  obtain ⟨front, start, tail, rest, -, hbehind, hrow⟩ :=
    Lines.exists_isRow_append before (c :: behind)
  have hmem : c ∈ tail := by
    cases tail with
    | nil =>
      rw [List.nil_append] at hbehind
      exact absurd (hrow.head c (by rw [← hbehind]; rfl)) hc
    | cons d tail =>
      cases hbehind
      exact List.mem_cons_self
  exact ⟨front.count '\n', start ++ tail, hrow.line?, List.mem_append_right _ hmem⟩

/-! ## Rows as lines -/

/-- Newlines are the only boundaries of a text. -/
def OnlyNewlines (text : List Char) : Prop :=
  ∀ c ∈ text, isLineBreak c = true → c = '\n'

/-- The lines behind whole lines are the rows behind them. -/
theorem line?_of_getElem?_append (hfront : Lines.Whole '\n' front) (htext : OnlyNewlines text)
    (h : (breakLines text)[row]? = some line) :
    (Lines.ofText (front ++ text)).line? ((front.count '\n' + row : Nat) : Int) = some line := by
  -- row by row, on the length of what is left of the text
  induction hn : text.length using Nat.strongRecOn generalizing front text row with
  | ind n ih =>
    obtain ⟨first, rest, rfl, hfirst, hrest⟩ := Lines.exists_line_rest text
    have hbreak : ∀ c ∈ first, isLineBreak c = false := by
      intro c hc
      rw [Bool.eq_false_iff]
      intro hbreak
      rw [htext c (List.mem_append_left rest hc) hbreak] at hc
      exact hfirst hc
    have hrow : Lines.IsRow (front ++ (first ++ rest)) front first rest :=
      ⟨(List.append_assoc _ _ _).symm, hfront, hfirst, hrest⟩
    cases rest with
    | nil =>
      rw [List.append_nil, breakLines_of_forall hbreak] at h
      split at h
      · simp at h
      · obtain ⟨rfl, rfl⟩ : row = 0 ∧ first = line := by
          simpa [List.getElem?_singleton] using h
        exact hrow.line?
    | cons c rest =>
      obtain rfl : c = '\n' := hrest c rfl
      rw [breakLines_newline hbreak] at h
      cases row with
      | zero =>
        rw [List.getElem?_cons_zero, Option.some_inj] at h
        rw [← h]
        exact hrow.line?
      | succ row =>
        rw [List.getElem?_cons_succ] at h
        have hshorter : rest.length < n := by
          rw [← hn, List.length_append, List.length_cons]
          omega
        have hbehind : OnlyNewlines rest := fun c hc =>
          htext c (List.mem_append_right _ (List.mem_cons_of_mem _ hc))
        have hnext := ih rest.length hshorter (Lines.whole_snoc (front ++ first)) hbehind h rfl
        rwa [hrow.count_next, Nat.add_assoc, Nat.add_comm 1, List.append_assoc, List.append_assoc,
          List.singleton_append] at hnext

theorem line?_of_getElem?_breakLines (htext : OnlyNewlines text)
    (h : (breakLines text)[row]? = some line) : (Lines.ofText text).line? row = some line := by
  have happend := line?_of_getElem?_append Lines.whole_nil htext h
  rwa [List.nil_append, List.count_nil, Nat.zero_add] at happend

end RacketTree.Text

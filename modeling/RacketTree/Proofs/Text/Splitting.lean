import Mathlib.Data.List.Induction
import RacketTree.Proofs.Text.Points

/-!
# Splitting ranges at the ends of lines

A range of offsets ends in the row in which it starts, or it goes on at the start of the next row.
`range_induction` is the induction along these steps, from the last row back to the first. With it,
a range that is split at the ends of lines loses nothing (`covers_splitRange`), and the rows of its
parts are the rows of its offsets (`foldl_addRow_rowsFrom`). So the rows that several ranges touch
are those of their offsets, in the order in which these are met.
-/

namespace RacketTree.Lines

variable {text front line rest : List Char} {a b column : Nat}

/-! ## From row to row -/

/-- Behind the newline of a row there is another row. -/
theorem IsRow.exists_next (h : IsRow text front line ('\n' :: rest)) :
    ∃ next rest', IsRow text (front ++ line ++ ['\n']) next rest' := by
  obtain ⟨next, rest', hrest, hnext, hhead⟩ := exists_line_rest rest
  refine ⟨next, rest', ?_, whole_snoc _, hnext, hhead⟩
  rw [h.text_eq, hrest]
  simp only [List.append_assoc, List.cons_append, List.nil_append]

theorem IsRow.count_next (h : IsRow text front line rest) :
    (front ++ line ++ ['\n']).count '\n' = front.count '\n' + 1 := by
  rw [List.count_append, List.count_append, List.count_eq_zero.mpr h.not_mem,
    List.count_singleton_self, Nat.add_zero]

/-- The start of the next row. -/
theorem IsRow.position_next (h : IsRow text front line ('\n' :: rest)) :
    (ofText text).position ((front.length + line.length + 1 : Nat) : Int) =
      ⟨front.count '\n' + 1, 0⟩ := by
  obtain ⟨next, rest', hnext⟩ := h.exists_next
  have hposition := hnext.position (Nat.zero_le next.length)
  rwa [h.count_next, List.length_append, List.length_append, List.length_singleton,
    Nat.add_zero] at hposition

/-- A range ends in its first row, or the rest of it starts in the next row. -/
theorem range_induction {motive : Nat → Prop} (hb : b ≤ text.length)
    (last : ∀ {front line rest column stop}, IsRow text front line rest → column ≤ stop →
      stop ≤ line.length → front.length + stop = b → motive (front.length + column))
    (next : ∀ {front line rest column}, IsRow text front line ('\n' :: rest) →
      column ≤ line.length → front.length + line.length + 1 ≤ b →
      motive (front.length + line.length + 1) → motive (front.length + column)) :
    ∀ a, a ≤ b → motive a := by
  intro a hab
  induction hn : b - a using Nat.strongRecOn generalizing a with
  | ind n ih =>
    obtain ⟨front, line, rest, column, hrow, hcolumn, rfl⟩ := exists_column (hab.trans hb)
    by_cases hin : b ≤ front.length + line.length
    · obtain ⟨stop, rfl⟩ := Nat.exists_eq_add_of_le (Nat.le_of_add_right_le hab)
      exact last hrow (Nat.le_of_add_le_add_left hab) (Nat.le_of_add_le_add_left hin) rfl
    · -- there is more text behind the row
      cases rest with
      | nil =>
        have htext := congrArg List.length hrow.text_eq
        simp only [List.length_append, List.length_nil] at htext
        omega
      | cons c rest =>
        obtain rfl : c = '\n' := hrow.head c rfl
        refine next hrow hcolumn (by omega) ?_
        exact ih (b - (front.length + line.length + 1)) (by omega) _ (by omega) rfl

/-! ## The parts of a range -/

/-- The characters in a range of a row. -/
def charsOf (l : Lines) (r : LineRange) : List Char :=
  Text.slice ((l.line? r.row).getD []) r.start r.stop

/-- Ranges of consecutive rows lie in them and cover the text between two offsets. -/
structure Covers (text : List Char) (a b : Nat) (rs : List LineRange) : Prop where
  rows : rs.map LineRange.row = List.range' ((ofText text).position a).row
    (((ofText text).position b).row + 1 - ((ofText text).position a).row)
  within : ∀ r ∈ rs, ∃ line, (ofText text).line? r.row = some line ∧ r.start ≤ r.stop ∧
    r.stop ≤ line.length
  chars : List.intercalate ['\n'] (rs.map (ofText text).charsOf) = (text.take b).drop a

theorem row_le_row (hab : a ≤ b) (hb : b ≤ text.length) :
    ((ofText text).position a).row ≤ ((ofText text).position b).row := by
  rcases Nat.eq_or_lt_of_le hab with rfl | hlt
  · exact Nat.le_refl _
  · rcases position_lt hlt hb with hrow | ⟨hrow, -⟩
    · exact Nat.le_of_lt hrow
    · exact Nat.le_of_eq hrow

theorem Covers.ne_nil {rs : List LineRange} (h : Covers text a b rs) (hab : a ≤ b)
    (hb : b ≤ text.length) : rs ≠ [] := by
  rintro rfl
  have hlength := congrArg List.length h.rows
  have := row_le_row hab hb
  rw [List.map_nil, List.length_nil, List.length_range'] at hlength
  omega

theorem IsRow.charsOf (h : IsRow text front line rest) {start stop : Nat} (hstart : start ≤ stop)
    (hstop : stop ≤ line.length) :
    (ofText text).charsOf ⟨front.count '\n', start, stop⟩ = (line.take stop).drop start := by
  rw [Lines.charsOf, h.line?, Option.getD_some, slice_natCast line (hstart.trans hstop) hstop]

/-- A range in one row is a part of its own. -/
theorem IsRow.covers (h : IsRow text front line rest) {stop : Nat} (hcolumn : column ≤ stop)
    (hstop : stop ≤ line.length) :
    Covers text (front.length + column) (front.length + stop)
      [⟨front.count '\n', column, stop⟩] where
  rows := by
    rw [h.position (hcolumn.trans hstop), h.position hstop]
    show [front.count '\n'] = List.range' _ (front.count '\n' + 1 - front.count '\n')
    rw [Nat.add_sub_cancel_left, List.range'_one]
  within := by
    intro r hr
    rw [List.mem_singleton.mp hr]
    exact ⟨line, h.line?, hcolumn, hstop⟩
  chars := by
    rw [List.map_singleton, List.intercalate_singleton, h.charsOf hcolumn hstop, h.take hstop,
      List.drop_length_add_append]

/-- The rest of a row stands before the parts of a range that starts in the next row. -/
theorem Covers.cons {rs : List LineRange} (h : IsRow text front line ('\n' :: rest))
    (hcolumn : column ≤ line.length) (hle : front.length + line.length + 1 ≤ b)
    (hb : b ≤ text.length) (hrs : Covers text (front.length + line.length + 1) b rs) :
    Covers text (front.length + column) b (⟨front.count '\n', column, line.length⟩ :: rs) where
  rows := by
    have hrows := hrs.rows
    have hlast := row_le_row hle hb
    rw [h.position_next] at hrows hlast
    rw [List.map_cons, hrows, h.position hcolumn]
    show _ = List.range' (front.count '\n') (((ofText text).position b).row + 1 - front.count '\n')
    have hlength : ((ofText text).position b).row + 1 - front.count '\n' =
        ((ofText text).position b).row + 1 - (front.count '\n' + 1) + 1 := by
      simp only at hlast
      omega
    rw [hlength, List.range'_succ]
  within := by
    intro r hr
    rcases List.mem_cons.mp hr with rfl | hr
    · exact ⟨line, h.line?, hcolumn, Nat.le_refl _⟩
    · exact hrs.within r hr
  chars := by
    have hne : rs.map (ofText text).charsOf ≠ [] := by
      simpa using hrs.ne_nil hle hb
    obtain ⟨more, rfl⟩ := Nat.exists_eq_add_of_le hle
    -- up to `b` the text is the lines before, the row with its newline and some of the rest
    have htake : text.take (front.length + line.length + 1 + more) =
        front ++ (line ++ '\n' :: rest.take more) := by
      have hlength : front.length + line.length + 1 = (front ++ line ++ ['\n']).length := by
        simp only [List.length_append, List.length_singleton]
      have htext : text = front ++ line ++ ['\n'] ++ rest := by
        rw [h.text_eq, List.append_assoc _ ['\n'], List.singleton_append]
      rw [hlength, htext, List.take_length_add_append]
      simp only [List.append_assoc, List.cons_append, List.nil_append]
    rw [List.map_cons, List.intercalate_cons_of_ne_nil hne, hrs.chars,
      h.charsOf hcolumn (Nat.le_refl _), List.take_length, htake, List.drop_length_add_append,
      List.drop_append_of_le_length hcolumn, Nat.add_assoc, List.drop_length_add_append,
      List.drop_length_add_append, List.append_assoc]
    rfl

theorem splitRange_last (h : IsRow text front line rest) {stop : Nat} (hcolumn : column ≤ stop)
    (hstop : stop ≤ line.length) :
    (ofText text).splitRange (front.length + column : Nat) (front.length + stop : Nat) =
      [⟨front.count '\n', column, stop⟩] := by
  simp only [splitRange, h.position (hcolumn.trans hstop), h.position hstop, if_true]

theorem splitRange_next (h : IsRow text front line ('\n' :: rest)) (hcolumn : column ≤ line.length)
    (hle : front.length + line.length + 1 ≤ b) (hb : b ≤ text.length) :
    (ofText text).splitRange (front.length + column : Nat) b =
      ⟨front.count '\n', column, line.length⟩ ::
        (ofText text).splitRange (front.length + line.length + 1 : Nat) b := by
  have hlast := row_le_row hle hb
  rw [h.position_next] at hlast
  simp only [splitRange, h.position hcolumn, h.position_next, h.lengthOf]
  generalize (ofText text).position b = p at hlast ⊢
  obtain ⟨more, hmore⟩ := Nat.exists_eq_add_of_le hlast
  simp only at hmore
  have hne : front.count '\n' ≠ p.row := by
    omega
  rw [if_neg hne]
  cases more with
  | zero =>
    -- the range ends in the next row
    rw [Nat.add_zero] at hmore
    rw [if_pos hmore.symm, hmore, Nat.sub_self, List.range'_zero]
    rfl
  | succ more =>
    have hfirst : p.row - (front.count '\n' + 1) = p.row - (front.count '\n' + 1 + 1) + 1 := by
      omega
    rw [if_neg (by omega), hfirst, List.range'_succ]
    rfl

/-- The parts of a range cover it. -/
theorem covers_splitRange (hab : a ≤ b) (hb : b ≤ text.length) :
    Covers text a b ((ofText text).splitRange a b) := by
  refine range_induction (motive := fun a => Covers text a b ((ofText text).splitRange a b)) hb
    ?_ ?_ a hab
  · rintro front line rest column stop hrow hcolumn hstop rfl
    rw [splitRange_last hrow hcolumn hstop]
    exact hrow.covers hcolumn hstop
  · intro front line rest column hrow hcolumn hle hcovers
    rw [splitRange_next hrow hcolumn hle hb]
    exact hcovers.cons hrow hcolumn hle hb

/-! ## Rows in the order in which they are met -/

/-- The rows with one more, unless it is among them. -/
def addRow (rows : List Nat) (row : Nat) : List Nat :=
  if rows.contains row then rows else rows ++ [row]

theorem addRow_of_mem {rows : List Nat} {row : Nat} (h : row ∈ rows) : addRow rows row = rows := by
  rw [addRow, if_pos (List.contains_iff_mem.mpr h)]

theorem addRow_of_notMem {rows : List Nat} {row : Nat} (h : row ∉ rows) :
    addRow rows row = rows ++ [row] := by
  rw [addRow, if_neg (fun hc => h (List.contains_iff_mem.mp hc))]

theorem mem_addRow {rows : List Nat} {row i : Nat} : i ∈ addRow rows row ↔ i ∈ rows ∨ i = row := by
  by_cases h : row ∈ rows
  · rw [addRow_of_mem h]
    constructor
    · exact .inl
    · rintro (hi | rfl)
      · exact hi
      · exact h
  · rw [addRow_of_notMem h, List.mem_append, List.mem_singleton]

theorem mem_foldl_addRow {rows seen : List Nat} {i : Nat} :
    i ∈ seen.foldl addRow rows ↔ i ∈ rows ∨ i ∈ seen := by
  induction seen generalizing rows with
  | nil => simp
  | cons row seen ih => rw [List.foldl_cons, ih, mem_addRow, List.mem_cons, or_assoc]

/-- The rows that are kept come in the order in which they are first met. -/
theorem pairwise_foldl_addRow (seen : List Nat) :
    (seen.foldl addRow []).Pairwise fun i j => seen.idxOf i < seen.idxOf j := by
  induction seen using List.reverseRecOn with
  | nil => exact .nil
  | append_singleton seen row ih =>
    have hseen : ∀ i ∈ seen.foldl addRow [], i ∈ seen := by
      intro i hi
      simpa using mem_foldl_addRow.mp hi
    have hbefore : (seen.foldl addRow []).Pairwise
        fun i j => (seen ++ [row]).idxOf i < (seen ++ [row]).idxOf j := by
      refine ih.imp_of_mem fun hi hj hlt => ?_
      rwa [List.idxOf_append_of_mem (hseen _ hi), List.idxOf_append_of_mem (hseen _ hj)]
    rw [List.foldl_append, List.foldl_cons, List.foldl_nil]
    by_cases hrow : row ∈ seen.foldl addRow []
    · rwa [addRow_of_mem hrow]
    · rw [addRow_of_notMem hrow, List.pairwise_append]
      refine ⟨hbefore, List.pairwise_singleton _ _, fun i hi j hj => ?_⟩
      have hnew : row ∉ seen := fun hmem => hrow (mem_foldl_addRow.mpr (.inr hmem))
      rw [List.mem_singleton.mp hj, List.idxOf_append_of_mem (hseen i hi),
        List.idxOf_append_of_notMem hnew]
      exact Nat.lt_of_lt_of_le (List.idxOf_lt_length_iff.mpr (hseen i hi)) (Nat.le_add_right _ _)

theorem nodup_foldl_addRow (seen : List Nat) : (seen.foldl addRow []).Nodup := by
  refine (pairwise_foldl_addRow seen).imp ?_
  rintro i j hlt rfl
  exact Nat.lt_irrefl _ hlt

/-- The rows of the offsets from one to another. -/
def rowsFrom (l : Lines) (a b : Int) : List Nat :=
  (intRange a b).map fun x => (l.position x).row

theorem rowsFrom_natCast (l : Lines) (a b : Nat) :
    l.rowsFrom a b = (List.range' a (b + 1 - a)).map fun x : Nat => (l.position x).row := by
  have hlength : ((b : Int) + 1 - a).toNat = b + 1 - a := by
    omega
  rw [rowsFrom, intRange, hlength, List.map_map, List.range'_eq_map_range, List.map_map]
  rfl

theorem foldl_addRow_replicate (rows : List Nat) (row n : Nat) :
    (List.replicate (n + 1) row).foldl addRow rows = addRow rows row := by
  induction n generalizing rows with
  | zero => rfl
  | succ n ih =>
    rw [List.replicate_succ, List.foldl_cons, ih, addRow_of_mem (mem_addRow.mpr (.inr rfl))]

/-- The offsets of a stretch of a row are all in it. -/
theorem IsRow.map_row (h : IsRow text front line rest) {n : Nat}
    (hn : column + n ≤ line.length + 1) :
    (List.range' (front.length + column) n).map (fun x : Nat => ((ofText text).position x).row) =
      List.replicate n (front.count '\n') := by
  rw [List.eq_replicate_iff]
  refine ⟨by simp, fun row hrow => ?_⟩
  obtain ⟨x, hx, rfl⟩ := List.mem_map.mp hrow
  obtain ⟨hle, hlt⟩ := List.mem_range'_1.mp hx
  obtain ⟨i, rfl⟩ := Nat.exists_eq_add_of_le (by omega : front.length ≤ x)
  rw [h.position (by omega)]

/-- Along a range the rows of its offsets are met in the order of its parts. -/
theorem foldl_addRow_rowsFrom (hab : a ≤ b) (hb : b ≤ text.length) (rows : List Nat) :
    ((ofText text).rowsFrom a b).foldl addRow rows =
      (((ofText text).splitRange a b).map LineRange.row).foldl addRow rows := by
  refine range_induction (motive := fun a => ∀ rows,
    ((ofText text).rowsFrom a b).foldl addRow rows =
      (((ofText text).splitRange a b).map LineRange.row).foldl addRow rows) hb ?_ ?_ a hab rows
  · rintro front line rest column stop hrow hcolumn hstop rfl rows
    rw [splitRange_last hrow hcolumn hstop, rowsFrom_natCast, hrow.map_row (by omega)]
    have hlength : front.length + stop + 1 - (front.length + column) = stop - column + 1 := by
      omega
    rw [hlength, foldl_addRow_replicate]
    rfl
  · intro front line rest column hrow hcolumn hle ih rows
    rw [splitRange_next hrow hcolumn hle hb, List.map_cons, List.foldl_cons, ← ih, rowsFrom_natCast,
      rowsFrom_natCast]
    have hlength : b + 1 - (front.length + column) =
        (line.length - column + 1) + (b + 1 - (front.length + line.length + 1)) := by
      omega
    have hsplit := @List.range'_append (front.length + column) (line.length - column + 1)
      (b + 1 - (front.length + line.length + 1)) 1
    have hnext : front.length + column + 1 * (line.length - column + 1) =
        front.length + line.length + 1 := by
      omega
    rw [hlength, ← hsplit, hnext, List.map_append, List.foldl_append, hrow.map_row (by omega),
      foldl_addRow_replicate]

/-- The rows of the offsets in several ranges, one range after the other. -/
def rowsIn (l : Lines) (ranges : List (Int × Int)) : List Nat :=
  ranges.flatMap fun r => l.rowsFrom r.1 r.2

theorem rowsIn_cons (l : Lines) (r : Int × Int) (ranges : List (Int × Int)) :
    l.rowsIn (r :: ranges) = l.rowsFrom r.1 r.2 ++ l.rowsIn ranges :=
  List.flatMap_cons

theorem splitRanges_cons (l : Lines) (r : Int × Int) (ranges : List (Int × Int)) :
    l.splitRanges (r :: ranges) = l.splitRange r.1 r.2 ++ l.splitRanges ranges :=
  List.flatMap_cons

theorem mem_intRange {first last x : Int} : x ∈ intRange first last ↔ first ≤ x ∧ x ≤ last := by
  simp only [intRange, List.mem_map, List.mem_range]
  constructor
  · rintro ⟨i, hi, rfl⟩
    omega
  · intro h
    exact ⟨(x - first).toNat, by omega, by omega⟩

theorem mem_rowsIn {l : Lines} {ranges : List (Int × Int)} {row : Nat} :
    row ∈ l.rowsIn ranges ↔
      ∃ r ∈ ranges, ∃ x : Int, r.1 ≤ x ∧ x ≤ r.2 ∧ (l.position x).row = row := by
  simp only [rowsIn, rowsFrom, List.mem_flatMap, List.mem_map, mem_intRange, and_assoc]

theorem foldl_addRow_splitRanges {ranges : List (Int × Int)}
    (h : ∀ r ∈ ranges, 0 ≤ r.1 ∧ r.1 ≤ r.2 ∧ r.2 ≤ text.length) (rows : List Nat) :
    (((ofText text).splitRanges ranges).map LineRange.row).foldl addRow rows =
      ((ofText text).rowsIn ranges).foldl addRow rows := by
  induction ranges generalizing rows with
  | nil => rfl
  | cons r ranges ih =>
    obtain ⟨⟨hfirst, hle, hlast⟩, hranges⟩ := List.forall_mem_cons.mp h
    obtain ⟨first, last⟩ := r
    obtain ⟨a, rfl⟩ := Int.eq_ofNat_of_zero_le hfirst
    obtain ⟨b, rfl⟩ := Int.eq_ofNat_of_zero_le (hfirst.trans hle)
    have hrow := foldl_addRow_rowsFrom (Int.ofNat_le.mp hle) (Int.ofNat_le.mp hlast) rows
    rw [splitRanges_cons, List.map_append, List.foldl_append, rowsIn_cons, List.foldl_append, hrow,
      ih hranges]

/-- A range that is split at the ends of lines is still all there: its parts lie in consecutive
rows, from the row of its start to the row of its end, and joined by newlines they are the text in
it. The rows that several ranges touch are those of the offsets in them, each once and in the order
in which they are first met. -/
theorem splitRange_keeps (text : List Char) :
    let l := ofText text
    (∀ a b : Nat, a ≤ b → b ≤ text.length →
      (l.splitRange a b).map LineRange.row =
        List.range' (l.position a).row ((l.position b).row + 1 - (l.position a).row) ∧
      (∀ r ∈ l.splitRange a b, ∃ line, l.line? r.row = some line ∧ r.start ≤ r.stop ∧
        r.stop ≤ line.length) ∧
      List.intercalate ['\n'] ((l.splitRange a b).map l.charsOf) = (text.take b).drop a) ∧
    ∀ ranges : List (Int × Int), (∀ r ∈ ranges, 0 ≤ r.1 ∧ r.1 ≤ r.2 ∧ r.2 ≤ text.length) →
      (l.rowsOf ranges).Nodup ∧
      (∀ row, row ∈ l.rowsOf ranges ↔
        ∃ r ∈ ranges, ∃ x : Int, r.1 ≤ x ∧ x ≤ r.2 ∧ (l.position x).row = row) ∧
      (l.rowsOf ranges).Pairwise fun i j =>
        (l.rowsIn ranges).idxOf i < (l.rowsIn ranges).idxOf j := by
  refine ⟨fun a b hab hb => ?_, fun ranges h => ?_⟩
  · have hcovers := covers_splitRange hab hb
    exact ⟨hcovers.rows, hcovers.within, hcovers.chars⟩
  · have hrows : (ofText text).rowsOf ranges = ((ofText text).rowsIn ranges).foldl addRow [] :=
      foldl_addRow_splitRanges h []
    simp only [hrows]
    refine ⟨nodup_foldl_addRow _, fun row => ?_, pairwise_foldl_addRow _⟩
    rw [mem_foldl_addRow, ← mem_rowsIn]
    simp only [List.not_mem_nil, false_or]

/-- A range from the end of a row over an empty row, and two ranges in rows that are out of
order. -/
theorem splitRange_keeps_emptyRow :
    let l := ofText ['a', '\n', '\n', 'b']
    l.splitRange 1 4 = [⟨0, 1, 1⟩, ⟨1, 0, 0⟩, ⟨2, 0, 1⟩] ∧
      List.intercalate ['\n'] ((l.splitRange 1 4).map l.charsOf) = ['\n', '\n', 'b'] ∧
      l.rowsOf [(3, 4), (0, 2), (3, 3)] = [2, 0, 1] ∧
      (l.rowsOf [(3, 4), (0, 2), (3, 3)]).Nodup := by
  intro l
  obtain ⟨hsplit, hrows⟩ := splitRange_keeps ['a', '\n', '\n', 'b']
  obtain ⟨-, -, hchars⟩ := hsplit 1 4 (by decide) (by decide)
  exact ⟨by decide, hchars, by decide, (hrows _ (by decide)).1⟩

end RacketTree.Lines

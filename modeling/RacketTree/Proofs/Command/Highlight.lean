import RacketTree.Command.View
import RacketTree.Proofs.Number.Decimal
import RacketTree.Proofs.Text.Breaks

/-!
# Lines with their tokens

What is printed under a line are the labels of the row of its number (`highlight_eq`). The lines
come from cutting the source at every line boundary and the rows from its line index, so the text of
a line is the text of its row only if the two cut alike. They do if newlines are the only boundaries
of the source. Otherwise some row holds a boundary, and nothing printed does (`unbroken_shownRow`),
so this row is missing.
-/

namespace RacketTree.View

open Text (isLineBreak breakLines OnlyNewlines)

variable {source line : List Char} {l : Lines} {leaves : List Node} {row : Nat} {out : List String}

/-! ## What is shown of a row -/

/-- The leaves of a source other than whitespace and what is missing. -/
def shownLeaves (config : Config) (source : List Char) : List Node :=
  let (a, t) := parse config source
  (t.node a).leaves.filter fun leaf => leaf.kind != .whitespace && leaf.kind != .missing

/-- The label of a part of a leaf: its kind and its columns. -/
def label (leaf : Node) (r : LineRange) : String :=
  leaf.kind.name ++ s!"@{r.start}-{r.stop}"

/-- The labels of the parts in a row, of leaves that are cut at the ends of lines. -/
def rowLabels (l : Lines) (leaves : List Node) (row : Nat) : List String :=
  leaves.flatMap fun leaf =>
    ((l.splitRange leaf.start leaf.stop).filter (·.row == row)).map (label leaf)

/-- A line under the number of a row, and under it the labels of the row if it has any. -/
def shownRow (l : Lines) (leaves : List Node) (row : Nat) (line : List Char) : List String :=
  (Report.rowNumber (row + 1) ++ " | " ++ String.ofList line) ::
    if rowLabels l leaves row = [] then []
    else ["      | " ++ String.intercalate " " (rowLabels l leaves row)]

/-- Lines under the numbers from one on, each with the labels of the row of its number. -/
def shownLines (l : Lines) (leaves : List Node) (lines : List (List Char)) : List String :=
  lines.zipIdx.flatMap fun r => shownRow l leaves r.2 r.1

/-- What is printed are rows of the source, each under its number, with its text and with its
labels. Every row that has text is among them. -/
def ShowsRows (l : Lines) (leaves : List Node) (out : List String) : Prop :=
  ∃ rows : List (List Char × Nat),
    out = rows.flatMap (fun r => shownRow l leaves r.2 r.1) ∧
    (∀ r ∈ rows, l.line? r.2 = some r.1) ∧
    ∀ (row : Nat) (line : List Char), l.line? row = some line → line ≠ [] → (line, row) ∈ rows

/-! ## What is printed -/

theorem filter_parts (l : Lines) (leaves : List Node) (row : Nat) :
    ((leaves.flatMap (leafParts l)).filter (·.1 == row)).map (·.2) = rowLabels l leaves row := by
  rw [List.filter_flatMap, List.map_flatMap, rowLabels]
  congr 1
  funext leaf
  rw [leafParts, List.filter_map, List.map_map]
  rfl

theorem highlightedRow_eq (l : Lines) (leaves : List Node) (row : Nat) (line : List Char) :
    highlightedRow (leaves.flatMap (leafParts l)) row line = shownRow l leaves row line := by
  rw [highlightedRow, filter_parts, shownRow]
  split
  · rename_i h
    rw [if_pos h]
  · rename_i h
    rw [if_neg h]

theorem highlightedRows_eq (l : Lines) (leaves : List Node) (row : Nat) (lines : List (List Char)) :
    highlightedRows (leaves.flatMap (leafParts l)) row lines =
      (lines.zipIdx row).flatMap fun r => shownRow l leaves r.2 r.1 := by
  induction lines generalizing row with
  | nil => rfl
  | cons line lines ih =>
    rw [highlightedRows, highlightedRow_eq, ih, List.zipIdx_cons, List.flatMap_cons]

/-- Every line is printed under its number, with the labels of the row of this number. -/
theorem highlight_eq (config : Config) (name : String) (source : List Char) :
    (Command.Task.highlight 0).view config name source =
      .ok (shownLines (Lines.ofText source) (shownLeaves config source) (breakLines source),
        false) := by
  rw [shownLines, ← highlightedRows_eq]
  rfl

/-! ## No boundary is printed -/

/-- A string without line boundaries. -/
def Unbroken (s : String) : Prop :=
  ∀ c ∈ s.toList, isLineBreak c = false

-- the characters of the string are checked, not all characters
instance : DecidablePred Unbroken := fun s =>
  List.decidableBAll (isLineBreak · = false) s.toList

theorem unbroken_append {s t : String} (hs : Unbroken s) (ht : Unbroken t) : Unbroken (s ++ t) := by
  intro c hc
  rw [String.toList_append, List.mem_append] at hc
  exact hc.elim (hs c) (ht c)

theorem unbroken_ofList (h : ∀ c ∈ line, isLineBreak c = false) : Unbroken (String.ofList line) := by
  intro c hc
  rw [String.toList_ofList] at hc
  exact h c hc

theorem unbroken_intercalate {strings : List String} (h : ∀ s ∈ strings, Unbroken s) :
    Unbroken (String.intercalate " " strings) := by
  intro c hc
  rw [String.toList_intercalate] at hc
  induction strings with
  | nil => cases hc
  | cons s strings ih =>
    obtain ⟨hs, hstrings⟩ := List.forall_mem_cons.mp h
    cases strings with
    | nil =>
      rw [List.map_singleton, List.intercalate_singleton] at hc
      exact hs c hc
    | cons t strings =>
      rw [List.map_cons, List.intercalate_cons_of_ne_nil (by simp), List.append_assoc,
        List.mem_append, List.mem_append] at hc
      rcases hc with hc | hc | hc
      · exact hs c hc
      · rw [List.mem_singleton.mp hc]
        rfl
      · exact ih hstrings hc

theorem isLineBreak_of_isDigit {c : Char} (h : c.isDigit = true) : isLineBreak c = false := by
  obtain ⟨hlow, hhigh⟩ := Number.toNat_of_isDigit h
  simp only [isLineBreak, Bool.or_eq_false_iff, Bool.and_eq_false_iff, decide_eq_false_iff_not,
    beq_eq_false_iff_ne]
  omega

theorem unbroken_toString (n : Nat) : Unbroken (toString n) := by
  show Unbroken (String.ofList (Nat.toDigits 10 n))
  exact unbroken_ofList fun c hc => isLineBreak_of_isDigit (Number.isDigit_of_mem hc)

theorem unbroken_rowNumber (n : Nat) : Unbroken (Report.rowNumber n) := by
  rw [Report.rowNumber]
  apply unbroken_append
  · apply unbroken_ofList
    intro c hc
    rw [(List.mem_replicate.mp hc).2]
    rfl
  · exact unbroken_toString n

theorem unbroken_name (kind : Kind) : Unbroken kind.name := by
  cases kind <;> decide

theorem unbroken_label (leaf : Node) (r : LineRange) : Unbroken (label leaf r) := by
  have hstart := unbroken_append (by decide : Unbroken "@") (unbroken_toString r.start)
  have hdash := unbroken_append hstart (by decide : Unbroken "-")
  exact unbroken_append (unbroken_name leaf.kind) (unbroken_append hdash (unbroken_toString r.stop))

theorem unbroken_rowLabels {s : String} (h : s ∈ rowLabels l leaves row) : Unbroken s := by
  obtain ⟨leaf, -, hlabel⟩ := List.mem_flatMap.mp h
  obtain ⟨r, -, rfl⟩ := List.mem_map.mp hlabel
  exact unbroken_label leaf r

theorem unbroken_shownRow (hline : ∀ c ∈ line, isLineBreak c = false) {s : String}
    (h : s ∈ shownRow l leaves row line) : Unbroken s := by
  rw [shownRow, List.mem_cons] at h
  rcases h with rfl | h
  · have hnumber := unbroken_append (unbroken_rowNumber (row + 1)) (by decide : Unbroken " | ")
    exact unbroken_append hnumber (unbroken_ofList hline)
  · split at h
    · cases h
    · rw [List.mem_singleton.mp h]
      exact unbroken_append (by decide) (unbroken_intercalate fun _ => unbroken_rowLabels)

/-! ## Rows and lines -/

/-- The lines are the rows if newlines are the only boundaries. -/
theorem showsRows_shownLines (h : OnlyNewlines source) (leaves : List Node) :
    ShowsRows (Lines.ofText source) leaves
      (shownLines (Lines.ofText source) leaves (breakLines source)) := by
  have hline : ∀ r ∈ (breakLines source).zipIdx, (Lines.ofText source).line? r.2 = some r.1 := by
    intro r hr
    exact Text.line?_of_getElem?_breakLines h (List.mem_zipIdx_iff_getElem?.mp hr)
  refine ⟨(breakLines source).zipIdx, rfl, hline, ?_⟩
  intro row line hrow hne
  obtain ⟨printed, hprinted⟩ : ∃ printed, (breakLines source)[row]? = some printed :=
    ⟨_, List.getElem?_eq_getElem (Text.row_lt_length_breakLines hrow hne)⟩
  have hmem : (printed, row) ∈ (breakLines source).zipIdx :=
    List.mem_zipIdx_iff_getElem?.mpr hprinted
  obtain rfl : printed = line := by
    rw [hline _ hmem, Option.some_inj] at hrow
    exact hrow
  exact hmem

/-- A row that holds another boundary is not among printed lines without boundaries. -/
theorem onlyNewlines_of_showsRows (hout : ∀ s ∈ out, Unbroken s)
    (h : ShowsRows (Lines.ofText source) leaves out) : OnlyNewlines source := by
  obtain ⟨rows, rfl, -, hrows⟩ := h
  intro c hc hbreak
  by_contra hne
  obtain ⟨row, line, hrow, hmem⟩ := Text.exists_line?_of_mem hc hne
  have hshown : (line, row) ∈ rows := hrows row line hrow (List.ne_nil_of_mem hmem)
  have htitle := hout _ (List.mem_flatMap.mpr ⟨_, hshown, List.mem_cons_self⟩) c
  rw [String.toList_append, String.toList_ofList] at htitle
  rw [htitle (List.mem_append_right _ hmem)] at hbreak
  cases hbreak

theorem showsRows_iff (source : List Char) (leaves : List Node) :
    ShowsRows (Lines.ofText source) leaves
      (shownLines (Lines.ofText source) leaves (breakLines source)) ↔ OnlyNewlines source := by
  constructor
  · apply onlyNewlines_of_showsRows
    intro s hs
    obtain ⟨r, hr, hs⟩ := List.mem_flatMap.mp hs
    have hline : r.1 ∈ breakLines source := List.fst_mem_of_mem_zipIdx hr
    exact unbroken_shownRow (Text.isLineBreak_of_mem_breakLines hline) hs
  · intro h
    exact showsRows_shownLines h leaves

/-- Every line of a source is printed under its number with the labels of the row of this number,
and every row that has text has its number among the lines. What is printed are the rows of the
source exactly if newlines are its only line boundaries. -/
theorem highlight_rows (config : Config) (name : String) (source : List Char) :
    ∃ out, (Command.Task.highlight 0).view config name source = .ok (out, false) ∧
      out = shownLines (Lines.ofText source) (shownLeaves config source) (breakLines source) ∧
      (∀ (row : Nat) (line : List Char), (Lines.ofText source).line? row = some line →
        line ≠ [] → row < (breakLines source).length) ∧
      (ShowsRows (Lines.ofText source) (shownLeaves config source) out ↔ OnlyNewlines source) := by
  refine ⟨_, highlight_eq config name source, rfl, ?_, showsRows_iff source _⟩
  intro row line
  exact Text.row_lt_length_breakLines

/-- A form feed ends a line but no row: the text of row 1 loses it, and from row 2 on the texts are
not those of the rows. -/
theorem highlight_formFeed :
    ∃ out, (Command.Task.highlight 0).view default "<string>" "a\x0c\nb".toList =
        .ok (out, false) ∧
      out = ["    1 | a", "      | symbol@0-1", "    2 | ", "      | symbol@0-1", "    3 | b"] ∧
      ¬ShowsRows (Lines.ofText "a\x0c\nb".toList) (shownLeaves default "a\x0c\nb".toList) out := by
  refine ⟨_, highlight_eq _ _ _, by decide +kernel, ?_⟩
  rw [showsRows_iff]
  intro h
  exact absurd (h '\x0c' (by decide) (by decide)) (by decide)

end RacketTree.View

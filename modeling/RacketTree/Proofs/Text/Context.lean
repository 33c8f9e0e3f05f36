import Mathlib.Algebra.Order.Group.Abs
import Mathlib.Algebra.Order.Group.Int
import RacketTree.Proofs.Text.Splitting

/-!
# Rows around rows

The rows that are shown with some context are collected window by window, and a row is added only
if it is greater than the last one so far. So the collection is strictly increasing whatever the
windows are (`pairwise_foldl_addNext`), and what a window adds is what it has behind the last row
(`mem_foldl_addNext`). Nothing is lost that way if the windows come in order: what a window has up
to the last row lies in the earlier window that this row has come from (`mem_window_of_le`).
-/

namespace RacketTree

variable {rows shown is : List Int} {row row' context maxRow i x : Int}

/-! ## One row after the other -/

/-- The rows shown with one more, if it is greater than the last one. -/
def addNext (shown : List Int) (i : Int) : List Int :=
  match shown.getLast? with
  | some last => if last < i then shown ++ [i] else shown
  | none => [i]

theorem addNext_of_forall_lt (h : ∀ x ∈ shown, x < i) : addNext shown i = shown ++ [i] := by
  unfold addNext
  split
  · rename_i last hlast
    exact if_pos (h last (List.mem_of_getLast? hlast))
  · rename_i hnone
    rw [List.getLast?_eq_none_iff.mp hnone, List.nil_append]

theorem addNext_of_le (hshown : shown.Pairwise (· < ·)) (hx : x ∈ shown) (hi : i ≤ x) :
    addNext shown i = shown := by
  rcases List.eq_nil_or_concat shown with rfl | ⟨front, last, hconcat⟩
  · cases hx
  · rw [List.concat_eq_append] at hconcat
    subst hconcat
    have hle : x ≤ last := by
      rcases List.mem_append.mp hx with hfront | hlast
      · exact Int.le_of_lt ((List.pairwise_append.mp hshown).2.2 x hfront last (by simp))
      · exact Int.le_of_eq (List.mem_singleton.mp hlast)
    simp only [addNext, List.getLast?_concat]
    exact if_neg (by omega)

/-- A row is greater than all rows so far, or it does not come behind all of them. -/
theorem addNext_cases (hshown : shown.Pairwise (· < ·)) (i : Int) :
    (∀ x ∈ shown, x < i) ∧ addNext shown i = shown ++ [i] ∨
      (∃ x ∈ shown, i ≤ x) ∧ addNext shown i = shown := by
  by_cases h : ∀ x ∈ shown, x < i
  · exact .inl ⟨h, addNext_of_forall_lt h⟩
  · simp only [not_forall, Int.not_lt] at h
    obtain ⟨x, hx, hi⟩ := h
    exact .inr ⟨⟨x, hx, hi⟩, addNext_of_le hshown hx hi⟩

theorem pairwise_addNext (hshown : shown.Pairwise (· < ·)) (i : Int) :
    (addNext shown i).Pairwise (· < ·) := by
  rcases addNext_cases hshown i with ⟨hlt, hnext⟩ | ⟨-, hnext⟩
  · rw [hnext, List.pairwise_append]
    refine ⟨hshown, List.pairwise_singleton _ _, ?_⟩
    intro x hx y hy
    rw [List.mem_singleton.mp hy]
    exact hlt x hx
  · rwa [hnext]

theorem pairwise_foldl_addNext (hshown : shown.Pairwise (· < ·)) (is : List Int) :
    (is.foldl addNext shown).Pairwise (· < ·) := by
  induction is generalizing shown with
  | nil => exact hshown
  | cons i is ih => exact ih (pairwise_addNext hshown i)

/-- Of increasing rows those are added that come behind all rows so far. -/
theorem mem_foldl_addNext (hshown : shown.Pairwise (· < ·)) (his : is.Pairwise (· < ·)) :
    x ∈ is.foldl addNext shown ↔ x ∈ shown ∨ x ∈ is ∧ ∀ y ∈ shown, y < x := by
  induction is generalizing shown with
  | nil => simp
  | cons i is ih =>
    obtain ⟨hi, his⟩ := List.pairwise_cons.mp his
    rw [List.foldl_cons, ih (pairwise_addNext hshown i) his]
    rcases addNext_cases hshown i with ⟨hlt, hnext⟩ | ⟨⟨z, hz, hle⟩, hnext⟩
    · -- the rest of the rows comes behind `i` as well
      rw [hnext, List.mem_append, List.mem_singleton, List.mem_cons, List.forall_mem_append]
      constructor
      · rintro ((hx | rfl) | ⟨hx, hbehind, -⟩)
        · exact .inl hx
        · exact .inr ⟨.inl rfl, hlt⟩
        · exact .inr ⟨.inr hx, hbehind⟩
      · rintro (hx | ⟨rfl | hx, hbehind⟩)
        · exact .inl (.inl hx)
        · exact .inl (.inr rfl)
        · refine .inr ⟨hx, hbehind, ?_⟩
          intro y hy
          rw [List.mem_singleton.mp hy]
          exact hi x hx
    · rw [hnext, List.mem_cons]
      constructor
      · rintro (hx | ⟨hx, hbehind⟩)
        · exact .inl hx
        · exact .inr ⟨.inr hx, hbehind⟩
      · rintro (hx | ⟨rfl | hx, hbehind⟩)
        · exact .inl hx
        · have := hbehind z hz
          omega
        · exact .inr ⟨hx, hbehind⟩

/-! ## One window after the other -/

/-- The rows around a row, between zero and the greatest row. -/
def window (context maxRow row : Int) : List Int :=
  intRange (max 0 (row - context)) (min (row + context) maxRow)

theorem contextRows_eq (rows : List Int) (context maxRow : Int) :
    contextRows rows context maxRow =
      rows.foldl (fun shown row => (window context maxRow row).foldl addNext shown) [] :=
  rfl

theorem mem_window : i ∈ window context maxRow row ↔ 0 ≤ i ∧ i ≤ maxRow ∧ |i - row| ≤ context := by
  rw [window, Lines.mem_intRange, abs_le]
  omega

theorem pairwise_window (context maxRow row : Int) :
    (window context maxRow row).Pairwise (· < ·) := by
  rw [window, intRange, List.pairwise_map]
  apply List.pairwise_lt_range.imp
  omega

/-- Up to a row of an earlier window, a window has only rows of the earlier one. -/
theorem mem_window_of_le (hrow : row ≤ row') (hx : x ∈ window context maxRow row) (hi : i ≤ x)
    (hmem : i ∈ window context maxRow row') : i ∈ window context maxRow row := by
  rw [window, Lines.mem_intRange] at hx hmem ⊢
  omega

/-- The rows shown around rows in order are strictly increasing and those of their windows. -/
theorem contextRows_windows (hrows : rows.Pairwise (· ≤ ·)) (context maxRow : Int) :
    (contextRows rows context maxRow).Pairwise (· < ·) ∧
      ∀ i, i ∈ contextRows rows context maxRow ↔ ∃ row ∈ rows, i ∈ window context maxRow row := by
  rw [contextRows_eq]
  -- the invariant is what holds when the rows end with the last one so far
  induction rows using List.reverseRecOn with
  | nil => exact ⟨.nil, by simp⟩
  | append_singleton rows row ih =>
    obtain ⟨hbefore, -, hle⟩ := List.pairwise_append.mp hrows
    obtain ⟨hshown, hmem⟩ := ih hbefore
    rw [List.foldl_append, List.foldl_cons, List.foldl_nil]
    generalize rows.foldl _ [] = shown at hshown hmem ⊢
    refine ⟨pairwise_foldl_addNext hshown _, ?_⟩
    intro i
    rw [mem_foldl_addNext hshown (pairwise_window context maxRow row)]
    simp only [List.mem_append, List.mem_singleton, or_and_right, exists_or, exists_eq_left]
    rw [hmem]
    constructor
    · rintro (hi | ⟨hi, -⟩)
      · exact .inl hi
      · exact .inr hi
    · rintro (hi | hi)
      · exact .inl hi
      · by_cases hbehind : ∀ x ∈ shown, x < i
        · exact .inr ⟨hi, hbehind⟩
        · simp only [not_forall, Int.not_lt] at hbehind
          obtain ⟨x, hx, hix⟩ := hbehind
          obtain ⟨earlier, hearlier, hwindow⟩ := (hmem x).mp hx
          have hrow : earlier ≤ row := hle earlier hearlier row (List.mem_singleton.mpr rfl)
          exact .inl ⟨earlier, hearlier, mem_window_of_le hrow hwindow hix hi⟩

/-- The rows shown around rows in order are strictly increasing, and they are the rows between zero
and the greatest one that are no further than the context from one of them. -/
theorem contextRows_union (hrows : rows.Pairwise (· ≤ ·)) (context maxRow : Int) :
    (contextRows rows context maxRow).Pairwise (· < ·) ∧
      ∀ i, i ∈ contextRows rows context maxRow ↔
        0 ≤ i ∧ i ≤ maxRow ∧ ∃ row ∈ rows, |i - row| ≤ context := by
  obtain ⟨hshown, hmem⟩ := contextRows_windows hrows context maxRow
  refine ⟨hshown, fun i => ?_⟩
  rw [hmem]
  simp only [mem_window]
  constructor
  · rintro ⟨row, hrow, hfirst, hlast, hnear⟩
    exact ⟨hfirst, hlast, row, hrow, hnear⟩
  · rintro ⟨hfirst, hlast, row, hrow, hnear⟩
    exact ⟨row, hrow, hfirst, hlast, hnear⟩

/-- Windows that overlap, that are cut at either end, and one that is empty. -/
theorem contextRows_union_overlap :
    contextRows [0, 1, 1, 7, 12] 2 8 = [0, 1, 2, 3, 5, 6, 7, 8] ∧
      (contextRows [0, 1, 1, 7, 12] 2 8).Pairwise (· < ·) ∧
      ∀ i, i ∈ contextRows [0, 1, 1, 7, 12] 2 8 ↔
        0 ≤ i ∧ i ≤ 8 ∧ ∃ row ∈ [0, 1, 1, 7, 12], |i - row| ≤ 2 :=
  ⟨by decide, contextRows_union (by decide) 2 8⟩

end RacketTree

import RacketTree.Proofs.Tree.Reuse
import RacketTree.Proofs.Tree.View

/-!
# Trees after an edit

`Tree.Covers` says which items a stored tree has: together they spell the source, and none is empty.
A tree that has been read covers the items of its text (`covers_parse`).

An edit is taken exactly if the lengths of the two texts fit it (`refusal?_eq_none_iff`). The items
of the tree after it are the first `kept` items of the old tree, fresh items, and the old items from
`resumed` on (`reparse_holds`); `Reused` says how the two numbers and the fresh items are chosen. If
the edit describes the change, the new tree covers the new text (`reparse_covers`).
-/

namespace RacketTree

open Token (lexemes)

/-! ## Items of a whole text -/

namespace Read

variable {config : Config} {outer : Nat}

theorem readItems_ne_nil {ls : List Lexeme} (h : ls ≠ []) : readItems config outer ls ≠ [] := by
  cases ls with
  | nil => exact absurd rfl h
  | cons l ls =>
    rw [readItems_cons]
    simp

/-- Items from which a text has been read, up to one of its item boundaries. -/
theorem readItems_split {cs : List Char} {ds ds' : List Draft}
    (h : readItems config outer (lexemes cs) = ds ++ ds') :
    Draft.texts ds = cs.take (Draft.texts ds).length ∧
      readItems config outer (lexemes (cs.drop (Draft.texts ds).length)) = ds' ∧
      ∀ d ∈ ds, d.isSingle = true := by
  obtain ⟨used, rest, e, hls, items, hrest, -⟩ := exists_items h
  have hvalid : ∀ l ∈ used ++ rest, l.Valid := hls ▸ Token.lexemes_valid cs
  have hused : ∀ l ∈ used, l.Valid := fun l hl => hvalid l (List.mem_append_left _ hl)
  rw [items.text hused]
  obtain ⟨hcs, -⟩ := Token.lexemes_suffix hls
  refine ⟨?_, by rw [Token.lexemes_drop hls, hrest], items.isSingle hused⟩
  rw [hcs, List.take_left]

theorem texts_readItems (cs : List Char) :
    Draft.texts (readItems config outer (lexemes cs)) = cs := by
  obtain ⟨htext, hrest, -⟩ :=
    readItems_split (List.append_nil (readItems config outer (lexemes cs))).symm
  have hnil : cs.drop (Draft.texts (readItems config outer (lexemes cs))).length = [] := by
    by_contra hne
    exact readItems_ne_nil (Token.lexemes_ne_nil hne) hrest
  have hlen := List.drop_eq_nil_iff.mp hnil
  rw [htext, List.take_of_length_le hlen]

theorem isSingle_readItems (cs : List Char) :
    ∀ d ∈ readItems config outer (lexemes cs), d.isSingle = true :=
  (readItems_split (List.append_nil (readItems config outer (lexemes cs))).symm).2.2

theorem text_ne_nil {cs : List Char} : ∀ d ∈ readItems config outer (lexemes cs), d.text ≠ [] := by
  intro d hd
  obtain ⟨ds, ds', hds⟩ := List.append_of_mem hd
  obtain ⟨before, last, rest, e', e, hls, -, -, item, -⟩ := exists_item_at hds
  have hvalid : ∀ l ∈ before ++ last ++ rest, l.Valid := hls ▸ Token.lexemes_valid cs
  rw [item.text fun l hl => hvalid l (List.mem_append_left _ (List.mem_append_right _ hl))]
  cases last with
  | nil => exact absurd rfl item.ne_nil
  | cons l last =>
    have hl := (hvalid l (by simp)).nonempty
    simp [hl]

/-- The trees at top level of a text. -/
def shapes (config : Config) (source : List Char) : List Shape :=
  (readItems config 0 (lexemes source)).map Draft.shape

theorem texts_map_shape {ds : List Draft} (h : ∀ d ∈ ds, d.isSingle = true) :
    Shape.texts (ds.map Draft.shape) = Draft.texts ds := by
  rw [Draft.texts, Draft.allShapes_eq h]

end Read

/-! ## Trees and their items -/

/-- The tree has the items `ss`, which spell its source and are not empty. -/
structure Tree.Covers (t : Tree) (a : Arena) (ss : List Shape) : Prop where
  rootStart : t.rootStart = 0
  holds : a.Holds t.root (.branch .source ss none)
  text : Shape.texts ss = t.source
  nonempty : ∀ s ∈ ss, s.text ≠ []

theorem Tree.Covers.mono {t : Tree} {a b : Arena} {ss : List Shape} (h : t.Covers a ss)
    (hab : a.Extends b) : t.Covers b ss :=
  ⟨h.rootStart, h.holds.mono hab, h.text, h.nonempty⟩

/-- The leaves of a tree over its whole source spell its items. -/
theorem Tree.text_of_holds {t : Tree} {a : Arena} {ss : List Shape} (hroot : t.rootStart = 0)
    (hold : a.Holds t.root (.branch .source ss none)) : t.text a = Shape.texts ss := by
  rw [text, node, hroot]
  exact Arena.spell_view 0 hold

theorem Read.nonempty_shapes (config : Config) (source : List Char) :
    ∀ s ∈ Read.shapes config source, s.text ≠ [] := by
  intro s hs
  obtain ⟨d, hd, rfl⟩ := List.mem_map.mp hs
  rw [Draft.text_shape (isSingle_readItems source d hd)]
  exact text_ne_nil d hd

theorem Read.texts_shapes (config : Config) (source : List Char) :
    Shape.texts (Read.shapes config source) = source := by
  rw [Read.shapes, texts_map_shape (isSingle_readItems source), texts_readItems]

/-- A tree that has been read covers the items of its text. -/
theorem covers_parse (config : Config) (source : List Char) :
    (parse config source).2.Covers (parse config source).1 (Read.shapes config source) := by
  obtain ⟨-, -, hall⟩ :=
    Arena.empty.holdsAll_storeAll (Read.readItems config 0 (lexemes source))
  rw [Draft.allShapes_eq (Read.isSingle_readItems source)] at hall
  exact ⟨rfl, Arena.holds_branch .source none hall, Read.texts_shapes config source,
    Read.nonempty_shapes config source⟩

/-- A tree is equivalent to the one that is read from a text if and only if it has the items of the
text. -/
theorem equivalent_parse_iff {t : Tree} {a : Arena} {config : Config} {source : List Char} :
    t.equivalent a (parse config source).2 (parse config source).1 = true ↔
      a.Holds t.root (.branch .source (Read.shapes config source) none) :=
  Arena.same_iff (covers_parse config source).holds

theorem equivalent_parse_self (config : Config) (source : List Char) :
    (parse config source).2.equivalent (parse config source).1 (parse config source).2
      (parse config source).1 = true :=
  equivalent_parse_iff.mpr (covers_parse config source).holds

/-! ## Fresh items -/

theorem Read.readUntil_lexemes {α : Type} (config : Config) (outer : Nat) (resume : Nat → Option α)
    (pos : Nat) (ls : List Lexeme) (hv : ∀ l ∈ ls, l.Valid) :
    ∃ used rest, ls = used ++ rest ∧
      Draft.texts (readUntil config outer resume pos ls).1 = Lexeme.texts used ∧
      readItems config outer ls =
        (readUntil config outer resume pos ls).1 ++ readItems config outer rest ∧
      ((readUntil config outer resume pos ls).2 = none ∧ rest = [] ∨
        ∃ a, (readUntil config outer resume pos ls).2 = some a ∧
          resume (pos + (Lexeme.texts used).length) = some a) := by
  fun_induction readUntil config outer resume pos ls with
  | case1 pos => exact ⟨[], [], rfl, rfl, rfl, .inl ⟨rfl, rfl⟩⟩
  | case2 pos l ls a ha => exact ⟨[], l :: ls, rfl, rfl, rfl, .inr ⟨a, rfl, ha⟩⟩
  | case3 pos l ls hnone read items a hread ih =>
    obtain ⟨used, e, item, hls, -⟩ := exists_item config outer l ls
    have hused : ∀ l ∈ used, l.Valid := fun m hm =>
      hv m (by rw [hls]; exact List.mem_append_left _ hm)
    have htext := item.text hused
    obtain ⟨used', rest, hrest, htexts, hitems, hend⟩ := ih fun m hm =>
      hv m (by rw [hls]; exact List.mem_append_right _ hm)
    rw [hread] at htexts hitems hend
    refine ⟨used ++ used', rest, ?_, ?_, ?_, ?_⟩
    · rw [hls, List.append_assoc]
      exact congrArg (used ++ ·) hrest
    · rw [Draft.texts_cons, Lexeme.texts_append, htexts, htext]
    · rw [readItems_cons, hitems]
      rfl
    · rw [Lexeme.texts_append, List.length_append, ← htext, ← Draft.width_eq, ← Nat.add_assoc]
      exact hend

/-- Reading stops at the end of the text, or where `resume` has an answer; what it has read are
items of the text. -/
theorem Read.readUntil_split {α : Type} (config : Config) (resume : Nat → Option α) (pos : Nat)
    (cs : List Char) {ds : List Draft} {r : Option α}
    (h : readUntil config 0 resume pos (lexemes cs) = (ds, r)) :
    readItems config 0 (lexemes cs) =
        ds ++ readItems config 0 (lexemes (cs.drop (Draft.texts ds).length)) ∧
      (r = none ∧ cs.length ≤ (Draft.texts ds).length ∨
        ∃ a, r = some a ∧ resume (pos + (Draft.texts ds).length) = some a) := by
  obtain ⟨used, rest, hls, htexts, hitems, hend⟩ :=
    readUntil_lexemes config 0 resume pos (lexemes cs) (Token.lexemes_valid cs)
  rw [h] at htexts hitems hend
  rw [htexts, Token.lexemes_drop hls]
  refine ⟨hitems, hend.imp_left fun ⟨hr, hrest⟩ => ⟨hr, ?_⟩⟩
  obtain ⟨hcs, -⟩ := Token.lexemes_suffix hls
  rw [hrest, Lexeme.texts_nil, List.append_nil] at hcs
  exact Nat.le_of_eq (congrArg List.length hcs)

/-! ## Truthful edits -/

namespace Edit

/-- The edit does not end before it starts. -/
def Valid (e : Edit) : Prop :=
  e.start ≤ e.oldEnd ∧ e.start ≤ e.newEnd

/-- The texts are as long as the edit says. -/
def Fits (e : Edit) (old new : List Char) : Prop :=
  e.oldEnd ≤ old.length ∧ new.length = old.length - (e.oldEnd - e.start) + (e.newEnd - e.start)

/-- The edit says how `old` became `new`. -/
def Describes (e : Edit) (old new : List Char) : Prop :=
  ∃ inserted, e.start ≤ e.oldEnd ∧ e.oldEnd ≤ old.length ∧
    e.newEnd = e.start + inserted.length ∧ new = splice old e.start e.oldEnd inserted

namespace Describes

variable {e : Edit} {old new : List Char}

theorem start_le (h : e.Describes old new) : e.start ≤ old.length := by
  obtain ⟨inserted, hstart, hold, -, -⟩ := h
  omega

/-- The two texts have the text before the edit in common. -/
theorem common (h : e.Describes old new) : new = old.take e.start ++ new.drop e.start := by
  have hle := h.start_le
  obtain ⟨inserted, -, -, -, rfl⟩ := h
  rw [splice, List.append_assoc, List.drop_append_of_le_length (by rw [List.length_take]; omega),
    List.drop_take_self, List.nil_append]

theorem take_eq (h : e.Describes old new) {n : Nat} (hn : n ≤ e.start) :
    new.take n = old.take n := by
  have hle := h.start_le
  rw [h.common, List.take_append_of_le_length (by rw [List.length_take]; omega), List.take_take,
    Nat.min_eq_left hn]

theorem valid (h : e.Describes old new) : e.Valid := by
  obtain ⟨inserted, hstart, -, hnew, -⟩ := h
  exact ⟨hstart, by omega⟩

theorem fits (h : e.Describes old new) : e.Fits old new := by
  obtain ⟨inserted, hstart, hold, hnew, rfl⟩ := h
  refine ⟨hold, ?_⟩
  simp only [splice, List.length_append, List.length_take, List.length_drop]
  omega

/-- Behind the edit the new text is the old one at the shifted offset. -/
theorem drop_eq (h : e.Describes old new) {k n : Nat} (hk : e.oldEnd ≤ k)
    (hn : (k : Int) + e.delta = n) : new.drop n = old.drop k := by
  obtain ⟨inserted, hstart, hold, hnew, rfl⟩ := h
  unfold delta at hn
  have hlen : (old.take e.start ++ inserted).length = e.newEnd := by
    rw [List.length_append, List.length_take, hnew]
    omega
  have hsplit : n = (old.take e.start ++ inserted).length + (k - e.oldEnd) := by omega
  rw [splice, hsplit, ← List.drop_drop, List.drop_left, List.drop_drop]
  congr 1
  omega

end Describes

end Edit

/-! ## Kept items -/

namespace Arena

variable {a : Arena}

theorem take_viewAll (a : Arena) (start : Nat) (hs : List Handle) (k : Nat) :
    (a.viewAll start hs).take k = a.viewAll start (hs.take k) := by
  induction hs generalizing start k with
  | nil => simp [viewAll]
  | cons h hs ih =>
    cases k with
    | zero => rfl
    | succ k => simp [viewAll, ih]

theorem drop_viewAll (a : Arena) (start : Nat) (hs : List Handle) (k : Nat) :
    (a.viewAll start hs).drop k = a.viewAll (start + a.widths (hs.take k)) (hs.drop k) := by
  induction hs generalizing start k with
  | nil => simp [viewAll]
  | cons h hs ih =>
    cases k with
    | zero => rfl
    | succ k => simp [viewAll, ih, widths, Nat.add_assoc]

theorem widths_append (a : Arena) (xs ys : List Handle) :
    a.widths (xs ++ ys) = a.widths xs + a.widths ys := by
  induction xs with
  | nil => simp [widths]
  | cons x xs ih => simp [widths, ih, Nat.add_assoc]

theorem stop_le_of_mem_viewAll {start : Nat} {hs : List Handle} {n : Node}
    (h : n ∈ a.viewAll start hs) : n.stop ≤ start + a.widths hs := by
  induction hs generalizing start with
  | nil => cases h
  | cons x hs ih =>
    rw [widths, ← Nat.add_assoc]
    rcases List.mem_cons.mp h with rfl | h
    · rw [Node.stop, start_view, width_view]
      omega
    · exact ih h

end Arena

namespace Tree

variable {a : Arena} {e : Edit}

/-- The front of the items before an edit that is used again: it ends before the edit, and its last
item either two characters before it or with a closing character. -/
def EndsBefore (a : Arena) (start : Nat) (hs : List Handle) : Prop :=
  ∀ xs x, hs = xs ++ [x] → a.widths hs < start ∧
    (a.widths hs + 2 ≤ start ∨ endsClosed (a.lastLeafKind x) = true)

/-- The items that end before the edit are a front of all items. -/
theorem takeWhile_viewAll (a : Arena) (hs : List Handle) (start : Nat) :
    ∃ m, m ≤ hs.length ∧
      (a.viewAll 0 hs).takeWhile (·.stop < start) = a.viewAll 0 (hs.take m) ∧
      (∀ n ∈ a.viewAll 0 (hs.take m), n.stop < start) ∧
      ∀ j, j ≤ hs.length → a.widths (hs.take j) < start → j ≤ m := by
  have hfront : (a.viewAll 0 hs).takeWhile (·.stop < start) <+: a.viewAll 0 hs :=
    List.takeWhile_prefix _
  have htake := List.prefix_iff_eq_take.mp hfront
  rw [Arena.take_viewAll] at htake
  refine ⟨_, ?_, htake, ?_, ?_⟩
  · rw [← Arena.length_viewAll a 0 hs]
    exact hfront.length_le
  · rw [← htake]
    intro n hn
    simpa using List.all_eq_true.mp List.all_takeWhile n hn
  · intro j hj hlt
    have hall : ∀ n ∈ (a.viewAll 0 hs).take j, decide (n.stop < start) = true := by
      rw [Arena.take_viewAll]
      intro n hn
      have := Arena.stop_le_of_mem_viewAll hn
      simp only [decide_eq_true_eq]
      omega
    rw [← List.take_append_drop j (a.viewAll 0 hs), List.takeWhile_append_of_pos hall,
      List.length_append, List.length_take, Arena.length_viewAll]
    omega

/-- The items that are kept end before the edit, and every item that ends two characters before the
edit is kept. -/
theorem kept_viewAll {hs : List Handle} (hpos : ∀ h ∈ hs, 0 < a.width h) (e : Edit) :
    kept a (a.viewAll 0 hs) e ≤ hs.length ∧
      EndsBefore a e.start (hs.take (kept a (a.viewAll 0 hs) e)) ∧
      ∀ j, j ≤ hs.length → a.widths (hs.take j) + 2 ≤ e.start →
        j ≤ kept a (a.viewAll 0 hs) e := by
  obtain ⟨m, hm, htake, hbefore, hmost⟩ := takeWhile_viewAll a hs e.start
  have hlen : (hs.take m).length = m := by rw [List.length_take]; omega
  unfold kept
  simp only [htake]
  rcases List.eq_nil_or_concat (hs.take m) with hnil | ⟨xs, x, hxs⟩
  · rw [hnil, List.length_nil] at hlen
    simp only [hnil, Arena.viewAll, List.getLast?_nil]
    refine ⟨Nat.zero_le _, ?_, fun j hj hlt => hlen ▸ hmost j hj (by omega)⟩
    intro xs x hxs
    simp at hxs
  · rw [List.concat_eq_append] at hxs
    rw [hxs] at hbefore hlen ⊢
    have hwidth : a.widths (xs ++ [x]) = a.widths xs + a.width x := by
      rw [Arena.widths_append]
      simp [Arena.widths]
    have hlast : (a.viewAll 0 (xs ++ [x])).getLast? = some (a.view x (a.widths xs)) := by
      rw [Arena.viewAll_append]
      simp [Arena.viewAll]
    have hstop : (a.view x (a.widths xs)).stop = a.widths (xs ++ [x]) := by
      rw [Node.stop, Arena.start_view, Arena.width_view, hwidth]
    have hlt := hbefore _ (List.mem_of_getLast? hlast)
    rw [hstop] at hlt
    rw [List.length_append, List.length_singleton] at hlen
    simp only [hlast, hstop, Arena.handle_view, Arena.length_viewAll, List.length_append,
      List.length_singleton, Nat.add_sub_cancel]
    split
    · rename_i hcond
      simp only [Bool.and_eq_true, decide_eq_true_eq, Bool.not_eq_true'] at hcond
      have hfront : hs.take xs.length = xs := by
        have := congrArg (List.take xs.length) hxs
        rwa [List.take_take, List.take_left, Nat.min_eq_left (by omega)] at this
      have hx := hpos x (List.mem_of_mem_take (hxs ▸ by simp : x ∈ hs.take m))
      refine ⟨by omega, ?_, ?_⟩
      · intro _ _ _
        rw [hfront]
        omega
      · intro j hj hle
        have hjm := hmost j hj (by omega)
        by_contra hgt
        have hjeq : j = m := by omega
        rw [hjeq, hxs] at hle
        omega
    · rename_i hcond
      rw [hlen, hxs]
      refine ⟨hm, ?_, fun j hj hle => hmost j hj (by omega)⟩
      intro ys y hys
      obtain ⟨-, hy⟩ := List.append_inj' hys rfl
      cases hy
      refine ⟨hlt, ?_⟩
      by_cases hclosed : endsClosed (a.lastLeafKind x) = true
      · exact .inr hclosed
      · refine .inl ?_
        simp only [Bool.and_eq_true, decide_eq_true_eq, hclosed, Bool.not_false, and_true] at hcond
        omega

/-- The offset from which the text is read again is the end of the items before it. -/
theorem start_getElem?_viewAll {hs : List Handle} {k : Nat} (h : k < hs.length ∨ hs = []) :
    ((a.viewAll 0 hs)[k]?.map Node.start).getD 0 = a.widths (hs.take k) := by
  rcases h with h | rfl
  · have hdrop := a.drop_viewAll 0 hs k
    rw [List.drop_eq_getElem_cons h] at hdrop
    rw [← Nat.add_zero k, ← List.getElem?_drop, hdrop]
    simp [Arena.viewAll]
  · simp [Arena.viewAll, Arena.widths]

/-- The old items that are taken over begin behind the edit, at the shifted offset. -/
theorem resumed?_viewAll {start pos : Nat} {hs tail : List Handle}
    (h : resumed? (a.viewAll start hs) e pos = some tail) :
    ∃ k, k ≤ hs.length ∧ tail = hs.drop k ∧ e.oldEnd ≤ start + a.widths (hs.take k) ∧
      ((start + a.widths (hs.take k) : Nat) : Int) + e.delta = pos := by
  induction hs generalizing start with
  | nil => cases h
  | cons x hs ih =>
    by_cases hcond : e.oldEnd ≤ start ∧ (start : Int) + e.delta = pos
    · have hhere : resumed? (a.viewAll start (x :: hs)) e pos = some (x :: hs) := by
        simp [resumed?, Arena.viewAll, hcond, Arena.map_handle_viewAll]
      rw [hhere] at h
      cases h
      exact ⟨0, Nat.zero_le _, rfl, by simpa [Arena.widths] using hcond.1,
        by simpa [Arena.widths] using hcond.2⟩
    · have hlater : resumed? (a.viewAll start (x :: hs)) e pos =
          resumed? (a.viewAll (start + a.width x) hs) e pos := by
        rw [resumed?, Arena.viewAll, List.dropWhile_cons_of_pos, resumed?]
        simp only [Arena.start_view, Bool.not_eq_true', Bool.and_eq_false_iff,
          decide_eq_false_iff_not, beq_eq_false_iff_ne]
        omega
      rw [hlater] at h
      obtain ⟨k, hk, htail, hold, hpos⟩ := ih h
      refine ⟨k + 1, Nat.succ_le_succ hk, htail, ?_, ?_⟩
      · simpa [Arena.widths, Nat.add_assoc] using hold
      · simpa [Arena.widths, Int.add_assoc] using hpos

/-! ## The new tree -/

theorem length_texts_le {front : List Shape} {n : Nat}
    (h : ∀ xs s, front = xs ++ [s] → (Shape.texts front).length < n) :
    (Shape.texts front).length ≤ n := by
  rcases List.eq_nil_or_concat front with hnil | ⟨xs, s, hs⟩
  · rw [hnil]
    exact Nat.zero_le _
  · rw [List.concat_eq_append] at hs
    exact Nat.le_of_lt (h xs s hs)

/-- The choice of items for the text `new` after an edit of a text with the items `ss`: the first
`kept` ones, the items `fresh`, and the old ones from `resumed` on. -/
structure Reused (config : Config) (e : Edit) (new : List Char) (ss : List Shape) (kept : Nat)
    (fresh : List Draft) (resumed : Nat) : Prop where
  kept_le : kept ≤ ss.length
  last : ∀ front s, ss.take kept = front ++ [s] →
    (Shape.texts (ss.take kept)).length < e.start ∧
      ((Shape.texts (ss.take kept)).length + 2 ≤ e.start ∨
        ∀ k t, s.EndsIn k t → endsClosed k = true)
  most : ∀ j, j ≤ ss.length → (Shape.texts (ss.take j)).length + 2 ≤ e.start → j ≤ kept
  read : Read.readItems config 0 (lexemes (new.drop (Shape.texts (ss.take kept)).length)) =
    fresh ++ Read.readItems config 0
      (lexemes ((new.drop (Shape.texts (ss.take kept)).length).drop (Draft.texts fresh).length))
  behind : e.oldEnd ≤ (Shape.texts (ss.take resumed)).length
  shifted : ((Shape.texts (ss.take resumed)).length : Int) + e.delta =
    ((Shape.texts (ss.take kept)).length + (Draft.texts fresh).length : Nat)

namespace Reused

variable {config : Config} {old new : List Char} {ss : List Shape} {kept resumed : Nat}
  {fresh : List Draft}

theorem length_kept_le (h : Reused config e new ss kept fresh resumed) :
    (Shape.texts (ss.take kept)).length ≤ e.start :=
  length_texts_le fun front s hs => (h.last front s hs).1

/-- The items spell the new text where it has been read again, and the old text around that. -/
theorem texts_splice (h : Reused config e new ss kept fresh resumed)
    (hold : Shape.texts ss = old) :
    Shape.texts (ss.take kept ++ fresh.map Draft.shape ++ ss.drop resumed) =
      old.take (Shape.texts (ss.take kept)).length ++
        (new.drop (Shape.texts (ss.take kept)).length).take (Draft.texts fresh).length ++
        old.drop (Shape.texts (ss.take resumed)).length := by
  obtain ⟨hfresh, -, hsingle⟩ := Read.readItems_split h.read
  have hsplit : ∀ j, old = Shape.texts (ss.take j) ++ Shape.texts (ss.drop j) := by
    intro j
    rw [← hold, ← Shape.texts_append, List.take_append_drop]
  have hkept : Shape.texts (ss.take kept) = old.take (Shape.texts (ss.take kept)).length := by
    conv_rhs => rw [hsplit kept, List.take_left]
  have hrest : Shape.texts (ss.drop resumed) = old.drop (Shape.texts (ss.take resumed)).length := by
    conv_rhs => rw [hsplit resumed, List.drop_left]
  rw [Shape.texts_append, Shape.texts_append, Read.texts_map_shape hsingle, ← hkept, ← hfresh,
    ← hrest]

/-- The old items that are taken over spell the rest of the new text. -/
theorem rest (h : Reused config e new ss kept fresh resumed) (he : e.Describes old new) :
    (new.drop (Shape.texts (ss.take kept)).length).drop (Draft.texts fresh).length =
      old.drop (Shape.texts (ss.take resumed)).length := by
  rw [List.drop_drop, he.drop_eq h.behind h.shifted]

/-- The items together spell the new text. -/
theorem texts_eq (h : Reused config e new ss kept fresh resumed) (he : e.Describes old new)
    (hold : Shape.texts ss = old) :
    Shape.texts (ss.take kept ++ fresh.map Draft.shape ++ ss.drop resumed) = new := by
  rw [h.texts_splice hold, ← h.rest he, List.append_assoc, List.take_append_drop,
    ← he.take_eq h.length_kept_le, List.take_append_drop]

theorem nonempty (h : Reused config e new ss kept fresh resumed)
    (hne : ∀ s ∈ ss, s.text ≠ []) :
    ∀ s ∈ ss.take kept ++ fresh.map Draft.shape ++ ss.drop resumed, s.text ≠ [] := by
  intro s hs
  rcases List.mem_append.mp hs with hs | hs
  · rcases List.mem_append.mp hs with hs | hs
    · exact hne s (List.mem_of_mem_take hs)
    · obtain ⟨d, hd, rfl⟩ := List.mem_map.mp hs
      rw [Draft.text_shape ((Read.readItems_split h.read).2.2 d hd)]
      exact Read.text_ne_nil d (by rw [h.read]; exact List.mem_append_left _ hd)
  · exact hne s (List.mem_of_mem_drop hs)

end Reused

variable {t : Tree} {old new : List Char} {ss : List Shape} {hs : List Handle} {n : Nat}

/-- An edit of a tree over its whole source is refused only for the lengths of the texts. -/
theorem refusal?_eq_none_iff (hcov : t.Covers a ss) :
    t.refusal? a new e = none ↔ e.Fits t.source new := by
  obtain ⟨hs, -, hkind, -⟩ := Arena.view_branch hcov.holds 0
  simp only [refusal?, node, hcov.rootStart, hkind, Edit.Fits]
  by_cases hold : t.source.length < e.oldEnd
  · simp [hold, Nat.not_le_of_lt hold]
  · simp [hold, Nat.le_of_not_lt hold]

/-- What is kept of the items `ss`, and where reading begins. -/
theorem kept_holdsAll (hall : a.HoldsAll n hs ss) (hne : ∀ s ∈ ss, s.text ≠ [])
    (hstart : e.start ≤ (Shape.texts ss).length) {k : Nat} (hk : kept a (a.viewAll 0 hs) e = k) :
    k ≤ ss.length ∧
      (∀ front s, ss.take k = front ++ [s] → (Shape.texts (ss.take k)).length < e.start ∧
        ((Shape.texts (ss.take k)).length + 2 ≤ e.start ∨
          ∀ k t, s.EndsIn k t → endsClosed k = true)) ∧
      (∀ j, j ≤ ss.length → (Shape.texts (ss.take j)).length + 2 ≤ e.start → j ≤ k) ∧
      ((a.viewAll 0 hs)[k]?.map Node.start).getD 0 = (Shape.texts (ss.take k)).length := by
  have hwidths : ∀ j, a.widths (hs.take j) = (Shape.texts (ss.take j)).length :=
    fun j => (hall.take j).widths
  obtain ⟨hle, hbefore, hmost⟩ := kept_viewAll (hall.width_pos hne) e
  rw [hk] at hle hbefore hmost
  refine ⟨hall.length_eq ▸ hle, ?_, ?_, ?_⟩
  · intro front s hs'
    obtain ⟨xs, back, hxs, -, x, _, rfl, -, hx, rfl⟩ := (hs' ▸ hall.take k).of_append
    obtain ⟨hlt, hclosed⟩ := hbefore xs x hxs
    rw [hwidths] at hlt hclosed
    refine ⟨hlt, hclosed.imp_right fun hclosed k t hends => ?_⟩
    rwa [Arena.lastLeafKind_of_endsIn hends hx] at hclosed
  · intro j hj hlt
    exact hmost j (hall.length_eq ▸ hj) (hwidths j ▸ hlt)
  · rw [start_getElem?_viewAll, hwidths]
    by_contra hnot
    -- all items would be kept, but the last one ends with the text
    have hend : hs.take k = hs := List.take_of_length_le (by omega)
    rcases List.eq_nil_or_concat hs with hnil | ⟨xs, x, hxs⟩
    · exact hnot (.inr hnil)
    · rw [List.concat_eq_append] at hxs
      have hlt := (hbefore xs x (hend.trans hxs)).1
      rw [hend, hall.widths] at hlt
      omega

/-- The old items that are taken over begin where reading has stopped; at the end of the new text
there are none. -/
theorem exists_resumed (hall : a.HoldsAll n hs ss) (hvalid : e.Valid)
    (hfits : e.Fits (Shape.texts ss) new) {r : Option (List Handle)} {k pos m : Nat}
    (hm : m ≤ (new.drop pos).length) (hpos : pos ≤ e.start)
    (hr : r = none ∧ (new.drop pos).length ≤ m ∨
      ∃ tail, r = some tail ∧ resumed? ((a.viewAll 0 hs).drop k) e (pos + m) = some tail) :
    ∃ resumed, r.getD [] = hs.drop resumed ∧
      e.oldEnd ≤ (Shape.texts (ss.take resumed)).length ∧
      ((Shape.texts (ss.take resumed)).length : Int) + e.delta = (pos + m : Nat) := by
  rcases hr with ⟨rfl, hlen⟩ | ⟨tail, rfl, hres⟩
  · obtain ⟨hold, hnew⟩ := hfits
    obtain ⟨hstart, hend⟩ := hvalid
    refine ⟨ss.length, ?_, ?_, ?_⟩
    · rw [← hall.length_eq, List.drop_length]
      rfl
    · rwa [List.take_length]
    · rw [List.length_drop] at hm hlen
      rw [List.take_length, Edit.delta]
      omega
  · rw [Arena.drop_viewAll, Nat.zero_add] at hres
    obtain ⟨j, -, htail, hle, hshift⟩ := resumed?_viewAll hres
    rw [← Arena.widths_append, ← List.take_add, (hall.take (k + j)).widths] at hle hshift
    refine ⟨k + j, ?_, hle, hshift⟩
    rw [← List.drop_drop, ← htail]
    rfl

/-- The steps of reading again, one after the other. -/
theorem reparse_eq (h : t.refusal? a new e = none) {items : List Node} (hitems : t.items a = items)
    {k pos : Nat} (hk : kept a items e = k) (hpos : (items[k]?.map Node.start).getD 0 = pos)
    {fresh : List Draft} {tail : Option (List Handle)}
    (hread : Read.readUntil t.config 0 (resumed? (items.drop (k + 1)) e) pos
      (lexemes (new.drop pos)) = (fresh, tail)) :
    t.reparse a new e = .ok
      ((a.storeAll fresh).1.branch .source
        ((items.take k).map Node.handle ++ (a.storeAll fresh).2 ++ tail.getD []) none,
      { source := new, root := (a.storeAll fresh).1.size, config := t.config
        rootStart := 0 }) := by
  simp only [reparse, h, hitems, hk]
  cases hget : items[k]? with
  | none =>
    rw [hget, Option.map_none, Option.getD_none] at hpos
    subst hpos
    simp only [hread, Arena.source]
  | some n =>
    rw [hget, Option.map_some, Option.getD_some] at hpos
    subst hpos
    simp only [hread, Arena.source]

/-- The tree after an edit that fits has items that are kept, fresh and taken over. -/
theorem reparse_holds (hcov : t.Covers a ss) (hvalid : e.Valid) (hfits : e.Fits t.source new) :
    ∃ a' t' kept fresh resumed, t.reparse a new e = .ok (a', t') ∧ a.Extends a' ∧
      t'.source = new ∧ t'.config = t.config ∧ t'.rootStart = 0 ∧
      Reused t.config e new ss kept fresh resumed ∧
      a'.Holds t'.root (.branch .source
        (ss.take kept ++ fresh.map Draft.shape ++ ss.drop resumed) none) := by
  obtain ⟨hs, hall, -, -, -, hchildren⟩ := Arena.view_branch hcov.holds 0
  have hitems : t.items a = a.viewAll 0 hs := by
    rw [items, node, hcov.rootStart, hchildren]
  have hstart : e.start ≤ (Shape.texts ss).length :=
    hcov.text ▸ Nat.le_trans hvalid.1 hfits.1
  obtain ⟨k, hk⟩ : ∃ k, kept a (a.viewAll 0 hs) e = k := ⟨_, rfl⟩
  obtain ⟨hle, hlast, hmost, hpos⟩ := kept_holdsAll hall hcov.nonempty hstart hk
  obtain ⟨⟨fresh, r⟩, hread⟩ : ∃ p, Read.readUntil t.config 0
      (resumed? ((a.viewAll 0 hs).drop (k + 1)) e) (Shape.texts (ss.take k)).length
      (lexemes (new.drop (Shape.texts (ss.take k)).length)) = p := ⟨_, rfl⟩
  obtain ⟨hsplit, hend⟩ := Read.readUntil_split _ _ _ _ hread
  obtain ⟨htexts, -, hsingle⟩ := Read.readItems_split hsplit
  have hkept : (Shape.texts (ss.take k)).length ≤ e.start :=
    length_texts_le fun front s hs => (hlast front s hs).1
  have hm : (Draft.texts fresh).length ≤ (new.drop (Shape.texts (ss.take k)).length).length := by
    rw [htexts]
    exact List.length_take_le' _ _
  obtain ⟨resumed, hres, hbehind, hshifted⟩ :=
    exists_resumed hall hvalid (hcov.text.symm ▸ hfits) hm hkept hend
  have hreused : Reused t.config e new ss k fresh resumed :=
    ⟨hle, hlast, hmost, hsplit, hbehind, hshifted⟩
  obtain ⟨hext, hsize, hfresh⟩ := a.holdsAll_storeAll fresh
  rw [Draft.allShapes_eq hsingle] at hfresh
  have hroot : t.root ≤ (a.storeAll fresh).1.size :=
    Nat.le_trans (Nat.le_of_lt hcov.holds.lt_size) hsize
  have hchildren' : (a.storeAll fresh).1.HoldsAll (a.storeAll fresh).1.size
      (hs.take k ++ (a.storeAll fresh).2 ++ hs.drop resumed)
      (ss.take k ++ fresh.map Draft.shape ++ ss.drop resumed) :=
    (((hall.take k).mono hext hroot).append hfresh).append ((hall.drop resumed).mono hext hroot)
  have hreparse := reparse_eq ((refusal?_eq_none_iff hcov).mpr hfits) hitems hk hpos hread
  rw [Arena.take_viewAll, Arena.map_handle_viewAll, hres] at hreparse
  exact ⟨_, _, k, fresh, resumed, hreparse, hext.trans (Arena.extends_push _ _), rfl, rfl, rfl,
    hreused, Arena.holds_branch .source none hchildren'⟩

/-- The tree after a truthful edit covers the new text. -/
theorem reparse_covers (hcov : t.Covers a ss) (he : e.Describes t.source new) :
    ∃ a' t' kept fresh resumed, t.reparse a new e = .ok (a', t') ∧ a.Extends a' ∧
      t'.source = new ∧ t'.config = t.config ∧
      Reused t.config e new ss kept fresh resumed ∧
      t'.Covers a' (ss.take kept ++ fresh.map Draft.shape ++ ss.drop resumed) := by
  obtain ⟨a', t', kept, fresh, resumed, hreparse, hext, hsource, hconfig, hroot, hreused, hold⟩ :=
    reparse_holds hcov he.valid he.fits
  refine ⟨a', t', kept, fresh, resumed, hreparse, hext, hsource, hconfig, hreused, hroot, hold, ?_,
    hreused.nonempty hcov.nonempty⟩
  rw [hsource, hreused.texts_eq he hcov.text]

end Tree

end RacketTree

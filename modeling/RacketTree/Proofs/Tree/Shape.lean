import RacketTree.Proofs.Token.Lexemes
import RacketTree.Tree.Frame

/-!
# Texts of shapes and drafts

What a tree says about its source is its text, the texts of its leaves from left to right. A draft
has the text of the trees that it stands for. `EndsIn` names the last leaf of a draft or shape; a
draft that ends in a leaf stands for a single tree.

The text of a block comment is that of its token (`draft_of_valid`): the nesting that the token has
been measured with is the nesting that its branches are built with.
-/

namespace RacketTree

namespace Shape

mutual

/-- The texts of the leaves. -/
def text : Shape → List Char
  | leaf _ text _ => text
  | branch _ children _ => texts children

/-- The texts of the leaves of several trees. -/
def texts : List Shape → List Char
  | [] => []
  | s :: rest => s.text ++ texts rest

end

@[simp] theorem texts_append (xs ys : List Shape) : texts (xs ++ ys) = texts xs ++ texts ys := by
  induction xs with
  | nil => rfl
  | cons x xs ih => simp [texts, ih]

mutual

/-- The tree has a fault in it. -/
def hasFault : Shape → Bool
  | leaf _ _ fault => fault.isSome
  | branch _ children fault => fault.isSome || anyFault children

/-- One of several trees has a fault in it. -/
def anyFault : List Shape → Bool
  | [] => false
  | s :: rest => s.hasFault || anyFault rest

end

@[simp] theorem anyFault_append (xs ys : List Shape) :
    anyFault (xs ++ ys) = (anyFault xs || anyFault ys) := by
  induction xs with
  | nil => rfl
  | cons x xs ih => simp [anyFault, ih, Bool.or_assoc]

/-- The last leaf of the tree has this kind and text. -/
inductive EndsIn (kind : Kind) (text : List Char) : Shape → Prop
  | leaf (fault : Option Fault) : EndsIn kind text (.leaf kind text fault)
  | branch (outer : Kind) (before : List Shape) {last : Shape} (fault : Option Fault)
      (h : EndsIn kind text last) : EndsIn kind text (.branch outer (before ++ [last]) fault)

theorem EndsIn.unique {s : Shape} {k k' : Kind} {t t' : List Char} (h : EndsIn k t s)
    (h' : EndsIn k' t' s) : k = k' ∧ t = t' := by
  induction h with
  | leaf fault =>
    cases h'
    exact ⟨rfl, rfl⟩
  | @branch outer before last fault h ih =>
    generalize hxs : before ++ [last] = xs at h'
    cases h' with
    | branch _ before' _ h' =>
      obtain ⟨-, hlast⟩ := List.append_inj' hxs rfl
      cases hlast
      exact ih h'

theorem EndsIn.text_suffix {s : Shape} {k : Kind} {t : List Char} (h : EndsIn k t s) :
    ∃ before, s.text = before ++ t := by
  induction h with
  | leaf fault => exact ⟨[], rfl⟩
  | branch outer before fault h ih =>
    obtain ⟨front, hfront⟩ := ih
    exact ⟨texts before ++ front, by simp [text, texts, hfront]⟩

end Shape

namespace Draft

@[simp] theorem allShapes_append (xs ys : List Draft) :
    allShapes (xs ++ ys) = allShapes xs ++ allShapes ys := by
  induction xs with
  | nil => rfl
  | cons x xs ih => simp [allShapes, ih]

theorem mem_allShapes {ds : List Draft} {s : Shape} :
    s ∈ allShapes ds ↔ ∃ d ∈ ds, s ∈ d.shapes := by
  induction ds with
  | nil => simp [allShapes]
  | cons d ds ih => simp [allShapes, ih]

/-- The text of a draft. -/
def text (d : Draft) : List Char :=
  Shape.texts d.shapes

/-- The text of several drafts. -/
def texts (ds : List Draft) : List Char :=
  Shape.texts (allShapes ds)

@[simp] theorem texts_nil : texts [] = [] := rfl

@[simp] theorem texts_cons (d : Draft) (ds : List Draft) :
    texts (d :: ds) = d.text ++ texts ds := by
  simp [texts, text, allShapes]

@[simp] theorem texts_append (xs ys : List Draft) : texts (xs ++ ys) = texts xs ++ texts ys := by
  simp [texts]

@[simp] theorem text_leaf (k : Kind) (t : List Char) (f : Option Fault) :
    (leaf k t f).text = t := by
  simp [text, shapes, Shape.texts, Shape.text]

@[simp] theorem text_branch (k : Kind) (cs : List Draft) (f : Option Fault) :
    (branch k cs f).text = texts cs := by
  simp [text, texts, shapes, Shape.texts, Shape.text]

@[simp] theorem text_tail (pieces trailing : List Draft) :
    (tail pieces trailing).text = texts pieces ++ texts trailing := by
  simp [text, texts, shapes, Shape.texts, Shape.text]

@[simp] theorem text_missing : missing.text = [] :=
  text_leaf _ _ _

/-- The draft has a fault in it. -/
def hasFault (d : Draft) : Bool :=
  Shape.anyFault d.shapes

/-- One of several drafts has a fault in it. -/
def anyFault (ds : List Draft) : Bool :=
  Shape.anyFault (allShapes ds)

@[simp] theorem anyFault_nil : anyFault [] = false := rfl

@[simp] theorem anyFault_cons (d : Draft) (ds : List Draft) :
    anyFault (d :: ds) = (d.hasFault || anyFault ds) := by
  simp [anyFault, hasFault, allShapes]

@[simp] theorem anyFault_append (xs ys : List Draft) :
    anyFault (xs ++ ys) = (anyFault xs || anyFault ys) := by
  simp [anyFault]

@[simp] theorem anyFault_reverse (ds : List Draft) : anyFault ds.reverse = anyFault ds := by
  induction ds with
  | nil => rfl
  | cons d ds ih => simp [ih, Bool.or_comm]

@[simp] theorem hasFault_leaf (k : Kind) (t : List Char) (f : Option Fault) :
    (leaf k t f).hasFault = f.isSome := by
  simp [hasFault, shapes, Shape.anyFault, Shape.hasFault]

@[simp] theorem hasFault_branch (k : Kind) (cs : List Draft) (f : Option Fault) :
    (branch k cs f).hasFault = (f.isSome || anyFault cs) := by
  simp [hasFault, anyFault, shapes, Shape.anyFault, Shape.hasFault]

@[simp] theorem hasFault_tail (pieces trailing : List Draft) :
    (tail pieces trailing).hasFault = true := by
  simp [hasFault, shapes, Shape.anyFault, Shape.hasFault]

mutual

theorem width_eq : (d : Draft) → d.width = d.text.length
  | leaf .. => by simp [width]
  | branch _ children _ => by simp [width, widths_eq children]
  | tail pieces trailing => by simp [width, widths_eq pieces, widths_eq trailing]

theorem widths_eq : (ds : List Draft) → widths ds = (texts ds).length
  | [] => rfl
  | d :: ds => by simp [widths, width_eq d, widths_eq ds]

end

/-- The draft stands for one tree. -/
def isSingle : Draft → Bool
  | tail .. => false
  | _ => true

/-- The tree that a single draft stands for. -/
def shape : Draft → Shape
  | leaf kind text fault => .leaf kind text fault
  | branch kind children fault => .branch kind (allShapes children) fault
  | tail pieces _ => .branch .error (allShapes pieces) (some .malformedDottedPair)

theorem shapes_eq {d : Draft} (h : d.isSingle = true) : d.shapes = [d.shape] := by
  cases d with
  | leaf | branch => simp [shapes, shape]
  | tail => cases h

theorem allShapes_eq {ds : List Draft} (h : ∀ d ∈ ds, d.isSingle = true) :
    allShapes ds = ds.map shape := by
  induction ds with
  | nil => rfl
  | cons d ds ih =>
    rw [allShapes, shapes_eq (h d List.mem_cons_self),
      ih fun d hd => h d (List.mem_cons_of_mem _ hd)]
    rfl

theorem text_shape {d : Draft} (h : d.isSingle = true) : d.shape.text = d.text := by
  rw [text, shapes_eq h]
  simp [Shape.texts]

/-- The last leaf of the draft has this kind and text. -/
inductive EndsIn (kind : Kind) (text : List Char) : Draft → Prop
  | leaf (fault : Option Fault) : EndsIn kind text (.leaf kind text fault)
  | branch (outer : Kind) (before : List Draft) {last : Draft} (fault : Option Fault)
      (h : EndsIn kind text last) : EndsIn kind text (.branch outer (before ++ [last]) fault)

namespace EndsIn

variable {d : Draft} {k : Kind} {t : List Char}

theorem isSingle (h : EndsIn k t d) : d.isSingle = true := by
  cases h <;> rfl

theorem shape (h : EndsIn k t d) : d.shape.EndsIn k t := by
  induction h with
  | leaf fault => exact .leaf fault
  | branch outer before fault h ih =>
    rw [Draft.shape, allShapes_append, allShapes, shapes_eq h.isSingle, allShapes]
    exact .branch outer (allShapes before) fault ih

end EndsIn

end Draft

/-! ## Block comments -/

namespace BlockComment

/-- The text of the comments around the innermost open one. -/
def outerText : List (List Draft) → List Char
  | [] => []
  | children :: outer => outerText outer ++ Draft.texts children.reverse

theorem anyFault_flush (run : List Char) (children : List Draft) :
    Draft.anyFault (flush run children) = Draft.anyFault children := by
  unfold flush
  split <;> simp

theorem texts_flush (run : List Char) (children : List Draft) :
    Draft.texts (flush run children).reverse = Draft.texts children.reverse ++ run.reverse := by
  unfold flush
  split
  · rename_i h
    rw [List.isEmpty_iff.mp h]
    simp
  · simp

/-- The comment that is built has the text that has been measured, and its closer at the end. -/
theorem build_of_blockWidth (run : List Char) (children : List Draft) (outer : List (List Draft))
    {cs : List Char} {n : Nat} (h : Token.blockWidth? outer.length cs = some n) :
    ∃ inner, build run children outer cs =
        some (.branch .blockComment (inner ++ [closing]) none) ∧
      Draft.texts inner ++ ['|', '#'] =
        outerText outer ++ Draft.texts children.reverse ++ run.reverse ++ cs.take n ∧
      Draft.anyFault inner = (outer.any Draft.anyFault || Draft.anyFault children) := by
  fun_induction build run children outer cs generalizing n with
  | case1 => cases h
  | case2 run children rest =>
    cases h
    refine ⟨(flush run children).reverse, by rw [← List.reverse_cons], ?_, ?_⟩
    · rw [texts_flush]
      simp [outerText]
    · rw [Draft.anyFault_reverse, anyFault_flush]
      simp
  | case3 run children rest done parent outer =>
    rename_i ih
    simp only [List.length_cons, Token.blockWidth?, Option.map_eq_some_iff] at h
    obtain ⟨m, hm, rfl⟩ := h
    obtain ⟨inner, hbuild, htext, hfault⟩ := ih hm
    refine ⟨inner, hbuild, htext.trans ?_, hfault.trans ?_⟩
    · simp [outerText, done, texts_flush, closing]
    · simp [anyFault_flush, done, closing, Bool.or_comm,
        Bool.or_left_comm]
  | case4 run children outer rest ih =>
    simp only [Token.blockWidth?, Option.map_eq_some_iff] at h
    obtain ⟨m, hm, rfl⟩ := h
    obtain ⟨inner, hbuild, htext, hfault⟩ := ih hm
    refine ⟨inner, hbuild, htext.trans ?_, hfault.trans ?_⟩
    · simp [outerText, texts_flush, opening]
    · simp [anyFault_flush, opening, Bool.or_comm]
  | case5 run children outer c rest h₁ h₂ ih =>
    rw [Token.blockWidth?, Option.map_eq_some_iff] at h
    · obtain ⟨m, hm, rfl⟩ := h
      obtain ⟨inner, hbuild, htext, hfault⟩ := ih hm
      exact ⟨inner, hbuild, htext.trans (by simp), hfault⟩
    · exact h₁
    · exact h₂

theorem draft_of_blockWidth {body : List Char}
    (h : Token.blockWidth? 0 body = some body.length) :
    ∃ inner, draft ('#' :: '|' :: body) = .branch .blockComment (inner ++ [closing]) none ∧
      Draft.texts inner ++ ['|', '#'] = '#' :: '|' :: body ∧ Draft.anyFault inner = false := by
  obtain ⟨inner, hbuild, htext, hfault⟩ := build_of_blockWidth [] [opening] [] h
  refine ⟨inner, ?_, ?_, by simpa [opening] using hfault⟩
  · rw [draft, List.drop_succ_cons, List.drop_succ_cons, List.drop_zero, hbuild]
    rfl
  · rw [htext]
    simp [outerText, opening]

end BlockComment

namespace Lexeme

@[simp] theorem text_leaf (l : Lexeme) : l.leaf.text = l.text :=
  Draft.text_leaf _ _ _

@[simp] theorem hasFault_leaf (l : Lexeme) : l.leaf.hasFault = l.fault.isSome :=
  Draft.hasFault_leaf _ _ _

/-- The kind of the last leaf of a lexeme that is an item by itself. -/
def endKind (l : Lexeme) : Kind :=
  if l.kind = .blockComment then .blockCommentCloser
  else if l.fault.isSome then .error else l.kind

/-- The text of the last leaf of a lexeme that is an item by itself. -/
def endText (l : Lexeme) : List Char :=
  if l.kind = .blockComment then ['|', '#'] else l.text

theorem endsIn_leaf {l : Lexeme} (h : l.kind ≠ .blockComment) :
    l.leaf.EndsIn l.endKind l.endText := by
  unfold endKind endText
  rw [if_neg h, if_neg h]
  exact .leaf l.fault

theorem draft_eq_leaf {l : Lexeme} (h : l.kind ≠ .blockComment) : l.draft = l.leaf :=
  if_neg h

/-- What a lexeme that is an item by itself keeps of its token. -/
theorem draft_of_valid {l : Lexeme} (h : l.Valid) :
    l.draft.text = l.text ∧ l.draft.hasFault = l.fault.isSome ∧
      l.draft.EndsIn l.endKind l.endText := by
  by_cases hk : l.kind = .blockComment
  · obtain ⟨body, hbody, hwidth, hfault⟩ := h.comment hk
    obtain ⟨inner, hdraft, htext, hinner⟩ := BlockComment.draft_of_blockWidth hwidth
    have hl : l.draft = .branch .blockComment (inner ++ [BlockComment.closing]) none := by
      rw [draft, if_pos hk, hbody, hdraft]
    rw [hl, hfault, hbody, ← htext]
    refine ⟨by simp [BlockComment.closing], by simp [BlockComment.closing, hinner], ?_⟩
    unfold endKind endText
    rw [if_pos hk, if_pos hk]
    exact .branch _ _ _ (.leaf none)
  · rw [draft_eq_leaf hk]
    exact ⟨l.text_leaf, l.hasFault_leaf, endsIn_leaf hk⟩

end Lexeme

end RacketTree

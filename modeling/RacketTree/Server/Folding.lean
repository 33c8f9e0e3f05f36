import RacketTree.Tree.Basic

/-!
# Folding

Sequences and block comments that go over more than one line can be folded. A block comment inside
another is not folded by itself.
-/

namespace RacketTree

/-- Rows that can be folded together. -/
structure Fold where
  startRow : Nat
  endRow : Nat
  isComment : Bool
  deriving DecidableEq, Repr

namespace Fold

/-- The fold of a node below a parent of the given kind. -/
def ofNode? (lines : Lines) (parent : Kind) (n : Node) : Option Fold :=
  let isComment := n.kind == .blockComment && parent != .blockComment
  if isComment || n.kind.isSequence then
    let startRow := (lines.position n.start).row
    let endRow := (lines.position n.stop).row
    if startRow < endRow then some ⟨startRow, endRow, isComment⟩ else none
  else none

mutual

/-- The folds below a node. -/
def below (lines : Lines) : Node → List Fold
  | ⟨_, kind, _, _, _, _, _, children⟩ => belowAll lines kind children

/-- The folds of several nodes below a parent of the given kind. -/
def belowAll (lines : Lines) (parent : Kind) : List Node → List Fold
  | [] => []
  | n :: rest => (ofNode? lines parent n).toList ++ below lines n ++ belowAll lines parent rest

end

/-- The folds of a tree in source order. -/
def ofTree (t : Tree) (a : Arena) : List Fold :=
  below t.lines (t.node a)

end Fold

end RacketTree

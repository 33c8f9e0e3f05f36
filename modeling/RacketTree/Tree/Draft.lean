import RacketTree.Token.Basic

/-!
# Drafts

What the reader builds: a tree of leaves and branches that has no place in a source text yet. A
malformed tail of a dotted list stands for several siblings at once, an error branch around the
pieces of the tail and the trivia after it.

A shape is a tree alone, without drafts' grouping of tails. It is what two trees have in common when
they are structurally equal.
-/

namespace RacketTree

/-- A tree of kinds, texts and faults. -/
inductive Shape where
  | leaf (kind : Kind) (text : List Char) (fault : Option Fault)
  | branch (kind : Kind) (children : List Shape) (fault : Option Fault)
  deriving Repr

/-- A tree as the reader builds it. -/
inductive Draft where
  | leaf (kind : Kind) (text : List Char) (fault : Option Fault)
  | branch (kind : Kind) (children : List Draft) (fault : Option Fault)
  /-- A malformed dotted tail: its pieces, and the trivia between them and the closer. -/
  | tail (pieces trailing : List Draft)
  deriving Repr

namespace Draft

/-- A placeholder for a datum that the source lacks. -/
def missing : Draft :=
  leaf .missing [] none

/-- The draft is trivia. -/
def isTrivia : Draft → Bool
  | leaf kind .. => kind.isTrivia
  | branch kind .. => kind.isTrivia
  | tail .. => false

mutual

/-- The number of characters. -/
def width : Draft → Nat
  | leaf _ text _ => text.length
  | branch _ children _ => widths children
  | tail pieces trailing => widths pieces + widths trailing

/-- The number of characters of several drafts. -/
def widths : List Draft → Nat
  | [] => 0
  | d :: rest => d.width + widths rest

end

mutual

/-- The trees that a draft stands for. -/
def shapes : Draft → List Shape
  | leaf kind text fault => [.leaf kind text fault]
  | branch kind children fault => [.branch kind (allShapes children) fault]
  | tail pieces trailing =>
    .branch .error (allShapes pieces) (some .malformedDottedPair) :: allShapes trailing

/-- The trees that several drafts stand for. -/
def allShapes : List Draft → List Shape
  | [] => []
  | d :: rest => d.shapes ++ allShapes rest

end

end Draft

/-- The leaf of a lexeme; a lexeme with a fault is an error leaf. -/
def Lexeme.leaf (l : Lexeme) : Draft :=
  .leaf (if l.fault.isSome then .error else l.kind) l.text l.fault

end RacketTree

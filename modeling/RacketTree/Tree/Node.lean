import RacketTree.Tree.Arena

/-!
# Nodes

A node is a record seen at its place in a source text, with all nodes below it. Widths in the arena
become spans here: the first child starts where its parent starts, and each next one where the one
before it ends.
-/

namespace RacketTree

/-- A record at an offset, with the nodes below it. -/
structure Node where
  handle : Handle
  kind : Kind
  start : Nat
  width : Nat
  /-- The text of a leaf. -/
  text? : Option (List Char)
  fault : Option Fault
  hasFault : Bool
  children : List Node
  deriving Repr

namespace Arena

/-- The children of a record with the offsets at which they start. -/
def spots (a : Arena) (start : Nat) : List Handle → List (Handle × Nat)
  | [] => []
  | c :: rest => (c, start) :: a.spots (start + a.width c) rest

/-- The node of a record at an offset. -/
def view (a : Arena) (h : Handle) (start : Nat) : Node :=
  match a.get? h with
  | none =>
    { handle := h, kind := .missing, start, width := 0, text? := some [], fault := none
      hasFault := false, children := [] }
  | some r =>
    { handle := h, kind := r.kind, start, width := r.width, text? := r.text?, fault := r.fault
      hasFault := r.hasFault
      children := (a.spots start r.children).filterMap fun spot =>
        if _below : spot.1 < h then some (a.view spot.1 spot.2) else none }
termination_by h
decreasing_by exact _below

end Arena

namespace Node

/-- The offset after the node. -/
def stop (n : Node) : Nat :=
  n.start + n.width

/-- The node is a leaf. -/
def isLeaf (n : Node) : Bool :=
  n.text?.isSome

/-- The text of the node: its own, or its stretch of the source. -/
def text (n : Node) (source : List Char) : List Char :=
  n.text?.getD ((source.drop n.start).take n.width)

/-- The node is an error. -/
def isError (n : Node) : Bool :=
  n.kind == .error

/-- The node stands for a missing datum. -/
def isMissing (n : Node) : Bool :=
  n.kind == .missing

/-- The offset lies in the span of the node. -/
def contains (n : Node) (offset : Int) : Bool :=
  n.start ≤ offset && offset < n.stop

/-- The children other than whitespace and punctuation. -/
def named (n : Node) : List Node :=
  n.children.filter fun c => c.kind != .whitespace && !c.kind.isPunctuation

/-- The children in datum position, errors included. -/
def datums (n : Node) : List Node :=
  n.named.filter fun c => !c.kind.isComment

/-- The datum after the dot of a list that has exactly one. -/
def dottedTail? (n : Node) : Option Node :=
  if n.kind == .list && n.children.countP (·.kind == .dot) == 1 then
    (n.children.dropWhile (·.kind != .dot)).find? fun c => c.kind.isAtom || c.kind.isCompound
  else none

mutual

/-- The node and all nodes below it in source order, each before its children. -/
def walk : Node → List Node
  | n@⟨_, _, _, _, _, _, _, children⟩ => n :: walkAll children

/-- The nodes of several trees in source order. -/
def walkAll : List Node → List Node
  | [] => []
  | n :: rest => n.walk ++ walkAll rest

end

mutual

/-- The nodes in source order with their depths. -/
def walkDepths (depth : Nat) : Node → List (Nat × Node)
  | n@⟨_, _, _, _, _, _, _, children⟩ => (depth, n) :: walkDepthsAll (depth + 1) children

/-- The nodes of several trees with their depths. -/
def walkDepthsAll (depth : Nat) : List Node → List (Nat × Node)
  | [] => []
  | n :: rest => n.walkDepths depth ++ walkDepthsAll depth rest

end

/-- The leaves in source order. -/
def leaves (n : Node) : List Node :=
  n.walk.filter isLeaf

mutual

/-- The outermost error nodes, and the missing nodes outside them. -/
def errors : Node → List Node
  | n@⟨_, kind, _, _, _, _, hasFault, children⟩ =>
    if kind == .error || kind == .missing then [n]
    else if hasFault then errorsAll children
    else []

/-- The outermost error nodes of several trees. -/
def errorsAll : List Node → List Node
  | [] => []
  | n :: rest => n.errors ++ errorsAll rest

end

mutual

/-- The chain from the deepest node whose span contains the offset up to this node. -/
def pathTo (offset : Int) : Node → List Node
  | n@⟨_, _, _, _, _, _, _, children⟩ => pathToAny offset children ++ [n]

/-- The chain below the first of several nodes whose span contains the offset. -/
def pathToAny (offset : Int) : List Node → List Node
  | [] => []
  | n :: rest => if n.contains offset then n.pathTo offset else pathToAny offset rest

end

end Node

end RacketTree

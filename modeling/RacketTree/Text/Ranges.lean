/-!
# Ranges of code points

Character classes that follow a published table are lists of inclusive ranges of code points.
-/

namespace RacketTree.Text

/-- The code point lies in one of the inclusive ranges. -/
def inRanges (table : List (Nat × Nat)) (code : Nat) : Bool :=
  table.any fun range => range.1 ≤ code && code ≤ range.2

end RacketTree.Text

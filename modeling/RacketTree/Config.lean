/-!
# Reader options

How deep compounds may nest, whether brackets of different shape may close each other, and whether
the infix form `(a . op . b)` is accepted.
-/

namespace RacketTree

/-- The options of the reader. -/
structure Config where
  /-- The greatest number of compounds around a compound, plus one. -/
  maxDepth : Nat := 200
  /-- A closing delimiter has to be the counterpart of its opener. -/
  strictDelimiters : Bool := false
  /-- A list may have two dots. -/
  infixDots : Bool := true
  /-- The file that the options were read from. -/
  path : Option String := none
  maxDepth_pos : 0 < maxDepth := by decide
  deriving DecidableEq, Repr

namespace Config

/-- The options without a file. -/
def default : Config := {}

instance : Inhabited Config := ⟨default⟩

/-- The greatest number of dots in a list. -/
def maxDots (c : Config) : Nat :=
  if c.infixDots then 2 else 1

end Config

end RacketTree

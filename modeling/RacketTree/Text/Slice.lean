/-!
# Slices with bounds relative to either end

A bound counts from the front, or from the back when it is negative. Bounds outside the list are
cut to its ends.
-/

namespace RacketTree.Text

variable {α : Type}

/-- The position of a slice bound in a list of the given length. -/
def bound (length : Nat) (i : Int) : Nat :=
  if i < 0 then (length + i).toNat else min i.toNat length

/-- The elements between two bounds. -/
def slice (xs : List α) (lo hi : Int) : List α :=
  (xs.take (bound xs.length hi)).drop (bound xs.length lo)

/-- The element at an index that counts from the back when it is negative. -/
def atIndex? (xs : List α) (i : Int) : Option α :=
  if 0 ≤ i then xs[i.toNat]?
  else if 0 ≤ xs.length + i then xs[(xs.length + i).toNat]?
  else none

end RacketTree.Text

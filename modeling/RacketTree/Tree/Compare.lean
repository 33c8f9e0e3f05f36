import RacketTree.Tree.Basic

/-!
# Comparing trees record by record

Two trees are compared along a list of pairs of records that have yet to be looked at. Two records
that differ end the comparison; the children of two that agree are paired and come next, the last
pair first. Where both trees are in one arena, a record is not compared with itself.

The list can grow at every step, and in an arena whose records go round in a circle it never ends.
There is no answer then, and none for a handle without a record.
-/

namespace RacketTree

/-- Two records agree in all but the records below them, of which they have equally many. -/
def Record.agrees (r s : Record) : Bool :=
  r.kind == s.kind && r.width == s.width && r.text? == s.text? && r.fault == s.fault &&
    r.children.length == s.children.length

/-- Compares pairs of records of two arenas, which are one arena if `one` says so. -/
def Arena.compare (a b : Arena) (one : Bool) : List (Handle × Handle) → Option Bool
  | [] => some true
  | (x, y) :: rest =>
    if one && x == y then a |>.compare b one rest
    else
      match a.get? x, b.get? y with
      | some r, some s =>
        if r.agrees s then a |>.compare b one ((r.children.zip s.children).reverse ++ rest)
        else some false
      | _, _ => none
partial_fixpoint

/-- Compares two trees, in one arena or in two. -/
def Tree.compare (t : Tree) (a : Arena) (u : Tree) (b : Arena) (one : Bool) : Option Bool :=
  a.compare b one [(t.root, u.root)]

end RacketTree

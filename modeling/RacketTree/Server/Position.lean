import RacketTree.Json.Basic
import RacketTree.Lines

/-!
# Positions of a client

A client gives a position as a line and a UTF-16 character, which should be integers but may be any
JSON values. A line behind the last one stands for the end of the text whatever the character is.
Otherwise the line has to be an integer, except that below zero every number stands for the start of
an ASCII text. A character of an ASCII text may be a floating-point number; the place is then one
between two offsets, unless the character is cut to the line.
-/

namespace RacketTree

/-- What a position stands for. -/
inductive Place where
  | exact (offset : Nat)
  /-- A floating-point number that is at least `offset` and below the next one. -/
  | within (offset : Nat)
  deriving DecidableEq, Repr

/-- The offset at or before a place. -/
def Place.offset : Place → Nat
  | exact offset => offset
  | within offset => offset

namespace Lines

variable (l : Lines)

/-- The place of a character in a row of an ASCII text. -/
def placeInRow? (row : Nat) : Json → Option Place
  | .float x =>
    if x.gtInt (l.lengthOf row) then some (.exact (l.offset row (l.lengthOf row)))
    else
      match x with
      | .finite false (m + 1) e =>
        some (.within (Decimal.Binary64.floorAdd (l.startOf row) (m + 1) e).toNat)
      | _ => some (.exact (l.startOf row))
  | character => character.asInt?.map fun column => .exact (l.offset row column)

/-- The least integer that counts as many code units as a character does: `units` is more than any
line has. -/
def roundedCharacter? (units : Nat) : Json → Option Int
  | .float (.finite negative m e) => some (Decimal.Binary64.ceil negative m e)
  | .float (.infinite true) => some 0
  | .float _ => some units
  | character => character.asInt?

/-- The place of a character in a row of a text that is not ASCII. In an empty row the character
does not matter. -/
def placeInRow16? (row : Int) (character : Json) : Option Place :=
  let column := if l.line? row = some [] then some 0
    else roundedCharacter? (2 * l.text.length + 1) character
  match column with
  | some column => (l.offset16? row column).map .exact
  | none => none

/-- The place of a line and a character. -/
def place? (line character : Json) : Option Place :=
  match line with
  | .float x =>
    if x.geInt l.count then some (.exact l.text.length)
    else if l.isAscii && x.ltInt 0 then some (.exact 0)
    else none
  | line =>
    match line.asInt? with
    | none => none
    | some row =>
      if l.count ≤ row then some (.exact l.text.length)
      else if !l.isAscii then l.placeInRow16? row character
      else if row < 0 then some (.exact 0)
      else l.placeInRow? row.toNat character

end Lines

end RacketTree

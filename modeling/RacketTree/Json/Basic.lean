import RacketTree.Decimal.Binary64
import RacketTree.Text.Codes

/-!
# JSON values

Objects keep their fields in order, and no name occurs twice. Integers have any size and are apart
from floating-point numbers. Strings and names are code points: an escape can write half of a
surrogate pair.
-/

namespace RacketTree

/-- A JSON value. -/
inductive Json where
  | null
  | bool (b : Bool)
  | int (n : Int)
  | float (x : Decimal.Binary64)
  | str (text : Codes)
  | arr (items : List Json)
  | obj (fields : List (Codes × Json))
  deriving Repr, Inhabited

namespace Json

/-- The fields of an object. -/
abbrev Fields := List (Codes × Json)

/-- The value of a name in a list of fields. -/
def field? (fields : Fields) (name : Codes) : Option Json :=
  (fields.find? (·.1 == name)).map (·.2)

/-- The fields with one set: in its old place, or last if the name is new. -/
def setField (fields : Fields) (name : Codes) (value : Json) : Fields :=
  if fields.any (·.1 == name) then
    fields.map fun f => if f.1 == name then (name, value) else f
  else fields ++ [(name, value)]

/-- The value of a name, if this is an object that has it. -/
def get? (j : Json) (name : Codes) : Option Json :=
  match j with
  | obj fields => field? fields name
  | _ => none

/-- The value counts as absent: null, false, zero, or an empty text, array or object. -/
def isEmpty : Json → Bool
  | null => true
  | bool b => !b
  | int n => n == 0
  | float x => x.eqInt 0
  | str text => text.isEmpty
  | arr items => items.isEmpty
  | obj fields => fields.isEmpty

/-- A natural number as a value. -/
def nat (n : Nat) : Json := int n

/-! ## Equality -/

/-- The integer that a boolean or integer stands for. -/
def asInt? : Json → Option Int
  | int n => some n
  | bool b => some (if b then 1 else 0)
  | _ => none

/-- The numbers are equal; booleans count as numbers. -/
def numEq : Json → Json → Bool
  | float x, float y => x.numEq y
  | float x, j => (j.asInt?.map x.eqInt).getD false
  | j, float y => (j.asInt?.map y.eqInt).getD false
  | j, k => j.asInt?.isSome && j.asInt? == k.asInt?

mutual

/-- The values are equal: numbers by value, objects without regard to the order of fields. -/
def equal : Json → Json → Bool
  | null, null => true
  | str s, str t => s == t
  | arr xs, arr ys => equalItems xs ys
  | obj fs, obj gs => fs.length == gs.length && equalFields fs gs
  | j, k => numEq j k

/-- The items are equal, one by one. -/
def equalItems : List Json → List Json → Bool
  | [], [] => true
  | x :: xs, y :: ys => x.equal y && equalItems xs ys
  | _, _ => false

/-- Every field has an equal one of the same name in an object. -/
def equalFields : Fields → Fields → Bool
  | [], _ => true
  | (name, value) :: rest, fields =>
    (match field? fields name with
      | some other => value.equal other
      | none => false) && equalFields rest fields

end

end Json

end RacketTree

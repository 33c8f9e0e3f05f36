import RacketTree.Decimal.Shortest
import RacketTree.Json.Basic
import RacketTree.Text.Quoted

/-!
# Values

The values that datums stand for. A table keeps its entries in the order in which their keys were
first met; a later entry with an equal key replaces the value. Numbers and booleans are equal as
keys if they are equal as numbers.
-/

namespace RacketTree

/-- The value of a datum. -/
inductive Value where
  | none
  | bool (b : Bool)
  | int (n : Int)
  | float (x : Decimal.Binary64)
  /-- A text as code points. -/
  | str (codes : List Nat)
  | bytes (bytes : List Nat)
  /-- An improper list. -/
  | tuple (items : List Value)
  | list (items : List Value)
  | dict (entries : List (Value × Value))
  deriving Repr

namespace Value

/-- A text. -/
def ofString (s : String) : Value :=
  str (s.toList.map Char.toNat)

/-- The name of a value's type. -/
def typeName : Value → String
  | none => "NoneType"
  | bool _ => "bool"
  | int _ => "int"
  | float _ => "float"
  | str _ => "str"
  | bytes _ => "bytes"
  | tuple _ => "tuple"
  | list _ => "list"
  | dict _ => "dict"

/-! ## Keys -/

mutual

/-- The value may be a key: no list or table is in it. -/
def isKey : Value → Bool
  | list _ => false
  | dict _ => false
  | tuple items => areKeys items
  | _ => true

/-- All values may be keys. -/
def areKeys : List Value → Bool
  | [] => true
  | v :: rest => v.isKey && areKeys rest

end

/-- The integer that a boolean or integer is equal to. -/
def asInt? : Value → Option Int
  | bool b => some (if b then 1 else 0)
  | int n => some n
  | _ => Option.none

mutual

/-- The values are equal as keys. -/
def eqKey : Value → Value → Bool
  | none, none => true
  | str s, str t => s == t
  | bytes s, bytes t => s == t
  | tuple xs, tuple ys => eqKeys xs ys
  | float x, float y => x.numEq y
  | float x, v =>
    match v.asInt? with
    | some n => x.eqInt n
    | Option.none => false
  | bool b, float y => y.eqInt (if b then 1 else 0)
  | int n, float y => y.eqInt n
  | bool b, v => v.asInt? == some (if b then 1 else 0)
  | int n, v => v.asInt? == some n
  | _, _ => false

/-- The values are equal as keys, one by one. -/
def eqKeys : List Value → List Value → Bool
  | [], [] => true
  | x :: xs, y :: ys => x.eqKey y && eqKeys xs ys
  | _, _ => false

end

/-- The entries with one set: in its old place and with its old key, or last if the key is new. -/
def setEntry (entries : List (Value × Value)) (key value : Value) : List (Value × Value) :=
  if entries.any (·.1.eqKey key) then
    entries.map fun e => if e.1.eqKey key then (e.1, value) else e
  else entries ++ [(key, value)]

/-! ## Display -/

/-- A byte inside a displayed byte string. -/
def byteText (quote : Char) (b : Nat) : List Char :=
  if b = quote.toNat || b = 0x5C then ['\\', Char.ofNat b]
  else if b = 0x0A then ['\\', 'n']
  else if b = 0x0D then ['\\', 'r']
  else if b = 0x09 then ['\\', 't']
  else if 0x20 ≤ b && b < 0x7F then [Char.ofNat b]
  else '\\' :: 'x' :: Text.hexDigits 2 b

mutual

/-- The form in which messages show a value. -/
def display : Value → List Char
  | none => "None".toList
  | bool true => "True".toList
  | bool false => "False".toList
  | int n => (toString n).toList
  | float x => x.text
  | str codes => Text.Quoted.ofCodes codes
  | bytes bs =>
    let quote := Text.Quoted.mark bs
    'b' :: quote :: bs.flatMap (byteText quote) ++ [quote]
  | tuple [item] => '(' :: item.display ++ [',', ')']
  | tuple items => '(' :: displayAll items ++ [')']
  | list items => '[' :: displayAll items ++ [']']
  | dict entries => '\x7b' :: displayEntries entries ++ ['\x7d']

/-- Several values with commas between. -/
def displayAll : List Value → List Char
  | [] => []
  | [v] => v.display
  | v :: rest => v.display ++ ',' :: ' ' :: displayAll rest

/-- Several entries with commas between. -/
def displayEntries : List (Value × Value) → List Char
  | [] => []
  | [(k, v)] => k.display ++ ':' :: ' ' :: v.display
  | (k, v) :: rest => k.display ++ ':' :: ' ' :: v.display ++ ',' :: ' ' :: displayEntries rest

end

end Value

namespace Json

mutual

/-- A JSON value as a value. -/
def toValue : Json → Value
  | null => .none
  | bool b => .bool b
  | int n => .int n
  | float x => .float x
  | str text => .str text.points
  | arr items => .list (toValues items)
  | obj fields => .dict (toEntries fields)

/-- JSON values as values. -/
def toValues : List Json → List Value
  | [] => []
  | j :: rest => j.toValue :: toValues rest

/-- JSON fields as entries. -/
def toEntries : Fields → List (Value × Value)
  | [] => []
  | (name, j) :: rest => (.str name.points, j.toValue) :: toEntries rest

end

/-- A JSON value in running text: a string as it is, any other value as it is displayed. -/
def inText : Json → Codes
  | str text => text
  | j => .ofChars j.toValue.display

end Json

end RacketTree

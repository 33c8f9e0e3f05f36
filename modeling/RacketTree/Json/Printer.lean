import RacketTree.Decimal.Shortest
import RacketTree.Json.Basic
import RacketTree.Number.Integer
import RacketTree.Text.Quoted
import RacketTree.Text.Utf16

/-!
# Writing JSON

Messages are written with a blank after each comma and colon and with every character but quotes,
backslashes and controls as it is. The text of a message is code points, since its strings are. The
S-expression form of a tree writes its texts in ASCII only.

A value that is nested more deeply than there is room for is not written, and neither is an integer
with more digits than are read.
-/

namespace RacketTree.Json

/-- The escape of a code point with a letter of its own. -/
def shortEscape? : Nat → Option Char
  | 0x22 => some '\x22'
  | 0x5C => some '\\'
  | 0x0A => some 'n'
  | 0x0D => some 'r'
  | 0x09 => some 't'
  | 0x08 => some 'b'
  | 0x0C => some 'f'
  | _ => none

/-- The escape of a code point in a string, unless it stands for itself, as `plain` says. -/
def escape? (plain : Nat → Bool) (code : Nat) : Option (List Char) :=
  match shortEscape? code with
  | some letter => some ['\\', letter]
  | none =>
    if plain code then none
    else some ((Text.codeUnits code).flatMap fun unit => '\\' :: 'u' :: Text.hexDigits 4 unit)

/-- The code point is ASCII and can be shown. -/
def isPlainAscii (code : Nat) : Bool :=
  0x20 ≤ code && code ≤ 0x7E

/-- A string in ASCII, between quotes. -/
def quoteAscii (text : List Char) : List Char :=
  '\x22' :: text.flatMap (fun c => (escape? isPlainAscii c.toNat).getD [c]) ++ ['\x22']

/-- A code point in a string in which only controls are escaped. -/
def escapeRaw (code : Nat) : List Nat :=
  match escape? (0x20 ≤ ·) code with
  | some escaped => escaped.map Char.toNat
  | none => [code]

/-- A string in which only controls are escaped, between quotes. -/
def quoteRaw (text : Codes) : List Nat :=
  0x22 :: text.points.flatMap escapeRaw ++ [0x22]

/-- The text of a floating-point number. -/
def floatText : Decimal.Binary64 → List Char
  | .infinite false => "Infinity".toList
  | .infinite true => "-Infinity".toList
  | .notANumber => "NaN".toList
  | x => x.text

/-- The code points of a word. -/
def word (text : List Char) : List Nat :=
  text.map Char.toNat

mutual

/-- The text of a value, in pieces from right to left before `rest`. -/
def write : Json → List Nat → List Nat
  | null, rest => word "null".toList ++ rest
  | bool true, rest => word "true".toList ++ rest
  | bool false, rest => word "false".toList ++ rest
  | int n, rest => word (toString n).toList ++ rest
  | float x, rest => word (floatText x) ++ rest
  | str text, rest => quoteRaw text ++ rest
  | arr items, rest => 0x5B :: writeItems items (0x5D :: rest)
  | obj fields, rest => 0x7B :: writeFields fields (0x7D :: rest)

/-- The texts of items with commas between. -/
def writeItems : List Json → List Nat → List Nat
  | [], rest => rest
  | [item], rest => write item rest
  | item :: items, rest => write item (0x2C :: 0x20 :: writeItems items rest)

/-- The texts of fields with commas between. -/
def writeFields : Fields → List Nat → List Nat
  | [], rest => rest
  | [(name, value)], rest => quoteRaw name ++ 0x3A :: 0x20 :: write value rest
  | (name, value) :: fields, rest =>
    quoteRaw name ++ 0x3A :: 0x20 :: write value (0x2C :: 0x20 :: writeFields fields rest)

end

/-- The text of a value. -/
def render (j : Json) : Codes :=
  ⟨j.write []⟩

/-! ## Values that are not written -/

/-- Why a value is not written. -/
inductive WriteError where
  /-- Arrays and objects are nested more deeply than there is room for. -/
  | tooDeep
  /-- An integer has more than `Number.maxDigits` digits. -/
  | tooManyDigits
  deriving DecidableEq, Repr

/-- An integer of more digits than are written; the sign does not count. -/
def isLong (n : Int) : Bool :=
  Number.maxDigits < (Nat.toDigits 10 n.natAbs).length

mutual

/-- Why a value is not written, if it is not: of two reasons the first one in its text. The first
argument bounds the nesting of arrays and objects. -/
def writeError? : Nat → Json → Option WriteError
  | _, int n => if isLong n then some .tooManyDigits else none
  | 0, arr _ => some .tooDeep
  | 0, obj _ => some .tooDeep
  | room + 1, arr items => itemsError? room items
  | room + 1, obj fields => fieldsError? room fields
  | _, _ => none

/-- Why one of several values is not written. -/
def itemsError? (room : Nat) : List Json → Option WriteError
  | [] => none
  | item :: items => (writeError? room item).or (itemsError? room items)

/-- Why one of several fields is not written. -/
def fieldsError? (room : Nat) : Fields → Option WriteError
  | [] => none
  | (_, value) :: fields => (writeError? room value).or (fieldsError? room fields)

end

end RacketTree.Json

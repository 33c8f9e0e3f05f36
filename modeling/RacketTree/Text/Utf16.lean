/-!
# UTF-16 code units

A character outside the basic plane takes two code units, a surrogate pair; every other takes one.
-/

namespace RacketTree.Text

/-- The number of UTF-16 code units of a character. -/
def units16 (c : Char) : Nat :=
  if c.toNat > 0xFFFF then 2 else 1

/-- The number of UTF-16 code units of a text. -/
def length16 : List Char → Nat
  | [] => 0
  | c :: rest => units16 c + length16 rest

/-- The code units of one code point. -/
def codeUnits (code : Nat) : List Nat :=
  if code > 0xFFFF then [0xD800 + (code - 0x10000) / 0x400, 0xDC00 + (code - 0x10000) % 0x400]
  else [code]

end RacketTree.Text

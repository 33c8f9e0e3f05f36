import RacketTree.Text.Printable

/-!
# Quoted texts

The form in which outlines and messages show a text: between single quotes, or between double quotes
if the text has a single quote and no double quote. The quote itself, the backslash and characters
that cannot be shown are escaped. Texts are code points, because a decoded string may hold a lone
surrogate.
-/

namespace RacketTree.Text

/-- The lower-case hexadecimal digits of a number, padded with zeros to a width. -/
def hexDigits (width n : Nat) : List Char :=
  let digits := Nat.toDigits 16 n
  List.replicate (width - digits.length) '0' ++ digits

namespace Quoted

/-- The quotation mark for a text. -/
def mark (codes : List Nat) : Char :=
  if codes.contains 0x27 && !codes.contains 0x22 then '\x22' else '\x27'

/-- One code point inside a quoted text. -/
def escape (quote : Char) (code : Nat) : List Char :=
  if code = quote.toNat || code = 0x5C then ['\\', Char.ofNat code]
  else if code = 0x0A then ['\\', 'n']
  else if code = 0x0D then ['\\', 'r']
  else if code = 0x09 then ['\\', 't']
  else if isPrintable code then [Char.ofNat code]
  else if code < 0x100 then '\\' :: 'x' :: hexDigits 2 code
  else if code < 0x10000 then '\\' :: 'u' :: hexDigits 4 code
  else '\\' :: 'U' :: hexDigits 8 code

/-- The quoted form of a list of code points. -/
def ofCodes (codes : List Nat) : List Char :=
  let quote := mark codes
  quote :: codes.flatMap (escape quote) ++ [quote]

end Quoted

/-- The quoted form of a text. -/
def quoted (text : List Char) : String :=
  String.ofList (Quoted.ofCodes (text.map Char.toNat))

end RacketTree.Text

import RacketTree.Text.Utf8

/-!
# Percent encoding

A byte is written `%` and two hexadecimal digits. Encoding keeps ASCII letters, digits and `_.-~/`
and writes capitals. Decoding works on each run of ASCII characters by itself: its bytes, plain and
escaped, are read as UTF-8 with U+FFFD for malformed stretches. A `%` without two hexadecimal digits
stands for itself.
-/

namespace RacketTree.Text.Percent

/-- A character that is never escaped. -/
def isPlain (c : Char) : Bool :=
  c.isAlphanum || c == '_' || c == '.' || c == '-' || c == '~' || c == '/'

/-- The capital hexadecimal digit of a number below sixteen. -/
def hexDigit (n : Nat) : Char :=
  if n < 10 then Char.ofNat (0x30 + n) else Char.ofNat (0x37 + n)

/-- The escape of a byte. -/
def escape (b : UInt8) : List Char :=
  ['%', hexDigit (b.toNat / 16), hexDigit (b.toNat % 16)]

/-- The percent-encoded form of a text. -/
def encode (text : List Char) : List Char :=
  text.flatMap fun c => if isPlain c then [c] else (Utf8.encodeChar c).flatMap escape

/-- The value of a hexadecimal digit of either case. -/
def hexValue? (c : Char) : Option Nat :=
  if '0' ≤ c && c ≤ '9' then some (c.toNat - 0x30)
  else if 'a' ≤ c && c ≤ 'f' then some (c.toNat - 0x57)
  else if 'A' ≤ c && c ≤ 'F' then some (c.toNat - 0x37)
  else none

/-- The byte of two hexadecimal digits. -/
def byte? (high low : Char) : Option UInt8 := do
  let h ← hexValue? high
  let l ← hexValue? low
  return (16 * h + l).toUInt8

/-- Decoding, where `run` holds the bytes of the current ASCII run backwards. -/
def decodeFrom (run : List UInt8) : List Char → List Char
  | [] => Utf8.decodeReplacing run.reverse
  | c :: rest =>
    if c = '%' then
      match rest with
      | high :: low :: rest' =>
        match byte? high low with
        | some b => decodeFrom (b :: run) rest'
        | none => decodeFrom (0x25 :: run) (high :: low :: rest')
      | [d] => decodeFrom (0x25 :: run) [d]
      | [] => decodeFrom (0x25 :: run) []
    else if c.toNat < 0x80 then decodeFrom (c.toNat.toUInt8 :: run) rest
    else Utf8.decodeReplacing run.reverse ++ c :: decodeFrom [] rest

/-- The text of a percent-encoded form. -/
def decode (text : List Char) : List Char :=
  decodeFrom [] text

end RacketTree.Text.Percent

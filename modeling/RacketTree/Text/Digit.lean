/-!
# Digits of escapes

The ASCII hexadecimal and octal digits of character escapes, and the numbers they stand for.
-/

namespace RacketTree.Text

/-- An ASCII hexadecimal digit of either case. -/
def isHexDigit (c : Char) : Bool :=
  ('0' ≤ c && c ≤ '9') || ('a' ≤ c && c ≤ 'f') || ('A' ≤ c && c ≤ 'F')

/-- An ASCII octal digit. -/
def isOctalDigit (c : Char) : Bool :=
  '0' ≤ c && c ≤ '7'

/-- The value of an ASCII digit or letter. -/
def digitValue (c : Char) : Nat :=
  if c ≤ '9' then c.toNat - 0x30
  else if c ≤ 'F' then c.toNat - 0x37
  else c.toNat - 0x57

/-- The number that digits stand for. -/
def ofDigits (radix : Nat) (digits : List Char) : Nat :=
  digits.foldl (fun n c => n * radix + digitValue c) 0

end RacketTree.Text

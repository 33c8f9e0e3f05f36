import RacketTree.Decimal.Binary64

/-!
# Reading decimals

A decimal is a sign, digits with at most one point among them, and an exponent after `e`. It is read
as the nearest floating-point number.
-/

namespace RacketTree.Decimal

/-- An ASCII digit. -/
def isDigit (c : Char) : Bool :=
  '0' ≤ c && c ≤ '9'

/-- The number that ASCII digits stand for. -/
def ofDigitChars (digits : List Char) : Nat :=
  digits.foldl (fun n c => n * 10 + (c.toNat - 48)) 0

/-- Whether a sign is negative, and what follows it. -/
def splitSign : List Char → Bool × List Char
  | '-' :: rest => (true, rest)
  | '+' :: rest => (false, rest)
  | rest => (false, rest)

/-- The exponent that a text stands for, zero if there is none. -/
def exponent? : List Char → Option Int
  | [] => some 0
  | mark :: rest =>
    let (negative, digits) := splitSign rest
    if (mark == 'e' || mark == 'E') && !digits.isEmpty && digits.all isDigit then
      let n : Int := ofDigitChars digits
      some (if negative then -n else n)
    else none

/-- Reads an unsigned decimal. -/
def readUnsigned? (negative : Bool) (text : List Char) : Option Binary64 :=
  let whole := text.takeWhile isDigit
  let rest := text.dropWhile isDigit
  let (fraction, rest) := match rest with
    | '.' :: rest => (rest.takeWhile isDigit, rest.dropWhile isDigit)
    | rest => ([], rest)
  if whole.isEmpty && fraction.isEmpty then none
  else (exponent? rest).map fun e =>
    Binary64.ofDecimal negative (ofDigitChars (whole ++ fraction)) (e - fraction.length)

/-- Reads a decimal. -/
def read? (text : List Char) : Option Binary64 :=
  let (negative, rest) := splitSign text
  readUnsigned? negative rest

end RacketTree.Decimal

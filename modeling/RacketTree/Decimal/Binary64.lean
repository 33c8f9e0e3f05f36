/-!
# Binary floating-point numbers of 64 bits

A finite number is a sign, a mantissa below 2^53 and an exponent of two. `ofDecimal` rounds a
decimal of any size to the nearest such number, a tie going to the even mantissa.
-/

namespace RacketTree.Decimal

/-- A floating-point number; a finite one is `± mantissa * 2 ^ exponent`. -/
inductive Binary64 where
  | finite (negative : Bool) (mantissa : Nat) (exponent : Int)
  | infinite (negative : Bool)
  | notANumber
  deriving DecidableEq, Repr

/-- A power of two. -/
def twoTo (n : Nat) : Nat :=
  Nat.pow 2 n

/-- A power of ten. -/
def tenTo (n : Nat) : Nat :=
  Nat.pow 10 n

/-- The quotient rounded to the nearest integer, a tie going to the even one. -/
def roundDiv (num den : Nat) : Nat :=
  let q := num / den
  let twice := 2 * (num % den)
  if twice < den || (twice == den && q % 2 == 0) then q else q + 1

/-- The greatest `k` with `2 ^ k ≤ num / den`, for positive `num` and `den`. -/
def floorLog2 (num den : Nat) : Int :=
  let k : Int := (Nat.log2 num : Int) - Nat.log2 den
  let reached := if 0 ≤ k then den * twoTo k.toNat ≤ num else den ≤ num * twoTo (-k).toNat
  if reached then k else k - 1

namespace Binary64

/-- The least exponent of a finite number. -/
def minExponent : Int := -1074

/-- The greatest exponent of a finite number. -/
def maxExponent : Int := 971

/-- The finite number nearest to a positive quotient, or an infinity. -/
def ofQuotient (negative : Bool) (num den : Nat) : Binary64 :=
  let e := max (floorLog2 num den - 52) minExponent
  let m := if 0 ≤ e then roundDiv num (den * twoTo e.toNat)
    else roundDiv (num * twoTo (-e).toNat) den
  let (m, e) := if m = twoTo 53 then (twoTo 52, e + 1) else (m, e)
  if e > maxExponent then .infinite negative else .finite negative m e

/-- The number of decimal digits of a number, at least one. -/
def decimalLength (n : Nat) : Nat :=
  (Nat.toDigits 10 n).length

/-- The floating-point number nearest to `± digits * 10 ^ exponent`. -/
def ofDecimal (negative : Bool) (digits : Nat) (exponent : Int) : Binary64 :=
  let magnitude := exponent + decimalLength digits
  if digits = 0 || magnitude < -330 then .finite negative 0 minExponent
  else if magnitude > 310 then .infinite negative
  else if 0 ≤ exponent then ofQuotient negative (digits * tenTo exponent.toNat) 1
  else ofQuotient negative digits (tenTo (-exponent).toNat)

/-- The encoding in 64 bits. -/
def bits : Binary64 → Nat
  | .finite negative m e =>
    let magnitude := if m < twoTo 52 then m else (e + 1074).toNat * twoTo 52 + m
    (if negative then twoTo 63 else 0) + magnitude
  | .infinite negative => (if negative then twoTo 63 else 0) + 0x7FF * twoTo 52
  | .notANumber => 0x7FF8 * twoTo 48

/-- The number equals an integer. -/
def eqInt : Binary64 → Int → Bool
  | .finite negative m e, n =>
    let signed : Int := if negative then -(m : Int) else m
    if 0 ≤ e then signed * twoTo e.toNat == n else signed == n * twoTo (-e).toNat
  | _, _ => false

/-- The greatest integer that is not above a finite number. -/
def floor (negative : Bool) (m : Nat) (e : Int) : Int :=
  let signed : Int := if negative then -(m : Int) else m
  if 0 ≤ e then signed * twoTo e.toNat else signed.fdiv (twoTo (-e).toNat)

/-- The least integer that is not below a finite number. -/
def ceil (negative : Bool) (m : Nat) (e : Int) : Int :=
  -floor (!negative) m e

/-- The number is above an integer. -/
def gtInt : Binary64 → Int → Bool
  | .finite negative m e, n => n < ceil negative m e
  | .infinite negative, _ => !negative
  | .notANumber, _ => false

/-- The number is at least an integer. -/
def geInt : Binary64 → Int → Bool
  | .finite negative m e, n => n ≤ floor negative m e
  | .infinite negative, _ => !negative
  | .notANumber, _ => false

/-- The number is below an integer. -/
def ltInt : Binary64 → Int → Bool
  | .finite negative m e, n => floor negative m e < n
  | .infinite negative, _ => negative
  | .notANumber, _ => false

/-- The sum with a natural number, rounded and then cut to an integer, for a positive number. -/
def floorAdd (n m : Nat) (e : Int) : Int :=
  let sum := if 0 ≤ e then ofQuotient false (n + m * twoTo e.toNat) 1
    else ofQuotient false (n * twoTo (-e).toNat + m) (twoTo (-e).toNat)
  match sum with
  | .finite negative m e => floor negative m e
  | _ => 0

/-- Numeric equality: both zeros are equal. -/
def numEq : Binary64 → Binary64 → Bool
  | .finite s m e, .finite s' m' e' => (m == 0 && m' == 0) || (s == s' && m == m' && e == e')
  | .infinite s, .infinite s' => s == s'
  | _, _ => false

end Binary64

end RacketTree.Decimal

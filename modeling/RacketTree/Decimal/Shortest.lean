import RacketTree.Decimal.Binary64

/-!
# Shortest decimal texts

The text of a floating-point number has the fewest significant digits that read back as the number;
of two such decimals the nearer one. It is positional if the decimal point falls at most sixteen
digits after the first significant one and at most three zeros before it, and has an exponent of at
least two digits otherwise.
-/

namespace RacketTree.Decimal

/-- A positive decimal: significant digits, and the power of ten that the point before the first
digit stands at, so that the value is `0.digits * 10 ^ point`. -/
structure Digits where
  digits : List Char
  point : Int
  deriving DecidableEq, Repr

/-- The positive quotient `num / den` and the ends of the interval of numbers that round to it, over
the same denominator; the ends belong to the interval if `closed`. -/
structure Target where
  num : Nat
  low : Nat
  high : Nat
  den : Nat
  closed : Bool

namespace Target

/-- The target of a positive finite number. -/
def ofFinite (m : Nat) (e : Int) : Target :=
  -- Four times the mantissa, so that both half steps are integers.
  let below := if m = twoTo 52 && e > Binary64.minExponent then 1 else 2
  let scale := if 0 ≤ e then twoTo e.toNat else 1
  let den := if 0 ≤ e then 4 else 4 * twoTo (-e).toNat
  { num := 4 * m * scale, low := (4 * m - below) * scale, high := (4 * m + 2) * scale, den,
    closed := m % 2 == 0 }

/-- The decimal `digit * 10 ^ exponent` lies in the interval. -/
def contains (t : Target) (digit : Nat) (exponent : Int) : Bool :=
  let (x, s) := if 0 ≤ exponent then (digit * tenTo exponent.toNat * t.den, 1)
    else (digit * t.den, tenTo (-exponent).toNat)
  if t.closed then t.low * s ≤ x && x ≤ t.high * s else t.low * s < x && x < t.high * s

/-- The greatest multiple of `10 ^ exponent` that is not above the number, and whether the next
multiple is nearer. -/
def floor (t : Target) (exponent : Int) : Nat × Bool :=
  let (n, d) := if 0 ≤ exponent then (t.num, t.den * tenTo exponent.toNat)
    else (t.num * tenTo (-exponent).toNat, t.den)
  let q := n / d
  let twice := 2 * (n % d)
  (q, twice > d || (twice == d && q % 2 == 1))

/-- The decimal on the grid of `10 ^ exponent` that reads back as the number, if there is one. -/
def onGrid? (t : Target) (exponent : Int) : Option Nat :=
  let (q, nextNearer) := t.floor exponent
  match t.contains q exponent, t.contains (q + 1) exponent with
  | true, true => some (if nextNearer then q + 1 else q)
  | true, false => some q
  | false, true => some (q + 1)
  | false, false => none

/-- Searches grids of more and more digits; `point` is where the point of the number stands. -/
def search (t : Target) (point : Int) : Nat → Nat → Nat × Int
  | count, 0 => ((t.floor (point - count)).1, point - count)
  | count, fuel + 1 =>
    match t.onGrid? (point - count) with
    | some digits => (digits, point - count)
    | none => search t point (count + 1) fuel

/-- The least `k` with `num / den < 10 ^ k`, found from an estimate that is never too great. -/
def pointFrom (t : Target) : Int → Nat → Int
  | k, 0 => k
  | k, fuel + 1 =>
    let below := if 0 ≤ k then t.num < t.den * tenTo k.toNat else t.num * tenTo (-k).toNat < t.den
    if below then k else pointFrom t (k + 1) fuel

end Target

/-- The digits without zeros at the end. -/
def trimZeros (digits : List Char) : List Char :=
  (digits.reverse.dropWhile (· == '0')).reverse

/-- The shortest digits of the positive number `m * 2 ^ e`. -/
def shortest (m : Nat) (e : Int) : Digits :=
  let t := Target.ofFinite m e
  let estimate := (floorLog2 t.num t.den) * 301 / 1000 - 1
  let point := t.pointFrom estimate 8
  let (digits, exponent) := t.search point 1 17
  let chars := Nat.toDigits 10 digits
  { digits := trimZeros chars, point := exponent + chars.length }

/-- The text of a positive decimal. -/
def Digits.text (d : Digits) : List Char :=
  let count := d.digits.length
  if -4 < d.point && d.point ≤ 16 then
    if d.point ≤ 0 then '0' :: '.' :: List.replicate (-d.point).toNat '0' ++ d.digits
    else if count ≤ d.point.toNat then
      d.digits ++ List.replicate (d.point.toNat - count) '0' ++ ['.', '0']
    else d.digits.take d.point.toNat ++ '.' :: d.digits.drop d.point.toNat
  else
    let exponent := d.point - 1
    let magnitude := Nat.toDigits 10 exponent.natAbs
    let fraction := if count ≤ 1 then [] else '.' :: d.digits.drop 1
    d.digits.take 1 ++ fraction ++ 'e' :: (if exponent < 0 then '-' else '+') ::
      (List.replicate (2 - magnitude.length) '0' ++ magnitude)

/-- The text of a floating-point number. -/
def Binary64.text : Binary64 → List Char
  | .finite negative m e =>
    let sign := if negative then ['-'] else []
    if m = 0 then sign ++ ['0', '.', '0'] else sign ++ (shortest m e).text
  | .infinite negative => (if negative then ['-'] else []) ++ ['i', 'n', 'f']
  | .notANumber => ['n', 'a', 'n']

end RacketTree.Decimal

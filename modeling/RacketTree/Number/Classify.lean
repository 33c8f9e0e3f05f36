import RacketTree.Number.Grammar

/-!
# Number literals

A number literal is up to two marks, one for the radix and one for exactness, in either order, and a
body that the grammar of the radix accepts. `classify?` says which texts are numbers and of what
kind. Nothing is computed here.
-/

namespace RacketTree.Number

/-- The shape of a number. -/
inductive Category where
  | integer
  | rational
  | decimal
  | complex
  deriving DecidableEq, Repr

namespace Category

/-- The name of a category. -/
def name : Category → String
  | integer => "integer"
  | rational => "rational"
  | decimal => "decimal"
  | complex => "complex"

end Category

/-- What is known of a number literal without computing it. -/
structure Info where
  radix : Radix
  exact : Bool
  category : Category
  deriving DecidableEq, Repr

/-- The marks before a number body. -/
structure Marks where
  radix? : Option Radix
  exactness? : Option Bool
  deriving DecidableEq, Repr

namespace Marks

/-- No marks. -/
def none : Marks := ⟨.none, .none⟩

/-- The radix marked, ten by default. -/
def radix (m : Marks) : Radix :=
  m.radix?.getD .decimal

/-- The marks with one more, unless it is unknown or repeats an earlier one. -/
def add? (m : Marks) (mark : Char) : Option Marks :=
  match Radix.ofMark? mark, m.radix? with
  | some r, .none => some { m with radix? := some r }
  | _, _ =>
    if (mark == 'e' || mark == 'i') && m.exactness?.isNone then
      some { m with exactness? := some (mark == 'e') }
    else .none

end Marks

/-- Splits marks off a text, after the marks in `m`. -/
def splitMarksFrom (m : Marks) : List Char → Option (Marks × List Char)
  | '#' :: c :: rest =>
    match m.add? (Text.lower c) with
    | some m' => splitMarksFrom m' rest
    | none => none
  | ['#'] => none
  | body => some (m, body)

/-- Splits a text into its marks and its body, unless a mark is unknown or repeated. -/
def splitMarks? (text : List Char) : Option (Marks × List Char) :=
  splitMarksFrom Marks.none text

/-- The three letters occur one after the other, in either case. -/
def hasWord (a b c : Char) : List Char → Bool
  | x :: y :: z :: rest =>
    (Text.foldsTo a x && Text.foldsTo b y && Text.foldsTo c z) || hasWord a b c (y :: z :: rest)
  | _ => false

/-- The body names an infinity or a not-a-number. -/
def hasSpecial (body : List Char) : Bool :=
  hasWord 'i' 'n' 'f' body || hasWord 'n' 'a' 'n' body

/-- The body has a part that is inexact by itself: a point, a `#` or a special value. -/
def hasInexactPart (body : List Char) : Bool :=
  body.any (fun c => c == '.' || c == '#') || hasSpecial body

/-- The body has a letter that marks an exponent. -/
def hasExponent (r : Radix) (body : List Char) : Bool :=
  body.any fun c => r.exponentMarks.contains (Text.lower c)

/-- The category of a body that the grammar accepts. -/
def categorize (r : Radix) (body : List Char) : Category :=
  if body.getLast?.map Text.lower == some 'i' || body.contains '@' then .complex
  else if body.contains '/' then .rational
  else if hasInexactPart body || hasExponent r body then .decimal
  else .integer

/-- The body is exact if no mark says otherwise. -/
def isExactBody (r : Radix) (body : List Char) : Bool :=
  let category := categorize r body
  !(hasInexactPart body ||
    ((category == .decimal || category == .complex) && hasExponent r body))

/-- Classifies a text, if it is a number. An exact infinity or not-a-number does not exist. -/
def classify? (text : List Char) : Option Info :=
  match splitMarks? text with
  | none => none
  | some (marks, body) =>
    let r := marks.radix
    if (Grammar.body r).accepts body then
      match marks.exactness? with
      | none => some ⟨r, isExactBody r body, categorize r body⟩
      | some exact =>
        if exact && hasSpecial body then none else some ⟨r, exact, categorize r body⟩
    else none

/-- The text is a number literal. -/
def isNumber (text : List Char) : Bool :=
  (classify? text).isSome

end RacketTree.Number

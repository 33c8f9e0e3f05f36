/-!
# Texts as code points

A message or a decoded literal can hold half of a surrogate pair, which is no character. `Codes` is
a text of code points of either kind. Such a text can be kept, compared and cut, but a half cannot
be written to a stream.

* `chars` is the text as the reader sees it: a private-use character stands in for each half. It is
  no blank, letter or digit and counts as one UTF-16 code unit, as the half does.
* `text?` is the text if it has no halves.
-/

namespace RacketTree

/-- A text as code points, among which halves of surrogate pairs may stand. -/
structure Codes where
  points : List Nat
  deriving DecidableEq, Repr, Inhabited

namespace Codes

/-- Half of a surrogate pair. -/
def isHalf (code : Nat) : Bool :=
  0xD800 ≤ code && code < 0xE000

/-- The code points of characters. -/
def ofChars (text : List Char) : Codes :=
  ⟨text.map Char.toNat⟩

/-- The code points of a text. -/
def ofString (text : String) : Codes :=
  ofChars text.toList

instance : Coe String Codes :=
  ⟨ofString⟩

instance : Append Codes :=
  ⟨fun a b => ⟨a.points ++ b.points⟩⟩

/-- There is no code point. -/
def isEmpty (t : Codes) : Bool :=
  t.points.isEmpty

/-- Some code point is half of a surrogate pair. -/
def hasHalves (t : Codes) : Bool :=
  t.points.any isHalf

/-- The character that the reader sees for a code point. -/
def standIn (code : Nat) : Char :=
  Char.ofNat (if isHalf code then code + 0x800 else code)

/-- The text as the reader sees it. -/
def chars (t : Codes) : List Char :=
  t.points.map standIn

/-- The text, unless it has halves. -/
def text? (t : Codes) : Option String :=
  if t.hasHalves then none else some (String.ofList t.chars)

/-- The code points from one offset up to another. -/
def slice (t : Codes) (start stop : Nat) : Codes :=
  ⟨(t.points.take stop).drop start⟩

/-- The text with `inserted` in place of the code points from one offset up to another. -/
def splice (t : Codes) (start stop : Nat) (inserted : Codes) : Codes :=
  ⟨t.points.take start ++ inserted.points ++ t.points.drop stop⟩

/-- Changes each run of characters between halves; the halves stay. The first argument holds the
current run backwards. -/
def mapRunsFrom (f : List Char → List Char) (run : List Char) : List Nat → List Nat
  | [] => (f run.reverse).map Char.toNat
  | code :: rest =>
    if isHalf code then (f run.reverse).map Char.toNat ++ code :: mapRunsFrom f [] rest
    else mapRunsFrom f (Char.ofNat code :: run) rest

/-- Changes each run of characters between halves; the halves stay. -/
def mapRuns (f : List Char → List Char) (t : Codes) : Codes :=
  ⟨mapRunsFrom f [] t.points⟩

/-! ## Characters -/

@[simp]
theorem length_chars (t : Codes) : t.chars.length = t.points.length := by
  simp [chars]

theorem isHalf_toNat (c : Char) : isHalf c.toNat = false := by
  have h := c.valid
  simp only [UInt32.isValidChar, Nat.isValidChar] at h
  simp only [isHalf, Bool.and_eq_false_imp, decide_eq_true_eq, decide_eq_false_iff_not]
  intro h1 h2
  have h3 : c.val.toNat = c.toNat := rfl
  omega

/-- The reader sees the characters of a text without halves as they are. -/
@[simp]
theorem chars_ofChars (text : List Char) : (ofChars text).chars = text := by
  simp [chars, ofChars, standIn, isHalf_toNat, Function.comp_def]

@[simp]
theorem text?_ofString (text : String) : (ofString text).text? = some text := by
  have h : (ofChars text.toList).hasHalves = false := by
    simp [hasHalves, ofChars, isHalf_toNat]
  simp [text?, ofString, h]

end Codes

end RacketTree

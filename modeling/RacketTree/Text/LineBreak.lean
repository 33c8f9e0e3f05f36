import RacketTree.Text.Slice

/-!
# Line breaks

Two ways to cut a text into lines. Source positions know the newline only. Text that is padded or
printed line by line is cut at every Unicode line boundary, and an empty last line is not counted.
-/

namespace RacketTree.Text

/-- A line boundary; a carriage return before a newline is one boundary with it. -/
def isLineBreak (c : Char) : Bool :=
  let code := c.toNat
  (0x0A ≤ code && code ≤ 0x0D) || (0x1C ≤ code && code ≤ 0x1E) || code == 0x85 ||
    code == 0x2028 || code == 0x2029

/-- Cuts at line boundaries, where `line` holds the current line backwards. -/
def breakLinesFrom (line : List Char) : List Char → List (List Char)
  | [] => if line.isEmpty then [] else [line.reverse]
  | '\r' :: '\n' :: rest => line.reverse :: breakLinesFrom [] rest
  | c :: rest =>
    if isLineBreak c then line.reverse :: breakLinesFrom [] rest
    else breakLinesFrom (c :: line) rest

/-- The lines of a text, cut at every line boundary and without the boundaries. -/
def breakLines (text : List Char) : List (List Char) :=
  breakLinesFrom [] text

/-- Every carriage return, alone or before a newline, read as a newline. -/
def normalizeNewlines : List Char → List Char
  | [] => []
  | '\r' :: '\n' :: rest => '\n' :: normalizeNewlines rest
  | c :: rest => (if c = '\r' then '\n' else c) :: normalizeNewlines rest

/-! ## Lines of one width -/

/-- Cuts a line to `width` characters, or pads it with spaces. A negative width takes that many
characters off the end. -/
def fitLine (width : Int) (line : List Char) : List Char :=
  let kept := slice line 0 width
  kept ++ List.replicate (width.toNat - kept.length) ' '

/-- Why lines cannot have a width. -/
inductive WidthError where
  /-- The width is no signed number of 64 bits. -/
  | outOfRange
  /-- No memory holds lines of this width. -/
  | outOfMemory
  deriving DecidableEq, Repr

/-- The least width for which there is no memory. -/
def maxWidth : Nat := 0x40000000

/-- The least number that is not a signed number of 64 bits. -/
def rangeBound : Nat := 0x8000000000000000

/-- Why lines cannot have a width, if they cannot. -/
def widthError? (width : Int) : Option WidthError :=
  if width < -(rangeBound : Int) || (rangeBound : Int) ≤ width then some .outOfRange
  else if maxWidth ≤ width then some .outOfMemory
  else none

/-- Fits every line of a text to a width. A text without lines fits any width. -/
def fitLines (text : List Char) (width : Int) : Except WidthError (List Char) :=
  match breakLines text, widthError? width with
  | [], _ => .ok []
  | _ :: _, some e => .error e
  | lines, none => .ok (lines.flatMap fun line => fitLine width line ++ ['\n'])

end RacketTree.Text

import RacketTree.Text.Slice
import RacketTree.Text.Utf16
import RacketTree.Text.Utf8

/-!
# Lines and positions

Offsets count characters. A line index maps them to points (row and column, from zero), to UTF-8
byte offsets and to UTF-16 columns, and cuts ranges at the ends of lines. Only a newline ends a
line; a carriage return before it belongs to the line.

Offsets, rows and columns that come from outside are integers. Offsets and columns are cut to the
text; a negative row counts from the last line where a single line is asked for.
-/

namespace RacketTree

/-- A row and a column, from zero. -/
structure Point where
  row : Nat
  column : Nat
  deriving DecidableEq, Repr

/-- The columns from `start` up to `stop` of one row. -/
structure LineRange where
  row : Nat
  start : Nat
  stop : Nat
  deriving DecidableEq, Repr

/-- A text and the offsets at which its lines start. -/
structure Lines where
  text : List Char
  starts : List Nat
  deriving DecidableEq, Repr

namespace Lines

/-- The offsets after newlines in a text that starts at `offset`. -/
def startsAfter (offset : Nat) : List Char → List Nat
  | [] => []
  | c :: rest =>
    if c = '\n' then (offset + 1) :: startsAfter (offset + 1) rest
    else startsAfter (offset + 1) rest

/-- The line index of a text. -/
def ofText (text : List Char) : Lines :=
  { text, starts := 0 :: startsAfter 0 text }

variable (l : Lines)

/-- The number of lines. -/
def count : Nat :=
  l.starts.length

/-- The greatest row. -/
def maxRow : Nat :=
  l.count - 1

/-- Every character is ASCII, so that characters, bytes and code units agree. -/
def isAscii : Bool :=
  l.text.all (·.toNat < 0x80)

/-- The offset at which a row starts. -/
def startOf (row : Nat) : Nat :=
  l.starts.getD row 0

/-- The text of a row without its newline, if there is such a row. -/
def line? (row : Int) : Option (List Char) := do
  let start ← Text.atIndex? l.starts row
  let stop : Int ←
    if row + 1 < l.count then (Text.atIndex? l.starts (row + 1)).map fun next => (next : Int) - 1
    else some l.text.length
  return Text.slice l.text start stop

/-- The number of characters of a row. -/
def lengthOf (row : Nat) : Nat :=
  ((l.line? row).map List.length).getD 0

/-! ## Points -/

/-- The point of an offset. -/
def position (offset : Int) : Point :=
  let o := min offset.toNat l.text.length
  let row := l.starts.countP (· ≤ o) - 1
  ⟨row, o - l.startOf row⟩

/-- The offset of a row and column. -/
def offset (row column : Int) : Nat :=
  if row < 0 then 0
  else if l.count ≤ row then l.text.length
  else l.startOf row.toNat + min column.toNat (l.lengthOf row.toNat)

/-! ## Bytes -/

/-- The number of UTF-8 bytes before an offset. -/
def byteOffset (offset : Int) : Int :=
  if l.isAscii then offset else (Text.Utf8.encode (Text.slice l.text 0 offset)).length

/-- The number of whole characters before a byte offset. -/
def ofByteOffset (offset : Int) : Int :=
  if l.isAscii then offset
  else (Text.Utf8.decodeSkipping (Text.slice (Text.Utf8.encode l.text) 0 offset)).length

/-! ## UTF-16 -/

/-- The row of an offset and its column in UTF-16 code units. -/
def position16 (offset : Int) : Point :=
  let p := l.position offset
  if l.isAscii then p
  else ⟨p.row, Text.length16 ((l.text.drop (l.startOf p.row)).take p.column)⟩

/-- The number of characters before a column in code units, where `units` lie before the line. -/
def column16 (units : Nat) (character : Int) : List Char → Nat
  | [] => 0
  | c :: rest =>
    if character ≤ units then 0 else 1 + column16 (units + Text.units16 c) character rest

/-- The offset of a row and a column in UTF-16 code units, if there is such a row. -/
def offset16? (row character : Int) : Option Nat :=
  if l.count ≤ row then some l.text.length
  else if l.isAscii then some (l.offset row character)
  else do
    let line ← l.line? row
    let start ← Text.atIndex? l.starts row
    return start + column16 0 character line

/-! ## Ranges -/

/-- The range from one offset to another, cut at the ends of lines. -/
def splitRange (start stop : Int) : List LineRange :=
  let first := l.position start
  let last := l.position stop
  if first.row = last.row then [⟨first.row, first.column, last.column⟩]
  else
    ⟨first.row, first.column, l.lengthOf first.row⟩ ::
      (List.range' (first.row + 1) (last.row - (first.row + 1))).map
        (fun row => ⟨row, 0, l.lengthOf row⟩) ++
      [⟨last.row, 0, last.column⟩]

/-- Several ranges, each cut at the ends of lines. -/
def splitRanges (ranges : List (Int × Int)) : List LineRange :=
  ranges.flatMap fun range => l.splitRange range.1 range.2

/-- The rows that ranges touch, each once and in the order in which they are met. -/
def rowsOf (ranges : List (Int × Int)) : List Nat :=
  ((l.splitRanges ranges).map LineRange.row).foldl
    (fun rows row => if rows.contains row then rows else rows ++ [row]) []

end Lines

/-- The integers from `first` to `last`. -/
def intRange (first last : Int) : List Int :=
  (List.range (last + 1 - first).toNat).map fun (i : Nat) => first + i

/-- Rows with `context` rows on either side, between zero and `maxRow`. A row is added only if it is
greater than every row before it. -/
def contextRows (rows : List Int) (context maxRow : Int) : List Int :=
  rows.foldl
    (fun shown row =>
      (intRange (max 0 (row - context)) (min (row + context) maxRow)).foldl
        (fun shown i =>
          match shown.getLast? with
          | some last => if last < i then shown ++ [i] else shown
          | none => [i])
        shown)
    []

end RacketTree

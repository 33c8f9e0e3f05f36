import RacketTree.Json.Basic
import RacketTree.Text.Blank

/-!
# Items in place of a text

A client may give an array where the text of a document belongs. The reader then takes each item for
a character. It gets through blanks, closing delimiters, strings, escaped or barred symbols, a last
`#` and datum comments around them, and fails at everything else: at an item that is no text, at a
plain symbol, at an opening delimiter or a quoting mark.

* `hasErrors?` tells whether the reader gets through, and whether it meets an error on its way.
-/

namespace RacketTree.Items

/-- What an item is to the reader. -/
inductive Cell where
  | blank
  | close
  /-- A double quote. -/
  | quote
  | backslash
  | bar
  | hash
  | semicolon
  | comma
  /-- An opening delimiter or a quoting mark: both end a symbol. -/
  | mark
  /-- An empty text. -/
  | nothing
  /-- Both quoting marks in one text. -/
  | bothMarks
  /-- Any other text. -/
  | plain
  /-- No text. -/
  | alien
  deriving DecidableEq, Repr

/-- What a text is to the reader. -/
def Cell.ofText (text : Codes) : Cell :=
  let is (names : List String) : Bool := names.any fun name => text == Codes.ofString name
  if text.isEmpty then .nothing
  else if text.points.all fun code => Text.isBlank (Codes.standIn code) then .blank
  else if is [")", "]", "\x7d"] then .close
  else if is ["\""] then .quote
  else if is ["\\"] then .backslash
  else if is ["|"] then .bar
  else if is ["#"] then .hash
  else if is [";"] then .semicolon
  else if is [","] then .comma
  else if is ["(", "[", "\x7b", "'", "\x60"] then .mark
  else if is ["'\x60"] then .bothMarks
  else .plain

/-- What an item is to the reader. -/
def Cell.ofItem : Json → Cell
  | .str text => .ofText text
  | _ => .alien

/-- Where the reader stands. -/
inductive Mode where
  /-- Between two tokens. -/
  | between
  | string
  /-- Behind a backslash in a string. -/
  | stringEscape
  /-- In a symbol; only one that has an escape or bars in it can be read. -/
  | symbol (escaped : Bool)
  | symbolEscape
  /-- Between bars in a symbol. -/
  | bars
  /-- Behind a backslash between bars. -/
  | barsEscape
  /-- Behind a `#`. -/
  | hash
  /-- Behind `#|`. -/
  | comment
  deriving DecidableEq, Repr

/-- The state of the reader: where it stands, how many datum comments wait for their datum, and
whether it has met an error. -/
structure State where
  mode : Mode
  pending : Nat
  hasError : Bool
  deriving DecidableEq, Repr

/-- What becomes of the reader at an item. -/
inductive Step where
  | next (s : State)
  /-- The rest of the items belongs to an error. -/
  | rest
  | failure
  deriving DecidableEq, Repr

namespace State

/-- A token begins with a cell. -/
def begin (maxDepth : Nat) (s : State) : Cell → Step
  | .blank => .next { s with mode := .between }
  | .close => .next ⟨.between, 0, true⟩
  | .quote => .next { s with mode := .string }
  | .hash => .next { s with mode := .hash }
  | .backslash => .next { s with mode := .symbolEscape }
  | .bar => .next { s with mode := .bars }
  | .plain => .next { s with mode := .symbol false }
  | .mark | .nothing | .bothMarks => if maxDepth ≤ s.pending then .rest else .failure
  | .semicolon | .comma | .alien => .failure

/-- An atom has ended. It is the datum of the innermost datum comment, if one waits. -/
def endAtom (s : State) : State :=
  { s with mode := .between, pending := s.pending - 1 }

/-- Takes one cell in. -/
def step (maxDepth : Nat) (s : State) (cell : Cell) : Step :=
  match s.mode, cell with
  | .between, cell => s.begin maxDepth cell
  | .string, .quote => .next s.endAtom
  | .string, .backslash => .next { s with mode := .stringEscape }
  | .string, _ => .next s
  | .stringEscape, _ => .next { s with mode := .string }
  | .symbol _, .backslash => .next { s with mode := .symbolEscape }
  | .symbol _, .bar => .next { s with mode := .bars }
  | .symbol _, .alien => .failure
  | .symbol _, .plain | .symbol _, .hash | .symbol _, .nothing | .symbol _, .bothMarks => .next s
  | .symbol escaped, cell => if escaped then s.endAtom.begin maxDepth cell else .failure
  | .symbolEscape, _ => .next { s with mode := .symbol true }
  | .bars, .bar => .next { s with mode := .symbol true }
  | .bars, .backslash | .barsEscape, .backslash => .next { s with mode := .barsEscape }
  | .bars, _ | .barsEscape, _ => .next { s with mode := .bars }
  | .hash, .bar => .next { s with mode := .comment }
  | .hash, .semicolon =>
    if maxDepth ≤ s.pending then .rest
    else .next { s with mode := .between, pending := s.pending + 1 }
  | .hash, .nothing => s.endAtom.begin maxDepth .nothing
  | .hash, _ => .failure
  | .comment, _ => .failure

/-- The items have ended: whether there is an error, unless the reader fails. -/
def finish (s : State) : Option Bool :=
  match s.mode with
  | .between => some (s.hasError || 0 < s.pending)
  | .symbol escaped => if escaped then some (s.hasError || 1 < s.pending) else none
  | .hash => some (s.hasError || 1 < s.pending)
  | _ => some true

/-- Takes cells in. -/
def run (maxDepth : Nat) (s : State) : List Cell → Option Bool
  | [] => s.finish
  | cell :: cells =>
    match s.step maxDepth cell with
    | .next s => s.run maxDepth cells
    | .rest => some true
    | .failure => none

end State

/-- Whether there is an error in the items, unless the reader fails. -/
def hasErrors? (maxDepth : Nat) (items : List Json) : Option Bool :=
  State.run maxDepth ⟨.between, 0, false⟩ (items.map Cell.ofItem)

end RacketTree.Items

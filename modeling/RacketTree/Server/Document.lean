import RacketTree.Server.Folding
import RacketTree.Server.Items
import RacketTree.Server.Payload
import RacketTree.Server.Position
import RacketTree.Server.Symbols
import RacketTree.Tree.Diagnostic
import RacketTree.Tree.Edit

/-!
# Open documents

A document is a text that a client has open, with its tree. Positions of the client are rows and
UTF-16 columns. A client may also give items in place of a text; such a document has no lines, so
that nothing can be said of places in it.
-/

namespace RacketTree

/-! ## Texts -/

/-- A text that is open, with its tree. -/
structure OpenText where
  text : Codes
  arena : Arena
  tree : Tree

namespace OpenText

/-- Reads a text. -/
def read (config : Config) (text : Codes) : OpenText :=
  let (arena, tree) := parse config text.chars
  { text, arena, tree }

/-- The text with `inserted` in place of the range between two offsets in either order. -/
def replace (t : OpenText) (start stop : Nat) (inserted : Codes) : Except EditError OpenText := do
  let first := min start stop
  let last := max start stop
  let (arena, tree) ← t.tree.replace t.arena first last inserted.chars
  return { text := t.text.splice first last inserted, arena, tree }

/-- The range between two offsets. -/
def rangeOf (lines : Lines) (span : Nat × Nat) : Json :=
  let start := lines.position16 span.1
  let stop := lines.position16 span.2
  Payload.ofPoints (start.row, start.column) (stop.row, stop.column)

/-- The diagnostics of a text, one for each outermost error. -/
def diagnostics (t : OpenText) : List Json :=
  let lines := t.tree.lines
  (t.tree.errors t.arena).map fun n =>
    Payload.diagnostic (rangeOf lines n.diagnosticSpan) (.str (n.diagnosticMessage t.tree.source))
      Payload.severityError Payload.diagnosticSource
      ((n.fault.map fun f => Json.str f.name).getD .null)

/-- The node that a hover at an offset describes: the nearest around it that is no punctuation and
not the whole text. -/
def hoveredNode? (t : OpenText) (offset : Nat) : Option Node :=
  if t.tree.source.length ≤ offset then none
  else
    let path := t.tree.pathTo t.arena offset
    let found := (path.dropLast.dropWhile (·.kind.isPunctuation)).head?.or path.getLast?
    found.filter (·.kind != .source)

/-- The hover text at an offset. -/
def hover (t : OpenText) (offset : Nat) : Json :=
  match t.hoveredNode? offset with
  | some n =>
    Payload.hover (.str (n.describe t.tree.source)) (rangeOf t.tree.lines (n.start, n.stop))
  | none => .null

mutual

/-- A symbol with its positions. -/
def symbolJson (text : Codes) (lines : Lines) : Symbol → Json
  | ⟨_, kind, range, selection, detail, children⟩ =>
    Payload.documentSymbol (.str (text.slice selection.1 selection.2)) (.nat kind.code)
      (rangeOf lines range) (rangeOf lines selection)
      ((detail.map fun d => Json.str (.ofChars d)).getD .null)
      (.arr (symbolJsons text lines children))

/-- Several symbols with their positions. -/
def symbolJsons (text : Codes) (lines : Lines) : List Symbol → List Json
  | [] => []
  | s :: rest => symbolJson text lines s :: symbolJsons text lines rest

end

/-- The symbols of a text. -/
def symbols (t : OpenText) : List Json :=
  symbolJsons t.text t.tree.lines (Symbol.ofTree t.tree t.arena)

end OpenText

/-- A fold as a folding range. -/
def Fold.toJson (f : Fold) : Json :=
  Payload.foldingRange (.nat f.startRow) (.nat f.endRow)
    (if f.isComment then .str "comment" else .null)

/-- The folding ranges of a text. -/
def OpenText.foldingRanges (t : OpenText) : List Json :=
  (Fold.ofTree t.tree t.arena).map Fold.toJson

/-! ## Contents -/

/-- What a document holds. -/
inductive Content where
  | text (t : OpenText)
  /-- A value in place of a text, and whether there is an error in it. -/
  | value (j : Json) (config : Config) (hasErrors : Bool)

namespace Content

/-- Reads what a client gives as the text of a document: a text, items in place of characters, or an
object without fields. -/
def read? (config : Config) : Json → Option Content
  | .str given => some (.text (.read config given))
  | .arr items =>
    (Items.hasErrors? config.maxDepth items).map fun hasErrors =>
      .value (.arr items) config hasErrors
  | .obj [] => some (.value (.obj []) config false)
  | _ => none

/-- The content as the client gave it. -/
def toJson : Content → Json
  | text t => .str t.text
  | value j _ _ => j

/-- The options that the content was read with. -/
def config : Content → Config
  | text t => t.tree.config
  | value _ config _ => config

/-- The text, if the content is one. -/
def text? : Content → Option OpenText
  | text t => some t
  | value .. => none

/-- The diagnostics of the content. Errors in a value have no place, so that none can be given. -/
def diagnostics? : Content → Option (List Json)
  | text t => some t.diagnostics
  | value _ _ hasErrors => if hasErrors then none else some []

/-- The symbols of the content. -/
def symbols : Content → List Json
  | text t => t.symbols
  | value .. => []

end Content

/-- A document that a client has open. -/
structure Document where
  uri : Json
  languageId : Json
  version : Json
  content : Content

end RacketTree

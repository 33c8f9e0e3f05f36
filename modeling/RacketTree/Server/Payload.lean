import RacketTree.Json.Basic

/-!
# Payloads

The structures of the language server protocol that the server sends. Fields that are optional are
left out when they have nothing to say.
-/

namespace RacketTree.Payload

/-- A field that is left out when its value is null. -/
def unlessNull (name : Codes) : Json → Json.Fields
  | .null => []
  | value => [(name, value)]

/-- A position, from zero. -/
def position (line character : Json) : Json :=
  .obj [("line", line), ("character", character)]

/-- A range between two positions. -/
def range (startLine startCharacter endLine endCharacter : Json) : Json :=
  .obj [("start", position startLine startCharacter), ("end", position endLine endCharacter)]

/-- The severity of errors. -/
def severityError : Json := .int 1

/-- The source that diagnostics name. -/
def diagnosticSource : Json := .str "racket-cst"

/-- A diagnostic. -/
def diagnostic (range message severity source code : Json) : Json :=
  let base : Json.Fields :=
    [("range", range), ("message", message), ("severity", severity), ("source", source)]
  .obj (base ++ unlessNull "code" code)

/-- A symbol; no children are the same as none. -/
def documentSymbol (name kind range selectionRange detail children : Json) : Json :=
  let base : Json.Fields :=
    [("name", name), ("kind", kind), ("range", range), ("selectionRange", selectionRange)]
  let inner : Json.Fields := if children.isEmpty then [] else [("children", children)]
  .obj (base ++ unlessNull "detail" detail ++ inner)

/-- A range of lines that can be folded. -/
def foldingRange (startLine endLine kind : Json) : Json :=
  let base : Json.Fields := [("startLine", startLine), ("endLine", endLine)]
  .obj (base ++ unlessNull "kind" kind)

/-- A hover text in Markdown. -/
def hover (contents range : Json) : Json :=
  let base : Json.Fields := [("contents", .obj [("kind", .str "markdown"), ("value", contents)])]
  .obj (base ++ unlessNull "range" range)

/-- The range between two points. -/
def ofPoints (start stop : Nat × Nat) : Json :=
  range (.nat start.1) (.nat start.2) (.nat stop.1) (.nat stop.2)

end RacketTree.Payload

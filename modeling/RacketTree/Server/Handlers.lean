import RacketTree.Server.State

/-!
# Handlers

What the server does on each request and notification. Parameters of the wrong type make a handler
fail; what it logged, sent or changed before stays.
-/

namespace RacketTree.Server

/-- A step of a handler. -/
abbrev Handler (α : Type) := Rpc.Action Server α

namespace Handler

/-- Fails because of a parameter of the wrong type. -/
def unexpected {α : Type} (what : String) : Handler α :=
  throw (.internal ("unexpected " ++ what))

/-- The fields of an object. -/
def object (what : String) : Json → Handler Json.Fields
  | .obj fields => pure fields
  | _ => unexpected what

/-- The value of a name in an object, or a default. -/
def get (what : String) (j : Json) (name : Codes) (absent : Json) : Handler Json := do
  let fields ← object what j
  return (Json.field? fields name).getD absent

/-- A text. -/
def text (what : String) : Json → Handler Codes
  | .str text => pure text
  | _ => unexpected what

/-- A value that can be a key of a table. -/
def key (uri : Json) : Handler Unit :=
  if uri.toValue.isKey then pure () else unexpected "uri"

/-- Writes a line to the log. -/
def logLine (text : Codes) : Handler Unit :=
  modify (note text)

/-- What a client gives as the text of a document. -/
def content (config : Config) (value : Json) : Handler Content :=
  match Content.read? config value with
  | some content => pure content
  | none => unexpected "text"

/-- The place of a position in a text. -/
def placeAt (t : OpenText) (position : Json) : Handler Place := do
  let line ← get "position" position "line" (.int 0)
  let character ← get "position" position "character" (.int 0)
  match t.tree.lines.place? line character with
  | some place => pure place
  | none => unexpected "position"

/-- The offset of a position in a text. -/
def offsetAt (t : OpenText) (position : Json) : Handler Nat := do
  match ← placeAt t position with
  | .exact offset => pure offset
  | .within _ => unexpected "character"

/-- The text of a document. -/
def textOf (d : Document) : Handler OpenText :=
  match d.content.text? with
  | some t => pure t
  | none => unexpected "content"

/-- Sends the diagnostics of a URI. -/
def publish (uri : Json) (diagnostics : List Json) : Handler Unit :=
  Rpc.sendMessage send (Rpc.notificationMessage "textDocument/publishDiagnostics"
    (some (.obj [("uri", uri), ("diagnostics", .arr diagnostics)])))

/-- Sends the diagnostics of a document. -/
def validate (d : Document) : Handler Unit :=
  match d.content.diagnostics? with
  | some diagnostics => publish d.uri diagnostics
  | none => unexpected "content"

/-- The description of the document that parameters are about. -/
def textDocument (params : Json) : Handler Json :=
  get "parameters" params "textDocument" (.obj [])

/-- The URI of a document's description. -/
def uriOf (description : Json) : Handler Json :=
  get "textDocument" description "uri" (.str "")

/-- The open document that parameters are about. -/
def requested? (params : Json) : Handler (Option Document) := do
  let uri ← uriOf (← textDocument params)
  key uri
  return (← getThe Server).document? uri

end Handler

open Handler

/-! ## Lifecycle -/

/-- What the server can do. -/
def capabilities : Json :=
  .obj [
    ("capabilities", .obj [
      ("textDocumentSync", .obj [
        ("openClose", .bool true), ("change", .int 2),
        ("save", .obj [("includeText", .bool true)])]),
      ("hoverProvider", .bool true),
      ("documentSymbolProvider", .bool true),
      ("foldingRangeProvider", .bool true)]),
    ("serverInfo", .obj [("name", .str "racket-cst-lsp"), ("version", .str "0.1.0")])]

/-- Takes the root of the workspace from its URI, or from its path if there is no URI. -/
def setRoot (params : Json) : Handler Unit := do
  let rootUri ← get "parameters" params "rootUri" .null
  modify fun s => { s with rootUri }
  if rootUri.isEmpty then
    let rootPath ← get "parameters" params "rootPath" .null
    modify fun s => { s with rootPath }
    if !rootPath.isEmpty then
      let path ← text "rootPath" rootPath
      if path.hasHalves then unexpected "rootPath"
      else
        modify fun s => { s with rootUri := .str (.ofChars (Uri.ofPath s.files.cwd path.chars)) }
  else
    let uri ← text "rootUri" rootUri
    modify fun s => { s with rootPath := .str (Uri.pathOf uri) }

/-- The options that hold at a path. Nothing stands at a path with half of a surrogate pair. -/
def configAt (files : Files) (path : Codes) : Except LoadError Config :=
  if path.hasHalves then .error (.noPath path) else Config.load files (some path.chars)

/-- Loads the options of the workspace. Options that cannot be read are ignored. -/
def loadConfig : Handler Unit := do
  let s ← getThe Server
  if !s.rootPath.isEmpty then
    let path ← text "rootPath" s.rootPath
    match configAt s.files path with
    | .ok config =>
      modify fun s => { s with config }
      match config.path with
      | some path => if !path.isEmpty then logLine ("Reader config: " ++ path)
      | none => pure ()
    | .error e =>
      if e.isExpected then
        logLine ("Ignoring reader config: " ++ e.text)
        modify fun s => { s with config := Config.default }
      else throw (.internal "unexpected option")

/-- Answers `initialize`. -/
def onInitialize (params : Json) : Handler Json := do
  logLine "Received initialize request"
  setRoot params
  logLine ("Workspace root: " ++ (← getThe Server).rootPath.inText)
  loadConfig
  return capabilities

/-- Takes `initialized`. -/
def onInitialized (_ : Json) : Handler Unit := do
  logLine "Server initialized"
  modify fun s => { s with initialized := true }

/-- Answers `shutdown`. -/
def onShutdown (_ : Json) : Handler Json := do
  logLine "Shutdown requested"
  modify fun s => { s with shutdownRequested := true }
  return .null

/-- Takes `exit`: the status is zero if the client asked for a shutdown before. -/
def onExit (_ : Json) : Handler Unit := do
  logLine "Exit notification received"
  throw (.exit (if (← getThe Server).shutdownRequested then 0 else 1))

/-! ## Documents -/

/-- Takes `textDocument/didOpen`. -/
def onOpen (params : Json) : Handler Unit := do
  let description ← textDocument params
  let uri ← uriOf description
  logLine ("Document opened: " ++ uri.inText)
  let languageId ← get "textDocument" description "languageId" (.str "racket")
  let version ← get "textDocument" description "version" (.int 0)
  let given ← get "textDocument" description "text" (.str "")
  let content ← content (← getThe Server).config given
  key uri
  let d : Document := { uri, languageId, version, content }
  modify (put d)
  validate d

/-- The document after one change: a new text, or a text in place of a range. -/
def applyChange (d : Document) (change : Json) : Handler Document := do
  let inserted ← get "change" change "text" (.str "")
  match ← get "change" change "range" .null with
  | .null => return { d with content := ← content d.content.config inserted }
  | range =>
    let fields ← object "range" range
    match Json.field? fields "start", Json.field? fields "end" with
    | some first, some last =>
      let t ← textOf d
      let start ← offsetAt t first
      let stop ← offsetAt t last
      match t.replace start stop (← text "text" inserted) with
      | .ok t => return { d with content := .text t }
      | .error e => throw (.internal e.message)
    | _, _ => unexpected "range"

/-- Applies changes in order, each to the result of the one before. -/
def applyChanges (d : Document) : List Json → Handler Document
  | [] => pure d
  | change :: rest => do
    let d ← applyChange d change
    modify (put d)
    applyChanges d rest

/-- The changes of a notification. An empty value of any type that has items is no changes. -/
def changesOf : Json → Handler (List Json)
  | .arr changes => pure changes
  | .str s => if s.isEmpty then pure [] else unexpected "change"
  | .obj fields => if fields.isEmpty then pure [] else unexpected "change"
  | _ => unexpected "contentChanges"

/-- Takes `textDocument/didChange`. -/
def onChange (params : Json) : Handler Unit := do
  let description ← textDocument params
  let uri ← uriOf description
  key uri
  match (← getThe Server).document? uri with
  | none => logLine ("Warning: didChange for unknown document: " ++ uri.inText)
  | some d =>
    let changes ← changesOf (← get "parameters" params "contentChanges" (.arr []))
    let d ← applyChanges d changes
    let version ← get "textDocument" description "version" d.version
    let d := { d with version }
    modify (put d)
    validate d

/-- Takes `textDocument/didClose`. -/
def onClose (params : Json) : Handler Unit := do
  let uri ← uriOf (← textDocument params)
  logLine ("Document closed: " ++ uri.inText)
  key uri
  modify (erase uri)
  publish uri []

/-- Takes `textDocument/didSave`. A saved text that differs from the open one replaces it. -/
def onSave (params : Json) : Handler Unit := do
  let uri ← uriOf (← textDocument params)
  let saved ← get "parameters" params "text" .null
  logLine ("Document saved: " ++ uri.inText)
  key uri
  match (← getThe Server).document? uri, saved with
  | none, _ => pure ()
  | some _, .null => pure ()
  | some d, saved =>
    if !saved.equal d.content.toJson then
      let d := { d with content := ← content (← getThe Server).config saved }
      modify (put d)
      validate d

/-! ## Features -/

/-- Answers `textDocument/hover`. -/
def onHover (params : Json) : Handler Json := do
  match ← requested? params with
  | none => return .null
  | some d =>
    match params.get? "position" with
    | none => throw (.error ⟨Rpc.Error.invalidParams, "hover needs a position", none⟩)
    | some position =>
      let t ← textOf d
      return t.hover (← placeAt t position).offset

/-- Answers `textDocument/documentSymbol`. -/
def onDocumentSymbol (params : Json) : Handler Json := do
  match ← requested? params with
  | none => return .arr []
  | some d => return .arr d.content.symbols

/-- Answers `textDocument/foldingRange`. -/
def onFoldingRange (params : Json) : Handler Json := do
  match ← requested? params with
  | none => return .arr []
  | some d => return .arr (← textOf d).foldingRanges

/-! ## The table -/

/-- The handlers of requests. -/
def request? : String → Option (Json → Handler Json)
  | "initialize" => some onInitialize
  | "shutdown" => some onShutdown
  | "textDocument/hover" => some onHover
  | "textDocument/documentSymbol" => some onDocumentSymbol
  | "textDocument/foldingRange" => some onFoldingRange
  | _ => none

/-- The handlers of notifications. -/
def notification? : String → Option (Json → Handler Unit)
  | "initialized" => some onInitialized
  | "exit" => some onExit
  | "textDocument/didOpen" => some onOpen
  | "textDocument/didChange" => some onChange
  | "textDocument/didClose" => some onClose
  | "textDocument/didSave" => some onSave
  | _ => none

/-- All handlers of the server. -/
def handlers : Rpc.Handlers Server :=
  { request?, notification?, report := fun method cause => modify (noteFailure method cause) }

/-- Handles one message. -/
def handle (s : Server) (fields : Json.Fields) :
    Except Rpc.Stop (Option Json) × Server :=
  Rpc.handle handlers fields s

/-- What the log says when the server starts. -/
def startText : String := "Racket CST Language Server starting"

/-- What the log says when the server stops. -/
def stopText : String := "Server stopped"

/-- Serves an input from its start to its end. -/
def run (limits : Rpc.Limits) (s : Server) (input : List UInt8) : Option Rpc.Stop × Server :=
  let (stop, s) := Rpc.serve limits handlers send input (s.note startText)
  (stop, s.note stopText)

/-- The paths of the roots that a message names. -/
def rootsIn (fields : Json.Fields) : List (List Char) :=
  let named (name : Codes) : List (List Char) :=
    match (Rpc.paramsOf fields).get? name with
    | some (.str text) => [text.chars]
    | _ => []
  (named "rootUri").map Uri.toPath ++ named "rootPath"

end RacketTree.Server

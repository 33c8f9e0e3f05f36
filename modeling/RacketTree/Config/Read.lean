import RacketTree.Datum.Convert

/-!
# Option files

Options are written as an association list of racket data,

    ((max-depth . 100) (strict-delimiters . #t) (infix-dots . #f))

where an entry may also be a list of two datums. The last entry for an option counts.
-/

namespace RacketTree

/-- Why options cannot be read. -/
inductive ConfigError where
  /-- The text has an error at the given row and column. -/
  | syntaxError (place : String) (row column : Nat)
  | severalForms (place : String)
  | datum (cause : DatumError)
  | notAList (place : String) (found : String)
  | badEntry (place : String) (entry : Value)
  | badKey (place : String) (key : Value)
  | unknownOption (place : String) (name : Codes)
  | notAnInteger (place : String) (found : String)
  | notABoolean (place option found : String)
  | depthNotInteger (found : Value)
  | depthNotPositive (found : Int)
  deriving Repr

namespace ConfigError

/-- The wording of an error. -/
def message : ConfigError → Codes
  | syntaxError place row column => "Failed to parse " ++ place ++ s!":{row + 1}:{column + 1}"
  | severalForms place => place ++ " must contain a single association list"
  | datum cause => cause.message
  | notAList place found => place ++ " must contain an association list, got " ++ found
  | badEntry place entry =>
    place ++ ": bad entry " ++ String.ofList entry.display ++ ", expected (key . value)"
  | badKey place key => place ++ ": keys must be symbols, got " ++ String.ofList key.display
  | unknownOption place name => Codes.ofString (place ++ ": unknown option ") ++ name
  | notAnInteger place found => place ++ ": max-depth must be an integer, got " ++ found
  | notABoolean place option found => place ++ ": " ++ option ++ " must be a boolean, got " ++ found
  | depthNotInteger found => "max-depth must be an integer, got " ++ String.ofList found.display
  | depthNotPositive found => s!"max-depth must be positive, got {found}"

end ConfigError

namespace Config

/-- Options with the given depth limit, which has to be positive. -/
def make (maxDepth : Int) (strictDelimiters infixDots : Bool) (path : Option String) :
    Except ConfigError Config :=
  if h : 0 < maxDepth.toNat then
    .ok { maxDepth := maxDepth.toNat, strictDelimiters, infixDots, path, maxDepth_pos := h }
  else .error (.depthNotPositive maxDepth)

/-- Options with a depth limit of any type. -/
def ofValues (maxDepth : Value) (strictDelimiters infixDots : Bool) (path : Option String) :
    Except ConfigError Config :=
  match maxDepth with
  | .int n => make n strictDelimiters infixDots path
  | v => .error (.depthNotInteger v)

/-- The options of a text, by name and in order of first mention. -/
abbrev Entries := List (Codes × Value)

/-- The entries with one set. -/
def setOption (entries : Entries) (name : Codes) (value : Value) : Entries :=
  if entries.any (·.1 == name) then
    entries.map fun e => if e.1 == name then (name, value) else e
  else entries ++ [(name, value)]

/-- The value of an option. -/
def option? (entries : Entries) (name : Codes) : Option Value :=
  (entries.find? (·.1 == name)).map (·.2)

/-- The options there are. -/
def optionNames : List String :=
  ["max-depth", "strict-delimiters", "infix-dots"]

/-- The least unknown option. -/
def unknownOption? (entries : Entries) : Option Codes :=
  let unknown := (entries.map (·.1)).filter fun name =>
    !optionNames.any fun known => Codes.ofString known == name
  unknown.foldl (fun least name =>
    match least with
    | some best => if name.points < best.points then some name else some best
    | none => some name) none

/-- Adds an entry of the association list. -/
def addEntry (place : String) (entries : Entries) (entry : Value) : Except ConfigError Entries :=
  match entry with
  | .tuple [key, value] | .list [key, value] =>
    match key with
    | .str name => .ok (setOption entries ⟨name⟩ value)
    | key => .error (.badKey place key)
  | entry => .error (.badEntry place entry)

/-- The value of an option that is a boolean. -/
def flag (place : String) (entries : Entries) (name : String) (absent : Bool) :
    Except ConfigError Bool :=
  match option? entries name with
  | none => .ok absent
  | some (.bool b) => .ok b
  | some v => .error (.notABoolean place name v.typeName)

/-- The options of checked entries. -/
def ofEntries (place : String) (path : Option String) (entries : Entries) :
    Except ConfigError Config := do
  if let some name := unknownOption? entries then
    throw (.unknownOption place name)
  let maxDepth ← match option? entries "max-depth" with
    | none => .ok (default.maxDepth : Int)
    | some (.int n) => .ok n
    | some v => .error (.notAnInteger place v.typeName)
  let strict ← flag place entries "strict-delimiters" false
  let infixDots ← flag place entries "infix-dots" true
  make maxDepth strict infixDots path

/-- Reads options from a text. -/
def ofText (text : List Char) (path : Option String) : Except ConfigError Config := do
  let place := match path with
    | some p => if p.isEmpty then "<config>" else p
    | none => "<config>"
  let (a, tree) := parse default text
  if let first :: _ := tree.errors a then
    let point := tree.lines.position first.start
    throw (.syntaxError place point.row point.column)
  match (tree.node a).datums with
  | [] => return { default with path }
  | [form] =>
    match ← (Value.ofNode text form).mapError .datum with
    | .list items =>
      let entries ← items.foldlM (addEntry place) []
      ofEntries place path entries
    | v => throw (.notAList place v.typeName)
  | _ => throw (.severalForms place)

end Config

end RacketTree

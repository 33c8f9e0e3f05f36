import RacketTree.Config.Read
import RacketTree.Files

/-!
# Finding option files

Options come from the nearest option file: the one in the directory of a file, or in the first
directory above it that has one.
-/

namespace RacketTree

/-- Why options cannot be loaded. -/
inductive LoadError where
  /-- The path to start from does not exist. -/
  | noPath (path : Codes)
  | file (cause : FileError)
  | encoding (cause : Text.Utf8.Malformed)
  | config (cause : ConfigError)
  deriving Repr

namespace LoadError

/-- The wording of an error. -/
def text : LoadError → Codes
  | noPath path => "Path does not exist: " ++ path
  | file cause => cause.message
  | encoding cause => cause.message
  | config cause => cause.message

/-- The error is about the files or the text, and not about a value that has no meaning: such a
value is a list or table as a key, or a number that is no code point. -/
def isExpected : LoadError → Bool
  | config (.datum .badKey) => false
  | config (.datum (.literal .codeTooLarge)) => false
  | _ => true

end LoadError

namespace Config

/-- The name of option files. -/
def fileName : List Char := ".racket-cst.rktd".toList

/-- The directory of a path and all directories above it, nearest first. The first argument bounds
their number. -/
def ancestors : Nat → List Char → List (List Char)
  | 0, path => [path]
  | fuel + 1, path =>
    let parent := Path.directory path
    if parent = path then [path] else path :: ancestors fuel parent

/-- The directory from which an option file is searched for: the current one, that of a file, or the
path itself. -/
def searchStart (fs : Files) : Option (List Char) → List Char
  | none => fs.cwd
  | some path =>
    let full := Path.absolute fs.cwd path
    if fs.isFile path then Path.directory full else full

/-- The places at which an option file is searched for, nearest first. -/
def candidates (start : List Char) : List (List Char) :=
  (ancestors start.length start).map fun directory => Path.join directory fileName

/-- The nearest option file. -/
def findFile? (fs : Files) (path : Option (List Char)) : Option (List Char) :=
  (candidates (searchStart fs path)).find? fs.isFile

/-- The paths at which something is looked for when the options at a path are loaded. -/
def trailOf (cwd path : List Char) : List (List Char) :=
  Files.trailOf cwd path ++ candidates (Path.absolute cwd path)

/-- Reads a given option file. -/
def ofFile (fs : Files) (path : List Char) : Except LoadError Config := do
  let bytes ← (fs.read path).mapError .file
  let text ← (fileText bytes).mapError .encoding
  (ofText text (some (String.ofList (Path.absolute fs.cwd path)))).mapError .config

/-- The options that hold at a path, or in the current directory. A path that names an option file
is that file. -/
def load (fs : Files) (path : Option (List Char)) : Except LoadError Config :=
  let near := match findFile? fs path with
    | some file => ofFile fs file
    | none => .ok default
  match path with
  | none => near
  | some p =>
    if !fs.isPresent p then .error (.noPath (.ofChars p))
    else if Path.name p = fileName then ofFile fs (Path.absolute fs.cwd p)
    else near

end Config

end RacketTree

import RacketTree.Path
import RacketTree.Text.LineBreak
import RacketTree.Text.Quoted
import RacketTree.Text.Utf8

/-!
# Files

A snapshot of the files that a command or server may look at, and the current directory. Looking a
path up follows its parts from directory to directory. Text files are UTF-8, and every end of line
in them is read as a newline.
-/

namespace RacketTree

/-- What stands at a path. -/
inductive Entry where
  | file (bytes : List UInt8)
  | directory
  deriving DecidableEq, Repr

/-- The result of looking a path up. -/
inductive Found where
  | file (bytes : List UInt8)
  | directory
  | absent
  /-- A part before the last is a file. -/
  | blocked
  /-- The path, or a part that is looked up, is longer than any name. -/
  | tooLong
  deriving DecidableEq, Repr

/-- Files and directories by absolute normal path, and the current directory. -/
structure Files where
  cwd : List Char
  entries : List (List Char × Entry)
  deriving DecidableEq, Repr

/-- Why a file cannot be opened. -/
inductive FileError where
  | absent (path : List Char)
  | notADirectory (path : List Char)
  | isDirectory (path : List Char)
  | nameTooLong (path : List Char)
  /-- No file can have this name. -/
  | unusableName
  deriving DecidableEq, Repr

namespace FileError

/-- The wording of an error. -/
def message : FileError → String
  | absent path => "[Errno 2] No such file or directory: " ++ Text.quoted path
  | notADirectory path => "[Errno 20] Not a directory: " ++ Text.quoted path
  | isDirectory path => "[Errno 21] Is a directory: " ++ Text.quoted path
  | nameTooLong path => "[Errno 36] File name too long: " ++ Text.quoted path
  | unusableName => "embedded null byte"

end FileError

namespace Files

/-- What stands at an absolute normal path. A directory need not be listed if something in it is. -/
def entry? (fs : Files) (path : List Char) : Option Entry :=
  match fs.entries.find? (·.1 == path) with
  | some e => some e.2
  | none =>
    let below := if path = ['/'] then path else path ++ ['/']
    if path = ['/'] || path = fs.cwd || below.isPrefixOf fs.cwd ||
        fs.entries.any (fun e => below.isPrefixOf e.1) then
      some .directory
    else none

/-- The greatest number of bytes of a part of a path. -/
def maxPartBytes : Nat := 255

/-- The greatest number of bytes of a path. -/
def maxPathBytes : Nat := 4095

/-- A text has more than some number of bytes. -/
def isLongerThan (bound : Nat) (text : List Char) : Bool :=
  bound < (Text.Utf8.encode text).length

/-- Follows the parts of a path from a directory, given by its parts. -/
def follow (fs : Files) (here : List (List Char)) : List (List Char) → Found
  | [] =>
    match fs.entry? ('/' :: Path.joinParts here) with
    | some (.file bytes) => .file bytes
    | some .directory => .directory
    | none => .absent
  | part :: rest =>
    match fs.entry? ('/' :: Path.joinParts here) with
    | none => .absent
    | some (.file _) => .blocked
    | some .directory =>
      if part = [] || part = ['.'] then fs.follow here rest
      else if part = Path.up then fs.follow here.dropLast rest
      else if isLongerThan maxPartBytes part then .tooLong
      else fs.follow (here ++ [part]) rest

/-- The paths at which something is looked for when the parts of a path are followed. -/
def trail (here : List Char) : List (List Char) → List (List Char)
  | [] => [here]
  | part :: rest => here :: trail (Path.normalize (Path.join here part)) rest

/-- The paths at which something is looked for when a path is looked up. -/
def trailOf (cwd path : List Char) : List (List Char) :=
  trail ['/'] (Path.parts (Path.join cwd path))

/-- Looks a path up. -/
def find (fs : Files) (path : List Char) : Found :=
  if path.isEmpty then .absent
  else if isLongerThan maxPathBytes path then .tooLong
  else fs.follow [] (Path.parts (Path.join fs.cwd path))

/-- Something stands at the path. -/
def isPresent (fs : Files) (path : List Char) : Bool :=
  match fs.find path with
  | .file _ | .directory => true
  | _ => false

/-- A file stands at the path. -/
def isFile (fs : Files) (path : List Char) : Bool :=
  match fs.find path with
  | .file _ => true
  | _ => false

/-- A path that can name a file: no character of it is the null character. -/
def isUsable (path : List Char) : Bool :=
  !path.contains '\x00'

/-- The bytes of a file. -/
def read (fs : Files) (path : List Char) : Except FileError (List UInt8) :=
  if !isUsable path then .error .unusableName
  else
    match fs.find path with
    | .file bytes => .ok bytes
    | .directory => .error (.isDirectory path)
    | .absent => .error (.absent path)
    | .blocked => .error (.notADirectory path)
    | .tooLong => .error (.nameTooLong path)

/-- Why a path cannot be written to, by what stands at it. -/
def foundError? (path : List Char) : Found → Option FileError
  | .file _ => none
  | .directory => some (.isDirectory path)
  | .absent => some (.absent path)
  | .blocked => some (.notADirectory path)
  | .tooLong => some (.nameTooLong path)

/-- Why `path` cannot be made, by what stands in the place of the directory that has it. -/
def placeError? (path : List Char) : Found → Option FileError
  | .directory => none
  | .file _ => some (.notADirectory path)
  | found => foundError? path found

/-- The path ends in a name with a slash behind it. -/
def namesDirectory (path : List Char) : Bool :=
  path.getLast? = some '/' &&
    match (Path.parts path).reverse.dropWhile List.isEmpty with
    | [] => false
    | part :: _ => part != ['.'] && part != Path.up

/-- The path without slashes at its end. -/
def dropSlashes (path : List Char) : List Char :=
  (path.reverse.dropWhile (· == '/')).reverse

/-- What stands in the place of the directory of a path. -/
def findDirectory (fs : Files) (path : List Char) : Found :=
  fs.find (Path.directory (Path.join fs.cwd path))

/-- Why a path cannot be written to: its directory has to exist, and it must not be one itself. A
slash behind the last name makes it one. -/
def writeError? (fs : Files) (path : List Char) : Option FileError :=
  if !isUsable path then some .unusableName
  else if isLongerThan maxPathBytes path then some (.nameTooLong path)
  else if namesDirectory path then
    (placeError? path (fs.findDirectory (dropSlashes path))).or (some (.isDirectory path))
  else
    match fs.find path with
    | .absent =>
      if path.isEmpty then some (.absent path) else placeError? path (fs.findDirectory path)
    | found => foundError? path found

end Files

namespace Text.Utf8

/-- A byte in hexadecimal. -/
def byteText (b : UInt8) : String :=
  "0x" ++ String.ofList (hexDigits 2 b.toNat)

/-- The wording for malformed bytes. -/
def Malformed.message (m : Malformed) : String :=
  let place := match m.bytes with
    | [b] => "byte " ++ byteText b ++ s!" in position {m.position}"
    | bytes => s!"bytes in position {m.position}-{m.position + bytes.length - 1}"
  "'utf-8' codec can't decode " ++ place ++ ": " ++ m.reason.message

end Text.Utf8

/-- The text of a file's bytes. -/
def fileText (bytes : List UInt8) : Except Text.Utf8.Malformed (List Char) :=
  (Text.Utf8.decode? bytes).map Text.normalizeNewlines

end RacketTree

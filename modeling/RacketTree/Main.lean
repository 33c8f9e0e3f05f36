import RacketTree.Command.Run

/-!
# The command

Looks at the files that a command needs, runs it on what was found, and prints. The language server
reads and answers one message after the other.
-/

namespace RacketTree.Main

/-- What stands at a path. -/
def entryAt (path : String) : IO (Option Entry) := do
  if ← ((← IO.currentDir) / path).isDir then return some .directory
  try
    let bytes ← IO.FS.readBinFile path
    return some (.file bytes.toList)
  catch _ => return none

/-- The files at some paths. -/
def filesAt (cwd : List Char) (paths : List (List Char)) : IO Files := do
  let entries ← paths.eraseDups.filterMapM fun path => do
    return (← entryAt (String.ofList path)).map fun entry => (path, entry)
  return { cwd, entries }

/-- The current directory. -/
def currentDirectory : IO (List Char) := do
  return (← IO.currentDir).toString.toList

/-- A text as it is printed: half of a surrogate pair is shown as an escape. -/
def shown (text : Codes) : String :=
  String.ofList (text.points.flatMap fun code =>
    if Codes.isHalf code then '\\' :: 'u' :: Text.hexDigits 4 code else [Char.ofNat code])

/-- Everything that can still be read. -/
partial def readAll (input : IO.FS.Stream) (seen : ByteArray) : IO ByteArray := do
  let bytes ← input.read 4096
  if bytes.isEmpty then return seen else readAll input (seen ++ bytes)

/-- Carries out a task. -/
def inspect (common : Command.Common) (task : Command.Task) (files : List (List Char)) :
    IO UInt32 := do
  let cwd ← currentDirectory
  let fs ← filesAt cwd (Command.trailOf cwd common files)
  let stdin ← if common.code.isNone && files.contains Command.standardInput then
      readAll (← IO.getStdin) ByteArray.empty
    else pure ByteArray.empty
  let output := Command.inspect fs common task files stdin.toList
  IO.print output.stdout
  match output.ending with
  | .status code =>
    IO.eprint (shown output.stderr)
    return code.toUInt32
  | .broken cause =>
    IO.eprintln (shown cause.text)
    return 1

/-! ## The language server -/

/-- Some bytes, fewer only at the end of the input. -/
partial def readBytes (input : IO.FS.Stream) (count : Nat) (seen : ByteArray) : IO ByteArray := do
  if count ≤ seen.size then return seen
  let bytes ← input.read (min (count - seen.size) 65536).toUSize
  if bytes.isEmpty then return seen else readBytes input count (seen ++ bytes)

/-- The bytes of the next line. -/
partial def readLine (input : IO.FS.Stream) (seen : ByteArray) : IO ByteArray := do
  let byte ← input.read 1
  if byte.isEmpty then return seen
  else if byte.toList = [0x0A] then return seen ++ byte
  else readLine input (seen ++ byte)

/-- The next frame, line by line up to its body. -/
partial def readFrame (room : Nat) (input : IO.FS.Stream) (seen : List UInt8) :
    IO Rpc.Frame.Outcome := do
  let line ← readLine input ByteArray.empty
  if line.isEmpty then return .finished
  let seen := seen ++ line.toList
  match Rpc.Frame.readHeaders none seen with
  | .finished => readFrame room input seen
  | .refused e _ => return .refused e []
  | .length n _ =>
    let body ← if !Rpc.Frame.isLength n then pure ByteArray.empty
      else if n < 0 then readAll input ByteArray.empty
      else readBytes input n.toNat ByteArray.empty
    return Rpc.Frame.read room (seen ++ body.toList)

/-- Prints what the server has logged and sent. -/
def flush (room : Nat) (log : Option IO.FS.Handle) (s : Server) : IO Server := do
  for entry in s.log do
    if let some handle := log then
      handle.putStrLn (shown entry.text)
      handle.flush
    IO.eprintln (Command.logMark ++ shown entry.text)
  let output ← IO.getStdout
  for message in s.sent do
    if let .ok bytes := Rpc.Frame.write room message then
      output.write ⟨bytes.toArray⟩
      output.flush
  return { s with log := [], sent := [] }

/-- The server with the files that a message makes it look at. -/
def withFiles (s : Server) (fields : Json.Fields) : IO Server := do
  let paths := (Server.rootsIn fields).flatMap (Config.trailOf s.files.cwd)
  if paths.isEmpty then return s
  return { s with files := ← filesAt s.files.cwd paths }

/-- Answers messages up to the end of the input. -/
partial def answerAll (limits : Rpc.Limits) (input : IO.FS.Stream) (log : Option IO.FS.Handle)
    (s : Server) : IO (Option Rpc.Stop × Server) := do
  let send (message : Json) (s : Server) : IO (Option Rpc.Stop × Server) := do
    match Rpc.Frame.unwritable? limits.writing message with
    | some cause => return (some (.unwritable cause), ← flush limits.writing log s)
    | none => answerAll limits input log (← flush limits.writing log (s.send message))
  match ← readFrame limits.reading input [] with
  | .finished => return (none, s)
  | .unreadable cause => return (some (.unreadable cause), s)
  | .refused e _ => send (Rpc.errorMessage .null e) s
  | .message fields _ =>
    match (← withFiles s fields).handle fields with
    | (.ok none, s) => answerAll limits input log (← flush limits.writing log s)
    | (.ok (some response), s) => send response s
    | (.error stop, s) => return (some stop, ← flush limits.writing log s)

/-- Runs the language server. -/
def serve (log : Option (List Char)) : IO UInt32 := do
  let cwd ← currentDirectory
  let file? := Command.logFile? log
  let fs ← filesAt cwd ((file?.toList).flatMap (Files.trailOf cwd))
  match Command.logError? fs log with
  | some e =>
    IO.eprintln (Command.logComplaint e)
    return 1
  | none =>
    let handle ← file?.mapM fun path => IO.FS.Handle.mk (String.ofList path) .write
    let limits := Rpc.Limits.usual
    let s ← flush limits.writing handle ((Server.start fs).note Server.startText)
    let (stop, s) ← answerAll limits (← IO.getStdin) handle s
    let _ ← flush limits.writing handle (s.note Server.stopText)
    return ((Command.serverStatus? stop).getD 1).toUInt32

end RacketTree.Main

open RacketTree in
def main (args : List String) : IO UInt32 := do
  match Command.Invocation.ofWords (args.map String.toList) with
  | .error .help =>
    IO.print Command.usage
    return 0
  | .error _ =>
    IO.eprint Command.usage
    return 2
  | .ok .nothing =>
    IO.print Command.usage
    return 2
  | .ok (.inspect common task files) => Main.inspect common task files
  | .ok (.serve log) => Main.serve log

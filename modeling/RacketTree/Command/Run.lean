import RacketTree.Command.View
import RacketTree.Config.Load
import RacketTree.Server.Handlers

/-!
# Running commands

A command goes through its inputs in turn. For each it reads the source, finds the options that hold
there, and prints what its task shows. The first input or option file that cannot be read ends it;
what was printed before stays.
-/

namespace RacketTree.Command

/-- How a command ends. -/
inductive Ending where
  | status (code : Nat)
  | broken (cause : Breakdown)
  deriving Repr

/-- What a command prints, and how it ends. -/
structure Output where
  stdout : String
  stderr : Codes
  ending : Ending
  deriving Repr

namespace Output

/-- Prints lines before everything else. -/
def prepend (lines : List String) (o : Output) : Output :=
  { o with stdout := String.join (lines.map (· ++ "\n")) ++ o.stdout }

/-- One line of complaint and a status. -/
def complaint (text : Codes) (code : Nat) : Output :=
  ⟨"", text ++ "\n", .status code⟩

/-- The end of a command that breaks down. -/
def ofBreakdown (cause : Breakdown) : Output :=
  ⟨"", "", .broken cause⟩

/-- The end of a command that cannot read something. -/
def ofLoadError (e : LoadError) : Output :=
  match e with
  | .file .unusableName | .config _ =>
    if e.isExpected then complaint ("Error in reader config: " ++ e.text) 1
    else ofBreakdown (.options e)
  | .encoding _ => complaint ("Error: input is not UTF-8: " ++ e.text) 1
  | .noPath _ | .file _ => complaint ("Error: " ++ e.text) 1

end Output

/-- The name of standard input among files. -/
def standardInput : List Char := ['-']

/-- The name under which code is reported. -/
def codeName : String := "<string>"

/-- The text of an input, and what is left of standard input. -/
def readSource (fs : Files) (stdin : List UInt8) (path : List Char) :
    Except LoadError (List Char × List UInt8) := do
  if path = standardInput then return (← (fileText stdin).mapError .encoding, [])
  let bytes ← (fs.read path).mapError .file
  return (← (fileText bytes).mapError .encoding, stdin)

/-- The options for an input: those of the given option file, or else those that hold where the
input stands. -/
def optionsFor (fs : Files) (common : Common) (path : Option (List Char)) :
    Except LoadError Config :=
  match common.config with
  | some (c :: file) => Config.ofFile fs (c :: file)
  | _ => Config.load fs (path.filter (· != standardInput))

/-- Goes through files in turn. `failed` says that an earlier one failed the task. -/
def inspectFiles (fs : Files) (common : Common) (task : Task) (failed : Bool) (stdin : List UInt8) :
    List (List Char) → Output
  | [] => ⟨"", "", .status (if failed then 1 else 0)⟩
  | path :: rest =>
    match readSource fs stdin path with
    | .error e => .ofLoadError e
    | .ok (source, stdin) =>
      match optionsFor fs common (some path) with
      | .error e => .ofLoadError e
      | .ok config =>
        match task.view config (String.ofList path) source with
        | .error e => .ofBreakdown e
        | .ok (lines, fails) =>
          (inspectFiles fs common task (failed || fails) stdin rest).prepend lines

/-- Goes through the code of the command line. -/
def inspectCode (fs : Files) (common : Common) (task : Task) (code : Code) : Output :=
  match optionsFor fs common none with
  | .error e => .ofLoadError e
  | .ok config =>
    match task.viewCode config codeName code with
    | .error e => .ofBreakdown e
    | .ok (lines, fails) => Output.prepend lines ⟨"", "", .status (if fails then 1 else 0)⟩

/-- Carries out a task. -/
def inspect (fs : Files) (common : Common) (task : Task) (files : List (List Char))
    (stdin : List UInt8) : Output :=
  match common.code, files with
  | some code, _ => inspectCode fs common task code
  | none, [] => .complaint ("Error: " ++ task.name ++ " needs a FILE or -c CODE") 2
  | none, files => inspectFiles fs common task false stdin files

/-- The paths at which something is looked for when a task is carried out. -/
def trailOf (cwd : List Char) (common : Common) (files : List (List Char)) : List (List Char) :=
  let given := (common.config.toList).flatMap (Files.trailOf cwd)
  given ++ Config.trailOf cwd cwd ++ files.flatMap (Config.trailOf cwd)

/-! ## The language server -/

/-- The file that the server logs to, if there is one. -/
def logFile? (log : Option (List Char)) : Option (List Char) :=
  log.filter (!·.isEmpty)

/-- Why the log cannot be written. -/
def logError? (fs : Files) (log : Option (List Char)) : Option FileError :=
  (logFile? log).bind fs.writeError?

/-- The complaint about a log that cannot be written. -/
def logComplaint (e : FileError) : String :=
  "Error starting LSP server: " ++ e.message

/-- What log lines on standard error start with. -/
def logMark : String := "[racket-cst-lsp] "

/-- The status of a server that stopped, unless a message broke it. -/
def serverStatus? : Option Rpc.Stop → Option Nat
  | none => some 0
  | some (.exit status) => some status
  | some _ => none

end RacketTree.Command

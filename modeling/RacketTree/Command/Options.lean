import RacketTree.Command.Switch
import RacketTree.Number.Integer

/-!
# Command lines

A command line names a task with its files, or starts the language server. Code given on the command
line takes the place of files; without a task it is shown as an outline.
-/

namespace RacketTree.Command

/-- What is done with each input. -/
inductive Task where
  /-- Show the tree, as an outline or as an S-expression. -/
  | parse (sexp : Bool)
  /-- List the tokens, with or without trivia. -/
  | tokens (noTrivia : Bool)
  /-- Report the errors with some lines around each; the number of lines may have been cleared.
  Inputs without errors are named if asked. -/
  | check (context : Option Int) (verbose : Bool)
  /-- Show the lines with the tokens in each, cut or padded to a width other than zero. -/
  | highlight (width : Int)
  deriving DecidableEq, Repr

/-- The name of a task. -/
def Task.name : Task → String
  | parse _ => "parse"
  | tokens _ => "tokens"
  | check .. => "check"
  | highlight _ => "highlight"

/-- Code given on the command line. -/
inductive Code where
  | text (text : List Char)
  /-- The code has been cleared: there is nothing to read, not even an empty text. -/
  | cleared
  deriving DecidableEq, Repr

/-- The options before the name of a task. -/
structure Common where
  code : Option Code
  config : Option (List Char)
  deriving DecidableEq, Repr

/-- What a command line asks for. -/
inductive Invocation where
  | inspect (common : Common) (task : Task) (files : List (List Char))
  | serve (log : Option (List Char))
  /-- Neither a task nor code is given. -/
  | nothing
  deriving DecidableEq, Repr

/-! ## Switches -/

/-- The switches that every command has. -/
def helpSwitches {σ : Type} : Switches σ :=
  [("-h".toList, .help), ("--help".toList, .help)]

/-- A value of any text. -/
def textEffect {σ : Type} (set : Option (List Char) → σ → σ) : Effect σ :=
  .value (fun text s => some (set (some text) s)) (set none)

/-- A value that is an integer. -/
def integerEffect {σ : Type} (set : Option Int → σ → σ) : Effect σ :=
  .value (fun text s => (Number.readInteger? .decimal text).map fun n => set (some n) s) (set none)

/-- The switches before the name of a task. -/
def commonSwitches : Switches Common :=
  let code : Effect Common := textEffect fun text c =>
    { c with code := some ((text.map Code.text).getD .cleared) }
  helpSwitches ++ [("-c".toList, code), ("--command".toList, code),
    ("--config".toList, textEffect fun config c => { c with config })]

/-- A check with this many lines around each error. -/
def Task.setContext (n : Option Int) : Task → Task
  | check _ verbose => check n verbose
  | task => task

/-- A check that also names inputs without errors. -/
def Task.setVerbose : Task → Task
  | check context _ => check context true
  | task => task

/-- The switches of a task. -/
def Task.switches : Task → Switches Task
  | parse _ => helpSwitches ++ [("--sexp".toList, .flag fun _ => parse true)]
  | tokens _ => helpSwitches ++ [("--no-trivia".toList, .flag fun _ => tokens true)]
  | check .. =>
    let context := integerEffect setContext
    helpSwitches ++ [("--context".toList, context), ("-C".toList, context),
      ("--verbose".toList, .flag setVerbose), ("-v".toList, .flag setVerbose)]
  | highlight _ =>
    let width : Effect Task := integerEffect fun n _ => highlight (n.getD 0)
    helpSwitches ++ [("--width".toList, width), ("-w".toList, width)]

/-- The switches of the language server. -/
def serveSwitches : Switches (Option (List Char)) :=
  helpSwitches ++ [("--log".toList, textEffect fun log _ => log)]

/-- What the command line may look like. -/
def usage : String :=
  "usage: racket-cst [-h] [-c CODE] [--config PATH] COMMAND ...\n\n" ++
  "commands:\n" ++
  "  parse [--sexp] [FILE ...]            Print the syntax tree\n" ++
  "  tokens [--no-trivia] [FILE ...]      Print the token stream\n" ++
  "  check [-C N] [-v] [FILE ...]         Report reader errors\n" ++
  "  highlight [-w N] [FILE ...]          Print each line with its token spans\n" ++
  "  lsp [--log FILE]                     Start the language server\n"

/-! ## Reading -/

/-- The task of a name, with the options that hold if nothing else is said. -/
def Task.ofName? : String → Option Task
  | "parse" => some (.parse false)
  | "tokens" => some (.tokens false)
  | "check" => some (.check (some 0) false)
  | "highlight" => some (.highlight 0)
  | _ => none

/-- The name of the task that starts the language server. -/
def serveName : String := "lsp"

/-- Reads the words of a command line. -/
def Invocation.ofWords (words : List (List Char)) : Except Refusal Invocation := do
  let top ← read commonSwitches .all words ⟨none, none⟩
  match top.operands with
  | [] =>
    if top.strays then .error .misuse
    else if top.options.code.isNone then .ok .nothing
    else .ok (.inspect top.options (.parse false) [])
  | name :: rest =>
    let name := String.ofList name
    if name == serveName then
      let server ← read serveSwitches .none rest none
      if top.strays || server.strays then .error .misuse else .ok (.serve server.options)
    else
      match Task.ofName? name with
      | none => .error .misuse
      | some task =>
        let reading ← read task.switches .run rest task
        if top.strays || reading.strays then .error .misuse
        else .ok (.inspect top.options reading.options reading.operands)

end RacketTree.Command

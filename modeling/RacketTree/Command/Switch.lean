import RacketTree.Text.DecimalDigit

/-!
# Switches

The words of a command line are plain words and switches. A switch is named by one dash and a letter
or by two dashes and a word, which may be cut short as long as only one name starts so. A value is
the next plain word, or is attached: after `=`, or right behind the letter. Two dashes attached to a
switch clear its value. What is attached to a letter without a value is more letters. Behind a word
of two dashes every word is plain.

* `classify` tells what a word is.
* `read` goes through the words of a command and gives its options and operands.
-/

namespace RacketTree.Command

/-- Why a command line is not carried out. -/
inductive Refusal where
  /-- A switch asks for help. -/
  | help
  | misuse
  deriving DecidableEq, Repr

/-- What a switch does to options of type `σ`. -/
inductive Effect (σ : Type) where
  | help
  | flag (set : σ → σ)
  /-- The switch has a value, which may be refused, or it clears the value. -/
  | value (set : List Char → σ → Option σ) (clear : σ → σ)

/-- The names of switches, dashes included, with their effects. -/
abbrev Switches (σ : Type) := List (List Char × Effect σ)

/-- What a word is. -/
inductive Word (σ : Type) where
  | plain
  /-- Two dashes: no word after them is a switch. -/
  | dashes
  /-- A switch that a letter names, with the rest of the word behind the letter. -/
  | letter (effect : Effect σ) (rest : List Char)
  /-- A switch that a word names, with the text behind an equals sign. -/
  | name (effect : Effect σ) (attached : Option (List Char))
  /-- A switch that is not known. -/
  | unknown

/-- Which plain words are operands. -/
inductive Operands where
  | none
  /-- The first plain words that stand together. -/
  | run
  /-- Those that stand together with the one before. -/
  | running
  /-- The first plain word and all words after it. -/
  | all
  deriving DecidableEq, Repr

/-- The options and operands of a command. -/
structure Reading (σ : Type) where
  options : σ
  operands : List (List Char)
  /-- Something is no operand, no value and no known switch. -/
  strays : Bool

variable {σ : Type}

/-- The effect of the switch with this name. -/
def effect? (table : Switches σ) (name : List Char) : Option (Effect σ) :=
  (table.find? (·.1 == name)).map (·.2)

/-! ## Words -/

/-- The text before the first equals sign, and the text behind it if there is one. -/
def splitAtEquals (word : List Char) : List Char × Option (List Char) :=
  (word.takeWhile (· != '='), (word.dropWhile (· != '=')).tail?)

/-- The effects of the switches whose name is, or else starts with, a text. -/
def effectsOf (table : Switches σ) (name : List Char) : List (Effect σ) :=
  match effect? table name with
  | some effect => [effect]
  | none => (table.filter fun entry => name.isPrefixOf entry.1).map (·.2)

/-- Some digits and nothing else. -/
def areDigits (text : List Char) : Bool :=
  !text.isEmpty && text.all Text.isDecimalDigit

/-- A dash and a decimal number, perhaps with a newline behind it. -/
def isNegativeNumber : List Char → Bool
  | '-' :: text =>
    let number := if text.getLast? = some '\n' then text.dropLast else text
    areDigits number ||
      (match number.dropWhile Text.isDecimalDigit with
        | '.' :: fraction => areDigits fraction
        | _ => false)
  | _ => false

/-- A word with a dash that names no switch: numbers and words with a space are plain. -/
def classifyUnnamed (word : List Char) : Word σ :=
  if isNegativeNumber word || word.contains ' ' then .plain else .unknown

/-- What a word is that does not stand behind two dashes. -/
def classify (table : Switches σ) (word : List Char) : Except Refusal (Word σ) :=
  match word with
  | '-' :: '-' :: _ =>
    let (name, attached) := splitAtEquals word
    match effectsOf table name with
    | [] => .ok (classifyUnnamed word)
    | [effect] => .ok (.name effect attached)
    | _ => .error .misuse
  | '-' :: letter :: rest =>
    match effect? table ['-', letter] with
    | some effect => .ok (.letter effect rest)
    | none => .ok (classifyUnnamed word)
  | _ => .ok .plain

/-- What each word is. -/
def classifyAll (table : Switches σ) :
    List (List Char) → Except Refusal (List (Word σ × List Char))
  | [] => .ok []
  | word :: rest =>
    if word = ['-', '-'] then .ok ((.dashes, word) :: rest.map fun w => (.plain, w))
    else do
      let kind ← classify table word
      let others ← classifyAll table rest
      return (kind, word) :: others

/-! ## Options -/

/-- A change of the options that may be refused. -/
abbrev Change (σ : Type) := σ → Except Refusal σ

/-- Sets a value. -/
def setValue (set : List Char → σ → Option σ) (text : List Char) : Change σ :=
  fun s =>
    match set text s with
    | some s => .ok s
    | none => .error .misuse

/-- Sets or clears the value of a switch by the text attached to it. -/
def setAttached (set : List Char → σ → Option σ) (clear : σ → σ) (text : List Char) : Change σ :=
  if text = ['-', '-'] then fun s => .ok (clear s) else setValue set text

/-- What a switch does: a change, or one that waits for a value. -/
inductive Taken (σ : Type) where
  | done (change : Change σ)
  | awaits (set : List Char → Change σ)

/-- A switch after a change. -/
def Taken.after (first : Change σ) : Taken σ → Taken σ
  | .done change => .done fun s => first s >>= change
  | .awaits set => .awaits fun text s => first s >>= set text

/-- A switch with nothing attached to it. -/
def takeBare : Effect σ → Taken σ
  | .help => .done fun _ => .error .help
  | .flag set => .done fun s => .ok (set s)
  | .value set _ => .awaits (setValue set)

/-- The switch of a letter with a text attached to it. If the letter has no value, the text is more
letters, and what stands behind one of them is attached to it. -/
def takeAttached (table : Switches σ) : Effect σ → List Char → Except Refusal (Taken σ)
  | .value set clear, text => .ok (.done (setAttached set clear text))
  | _, [] => .error .misuse
  | effect, c :: rest =>
    let first : Change σ := match effect with
      | .flag set => fun s => .ok (set s)
      | _ => fun _ => .error .help
    match effect? table ['-', c] with
    | none => .error .misuse
    | some next =>
      if rest.isEmpty then .ok ((takeBare next).after first)
      else (takeAttached table next rest).map (Taken.after first)

/-- The switch of a letter with the rest of its word. -/
def takeLetter (table : Switches σ) (effect : Effect σ) : List Char → Except Refusal (Taken σ)
  | [] => .ok (takeBare effect)
  | '=' :: text => takeAttached table effect text
  | text => takeAttached table effect text

/-- The switch of a name. -/
def takeName : Effect σ → Option (List Char) → Except Refusal (Taken σ)
  | .value set clear, some text => .ok (.done (setAttached set clear text))
  | _, some _ => .error .misuse
  | effect, none => .ok (takeBare effect)

/-- Operands cannot go on behind a switch. -/
def Operands.behindSwitch : Operands → Operands
  | .running => .none
  | operands => operands

/-- The reading with one more stray. -/
def Reading.withStray (r : Reading σ) : Reading σ :=
  { r with strays := true }

/-- Goes through the words of a command. A switch may await its value. -/
def readWords (table : Switches σ) :
    Option (List Char → Change σ) → Operands → List (Word σ × List Char) → σ →
      Except Refusal (Reading σ)
  | none, _, [], s => .ok ⟨s, [], false⟩
  | some _, _, [], _ => .error .misuse
  | some set, operands, (.plain, word) :: rest, s => do
    readWords table none operands rest (← set word s)
  | some _, _, _ :: _, _ => .error .misuse
  | none, operands, (.letter effect letters, _) :: rest, s => do
    match ← takeLetter table effect letters with
    | .done change => readWords table none operands.behindSwitch rest (← change s)
    | .awaits set => readWords table (some set) operands.behindSwitch rest s
  | none, operands, (.name effect attached, _) :: rest, s => do
    match ← takeName effect attached with
    | .done change => readWords table none operands.behindSwitch rest (← change s)
    | .awaits set => readWords table (some set) operands.behindSwitch rest s
  | none, operands, (.unknown, _) :: rest, s => do
    let reading ← readWords table none operands.behindSwitch rest s
    return reading.withStray
  | none, .all, (_, word) :: rest, s => .ok ⟨s, word :: rest.map (·.2), false⟩
  | none, .none, _ :: rest, s => do
    let reading ← readWords table none .none rest s
    return reading.withStray
  | none, _, (.dashes, _) :: rest, s => readWords table none .running rest s
  | none, _, (.plain, word) :: rest, s => do
    let reading ← readWords table none .running rest s
    return { reading with operands := word :: reading.operands }

/-- Reads the words of a command, given the options to start from. -/
def read (table : Switches σ) (operands : Operands) (words : List (List Char)) (s : σ) :
    Except Refusal (Reading σ) := do
  readWords table none operands (← classifyAll table words) s

end RacketTree.Command

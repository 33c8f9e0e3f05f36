import RacketTree.Tree.Basic

/-!
# Symbols

The definitions and submodules of a source text. A definition is a list that starts with a known
head. Its name is the second datum, or the innermost head of it if that is a list: `(define (f x)
…)` defines `f`, and so does `(define ((f a) b) …)`. A struct lists its fields, a module what it
defines.
-/

namespace RacketTree

/-- What a symbol stands for. -/
inductive SymbolKind where
  | module
  | field
  | function
  | binding
  | struct
  | operator
  deriving DecidableEq, Repr

namespace SymbolKind

/-- The number of a kind in the protocol. -/
def code : SymbolKind → Nat
  | module => 2
  | field => 8
  | function => 12
  | binding => 13
  | struct => 23
  | operator => 25

end SymbolKind

/-- A named stretch of source text. -/
structure Symbol where
  name : List Char
  kind : SymbolKind
  /-- The offsets of the whole form. -/
  range : Nat × Nat
  /-- The offsets of the name. -/
  selection : Nat × Nat
  /-- The head of the form. -/
  detail : Option (List Char)
  children : List Symbol
  deriving Repr

namespace Symbol

/-- The kind of symbol that a head defines. -/
def definitionKind? (head : String) : Option SymbolKind :=
  match head with
  | "define" | "define-values" | "define/contract" => some .binding
  | "define-syntax" | "define-syntax-rule" | "define-syntaxes" => some .operator
  | "struct" | "define-struct" => some .struct
  | _ => none

/-- The head of a submodule. -/
def isModuleHead (head : String) : Bool :=
  head == "module" || head == "module*" || head == "module+"

/-- The head of a definition of several names. -/
def definesSeveral (head : String) : Bool :=
  head == "define-values" || head == "define-syntaxes"

/-- The span of a node. -/
def span (n : Node) : Nat × Nat :=
  (n.start, n.stop)

/-- The node is in datum position. -/
def isDatum (n : Node) : Bool :=
  n.kind != .whitespace && !n.kind.isPunctuation && !n.kind.isComment

mutual

/-- The first datum of the first datum and so on, as long as it is a list that is not empty. -/
def innermost : Node → Node
  | n@⟨_, kind, _, _, _, _, _, children⟩ =>
    if kind == .list then (innermostHead? children).getD n else n

/-- The innermost node of the first datum. -/
def innermostHead? : List Node → Option Node
  | [] => none
  | n :: rest => if isDatum n then some (innermost n) else innermostHead? rest

end

/-- The name node of a definition and its kind. -/
def target? (head : String) (kind : SymbolKind) (second : Node) : Option (Node × SymbolKind) :=
  let chosen? :=
    if definesSeveral head && second.kind == .list then second.datums.find? (·.kind == .symbol)
    else some second
  match chosen? with
  | none => none
  | some chosen =>
    let name := innermost chosen
    let descended := chosen.kind == .list && !chosen.datums.isEmpty
    if name.kind == .symbol then
      some (name, if descended && kind == .binding then .function else kind)
    else none

/-- The field that an item of a field list declares: a name, or a list that starts with one. -/
def fieldOf? (source : List Char) (item : Node) : Option Symbol :=
  let name := match item.kind, item.datums with
    | .list, first :: _ => first
    | _, _ => item
  if name.kind == .symbol then
    some { name := name.text source, kind := .field, range := span item, selection := span name
           detail := none, children := [] }
  else none

/-- The fields of a struct, from the first list among the datums after its name. -/
def structFields (source : List Char) (parts : List Node) : List Symbol :=
  match parts.find? (·.kind == .list) with
  | some fields => fields.datums.filterMap (fieldOf? source)
  | none => []

mutual

/-- The symbol of a form, if it is a definition or a submodule. -/
def ofNode? (source : List Char) : Node → Option Symbol
  | ⟨handle, kind, start, width, text?, fault, hasFault, children⟩ =>
    let form : Node := ⟨handle, kind, start, width, text?, fault, hasFault, children⟩
    match kind, form.datums with
    | .list, first :: second :: parts =>
      if first.kind != .symbol then none
      else
        let headText := first.text source
        let head := String.ofList headText
        if isModuleHead head then
          some { name := second.text source, kind := .module, range := span form
                 selection := span second, detail := some headText
                 children := ofDatums source 2 children }
        else
          match definitionKind? head with
          | none => none
          | some kind =>
            match target? head kind second with
            | none => none
            | some (name, kind) =>
              some { name := name.text source, kind, range := span form, selection := span name
                     detail := some headText
                     children := if kind == .struct then structFields source parts else [] }
    | _, _ => none

/-- The symbols of the datums after the first few. -/
def ofDatums (source : List Char) (skipped : Nat) : List Node → List Symbol
  | [] => []
  | n :: rest =>
    if isDatum n then
      match skipped with
      | skipped + 1 => ofDatums source skipped rest
      | 0 =>
        match ofNode? source n with
        | some symbol => symbol :: ofDatums source 0 rest
        | none => ofDatums source 0 rest
    else ofDatums source skipped rest

end

/-- The symbols of a tree. -/
def ofTree (t : Tree) (a : Arena) : List Symbol :=
  ofDatums t.source 0 (t.items a)

end Symbol

end RacketTree

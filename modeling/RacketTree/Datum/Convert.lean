import RacketTree.Datum.Value
import RacketTree.Decimal.Read
import RacketTree.Literal
import RacketTree.Tree.Basic

/-!
# Values of datums

Numbers, strings, characters, booleans, symbols and keywords are their values; a quoted datum or a
box is its content; proper lists and vectors are lists, improper lists are tuples, and hashes are
tables. Other datums have no value.
-/

namespace RacketTree

/-- Why a datum has no value. -/
inductive DatumError where
  /-- The datum has an error in it. -/
  | malformed (offset : Nat) (text : List Char)
  | literal (cause : LiteralError)
  | unsupportedNumber (text : List Char)
  | hashEntries (offset : Nat)
  /-- A list or table is a key of a hash. -/
  | badKey
  | unsupported (kind : Kind) (offset : Nat)
  deriving DecidableEq, Repr

namespace DatumError

/-- The wording of an error. A bad key is refused by the table that it is put into, in words that
are not this library's: the wording for it is a stand-in. -/
def message : DatumError → String
  | malformed offset text => s!"malformed datum at offset {offset}: " ++ Text.quoted text
  | literal cause => cause.message
  | unsupportedNumber text => "unsupported number literal: " ++ String.ofList text
  | hashEntries offset => s!"hash entries must be pairs at offset {offset}"
  | badKey => "unhashable key"
  | unsupported kind offset => "unsupported datum " ++ kind.name ++ s!" at offset {offset}"

end DatumError

namespace Value

/-- The value of a number: an exact integer, or the nearest floating-point number of a decimal. -/
def ofNumber (text : List Char) : Except DatumError Value :=
  match Literal.integer text with
  | .ok n => .ok (.int n)
  | .error _ =>
    match Decimal.read? text with
    | some x => .ok (.float x)
    | Option.none => .error (.unsupportedNumber text)

/-- The value of an atom, if atoms of its kind have one. -/
def ofAtom (kind : Kind) (start : Nat) (text : List Char) : Except DatumError Value :=
  match kind with
  | .number => ofNumber text
  | .string => (Literal.string text).mapError .literal |>.map .str
  | .character => (Literal.character text).mapError .literal |>.map fun code => .str [code]
  | .boolean => (Literal.boolean text).mapError .literal |>.map .bool
  | .symbol => .ok (.str (text.map Char.toNat))
  | .keyword => .ok (.str ((text.drop 2).map Char.toNat))
  | kind => .error (.unsupported kind start)

/-- The table of a list of pairs. -/
def ofPairs (start : Nat) (values : List Value) : Except DatumError Value := do
  let pairs ← values.mapM fun
    | .tuple [key, value] => .ok (key, value)
    | _ => .error (.hashEntries start)
  let entries ← pairs.foldlM (fun entries (key, value) =>
    if key.isKey then .ok (setEntry entries key value) else .error DatumError.badKey) []
  return .dict entries

mutual

/-- The value of a datum in a source text. -/
def ofNode (source : List Char) : Node → Except DatumError Value
  | ⟨handle, kind, start, width, text?, fault, hasFault, children⟩ =>
    let n : Node := ⟨handle, kind, start, width, text?, fault, hasFault, children⟩
    if hasFault then .error (.malformed start (n.text source))
    else match kind with
      | .quote | .quasiquote | .box => do
        match ← ofDatums source children with
        | value :: _ => return value
        | [] => .error (.unsupported kind start)
      | .hash => do
        let values ← ofDatums source children
        ofPairs start values
      | .list => do
        let values ← ofDatums source children
        return if n.dottedTail?.isSome then .tuple values else .list values
      | .vector => do
        let values ← ofDatums source children
        return .list values
      | kind => ofAtom kind start (n.text source)

/-- The values of those nodes that are in datum position. -/
def ofDatums (source : List Char) : List Node → Except DatumError (List Value)
  | [] => .ok []
  | n :: rest =>
    if n.kind == .whitespace || n.kind.isPunctuation || n.kind.isComment then
      ofDatums source rest
    else do
      let value ← ofNode source n
      let values ← ofDatums source rest
      return value :: values

end

end Value

end RacketTree

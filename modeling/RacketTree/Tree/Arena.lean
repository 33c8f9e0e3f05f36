import RacketTree.Tree.Draft

/-!
# Arenas

All versions of a tree share one arena. It holds records that are addressed by handles, only grows,
and never changes a record. A record has the width of its text and no offset, so that it can be used
again at another place after an edit. The children of a branch come before it.
-/

namespace RacketTree

/-- The place of a record in an arena. -/
abbrev Handle := Nat

/-- A leaf with its text, or a branch with the handles of its children. -/
structure Record where
  kind : Kind
  width : Nat
  text? : Option (List Char)
  children : List Handle
  fault : Option Fault
  /-- The record or a record below it has a fault. -/
  hasFault : Bool
  deriving DecidableEq, Repr

/-- The records of all versions of a tree. -/
structure Arena where
  records : Array Record
  deriving DecidableEq, Repr

namespace Arena

/-- An arena without records. -/
def empty : Arena := ⟨#[]⟩

/-- The number of records. -/
def size (a : Arena) : Nat :=
  a.records.size

/-- The record at a handle. -/
def get? (a : Arena) (h : Handle) : Option Record :=
  a.records[h]?

/-- Adds a record; its handle is the old size. -/
def push (a : Arena) (r : Record) : Arena :=
  ⟨a.records.push r⟩

/-- Adds a leaf. -/
def leaf (a : Arena) (kind : Kind) (text : List Char) (fault : Option Fault) : Arena :=
  a.push
    { kind, width := text.length, text? := some text, children := [], fault
      hasFault := fault.isSome }

/-- The width of a record. -/
def width (a : Arena) (h : Handle) : Nat :=
  ((a.get? h).map Record.width).getD 0

/-- A record has a fault in it. -/
def hasFault (a : Arena) (h : Handle) : Bool :=
  ((a.get? h).map Record.hasFault).getD false

/-- The width of records side by side. -/
def widths (a : Arena) : List Handle → Nat
  | [] => 0
  | h :: rest => a.width h + a.widths rest

/-- Adds a branch around earlier records. -/
def branch (a : Arena) (kind : Kind) (children : List Handle) (fault : Option Fault) : Arena :=
  a.push
    { kind, width := a.widths children, text? := none, children, fault
      hasFault := fault.isSome || children.any a.hasFault }

mutual

/-- Adds the records of a draft. The result has the handles of the trees that it stands for. -/
def store (a : Arena) : Draft → Arena × List Handle
  | .leaf kind text fault => (a.leaf kind text fault, [a.size])
  | .branch kind children fault =>
    let (a, handles) := a.storeAll children
    (a.branch kind handles fault, [a.size])
  | .tail pieces trailing =>
    let (a, inner) := a.storeAll pieces
    let (a, after) := a.storeAll trailing
    (a.branch .error inner (some .malformedDottedPair), a.size :: after)

/-- Adds the records of several drafts. -/
def storeAll (a : Arena) : List Draft → Arena × List Handle
  | [] => (a, [])
  | d :: rest =>
    let (a, first) := a.store d
    let (a, more) := a.storeAll rest
    (a, first ++ more)

end

/-- The tree below a record. Handles that are not below their parent are not followed. -/
def shape (a : Arena) (h : Handle) : Shape :=
  match a.get? h with
  | none => .leaf .missing [] none
  | some r =>
    match r.text? with
    | some text => .leaf r.kind text r.fault
    | none =>
      .branch r.kind
        (r.children.filterMap fun c => if _below : c < h then some (a.shape c) else none) r.fault
termination_by h
decreasing_by exact _below

/-- The trees below two records, each in its own arena, have the same kinds, texts and faults in the
same places. -/
def same (a b : Arena) (x y : Handle) : Bool :=
  match a.get? x, b.get? y with
  | some r, some s =>
    r.kind == s.kind && r.width == s.width && r.text? == s.text? && r.fault == s.fault &&
      r.children.length == s.children.length &&
      (r.children.zip s.children).all fun pair =>
        if _below : pair.1 < x then same a b pair.1 pair.2 else false
  | _, _ => false
termination_by x
decreasing_by exact _below

/-- The kind of the last leaf below a record. -/
def lastLeafKind (a : Arena) (h : Handle) : Kind :=
  match a.get? h with
  | none => .missing
  | some r =>
    match r.children.getLast? with
    | none => r.kind
    | some c => if _below : c < h then a.lastLeafKind c else r.kind
termination_by h
decreasing_by exact _below

end Arena

end RacketTree

/-!
# UTF-8

Encoding, and a decoder that never fails: it cuts the bytes into *pieces*, each a character or a
malformed stretch. Three readings of the pieces are in use.

* `decode?` refuses malformed bytes and says where and why.
* `decodeReplacing` puts U+FFFD for each malformed stretch.
* `decodeSkipping` leaves malformed stretches out.

A malformed stretch is a byte that cannot start a character, or a started character as far as its
bytes were acceptable.
-/

namespace RacketTree.Text.Utf8

/-- The bytes of one character. -/
def encodeChar (c : Char) : List UInt8 :=
  let n := c.toNat
  if n < 0x80 then [n.toUInt8]
  else if n < 0x800 then [(0xC0 + n / 0x40).toUInt8, (0x80 + n % 0x40).toUInt8]
  else if n < 0x10000 then
    [(0xE0 + n / 0x1000).toUInt8, (0x80 + n / 0x40 % 0x40).toUInt8, (0x80 + n % 0x40).toUInt8]
  else
    [(0xF0 + n / 0x40000).toUInt8, (0x80 + n / 0x1000 % 0x40).toUInt8,
      (0x80 + n / 0x40 % 0x40).toUInt8, (0x80 + n % 0x40).toUInt8]

/-- The bytes of a text. -/
def encode (text : List Char) : List UInt8 :=
  text.flatMap encodeChar

/-- Why bytes are malformed. -/
inductive Reason where
  | badStart
  | badContinuation
  | truncated
  deriving DecidableEq, Repr

namespace Reason

/-- The wording of a reason. -/
def message : Reason → String
  | badStart => "invalid start byte"
  | badContinuation => "invalid continuation byte"
  | truncated => "unexpected end of data"

end Reason

/-- A stretch of the input: a character, or malformed bytes. -/
inductive Piece where
  | char (c : Char)
  | malformed (bytes : List UInt8) (reason : Reason)
  deriving DecidableEq, Repr

/-- A character that has been started: the bytes so far, the number of bytes owed, the range of the
next one and the code so far. -/
structure Started where
  bytes : List UInt8
  owed : Nat
  least : Nat
  greatest : Nat
  code : Nat
  deriving DecidableEq, Repr

/-- What a byte between characters starts: a character that is complete, one that owes more bytes,
or nothing. -/
def start (b : UInt8) : Piece ⊕ Started :=
  let n := b.toNat
  if n < 0x80 then .inl (.char (Char.ofNat n))
  else if n < 0xC2 then .inl (.malformed [b] .badStart)
  else if n < 0xE0 then .inr ⟨[b], 1, 0x80, 0xBF, n - 0xC0⟩
  else if n = 0xE0 then .inr ⟨[b], 2, 0xA0, 0xBF, 0⟩
  else if n = 0xED then .inr ⟨[b], 2, 0x80, 0x9F, 0xD⟩
  else if n < 0xF0 then .inr ⟨[b], 2, 0x80, 0xBF, n - 0xE0⟩
  else if n = 0xF0 then .inr ⟨[b], 3, 0x90, 0xBF, 0⟩
  else if n < 0xF4 then .inr ⟨[b], 3, 0x80, 0xBF, n - 0xF0⟩
  else if n = 0xF4 then .inr ⟨[b], 3, 0x80, 0x8F, 4⟩
  else .inl (.malformed [b] .badStart)

mutual

/-- The pieces of the bytes, from between two characters. -/
def pieces : List UInt8 → List Piece
  | [] => []
  | b :: rest =>
    match start b with
    | .inl piece => piece :: pieces rest
    | .inr started => piecesAfter started rest

/-- The pieces of the bytes, inside a character. -/
def piecesAfter (s : Started) : List UInt8 → List Piece
  | [] => [.malformed s.bytes .truncated]
  | b :: rest =>
    let n := b.toNat
    if s.least ≤ n && n ≤ s.greatest then
      let code := s.code * 0x40 + (n - 0x80)
      if s.owed ≤ 1 then .char (Char.ofNat code) :: pieces rest
      else piecesAfter ⟨s.bytes ++ [b], s.owed - 1, 0x80, 0xBF, code⟩ rest
    else
      .malformed s.bytes .badContinuation ::
        match start b with
        | .inl piece => piece :: pieces rest
        | .inr started => piecesAfter started rest

end

/-- Malformed bytes, and the position of the first of them. -/
structure Malformed where
  position : Nat
  bytes : List UInt8
  reason : Reason
  deriving DecidableEq, Repr

/-- The characters of the pieces, unless one is malformed. -/
def characters? (position : Nat) : List Piece → Except Malformed (List Char)
  | [] => .ok []
  | .char c :: rest => do
    let tail ← characters? (position + (encodeChar c).length) rest
    return c :: tail
  | .malformed bytes reason :: _ => .error ⟨position, bytes, reason⟩

/-- The text that the bytes encode. -/
def decode? (bytes : List UInt8) : Except Malformed (List Char) :=
  characters? 0 (pieces bytes)

/-- The text of the bytes with U+FFFD for each malformed stretch. -/
def decodeReplacing (bytes : List UInt8) : List Char :=
  (pieces bytes).map fun
    | .char c => c
    | .malformed .. => '\uFFFD'

/-- The text of the bytes without the malformed stretches. -/
def decodeSkipping (bytes : List UInt8) : List Char :=
  (pieces bytes).filterMap fun
    | .char c => some c
    | .malformed .. => none

end RacketTree.Text.Utf8

import RacketTree.Json.Parser
import RacketTree.Json.Printer
import RacketTree.Number.Integer
import RacketTree.Rpc.Error
import RacketTree.Text.Utf8

/-!
# Frames

A message travels as header lines, a blank line and a body of as many bytes as the `Content-Length`
header says. Reading takes one frame off the front of the input. A frame that is malformed is
refused, and reading goes on behind the part of it that has been read. A body that is cut short ends
the input. A length beyond all bounds cannot be read at all. An integer of too many digits and a
nesting for which there is no room can neither be read nor written, and half of a surrogate pair
cannot be written.
-/

namespace RacketTree.Rpc.Frame

/-- Why reading cannot go on. -/
inductive Unreadable where
  /-- No body has as many bytes as the header says. -/
  | length
  /-- Arrays and objects are nested too deeply. -/
  | nesting
  /-- An integer has this many digits. -/
  | digits (count : Nat)
  deriving DecidableEq, Repr

/-- The result of reading a frame, with the input behind it. -/
inductive Outcome where
  /-- The input has ended. -/
  | finished
  | unreadable (cause : Unreadable)
  | refused (error : Error) (rest : List UInt8)
  /-- The fields of a message. -/
  | message (fields : Json.Fields) (rest : List UInt8)

/-- The bytes of the first line with the newline that ends it. -/
def line : List UInt8 → List UInt8
  | [] => []
  | b :: rest => if b = 0x0A then [b] else b :: line rest

/-- The bytes after the first line. -/
def afterLine : List UInt8 → List UInt8
  | [] => []
  | b :: rest => if b = 0x0A then rest else afterLine rest

theorem length_afterLine_le (bytes : List UInt8) : (afterLine bytes).length ≤ bytes.length := by
  induction bytes with
  | nil => exact Nat.le_refl _
  | cons b rest ih =>
    rw [afterLine]
    split
    · exact Nat.le_succ _
    · exact Nat.le_succ_of_le ih

theorem length_afterLine_lt (b : UInt8) (rest : List UInt8) :
    (afterLine (b :: rest)).length < (b :: rest).length := by
  rw [afterLine]
  split
  · exact Nat.lt_succ_self _
  · exact Nat.lt_succ_of_le (length_afterLine_le rest)

/-- A header line as text without blanks at either end; bytes that are not ASCII become U+FFFD. -/
def headerText (bytes : List UInt8) : List Char :=
  Text.strip (bytes.map fun b => if b < 0x80 then Char.ofNat b.toNat else '\uFFFD')

/-- The name of the length header, in lower case. -/
def lengthName : List Char := "content-length:".toList

/-- The value of a length header, if the text is one. -/
def lengthValue? (text : List Char) : Option (List Char) :=
  if lengthName.isPrefixOf (text.map Text.lower) then some (text.drop lengthName.length) else none

/-- The result of reading headers, with the input behind them. -/
inductive Headers where
  | finished
  | refused (error : Error) (rest : List UInt8)
  | length (n : Int) (rest : List UInt8)

/-- Reads header lines up to a blank one. The last length counts; `length?` is the one so far. -/
def readHeaders (length? : Option Int) : List UInt8 → Headers
  | [] => .finished
  | b :: bytes =>
    let text := headerText (line (b :: bytes))
    let rest := afterLine (b :: bytes)
    if text.isEmpty then
      match length? with
      | some n => .length n rest
      | none => .refused ⟨Error.parseError, "Missing Content-Length header", none⟩ rest
    else
      match lengthValue? text with
      | none => readHeaders length? rest
      | some value =>
        match Number.readInteger? .decimal (Text.strip value) with
        | some n => readHeaders (some n) rest
        | none =>
          .refused
            ⟨Error.parseError, "Invalid Content-Length: " ++ String.ofList text, none⟩ rest
termination_by bytes => bytes.length
decreasing_by all_goals exact length_afterLine_lt _ _

/-- The least length that no body has. A stream that makes room for the whole body at once fails at
lengths below it as well, where the memory ends; the input here is bytes that are there. -/
def lengthBound : Nat := Decimal.twoTo 63

/-- A length that bodies can have; a negative one stands for the whole input. -/
def isLength (n : Int) : Bool :=
  -(lengthBound : Int) ≤ n && n < lengthBound

/-- The message of a body. `room` bounds its nesting. A refusal leaves out where and why the body is
not JSON. -/
def ofBody (room : Nat) (body rest : List UInt8) : Outcome :=
  match Text.Utf8.decode? body with
  | .error _ => .refused ⟨Error.parseError, "Invalid JSON", none⟩ rest
  | .ok text =>
    match Json.parse room text with
    | .error .malformed => .refused ⟨Error.parseError, "Invalid JSON", none⟩ rest
    | .error .tooDeep => .unreadable .nesting
    | .error (.tooManyDigits count) => .unreadable (.digits count)
    | .ok (.obj fields) => .message fields rest
    | .ok _ => .refused ⟨Error.invalidRequest, "Message must be a JSON object", none⟩ rest

/-- Reads one frame. `room` bounds the nesting of its body. A negative length stands for the whole
input. -/
def read (room : Nat) (input : List UInt8) : Outcome :=
  match readHeaders none input with
  | .finished => .finished
  | .refused e rest => .refused e rest
  | .length n rest =>
    if !isLength n then .unreadable .length
    else if n < 0 then ofBody room rest []
    else if rest.length < n.toNat then .finished
    else ofBody room (rest.take n.toNat) (rest.drop n.toNat)

/-- The input behind the headers. -/
def Headers.rest : Headers → List UInt8
  | .finished => []
  | .refused _ rest => rest
  | .length _ rest => rest

/-- The input behind a frame. -/
def Outcome.rest : Outcome → List UInt8
  | .finished => []
  | .unreadable _ => []
  | .refused _ rest => rest
  | .message _ rest => rest

theorem length_rest_readHeaders_le (length? : Option Int) (bytes : List UInt8) :
    (readHeaders length? bytes).rest.length ≤ bytes.length - 1 := by
  fun_induction readHeaders length? bytes with
  | case1 => exact Nat.zero_le _
  | case2 => exact Nat.le_sub_one_of_lt (length_afterLine_lt _ _)
  | case3 => exact Nat.le_sub_one_of_lt (length_afterLine_lt _ _)
  | case4 _ _ _ _ _ _ _ ih =>
    exact Nat.le_trans ih (Nat.sub_le_sub_right (Nat.le_of_lt (length_afterLine_lt _ _)) 1)
  | case5 _ _ _ _ _ _ _ _ _ _ ih =>
    exact Nat.le_trans ih (Nat.sub_le_sub_right (Nat.le_of_lt (length_afterLine_lt _ _)) 1)
  | case6 => exact Nat.le_sub_one_of_lt (length_afterLine_lt _ _)

theorem length_rest_ofBody_le (room : Nat) (body rest : List UInt8) :
    (ofBody room body rest).rest.length ≤ rest.length := by
  unfold ofBody
  split
  · exact Nat.le_refl _
  · split <;> first | exact Nat.le_refl _ | exact Nat.zero_le _

theorem length_rest_read_le (room : Nat) (input : List UInt8) :
    (read room input).rest.length ≤ input.length - 1 := by
  have h := length_rest_readHeaders_le none input
  unfold read
  split
  · exact Nat.zero_le _
  · rename_i heads e rest heq
    rw [heq] at h
    exact h
  · rename_i heads n rest heq
    rw [heq] at h
    split
    · exact Nat.zero_le _
    · split
      · exact Nat.le_trans (length_rest_ofBody_le _ _ _) (Nat.zero_le _)
      · split
        · exact Nat.zero_le _
        · refine Nat.le_trans (length_rest_ofBody_le _ _ _) ?_
          rw [List.length_drop]
          exact Nat.le_trans (Nat.sub_le _ _) h

theorem length_lt_of_refused {room : Nat} {b : UInt8} {bytes rest : List UInt8} {e : Error}
    (h : read room (b :: bytes) = .refused e rest) : rest.length < (b :: bytes).length := by
  have hle := length_rest_read_le room (b :: bytes)
  rw [h] at hle
  exact Nat.lt_succ_of_le hle

theorem length_lt_of_message {room : Nat} {b : UInt8} {bytes rest : List UInt8}
    {fields : Json.Fields} (h : read room (b :: bytes) = .message fields rest) :
    rest.length < (b :: bytes).length := by
  have hle := length_rest_read_le room (b :: bytes)
  rw [h] at hle
  exact Nat.lt_succ_of_le hle

/-- The frames of an input up to its end, and why reading stopped before it, if it did. -/
def readAll (room : Nat) : List UInt8 → List (Except Error Json.Fields) × Option Unreadable
  | [] => ([], none)
  | b :: bytes =>
    match _read : read room (b :: bytes) with
    | .finished => ([], none)
    | .unreadable cause => ([], some cause)
    | .refused e rest =>
      let (frames, stop) := readAll room rest
      (.error e :: frames, stop)
    | .message fields rest =>
      let (frames, stop) := readAll room rest
      (.ok fields :: frames, stop)
termination_by bytes => bytes.length
decreasing_by
  · exact length_lt_of_refused _read
  · exact length_lt_of_message _read

/-! ## Writing -/

/-- The first halves of surrogate pairs in a text. -/
structure Halves where
  position : Nat
  codes : List Nat
  deriving DecidableEq, Repr

/-- The wording for halves of surrogate pairs. -/
def Halves.message (h : Halves) : String :=
  let place := match h.codes with
    | [half] => "character '\\u" ++ String.ofList (Text.hexDigits 4 half) ++
        s!"' in position {h.position}"
    | codes => s!"characters in position {h.position}-{h.position + codes.length - 1}"
  "'utf-8' codec can't encode " ++ place ++ ": surrogates not allowed"

/-- The first halves of surrogate pairs in a text, if there are any. -/
def halves? (text : Codes) : Option Halves :=
  if text.hasHalves then
    let plain := text.points.takeWhile fun code => !Codes.isHalf code
    some ⟨plain.length, (text.points.drop plain.length).takeWhile Codes.isHalf⟩
  else none

/-- Why a message cannot be written. -/
inductive Unwritable where
  /-- Arrays and objects are nested too deeply. -/
  | nesting
  /-- An integer has too many digits. -/
  | digits
  /-- Its text has halves of surrogate pairs. -/
  | halves (first : Halves)
  deriving DecidableEq, Repr

/-- Why a message cannot be written, if it cannot. Halves are met only in a text that is
complete. -/
def unwritable? (room : Nat) (message : Json) : Option Unwritable :=
  match message.writeError? room with
  | some .tooDeep => some .nesting
  | some .tooManyDigits => some .digits
  | none => (halves? message.render).map .halves

/-- The bytes of a frame around a text. -/
def ofText (text : Codes) : List UInt8 :=
  let body := Text.Utf8.encode text.chars
  Text.Utf8.encode s!"Content-Length: {body.length}\r\n\r\n".toList ++ body

/-- The bytes of a frame around a message, unless it cannot be written. `room` bounds its
nesting. -/
def write (room : Nat) (message : Json) : Except Unwritable (List UInt8) :=
  match unwritable? room message with
  | some cause => .error cause
  | none => .ok (ofText message.render)

end RacketTree.Rpc.Frame

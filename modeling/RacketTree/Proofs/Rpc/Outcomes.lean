import RacketTree.Proofs.Rpc.Frames
import RacketTree.Proofs.Rpc.Writing
import RacketTree.Proofs.Text.Utf8

/-!
# One outcome for each frame

The input is a list of frames one behind the other (`Frames`), with any bytes as bodies. `Gives`
says what a body gives: a message, a refusal, or a cause for which reading cannot go on. `Reads`
follows the bodies up to the first that cannot be read.

`readAll_frames` says that reading finds exactly these outcomes, whatever the bodies are and however
much room there is, and that a last frame that is cut short adds nothing to them. So the objects
that are written are read back. `readAll_overlong` is a frame that is cut short and does not end the
input: no body has its length. `readAll_indented` is a frame whose message is not found, since a
second line gives a length behind a blank.
-/

namespace RacketTree.Rpc.Frame

/-! ## What a body gives -/

/-- What a body gives. It is UTF-8 if it is the encoding of a text. -/
inductive Gives (room : Nat) (body : List UInt8) :
    Except Unreadable (Except Error Json.Fields) → Prop
  | message {text : List Char} {fields : Json.Fields} (htext : body = Text.Utf8.encode text)
      (hparse : Json.parse room text = .ok (.obj fields)) : Gives room body (.ok (.ok fields))
  | other {text : List Char} {value : Json} (htext : body = Text.Utf8.encode text)
      (hparse : Json.parse room text = .ok value) (hvalue : ∀ fields, value ≠ .obj fields) :
      Gives room body (.ok (.error ⟨Error.invalidRequest, "Message must be a JSON object", none⟩))
  | malformed
      (h : ∀ text, body = Text.Utf8.encode text → Json.parse room text = .error .malformed) :
      Gives room body (.ok (.error ⟨Error.parseError, "Invalid JSON", none⟩))
  | nesting {text : List Char} (htext : body = Text.Utf8.encode text)
      (hparse : Json.parse room text = .error .tooDeep) : Gives room body (.error .nesting)
  | digits {text : List Char} {count : Nat} (htext : body = Text.Utf8.encode text)
      (hparse : Json.parse room text = .error (.tooManyDigits count)) :
      Gives room body (.error (.digits count))

/-- What reading finds for a body, with the input behind it. -/
def Outcome.ofResult (rest : List UInt8) : Except Unreadable (Except Error Json.Fields) → Outcome
  | .error cause => .unreadable cause
  | .ok (.error e) => .refused e rest
  | .ok (.ok fields) => .message fields rest

variable {room : Nat} {body bytes frame : List UInt8} {bodies : List (List UInt8)}

theorem Gives.ofBody_eq {r : Except Unreadable (Except Error Json.Fields)} (h : Gives room body r)
    (rest : List UInt8) : ofBody room body rest = .ofResult rest r := by
  cases h with
  | message htext hparse =>
    simp only [ofBody, Text.Utf8.decode?_eq_ok_iff.mpr htext, hparse, Outcome.ofResult]
  | @other text value htext hparse hvalue =>
    simp only [ofBody, Text.Utf8.decode?_eq_ok_iff.mpr htext, hparse]
    cases value with
    | obj fields => exact absurd rfl (hvalue fields)
    | _ => rfl
  | malformed h =>
    rw [ofBody]
    cases htext : Text.Utf8.decode? body with
    | error e => rfl
    | ok text => simp only [h text (Text.Utf8.decode?_eq_ok_iff.mp htext), Outcome.ofResult]
  | nesting htext hparse =>
    simp only [ofBody, Text.Utf8.decode?_eq_ok_iff.mpr htext, hparse, Outcome.ofResult]
  | digits htext hparse =>
    simp only [ofBody, Text.Utf8.decode?_eq_ok_iff.mpr htext, hparse, Outcome.ofResult]

theorem exists_gives (room : Nat) (body : List UInt8) : ∃ r, Gives room body r := by
  cases hdecode : Text.Utf8.decode? body with
  | error e =>
    refine ⟨_, .malformed fun text htext => ?_⟩
    rw [Text.Utf8.decode?_eq_ok_iff.mpr htext] at hdecode
    cases hdecode
  | ok text =>
    have htext := Text.Utf8.decode?_eq_ok_iff.mp hdecode
    cases hparse : Json.parse room text with
    | error e =>
      cases e with
      | tooDeep => exact ⟨_, .nesting htext hparse⟩
      | tooManyDigits count => exact ⟨_, .digits htext hparse⟩
      | malformed =>
        refine ⟨_, .malformed fun text' htext' => ?_⟩
        rw [Text.Utf8.decode?_eq_ok_iff.mpr htext'] at hdecode
        cases hdecode
        exact hparse
    | ok value =>
      cases value with
      | obj fields => exact ⟨_, .message htext hparse⟩
      | _ => exact ⟨_, .other htext hparse nofun⟩

/-! ## Frames one behind the other -/

/-- Frames one behind the other, with their bodies. -/
inductive Frames : List (List UInt8) → List UInt8 → Prop
  | nil : Frames [] []
  | cons {body frame bytes : List UInt8} {bodies : List (List UInt8)} (hframe : IsFrame body frame)
      (hlength : body.length < lengthBound) (hrest : Frames bodies bytes) :
      Frames (body :: bodies) (frame ++ bytes)

/-- The outcomes of bodies up to the first that cannot be read, and why it cannot. -/
inductive Reads (room : Nat) :
    List (List UInt8) → List (Except Error Json.Fields) → Option Unreadable → Prop
  | nil : Reads room [] [] none
  | next {body : List UInt8} {bodies : List (List UInt8)} {out : Except Error Json.Fields}
      {outs : List (Except Error Json.Fields)} {stop : Option Unreadable}
      (hbody : Gives room body (.ok out)) (hrest : Reads room bodies outs stop) :
      Reads room (body :: bodies) (out :: outs) stop
  | stop {body : List UInt8} {bodies : List (List UInt8)} {cause : Unreadable}
      (hbody : Gives room body (.error cause)) : Reads room (body :: bodies) [] (some cause)

theorem exists_reads (room : Nat) (bodies : List (List UInt8)) :
    ∃ outs stop, Reads room bodies outs stop := by
  induction bodies with
  | nil => exact ⟨_, _, .nil⟩
  | cons body bodies ih =>
    obtain ⟨r, hbody⟩ := exists_gives room body
    cases r with
    | error cause => exact ⟨_, _, .stop hbody⟩
    | ok out =>
      obtain ⟨outs, stop, hrest⟩ := ih
      exact ⟨_, _, .next hbody hrest⟩

/-- One turn of the reader. -/
theorem readAll_eq (room : Nat) (input : List UInt8) :
    readAll room input =
      match read room input with
      | .finished => ([], none)
      | .unreadable cause => ([], some cause)
      | .refused e rest => (.error e :: (readAll room rest).1, (readAll room rest).2)
      | .message fields rest => (.ok fields :: (readAll room rest).1, (readAll room rest).2) := by
  cases input with
  | nil => rw [readAll, read_nil]
  | cons b bytes =>
    rw [readAll]
    split <;> rename_i hread <;> simp only [hread]

/-- A frame whose body gives an outcome is read, and reading goes on behind it. -/
theorem readAll_next {out : Except Error Json.Fields} (hframe : IsFrame body frame)
    (hlength : body.length < lengthBound) (hbody : Gives room body (.ok out)) (rest : List UInt8) :
    readAll room (frame ++ rest) = (out :: (readAll room rest).1, (readAll room rest).2) := by
  rw [readAll_eq, read_frame hframe hlength, hbody.ofBody_eq]
  cases out <;> rfl

/-- A frame whose body cannot be read is the last. -/
theorem readAll_stop {cause : Unreadable} (hframe : IsFrame body frame)
    (hlength : body.length < lengthBound) (hbody : Gives room body (.error cause))
    (rest : List UInt8) : readAll room (frame ++ rest) = ([], some cause) := by
  rw [readAll_eq, read_frame hframe hlength, hbody.ofBody_eq]
  rfl

/-- The outcomes of frames that can all be read come before those of any input behind them. -/
theorem Frames.readAll_append (h : Frames bodies bytes) {outs : List (Except Error Json.Fields)}
    (hreads : Reads room bodies outs none) (rest : List UInt8) :
    readAll room (bytes ++ rest) = (outs ++ (readAll room rest).1, (readAll room rest).2) := by
  induction h generalizing outs with
  | nil =>
    cases hreads
    rfl
  | cons hframe hlength _ ih =>
    cases hreads with
    | next hbody hrest =>
      rw [List.append_assoc, readAll_next hframe hlength hbody, ih hrest]
      rfl

/-- Nothing is read behind a frame that cannot be read. -/
theorem Frames.readAll_some (h : Frames bodies bytes) {outs : List (Except Error Json.Fields)}
    {cause : Unreadable} (hreads : Reads room bodies outs (some cause)) (rest : List UInt8) :
    readAll room (bytes ++ rest) = (outs, some cause) := by
  induction h generalizing outs with
  | nil => cases hreads
  | cons hframe hlength _ ih =>
    rw [List.append_assoc]
    cases hreads with
    | next hbody hrest => rw [readAll_next hframe hlength hbody, ih hrest]
    | stop hbody => exact readAll_stop hframe hlength hbody _

/-- An input with nothing to read behind the frames adds nothing to their outcomes. -/
theorem Frames.readAll_append_of_nil (h : Frames bodies bytes)
    {outs : List (Except Error Json.Fields)} {stop : Option Unreadable}
    (hreads : Reads room bodies outs stop) {rest : List UInt8}
    (hrest : readAll room rest = ([], none)) : readAll room (bytes ++ rest) = (outs, stop) := by
  cases stop with
  | some cause => exact h.readAll_some hreads rest
  | none => rw [h.readAll_append hreads, hrest, List.append_nil]

theorem Frames.readAll_eq (h : Frames bodies bytes) {outs : List (Except Error Json.Fields)}
    {stop : Option Unreadable} (hreads : Reads room bodies outs stop) :
    readAll room bytes = (outs, stop) := by
  have hnil : readAll room [] = ([], none) := by
    rw [readAll]
  have hall := h.readAll_append_of_nil hreads hnil
  rwa [List.append_nil] at hall

/-! ## Messages that are written -/

/-- An object that can be written and is read back from its text. -/
structure Faithful (reading writing : Nat) (fields : Json.Fields) : Prop where
  whole : (Json.obj fields).hasHalves = false
  nesting : (Json.obj fields).nesting ≤ writing
  parse : Json.parse reading (Json.obj fields).render.chars = .ok (.obj fields)
  length : (Text.Utf8.encode (Json.obj fields).render.chars).length < lengthBound

variable {reading writing : Nat}

/-- An object is written as a frame around a body that gives it. -/
theorem Faithful.exists_write {fields : Json.Fields} (h : Faithful reading writing fields) :
    ∃ frame, write writing (.obj fields) = .ok frame ∧
      IsFrame (Text.Utf8.encode (Json.obj fields).render.chars) frame ∧
        Gives reading (Text.Utf8.encode (Json.obj fields).render.chars) (.ok (.ok fields)) := by
  refine ⟨ofText (Json.obj fields).render, ?_, isFrame_ofText _, .message rfl h.parse⟩
  -- integers that are read back are short
  have hfits : (Json.obj fields).Fits writing := ⟨h.nesting, (Json.fits_of_parse h.parse).short⟩
  rw [write, unwritable?_eq_none_iff.mpr ⟨hfits, h.whole⟩]

/-- Objects are written as frames around bodies that give them. -/
theorem exists_mapM_write {messages : List Json.Fields}
    (h : ∀ m ∈ messages, Faithful reading writing m) :
    ∃ frames bodies, messages.mapM (fun m => write writing (.obj m)) = .ok frames ∧
      Frames bodies frames.flatten ∧ Reads reading bodies (messages.map .ok) none := by
  induction messages with
  | nil => exact ⟨[], [], rfl, .nil, .nil⟩
  | cons m messages ih =>
    obtain ⟨hm, hmessages⟩ := List.forall_mem_cons.mp h
    obtain ⟨frames, bodies, hwrite, hframes, hreads⟩ := ih hmessages
    obtain ⟨frame, hfirst, hframe, hbody⟩ := hm.exists_write
    refine ⟨frame :: frames, _ :: bodies, ?_, .cons hframe hm.length hframes, .next hbody hreads⟩
    rw [List.mapM_cons, hfirst, hwrite]
    rfl

/-! ## All frames -/

/-- Reading finds one outcome for each frame, in order, up to the first that cannot be read. A last
frame that is cut short ends the input, unless its length cannot be read. Objects that are written
are read back. -/
theorem readAll_frames (h : Frames bodies bytes) (room : Nat) :
    (∃ outs stop, Reads room bodies outs stop ∧ readAll room bytes = (outs, stop) ∧
      ∀ n head part, IsHead n head → part.length < n →
        (n < lengthBound → readAll room (bytes ++ (head ++ part)) = (outs, stop)) ∧
        (stop = none → lengthBound ≤ n → (Nat.toDigits 10 n).length ≤ Number.maxDigits →
          readAll room (bytes ++ (head ++ part)) = (outs, some .length)) ∧
        (stop = none → Number.maxDigits < (Nat.toDigits 10 n).length →
          ∃ text more stop', readAll room (bytes ++ (head ++ part)) =
            (outs ++ .error ⟨Error.parseError, text, none⟩ :: more, stop'))) ∧
    ∀ (writing : Nat) (messages : List Json.Fields),
      (∀ m ∈ messages, Faithful room writing m) →
        ∃ frames, messages.mapM (fun m => write writing (.obj m)) = .ok frames ∧
          readAll room frames.flatten = (messages.map .ok, none) := by
  constructor
  · obtain ⟨outs, stop, hreads⟩ := exists_reads room bodies
    refine ⟨outs, stop, hreads, h.readAll_eq hreads, fun n head part hhead hpart => ⟨?_, ?_, ?_⟩⟩
    · intro hn
      apply h.readAll_append_of_nil hreads
      rw [readAll_eq, read_cut hhead hpart hn]
    · rintro rfl hn hdigits
      rw [h.readAll_append hreads, readAll_eq, read_overlong hhead hn hdigits, List.append_nil]
    · rintro rfl hdigits
      obtain ⟨text, behind, hread⟩ := read_digits hhead hdigits part
      refine ⟨text, (readAll room behind).1, (readAll room behind).2, ?_⟩
      rw [h.readAll_append hreads, readAll_eq, hread]
  · intro writing messages hmessages
    obtain ⟨frames, bodies, hwrite, hframes, hreads⟩ := exists_mapM_write hmessages
    exact ⟨frames, hwrite, hframes.readAll_eq hreads⟩

/-- The lines in front of a body of two bytes, one of which is not the length. -/
def twoBytes : List UInt8 :=
  bytesOf "Host: a\r\ncontent-LENGTH: 2\r\n\r\n".toList

theorem isHead_twoBytes : IsHead 2 twoBytes := by
  refine ⟨[bytesOf "Host: a".toList], bytesOf "content-LENGTH: 2".toList, [], ?_, ?_, rfl⟩
  · intro l hl
    obtain rfl := List.mem_singleton.mp hl
    refine ⟨by decide, ⟨0x48, by decide, rfl⟩, ?_⟩
    intro name rest hline hname
    cases name with
    | nil => cases hname
    | cons b name =>
      obtain ⟨rfl, -⟩ := List.cons.inj hline
      cases hname
  · exact ⟨bytesOf "content-LENGTH:".toList, [0x20], rfl, by simp, rfl⟩

theorem frames_twoBytes : Frames [[0x7B, 0x7D]] (twoBytes ++ [0x7B, 0x7D] ++ []) :=
  .cons (isFrame_iff.mpr ⟨twoBytes, isHead_twoBytes, rfl⟩) (by decide) .nil

theorem parse_braces : Json.parse 1 "\x7b\x7d".toList = .ok (.obj []) := by
  cbv

theorem parse_accent : Json.parse 1 (Json.obj [("a", .str "é")]).render.chars =
    .ok (.obj [("a", .str "é")]) := by
  have htext : (Json.obj [("a", .str "é")]).render.chars = "\x7b\"a\": \"é\"\x7d".toList := by
    decide +kernel
  rw [htext]
  cbv

/-- The body of a frame with two bytes is the empty object. A second frame that is cut short adds
nothing. Two objects that are written are read back. -/
theorem readAll_frames_twoBytes :
    readAll 1 (twoBytes ++ [0x7B, 0x7D] ++ []) = ([.ok []], none) ∧
      readAll 1 (twoBytes ++ [0x7B, 0x7D] ++ [] ++ (twoBytes ++ [0x7B])) = ([.ok []], none) ∧
        ∃ frames, ([[("a", .str "é")], []] : List Json.Fields).mapM
              (fun m => write 1 (.obj m)) = .ok frames ∧
            readAll 1 frames.flatten = ([.ok [("a", .str "é")], .ok []], none) := by
  obtain ⟨⟨outs, stop, -, hall, hcut⟩, hwritten⟩ := readAll_frames frames_twoBytes 1
  have hbody : Gives 1 [0x7B, 0x7D] (.ok (.ok [])) := .message rfl parse_braces
  cases hall.symm.trans (frames_twoBytes.readAll_eq (.next hbody .nil))
  refine ⟨hall, (hcut 2 twoBytes [0x7B] isHead_twoBytes (by decide)).1 (by decide), ?_⟩
  apply hwritten 1 [[("a", .str "é")], []]
  refine List.forall_mem_cons.mpr ⟨⟨rfl, by decide, parse_accent, by decide +kernel⟩, ?_⟩
  exact List.forall_mem_singleton.mpr ⟨rfl, by decide, parse_braces, by decide +kernel⟩

/-- A length that no body has, with the lines around it. -/
def overlongHead : List UInt8 :=
  bytesOf "Content-Length: 9223372036854775808\r\n\r\n".toList

theorem isHead_overlongHead : IsHead 9223372036854775808 overlongHead :=
  ⟨[], bytesOf "Content-Length: 9223372036854775808".toList, [], nofun,
    ⟨bytesOf "Content-Length:".toList, [0x20], rfl, by simp, by decide +kernel⟩, rfl⟩

/-- A frame that is cut short does not end the input if no body has its length. -/
theorem readAll_overlong :
    IsHead 9223372036854775808 overlongHead ∧
      [0x7B, 0x7D].length < 9223372036854775808 ∧
        ∀ room, readAll room (overlongHead ++ [0x7B, 0x7D]) = ([], some .length) := by
  refine ⟨isHead_overlongHead, by decide, fun room => ?_⟩
  rw [readAll_eq, read_overlong isHead_overlongHead (by decide +kernel) (by decide +kernel)]

/-- A line that gives a length behind a blank. It does not begin with the name of the length. -/
def indentedLine : List UInt8 :=
  bytesOf " Content-Length: 3".toList

/-- The second line of a frame does not begin with the name of the length and counts as a length all
the same. The message of the frame is not found. -/
theorem readAll_indented :
    (∀ name rest, indentedLine = name ++ rest → ¬NamesLength name) ∧
      GivesLength 2 (bytesOf "Content-Length: 2".toList) ∧
        ∀ room, readAll room (broken (bytesOf "Content-Length: 2".toList) ++
          (broken indentedLine ++ ([0x0D, 0x0A] ++ [0x7B, 0x7D]))) = ([], none) := by
  have htwo : GivesLength 2 (bytesOf "Content-Length: 2".toList) :=
    ⟨bytesOf "Content-Length:".toList, [0x20], rfl, by simp, rfl⟩
  have hthree : GivesLength 3 (bytesOf "Content-Length: 3".toList) :=
    ⟨bytesOf "Content-Length:".toList, [0x20], rfl, by simp, rfl⟩
  refine ⟨fun name rest hline hname => ?_, htwo, fun room => ?_⟩
  · cases name with
    | nil => cases hname
    | cons b name =>
      obtain ⟨rfl, -⟩ := List.cons.inj hline
      cases hname
  · have hblanks : ∀ b ∈ [0x20], isBlankByte b = true ∧ b ≠ 0x0A :=
      List.forall_mem_singleton.mpr (by decide)
    have hindented :
        readHeaders (some (2 : Nat)) (broken indentedLine ++ ([0x0D, 0x0A] ++ [0x7B, 0x7D])) =
          .length 3 [0x7B, 0x7D] :=
      (readHeaders_indented hthree hblanks (by decide) _ _).trans
        (readHeaders_blank 3 [0x7B, 0x7D])
    rw [readAll_eq, read, readHeaders_length htwo (by decide), hindented]
    rfl

end RacketTree.Rpc.Frame

import RacketTree.Datum.Value
import RacketTree.Rpc.Frame

/-!
# Dispatch

A table of handlers answers messages. A message with an `id` is a request and gets one response; one
without is a notification and gets none. A handler works on the state of the server and may fail;
what it did before stays done. Failures that no response can carry are reported. A failure to report
or to write ends the server.
-/

namespace RacketTree.Rpc

/-- How a handler fails. -/
inductive Failure where
  /-- The response is this error. -/
  | error (e : Error)
  /-- The handler could not go on, for instance because of parameters of the wrong type. The text
  may come from a message and have halves of surrogate pairs; making it does not fail. -/
  | internal (text : Codes)
  /-- The server is to end. -/
  | exit (status : Nat)
  deriving Repr

/-- What a handler does to a state of type `σ`. -/
abbrev Action (σ α : Type) := ExceptT Failure (StateM σ) α

/-- Handlers by method name, and what to do with the failures of notifications and with internal
failures: the method and a text are given. Reporting can itself fail. -/
structure Handlers (σ : Type) where
  request? : String → Option (Json → Action σ Json)
  notification? : String → Option (Json → Action σ Unit)
  report : Codes → Codes → Action σ Unit

/-- Why a server stops before the end of its input. -/
inductive Stop where
  | exit (status : Nat)
  /-- The method of a message is an array or an object, and no table can be asked for it. -/
  | unusableMethod
  /-- The input cannot be read. -/
  | unreadable (cause : Frame.Unreadable)
  /-- A response cannot be written. -/
  | unwritable (cause : Frame.Unwritable)
  /-- The failure of a handler cannot be reported. -/
  | unreported (cause : Codes)
  deriving DecidableEq, Repr

/-- How a failure stops the server where nothing takes care of it. -/
def Failure.stop : Failure → Stop
  | error e => .unreported e.message
  | internal text => .unreported text
  | exit status => .exit status

/-- The nesting of arrays and objects for which there is room in messages. It is what the call stack
leaves where the server reads and where it writes. -/
structure Limits where
  reading : Nat
  writing : Nat
  deriving DecidableEq, Repr

/-- What a stack of a thousand calls leaves to a server that is called from the top. -/
def Limits.usual : Limits :=
  ⟨990, 990⟩

variable {σ : Type}

/-- A value that a table of handlers can be asked for. -/
def isUsable : Json → Bool
  | .arr _ | .obj _ => false
  | _ => true

/-- Looks a method up; only texts are registered. -/
def lookup {α : Type} (table : String → Option α) : Json → Option α
  | .str name => name.text?.bind table
  | _ => none

/-- Reports a failure and goes on with a reply. -/
def reportThen (h : Handlers σ) (method : Json) (cause : Codes) (reply : Option Json) (s : σ) :
    Except Stop (Option Json) × σ :=
  match (h.report method.inText cause).run.run s with
  | (.ok (), s) => (.ok reply, s)
  | (.error failure, s) => (.error failure.stop, s)

/-- Answers a request. A method that has been read is short enough to be shown. -/
def answer (h : Handlers σ) (id method params : Json) (s : σ) : Except Stop (Option Json) × σ :=
  match lookup h.request? method with
  | none =>
    (.ok (errorMessage id ⟨Error.methodNotFound, "Method not found: " ++ method.inText, none⟩), s)
  | some handler =>
    match (handler params).run.run s with
    | (.ok result, s) => (.ok (some (resultMessage id result)), s)
    | (.error (.error e), s) => (.ok (some (errorMessage id e)), s)
    | (.error (.internal text), s) =>
      reportThen h method text (some (errorMessage id ⟨Error.internalError, text, none⟩)) s
    | (.error (.exit status), s) => (.error (.exit status), s)

/-- Takes a notification. One without a handler is ignored. -/
def take (h : Handlers σ) (method params : Json) (s : σ) : Except Stop (Option Json) × σ :=
  match lookup h.notification? method with
  | none => (.ok none, s)
  | some handler =>
    match (handler params).run.run s with
    | (.ok (), s) => (.ok none, s)
    | (.error (.error e), s) => reportThen h method e.message none s
    | (.error (.internal text), s) => reportThen h method text none s
    | (.error (.exit status), s) => (.error (.exit status), s)

/-- A field that is there and not null. -/
def present? (fields : Json.Fields) (name : Codes) : Option Json :=
  match Json.field? fields name with
  | some .null => none
  | value => value

/-- The parameters of a message; an empty value of any type counts as none. -/
def paramsOf (fields : Json.Fields) : Json :=
  match Json.field? fields "params" with
  | some params => if params.isEmpty then .obj [] else params
  | none => .obj []

/-- Handles one message. The result is the response, if there is one. -/
def handle (h : Handlers σ) (fields : Json.Fields) (s : σ) :
    Except Stop (Option Json) × σ :=
  if (Json.field? fields "result").isSome || (Json.field? fields "error").isSome then (.ok none, s)
  else
    let id? := present? fields "id"
    match present? fields "method" with
    | none =>
      (.ok (some (errorMessage (id?.getD .null)
        ⟨Error.invalidRequest, "Missing method field", none⟩)), s)
    | some method =>
      if !isUsable method then (.error .unusableMethod, s)
      else
        match id? with
        | some id => answer h id method (paramsOf fields) s
        | none => take h method (paramsOf fields) s

/-- Sends a message that a handler has made. Such a message is a few levels deep, and the integers
in it count characters or have been read, so that only its texts can keep it from being written. -/
def sendMessage (send : Json → σ → σ) (message : Json) : Action σ Unit :=
  match Frame.halves? message.render with
  | some first => throw (.internal first.message)
  | none => modify (send message)

/-- Reads and handles messages up to the end of the input. `send` is what writing a message does to
the state; a message that cannot be written stops the server. The result says why it stopped early,
if it did. -/
def serve (limits : Limits) (h : Handlers σ) (send : Json → σ → σ) :
    List UInt8 → σ → Option Stop × σ
  | [], s => (none, s)
  | b :: bytes, s =>
    match _read : Frame.read limits.reading (b :: bytes) with
    | .finished => (none, s)
    | .unreadable cause => (some (.unreadable cause), s)
    | .refused e rest =>
      match Frame.unwritable? limits.writing (errorMessage .null e) with
      | some cause => (some (.unwritable cause), s)
      | none => serve limits h send rest (send (errorMessage .null e) s)
    | .message fields rest =>
      match handle h fields s with
      | (.ok (some response), s) =>
        match Frame.unwritable? limits.writing response with
        | some cause => (some (.unwritable cause), s)
        | none => serve limits h send rest (send response s)
      | (.ok none, s) => serve limits h send rest s
      | (.error stop, s) => (some stop, s)
termination_by bytes => bytes.length
decreasing_by
  · exact Frame.length_lt_of_refused _read
  · exact Frame.length_lt_of_message _read
  · exact Frame.length_lt_of_message _read

end RacketTree.Rpc

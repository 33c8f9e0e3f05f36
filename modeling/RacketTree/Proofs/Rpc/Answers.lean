import RacketTree.Proofs.Rpc.Frames
import RacketTree.Proofs.Rpc.Writing
import RacketTree.Rpc.Dispatch

/-!
# Every request is answered once

The input is a stream of framed messages (`Stream`). The server answers one message after the other:
`Answers` says which response a message calls for, and `Serves` follows the state of the server
along the messages. Four things stop it before the end of the input (`Stops`): a message that cannot
be read, a method that is an array or an object, a response that cannot be written, and the failure
of a handler that cannot be reported.

`serve_stream` says that the messages before the first one of these are answered as they should be,
and that without one the server reaches the end. `serve_array_method` is a stream of two requests of
which neither is answered.
-/

namespace RacketTree.Rpc

open Rpc.Frame (Hinders)
open Json (field?)

variable {σ : Type}

/-! ## What a message calls for -/

/-- A message that is itself a response. -/
def IsReply (fields : Json.Fields) : Prop :=
  (field? fields "result").isSome ∨ (field? fields "error").isSome

/-- A field that is missing or null. -/
def Absent (fields : Json.Fields) (name : Codes) : Prop :=
  ∀ value, field? fields name = some value → value = .null

/-- A response for an id, with a result or an error and not both. -/
structure IsResponse (id r : Json) : Prop where
  id : r.get? "id" = some id
  either : (r.get? "result").isSome = !(r.get? "error").isSome

/-- The response that a message calls for, if any. -/
inductive Answers (fields : Json.Fields) : Option Json → Prop
  | reply (h : IsReply fields) : Answers fields none
  | invalid {r e : Json} (h : ¬IsReply fields) (hmethod : Absent fields "method")
      (hr : IsResponse ((field? fields "id").getD .null) r) (herror : r.get? "error" = some e)
      (hcode : e.get? "code" = some (.int Error.invalidRequest)) : Answers fields (some r)
  | request {id r : Json} (h : ¬IsReply fields) (hmethod : ¬Absent fields "method")
      (hid : field? fields "id" = some id) (hnull : id ≠ .null) (hr : IsResponse id r) :
      Answers fields (some r)
  | notification (h : ¬IsReply fields) (hmethod : ¬Absent fields "method")
      (hid : Absent fields "id") : Answers fields none

/-- No handler ends the server. -/
structure Handlers.Ordinary (h : Handlers σ) : Prop where
  request : ∀ {name handler}, h.request? name = some handler → ∀ params s status,
    ((handler params).run.run s).1 ≠ .error (.exit status)
  notification : ∀ {name handler}, h.notification? name = some handler → ∀ params s status,
    ((handler params).run.run s).1 ≠ .error (.exit status)

/-- What a response carries beside the id, for what a handler gives. -/
def carried? : Except Failure Json → Option Json
  | .ok result => some result
  | .error (.error e) => some e.toJson
  | .error (.internal text) => some (Error.toJson ⟨Error.internalError, text, none⟩)
  | .error (.exit _) => none

/-- What is said about a failure that is reported. -/
def Failure.text? : Failure → Option Codes
  | error e => some e.message
  | internal text => some text
  | exit _ => none

/-- A message with an id and a method, and not itself a response. -/
structure IsRequest (fields : Json.Fields) (id method : Json) : Prop where
  noReply : ¬IsReply fields
  hasId : field? fields "id" = some id
  idThere : id ≠ .null
  hasMethod : field? fields "method" = some method
  methodThere : method ≠ .null

/-- A message with a method and no id, and not itself a response. -/
structure IsNotification (fields : Json.Fields) (method : Json) : Prop where
  noReply : ¬IsReply fields
  noId : Absent fields "id"
  hasMethod : field? fields "method" = some method
  methodThere : method ≠ .null

/-- A message, or the reason why it cannot be read, stops the server in a state. -/
inductive Stops (limits : Limits) (h : Handlers σ) (s : σ) :
    Except Frame.Unreadable Json.Fields → Stop → Prop
  | unreadable (cause : Frame.Unreadable) : Stops limits h s (.error cause) (.unreadable cause)
  | method {fields : Json.Fields} {method : Json} (hreply : ¬IsReply fields)
      (hmethod : field? fields "method" = some method)
      (hshape : (∃ items, method = .arr items) ∨ ∃ members, method = .obj members) :
      Stops limits h s (.ok fields) .unusableMethod
  /-- There is no room for the id in a response. -/
  | id {fields : Json.Fields} {id : Json} (hreply : ¬IsReply fields)
      (hid : field? fields "id" = some id) (hdeep : limits.writing ≤ id.nesting) :
      Stops limits h s (.ok fields) (.unwritable .nesting)
  /-- What the handler gives cannot be written. -/
  | response {fields : Json.Fields} {id method carried : Json} {handler : Json → Action σ Json}
      {cause : Frame.Unwritable} (hrequest : IsRequest fields id method)
      (hfound : lookup h.request? method = some handler)
      (hcarried : carried? ((handler (paramsOf fields)).run.run s).1 = some carried)
      (hbad : Hinders (limits.writing - 1) carried cause) :
      Stops limits h s (.ok fields) (.unwritable cause)
  /-- The handler of a request fails, and so does the report. -/
  | request {fields : Json.Fields} {id method : Json} {handler : Json → Action σ Json}
      {text : Codes} {s₁ : σ} {failure : Failure} (hrequest : IsRequest fields id method)
      (hfound : lookup h.request? method = some handler)
      (hfails : (handler (paramsOf fields)).run.run s = (.error (.internal text), s₁))
      (hreport : ((h.report method.inText text).run.run s₁).1 = .error failure) :
      Stops limits h s (.ok fields) failure.stop
  /-- The handler of a notification fails, and so does the report. -/
  | notification {fields : Json.Fields} {method : Json} {handler : Json → Action σ Unit}
      {failed failure : Failure} {text : Codes} {s₁ : σ}
      (hnotification : IsNotification fields method)
      (hfound : lookup h.notification? method = some handler)
      (hfails : (handler (paramsOf fields)).run.run s = (.error failed, s₁))
      (htext : failed.text? = some text)
      (hreport : ((h.report method.inText text).run.run s₁).1 = .error failure) :
      Stops limits h s (.ok fields) failure.stop

/-! ## One message -/

theorem absent_iff {fields : Json.Fields} {name : Codes} :
    Absent fields name ↔ present? fields name = none := by
  unfold Absent present?
  cases field? fields name with
  | none => simp
  | some value => cases value <;> simp

theorem present?_eq_some {fields : Json.Fields} {name : Codes} {value : Json}
    (h : present? fields name = some value) : field? fields name = some value ∧ value ≠ .null := by
  unfold present? at h
  split at h
  · cases h
  · rename_i hnull
    refine ⟨h, ?_⟩
    rintro rfl
    exact hnull h

theorem present?_of_field? {fields : Json.Fields} {name : Codes} {value : Json}
    (h : field? fields name = some value) (hnull : value ≠ .null) :
    present? fields name = some value := by
  unfold present?
  rw [h]
  cases value <;> first | rfl | exact absurd rfl hnull

theorem present?_getD (fields : Json.Fields) (name : Codes) :
    (present? fields name).getD .null = (field? fields name).getD .null := by
  unfold present?
  split
  · rename_i hnull
    rw [hnull]
    rfl
  · rfl

theorem isReply_iff {fields : Json.Fields} :
    IsReply fields ↔
      ((field? fields "result").isSome || (field? fields "error").isSome) = true := by
  rw [IsReply, Bool.or_eq_true]

theorem isResponse_result (id result : Json) : IsResponse id (resultMessage id result) :=
  ⟨rfl, rfl⟩

theorem isResponse_error (id : Json) (e : Error) : IsResponse id (errorMessage id e) :=
  ⟨rfl, rfl⟩

theorem lookup_eq_some {α : Type} {table : String → Option α} {method : Json} {entry : α}
    (h : lookup table method = some entry) :
    isUsable method = true ∧ ∃ name, table name = some entry := by
  unfold lookup at h
  split at h
  · obtain ⟨name, -, hname⟩ := Option.bind_eq_some_iff.mp h
    exact ⟨rfl, name, hname⟩
  · cases h

theorem isUsable_eq_false {method : Json} (h : isUsable method = false) :
    (∃ items, method = .arr items) ∨ ∃ members, method = .obj members := by
  cases method with
  | arr items => exact .inl ⟨items, rfl⟩
  | obj members => exact .inr ⟨members, rfl⟩
  | _ => cases h

variable {limits : Limits} {h : Handlers σ} {fields : Json.Fields} {id method : Json} {s : σ}
  {cause : Frame.Unwritable}

theorem IsRequest.handle_eq (hrequest : IsRequest fields id method)
    (husable : isUsable method = true) :
    handle h fields s = answer h id method (paramsOf fields) s := by
  simp only [handle, if_neg (isReply_iff.not.mp hrequest.noReply),
    present?_of_field? hrequest.hasMethod hrequest.methodThere,
    present?_of_field? hrequest.hasId hrequest.idThere, husable, Bool.not_true, Bool.false_eq_true,
    if_false]

theorem IsNotification.handle_eq (hnotification : IsNotification fields method)
    (husable : isUsable method = true) :
    handle h fields s = take h method (paramsOf fields) s := by
  simp only [handle, if_neg (isReply_iff.not.mp hnotification.noReply),
    present?_of_field? hnotification.hasMethod hnotification.methodThere,
    absent_iff.mp hnotification.noId, husable, Bool.not_true, Bool.false_eq_true, if_false]

/-- A report is made, and the reply stands, or it fails and stops the server. -/
theorem reportThen_cases (h : Handlers σ) (method : Json) (text : Codes) (reply : Option Json)
    (s : σ) :
    (reportThen h method text reply s).1 = .ok reply ∧
        (∀ failure, ((h.report method.inText text).run.run s).1 ≠ .error failure) ∨
      ∃ failure, ((h.report method.inText text).run.run s).1 = .error failure ∧
        (reportThen h method text reply s).1 = .error failure.stop := by
  unfold reportThen
  rcases (h.report method.inText text).run.run s with ⟨failure | ⟨⟩, s₁⟩
  · exact .inr ⟨failure, rfl, rfl⟩
  · exact .inl ⟨rfl, nofun⟩

/-- An error with a whole text is hindered by the id alone. -/
theorem hinders_id_of_error {room : Nat} (hroom : 2 ≤ room) {code : Int}
    (hcode : Json.isLong code = false) {text : Codes} (htext : text.hasHalves = false)
    (hbad : Hinders room (errorMessage id ⟨code, text, none⟩) cause) :
    Hinders (room - 1) id cause := by
  refine ((hinders_error_iff (by omega)).mp hbad).resolve_right fun h => ?_
  obtain ⟨hhalves, -⟩ := (hinders_text_iff (by omega) hcode).mp h
  rw [htext] at hhalves
  cases hhalves

/-- The id of a message that has been read is hindered by its nesting alone. -/
theorem stops_of_id (hroom : 2 ≤ limits.writing) (hfits : (Json.obj fields).Fits limits.reading)
    (hwhole : (Json.obj fields).hasHalves = false) (hreply : ¬IsReply fields)
    (hid : field? fields "id" = some id) (hbad : Hinders (limits.writing - 1) id cause) :
    Stops limits h s (.ok fields) (.unwritable cause) := by
  cases hbad with
  | nesting hdeep => exact .id hreply hid (by omega)
  | digits hlong =>
    rw [(hfits.field? hid).short] at hlong
    cases hlong
  | halves hhalves =>
    rw [Json.hasHalves_of_field? hwhole hid] at hhalves
    cases hhalves

/-- The handler of a request is run. The response carries what the handler gives, and nothing else in
it can be a hindrance but the id; or the failure of the handler cannot be reported. -/
theorem answer_found {room : Nat} (hroom : 1 ≤ room) (hord : h.Ordinary)
    {handler : Json → Action σ Json} (hfound : lookup h.request? method = some handler)
    (id params : Json) (s : σ) :
    ∃ carried, carried? ((handler params).run.run s).1 = some carried ∧
      ((∃ r, (answer h id method params s).1 = .ok (some r) ∧ IsResponse id r ∧
          ∀ cause, Hinders room r cause ↔
            Hinders (room - 1) id cause ∨ Hinders (room - 1) carried cause) ∨
        ∃ text s₁ failure, (handler params).run.run s = (.error (.internal text), s₁) ∧
          ((h.report method.inText text).run.run s₁).1 = .error failure ∧
          (answer h id method params s).1 = .error failure.stop) := by
  obtain ⟨-, name, hname⟩ := lookup_eq_some hfound
  have hexit := hord.request hname params s
  simp only [answer, hfound]
  generalize (handler params).run.run s = outcome at hexit ⊢
  rcases outcome with ⟨failure | result, s₁⟩
  · cases failure with
    | error e =>
      exact ⟨_, rfl, .inl ⟨_, rfl, isResponse_error id e, fun cause => hinders_error_iff hroom⟩⟩
    | internal text =>
      refine ⟨_, rfl, ?_⟩
      rcases reportThen_cases h method text
          (some (errorMessage id ⟨Error.internalError, text, none⟩)) s₁ with
        ⟨hok, -⟩ | ⟨failure, hreport, hstop⟩
      · exact .inl ⟨_, hok, isResponse_error _ _, fun cause => hinders_error_iff hroom⟩
      · exact .inr ⟨text, s₁, failure, rfl, hreport, hstop⟩
    | exit status => exact absurd rfl (hexit status)
  · exact ⟨_, rfl, .inl ⟨_, rfl, isResponse_result id result, fun cause => hinders_result_iff hroom⟩⟩

/-- A request gets a response, and the server stops if that cannot be written; or it stops. -/
theorem answer_cases (hord : h.Ordinary) (hroom : 2 ≤ limits.writing)
    (hfits : (Json.obj fields).Fits limits.reading) (hwhole : (Json.obj fields).hasHalves = false)
    (hrequest : IsRequest fields id method) (s : σ) :
    (∃ r, (answer h id method (paramsOf fields) s).1 = .ok (some r) ∧ IsResponse id r ∧
      ∀ cause, Hinders limits.writing r cause →
        Stops limits h s (.ok fields) (.unwritable cause)) ∨
    ∃ stop, (answer h id method (paramsOf fields) s).1 = .error stop ∧
      Stops limits h s (.ok fields) stop := by
  have hid {cause : Frame.Unwritable} (hbad : Hinders (limits.writing - 1) id cause) :
      Stops limits h s (.ok fields) (.unwritable cause) :=
    stops_of_id hroom hfits hwhole hrequest.noReply hrequest.hasId hbad
  cases hfound : lookup h.request? method with
  | none =>
    simp only [answer, hfound]
    refine .inl ⟨_, rfl, isResponse_error _ _, fun cause hbad => hid ?_⟩
    refine hinders_id_of_error hroom (by decide) ?_ hbad
    rw [Codes.hasHalves_append, Codes.hasHalves_ofString,
      Json.hasHalves_inText (Json.hasHalves_of_field? hwhole hrequest.hasMethod)]
    rfl
  | some handler =>
    obtain ⟨carried, hcarried, ⟨r, hok, hr, hbad⟩ | ⟨text, s₁, failure, hrun, hreport, hstop⟩⟩ :=
      answer_found (Nat.le_of_succ_le hroom) hord hfound id (paramsOf fields) s
    · exact .inl ⟨r, hok, hr, fun cause h =>
        ((hbad cause).mp h).elim hid (.response hrequest hfound hcarried)⟩
    · exact .inr ⟨_, hstop, .request hrequest hfound hrun hreport⟩

/-- A notification gets no response, or its failure cannot be reported. -/
theorem take_cases (hord : h.Ordinary) (hnotification : IsNotification fields method) (s : σ) :
    (take h method (paramsOf fields) s).1 = .ok none ∨
      ∃ stop, (take h method (paramsOf fields) s).1 = .error stop ∧
        Stops limits h s (.ok fields) stop := by
  unfold take
  cases hfound : lookup h.notification? method with
  | none => exact .inl rfl
  | some handler =>
    obtain ⟨-, name, hname⟩ := lookup_eq_some hfound
    have hexit := hord.notification hname (paramsOf fields) s
    dsimp only
    rcases hrun : (handler (paramsOf fields)).run.run s with ⟨failure | done, s₁⟩
    · have hreported {text : Codes} (htext : failure.text? = some text) :
          (reportThen h method text none s₁).1 = .ok none ∨
            ∃ stop, (reportThen h method text none s₁).1 = .error stop ∧
              Stops limits h s (.ok fields) stop := by
        rcases reportThen_cases h method text none s₁ with ⟨hok, -⟩ | ⟨failure, hreport, hstop⟩
        · exact .inl hok
        · exact .inr ⟨_, hstop, .notification hnotification hfound hrun htext hreport⟩
      cases failure with
      | error e => exact hreported rfl
      | internal text => exact hreported rfl
      | exit status =>
        rw [hrun] at hexit
        exact absurd rfl (hexit status)
    · exact .inl rfl

/-- A message gets the response that it calls for, and the server stops if that cannot be written;
or the message stops the server. -/
theorem handle_cases (hord : h.Ordinary) (hroom : 2 ≤ limits.writing)
    (hfits : (Json.obj fields).Fits limits.reading) (hwhole : (Json.obj fields).hasHalves = false)
    (s : σ) :
    (∃ reply, (handle h fields s).1 = .ok reply ∧ Answers fields reply ∧
      ∀ r ∈ reply, ∀ cause, Hinders limits.writing r cause →
        Stops limits h s (.ok fields) (.unwritable cause)) ∨
    ∃ stop, (handle h fields s).1 = .error stop ∧ Stops limits h s (.ok fields) stop := by
  by_cases hreply : IsReply fields
  · rw [handle, if_pos (isReply_iff.mp hreply)]
    exact .inl ⟨none, rfl, .reply hreply, nofun⟩
  cases hmethod : present? fields "method" with
  | none =>
    rw [handle, if_neg (isReply_iff.not.mp hreply), hmethod]
    refine .inl ⟨_, rfl, .invalid hreply (absent_iff.mpr hmethod) ?_ rfl rfl, ?_⟩
    · rw [← present?_getD]
      exact isResponse_error _ _
    · rintro r hr cause hbad
      cases hr
      have hid := hinders_id_of_error hroom (by decide) (Codes.hasHalves_ofString _) hbad
      cases hpresent : present? fields "id" with
      | none =>
        rw [hpresent] at hid
        exact absurd hid (Frame.forall_not_hinders_iff.mpr ⟨Json.fits_of_plain rfl rfl, rfl⟩ _)
      | some id =>
        rw [hpresent] at hid
        exact stops_of_id hroom hfits hwhole hreply (present?_eq_some hpresent).1 hid
  | some method =>
    obtain ⟨hfield, hnull⟩ := present?_eq_some hmethod
    have hthere : ¬Absent fields "method" := fun habsent => hnull (habsent _ hfield)
    cases husable : isUsable method with
    | false =>
      rw [handle, if_neg (isReply_iff.not.mp hreply), hmethod]
      dsimp only
      rw [husable]
      exact .inr ⟨_, rfl, .method hreply hfield (isUsable_eq_false husable)⟩
    | true =>
      cases hid : present? fields "id" with
      | none =>
        have habsent := absent_iff.mpr hid
        have hnotification : IsNotification fields method := ⟨hreply, habsent, hfield, hnull⟩
        rw [hnotification.handle_eq husable]
        exact (take_cases hord hnotification s).imp_left fun hok =>
          ⟨none, hok, .notification hreply hthere habsent, nofun⟩
      | some id =>
        obtain ⟨hidField, hidNull⟩ := present?_eq_some hid
        have hrequest : IsRequest fields id method := ⟨hreply, hidField, hidNull, hfield, hnull⟩
        rw [hrequest.handle_eq husable]
        refine (answer_cases hord hroom hfits hwhole hrequest s).imp_left ?_
        rintro ⟨r, hanswer, hr, hstops⟩
        refine ⟨some r, hanswer, .request hreply hthere hidField hidNull hr, ?_⟩
        rintro _ ⟨⟩
        exact hstops

/-- What a message with an id calls for is a response with that id. -/
theorem Answers.exists_response {reply : Option Json} (hanswers : Answers fields reply)
    (hreply : ¬IsReply fields) (hid : field? fields "id" = some id) (hnull : id ≠ .null) :
    ∃ r ∈ reply, r.get? "id" = some id := by
  cases hanswers with
  | reply h => exact absurd h hreply
  | invalid _ _ hr _ _ =>
    have hr := hr.id
    rw [hid] at hr
    exact ⟨_, rfl, hr⟩
  | request _ _ hid' _ hr =>
    cases hid.symm.trans hid'
    exact ⟨_, rfl, hr.id⟩
  | notification _ _ habsent => exact absurd (habsent id hid) hnull

/-- A message that stops the server gives no response that can be written. -/
theorem hinders_of_stops (hord : h.Ordinary) (hroom : 2 ≤ limits.writing) {stop : Stop}
    (hstops : Stops limits h s (.ok fields) stop) {reply : Option Json}
    (hanswers : Answers fields reply) (hok : (handle h fields s).1 = .ok reply) :
    ∃ r ∈ reply, ∃ cause, Hinders limits.writing r cause := by
  cases hstops with
  | method hreply hmethod hshape =>
    rw [handle, if_neg (isReply_iff.not.mp hreply)] at hok
    rcases hshape with ⟨items, rfl⟩ | ⟨members, rfl⟩ <;>
      rw [present?_of_field? hmethod (by simp)] at hok <;> cases hok
  | @id _ id hreply hid hdeep =>
    have hnull : id ≠ .null := by
      rintro rfl
      exact absurd hdeep (by simp only [Json.nesting]; omega)
    obtain ⟨r, hr, hget⟩ := hanswers.exists_response hreply hid hnull
    exact ⟨r, hr, _, .nesting (Nat.lt_of_le_of_lt hdeep (Json.nesting_lt_of_get? hget))⟩
  | @response _ id method carried handler cause hrequest hfound hcarried hbad =>
    rw [hrequest.handle_eq (lookup_eq_some hfound).1] at hok
    obtain ⟨carried', hcarried', ⟨r, hr, -, hhinders⟩ | ⟨_, _, _, -, -, hstop⟩⟩ :=
      answer_found (Nat.le_of_succ_le hroom) hord hfound id (paramsOf fields) s
    · cases hcarried.symm.trans hcarried'
      cases hr.symm.trans hok
      exact ⟨r, rfl, cause, (hhinders cause).mpr (.inr hbad)⟩
    · cases hstop.symm.trans hok
  | @request _ id method handler text s₁ failure hrequest hfound hfails hreport =>
    rw [hrequest.handle_eq (lookup_eq_some hfound).1] at hok
    simp only [answer, hfound, hfails] at hok
    rcases reportThen_cases h method text _ s₁ with ⟨-, hnone⟩ | ⟨_, -, hstop⟩
    · exact absurd hreport (hnone failure)
    · cases hstop.symm.trans hok
  | @notification _ method handler failed failure text s₁ hnotification hfound hfails htext
      hreport =>
    rw [hnotification.handle_eq (lookup_eq_some hfound).1] at hok
    simp only [take, hfound, hfails] at hok
    have hstop : (reportThen h method text none s₁).1 ≠ .ok reply := by
      rcases reportThen_cases h method text none s₁ with ⟨-, hnone⟩ | ⟨_, -, hstop⟩
      · exact absurd hreport (hnone failure)
      · rw [hstop]
        simp
    cases failed <;> cases htext <;> exact absurd hok hstop

/-! ## A stream of messages -/

/-- What a body carries: the fields of an object, or a text that cannot be read. -/
inductive Carries (room : Nat) (body : List UInt8) : Except Frame.Unreadable Json.Fields → Prop
  | message {text : List Char} {fields : Json.Fields} (htext : Text.Utf8.decode? body = .ok text)
      (hparse : Json.parse room text = .ok (.obj fields)) : Carries room body (.ok fields)
  | nesting {text : List Char} (htext : Text.Utf8.decode? body = .ok text)
      (hparse : Json.parse room text = .error .tooDeep) : Carries room body (.error .nesting)
  | digits {text : List Char} {count : Nat} (htext : Text.Utf8.decode? body = .ok text)
      (hparse : Json.parse room text = .error (.tooManyDigits count)) :
      Carries room body (.error (.digits count))

/-- Frames one behind the other, with the messages that they carry. -/
inductive Stream (room : Nat) : List (Except Frame.Unreadable Json.Fields) → List UInt8 → Prop
  | nil : Stream room [] []
  | cons {body frame bytes : List UInt8} {m : Except Frame.Unreadable Json.Fields}
      {ms : List (Except Frame.Unreadable Json.Fields)} (hframe : Frame.IsFrame body frame)
      (hlength : body.length < Frame.lengthBound) (hbody : Carries room body m)
      (hrest : Stream room ms bytes) : Stream room (m :: ms) (frame ++ bytes)

/-- The server takes messages one after the other from one state to another. None of them stops it,
and each gets the reply that it calls for. -/
inductive Serves (limits : Limits) (h : Handlers σ) (send : Json → σ → σ) :
    List Json.Fields → σ → List (Option Json) → σ → Prop
  | nil (s : σ) : Serves limits h send [] s [] s
  | cons {fields : Json.Fields} {messages : List Json.Fields} {s s₁ s' : σ} {reply : Option Json}
      {replies : List (Option Json)} (hhandle : handle h fields s = (.ok reply, s₁))
      (hgoes : ∀ stop, ¬Stops limits h s (.ok fields) stop) (hanswers : Answers fields reply)
      (hrest : Serves limits h send messages (reply.elim s₁ fun r => send r s₁) replies s') :
      Serves limits h send (fields :: messages) s (reply :: replies) s'

variable {room : Nat} {body rest : List UInt8}

theorem read_of_carries (hcarries : Carries room body (.ok fields)) :
    Frame.ofBody room body rest = .message fields rest := by
  cases hcarries with
  | message htext hparse => simp only [Frame.ofBody, htext, hparse]

theorem unreadable_of_carries {cause : Frame.Unreadable}
    (hcarries : Carries room body (.error cause)) :
    Frame.ofBody room body rest = .unreadable cause := by
  cases hcarries with
  | nesting htext hparse => simp only [Frame.ofBody, htext, hparse]
  | digits htext hparse => simp only [Frame.ofBody, htext, hparse]

/-- One turn of the server. -/
theorem serve_eq (limits : Limits) (h : Handlers σ) (send : Json → σ → σ) (input : List UInt8)
    (s : σ) :
    serve limits h send input s =
      match Frame.read limits.reading input with
      | .finished => (none, s)
      | .unreadable cause => (some (.unreadable cause), s)
      | .refused e rest =>
        match Frame.unwritable? limits.writing (errorMessage .null e) with
        | some cause => (some (.unwritable cause), s)
        | none => serve limits h send rest (send (errorMessage .null e) s)
      | .message fields rest =>
        match handle h fields s with
        | (.ok (some r), s₁) =>
          match Frame.unwritable? limits.writing r with
          | some cause => (some (.unwritable cause), s₁)
          | none => serve limits h send rest (send r s₁)
        | (.ok none, s₁) => serve limits h send rest s₁
        | (.error stop, s₁) => (some stop, s₁) := by
  cases input with
  | nil => rw [serve, Frame.read_nil]
  | cons b bytes =>
    rw [serve]
    split
    · rename_i hread
      simp only [hread]
    · rename_i hread
      simp only [hread]
    · rename_i e rest hread
      cases hwrite : Frame.unwritable? limits.writing (errorMessage .null e) <;>
        simp only [hread, hwrite]
    · rename_i fields rest hread
      rcases hhandle : handle h fields s with ⟨_ | _ | r, _⟩
      · simp only [hread, hhandle]
      · simp only [hread, hhandle]
      · cases hwrite : Frame.unwritable? limits.writing r <;> simp only [hread, hhandle, hwrite]

/-- A message that is read gets the reply that it calls for and the server goes on, or it stops the
server. -/
theorem serve_message (hord : h.Ordinary) (hroom : 2 ≤ limits.writing) (send : Json → σ → σ)
    {input : List UInt8} (hread : Frame.read limits.reading input = .message fields rest)
    (hwhole : (Json.obj fields).hasHalves = false) (s : σ) :
    (∃ reply s₁, handle h fields s = (.ok reply, s₁) ∧
      (∀ stop, ¬Stops limits h s (.ok fields) stop) ∧ Answers fields reply ∧
      serve limits h send input s =
        serve limits h send rest (reply.elim s₁ fun r => send r s₁)) ∨
    ∃ stop, Stops limits h s (.ok fields) stop ∧
      (serve limits h send input s).1 = some stop := by
  rw [serve_eq, hread]
  have hcases := handle_cases hord hroom (Frame.fits_of_read hread) hwhole s
  rcases hhandle : handle h fields s with ⟨outcome, s₁⟩
  simp only [hhandle] at hcases ⊢
  rcases hcases with ⟨reply, rfl, hanswers, hbad⟩ | ⟨stop, rfl, hstops⟩
  · have hgoes {stop : Stop} (hstops : Stops limits h s (.ok fields) stop) :
        ∃ r ∈ reply, ∃ cause, Hinders limits.writing r cause :=
      hinders_of_stops hord hroom hstops hanswers (by rw [hhandle])
    cases reply with
    | none =>
      refine .inl ⟨none, s₁, rfl, fun stop hstops => ?_, hanswers, rfl⟩
      obtain ⟨_, hr, _⟩ := hgoes hstops
      cases hr
    | some r =>
      dsimp only
      cases hwrite : Frame.unwritable? limits.writing r with
      | some cause => exact .inr ⟨_, hbad r rfl cause (Frame.hinders_of_unwritable? hwrite), rfl⟩
      | none =>
        refine .inl ⟨some r, s₁, rfl, fun stop hstops => ?_, hanswers, rfl⟩
        obtain ⟨_, ⟨⟩, cause, hhinders⟩ := hgoes hstops
        have hfree := Frame.forall_not_hinders_iff.mpr (Frame.unwritable?_eq_none_iff.mp hwrite)
        exact hfree cause hhinders
  · exact .inr ⟨stop, hstops, rfl⟩

/-- The server goes through a stream of messages without halves up to the first one that stops it,
and to the end if there is none. Every message before gets the reply that it calls for. There is
room for a response with an error. -/
theorem serve_stream (hord : h.Ordinary) (hroom : 2 ≤ limits.writing) (send : Json → σ → σ)
    {ms : List (Except Frame.Unreadable Json.Fields)} {bytes : List UInt8}
    (hstream : Stream limits.reading ms bytes)
    (hwhole : ∀ fields, .ok fields ∈ ms → (Json.obj fields).hasHalves = false) (s : σ) :
    ∃ served replies s', Serves limits h send served s replies s' ∧
      (ms = served.map .ok ∧ serve limits h send bytes s = (none, s') ∨
        ∃ m rest stop, ms = served.map .ok ++ m :: rest ∧ Stops limits h s' m stop ∧
          (serve limits h send bytes s).1 = some stop) := by
  induction hstream generalizing s with
  | nil =>
    refine ⟨[], [], s, .nil s, .inl ⟨rfl, ?_⟩⟩
    rw [serve]
  | @cons body frame bytes m ms hframe hlength hbody hrest ih =>
    have hread := @Frame.read_frame limits.reading _ _ hframe hlength bytes
    cases m with
    | error cause =>
      rw [unreadable_of_carries hbody] at hread
      rw [serve_eq, hread]
      exact ⟨[], [], s, .nil s, .inr ⟨_, ms, _, rfl, .unreadable cause, rfl⟩⟩
    | ok fields =>
      rw [read_of_carries hbody] at hread
      rcases serve_message hord hroom send hread (hwhole fields List.mem_cons_self) s with
        ⟨reply, s₁, hhandle, hgoes, hanswers, hserve⟩ | ⟨stop, hstops, hstop⟩
      · obtain ⟨served, replies, s', hserves, hend⟩ :=
          ih (fun fields hmem => hwhole fields (List.mem_cons_of_mem _ hmem)) _
        refine ⟨fields :: served, reply :: replies, s', .cons hhandle hgoes hanswers hserves, ?_⟩
        rw [hserve]
        rcases hend with ⟨hms, hserved⟩ | ⟨m, rest, stop, hms, hstops⟩
        · exact .inl ⟨congrArg (.ok fields :: ·) hms, hserved⟩
        · exact .inr ⟨m, rest, stop, congrArg (.ok fields :: ·) hms, hstops⟩
      · exact ⟨[], [], s, .nil s, .inr ⟨_, ms, stop, rfl, hstops, hstop⟩⟩

/-! ## Two streams -/

/-- A table with one request, which gives its parameters back. -/
def echoing : Handlers (List Json) where
  request? name := if name = "echo" then some fun params => pure params else none
  notification? _ := none
  report _ _ := pure ()

theorem ordinary_echoing : echoing.Ordinary where
  request hfound params s status := by
    simp only [echoing] at hfound
    split at hfound
    · cases hfound
      exact nofun
    · cases hfound
  notification hfound := by
    cases hfound

/-- The text of a request with an id. -/
def requestText (method : String) : List Char :=
  ("\x7b\"id\":\"a\",\"method\":" ++ method ++ "\x7d").toList

theorem stream_cons {text : List Char} {bytes : List UInt8}
    {ms : List (Except Frame.Unreadable Json.Fields)}
    (hparse : Json.parse room text = .ok (.obj fields))
    (hlength : (Text.Utf8.encode text).length < Frame.lengthBound)
    (hdecode : Text.Utf8.decode? (Text.Utf8.encode text) = .ok text)
    (hrest : Stream room ms bytes) :
    Stream room (.ok fields :: ms) (Frame.ofText (.ofChars text) ++ bytes) := by
  have hframe := Frame.isFrame_ofText (.ofChars text)
  rw [Codes.chars_ofChars] at hframe
  exact .cons hframe hlength (.message hdecode hparse) hrest

theorem parse_echo : Json.parse 2 (requestText "\"echo\"") =
    .ok (.obj [("id", .str "a"), ("method", .str "echo")]) := by
  cbv

theorem parse_array : Json.parse 2 (requestText "[]") =
    .ok (.obj [("id", .str "a"), ("method", .arr [])]) := by
  cbv

theorem stream_echo : Stream 2 [.ok [("id", .str "a"), ("method", .str "echo")]]
    (Frame.ofText (.ofChars (requestText "\"echo\"")) ++ []) :=
  stream_cons parse_echo (by decide +kernel) (by decide +kernel) .nil

/-- A request to give the parameters back is answered, and the input ends. -/
theorem serve_stream_echo :
    serve ⟨2, 2⟩ echoing (fun r sent => sent ++ [r])
      (Frame.ofText (.ofChars (requestText "\"echo\"")) ++ []) [] =
        (none, [resultMessage (.str "a") (.obj [])]) := by
  have hwhole : ∀ fields : Json.Fields,
      Except.ok fields ∈ [(.ok [("id", .str "a"), ("method", .str "echo")] :
        Except Frame.Unreadable Json.Fields)] → (Json.obj fields).hasHalves = false := by
    intro fields hmem
    cases List.mem_singleton.mp hmem
    decide
  obtain ⟨served, replies, s', hserves, ⟨hms, hserve⟩ | ⟨m, rest, stop, hms, hstops, -⟩⟩ :=
    @serve_stream _ ⟨2, 2⟩ _ ordinary_echoing (Nat.le_refl 2) (fun r sent => sent ++ [r]) _ _
      stream_echo hwhole []
  · cases hserves with
    | nil => cases hms
    | cons hhandle _ _ hrest =>
      obtain ⟨hfields, hmessages⟩ := List.cons.inj hms
      cases hfields
      obtain rfl := List.map_eq_nil_iff.mp hmessages.symm
      cases hhandle
      cases hrest
      exact hserve
  · cases served with
    | cons fields served => simp at hms
    | nil =>
      cases hms
      cases hserves
      cases hstops with
      | method _ hmethod hshape =>
        cases hmethod
        rcases hshape with ⟨_, h⟩ | ⟨_, h⟩ <;> cases h
      | id _ hid hdeep =>
        cases hid
        cases hdeep
      | response hrequest hfound hcarried hbad =>
        cases hrequest.hasMethod
        cases hfound
        cases hcarried
        have hfits : (Json.obj []).Fits 1 := ⟨by decide, by decide⟩
        exact absurd hbad (Frame.forall_not_hinders_iff.mpr ⟨hfits, by decide⟩ _)
      | request hrequest hfound hfails hreport => cases hreport
      | notification hnotification hfound hfails htext hreport => cases hreport

/-- A request whose method is an array stops the server: neither it nor the request behind it is
answered. -/
theorem serve_array_method :
    echoing.Ordinary ∧ Stream 2 [.ok [("id", .str "a"), ("method", .arr [])],
        .ok [("id", .str "a"), ("method", .str "echo")]]
      (Frame.ofText (.ofChars (requestText "[]")) ++
        (Frame.ofText (.ofChars (requestText "\"echo\"")) ++ [])) ∧
      serve ⟨2, 2⟩ echoing (fun r sent => sent ++ [r])
        (Frame.ofText (.ofChars (requestText "[]")) ++
          (Frame.ofText (.ofChars (requestText "\"echo\"")) ++ [])) [] =
            (some .unusableMethod, []) := by
  have hstream := stream_cons parse_array (by decide +kernel) (by decide +kernel) stream_echo
  refine ⟨ordinary_echoing, hstream, ?_⟩
  have hread := @Frame.read_frame 2 _ _ (Frame.isFrame_ofText (.ofChars (requestText "[]")))
    (by decide +kernel) (Frame.ofText (.ofChars (requestText "\"echo\"")) ++ [])
  rw [serve_eq, hread, Codes.chars_ofChars,
    read_of_carries (.message (by decide +kernel) parse_array)]
  rfl

end RacketTree.Rpc

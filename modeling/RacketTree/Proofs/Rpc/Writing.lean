import RacketTree.Proofs.Json.Halves
import RacketTree.Proofs.Json.Room
import RacketTree.Rpc.Frame

/-!
# Messages that can be written

Three things keep a message from being written (`Hinders`): it is nested too deeply, an integer in
it is too long, or a text in it has half of a surrogate pair. A response is hindered by the id or by
the result or error in it, for which there is one level less room (`hinders_result_iff`,
`hinders_error_iff`).

What has been read can be written where there is as much room, but for halves
(`unwritable?_of_read`).
-/

namespace RacketTree.Rpc

namespace Frame

variable {room : Nat} {j : Json} {cause : Unwritable}

/-- Something in a value keeps it from being written. -/
inductive Hinders (room : Nat) (j : Json) : Unwritable → Prop
  | nesting (h : room < j.nesting) : Hinders room j .nesting
  | digits (h : j.hasLong = true) : Hinders room j .digits
  | halves (h : j.hasHalves = true) (first : Halves) : Hinders room j (.halves first)

/-- Nothing in a value keeps it from being written. -/
theorem forall_not_hinders_iff :
    (∀ cause, ¬Hinders room j cause) ↔ j.Fits room ∧ j.hasHalves = false := by
  constructor
  · intro h
    refine ⟨⟨Nat.not_lt.mp fun hn => h _ (.nesting hn), ?_⟩, ?_⟩
    · exact Bool.eq_false_iff.mpr fun hl => h _ (.digits hl)
    · exact Bool.eq_false_iff.mpr fun hh => h _ (.halves hh ⟨0, []⟩)
  · rintro ⟨⟨hn, hl⟩, hh⟩ cause h
    cases h with
    | nesting h => exact Nat.not_lt.mpr hn h
    | digits h =>
      rw [hl] at h
      cases h
    | halves h =>
      rw [hh] at h
      cases h

theorem halves?_eq_none_iff {text : Codes} : halves? text = none ↔ text.hasHalves = false := by
  unfold halves?
  cases text.hasHalves <;> simp

/-- What keeps a message from being written is in it. -/
theorem hinders_of_unwritable? (h : unwritable? room j = some cause) : Hinders room j cause := by
  have hexplains := Json.explains_writeError? room j
  unfold unwritable? at h
  split at h <;> rename_i herror <;> rw [herror] at hexplains
  · cases h
    exact .nesting hexplains
  · cases h
    exact .digits hexplains
  · obtain ⟨first, hfirst, rfl⟩ := Option.map_eq_some_iff.mp h
    refine .halves ?_ first
    rw [← Json.hasHalves_render, ← Bool.not_eq_false, ← halves?_eq_none_iff, hfirst]
    nofun

theorem unwritable?_eq_none_iff :
    unwritable? room j = none ↔ j.Fits room ∧ j.hasHalves = false := by
  rw [← Json.writeError?_eq_none_iff, ← Json.hasHalves_render, ← halves?_eq_none_iff, unwritable?]
  cases j.writeError? room with
  | none => simp
  | some e => cases e <;> simp

theorem exists_parse_of_ofBody {body rest rest' : List UInt8} {fields : Json.Fields}
    (h : ofBody room body rest = .message fields rest') :
    ∃ text, Json.parse room text = .ok (.obj fields) := by
  unfold ofBody at h
  split at h
  · cases h
  · rename_i text htext
    split at h <;> cases h
    exact ⟨text, ‹_›⟩

theorem exists_parse_of_read {input rest : List UInt8} {fields : Json.Fields}
    (h : read room input = .message fields rest) :
    ∃ text, Json.parse room text = .ok (.obj fields) := by
  unfold read at h
  split at h
  · cases h
  · cases h
  · split at h
    · cases h
    · split at h
      · exact exists_parse_of_ofBody h
      · split at h
        · cases h
        · exact exists_parse_of_ofBody h

/-- A message fits into the room in which it has been read. -/
theorem fits_of_read {input rest : List UInt8} {fields : Json.Fields}
    (h : read room input = .message fields rest) : (Json.obj fields).Fits room := by
  obtain ⟨text, hparse⟩ := exists_parse_of_read h
  exact Json.fits_of_parse hparse

/-- What has been read can be written where there is as much room, unless it has halves. -/
theorem unwritable?_of_read {reading : Nat} {input rest : List UInt8} {fields : Json.Fields}
    (h : read reading input = .message fields rest) (hroom : reading ≤ room)
    (hhalves : (Json.obj fields).hasHalves = false) : unwritable? room (.obj fields) = none :=
  unwritable?_eq_none_iff.mpr ⟨(fits_of_read h).mono hroom, hhalves⟩

/-! ## Texts, integers and objects -/

theorem hinders_str_iff {text : Codes} :
    Hinders room (.str text) cause ↔ text.hasHalves = true ∧ ∃ first, cause = .halves first := by
  constructor
  · intro h
    cases h with
    | nesting h => cases h
    | digits h => cases h
    | halves h first => exact ⟨h, first, rfl⟩
  · rintro ⟨h, first, rfl⟩
    exact .halves (j := .str text) h first

/-- An object is hindered by its values, for which there is one level less room. -/
theorem hinders_obj_iff {fields : Json.Fields} (hroom : 1 ≤ room)
    (hnames : ∀ f ∈ fields, f.1.hasHalves = false) :
    Hinders room (.obj fields) cause ↔ ∃ f ∈ fields, Hinders (room - 1) f.2 cause := by
  obtain ⟨room, rfl⟩ : ∃ less, room = less + 1 := ⟨room - 1, by omega⟩
  rw [Nat.add_sub_cancel]
  constructor
  · intro h
    cases h with
    | nesting h =>
      by_contra hno
      refine Nat.not_lt.mpr (Json.nesting_obj_le_iff.mpr fun f hf => ?_) h
      exact Nat.not_lt.mp fun hn => hno ⟨f, hf, .nesting hn⟩
    | digits h =>
      by_contra hno
      refine Bool.eq_false_iff.mp (Json.hasLong_obj_eq_false_iff.mpr fun f hf => ?_) h
      exact Bool.eq_false_iff.mpr fun hl => hno ⟨f, hf, .digits hl⟩
    | halves h first =>
      rw [Json.hasHalves, Json.fieldsHaveHalves_eq, List.any_eq_true] at h
      obtain ⟨f, hf, hhalves⟩ := h
      rw [hnames f hf, Bool.false_or] at hhalves
      exact ⟨f, hf, .halves hhalves first⟩
  · rintro ⟨f, hf, h⟩
    cases h with
    | nesting h =>
      refine .nesting (Nat.not_le.mp fun hle => ?_)
      exact Nat.not_lt.mpr (Json.nesting_obj_le_iff.mp hle f hf) h
    | digits h =>
      refine .digits (Bool.eq_true_of_not_eq_false fun hno => ?_)
      rw [Json.hasLong_obj_eq_false_iff.mp hno f hf] at h
      cases h
    | halves h first =>
      refine .halves ?_ first
      rw [Json.hasHalves, Json.fieldsHaveHalves_eq, List.any_eq_true]
      exact ⟨f, hf, by rw [h, Bool.or_true]⟩

theorem hinders_int_iff {n : Int} :
    Hinders room (.int n) cause ↔ Json.isLong n = true ∧ cause = .digits := by
  constructor
  · intro h
    cases h with
    | nesting h => cases h
    | digits h => exact ⟨h, rfl⟩
    | halves h => cases h
  · rintro ⟨h, rfl⟩
    exact .digits (j := .int n) h

end Frame

open Rpc.Frame (Hinders hinders_obj_iff hinders_str_iff hinders_int_iff)

variable {room : Nat} {id : Json} {cause : Frame.Unwritable}

/-- A response with a result is hindered by the id or the result. -/
theorem hinders_result_iff (hroom : 1 ≤ room) {result : Json} :
    Hinders room (resultMessage id result) cause ↔
      Hinders (room - 1) id cause ∨ Hinders (room - 1) result cause := by
  rw [resultMessage, hinders_obj_iff hroom (by simp)]
  simp [hinders_str_iff]

/-- A response with an error is hindered by the id or the error. -/
theorem hinders_error_iff (hroom : 1 ≤ room) {e : Error} :
    Hinders room (errorMessage id e) cause ↔
      Hinders (room - 1) id cause ∨ Hinders (room - 1) e.toJson cause := by
  rw [errorMessage, hinders_obj_iff hroom (by simp)]
  simp [hinders_str_iff]

/-- An error with a short code and without data is hindered by its text alone. -/
theorem hinders_text_iff (hroom : 1 ≤ room) {code : Int} (hcode : Json.isLong code = false)
    {text : Codes} :
    Hinders room (Error.toJson ⟨code, text, none⟩) cause ↔
      text.hasHalves = true ∧ ∃ first, cause = .halves first := by
  rw [Error.toJson]
  dsimp only
  rw [hinders_obj_iff hroom (by simp)]
  simp [hinders_str_iff, hinders_int_iff, hcode]

end RacketTree.Rpc

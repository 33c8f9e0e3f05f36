import RacketTree.Json.Printer
import RacketTree.Datum.Value

/-!
# Values that can be written

Half of a surrogate pair cannot be written to a stream. The text of a value has one exactly if a
string or a name in the value has one (`hasHalves_render`): numbers, words and escapes are made of
characters.
-/

namespace RacketTree

namespace Codes

@[simp] theorem hasHalves_append (s t : Codes) :
    (s ++ t).hasHalves = (s.hasHalves || t.hasHalves) :=
  List.any_append

theorem any_isHalf_map_toNat (text : List Char) : (text.map Char.toNat).any isHalf = false := by
  simp [isHalf_toNat]

@[simp] theorem hasHalves_ofChars (text : List Char) : (ofChars text).hasHalves = false :=
  any_isHalf_map_toNat text

@[simp] theorem hasHalves_ofString (text : String) : (ofString text).hasHalves = false :=
  hasHalves_ofChars _

end Codes

namespace Json

open Codes (isHalf)

mutual

/-- A string or a name in the value has half of a surrogate pair. -/
def hasHalves : Json → Bool
  | str text => text.hasHalves
  | arr items => anyHalves items
  | obj fields => fieldsHaveHalves fields
  | _ => false

/-- One of several values has half of a surrogate pair. -/
def anyHalves : List Json → Bool
  | [] => false
  | item :: items => item.hasHalves || anyHalves items

/-- One of several fields has half of a surrogate pair. -/
def fieldsHaveHalves : Fields → Bool
  | [] => false
  | (name, value) :: fields => name.hasHalves || value.hasHalves || fieldsHaveHalves fields

end

theorem anyHalves_eq (items : List Json) : anyHalves items = items.any hasHalves := by
  induction items with
  | nil => rfl
  | cons item items ih => rw [anyHalves, ih, List.any_cons]

theorem fieldsHaveHalves_eq (fields : Fields) :
    fieldsHaveHalves fields = fields.any fun f => f.1.hasHalves || f.2.hasHalves := by
  induction fields with
  | nil => rfl
  | cons f fields ih => rw [fieldsHaveHalves, ih, List.any_cons]

theorem field?_cons (key : Codes) (value : Json) (fields : Fields) (name : Codes) :
    field? ((key, value) :: fields) name =
      if key = name then some value else field? fields name := by
  by_cases hkey : key = name
  · simp [field?, hkey]
  · simp [field?, hkey]

/-- A field of an object that can be written can be written. -/
theorem hasHalves_of_field? {fields : Fields} {name : Codes} {value : Json}
    (h : (obj fields).hasHalves = false) (hfield : field? fields name = some value) :
    value.hasHalves = false := by
  rw [hasHalves] at h
  induction fields with
  | nil => cases hfield
  | cons f fields ih =>
    obtain ⟨key, first⟩ := f
    simp only [fieldsHaveHalves, Bool.or_eq_false_iff] at h
    rw [field?_cons] at hfield
    split at hfield
    · cases hfield
      exact h.1.2
    · exact ih h.2 hfield

/-! ## The text of a value -/

theorem any_isHalf_escapeRaw (code : Nat) : (escapeRaw code).any isHalf = isHalf code := by
  unfold escapeRaw
  split
  · rename_i escaped h
    rw [Codes.any_isHalf_map_toNat, eq_comm]
    have hcode : code < 0x80 := by
      rw [escape?] at h
      split at h
      · rename_i letter hletter
        unfold shortEscape? at hletter
        split at hletter <;> first
          | decide
          | cases hletter
      · by_cases hplain : 0x20 ≤ code
        · simp [hplain] at h
        · omega
    simp only [isHalf, Bool.and_eq_false_imp, decide_eq_true_eq, decide_eq_false_iff_not]
    omega
  · simp

theorem any_isHalf_quoteRaw (text : Codes) : (quoteRaw text).any isHalf = text.hasHalves := by
  have hmark : isHalf 0x22 = false := rfl
  simp only [quoteRaw, List.cons_append, List.any_cons, List.any_append, List.any_nil, hmark,
    List.any_flatMap, any_isHalf_escapeRaw, Bool.false_or, Bool.or_false, Codes.hasHalves]

theorem any_isHalf_word (text : List Char) (rest : List Nat) :
    (word text ++ rest).any isHalf = rest.any isHalf := by
  rw [List.any_append, word, Codes.any_isHalf_map_toNat, Bool.false_or]

mutual

theorem any_isHalf_write : (j : Json) → (rest : List Nat) →
    (j.write rest).any isHalf = (j.hasHalves || rest.any isHalf)
  | null, rest => any_isHalf_word _ rest
  | bool true, rest => any_isHalf_word _ rest
  | bool false, rest => any_isHalf_word _ rest
  | int n, rest => any_isHalf_word _ rest
  | float x, rest => any_isHalf_word _ rest
  | str text, rest => by
    rw [write, List.any_append, any_isHalf_quoteRaw, hasHalves]
  | arr items, rest => by
    rw [write, List.any_cons, any_isHalf_writeItems, hasHalves]
    rfl
  | obj fields, rest => by
    rw [write, List.any_cons, any_isHalf_writeFields, hasHalves]
    rfl

theorem any_isHalf_writeItems : (items : List Json) → (rest : List Nat) →
    (writeItems items rest).any isHalf = (anyHalves items || rest.any isHalf)
  | [], rest => by
    rw [writeItems, anyHalves, Bool.false_or]
  | [item], rest => by
    rw [writeItems, any_isHalf_write, anyHalves, anyHalves, Bool.or_false]
  | item :: next :: items, rest => by
    have hcomma : ((0x2C :: 0x20 :: writeItems (next :: items) rest)).any isHalf =
        (writeItems (next :: items) rest).any isHalf := rfl
    rw [writeItems, any_isHalf_write, hcomma, any_isHalf_writeItems (next :: items),
      ← Bool.or_assoc]
    · rfl
    · exact List.cons_ne_nil _ _

theorem any_isHalf_writeFields : (fields : Fields) → (rest : List Nat) →
    (writeFields fields rest).any isHalf = (fieldsHaveHalves fields || rest.any isHalf)
  | [], rest => by
    rw [writeFields, fieldsHaveHalves, Bool.false_or]
  | [(name, value)], rest => by
    have hcolon : (0x3A :: 0x20 :: value.write rest).any isHalf = (value.write rest).any isHalf :=
      rfl
    rw [writeFields, List.any_append, any_isHalf_quoteRaw, hcolon, any_isHalf_write,
      fieldsHaveHalves, fieldsHaveHalves, Bool.or_false, Bool.or_assoc]
  | (name, value) :: next :: fields, rest => by
    have hcolon (text : List Nat) : (0x3A :: 0x20 :: text).any isHalf = text.any isHalf := rfl
    have hcomma (text : List Nat) : (0x2C :: 0x20 :: text).any isHalf = text.any isHalf := rfl
    rw [writeFields, List.any_append, any_isHalf_quoteRaw, hcolon, any_isHalf_write, hcomma,
      any_isHalf_writeFields (next :: fields), ← Bool.or_assoc, ← Bool.or_assoc]
    · rfl
    · exact List.cons_ne_nil _ _

end

/-- The text of a value has half of a surrogate pair exactly if the value has. -/
theorem hasHalves_render (j : Json) : j.render.hasHalves = j.hasHalves := by
  rw [render, Codes.hasHalves, any_isHalf_write, List.any_nil, Bool.or_false]

/-- A value in running text. -/
theorem hasHalves_inText {j : Json} (h : j.hasHalves = false) : j.inText.hasHalves = false := by
  cases j with
  | str text => exact h
  | _ => exact Codes.hasHalves_ofChars _

end Json

end RacketTree

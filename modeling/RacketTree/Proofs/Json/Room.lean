import Mathlib.Data.Nat.Digits.Lemmas
import RacketTree.Json.Parser
import RacketTree.Json.Printer

/-!
# Room for values

A value fits into a room if its arrays and objects are not nested more deeply than that and no
integer in it is too long (`Json.Fits`). A value is written exactly if it fits
(`writeError?_eq_none_iff`), and what has been read fits into the room in which it has been read
(`fits_of_parse`): so what has been read can be written where there is as much room. How much room
there is matters for nothing but what is too deep (`parse_of_le`).
-/

namespace RacketTree

namespace Json

mutual

/-- The greatest number of arrays and objects in one another. -/
def nesting : Json → Nat
  | arr items => itemsNesting items + 1
  | obj fields => fieldsNesting fields + 1
  | _ => 0

/-- The greatest nesting among several values. -/
def itemsNesting : List Json → Nat
  | [] => 0
  | item :: items => max item.nesting (itemsNesting items)

/-- The greatest nesting among several fields. -/
def fieldsNesting : Fields → Nat
  | [] => 0
  | (_, value) :: fields => max value.nesting (fieldsNesting fields)

end

mutual

/-- An integer in the value has more digits than are written. -/
def hasLong : Json → Bool
  | int n => isLong n
  | arr items => anyLong items
  | obj fields => fieldsHaveLong fields
  | _ => false

/-- An integer in one of several values has more digits than are written. -/
def anyLong : List Json → Bool
  | [] => false
  | item :: items => item.hasLong || anyLong items

/-- An integer in one of several fields has more digits than are written. -/
def fieldsHaveLong : Fields → Bool
  | [] => false
  | (_, value) :: fields => value.hasLong || fieldsHaveLong fields

end

/-- There is room for the nesting of the value, and no integer in it is too long. -/
structure Fits (room : Nat) (j : Json) : Prop where
  nesting : j.nesting ≤ room
  short : j.hasLong = false

variable {room : Nat} {j : Json} {items : List Json} {fields : Fields}

theorem Fits.mono {room' : Nat} (h : j.Fits room) (hle : room ≤ room') : j.Fits room' :=
  ⟨Nat.le_trans h.nesting hle, h.short⟩

theorem fits_of_plain (hn : j.nesting = 0) (hl : j.hasLong = false) : j.Fits room :=
  ⟨hn ▸ Nat.zero_le room, hl⟩

theorem itemsNesting_le_iff : itemsNesting items ≤ room ↔ ∀ item ∈ items, item.nesting ≤ room := by
  induction items with
  | nil => simp [itemsNesting]
  | cons item items ih => rw [itemsNesting, Nat.max_le, ih, List.forall_mem_cons]

theorem anyLong_eq_false_iff : anyLong items = false ↔ ∀ item ∈ items, item.hasLong = false := by
  induction items with
  | nil => simp [anyLong]
  | cons item items ih => rw [anyLong, Bool.or_eq_false_iff, ih, List.forall_mem_cons]

/-- An object is nested as the array of its values. -/
theorem nesting_obj (fields : Fields) :
    (obj fields).nesting = (arr (fields.map Prod.snd)).nesting := by
  have h : fieldsNesting fields = itemsNesting (fields.map Prod.snd) := by
    induction fields with
    | nil => rfl
    | cons f fields ih => rw [fieldsNesting, List.map_cons, itemsNesting, ih]
  rw [nesting, nesting, h]

/-- The integers in an object are those in the array of its values. -/
theorem hasLong_obj (fields : Fields) :
    (obj fields).hasLong = (arr (fields.map Prod.snd)).hasLong := by
  have h : fieldsHaveLong fields = anyLong (fields.map Prod.snd) := by
    induction fields with
    | nil => rfl
    | cons f fields ih => rw [fieldsHaveLong, List.map_cons, anyLong, ih]
  rw [hasLong, hasLong, h]

theorem fits_arr_iff : (arr items).Fits (room + 1) ↔ ∀ item ∈ items, item.Fits room := by
  constructor
  · rintro ⟨hn, hl⟩ item hitem
    exact ⟨itemsNesting_le_iff.mp (Nat.le_of_succ_le_succ hn) item hitem,
      anyLong_eq_false_iff.mp hl item hitem⟩
  · intro h
    exact ⟨Nat.succ_le_succ (itemsNesting_le_iff.mpr fun item hitem => (h item hitem).nesting),
      anyLong_eq_false_iff.mpr fun item hitem => (h item hitem).short⟩

theorem nesting_obj_le_iff :
    (obj fields).nesting ≤ room + 1 ↔ ∀ f ∈ fields, f.2.nesting ≤ room := by
  rw [nesting_obj, nesting, Nat.add_le_add_iff_right, itemsNesting_le_iff, List.forall_mem_map]

theorem hasLong_obj_eq_false_iff :
    (obj fields).hasLong = false ↔ ∀ f ∈ fields, f.2.hasLong = false := by
  rw [hasLong_obj, hasLong, anyLong_eq_false_iff, List.forall_mem_map]

theorem fits_obj_iff : (obj fields).Fits (room + 1) ↔ ∀ f ∈ fields, f.2.Fits room := by
  constructor
  · rintro ⟨hn, hl⟩ f hf
    exact ⟨nesting_obj_le_iff.mp hn f hf, hasLong_obj_eq_false_iff.mp hl f hf⟩
  · intro h
    exact ⟨nesting_obj_le_iff.mpr fun f hf => (h f hf).nesting,
      hasLong_obj_eq_false_iff.mpr fun f hf => (h f hf).short⟩

theorem mem_of_field? {name : Codes} {value : Json} (h : field? fields name = some value) :
    ∃ f ∈ fields, f.2 = value := by
  obtain ⟨f, hfind, hvalue⟩ := Option.map_eq_some_iff.mp h
  exact ⟨f, List.mem_of_find?_eq_some hfind, hvalue⟩

/-- The fields of an object that fits have one level less. -/
theorem Fits.field? {name : Codes} {value : Json} (h : (obj fields).Fits room)
    (hfield : Json.field? fields name = some value) : value.Fits (room - 1) := by
  obtain ⟨f, hf, rfl⟩ := mem_of_field? hfield
  have hroom : 1 ≤ room := Nat.le_trans (Nat.succ_le_succ (Nat.zero_le _)) h.nesting
  rw [← Nat.sub_add_cancel hroom] at h
  exact fits_obj_iff.mp h f hf

theorem nesting_lt_of_get? {name : Codes} {value : Json} (h : j.get? name = some value) :
    value.nesting < j.nesting := by
  unfold get? at h
  split at h
  · rename_i fields
    obtain ⟨f, hf, rfl⟩ := mem_of_field? h
    exact Nat.lt_succ_of_le (nesting_obj_le_iff.mp (Nat.le_refl _) f hf)
  · cases h

/-! ## What is written -/

/-- What is said by a reason not to write a value, or by its absence. -/
def Explains (room : Nat) (j : Json) : Option WriteError → Prop
  | none => j.Fits room
  | some .tooDeep => room < j.nesting
  | some .tooManyDigits => j.hasLong = true

/-- What is said by a reason not to write one of several values, or by its absence. -/
def ExplainsAll (room : Nat) (items : List Json) : Option WriteError → Prop
  | none => ∀ item ∈ items, item.Fits room
  | some e => ∃ item ∈ items, Explains room item (some e)

theorem ExplainsAll.cons {e e' : Option WriteError} (h : Explains room j e)
    (hall : ExplainsAll room items e') : ExplainsAll room (j :: items) (e.or e') := by
  cases e with
  | some e => exact ⟨j, List.mem_cons_self, h⟩
  | none =>
    cases e' with
    | none => exact List.forall_mem_cons.mpr ⟨h, hall⟩
    | some e =>
      obtain ⟨item, hitem, hhinders⟩ := hall
      exact ⟨item, List.mem_cons_of_mem _ hitem, hhinders⟩

theorem ExplainsAll.arr {e : Option WriteError} (h : ExplainsAll room items e) :
    Explains (room + 1) (arr items) e := by
  cases e with
  | none => exact fits_arr_iff.mpr h
  | some e =>
    obtain ⟨item, hitem, hexplains⟩ := h
    cases e with
    | tooDeep =>
      refine Nat.succ_lt_succ (Nat.not_le.mp fun hle => ?_)
      exact Nat.not_lt.mpr (itemsNesting_le_iff.mp hle item hitem) hexplains
    | tooManyDigits =>
      refine Bool.eq_true_of_not_eq_false fun hall => ?_
      exact Bool.eq_false_iff.mp (anyLong_eq_false_iff.mp hall item hitem) hexplains

theorem ExplainsAll.obj {e : Option WriteError} (h : ExplainsAll room (fields.map Prod.snd) e) :
    Explains (room + 1) (obj fields) e := by
  have harr := h.arr
  cases e with
  | none => exact fits_obj_iff.mpr (List.forall_mem_map.mp h)
  | some e =>
    cases e with
    | tooDeep => exact Nat.lt_of_lt_of_eq harr (nesting_obj fields).symm
    | tooManyDigits => exact (hasLong_obj fields).trans harr

mutual

theorem explains_writeError? : (room : Nat) → (j : Json) → Explains room j (writeError? room j)
  | _, null | _, bool _ | _, float _ | _, str _ => fits_of_plain rfl rfl
  | _, int n => by
    rw [writeError?]
    split
    · assumption
    · exact fits_of_plain rfl (Bool.eq_false_iff.mpr ‹_›)
  | 0, arr _ | 0, obj _ => Nat.succ_pos _
  | room + 1, arr items => (explains_itemsError? room items).arr
  | room + 1, obj fields => (explains_fieldsError? room fields).obj

theorem explains_itemsError? :
    (room : Nat) → (items : List Json) → ExplainsAll room items (itemsError? room items)
  | _, [] => List.forall_mem_nil _
  | room, item :: items => .cons (explains_writeError? room item) (explains_itemsError? room items)

theorem explains_fieldsError? : (room : Nat) → (fields : Fields) →
    ExplainsAll room (fields.map Prod.snd) (fieldsError? room fields)
  | _, [] => List.forall_mem_nil _
  | room, (_, value) :: fields =>
    .cons (explains_writeError? room value) (explains_fieldsError? room fields)

end

/-- A value is written exactly if there is room for it and its integers are short. -/
theorem writeError?_eq_none_iff : writeError? room j = none ↔ j.Fits room := by
  have h := explains_writeError? room j
  cases he : writeError? room j with
  | none =>
    rw [he] at h
    exact iff_of_true rfl h
  | some e =>
    rw [he] at h
    refine iff_of_false (Option.some_ne_none e) fun hfits => ?_
    cases e with
    | tooDeep => exact Nat.not_lt.mpr hfits.nesting h
    | tooManyDigits => exact Bool.eq_false_iff.mp hfits.short h

/-! ## What has been read -/

theorem isLong_eq_false_of_lt {n : Int} {count : Nat} (hn : n.natAbs < 10 ^ count)
    (hpos : 0 < count) (hcount : count ≤ Number.maxDigits) : isLong n = false :=
  decide_eq_false (Nat.not_lt.mpr (Nat.le_trans (Nat.toDigits_length 10 _ _ hpos hn) hcount))

end Json

theorem Decimal.ofDigitChars_lt {cs : List Char} (h : ∀ c ∈ cs, isDigit c = true) :
    ofDigitChars cs < 10 ^ cs.length := by
  have hfrom (n : Nat) :
      cs.foldl (fun n c => n * 10 + (c.toNat - 48)) n < (n + 1) * 10 ^ cs.length := by
    induction cs generalizing n with
    | nil => simp
    | cons c cs ih =>
      obtain ⟨hc, hcs⟩ := List.forall_mem_cons.mp h
      have hdigit : c.toNat - 48 < 10 := by
        simp only [isDigit, Bool.and_eq_true, decide_eq_true_eq, Char.le_def,
          UInt32.le_iff_toNat_le] at hc
        have hmost : c.toNat ≤ 57 := hc.2
        omega
      calc cs.foldl (fun n c => n * 10 + (c.toNat - 48)) (n * 10 + (c.toNat - 48))
          < (n * 10 + (c.toNat - 48) + 1) * 10 ^ cs.length := ih hcs _
        _ ≤ ((n + 1) * 10) * 10 ^ cs.length := Nat.mul_le_mul_right _ (by omega)
        _ = (n + 1) * 10 ^ (cs.length + 1) := by rw [Nat.pow_succ', Nat.mul_assoc]
  have hzero := hfrom 0
  rwa [Nat.zero_add, Nat.one_mul] at hzero

namespace Json.Parser

variable {fuel depth : Nat} {cs rest : List Char} {j : Json}

theorem exists_of_bind {ε α β : Type} {x : Except ε α} {f : α → Except ε β} {b : β}
    (h : (x >>= f) = .ok b) : ∃ a, x = .ok a ∧ f a = .ok b := by
  cases x with
  | error e => cases h
  | ok a => exact ⟨a, rfl, h⟩

theorem isDigit_of_mem_wholePart {c : Char} (h : c ∈ wholePart cs) :
    Decimal.isDigit c = true := by
  unfold wholePart at h
  split at h
  · rw [List.mem_singleton.mp h]
    rfl
  · exact List.all_eq_true.mp List.all_takeWhile c h

theorem fits_of_unsigned {negative : Bool} (h : unsigned negative cs = .ok (j, rest))
    (room : Nat) : j.Fits room := by
  unfold unsigned at h
  dsimp only at h
  split at h
  · cases h
  · rename_i hne
    split at h
    · split at h
      · cases h
      · rename_i hlength
        cases h
        have hlt := Decimal.ofDigitChars_lt fun c hc => @isDigit_of_mem_wholePart cs c hc
        have hpos : 0 < (wholePart cs).length := by
          rwa [List.length_pos_iff, ← List.isEmpty_eq_false_iff, ← Bool.not_eq_true]
        refine fits_of_plain rfl (isLong_eq_false_of_lt ?_ hpos (Nat.not_lt.mp hlength))
        split
        · rwa [Int.natAbs_neg, Int.natAbs_natCast]
        · rwa [Int.natAbs_natCast]
    · split at h
      · cases h
        exact fits_of_plain rfl rfl
      · cases h

theorem fits_of_number (h : number cs = .ok (j, rest)) (room : Nat) : j.Fits room := by
  unfold number at h
  split at h
  · exact fits_of_unsigned h room
  · exact fits_of_unsigned h room

theorem fits_of_word? (h : word? cs = some (j, rest)) (room : Nat) : j.Fits room := by
  obtain ⟨⟨word, value⟩, hmem, hvalue⟩ := List.exists_of_findSome?_eq_some h
  obtain ⟨_, -, hpair⟩ := Option.map_eq_some_iff.mp hvalue
  cases hpair
  have hall : ([("null", .null), ("true", .bool true), ("false", .bool false),
      ("NaN", .float .notANumber), ("Infinity", .float (.infinite false)),
      ("-Infinity", .float (.infinite true))] : List (String × Json)).all
        (fun p => p.2.nesting == 0 && !p.2.hasLong) = true := by
    rfl
  have hplain := List.all_eq_true.mp hall _ hmem
  rw [Bool.and_eq_true, beq_iff_eq, Bool.not_eq_true'] at hplain
  exact fits_of_plain hplain.1 hplain.2

theorem mem_setField {done : Fields} {name : Codes} {value : Json} {f : Codes × Json}
    (h : f ∈ setField done name value) : f ∈ done ∨ f.2 = value := by
  unfold setField at h
  split at h
  · obtain ⟨g, hg, hf⟩ := List.mem_map.mp h
    split at hf
    · exact .inr (hf ▸ rfl)
    · exact .inl (hf ▸ hg)
  · rcases List.mem_append.mp h with h | h
    · exact .inl h
    · rw [List.mem_singleton.mp h]
      exact .inr rfl

/-- What the steps of reading make fits, if what has been read before fits. -/
structure Fitting (fuel : Nat) : Prop where
  value : ∀ {depth cs j rest}, value fuel depth cs = .ok (j, rest) → j.Fits depth
  items : ∀ {depth done cs j rest}, (∀ item ∈ done, item.Fits depth) →
    items fuel depth done cs = .ok (j, rest) → j.Fits (depth + 1)
  fields : ∀ {depth done cs j rest}, (∀ f ∈ done, f.2.Fits depth) →
    fields fuel depth done cs = .ok (j, rest) → j.Fits (depth + 1)

theorem fits_of_value (h : Fitting fuel) (hvalue : value (fuel + 1) depth cs = .ok (j, rest)) :
    j.Fits depth := by
  unfold value at hvalue
  split at hvalue
  · obtain ⟨_, -, hread⟩ := exists_of_bind hvalue
    cases hread
    exact fits_of_plain rfl rfl
  · cases depth with
    | zero => cases hvalue
    | succ depth =>
      dsimp only at hvalue
      split at hvalue
      · cases hvalue
        exact fits_arr_iff.mpr (List.forall_mem_nil _)
      · exact h.items (List.forall_mem_nil _) hvalue
  · cases depth with
    | zero => cases hvalue
    | succ depth =>
      dsimp only at hvalue
      split at hvalue
      · cases hvalue
        exact fits_obj_iff.mpr (List.forall_mem_nil _)
      · exact h.fields (List.forall_mem_nil _) hvalue
  · split at hvalue
    · rename_i result hword
      cases hvalue
      exact fits_of_word? hword depth
    · exact fits_of_number hvalue depth

theorem fits_of_items (h : Fitting fuel) {done : List Json}
    (hdone : ∀ item ∈ done, item.Fits depth)
    (hitems : items (fuel + 1) depth done cs = .ok (j, rest)) : j.Fits (depth + 1) := by
  unfold items at hitems
  obtain ⟨⟨item, behind⟩, hitem, hread⟩ := exists_of_bind hitems
  have hall : ∀ x ∈ item :: done, x.Fits depth := List.forall_mem_cons.mpr ⟨h.value hitem, hdone⟩
  dsimp only at hread
  split at hread
  · exact h.items hall hread
  · cases hread
    exact fits_arr_iff.mpr fun x hx => hall x (List.mem_reverse.mp hx)
  · cases hread

theorem fits_of_fields (h : Fitting fuel) {done : Fields}
    (hdone : ∀ f ∈ done, f.2.Fits depth)
    (hfields : fields (fuel + 1) depth done cs = .ok (j, rest)) : j.Fits (depth + 1) := by
  unfold fields at hfields
  split at hfields
  · obtain ⟨⟨name, behind⟩, -, hread⟩ := exists_of_bind hfields
    dsimp only at hread
    split at hread
    · obtain ⟨⟨value, behind⟩, hvalue, hread⟩ := exists_of_bind hread
      have hall : ∀ f ∈ setField done name value, f.2.Fits depth := by
        intro f hf
        rcases mem_setField hf with hf | hf
        · exact hdone f hf
        · rw [hf]
          exact h.value hvalue
      dsimp only at hread
      split at hread
      · exact h.fields hall hread
      · cases hread
        exact fits_obj_iff.mpr hall
      · cases hread
    · cases hread
  · cases hfields

theorem fitting (fuel : Nat) : Fitting fuel := by
  induction fuel with
  | zero =>
    refine ⟨fun h => ?_, fun _ h => ?_, fun _ h => ?_⟩
    · rw [value] at h
      cases h
    · rw [items] at h
      cases h
    · rw [fields] at h
      cases h
  | succ fuel ih => exact ⟨fits_of_value ih, fits_of_items ih, fits_of_fields ih⟩

/-! ## More room -/

/-- A second reading is the first one, unless that is too deep. -/
def Keeps {α : Type} (r r' : Reading α) : Prop :=
  r ≠ .error .tooDeep → r' = r

theorem keeps_self {α : Type} (r : Reading α) : Keeps r r :=
  fun _ => rfl

theorem Keeps.bind {α β : Type} {x x' : Reading α} {f f' : α → Reading β} (hx : Keeps x x')
    (hf : ∀ a, Keeps (f a) (f' a)) : Keeps (x >>= f) (x' >>= f') := by
  intro h
  cases x with
  | error e =>
    rw [hx fun he => h (by rw [he]; rfl)]
    rfl
  | ok a =>
    rw [hx nofun]
    exact hf a h

/-- More room changes nothing for the steps of reading, unless something is too deep. -/
structure Steady (fuel : Nat) : Prop where
  value : ∀ {depth depth'} cs, depth ≤ depth' → Keeps (value fuel depth cs) (value fuel depth' cs)
  items : ∀ {depth depth'} done cs, depth ≤ depth' →
    Keeps (items fuel depth done cs) (items fuel depth' done cs)
  fields : ∀ {depth depth'} done cs, depth ≤ depth' →
    Keeps (fields fuel depth done cs) (fields fuel depth' done cs)

theorem keeps_value (h : Steady fuel) {depth depth' : Nat} (hle : depth ≤ depth') :
    Keeps (value (fuel + 1) depth cs) (value (fuel + 1) depth' cs) := by
  unfold value
  dsimp only
  split
  · exact keeps_self _
  · cases depth with
    | zero => exact fun h => absurd rfl h
    | succ depth =>
      obtain ⟨depth', rfl⟩ := Nat.exists_eq_add_one_of_ne_zero (Nat.ne_zero_of_lt hle)
      dsimp only
      split
      · exact keeps_self _
      · exact h.items _ _ (Nat.le_of_succ_le_succ hle)
  · cases depth with
    | zero => exact fun h => absurd rfl h
    | succ depth =>
      obtain ⟨depth', rfl⟩ := Nat.exists_eq_add_one_of_ne_zero (Nat.ne_zero_of_lt hle)
      dsimp only
      split
      · exact keeps_self _
      · exact h.fields _ _ (Nat.le_of_succ_le_succ hle)
  · exact keeps_self _

theorem keeps_items (h : Steady fuel) {done : List Json} {depth depth' : Nat}
    (hle : depth ≤ depth') :
    Keeps (items (fuel + 1) depth done cs) (items (fuel + 1) depth' done cs) := by
  unfold items
  refine (h.value cs hle).bind fun (item, behind) => ?_
  dsimp only
  split
  · exact h.items _ _ hle
  · exact keeps_self _
  · exact keeps_self _

theorem keeps_fields (h : Steady fuel) {done : Fields} {depth depth' : Nat}
    (hle : depth ≤ depth') :
    Keeps (fields (fuel + 1) depth done cs) (fields (fuel + 1) depth' done cs) := by
  unfold fields
  dsimp only
  split
  · refine (keeps_self _).bind fun (name, behind) => ?_
    dsimp only
    split
    · refine (h.value _ hle).bind fun (value, behind) => ?_
      dsimp only
      split
      · exact h.fields _ _ hle
      · exact keeps_self _
      · exact keeps_self _
    · exact keeps_self _
  · exact keeps_self _

theorem steady (fuel : Nat) : Steady fuel := by
  induction fuel with
  | zero =>
    refine ⟨fun _ _ => ?_, fun _ _ _ => ?_, fun _ _ _ => ?_⟩
    · rw [value, value]
      exact keeps_self _
    · rw [items, items]
      exact keeps_self _
    · rw [fields, fields]
      exact keeps_self _
  | succ fuel ih =>
    exact ⟨fun _ => keeps_value ih, fun _ _ => keeps_items ih, fun _ _ => keeps_fields ih⟩

end Json.Parser

/-- What has been read fits into the room in which it has been read. -/
theorem Json.fits_of_parse {room : Nat} {text : List Char} {j : Json}
    (h : parse room text = .ok j) : j.Fits room := by
  obtain ⟨⟨value, rest⟩, hvalue, hread⟩ := Parser.exists_of_bind h
  dsimp only at hread
  split at hread
  · cases hread
    exact (Parser.fitting _).value hvalue
  · cases hread

/-- More room changes nothing for a text that is not too deep. -/
theorem Json.parse_of_le {room room' : Nat} {text : List Char} (hle : room ≤ room')
    (h : parse room text ≠ .error .tooDeep) : parse room' text = parse room text := by
  unfold parse at h ⊢
  exact ((Parser.steady _).value _ hle).bind (fun _ => Parser.keeps_self _) h

end RacketTree

import RacketTree.Config.Read
import RacketTree.Proofs.Datum.Conversion
import RacketTree.Proofs.Tree.Lookup
import RacketTree.Proofs.Tree.Parsed

/-!
# Outcomes of reading options

Every text gives options or an error. The errors about the text and its options are reported to the
user; what is not reported comes from the conversion of the one form of an intact text, and there
only from the first datum without a value. It can be a hash with a key that is no key, or a literal
with a code of more than 31 bits (`ofText_outcome`).
-/

namespace RacketTree

/-! ## Errors -/

/-- The error is reported as one of the text. The others are not: a list or table as a key, a code
of more than 31 bits, and a wrapper without content. -/
def ConfigError.isReported : ConfigError → Bool
  | datum .badKey => false
  | datum (.literal .codeTooLarge) => false
  | datum (.unsupported .quote _) => false
  | datum (.unsupported .quasiquote _) => false
  | datum (.unsupported .box _) => false
  | _ => true

namespace Config

variable {text : List Char} {path : Option String} {place : String}

/-- How errors name the text. -/
def placeOf : Option String → String
  | some p => if p.isEmpty then "<config>" else p
  | none => "<config>"

/-- The options of the one form of a text. -/
def ofForm (place : String) (path : Option String) : Value → Except ConfigError Config
  | .list items => (items.foldlM (addEntry place) []).bind (ofEntries place path)
  | v => .error (.notAList place v.typeName)

theorem ofText_eq (text : List Char) (path : Option String) :
    ofText text path =
      match (parse default text).2.errors (parse default text).1 with
      | first :: _ =>
        let point := (parse default text).2.lines.position first.start
        .error (.syntaxError (placeOf path) point.row point.column)
      | [] =>
        match ((parse default text).2.node (parse default text).1).datums with
        | [] => .ok { default with path }
        | [form] =>
          ((Value.ofNode text form).mapError .datum).bind (ofForm (placeOf path) path)
        | _ => .error (.severalForms (placeOf path)) := by
  unfold ofText
  cases hparse : parse default text with
  | mk a tree =>
    dsimp only
    cases herrors : tree.errors a with
    | cons first rest =>
      rfl
    | nil =>
      simp only
      cases hdatums : (tree.node a).datums with
      | nil => rfl
      | cons form rest =>
        cases rest with
        | cons _ _ => rfl
        | nil =>
          cases Value.ofNode text form with
          | error e => rfl
          | ok v => cases v <;> rfl

/-- The depth limit among entries. -/
def depth (place : String) (entries : Entries) : Except ConfigError Int :=
  match option? entries "max-depth" with
  | none => .ok (default.maxDepth : Int)
  | some (.int n) => .ok n
  | some v => .error (.notAnInteger place v.typeName)

theorem ofEntries_eq (place : String) (path : Option String) (entries : Entries) :
    ofEntries place path entries =
      match unknownOption? entries with
      | some name => .error (.unknownOption place name)
      | none =>
        (depth place entries).bind fun maxDepth =>
          (flag place entries "strict-delimiters" false).bind fun strict =>
            (flag place entries "infix-dots" true).bind fun infixDots =>
              make maxDepth strict infixDots path := by
  unfold ofEntries depth
  cases unknownOption? entries with
  | some name => rfl
  | none =>
    cases option? entries "max-depth" with
    | none => rfl
    | some v => cases v <;> rfl

theorem bind_isReported {α β : Type} {x : Except ConfigError α} {f : α → Except ConfigError β}
    {e : ConfigError} (hx : ∀ e, x = .error e → e.isReported = true)
    (hf : ∀ a, f a = .error e → e.isReported = true) (h : x.bind f = .error e) :
    e.isReported = true := by
  cases x with
  | error e' =>
    cases h
    exact hx e rfl
  | ok a => exact hf a h

theorem addEntry_isReported {entries : Entries} {entry : Value} {e : ConfigError}
    (h : addEntry place entries entry = .error e) : e.isReported = true := by
  unfold addEntry at h
  split at h
  · split at h
    · cases h
    · cases h
      rfl
  · split at h
    · cases h
    · cases h
      rfl
  · cases h
    rfl

theorem flag_isReported {entries : Entries} {name : String} {absent : Bool} {e : ConfigError}
    (h : flag place entries name absent = .error e) : e.isReported = true := by
  unfold flag at h
  split at h
  · cases h
  · cases h
  · cases h
    rfl

theorem foldlM_addEntry_isReported {items : List Value} {entries : Entries} {e : ConfigError}
    (h : items.foldlM (addEntry place) entries = .error e) : e.isReported = true := by
  induction items generalizing entries with
  | nil => cases h
  | cons item items ih =>
    rw [List.foldlM_cons] at h
    exact bind_isReported (fun _ => addEntry_isReported) (fun _ => ih) h

theorem depth_isReported {entries : Entries} {e : ConfigError}
    (h : depth place entries = .error e) : e.isReported = true := by
  unfold depth at h
  split at h
  · cases h
  · cases h
  · cases h
    rfl

theorem make_isReported {maxDepth : Int} {strict infixDots : Bool} {e : ConfigError}
    (h : make maxDepth strict infixDots path = .error e) : e.isReported = true := by
  unfold make at h
  split at h
  · cases h
  · cases h
    rfl

theorem ofEntries_isReported {entries : Entries} {e : ConfigError}
    (h : ofEntries place path entries = .error e) : e.isReported = true := by
  rw [ofEntries_eq] at h
  split at h
  · cases h
    rfl
  · refine bind_isReported (fun _ => depth_isReported) (fun maxDepth h => ?_) h
    refine bind_isReported (fun _ => flag_isReported) (fun strict h => ?_) h
    exact bind_isReported (fun _ => flag_isReported) (fun _ => make_isReported) h

/-- Once the form has a value, every error is reported. -/
theorem ofForm_isReported {v : Value} {e : ConfigError} (h : ofForm place path v = .error e) :
    e.isReported = true := by
  unfold ofForm at h
  split at h
  · exact bind_isReported (fun _ => foldlM_addEntry_isReported) (fun _ => ofEntries_isReported) h
  · cases h
    rfl

/-- The first datum without a value, where the text is intact and has one form. -/
def firstFailure? (text : List Char) : Option Node :=
  let (a, tree) := parse default text
  if tree.hasErrors a then none
  else match (tree.node a).datums with
    | [form] => Value.firstFailure? text form
    | _ => none

theorem firstFailure?_eq (text : List Char) :
    firstFailure? text =
      if (parse default text).2.hasErrors (parse default text).1 then none
      else match ((parse default text).2.node (parse default text).1).datums with
        | [form] => Value.firstFailure? text form
        | _ => none :=
  rfl

/-- A text without a failure has no error that is not reported; otherwise the failure is the
error. -/
theorem ofText_cases (text : List Char) (path : Option String) :
    (firstFailure? text = none ∧ ∀ e, ofText text path = .error e → e.isReported = true) ∨
    ∃ n e, firstFailure? text = some n ∧ n.shape.Conforms default ∧ Value.FailsItself text n e ∧
      ofText text path = .error (.datum e) := by
  have hiff := errors_parse_ne_nil_iff default text
  rw [ofText_eq, firstFailure?_eq]
  cases herrors : (parse default text).2.errors (parse default text).1 with
  | cons first rest =>
    rw [herrors] at hiff
    rw [if_pos (hiff.mp (List.cons_ne_nil _ _))]
    exact .inl ⟨rfl, fun e h => by cases h; rfl⟩
  | nil =>
    rw [herrors] at hiff
    rw [if_neg fun h => hiff.mpr h rfl]
    match hdatums : ((parse default text).2.node (parse default text).1).datums with
    | [] => exact .inl ⟨rfl, nofun⟩
    | _ :: _ :: _ => exact .inl ⟨rfl, fun e h => by cases h; rfl⟩
    | [form] =>
      dsimp only
      cases hvalue : Value.ofNode text form with
      | ok v =>
        refine .inl ⟨?_, fun e h => ofForm_isReported h⟩
        rw [Value.firstFailure?, List.find?_eq_none]
        intro m hm
        simp [Value.isOk_of_mem_conversions text form (by rw [hvalue]; rfl) m hm]
      | error e =>
        obtain ⟨n, hn, hfails⟩ := Value.ofNode_eq_error_iff.mp hvalue
        refine .inr ⟨n, e, hn, conforms_of_mem_walk_parse default text ?_, hfails, rfl⟩
        -- the failure lies in the form, and the form in the tree
        have hform : form ∈ ((parse default text).2.node (parse default text).1).children := by
          have hmem : form ∈ ((parse default text).2.node (parse default text).1).datums := by
            rw [hdatums]
            exact List.mem_singleton_self form
          exact List.mem_of_mem_filter (List.mem_of_mem_filter hmem)
        rw [Node.walk_eq, List.mem_cons]
        refine .inr (Node.walk_subset_of_mem hform ?_)
        exact Node.conversions_subset_walk form (List.mem_of_find?_eq_some hn)

theorem isReported_datum_iff {n : Node} {e : DatumError} (hn : n.shape.Conforms default)
    (hfails : Value.FailsItself text n e) :
    (ConfigError.datum e).isReported = false ↔ e = .badKey ∨ e = .literal .codeTooLarge := by
  constructor
  · intro h
    unfold ConfigError.isReported at h
    split at h
    · rename_i heq
      cases heq
      exact .inl rfl
    · rename_i heq
      cases heq
      exact .inr rfl
    · rename_i heq
      cases heq
      exact absurd hfails (Value.not_failsItself_wrapper hn (.inl rfl))
    · rename_i heq
      cases heq
      exact absurd hfails (Value.not_failsItself_wrapper hn (.inr (.inl rfl)))
    · rename_i heq
      cases heq
      exact absurd hfails (Value.not_failsItself_wrapper hn (.inr (.inr rfl)))
    · cases h
  · rintro (rfl | rfl) <;> rfl

/-- A text gives options with a positive depth limit, or an error that is reported, unless the first
datum without a value is a hash with a key that is no key or a literal with a code of more than 31
bits. There the error is not reported. Where the text has an error, there is a first one to show. -/
theorem ofText_outcome (text : List Char) (path : Option String) :
    (((∃ c, ofText text path = .ok c ∧ 1 ≤ c.maxDepth) ∨
        ∃ e, ofText text path = .error e ∧ e.isReported = true) ↔
      ¬∃ n, firstFailure? text = some n ∧
        (Value.HasBadKey text n ∨ Value.HasLargeCode text n)) ∧
    (∀ n, firstFailure? text = some n →
      (Value.HasBadKey text n → ofText text path = .error (.datum .badKey)) ∧
      (Value.HasLargeCode text n →
        ofText text path = .error (.datum (.literal .codeTooLarge)))) ∧
    ((parse default text).2.hasErrors (parse default text).1 = true →
      ∃ first rest, (parse default text).2.errors (parse default text).1 = first :: rest) := by
  refine ⟨?_, ?_, fun h => List.exists_cons_of_ne_nil ((errors_parse_ne_nil_iff _ _).mpr h)⟩
  · rcases ofText_cases text path with ⟨hnone, hreported⟩ | ⟨n, e, hsome, hn, hfails, herror⟩
    · refine iff_of_true ?_ ?_
      · cases hresult : ofText text path with
        | ok c => exact .inl ⟨c, rfl, c.maxDepth_pos⟩
        | error e => exact .inr ⟨e, rfl, hreported e hresult⟩
      · rintro ⟨n, hsome, -⟩
        cases hnone.symm.trans hsome
    · have hcause : (ConfigError.datum e).isReported = false ↔
          Value.HasBadKey text n ∨ Value.HasLargeCode text n := by
        rw [isReported_datum_iff hn hfails, ← Value.failsItself_badKey_iff,
          ← Value.failsItself_codeTooLarge_iff]
        constructor
        · rintro (rfl | rfl)
          · exact .inl hfails
          · exact .inr hfails
        · rintro (h | h)
          · exact .inl (hfails.unique h)
          · exact .inr (hfails.unique h)
      simp only [hsome, herror, Option.some.injEq, exists_eq_left', ← hcause, Bool.not_eq_false]
      constructor
      · rintro (⟨c, hok, -⟩ | ⟨e', heq, hreported⟩)
        · cases hok
        · cases heq
          exact hreported
      · exact fun h => .inr ⟨_, rfl, h⟩
  · intro n hn
    rcases ofText_cases text path with ⟨hnone, -⟩ | ⟨m, e, hsome, -, hfails, herror⟩
    · cases hnone.symm.trans hn
    · cases hsome.symm.trans hn
      rw [herror, ← Value.failsItself_badKey_iff, ← Value.failsItself_codeTooLarge_iff]
      exact ⟨fun h => by rw [hfails.unique h], fun h => by rw [hfails.unique h]⟩

/-- The error of a datum that reading has ended with. -/
def datumError? : Except ConfigError Config → Option DatumError
  | .error (.datum e) => some e
  | _ => none

theorem eq_of_datumError? {r : Except ConfigError Config} {e : DatumError}
    (h : datumError? r = some e) : r = .error (.datum e) := by
  unfold datumError? at h
  split at h
  · cases h
    rfl
  · cases h

/-- A list as a key of a hash and the largest code that can be written in a string. -/
theorem ofText_unreported :
    (ofText "#hash(((a) . 1))".toList none = .error (.datum .badKey) ∧
      (ConfigError.datum .badKey).isReported = false) ∧
    (ofText "\"\\UFFFFFFFF\"".toList none = .error (.datum (.literal .codeTooLarge)) ∧
      (ConfigError.datum (.literal .codeTooLarge)).isReported = false) :=
  ⟨⟨eq_of_datumError? (by decide +kernel), rfl⟩, eq_of_datumError? (by decide +kernel), rfl⟩

end Config

end RacketTree

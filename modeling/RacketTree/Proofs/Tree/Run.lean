import RacketTree.Proofs.Tree.Shape
import RacketTree.Tree.Read

/-!
# Runs of the reader

`outcome` is what a single lexeme does to the reader inside a construct; `advance` is that step over
and over (`advance_cons`). A `Run` lists the lexemes that one item takes, and says how it ends:

* `complete`, with its last lexeme, whatever follows;
* `dangling`, before a closing delimiter or a dot that a waiting wrapper cannot take;
* `cut`, with the end of the input.

So an item depends on the lexemes it takes and, if it dangles, on the kind of the next one. From the
runs one reads off that no text is lost (`Run.text`) and which leaf an item ends in
(`Run.endsIn_of_complete`, `Run.endsIn_of_dangling`).
-/

namespace RacketTree

/-! ## The text of open constructs -/

namespace Frame

/-- The parts of an open construct, oldest first. -/
def parts : Frame → List Draft
  | wrapper w => w.children.reverse
  | sequence s => s.children.reverse ++ (s.tail.map fun t => t.pieces.reverse).getD []

/-- The text of an open construct. -/
def text (f : Frame) : List Char :=
  Draft.texts f.parts

/-- The text of the constructs on a stack. -/
def stackText : List Frame → List Char
  | [] => []
  | f :: rest => stackText rest ++ f.text

@[simp] theorem stackText_nil : stackText [] = [] := rfl

@[simp] theorem stackText_cons (f : Frame) (rest : List Frame) :
    stackText (f :: rest) = stackText rest ++ f.text := rfl

theorem text_ofLexeme? {l : Lexeme} {f : Frame} (h : ofLexeme? l = some f) : f.text = l.text := by
  unfold ofLexeme? at h
  split at h <;> cases h <;> simp [text, parts, Sequence.ofOpener]

end Frame

namespace Wrapper

theorem text_add (w : Wrapper) (item : Draft) :
    (Frame.wrapper (w.add item)).text = (Frame.wrapper w).text ++ item.text := by
  simp [Frame.text, Frame.parts, add]

theorem text_complete (w : Wrapper) (item : Draft) :
    (w.complete item).text = (Frame.wrapper w).text ++ item.text := by
  simp [Frame.text, Frame.parts, complete]

theorem text_fail (w : Wrapper) : w.fail.text = (Frame.wrapper w).text := by
  simp [Frame.text, Frame.parts, fail]

end Wrapper

theorem Tail.texts_finish (t : Tail) : Draft.texts t.finish = Draft.texts t.pieces.reverse := by
  unfold finish
  split
  · rfl
  · rw [Draft.texts_cons, Draft.texts_nil, List.append_nil, Draft.text_tail, ← Draft.texts_append,
      ← List.reverse_append, List.takeWhile_append_dropWhile]

namespace Sequence

theorem texts_body (s : Sequence) : Draft.texts s.body = (Frame.sequence s).text := by
  obtain ⟨opener, children, seen, tail⟩ := s
  cases tail <;> simp [body, Frame.text, Frame.parts, Tail.texts_finish]

theorem text_add (s : Sequence) (item : Draft) (role : Role) :
    (Frame.sequence (s.add item role)).text = (Frame.sequence s).text ++ item.text := by
  obtain ⟨opener, children, seen, tail⟩ := s
  cases tail with
  | none => simp [add, Frame.text, Frame.parts]
  | some t => cases role <;> simp [add, Tail.add, Frame.text, Frame.parts]

theorem text_addDot (s : Sequence) (config : Config) (dot : Lexeme) :
    (Frame.sequence (s.addDot config dot)).text = (Frame.sequence s).text ++ dot.text := by
  obtain ⟨opener, children, seen, tail⟩ := s
  cases tail with
  | none =>
    simp only [addDot]
    split <;> simp [Tail.addDot, Tail.empty, Frame.text, Frame.parts]
  | some t => simp [addDot, Tail.addDot, Frame.text, Frame.parts]

theorem text_closing (s : Sequence) (config : Config) (closer : Lexeme) :
    (s.closing config closer).text = closer.text := by
  unfold closing
  split <;> simp

theorem text_close (s : Sequence) (config : Config) (closer : Lexeme) :
    (s.close config closer).text = (Frame.sequence s).text ++ closer.text := by
  simp [close, texts_body, text_closing]

theorem text_unclosed (s : Sequence) : s.unclosed.text = (Frame.sequence s).text := by
  simp [unclosed, texts_body]

end Sequence

namespace Read

variable {config : Config} {outer : Nat}

/-- The text that has been handed on. -/
def Delivered.text : Delivered → List Char
  | item d => d.text
  | inside top rest => Frame.stackText (top :: rest)

/-- The text of a settled stack. -/
def Settled.text : Settled → List Char
  | item d => d.text
  | sequence s rest => Frame.stackText (.sequence s :: rest)

theorem text_deliver (item : Draft) (role : Role) (stack : List Frame) :
    (deliver item role stack).text = Frame.stackText stack ++ item.text := by
  fun_induction deliver item role stack with
  | case1 item => rfl
  | case2 item role s rest => simp [Delivered.text, Sequence.text_add]
  | case3 item w rest => simp [Delivered.text, Wrapper.text_add]
  | case4 item w rest ih => simp [ih, Wrapper.text_complete]

theorem text_settleWith (item : Draft) (role : Role) (stack : List Frame) :
    (settleWith item role stack).text = Frame.stackText stack ++ item.text := by
  fun_induction settleWith item role stack with
  | case1 item => rfl
  | case2 item role s rest => simp [Settled.text, Sequence.text_add]
  | case3 item w rest ih => simp [ih, Wrapper.text_fail, Wrapper.text_add]
  | case4 item w rest ih => simp [ih, Wrapper.text_complete]

theorem text_settle (top : Frame) (rest : List Frame) :
    (settle top rest).text = Frame.stackText (top :: rest) := by
  cases top with
  | sequence s => rfl
  | wrapper w => simp [settle, text_settleWith, Wrapper.text_fail]

theorem text_finishWith (item : Draft) (role : Role) (stack : List Frame) :
    (finishWith item role stack).text = Frame.stackText stack ++ item.text := by
  fun_induction finishWith item role stack with
  | case1 item => rfl
  | case2 item role s rest ih => simp [ih, Sequence.text_unclosed, Sequence.text_add]
  | case3 item w rest ih => simp [ih, Wrapper.text_fail, Wrapper.text_add]
  | case4 item w rest ih => simp [ih, Wrapper.text_complete]

theorem text_finish (top : Frame) (rest : List Frame) :
    (finish top rest).text = Frame.stackText (top :: rest) := by
  cases top with
  | sequence s => simp [finish, text_finishWith, Sequence.text_unclosed]
  | wrapper w => simp [finish, text_finishWith, Wrapper.text_fail]

theorem text_tooDeep (ls : List Lexeme) : (tooDeep ls).text = Lexeme.texts ls :=
  Draft.text_leaf _ _ _

/-! ## One lexeme -/

/-- What a lexeme does to the reader inside a construct. -/
inductive Outcome where
  /-- The item has ended before the lexeme. -/
  | ended (d : Draft)
  /-- The lexeme has become a part of the item. -/
  | taken (r : Delivered)
  /-- The lexeme opens a construct that nests too deeply. -/
  | overflow

/-- The outcome of a lexeme. -/
def outcome (config : Config) (outer : Nat) (top : Frame) (rest : List Frame) (l : Lexeme) :
    Outcome :=
  match l.kind with
  | .closer =>
    match settle top rest with
    | .item d => .ended d
    | .sequence s below => .taken (deliver (s.close config l) .datum below)
  | .dot =>
    match settle top rest with
    | .item d => .ended d
    | .sequence s below => .taken (.inside (.sequence (s.addDot config l)) below)
  | _ =>
    match Frame.ofLexeme? l with
    | some frame =>
      if config.maxDepth ≤ outer + rest.length + 1 then .overflow
      else .taken (.inside frame (top :: rest))
    | none => .taken (deliver l.draft l.role (top :: rest))

/-- Reads on after an item has been handed on. -/
def proceed (config : Config) (outer : Nat) (r : Delivered) (ls : List Lexeme) :
    Draft × List Lexeme :=
  match r with
  | .item d => (d, ls)
  | .inside top rest => advance config outer top rest ls

/-- The item that ends with the rest of the input. -/
def overflow (top : Frame) (rest : List Frame) (l : Lexeme) (ls : List Lexeme) : Draft :=
  match deliver (tooDeep (l :: ls)) l.role (top :: rest) with
  | .item d => d
  | .inside top rest => finish top rest

/-- To hand an item on and end the wrappers on the way is to hand it on and then end the
wrappers. -/
theorem settleWith_eq (item : Draft) (role : Role) (stack : List Frame) :
    settleWith item role stack =
      match deliver item role stack with
      | .item d => .item d
      | .inside top rest => settle top rest := by
  fun_induction deliver item role stack with
  | case1 | case2 => rfl
  | case3 => rfl
  | case4 item w rest ih => exact ih

theorem finishWith_eq (item : Draft) (role : Role) (stack : List Frame) :
    finishWith item role stack =
      match deliver item role stack with
      | .item d => d
      | .inside top rest => finish top rest := by
  fun_induction deliver item role stack with
  | case1 | case2 => rfl
  | case3 => rfl
  | case4 item w rest ih => exact ih

theorem overflow_eq (top : Frame) (rest : List Frame) (l : Lexeme) (ls : List Lexeme) :
    overflow top rest l ls = finishWith (tooDeep (l :: ls)) l.role (top :: rest) := by
  rw [finishWith_eq]
  rfl

/-- A closing delimiter or a dot. -/
def stops (l : Lexeme) : Bool :=
  l.kind == .closer || l.kind == .dot

theorem outcome_of_stops {top : Frame} {rest : List Frame} {l : Lexeme} {d : Draft}
    (hl : stops l = true) (h : settle top rest = .item d) :
    outcome config outer top rest l = .ended d := by
  simp only [stops, Bool.or_eq_true, beq_iff_eq] at hl
  rcases hl with hl | hl <;> simp [outcome, hl, h]

theorem outcome_of_not_stops (config : Config) (outer : Nat) (top : Frame) (rest : List Frame)
    {l : Lexeme} (hl : stops l = false) :
    outcome config outer top rest l =
      match Frame.ofLexeme? l with
      | some frame =>
        if config.maxDepth ≤ outer + rest.length + 1 then .overflow
        else .taken (.inside frame (top :: rest))
      | none => .taken (deliver l.draft l.role (top :: rest)) := by
  simp only [stops, Bool.or_eq_false_iff, beq_eq_false_iff_ne] at hl
  unfold outcome
  split
  · exact absurd ‹_› hl.1
  · exact absurd ‹_› hl.2
  · rfl

theorem advance_cons (top : Frame) (rest : List Frame) (l : Lexeme) (ls : List Lexeme) :
    advance config outer top rest (l :: ls) =
      match outcome config outer top rest l with
      | .ended d => (d, l :: ls)
      | .taken r => proceed config outer r ls
      | .overflow => (overflow top rest l ls, []) := by
  rw [advance]
  split
  · rename_i hk
    simp only [outcome, hk]
    cases settle top rest <;> rfl
  · rename_i hk
    simp only [outcome, hk]
    cases settle top rest <;> rfl
  · rename_i hcloser hdot
    rw [outcome_of_not_stops _ _ _ _ (by simpa [stops] using ⟨hcloser, hdot⟩)]
    cases Frame.ofLexeme? l with
    | none => rfl
    | some frame =>
      simp only [overflow]
      split
      · cases deliver (tooDeep (l :: ls)) l.role (top :: rest) <;> rfl
      · rfl

/-- Every way in which a lexeme can act. -/
theorem outcome_cases (config : Config) (outer : Nat) (top : Frame) (rest : List Frame)
    (l : Lexeme) :
    (∃ d, stops l = true ∧ settle top rest = .item d ∧
      outcome config outer top rest l = .ended d) ∨
    (∃ s below, l.kind = .closer ∧ settle top rest = .sequence s below ∧
      outcome config outer top rest l = .taken (deliver (s.close config l) .datum below)) ∨
    (∃ s below, l.kind = .dot ∧ settle top rest = .sequence s below ∧
      outcome config outer top rest l = .taken (.inside (.sequence (s.addDot config l)) below)) ∨
    (∃ frame, stops l = false ∧ Frame.ofLexeme? l = some frame ∧
      config.maxDepth ≤ outer + rest.length + 1 ∧ outcome config outer top rest l = .overflow) ∨
    (∃ frame, stops l = false ∧ Frame.ofLexeme? l = some frame ∧
      outer + rest.length + 1 < config.maxDepth ∧
      outcome config outer top rest l = .taken (.inside frame (top :: rest))) ∨
    (stops l = false ∧ Frame.ofLexeme? l = none ∧
      outcome config outer top rest l = .taken (deliver l.draft l.role (top :: rest))) := by
  cases hl : stops l with
  | true =>
    cases hs : settle top rest with
    | item d => exact .inl ⟨d, rfl, rfl, outcome_of_stops hl hs⟩
    | sequence s below =>
      simp only [stops, Bool.or_eq_true, beq_iff_eq] at hl
      rcases hl with hl | hl
      · exact .inr (.inl ⟨s, below, hl, rfl, by simp [outcome, hl, hs]⟩)
      · exact .inr (.inr (.inl ⟨s, below, hl, rfl, by simp [outcome, hl, hs]⟩))
  | false =>
    have hout := outcome_of_not_stops config outer top rest hl
    cases hf : Frame.ofLexeme? l with
    | none => exact .inr (.inr (.inr (.inr (.inr ⟨rfl, rfl, by rw [hout, hf]⟩))))
    | some frame =>
      by_cases hdeep : config.maxDepth ≤ outer + rest.length + 1
      · exact .inr (.inr (.inr (.inl ⟨frame, rfl, rfl, hdeep, by simp [hout, hf, hdeep]⟩)))
      · exact .inr (.inr (.inr (.inr (.inl
          ⟨frame, rfl, rfl, by omega, by simp [hout, hf, hdeep]⟩))))

/-- A lexeme runs into the depth limit if it opens a construct there. -/
theorem outcome_eq_overflow {top : Frame} {rest : List Frame} {l : Lexeme} :
    outcome config outer top rest l = .overflow ↔ stops l = false ∧
      (Frame.ofLexeme? l).isSome = true ∧ config.maxDepth ≤ outer + rest.length + 1 := by
  rcases outcome_cases config outer top rest l with
    ⟨_, hl, -, hout⟩ | ⟨_, _, hk, -, hout⟩ | ⟨_, _, hk, -, hout⟩ | ⟨_, hl, hf, hdeep, hout⟩ |
      ⟨_, -, -, hdepth, hout⟩ | ⟨-, hf, hout⟩ <;> rw [hout]
  · simp [hl]
  · simp [stops, hk]
  · simp [stops, hk]
  · simp [hl, hf, hdeep]
  · simp [Nat.not_le.mpr hdepth]
  · simp [hf]

theorem text_outcome {top : Frame} {rest : List Frame} {l : Lexeme} {r : Delivered} (hl : l.Valid)
    (h : outcome config outer top rest l = .taken r) :
    r.text = Frame.stackText (top :: rest) ++ l.text := by
  have hsettle := text_settle top rest
  rcases outcome_cases config outer top rest l with
    ⟨_, -, -, hout⟩ | ⟨s, below, -, hs, hout⟩ | ⟨s, below, -, hs, hout⟩ | ⟨_, -, -, -, hout⟩ |
      ⟨frame, -, hf, -, hout⟩ | ⟨-, -, hout⟩ <;> rw [hout] at h <;> cases h
  · rw [text_deliver, Sequence.text_close, ← List.append_assoc, ← hsettle, hs]
    rfl
  · rw [← hsettle, hs]
    simp [Delivered.text, Settled.text, Sequence.text_addDot]
  · simp [Delivered.text, Frame.text_ofLexeme? hf]
  · rw [text_deliver, (Lexeme.draft_of_valid hl).1]

theorem text_overflow (top : Frame) (rest : List Frame) (l : Lexeme) (ls : List Lexeme) :
    (overflow top rest l ls).text = Frame.stackText (top :: rest) ++ Lexeme.texts (l :: ls) := by
  rw [overflow_eq, text_finishWith, text_tooDeep]

/-! ## Last leaves -/

theorem endsIn_complete (w : Wrapper) {item : Draft} {k : Kind} {t : List Char}
    (h : item.EndsIn k t) : (w.complete item).EndsIn k t := by
  rw [Wrapper.complete, List.reverse_cons]
  exact .branch _ _ _ h

theorem endsIn_fail (w : Wrapper) : w.fail.EndsIn .missing [] := by
  rw [Wrapper.fail, List.reverse_cons]
  exact .branch _ _ _ (.leaf none)

theorem endsIn_close (s : Sequence) {l : Lexeme} (h : l.kind = .closer) :
    (s.close config l).EndsIn l.endKind l.endText := by
  refine .branch _ _ _ ?_
  have hleaf : l.leaf.EndsIn l.endKind l.endText := Lexeme.endsIn_leaf (by rw [h]; decide)
  unfold Sequence.closing
  split
  · exact .branch _ [] _ hleaf
  · exact hleaf

/-- An item that is complete at top level ends as the item that has been handed on. -/
theorem endsIn_deliver {item d : Draft} {role : Role} {stack : List Frame} {k : Kind}
    {t : List Char} (h : deliver item role stack = .item d) (hitem : item.EndsIn k t) :
    d.EndsIn k t := by
  fun_induction deliver item role stack with
  | case1 item => cases h; exact hitem
  | case2 | case3 => cases h
  | case4 item w rest ih => exact ih h (endsIn_complete w hitem)

theorem endsIn_settleWith {item d : Draft} {role : Role} {stack : List Frame}
    (h : settleWith item role stack = .item d) (hitem : item.EndsIn .missing []) :
    d.EndsIn .missing [] := by
  fun_induction settleWith item role stack with
  | case1 item => cases h; exact hitem
  | case2 => cases h
  | case3 item w rest ih => exact ih h (endsIn_fail _)
  | case4 item w rest ih => exact ih h (endsIn_complete w hitem)

theorem endsIn_settle {top : Frame} {rest : List Frame} {d : Draft}
    (h : settle top rest = .item d) : d.EndsIn .missing [] := by
  cases top with
  | sequence s => cases h
  | wrapper w => exact endsIn_settleWith h (endsIn_fail w)

theorem isSingle_finishWith {item : Draft} {role : Role} {stack : List Frame}
    (h : item.isSingle = true) : (finishWith item role stack).isSingle = true := by
  fun_induction finishWith item role stack with
  | case1 item => exact h
  | case2 item role s rest ih => exact ih rfl
  | case3 item w rest ih => exact ih rfl
  | case4 item w rest ih => exact ih rfl

theorem isSingle_finish (top : Frame) (rest : List Frame) : (finish top rest).isSingle = true := by
  cases top <;> exact isSingle_finishWith rfl

theorem isSingle_overflow (top : Frame) (rest : List Frame) (l : Lexeme) (ls : List Lexeme) :
    (overflow top rest l ls).isSingle = true := by
  rw [overflow_eq]
  exact isSingle_finishWith rfl

/-- The lexeme that completes an item at top level is its last leaf. -/
theorem endsIn_outcome {top : Frame} {rest : List Frame} {l : Lexeme} {d : Draft} (hl : l.Valid)
    (h : outcome config outer top rest l = .taken (.item d)) :
    d.EndsIn l.endKind l.endText := by
  rcases outcome_cases config outer top rest l with
    ⟨_, -, -, hout⟩ | ⟨s, below, hk, -, hout⟩ | ⟨_, _, -, -, hout⟩ | ⟨_, -, -, -, hout⟩ |
      ⟨_, -, -, -, hout⟩ | ⟨-, -, hout⟩ <;> rw [hout] at h
  · cases h
  · exact endsIn_deliver (Outcome.taken.inj h) (endsIn_close s hk)
  · cases h
  · cases h
  · cases h
  · exact endsIn_deliver (Outcome.taken.inj h) (Lexeme.draft_of_valid hl).2.2

/-! ## Datums by themselves -/

/-- The lexeme is a datum by itself. -/
def isPlain (l : Lexeme) : Bool :=
  !stops l && (Frame.ofLexeme? l).isNone && l.role == .datum

theorem outcome_of_isPlain {top : Frame} {rest : List Frame} {l : Lexeme} (h : isPlain l = true) :
    outcome config outer top rest l = .taken (deliver l.draft .datum (top :: rest)) := by
  simp only [isPlain, Bool.and_eq_true, Bool.not_eq_true', Option.isNone_iff_eq_none,
    beq_iff_eq] at h
  obtain ⟨⟨hstops, hframe⟩, hrole⟩ := h
  rw [outcome_of_not_stops _ _ _ _ hstops, hframe, hrole]

/-- Whether an item is complete at top level depends on its place alone. -/
theorem deliver_item {item d : Draft} {role : Role} {stack : List Frame} (item' : Draft)
    (h : deliver item role stack = .item d) : ∃ d', deliver item' role stack = .item d' := by
  fun_induction deliver item role stack generalizing item' with
  | case1 item => exact ⟨item', rfl⟩
  | case2 | case3 => cases h
  | case4 item w rest ih =>
    obtain ⟨d', hd'⟩ := ih (w.complete item') h
    exact ⟨d', hd'⟩

/-! ## Runs -/

/-- How an item ends. -/
inductive Ending where
  | complete
  | dangling
  | cut

/-- The lexemes that may follow an item which ends like this. -/
def Ending.Allows : Ending → List Lexeme → Prop
  | complete, _ => True
  | dangling, ls => ∃ l rest, ls = l :: rest ∧ stops l = true
  | cut, ls => ls = []

/-- The lexemes that the reader takes inside constructs, the end of the item at top level, and the
item. -/
inductive Run (config : Config) (outer : Nat) :
    Frame → List Frame → List Lexeme → Ending → Draft → Prop
  | complete {top : Frame} {rest : List Frame} {l : Lexeme} {d : Draft}
      (h : outcome config outer top rest l = .taken (.item d)) :
      Run config outer top rest [l] .complete d
  | dangling {top : Frame} {rest : List Frame} {d : Draft} (h : settle top rest = .item d) :
      Run config outer top rest [] .dangling d
  | cut (top : Frame) (rest : List Frame) :
      Run config outer top rest [] .cut (finish top rest)
  | overflow {top : Frame} {rest : List Frame} {l : Lexeme} (ls : List Lexeme)
      (h : outcome config outer top rest l = .overflow) :
      Run config outer top rest (l :: ls) .cut (overflow top rest l ls)
  | step {top top' : Frame} {rest rest' : List Frame} {l : Lexeme} {used : List Lexeme}
      {e : Ending} {d : Draft} (h : outcome config outer top rest l = .taken (.inside top' rest'))
      (run : Run config outer top' rest' used e d) : Run config outer top rest (l :: used) e d

/-- Inside a construct the reader runs until the item ends, and the next lexeme does not belong to
it. -/
theorem exists_run (config : Config) (outer : Nat) (top : Frame) (rest : List Frame)
    (ls : List Lexeme) :
    ∃ used e, Run config outer top rest used e (advance config outer top rest ls).1 ∧
      ls = used ++ (advance config outer top rest ls).2 ∧
      e.Allows (advance config outer top rest ls).2 := by
  induction ls generalizing top rest with
  | nil => exact ⟨[], .cut, .cut top rest, rfl, rfl⟩
  | cons l ls ih =>
    rw [advance_cons]
    cases hout : outcome config outer top rest l with
    | ended d =>
      rcases outcome_cases config outer top rest l with
        ⟨d', hl, hs, hout'⟩ | ⟨_, _, -, -, hout'⟩ | ⟨_, _, -, -, hout'⟩ | ⟨_, -, -, -, hout'⟩ |
          ⟨_, -, -, -, hout'⟩ | ⟨-, -, hout'⟩ <;> rw [hout'] at hout <;> cases hout
      exact ⟨[], .dangling, .dangling hs, rfl, l, ls, rfl, hl⟩
    | overflow => exact ⟨l :: ls, .cut, .overflow ls hout, by simp, rfl⟩
    | taken r =>
      cases r with
      | item d => exact ⟨[l], .complete, .complete hout, rfl, trivial⟩
      | inside top' rest' =>
        obtain ⟨used, e, run, hls, hallows⟩ := ih top' rest'
        exact ⟨l :: used, e, .step hout run, congrArg (l :: ·) hls, hallows⟩

namespace Run

variable {top : Frame} {rest : List Frame} {used : List Lexeme} {e : Ending} {d : Draft}

/-- The lexemes of a run are read the same way before every text that may follow. -/
theorem advance (run : Run config outer top rest used e d) {ls : List Lexeme} (h : e.Allows ls) :
    advance config outer top rest (used ++ ls) = (d, ls) := by
  induction run with
  | complete hout =>
    rw [List.cons_append, List.nil_append, advance_cons, hout]
    rfl
  | dangling hs =>
    obtain ⟨l, rest, rfl, hl⟩ := h
    rw [List.nil_append, advance_cons, outcome_of_stops hl hs]
  | cut top rest =>
    cases h
    rfl
  | overflow ls' hout =>
    cases h
    rw [List.append_nil, advance_cons, hout]
  | step hout run ih =>
    rw [List.cons_append, advance_cons, hout]
    exact ih h

theorem isSingle (run : Run config outer top rest used e d) (hv : ∀ l ∈ used, l.Valid) :
    d.isSingle = true := by
  induction run with
  | complete hout => exact (endsIn_outcome (hv _ List.mem_cons_self) hout).isSingle
  | dangling hs => exact (endsIn_settle hs).isSingle
  | cut top rest => exact isSingle_finish top rest
  | overflow ls hout => exact isSingle_overflow _ _ _ ls
  | step hout run ih => exact ih fun l hl => hv l (List.mem_cons_of_mem _ hl)

/-- No text is lost. -/
theorem text (run : Run config outer top rest used e d) (hv : ∀ l ∈ used, l.Valid) :
    d.text = Frame.stackText (top :: rest) ++ Lexeme.texts used := by
  induction run with
  | complete hout =>
    rw [Lexeme.texts_cons, Lexeme.texts_nil, List.append_nil]
    exact text_outcome (hv _ List.mem_cons_self) hout
  | @dangling top rest d hs =>
    have h := text_settle top rest
    rw [hs] at h
    rw [Lexeme.texts_nil, List.append_nil]
    exact h
  | cut top rest => rw [text_finish, Lexeme.texts_nil, List.append_nil]
  | overflow ls hout => exact text_overflow _ _ _ ls
  | step hout run ih =>
    rw [ih fun l hl => hv l (List.mem_cons_of_mem _ hl), Lexeme.texts_cons, ← List.append_assoc]
    congr 1
    exact text_outcome (hv _ List.mem_cons_self) hout

theorem endsIn_of_complete (run : Run config outer top rest used .complete d)
    (hv : ∀ l ∈ used, l.Valid) :
    ∃ before l, used = before ++ [l] ∧ d.EndsIn l.endKind l.endText := by
  generalize he : Ending.complete = e at run
  induction run with
  | @complete _ _ l _ hout => exact ⟨[], l, rfl, endsIn_outcome (hv _ List.mem_cons_self) hout⟩
  | dangling | cut | overflow => cases he
  | @step _ _ _ _ m _ _ _ hout run ih =>
    obtain ⟨before, l, rfl, hends⟩ := ih (fun l hl => hv l (List.mem_cons_of_mem _ hl)) he
    exact ⟨m :: before, l, rfl, hends⟩

theorem endsIn_of_dangling (run : Run config outer top rest used .dangling d) :
    d.EndsIn .missing [] := by
  generalize he : Ending.dangling = e at run
  induction run with
  | complete | cut | overflow => cases he
  | dangling hs => exact endsIn_settle hs
  | step hout run ih => exact ih he

/-- A datum by itself that completes an item may be any other one. -/
theorem exchange {l m : Lexeme} (run : Run config outer top rest (used ++ [l]) .complete d)
    (hl : isPlain l = true) (hm : isPlain m = true) :
    ∃ d', Run config outer top rest (used ++ [m]) .complete d' := by
  generalize he : Ending.complete = e at run
  generalize hls : used ++ [l] = ls at run
  induction run generalizing used with
  | complete hout =>
    obtain ⟨rfl, hlast⟩ := List.append_eq_singleton_iff.mp hls |>.resolve_right (by simp)
    cases hlast
    rw [outcome_of_isPlain hl] at hout
    obtain ⟨d', hd'⟩ := deliver_item m.draft (Outcome.taken.inj hout)
    exact ⟨d', .complete (by rw [outcome_of_isPlain hm, hd'])⟩
  | dangling | cut | overflow => cases he
  | step hout run ih =>
    cases used with
    | nil =>
      cases hls
      cases he
      cases run
    | cons u used =>
      obtain ⟨rfl, hrest⟩ := List.cons.inj hls
      obtain ⟨d', run'⟩ := ih he hrest
      exact ⟨d', .step hout run'⟩

end Run

end Read

end RacketTree

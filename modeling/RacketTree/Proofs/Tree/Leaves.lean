import RacketTree.Proofs.Tree.Formed

/-!
# The leaves of items are their lexemes

The lexemes of a tree are its leaves, without placeholders and with each outermost block comment as
one. The lexemes of an item are those that the reader has taken for it, where one with a fault has
become an error (`Lexeme.marked`). Only where nesting is too deep are the rest of the lexemes joined
to one error leaf, and then it is the last one (`Items.lexemes`).
-/

namespace RacketTree

/-- The lexeme as a leaf shows it: one with a fault is an error. -/
def Lexeme.marked (l : Lexeme) : Lexeme :=
  { l with kind := if l.fault.isSome then .error else l.kind }

/-- The error that takes lexemes which nest too deeply. -/
def Lexeme.buried (ls : List Lexeme) : Lexeme :=
  ⟨.error, Lexeme.texts ls, some .nestingTooDeep⟩

namespace Shape

mutual

/-- The leaves of a tree, without placeholders and with a block comment as one. -/
def lexemes : Shape → List Lexeme
  | leaf kind text fault => if kind = .missing then [] else [⟨kind, text, fault⟩]
  | branch kind children fault =>
    if kind = .blockComment then [⟨kind, texts children, fault⟩] else allLexemes children

/-- The leaves of several trees. -/
def allLexemes : List Shape → List Lexeme
  | [] => []
  | s :: rest => s.lexemes ++ allLexemes rest

end

@[simp] theorem allLexemes_append (xs ys : List Shape) :
    allLexemes (xs ++ ys) = allLexemes xs ++ allLexemes ys := by
  induction xs with
  | nil => rfl
  | cons x xs ih => simp [allLexemes, ih]

end Shape

namespace Draft

/-- The leaves of a draft. -/
def lexemes (d : Draft) : List Lexeme :=
  Shape.allLexemes d.shapes

/-- The leaves of several drafts. -/
def allLexemes (ds : List Draft) : List Lexeme :=
  Shape.allLexemes (allShapes ds)

@[simp] theorem allLexemes_nil : allLexemes [] = [] := rfl

@[simp] theorem allLexemes_cons (d : Draft) (ds : List Draft) :
    allLexemes (d :: ds) = d.lexemes ++ allLexemes ds := by
  simp [allLexemes, lexemes, allShapes]

@[simp] theorem allLexemes_append (xs ys : List Draft) :
    allLexemes (xs ++ ys) = allLexemes xs ++ allLexemes ys := by
  simp [allLexemes]

theorem lexemes_leaf {k : Kind} (t : List Char) (f : Option Fault) (hk : k ≠ .missing) :
    (leaf k t f).lexemes = [⟨k, t, f⟩] := by
  simp [lexemes, shapes, Shape.allLexemes, Shape.lexemes, hk]

theorem lexemes_branch {k : Kind} (cs : List Draft) (f : Option Fault) (hk : k ≠ .blockComment) :
    (branch k cs f).lexemes = allLexemes cs := by
  simp [lexemes, allLexemes, shapes, Shape.allLexemes, Shape.lexemes, hk]

@[simp] theorem lexemes_error (cs : List Draft) (f : Option Fault) :
    (branch .error cs f).lexemes = allLexemes cs :=
  lexemes_branch cs f nofun

@[simp] theorem lexemes_tail (pieces trailing : List Draft) :
    (tail pieces trailing).lexemes = allLexemes pieces ++ allLexemes trailing := by
  simp [lexemes, allLexemes, shapes, Shape.allLexemes, Shape.lexemes]

@[simp] theorem lexemes_missing : missing.lexemes = [] := rfl

end Draft

namespace Lexeme

variable {l : Lexeme}

theorem kind_ne_missing (h : l.Valid) : l.kind ≠ .missing := by
  intro hk
  rcases h.lexical with hlex | ⟨herror, -⟩
  · rw [hk] at hlex
    cases hlex
  · rw [hk] at herror
    cases herror

theorem lexemes_leaf (h : l.Valid) : l.leaf.lexemes = [l.marked] := by
  rw [leaf, Draft.lexemes_leaf]
  · rfl
  · split
    · simp
    · exact kind_ne_missing h

theorem lexemes_draft (h : l.Valid) : l.draft.lexemes = [l.marked] := by
  by_cases hk : l.kind = .blockComment
  · obtain ⟨body, hbody, hwidth, hfault⟩ := h.comment hk
    obtain ⟨inner, hdraft, -⟩ := BlockComment.draft_of_blockWidth hwidth
    have htext := (draft_of_valid h).1
    have hl : l.draft = .branch .blockComment (inner ++ [BlockComment.closing]) none := by
      rw [draft, if_pos hk, hbody, hdraft]
    rw [hl, Draft.text_branch, Draft.texts] at htext
    rw [hl, Draft.lexemes, Draft.shapes, Shape.allLexemes, Shape.lexemes, if_pos rfl, htext, marked,
      hk, hfault]
    rfl
  · rw [draft_eq_leaf hk, lexemes_leaf h]

end Lexeme

/-! ## Open constructs -/

namespace Frame

/-- The leaves of an open construct. -/
def lexemes (f : Frame) : List Lexeme :=
  Draft.allLexemes f.parts

/-- The leaves of the constructs on a stack. -/
def stackLexemes : List Frame → List Lexeme
  | [] => []
  | f :: rest => stackLexemes rest ++ f.lexemes

@[simp] theorem stackLexemes_nil : stackLexemes [] = [] := rfl

@[simp] theorem stackLexemes_cons (f : Frame) (rest : List Frame) :
    stackLexemes (f :: rest) = stackLexemes rest ++ f.lexemes := rfl

theorem lexemes_ofLexeme? {l : Lexeme} {f : Frame} (hl : l.Valid) (h : ofLexeme? l = some f) :
    f.lexemes = [l.marked] := by
  unfold ofLexeme? at h
  split at h <;> cases h <;>
    simp [lexemes, parts, Sequence.ofOpener, Lexeme.lexemes_leaf hl]

end Frame

variable {config : Config}

namespace Wrapper

variable {w : Wrapper}

theorem kind_ne_blockComment {gap : Shape → Bool} (h : w.Waits config gap) :
    w.kind ≠ .blockComment := by
  obtain ⟨mark, -, -, hmark, -⟩ := h
  intro hk
  rcases hmark.kind_cases with hw | hd
  · rw [hk] at hw
    cases hw
  · rw [hk] at hd
    cases hd

theorem lexemes_add (w : Wrapper) (item : Draft) :
    (Frame.wrapper (w.add item)).lexemes = (Frame.wrapper w).lexemes ++ item.lexemes := by
  simp [Frame.lexemes, Frame.parts, add]

theorem lexemes_complete {gap : Shape → Bool} (h : w.Waits config gap) (item : Draft) :
    (w.complete item).lexemes = (Frame.wrapper w).lexemes ++ item.lexemes := by
  rw [complete, Draft.lexemes_branch _ _ (kind_ne_blockComment h)]
  simp [Frame.lexemes, Frame.parts]

theorem lexemes_fail (w : Wrapper) : w.fail.lexemes = (Frame.wrapper w).lexemes := by
  simp [Frame.lexemes, Frame.parts, fail]

end Wrapper

theorem Tail.lexemes_finish (t : Tail) :
    Draft.allLexemes t.finish = Draft.allLexemes t.pieces.reverse := by
  unfold finish
  split
  · rfl
  · rw [Draft.allLexemes_cons, Draft.allLexemes_nil, List.append_nil, Draft.lexemes_tail,
      ← Draft.allLexemes_append, ← List.reverse_append, List.takeWhile_append_dropWhile]

namespace Sequence

theorem lexemes_body (s : Sequence) : Draft.allLexemes s.body = (Frame.sequence s).lexemes := by
  obtain ⟨opener, children, seen, tail⟩ := s
  cases tail <;> simp [body, Frame.lexemes, Frame.parts, Tail.lexemes_finish]

theorem lexemes_add (s : Sequence) (item : Draft) (role : Role) :
    (Frame.sequence (s.add item role)).lexemes = (Frame.sequence s).lexemes ++ item.lexemes := by
  obtain ⟨opener, children, seen, tail⟩ := s
  cases tail with
  | none => simp [add, Frame.lexemes, Frame.parts]
  | some t => simp [add, Tail.pieces_add, Frame.lexemes, Frame.parts]

theorem lexemes_addDot (s : Sequence) {dot : Lexeme} (h : dot.Valid) :
    (Frame.sequence (s.addDot config dot)).lexemes =
      (Frame.sequence s).lexemes ++ [dot.marked] := by
  obtain ⟨opener, children, seen, tail⟩ := s
  cases tail with
  | none =>
    simp only [addDot]
    split <;> simp [Tail.addDot, Tail.empty, Frame.lexemes, Frame.parts, Lexeme.lexemes_leaf h]
  | some t => simp [addDot, Tail.addDot, Frame.lexemes, Frame.parts, Lexeme.lexemes_leaf h]

theorem lexemes_close (s : Sequence) {closer : Lexeme} (h : closer.Valid) :
    (s.close config closer).lexemes = (Frame.sequence s).lexemes ++ [closer.marked] := by
  have hkind : s.kind ≠ .blockComment := by
    intro hk
    have hseq := Kind.isSequence_ofOpener s.opener
    rw [← kind, hk] at hseq
    cases hseq
  have hclosing : (s.closing config closer).lexemes = [closer.marked] := by
    unfold closing
    split <;> simp [Lexeme.lexemes_leaf h]
  rw [close, Draft.lexemes_branch _ _ hkind]
  simp [lexemes_body, hclosing]

theorem lexemes_unclosed (s : Sequence) : s.unclosed.lexemes = (Frame.sequence s).lexemes := by
  simp [unclosed, lexemes_body]

end Sequence

/-! ## Runs and items -/

namespace Read

open RacketTree.Frame (StackTight stackTight_cons stackLexemes)

variable {outer : Nat} {item d : Draft} {role : Role} {top : Frame} {rest stack : List Frame}
  {l : Lexeme}

/-- The leaves that have been handed on. -/
def Delivered.lexemes : Delivered → List Lexeme
  | .item d => d.lexemes
  | .inside top rest => stackLexemes (top :: rest)

/-- The leaves of a settled stack. -/
def Settled.lexemes : Settled → List Lexeme
  | .item d => d.lexemes
  | .sequence s rest => stackLexemes (.sequence s :: rest)

theorem lexemes_deliver (h : StackTight config stack) :
    (deliver item role stack).lexemes = stackLexemes stack ++ item.lexemes := by
  fun_induction deliver item role stack with
  | case1 item => rfl
  | case2 item role s rest => simp [Delivered.lexemes, Sequence.lexemes_add]
  | case3 item w rest => simp [Delivered.lexemes, Wrapper.lexemes_add]
  | case4 item w rest ih =>
    obtain ⟨hw, hrest⟩ := stackTight_cons.mp h
    simp [ih hrest, Wrapper.lexemes_complete hw]

theorem lexemes_settleWith (h : StackTight config stack) :
    (settleWith item role stack).lexemes = stackLexemes stack ++ item.lexemes := by
  fun_induction settleWith item role stack with
  | case1 item => rfl
  | case2 item role s rest => simp [Settled.lexemes, Sequence.lexemes_add]
  | case3 item w rest ih =>
    simp [ih (stackTight_cons.mp h).2, Wrapper.lexemes_fail, Wrapper.lexemes_add]
  | case4 item w rest ih =>
    obtain ⟨hw, hrest⟩ := stackTight_cons.mp h
    simp [ih hrest, Wrapper.lexemes_complete hw]

theorem lexemes_settle (h : StackTight config (top :: rest)) :
    (settle top rest).lexemes = stackLexemes (top :: rest) := by
  cases top with
  | sequence s => rfl
  | wrapper w =>
    simp [settle, lexemes_settleWith (stackTight_cons.mp h).2, Wrapper.lexemes_fail]

theorem lexemes_finishWith (item : Draft) (role : Role) (h : StackTight config stack) :
    (finishWith item role stack).lexemes = stackLexemes stack ++ item.lexemes := by
  fun_induction finishWith item role stack with
  | case1 item => rfl
  | case2 item role s rest ih =>
    simp [ih (stackTight_cons.mp h).2, Sequence.lexemes_unclosed, Sequence.lexemes_add]
  | case3 item w rest ih =>
    simp [ih (stackTight_cons.mp h).2, Wrapper.lexemes_fail, Wrapper.lexemes_add]
  | case4 item w rest ih =>
    obtain ⟨hw, hrest⟩ := stackTight_cons.mp h
    simp [ih hrest, Wrapper.lexemes_complete hw]

theorem lexemes_finish (h : StackTight config (top :: rest)) :
    (finish top rest).lexemes = stackLexemes (top :: rest) := by
  have hrest := (stackTight_cons.mp h).2
  cases top with
  | sequence s => simp [finish, lexemes_finishWith _ _ hrest, Sequence.lexemes_unclosed]
  | wrapper w => simp [finish, lexemes_finishWith _ _ hrest, Wrapper.lexemes_fail]

theorem lexemes_tooDeep (ls : List Lexeme) : (tooDeep ls).lexemes = [Lexeme.buried ls] :=
  Draft.lexemes_leaf _ _ nofun

theorem lexemes_overflow (h : StackTight config (top :: rest)) (ls : List Lexeme) :
    (overflow top rest l ls).lexemes = stackLexemes (top :: rest) ++ [Lexeme.buried (l :: ls)] := by
  rw [overflow_eq, lexemes_finishWith _ _ h, lexemes_tooDeep]

theorem lexemes_outcome {r : Delivered} (h : StackTight config (top :: rest)) (hl : l.Valid)
    (hout : outcome config outer top rest l = .taken r) :
    r.lexemes = stackLexemes (top :: rest) ++ [l.marked] := by
  have htight := tight_settle h
  have hsettle := lexemes_settle h
  rcases outcome_cases config outer top rest l with
    ⟨_, -, -, hout'⟩ | ⟨s, below, -, hset, hout'⟩ | ⟨s, below, -, hset, hout'⟩ |
      ⟨_, -, -, -, hout'⟩ | ⟨frame, -, hf, -, hout'⟩ | ⟨-, -, hout'⟩ <;>
    rw [hout'] at hout <;> cases hout
  · rw [hset] at htight
    have hbelow := (stackTight_cons.mp htight).2
    rw [lexemes_deliver hbelow, Sequence.lexemes_close s hl, ← List.append_assoc, ← hsettle, hset]
    rfl
  · rw [← hsettle, hset]
    simp [Delivered.lexemes, Settled.lexemes, Sequence.lexemes_addDot s hl]
  · simp [Delivered.lexemes, Frame.lexemes_ofLexeme? hl hf]
  · rw [lexemes_deliver h, Lexeme.lexemes_draft hl]

/-- The leaves that lexemes become: each one for itself, or, where nesting is too deep, the last of
them as one. -/
inductive Becomes (e : Ending) (ls : List Lexeme) : List Lexeme → Prop
  | all : Becomes e ls (ls.map Lexeme.marked)
  | buried (before : List Lexeme) {after : List Lexeme} (he : e = .cut) (hls : ls = before ++ after)
      (hne : after ≠ []) : Becomes e ls (before.map Lexeme.marked ++ [Lexeme.buried after])

theorem Becomes.cons {e : Ending} {ls out : List Lexeme} (h : Becomes e ls out) (l : Lexeme) :
    Becomes e (l :: ls) (l.marked :: out) := by
  cases h with
  | all => exact .all
  | @buried before after he hls hne => exact .buried (l :: before) he (by rw [hls]; rfl) hne

theorem Run.lexemes {used : List Lexeme} {e : Ending} (run : Run config outer top rest used e d)
    (h : StackTight config (top :: rest)) (hv : ∀ l ∈ used, l.Valid ∧ l.Spelled) :
    ∃ out, d.lexemes = stackLexemes (top :: rest) ++ out ∧ Becomes e used out := by
  induction run with
  | complete hout =>
    exact ⟨_, lexemes_outcome h (hv _ List.mem_cons_self).1 hout, .all⟩
  | dangling hset =>
    have hsettle := lexemes_settle h
    rw [hset] at hsettle
    exact ⟨[], by rw [List.append_nil]; exact hsettle, .all⟩
  | cut top rest => exact ⟨[], by rw [List.append_nil, lexemes_finish h], .all⟩
  | overflow ls hout =>
    exact ⟨_, lexemes_overflow h ls, .buried [] rfl rfl (by simp)⟩
  | step hout run ih =>
    obtain ⟨hl, hs⟩ := hv _ List.mem_cons_self
    obtain ⟨out, hout', hbecomes⟩ :=
      ih (tight_outcome h hl hs hout) fun l hl => hv l (List.mem_cons_of_mem _ hl)
    have hstep := lexemes_outcome h hl hout
    refine ⟨_, ?_, hbecomes.cons _⟩
    rw [hout', List.append_cons]
    exact congrArg (· ++ out) hstep

theorem Item.lexemes {used : List Lexeme} {e : Ending} (h : Item config outer used e d)
    (hv : ∀ l ∈ used, l.Valid ∧ l.Spelled) : Becomes e used d.lexemes := by
  cases h with
  | @lone l hf =>
    obtain ⟨hl, -⟩ := hv _ List.mem_cons_self
    have hlone : (Read.lone l).lexemes = [l].map Lexeme.marked := by
      unfold Read.lone
      split
      · simp [stray, Lexeme.lexemes_leaf hl]
      · exact Lexeme.lexemes_draft hl
    rw [hlone]
    exact .all
  | deep ls hf hdeep =>
    rw [lexemes_tooDeep]
    exact .buried [] rfl rfl (by simp)
  | framed hf hdeep run =>
    obtain ⟨hl, hs⟩ := hv _ List.mem_cons_self
    have htight : StackTight config [_] :=
      stackTight_cons.mpr ⟨Frame.tight_ofLexeme? hl hs hf, List.forall_mem_nil _⟩
    obtain ⟨out, hout, hbecomes⟩ := run.lexemes htight fun l hl => hv l (List.mem_cons_of_mem _ hl)
    rw [hout, Frame.stackLexemes_cons, Frame.lexemes_ofLexeme? hl hf]
    exact hbecomes.cons _

/-- The leaves of the items of a text are its lexemes. -/
theorem Items.lexemes {used : List Lexeme} {e : Ending} {ds : List Draft}
    (h : Items config outer used e ds) (hv : ∀ l ∈ used, l.Valid ∧ l.Spelled) :
    Becomes e used (Draft.allLexemes ds) := by
  induction h with
  | nil => exact .all
  | @snoc before used e e' ds d items hallows item ih =>
    have hfront := ih fun l hl => hv l (List.mem_append_left _ hl)
    have hlast := item.lexemes fun l hl => hv l (List.mem_append_right _ hl)
    rw [Draft.allLexemes_append, Draft.allLexemes_cons, Draft.allLexemes_nil, List.append_nil]
    generalize Draft.allLexemes ds = front at hfront
    generalize d.lexemes = last at hlast
    cases hfront with
    | buried _ he =>
      -- no item comes after one that takes the rest of the input
      subst he
      exact absurd hallows item.ne_nil
    | all =>
      cases hlast with
      | all =>
        rw [← List.map_append]
        exact .all
      | buried inner he hls hne =>
        rw [← List.append_assoc, ← List.map_append]
        exact .buried (before ++ inner) he (by rw [hls, List.append_assoc]) hne

end Read

end RacketTree

import RacketTree.Proofs.Token.Truncate
import RacketTree.Proofs.Tree.Boundary
import RacketTree.Proofs.Tree.Descent
import RacketTree.Proofs.Tree.Entries
import RacketTree.Proofs.Tree.Free

/-!
# Datums read alone

The text of a datum or a datum comment anywhere in a tree, read alone, gives that tree again, unless
nesting is too deep in it (`items_text_of_mem_walk`).

The reader has made the tree of a stretch of lexemes. It makes the same of them on every stack that
is not deeper, and before all lexemes that the end of the tree admits (`Makes`); an empty stack and
the end of the input are always among these. For a construct that is still open, `Leads` says the
same of the lexemes so far. Both are carried along the run of the item in which the tree stands, for
all constructs on the stack (`Stacked`). The text of the stretch has the same lexemes when it is
scanned alone (`Token.Stable`).
-/

namespace RacketTree

open Lexeme (texts)

/-- The kinds of datums and of datum comments. -/
def Kind.standsAlone (k : Kind) : Bool :=
  k.isAtom || k.isCompound || k == .datumComment

/-- Every stretch of the lexemes is what its own text is cut into. -/
def Token.Stable (ls : List Lexeme) : Prop :=
  ∀ used, used <:+: ls → lexemes (texts used) = used

/-- If the tree is a datum in which nesting is not too deep, its text is read as the tree. -/
def Shape.Alone (config : Config) (s : Shape) : Prop :=
  s.kind.standsAlone = true → s.Free .nestingTooDeep → Read.shapes config s.text = [s]

variable {config : Config} {depth : Nat} {xs ys : List Lexeme}

namespace Token

theorem stable_lexemes (cs : List Char) : Stable (lexemes cs) := by
  rintro used ⟨before, after, h⟩
  exact lexemes_texts h.symm

theorem Stable.of_part (h : Stable ys) (hpart : xs <:+: ys) : Stable xs := by
  intro used hused
  exact h used (hused.trans hpart)

theorem Stable.left (h : Stable (xs ++ ys)) : Stable xs :=
  h.of_part (List.prefix_append xs ys).isInfix

theorem Stable.right (h : Stable (xs ++ ys)) : Stable ys :=
  h.of_part (List.suffix_append xs ys).isInfix

theorem Stable.lexemes (h : Stable xs) : lexemes (texts xs) = xs :=
  h xs List.infix_rfl

end Token

theorem Shape.alone_of_kind {s : Shape} (h : s.kind.standsAlone = false) : s.Alone config := by
  intro hk
  rw [h] at hk
  cases hk

/-! ## Parts of open constructs -/

namespace Wrapper

theorem parts_add (w : Wrapper) (item : Draft) :
    (Frame.wrapper (w.add item)).parts = (Frame.wrapper w).parts ++ [item] :=
  List.reverse_cons

theorem complete_eq (w : Wrapper) (item : Draft) :
    w.complete item = .branch w.kind ((Frame.wrapper w).parts ++ [item]) none := by
  rw [complete, List.reverse_cons]
  rfl

theorem fail_eq (w : Wrapper) :
    w.fail = .branch .error ((Frame.wrapper w).parts ++ [Draft.missing])
      (some .unexpectedToken) := by
  rw [fail, List.reverse_cons]
  rfl

end Wrapper

namespace Sequence

theorem parts_add (s : Sequence) (item : Draft) (role : Role) :
    (Frame.sequence (s.add item role)).parts = (Frame.sequence s).parts ++ [item] := by
  obtain ⟨opener, children, seen, tail⟩ := s
  cases tail with
  | none => simp [add, Frame.parts]
  | some t => cases role <;> simp [add, Tail.add, Frame.parts]

/-- The dot is one more part, by itself or in an error of its own. -/
theorem parts_addDot (s : Sequence) (config : Config) (dot : Lexeme) :
    ∃ d, (Frame.sequence (s.addDot config dot)).parts = (Frame.sequence s).parts ++ [d] ∧
      (d = dot.leaf ∨ d = .branch .error [dot.leaf] (some .malformedDottedPair)) := by
  obtain ⟨opener, children, seen, tail⟩ := s
  cases tail with
  | some t => exact ⟨dot.leaf, by simp [addDot, Tail.addDot, Frame.parts], .inl rfl⟩
  | none =>
    simp only [addDot]
    split
    · exact ⟨dot.leaf, by simp [Tail.addDot, Tail.empty, Frame.parts], .inl rfl⟩
    · exact ⟨_, by simp [Frame.parts], .inr rfl⟩

/-- A property of the parts of a sequence holds of its children, if it holds of every error. -/
theorem forall_body {p : Shape → Prop} {s : Sequence}
    (herror : ∀ ss, p (.branch .error ss (some .malformedDottedPair)))
    (h : ∀ d ∈ (Frame.sequence s).parts, d.Forall p) : ∀ d ∈ s.body, d.Forall p := by
  obtain ⟨opener, children, seen, tail⟩ := s
  cases tail with
  | none => exact h
  | some t =>
    obtain ⟨hchildren, hpieces⟩ := List.forall_mem_append.mp h
    refine List.forall_mem_append.mpr ⟨hchildren, ?_⟩
    simp only [Option.map_some, Option.getD_some, List.mem_reverse] at hpieces ⊢
    unfold Tail.finish
    split
    · intro d hd
      exact hpieces d (List.mem_reverse.mp hd)
    · rw [List.forall_mem_singleton]
      refine Draft.forall_tail.mpr ⟨herror _, ?_, ?_⟩
      · intro d hd
        exact hpieces d ((List.dropWhile_sublist _).subset (List.mem_reverse.mp hd))
      · intro d hd
        exact hpieces d ((List.takeWhile_sublist _).subset (List.mem_reverse.mp hd))

end Sequence

/-! ## What the reader makes of lexemes -/

namespace Read

open Grammar (resume resumeAfter)
open Token (Stable)

variable {d item : Draft} {role : Role} {e : Ending} {l : Lexeme} {ls : List Lexeme}
  {frame top : Frame} {w : Wrapper} {s : Sequence} {stack rest : List Frame}

/-- The lexemes that may stand behind what ends like this. -/
def Ending.Admits : Ending → List Lexeme → Prop
  | complete, _ => True
  | dangling, ls => ∀ l ∈ ls.head?, stops l = true
  | cut, ls => ls = []

theorem Ending.admits_nil (e : Ending) : e.Admits [] := by
  cases e with
  | complete => trivial
  | dangling => nofun
  | cut => rfl

theorem Ending.admits_stop (hl : stops l = true) : Ending.dangling.Admits (l :: ls) := by
  intro m hm
  cases hm
  exact hl

/-- On every stack of up to `depth` constructs the lexemes are read as an item, which is handed
on. -/
def Makes (config : Config) (depth : Nat) (xs : List Lexeme) (d : Draft) (role : Role)
    (e : Ending) : Prop :=
  ∀ stack : List Frame, stack.length ≤ depth → ∀ ls, e.Admits ls →
    resume config 0 stack (xs ++ ls) = resumeAfter config 0 (deliver d role stack) ls

/-- On every stack of up to `depth` constructs the lexemes lead into an open construct. -/
def Leads (config : Config) (depth : Nat) (xs : List Lexeme) (frame : Frame) (e : Ending) : Prop :=
  ∀ stack : List Frame, stack.length ≤ depth → ∀ ls, e.Admits ls →
    resume config 0 stack (xs ++ ls) = resume config 0 (frame :: stack) ls

/-- An item and the lexemes of which the reader makes it. -/
structure Whole (config : Config) (depth : Nat) (xs : List Lexeme) (d : Draft) (role : Role)
    (e : Ending) : Prop where
  makes : d.Free .nestingTooDeep → Makes config depth xs d role e
  alone : Stable xs → d.Forall (Shape.Alone config)

/-- An open construct and the lexemes that lead to it. -/
structure Front (config : Config) (depth : Nat) (xs : List Lexeme) (frame : Frame)
    (e : Ending) : Prop where
  leads : frame.Free .nestingTooDeep → Leads config depth xs frame e
  alone : Stable xs → ∀ d ∈ frame.parts, d.Forall (Shape.Alone config)

/-- What is made of lexemes on an empty stack before the end of the input is read alone. -/
theorem Makes.shapes_text (h : Makes config depth xs d role e) (hxs : Stable xs) :
    shapes config d.shape.text = [d.shape] := by
  have hread : readItems config 0 xs = [d] := by
    have hnil := h [] (Nat.zero_le depth) [] e.admits_nil
    rw [List.append_nil] at hnil
    simpa [resume, resumeAfter, deliver, readItems] using hnil
  have hshapes : shapes config (texts xs) = [d.shape] := by
    rw [shapes, hxs.lexemes, hread]
    rfl
  have htext : d.shape.text = texts xs := by
    rw [← texts_shapes config (texts xs), hshapes, Shape.texts, Shape.texts, List.append_nil]
  rw [htext, hshapes]

theorem whole_branch {k : Kind} {ds : List Draft} {f : Option Fault}
    (hmakes : (Draft.branch k ds f).Free .nestingTooDeep →
      Makes config depth xs (.branch k ds f) role e)
    (hds : Stable xs → ∀ d ∈ ds, d.Forall (Shape.Alone config)) :
    Whole config depth xs (.branch k ds f) role e where
  makes := hmakes
  alone := by
    intro hxs
    refine Draft.forall_branch.mpr ⟨?_, hds hxs⟩
    intro _ hfree
    have hdraft : (Draft.branch k ds f).Free .nestingTooDeep := by
      rw [Draft.Free, Draft.Forall, Draft.shapes, List.forall_mem_singleton]
      exact hfree
    exact (hmakes hdraft).shapes_text hxs

/-! ## Lexemes -/

theorem alone_leaf (h : l.kind.standsAlone = false) : l.leaf.Forall (Shape.Alone config) := by
  refine Draft.forall_leaf.mpr (Shape.alone_of_kind ?_)
  rw [Shape.kind]
  split
  · rfl
  · exact h

theorem alone_missing : Draft.missing.Forall (Shape.Alone config) :=
  Draft.forall_leaf.mpr (Shape.alone_of_kind rfl)

theorem alone_error {ds : List Draft} {f : Option Fault}
    (h : ∀ d ∈ ds, d.Forall (Shape.Alone config)) :
    (Draft.branch .error ds f).Forall (Shape.Alone config) :=
  Draft.forall_branch.mpr ⟨Shape.alone_of_kind rfl, h⟩

theorem standsAlone_of_stops (h : stops l = true) : l.kind.standsAlone = false := by
  simp only [stops, Bool.or_eq_true, beq_iff_eq] at h
  rcases h with h | h <;> rw [h] <;> rfl

theorem parts_ofLexeme? (h : Frame.ofLexeme? l = some frame) :
    frame.parts = [l.leaf] ∧ l.kind.standsAlone = false := by
  unfold Frame.ofLexeme? at h
  split at h <;> cases h <;> rename_i hk <;> rw [hk] <;> exact ⟨rfl, rfl⟩

theorem front_open (h : Frame.ofLexeme? l = some frame) (hdepth : depth < config.maxDepth) :
    Front config depth [l] frame .complete where
  leads := by
    intro _ stack hstack ls _
    apply Grammar.resume_open h
    omega
  alone := by
    intro _
    obtain ⟨hparts, hk⟩ := parts_ofLexeme? h
    rw [hparts, List.forall_mem_singleton]
    exact alone_leaf hk

theorem whole_lone (hl : l.Valid) (hs : l.Spelled) (hstops : stops l = false)
    (hf : Frame.ofLexeme? l = none) : Whole config depth [l] l.draft l.role .complete := by
  have hmakes : Makes config depth [l] l.draft l.role .complete :=
    fun _ _ _ _ => Grammar.resume_lone hstops hf
  refine ⟨fun _ => hmakes, fun hxs => ?_⟩
  by_cases hk : l.kind = .blockComment
  · -- no part of a block comment is a datum
    rw [Draft.Forall, Draft.shapes_eq (Lexeme.draft_of_valid hl).2.2.isSingle,
      List.forall_mem_singleton]
    intro t ht
    apply Shape.alone_of_kind
    have hcomment := Lexeme.kind_of_mem_draft hl hs hk ht
    cases ht : t.kind <;> rw [ht] at hcomment <;> first
      | rfl
      | cases hcomment
  · rw [Lexeme.draft_eq_leaf hk] at hmakes ⊢
    refine Draft.forall_leaf.mpr fun _ _ => ?_
    exact hmakes.shapes_text hxs

theorem alone_tooDeep : (tooDeep ls).Forall (Shape.Alone config) :=
  Draft.forall_leaf.mpr (Shape.alone_of_kind rfl)

theorem whole_tooDeep : Whole config depth xs (tooDeep ls) role e where
  makes := fun h => absurd rfl (free_tooDeep h)
  alone := fun _ => alone_tooDeep

/-! ## Open constructs -/

namespace Front

/-- A construct that may be followed by anything may be followed by less. -/
theorem weaken (h : Front config depth xs frame .complete) (e : Ending) :
    Front config depth xs frame e where
  leads := by
    intro hfree stack hstack ls _
    exact h.leads hfree stack hstack ls trivial
  alone := h.alone

theorem add_trivia (h : Front config depth xs (.wrapper w) .complete)
    (hitem : Whole config (depth + 1) ys item .trivia e) :
    Front config depth (xs ++ ys) (.wrapper (w.add item)) e where
  leads := by
    intro hfree stack hstack ls hls
    obtain ⟨hw, hi⟩ := Wrapper.free_add hfree
    rw [List.append_assoc, h.leads hw stack hstack _ trivial]
    exact hitem.makes hi (.wrapper w :: stack) (Nat.succ_le_succ hstack) ls hls
  alone := by
    intro hxs
    rw [Wrapper.parts_add, List.forall_mem_append, List.forall_mem_singleton]
    exact ⟨h.alone hxs.left, hitem.alone hxs.right⟩

theorem complete (h : Front config depth xs (.wrapper w) .complete)
    (hitem : Whole config (depth + 1) ys item .datum e) :
    Whole config depth (xs ++ ys) (w.complete item) w.role e := by
  have hmakes : (w.complete item).Free .nestingTooDeep →
      Makes config depth (xs ++ ys) (w.complete item) w.role e := by
    intro hfree stack hstack ls hls
    obtain ⟨hw, hi⟩ := Wrapper.free_complete hfree
    rw [List.append_assoc, h.leads hw stack hstack _ trivial]
    exact hitem.makes hi (.wrapper w :: stack) (Nat.succ_le_succ hstack) ls hls
  rw [Wrapper.complete_eq] at hmakes ⊢
  apply whole_branch hmakes
  intro hxs
  rw [List.forall_mem_append, List.forall_mem_singleton]
  exact ⟨h.alone hxs.left, hitem.alone hxs.right⟩

theorem fail (h : Front config depth xs (.wrapper w) e)
    (he : ∀ ls, e.Admits ls → Ending.dangling.Admits ls) :
    Whole config depth xs w.fail w.role e := by
  have hmakes : w.fail.Free .nestingTooDeep → Makes config depth xs w.fail w.role e := by
    intro hfree stack hstack ls hls
    rw [h.leads (Wrapper.free_fail hfree) stack hstack ls hls]
    exact resume_fail w (he ls hls)
  rw [Wrapper.fail_eq] at hmakes ⊢
  apply whole_branch hmakes
  intro hxs
  rw [List.forall_mem_append, List.forall_mem_singleton]
  exact ⟨h.alone hxs, alone_missing⟩

theorem add (h : Front config depth xs (.sequence s) .complete)
    (hitem : Whole config (depth + 1) ys item role e) :
    Front config depth (xs ++ ys) (.sequence (s.add item role)) e where
  leads := by
    intro hfree stack hstack ls hls
    obtain ⟨hs, hi⟩ := Sequence.free_add hfree
    rw [List.append_assoc, h.leads hs stack hstack _ trivial]
    exact hitem.makes hi (.sequence s :: stack) (Nat.succ_le_succ hstack) ls hls
  alone := by
    intro hxs
    rw [Sequence.parts_add, List.forall_mem_append, List.forall_mem_singleton]
    exact ⟨h.alone hxs.left, hitem.alone hxs.right⟩

theorem addDot (h : Front config depth xs (.sequence s) .dangling) (hk : l.kind = .dot) :
    Front config depth (xs ++ [l]) (.sequence (s.addDot config l)) .complete where
  leads := by
    intro hfree stack hstack ls _
    have hstops : stops l = true := by rw [stops, hk]; rfl
    rw [← List.append_cons,
      h.leads (Sequence.free_addDot hfree) stack hstack _ (Ending.admits_stop hstops)]
    exact Grammar.resume_dot hk
  alone := by
    intro hxs
    obtain ⟨d, hparts, hd⟩ := Sequence.parts_addDot s config l
    have hleaf : l.leaf.Forall (Shape.Alone config) := alone_leaf (by rw [hk]; rfl)
    rw [hparts, List.forall_mem_append, List.forall_mem_singleton]
    refine ⟨h.alone hxs.left, ?_⟩
    rcases hd with rfl | rfl
    · exact hleaf
    · exact alone_error (List.forall_mem_singleton.mpr hleaf)

theorem alone_body (h : Front config depth xs (.sequence s) e) (hxs : Stable xs) :
    ∀ d ∈ s.body, d.Forall (Shape.Alone config) :=
  Sequence.forall_body (fun _ => Shape.alone_of_kind rfl) (h.alone hxs)

theorem close (h : Front config depth xs (.sequence s) .dangling) (hk : l.kind = .closer) :
    Whole config depth (xs ++ [l]) (s.close config l) .datum .complete := by
  apply whole_branch
  · intro hfree stack hstack ls _
    have hstops : stops l = true := by rw [stops, hk]; rfl
    rw [← List.append_cons,
      h.leads (Sequence.free_close hfree) stack hstack _ (Ending.admits_stop hstops)]
    exact Grammar.resume_close hk
  · intro hxs
    have hleaf : l.leaf.Forall (Shape.Alone config) := alone_leaf (by rw [hk]; rfl)
    rw [List.forall_mem_append, List.forall_mem_singleton]
    refine ⟨h.alone_body hxs.left, ?_⟩
    unfold Sequence.closing
    split
    · exact alone_error (List.forall_mem_singleton.mpr hleaf)
    · exact hleaf

theorem unclosed (h : Front config depth xs (.sequence s) .cut) :
    Whole config depth xs s.unclosed .datum .cut := by
  apply whole_branch
  · intro hfree stack hstack ls hls
    rw [h.leads (Sequence.free_unclosed hfree) stack hstack ls hls]
    cases hls
    exact resume_unclosed s
  · intro hxs
    rw [List.forall_mem_append, List.forall_mem_singleton]
    exact ⟨h.alone_body hxs, alone_missing⟩

end Front

/-! ## Stacks -/

/-- The constructs on a stack, each with the lexemes that lead to it. -/
inductive Stacked (config : Config) : List Frame → List Lexeme → Prop
  | nil : Stacked config [] []
  | cons {frame : Frame} {rest : List Frame} {before xs : List Lexeme}
      (hrest : Stacked config rest before)
      (h : Front config rest.length xs frame .complete) : Stacked config (frame :: rest) (before ++ xs)

/-- What has been made of the lexemes once an item has been handed on. -/
def Delivered.Made (config : Config) : Delivered → List Lexeme → Prop
  | .item d, xs => ∃ role, Whole config 0 xs d role .complete
  | .inside top rest, xs => Stacked config (top :: rest) xs

/-- What has been made of the lexemes once the wrappers have ended. -/
def Settled.Made (config : Config) : Settled → List Lexeme → Prop
  | .item d, xs => ∃ role, Whole config 0 xs d role .dangling
  | .sequence s rest, xs => ∃ before ys, xs = before ++ ys ∧ Stacked config rest before ∧
      Front config rest.length ys (.sequence s) .dangling

theorem Stacked.deliver (h : Stacked config stack xs)
    (hitem : Whole config stack.length ys item role .complete) :
    (deliver item role stack).Made config (xs ++ ys) := by
  fun_induction Read.deliver item role stack generalizing xs ys with
  | case1 item role =>
    cases h
    exact ⟨role, hitem⟩
  | case2 item role s rest =>
    cases h with
    | cons hrest hs =>
      rw [List.append_assoc]
      exact .cons hrest (hs.add hitem)
  | case3 item w rest =>
    cases h with
    | cons hrest hw =>
      rw [List.append_assoc]
      exact .cons hrest (hw.add_trivia hitem)
  | case4 item w rest ih =>
    cases h with
    | cons hrest hw =>
      rw [List.append_assoc]
      exact ih hrest (hw.complete hitem)

theorem Stacked.settleWith (h : Stacked config stack xs)
    (hitem : Whole config stack.length ys item role .dangling) :
    (settleWith item role stack).Made config (xs ++ ys) := by
  fun_induction Read.settleWith item role stack generalizing xs ys with
  | case1 item role =>
    cases h
    exact ⟨role, hitem⟩
  | case2 item role s rest =>
    cases h with
    | @cons _ _ before zs hrest hs =>
      exact ⟨before, zs ++ ys, List.append_assoc .., hrest, hs.add hitem⟩
  | case3 item w rest ih =>
    cases h with
    | cons hrest hw =>
      rw [List.append_assoc]
      exact ih hrest ((hw.add_trivia hitem).fail fun _ hls => hls)
  | case4 item w rest ih =>
    cases h with
    | cons hrest hw =>
      rw [List.append_assoc]
      exact ih hrest (hw.complete hitem)

theorem Stacked.settle (h : Stacked config (top :: rest) xs) :
    (settle top rest).Made config xs := by
  cases h with
  | @cons _ _ before ys hrest htop =>
    cases top with
    | sequence s => exact ⟨before, ys, rfl, hrest, htop.weaken .dangling⟩
    | wrapper w => exact hrest.settleWith ((htop.weaken .dangling).fail fun _ hls => hls)

theorem Ending.dangling_of_cut (ls : List Lexeme) (h : Ending.cut.Admits ls) :
    Ending.dangling.Admits ls := by
  cases h
  exact Ending.admits_nil .dangling

theorem Stacked.finishWith (h : Stacked config stack xs)
    (hitem : Whole config stack.length ys item role .cut) :
    ∃ role', Whole config 0 (xs ++ ys) (finishWith item role stack) role' .cut := by
  fun_induction Read.finishWith item role stack generalizing xs ys with
  | case1 item role =>
    cases h
    exact ⟨role, hitem⟩
  | case2 item role s rest ih =>
    cases h with
    | cons hrest hs =>
      rw [List.append_assoc]
      exact ih hrest (hs.add hitem).unclosed
  | case3 item w rest ih =>
    cases h with
    | cons hrest hw =>
      rw [List.append_assoc]
      exact ih hrest ((hw.add_trivia hitem).fail Ending.dangling_of_cut)
  | case4 item w rest ih =>
    cases h with
    | cons hrest hw =>
      rw [List.append_assoc]
      exact ih hrest (hw.complete hitem)

theorem Stacked.finish (h : Stacked config (top :: rest) xs) :
    ∃ role, Whole config 0 xs (finish top rest) role .cut := by
  cases h with
  | cons hrest htop =>
    cases top with
    | sequence s => exact hrest.finishWith (htop.weaken .cut).unclosed
    | wrapper w => exact hrest.finishWith ((htop.weaken .cut).fail Ending.dangling_of_cut)

theorem Stacked.overflow (h : Stacked config (top :: rest) xs) (l : Lexeme) (ls : List Lexeme) :
    ∃ role, Whole config 0 (xs ++ l :: ls) (overflow top rest l ls) role .cut := by
  rw [overflow_eq]
  exact h.finishWith whole_tooDeep

/-! ## Runs and items -/

theorem Stacked.outcome {r : Delivered} (h : Stacked config (top :: rest) xs) (hl : l.Valid)
    (hs : l.Spelled) (hout : outcome config 0 top rest l = .taken r) :
    r.Made config (xs ++ [l]) := by
  have hsettle := h.settle
  rcases outcome_cases config 0 top rest l with
    ⟨_, -, -, hout'⟩ | ⟨s, below, hk, hset, hout'⟩ | ⟨s, below, hk, hset, hout'⟩ |
      ⟨_, -, -, -, hout'⟩ | ⟨frame, -, hf, hdepth, hout'⟩ | ⟨hstops, hf, hout'⟩ <;>
    rw [hout'] at hout <;> cases hout
  · rw [hset] at hsettle
    obtain ⟨before, ys, rfl, hbelow, hfront⟩ := hsettle
    rw [List.append_assoc]
    exact hbelow.deliver (hfront.close hk)
  · rw [hset] at hsettle
    obtain ⟨before, ys, rfl, hbelow, hfront⟩ := hsettle
    rw [List.append_assoc]
    exact .cons hbelow (hfront.addDot hk)
  · apply Stacked.cons h
    apply front_open hf
    rw [List.length_cons]
    omega
  · exact h.deliver (whole_lone hl hs hstops hf)

/-- The item of a run is made of the lexemes that lead to its constructs and those that it takes. -/
theorem Run.whole {used : List Lexeme} (run : Run config 0 top rest used e d)
    (h : Stacked config (top :: rest) xs) (hv : ∀ l ∈ used, l.Valid ∧ l.Spelled) :
    ∃ role e', Whole config 0 (xs ++ used) d role e' := by
  induction run generalizing xs with
  | complete hout =>
    obtain ⟨hl, hs⟩ := hv _ List.mem_cons_self
    obtain ⟨role, hwhole⟩ := h.outcome hl hs hout
    exact ⟨role, .complete, hwhole⟩
  | dangling hset =>
    have hsettle := h.settle
    rw [hset] at hsettle
    obtain ⟨role, hwhole⟩ := hsettle
    exact ⟨role, .dangling, by rwa [List.append_nil]⟩
  | cut top rest =>
    obtain ⟨role, hwhole⟩ := h.finish
    exact ⟨role, .cut, by rwa [List.append_nil]⟩
  | overflow ls hout =>
    obtain ⟨role, hwhole⟩ := h.overflow _ ls
    exact ⟨role, .cut, hwhole⟩
  | step hout run ih =>
    obtain ⟨hl, hs⟩ := hv _ List.mem_cons_self
    rw [List.append_cons]
    exact ih (h.outcome hl hs hout) fun l hl => hv l (List.mem_cons_of_mem _ hl)

theorem Item.alone {used : List Lexeme} (h : Item config 0 used e d)
    (hv : ∀ l ∈ used, l.Valid ∧ l.Spelled) (hused : Stable used) :
    d.Forall (Shape.Alone config) := by
  cases h with
  | @lone l hf =>
    obtain ⟨hl, hs⟩ := hv _ List.mem_cons_self
    unfold Read.lone
    split
    · rename_i hstops
      have hleaf : l.leaf.Forall (Shape.Alone config) := alone_leaf (standsAlone_of_stops hstops)
      exact alone_error (List.forall_mem_singleton.mpr hleaf)
    · rename_i hstops
      have hwhole : Whole config 0 [l] l.draft l.role .complete :=
        whole_lone hl hs (Bool.eq_false_iff.mpr hstops) hf
      exact hwhole.alone hused
  | deep ls hf hdeep => exact alone_tooDeep
  | framed hf hdepth run =>
    have hstack : Stacked config [_] ([] ++ [_]) := .cons .nil (front_open hf hdepth)
    obtain ⟨role, e', hwhole⟩ := run.whole hstack fun l hl => hv l (List.mem_cons_of_mem _ hl)
    exact hwhole.alone hused

/-- Every tree in the items of a text is read alone. -/
theorem alone_shapes (config : Config) (source : List Char) :
    ∀ s ∈ shapes config source, s.Forall (Shape.Alone config) := by
  intro s hs
  obtain ⟨d, hd, rfl⟩ := List.mem_map.mp hs
  obtain ⟨ds, ds', hds⟩ := List.append_of_mem hd
  obtain ⟨before, last, rest, e', e, hls, -, -, item, -⟩ := exists_item_at hds
  have hmem : ∀ l ∈ last, l ∈ Token.lexemes source := by
    intro l hl
    rw [hls]
    exact List.mem_append_left _ (List.mem_append_right _ hl)
  have halone := item.alone
    (fun l hl => ⟨Token.lexemes_valid source l (hmem l hl), Token.lexemes_spelled source l (hmem l hl)⟩)
    ((Token.stable_lexemes source).of_part ⟨before, rest, hls.symm⟩)
  rw [Draft.Forall, Draft.shapes_eq (isSingle_readItems source d hd),
    List.forall_mem_singleton] at halone
  exact halone

end Read

/-! ## Nodes -/

namespace Arena

open Node

mutual

/-- A node below a stored tree is the node of a stored tree. -/
theorem exists_view {a : Arena} {h : Handle} {start : Nat} {n : Node} :
    {s : Shape} → a.Holds h s → n ∈ (a.view h start).walk →
      ∃ t ∈ s.walk, a.Holds n.handle t ∧ n = a.view n.handle n.start
  | .leaf kind text fault, hold, hn => by
    obtain ⟨-, -, -, hcs⟩ := view_leaf hold start
    rw [walk_eq, hcs, walkAll] at hn
    rw [List.mem_singleton.mp hn, handle_view, start_view]
    exact ⟨_, List.mem_cons_self, hold, rfl⟩
  | .branch kind ss fault, hold, hn => by
    obtain ⟨hs, hall, -, -, -, hcs⟩ := view_branch hold start
    rw [walk_eq, hcs] at hn
    rcases List.mem_cons.mp hn with rfl | hn
    · rw [handle_view, start_view]
      exact ⟨_, List.mem_cons_self, hold, rfl⟩
    · obtain ⟨t, ht, hview⟩ := exists_viewAll hall hn
      exact ⟨t, List.mem_cons_of_mem _ ht, hview⟩

theorem exists_viewAll {a : Arena} {m : Nat} {hs : List Handle} {start : Nat} {n : Node} :
    {ss : List Shape} → a.HoldsAll m hs ss → n ∈ walkAll (a.viewAll start hs) →
      ∃ t ∈ Shape.walkAll ss, a.Holds n.handle t ∧ n = a.view n.handle n.start
  | [], hall, hn => by
    cases hall
    cases hn
  | s :: ss, ⟨h, rest, hhs, _, hold, hrest⟩, hn => by
    rw [hhs, viewAll, walkAll] at hn
    rcases List.mem_append.mp hn with hn | hn
    · obtain ⟨t, ht, hview⟩ := exists_view hold hn
      exact ⟨t, List.mem_append_left _ ht, hview⟩
    · obtain ⟨t, ht, hview⟩ := exists_viewAll hrest hn
      exact ⟨t, List.mem_append_right _ ht, hview⟩

end

end Arena

theorem Node.Tiles.text_eq {n : Node} {source : List Char} (h : n.Tiles source) :
    n.text source = Node.spell n.walk := by
  rw [← h.spells, Node.text]
  cases hleaf : n.isLeaf with
  | true =>
    rw [(h.leaf hleaf).2]
    rfl
  | false =>
    rw [Node.isLeaf, Option.isSome_eq_false_iff, Option.isNone_iff_eq_none] at hleaf
    rw [hleaf]
    rfl

/-- The text of a datum or a datum comment in which nesting is not too deep, read alone, has that
tree as its only item. -/
theorem items_text_of_mem_walk (config : Config) (source : List Char) {n : Node}
    (hn : n ∈ ((parse config source).2.node (parse config source).1).walk)
    (hkind : n.kind.isAtom = true ∨ n.kind.isSequence = true ∨ n.kind.isWrapper = true ∨
      n.kind = .datumComment)
    (hfree : ∀ m ∈ n.walk, m.fault ≠ some .nestingTooDeep) :
    ∃ m, (parse config (n.text source)).2.items (parse config (n.text source)).1 = [m] ∧
      (parse config source).1.same (parse config (n.text source)).1 n.handle m.handle = true := by
  have hcovers := covers_parse config source
  obtain ⟨t, ht, hold, hview⟩ := Arena.exists_view hcovers.holds hn
  have htext : n.text source = t.text := by
    have hsource : source.drop 0 =
        (Shape.branch .source (Read.shapes config source) none).text ++ [] := by
      rw [List.drop_zero, Shape.text, hcovers.text, List.append_nil]
      rfl
    have htiles := Arena.tiles_view (Nat.zero_le _) hcovers.holds hsource n hn
    rw [htiles.text_eq, hview, Arena.spell_view n.start hold]
  have hshape : n.shape = t := by
    rw [hview, Arena.shape_view n.start hold]
  have halone : Read.shapes config t.text = [t] := by
    have hall : (Shape.branch .source (Read.shapes config source) none).Forall
        (Shape.Alone config) :=
      Shape.forall_branch.mpr ⟨Shape.alone_of_kind rfl, Read.alone_shapes config source⟩
    apply hall t ht
    · rw [← hshape, Node.kind_shape, Kind.standsAlone, Kind.isCompound]
      simp only [Bool.or_eq_true, beq_iff_eq]
      tauto
    · have hwalk : n.walk.map Node.shape = t.walk := by
        rw [hview, Arena.map_shape_walk_view n.start hold]
      intro u hu
      rw [← hwalk] at hu
      obtain ⟨m, hm, rfl⟩ := List.mem_map.mp hu
      rw [Node.fault_shape]
      exact hfree m hm
  obtain ⟨hs, hall, hitems⟩ := (covers_parse config (n.text source)).exists_items
  rw [htext, halone] at hall
  obtain ⟨x, rest, rfl, -, hx, rfl⟩ := hall
  rw [htext] at hitems ⊢
  refine ⟨_, hitems, ?_⟩
  rw [Arena.handle_view]
  exact (Arena.same_iff hx).mpr hold

/-- A quoted list with a character literal and a dot that no datum follows. -/
theorem items_text_of_mem_walk_list :
    let source := ['\x27', '(', '#', '\\', '1', ' ', '.', ')', '2']
    let root := (parse .default source).2.node (parse .default source).1
    ∃ n ∈ root.walk, n.kind.isSequence = true ∧ n.hasFault = true ∧
      (∀ m ∈ n.walk, m.fault ≠ some .nestingTooDeep) ∧
      ∃ m, (parse .default (n.text source)).2.items (parse .default (n.text source)).1 = [m] ∧
        (parse .default source).1.same (parse .default (n.text source)).1 n.handle m.handle =
          true := by
  intro source root
  have hany : root.walk.any (fun n => n.kind.isSequence && n.hasFault &&
      n.walk.all fun m => m.fault ≠ some .nestingTooDeep) = true := by decide +kernel
  obtain ⟨n, hn, hand⟩ := List.any_eq_true.mp hany
  simp only [Bool.and_eq_true, List.all_eq_true, decide_eq_true_eq] at hand
  obtain ⟨⟨hkind, hfault⟩, hfree⟩ := hand
  exact ⟨n, hn, hkind, hfault, hfree,
    items_text_of_mem_walk .default source hn (.inr (.inl hkind)) hfree⟩

end RacketTree

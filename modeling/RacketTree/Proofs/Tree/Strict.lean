import RacketTree.Proofs.Tree.Entries

/-!
# Strict delimiters

`Shape.strict` puts every closing delimiter of a tree that is not the counterpart of its own opening
one in an error. What is read with strict delimiters is `Shape.strict` of what is read without them
(`Read.shapes_strict`).

The two readers are run side by side. Their stacks have the same constructs with the same state, and
the children on one of them are those on the other in strict form (`Frame.Stricter`). Nothing that
the reader decides depends on the difference: whether a draft is trivia is the same for both.
-/

namespace RacketTree

open List (Forall₂)

instance Grammar.decidablePairs (opener closer : List Char) : Decidable (Grammar.Pairs opener closer) :=
  decidable_of_iff
    (∃ p ∈ [('(', ')'), ('[', ']'), ('\x7b', '\x7d')], opener.getLast? = some p.1 ∧ closer = [p.2])
    ⟨fun ⟨p, hp, hopener, hcloser⟩ => ⟨p.1, p.2, hopener, hcloser, hp⟩,
      fun ⟨b, c, hopener, hcloser, hp⟩ => ⟨(b, c), hp, hopener, hcloser⟩⟩

/-! ## Trees in strict form -/

namespace Shape

/-- A child of a sequence: a closing delimiter that is not the counterpart of the opening one is put
in an error. -/
def closeStrictly (opener : List Char) (s : Shape) : Shape :=
  if s.kind = .closer ∧ ¬Grammar.Pairs opener s.text then
    branch .error [s] (some .delimiterMismatch)
  else s

/-- The text of the first child of a sequence. -/
def openerText : List Shape → List Char
  | [] => []
  | s :: _ => s.text

mutual

/-- The tree with each closing delimiter that is not the counterpart of its own opening one in an
error. -/
def strict : Shape → Shape
  | leaf kind text fault => leaf kind text fault
  | branch kind children fault =>
    branch kind
      (if kind.isSequence then (stricts children).map (closeStrictly (openerText children))
      else stricts children) fault

/-- Several trees in strict form. -/
def stricts : List Shape → List Shape
  | [] => []
  | s :: rest => s.strict :: stricts rest

end

variable {k : Kind} {ss : List Shape} {f : Option Fault}

theorem stricts_eq (ss : List Shape) : stricts ss = ss.map strict := by
  induction ss with
  | nil => rfl
  | cons s ss ih => rw [stricts, ih, List.map_cons]

theorem kind_strict (s : Shape) : s.strict.kind = s.kind := by
  cases s with
  | leaf => rw [strict]
  | branch => rw [strict, kind, kind]

theorem strict_branch (hk : k.isSequence = false) :
    (branch k ss f).strict = branch k (ss.map strict) f := by
  rw [strict, hk, if_neg Bool.false_ne_true, stricts_eq]

theorem closeStrictly_of_kind {opener : List Char} {s : Shape} (h : s.kind ≠ .closer) :
    closeStrictly opener s = s :=
  if_neg fun hand => h hand.1

/-- A sequence has its children in strict form, and its closing delimiter is compared to its
opening one. -/
theorem strict_sequence {opener closer : List Char} {body : List Shape} (hk : k.isSequence = true)
    (hbody : ∀ s ∈ body, s.kind ≠ .closer) :
    (branch k (leaf .opener opener none :: (body ++ [leaf .closer closer none])) f).strict =
      branch k (leaf .opener opener none ::
        (body.map strict ++ [closeStrictly opener (leaf .closer closer none)])) f := by
  have hmap : (body.map strict).map (closeStrictly opener) = body.map strict := by
    rw [List.map_map]
    apply List.map_congr_left
    intro s hs
    apply closeStrictly_of_kind
    rw [kind_strict]
    exact hbody s hs
  have hfirst : closeStrictly opener (leaf .opener opener none) = leaf .opener opener none :=
    closeStrictly_of_kind nofun
  rw [strict, hk, if_pos rfl, openerText, text, stricts_eq, List.map_cons, List.map_append,
    List.map_singleton, strict, strict, List.map_cons, List.map_append, List.map_singleton, hmap,
    hfirst]

mutual

/-- A tree without sequences is in strict form. -/
theorem strict_eq_self :
    {s : Shape} → (∀ t ∈ s.walk, t.kind.isSequence = false) → s.strict = s
  | leaf _ _ _, _ => rfl
  | branch kind ss fault, h => by
    obtain ⟨hkind, hss⟩ := List.forall_mem_cons.mp h
    have hk : kind.isSequence = false := hkind
    rw [strict_branch hk, ← stricts_eq, stricts_eq_self hss]

theorem stricts_eq_self :
    {ss : List Shape} → (∀ t ∈ walkAll ss, t.kind.isSequence = false) → stricts ss = ss
  | [], _ => rfl
  | s :: ss, h => by
    obtain ⟨hs, hss⟩ := List.forall_mem_append.mp h
    rw [stricts, strict_eq_self hs, stricts_eq_self hss]

end

end Shape

/-! ## Drafts -/

/-- The second draft is the first one in strict form. -/
structure Draft.Stricter (d d' : Draft) : Prop where
  shapes : d'.shapes = d.shapes.map Shape.strict
  isTrivia : d'.isTrivia = d.isTrivia

namespace Draft

variable {k : Kind} {ds ds' : List Draft} {f : Option Fault}

theorem allShapes_stricter (h : Forall₂ Stricter ds ds') :
    allShapes ds' = (allShapes ds).map Shape.strict := by
  induction h with
  | nil => rfl
  | cons hd _ ih => rw [allShapes, allShapes, hd.shapes, ih, List.map_append]

theorem Stricter.leaf (k : Kind) (text : List Char) (f : Option Fault) :
    (leaf k text f).Stricter (leaf k text f) :=
  ⟨rfl, rfl⟩

theorem Stricter.branch (hk : k.isSequence = false) (h : Forall₂ Stricter ds ds') :
    (branch k ds f).Stricter (branch k ds' f) := by
  refine ⟨?_, rfl⟩
  rw [Draft.shapes, Draft.shapes, List.map_singleton, Shape.strict_branch hk, allShapes_stricter h]

theorem Stricter.tail {ts ts' : List Draft} (h : Forall₂ Stricter ds ds')
    (ht : Forall₂ Stricter ts ts') : (tail ds ts).Stricter (tail ds' ts') := by
  refine ⟨?_, rfl⟩
  rw [Draft.shapes, Draft.shapes, List.map_cons, Shape.strict_branch rfl, allShapes_stricter h,
    allShapes_stricter ht]

/-- The trivia in front is the same for both, and so is the rest. -/
theorem forall₂_takeWhile (h : Forall₂ Stricter ds ds') :
    Forall₂ Stricter (ds.takeWhile isTrivia) (ds'.takeWhile isTrivia) ∧
      Forall₂ Stricter (ds.dropWhile isTrivia) (ds'.dropWhile isTrivia) := by
  induction h with
  | nil => exact ⟨.nil, .nil⟩
  | @cons d d' ds ds' hd hds ih =>
    rw [List.takeWhile_cons, List.takeWhile_cons, List.dropWhile_cons, List.dropWhile_cons,
      hd.isTrivia]
    cases d.isTrivia with
    | true => exact ⟨.cons hd ih.1, ih.2⟩
    | false => exact ⟨.nil, .cons hd hds⟩

end Draft

theorem Lexeme.leaf_stricter (l : Lexeme) : l.leaf.Stricter l.leaf :=
  .leaf _ _ _

theorem Lexeme.draft_stricter {l : Lexeme} (hl : l.Valid) (hs : l.Spelled) :
    l.draft.Stricter l.draft := by
  by_cases hk : l.kind = .blockComment
  · -- there is no sequence in a block comment
    refine ⟨?_, rfl⟩
    rw [Draft.shapes_eq (draft_of_valid hl).2.2.isSingle, List.map_singleton, Shape.strict_eq_self]
    intro t ht
    have hcomment := kind_of_mem_draft hl hs hk ht
    cases ht : t.kind <;> rw [ht] at hcomment <;> first
      | rfl
      | cases hcomment
  · rw [draft_eq_leaf hk]
    exact l.leaf_stricter

/-! ## Open constructs -/

/-- The second wrapper is the first one in strict form. -/
structure Wrapper.Stricter (w w' : Wrapper) : Prop where
  kind : w'.kind = w.kind
  noSequence : w.kind.isSequence = false
  children : Forall₂ Draft.Stricter w.children w'.children

/-- The second tail is the first one in strict form. -/
structure Tail.Stricter (t t' : Tail) : Prop where
  pieces : Forall₂ Draft.Stricter t.pieces t'.pieces
  dots : t'.dots = t.dots
  wellFormed : t'.wellFormed = t.wellFormed
  awaiting : t'.awaiting = t.awaiting

/-- The second sequence is the first one in strict form. -/
structure Sequence.Stricter (s s' : Sequence) : Prop where
  opener : s'.opener = s.opener
  bracket : ∃ c, s.opener.getLast? = some c ∧ Token.isOpenBracket c = true
  children : Forall₂ Draft.Stricter s.children s'.children
  seenDatum : s'.seenDatum = s.seenDatum
  tail : Option.Rel Tail.Stricter s.tail s'.tail

/-- The second construct is the first one in strict form. -/
inductive Frame.Stricter : Frame → Frame → Prop
  | wrapper {w w' : Wrapper} (h : w.Stricter w') : Stricter (wrapper w) (wrapper w')
  | sequence {s s' : Sequence} (h : s.Stricter s') : Stricter (sequence s) (sequence s')

/-- The options differ in strict delimiters alone. -/
structure Config.Stricter (c c' : Config) : Prop where
  off : c.strictDelimiters = false
  on : c'.strictDelimiters = true
  maxDepth : c'.maxDepth = c.maxDepth
  maxDots : c'.maxDots = c.maxDots

variable {c c' : Config} {item item' : Draft} {role : Role}

namespace Wrapper.Stricter

variable {w w' : Wrapper}

theorem role_eq (h : w.Stricter w') : w'.role = w.role := by
  rw [Wrapper.role, Wrapper.role, h.kind]

theorem add (h : w.Stricter w') (hitem : item.Stricter item') :
    (w.add item).Stricter (w'.add item') :=
  ⟨h.kind, h.noSequence, .cons hitem h.children⟩

theorem complete (h : w.Stricter w') (hitem : item.Stricter item') :
    (w.complete item).Stricter (w'.complete item') := by
  rw [Wrapper.complete, Wrapper.complete, h.kind]
  exact .branch h.noSequence (List.rel_reverse (.cons hitem h.children))

theorem fail (h : w.Stricter w') : w.fail.Stricter w'.fail :=
  .branch rfl (List.rel_reverse (.cons (.leaf _ _ _) h.children))

end Wrapper.Stricter

namespace Tail.Stricter

variable {t t' : Tail}

theorem add (h : t.Stricter t') (hitem : item.Stricter item') :
    (t.add item role).Stricter (t'.add item' role) := by
  cases role with
  | trivia => exact ⟨.cons hitem h.pieces, h.dots, h.wellFormed, h.awaiting⟩
  | datum =>
    refine ⟨.cons hitem h.pieces, h.dots, ?_, rfl⟩
    simp only [Tail.add, h.wellFormed, h.awaiting]

theorem addDot (h : t.Stricter t') (n : Nat) (hitem : item.Stricter item') :
    (t.addDot n item).Stricter (t'.addDot n item') := by
  refine ⟨.cons hitem h.pieces, ?_, ?_, rfl⟩
  · simp only [Tail.addDot, h.dots]
  · simp only [Tail.addDot, h.dots, h.wellFormed, h.awaiting]

theorem finish (h : t.Stricter t') : Forall₂ Draft.Stricter t.finish t'.finish := by
  unfold Tail.finish
  rw [h.wellFormed, h.awaiting]
  split
  · exact List.rel_reverse h.pieces
  · obtain ⟨htrailing, hpieces⟩ := Draft.forall₂_takeWhile h.pieces
    exact .cons (.tail (List.rel_reverse hpieces) (List.rel_reverse htrailing)) .nil

end Tail.Stricter

namespace Sequence.Stricter

variable {s s' : Sequence} {l : Lexeme}

theorem kind (h : s.Stricter s') : s'.kind = s.kind := by
  rw [Sequence.kind, Sequence.kind, h.opener]

theorem add (h : s.Stricter s') (hitem : item.Stricter item') :
    (s.add item role).Stricter (s'.add item' role) := by
  have htail := h.tail
  unfold Sequence.add
  generalize s.tail = tail, s'.tail = tail' at htail
  cases htail with
  | none =>
    refine ⟨h.opener, h.bracket, .cons hitem h.children, ?_, .none⟩
    simp only [h.seenDatum]
  | some ht => exact ⟨h.opener, h.bracket, h.children, h.seenDatum, .some (ht.add hitem)⟩

theorem addDot (hc : c.Stricter c') (h : s.Stricter s') :
    (s.addDot c l).Stricter (s'.addDot c' l) := by
  have htail := h.tail
  unfold Sequence.addDot
  rw [h.kind, h.seenDatum, hc.maxDots]
  generalize s.tail = tail, s'.tail = tail' at htail
  cases htail with
  | some ht => exact ⟨h.opener, h.bracket, h.children, rfl, .some (ht.addDot _ l.leaf_stricter)⟩
  | none =>
    dsimp only
    split
    · have hempty : Tail.empty.Stricter Tail.empty := ⟨.nil, rfl, rfl, rfl⟩
      exact ⟨h.opener, h.bracket, h.children, rfl, .some (hempty.addDot _ l.leaf_stricter)⟩
    · have herror := Draft.Stricter.branch (k := .error) (f := some .malformedDottedPair) rfl
        (.cons l.leaf_stricter .nil)
      exact ⟨h.opener, h.bracket, .cons herror h.children, rfl, .none⟩

theorem body (h : s.Stricter s') : Forall₂ Draft.Stricter s.body s'.body := by
  have htail := h.tail
  unfold Sequence.body
  generalize s.tail = tail, s'.tail = tail' at htail
  apply List.rel_append (List.rel_reverse h.children)
  cases htail with
  | none => exact .nil
  | some ht => exact ht.finish

theorem unclosed (h : s.Stricter s') : s.unclosed.Stricter s'.unclosed :=
  .branch rfl (List.rel_append h.body (.cons (.leaf _ _ _) .nil))

/-- The closing delimiter of the one sequence is that of the other, compared to the opener. -/
theorem closing (hc : c.Stricter c') (h : s.Stricter s') (hs : l.Spelled) (hk : l.kind = .closer) :
    Draft.allShapes [s.closing c l] = [.leaf .closer l.text none] ∧
      Draft.allShapes [s'.closing c' l] =
        [Shape.closeStrictly s.opener (.leaf .closer l.text none)] := by
  have hleaf : Draft.allShapes [l.leaf] = [.leaf .closer l.text none] := by
    rw [Lexeme.leaf_eq hs (by simp [hk]) (by simp [hk]), hk]
    rfl
  have hcounter : s'.counterpart = s.counterpart := by
    rw [Sequence.counterpart, Sequence.counterpart, h.opener]
  have hpairs : Grammar.Pairs s.opener l.text ↔ l.text = [s.counterpart] :=
    Grammar.pairs_iff h.bracket
  constructor
  · rw [Sequence.closing, hc.off, Bool.false_and, if_neg Bool.false_ne_true, hleaf]
  · rw [Sequence.closing, hc.on, Bool.true_and, hcounter, Shape.closeStrictly]
    by_cases htext : l.text = [s.counterpart]
    · rw [if_neg (by simp [htext]), if_neg fun hand => hand.2 (hpairs.mpr htext), hleaf]
    · rw [if_pos (by simpa using htext), if_pos ⟨rfl, fun hp => htext (hpairs.mp hp)⟩,
        Draft.allShapes, Draft.shapes, hleaf]
      rfl

theorem close (hc : c.Stricter c') (h : s.Stricter s') {front : List Shape}
    (hopen : s.Open c front) (hs : l.Spelled) (hk : l.kind = .closer) :
    (s.close c l).Stricter (s'.close c' l) := by
  obtain ⟨body, hbody, hloose⟩ := hopen.body
  obtain ⟨hcloser, hcloser'⟩ := h.closing hc hs hk
  have hkinds : ∀ x ∈ front ++ body, x.kind ≠ .closer := by
    intro x hx hkind
    rcases (hloose x hx).1 with hitem | rfl
    · rw [Shape.isItem, hkind] at hitem
      cases hitem
    · cases hkind
  have hseq : s.kind.isSequence = true := Kind.isSequence_ofOpener s.opener
  have hshape : Shape.strict (.branch s.kind (Draft.allShapes (s.body ++ [s.closing c l])) none) =
      .branch s'.kind (Draft.allShapes (s'.body ++ [s'.closing c' l])) none := by
    rw [Draft.allShapes_append, Draft.allShapes_append, Draft.allShapes_stricter h.body, hbody,
      hcloser, hcloser', h.kind, List.cons_append, Shape.strict_sequence hseq hkinds]
    rfl
  constructor
  · rw [Sequence.close, Sequence.close, Draft.shapes, Draft.shapes, List.map_singleton, hshape]
  · rw [Sequence.close, Sequence.close, h.kind]
    rfl

end Sequence.Stricter

/-! ## The two readers -/

namespace Read

open RacketTree.Frame (StackTight stackTight_cons)

variable {outer : Nat} {d : Draft} {top top' : Frame} {rest rest' stack stack' : List Frame}
  {l : Lexeme}

/-- The second outcome is the first one in strict form. -/
inductive Delivered.Stricter : Delivered → Delivered → Prop
  | item {d d' : Draft} (h : d.Stricter d') : Stricter (.item d) (.item d')
  | inside {top top' : Frame} {rest rest' : List Frame}
      (h : Forall₂ Frame.Stricter (top :: rest) (top' :: rest')) :
      Stricter (.inside top rest) (.inside top' rest')

/-- The second outcome is the first one in strict form. -/
inductive Settled.Stricter : Settled → Settled → Prop
  | item {d d' : Draft} (h : d.Stricter d') : Stricter (.item d) (.item d')
  | sequence {s s' : Sequence} {rest rest' : List Frame} (h : s.Stricter s')
      (hrest : Forall₂ Frame.Stricter rest rest') : Stricter (.sequence s rest) (.sequence s' rest')

theorem deliver_stricter (h : Forall₂ Frame.Stricter stack stack')
    (hitem : item.Stricter item') :
    (deliver item role stack).Stricter (deliver item' role stack') := by
  fun_induction deliver item role stack generalizing stack' item' with
  | case1 item =>
    cases h
    exact .item hitem
  | case2 item role s rest =>
    obtain _ | ⟨⟨⟩ | ⟨hs⟩, hrest⟩ := h
    exact .inside (.cons (.sequence (hs.add hitem)) hrest)
  | case3 item w rest =>
    obtain _ | ⟨⟨hw⟩ | ⟨⟩, hrest⟩ := h
    exact .inside (.cons (.wrapper (hw.add hitem)) hrest)
  | case4 item w rest ih =>
    obtain _ | ⟨⟨hw⟩ | ⟨⟩, hrest⟩ := h
    rw [deliver, hw.role_eq]
    exact ih hrest (hw.complete hitem)

theorem settleWith_stricter (h : Forall₂ Frame.Stricter stack stack')
    (hitem : item.Stricter item') :
    (settleWith item role stack).Stricter (settleWith item' role stack') := by
  fun_induction settleWith item role stack generalizing stack' item' with
  | case1 item =>
    cases h
    exact .item hitem
  | case2 item role s rest =>
    obtain _ | ⟨⟨⟩ | ⟨hs⟩, hrest⟩ := h
    exact .sequence (hs.add hitem) hrest
  | case3 item w rest ih =>
    obtain _ | ⟨⟨hw⟩ | ⟨⟩, hrest⟩ := h
    rw [settleWith, hw.role_eq]
    exact ih hrest (hw.add hitem).fail
  | case4 item w rest ih =>
    obtain _ | ⟨⟨hw⟩ | ⟨⟩, hrest⟩ := h
    rw [settleWith, hw.role_eq]
    exact ih hrest (hw.complete hitem)

theorem settle_stricter (h : Forall₂ Frame.Stricter (top :: rest) (top' :: rest')) :
    (settle top rest).Stricter (settle top' rest') := by
  obtain _ | ⟨⟨hw⟩ | ⟨hs⟩, hrest⟩ := h
  · rw [settle, settle, hw.role_eq]
    exact settleWith_stricter hrest hw.fail
  · exact .sequence hs hrest

theorem finishWith_stricter (h : Forall₂ Frame.Stricter stack stack')
    (hitem : item.Stricter item') :
    (finishWith item role stack).Stricter (finishWith item' role stack') := by
  fun_induction finishWith item role stack generalizing stack' item' with
  | case1 item =>
    cases h
    exact hitem
  | case2 item role s rest ih =>
    obtain _ | ⟨⟨⟩ | ⟨hs⟩, hrest⟩ := h
    exact ih hrest (hs.add hitem).unclosed
  | case3 item w rest ih =>
    obtain _ | ⟨⟨hw⟩ | ⟨⟩, hrest⟩ := h
    rw [finishWith, hw.role_eq]
    exact ih hrest (hw.add hitem).fail
  | case4 item w rest ih =>
    obtain _ | ⟨⟨hw⟩ | ⟨⟩, hrest⟩ := h
    rw [finishWith, hw.role_eq]
    exact ih hrest (hw.complete hitem)

theorem finish_stricter (h : Forall₂ Frame.Stricter (top :: rest) (top' :: rest')) :
    (finish top rest).Stricter (finish top' rest') := by
  obtain _ | ⟨⟨hw⟩ | ⟨hs⟩, hrest⟩ := h
  · rw [finish, finish, hw.role_eq]
    exact finishWith_stricter hrest hw.fail
  · exact finishWith_stricter hrest hs.unclosed

theorem overflow_stricter (h : Forall₂ Frame.Stricter (top :: rest) (top' :: rest')) (l : Lexeme)
    (ls : List Lexeme) : (overflow top rest l ls).Stricter (overflow top' rest' l ls) := by
  rw [overflow_eq, overflow_eq]
  exact finishWith_stricter h (.leaf _ _ _)

theorem stricter_ofLexeme? {frame : Frame} (hl : l.Valid) (h : Frame.ofLexeme? l = some frame) :
    frame.Stricter frame := by
  have hleaf : Forall₂ Draft.Stricter [l.leaf] [l.leaf] := .cons l.leaf_stricter .nil
  unfold Frame.ofLexeme? at h
  split at h <;> cases h
  · rename_i hk
    exact .sequence ⟨rfl, hl.opener hk, hleaf, rfl, .none⟩
  · refine .wrapper ⟨rfl, ?_, hleaf⟩
    unfold Kind.ofPrefix
    dsimp only
    split <;> rfl
  · exact .wrapper ⟨rfl, rfl, hleaf⟩
  · exact .wrapper ⟨rfl, rfl, hleaf⟩

/-- A lexeme that is taken is taken in strict mode too. -/
theorem outcome_stricter {r : Delivered} (hc : c.Stricter c')
    (h : Forall₂ Frame.Stricter (top :: rest) (top' :: rest'))
    (htight : StackTight c (top :: rest)) (hl : l.Valid) (hs : l.Spelled)
    (hout : outcome c outer top rest l = .taken r) :
    ∃ r', outcome c' outer top' rest' l = .taken r' ∧ r.Stricter r' := by
  have hsettle := settle_stricter h
  have hlength : rest'.length = rest.length := (List.forall₂_cons.mp h).2.length_eq.symm
  rcases outcome_cases c outer top rest l with
    ⟨_, -, -, hout'⟩ | ⟨s, below, hk, hset, hout'⟩ | ⟨s, below, hk, hset, hout'⟩ |
      ⟨_, -, -, -, hout'⟩ | ⟨frame, hstops, hf, hdepth, hout'⟩ | ⟨hstops, hf, hout'⟩ <;>
    rw [hout'] at hout <;> cases hout
  · have hsettled := tight_settle htight
    rw [hset] at hsettle hsettled
    obtain ⟨⟨front, hopen⟩, -⟩ := stackTight_cons.mp hsettled
    generalize hset' : settle top' rest' = settled' at hsettle
    cases hsettle with
    | @sequence _ s' _ below' hs' hbelow =>
      have hout'' : outcome c' outer top' rest' l =
          .taken (deliver (s'.close c' l) .datum below') := by simp only [outcome, hk, hset']
      exact ⟨_, hout'', deliver_stricter hbelow (hs'.close hc hopen.toOpen hs hk)⟩
  · rw [hset] at hsettle
    generalize hset' : settle top' rest' = settled' at hsettle
    cases hsettle with
    | @sequence _ s' _ below' hs' hbelow =>
      have hout'' : outcome c' outer top' rest' l =
          .taken (.inside (.sequence (s'.addDot c' l)) below') := by simp only [outcome, hk, hset']
      exact ⟨_, hout'', .inside (.cons (.sequence (hs'.addDot hc)) hbelow)⟩
  · have hle : ¬c'.maxDepth ≤ outer + rest'.length + 1 := by
      rw [hc.maxDepth, hlength]
      omega
    refine ⟨.inside frame (top' :: rest'), ?_, .inside (.cons (stricter_ofLexeme? hl hf) h)⟩
    rw [outcome_of_not_stops _ _ _ _ hstops, hf]
    exact if_neg hle
  · refine ⟨_, ?_, deliver_stricter h (l.draft_stricter hl hs)⟩
    rw [outcome_of_not_stops _ _ _ _ hstops, hf]

theorem overflow_of_stricter (hc : c.Stricter c')
    (h : Forall₂ Frame.Stricter (top :: rest) (top' :: rest'))
    (hout : outcome c outer top rest l = .overflow) : outcome c' outer top' rest' l = .overflow := by
  have hlength : rest'.length = rest.length := (List.forall₂_cons.mp h).2.length_eq.symm
  rw [outcome_eq_overflow] at hout ⊢
  rw [hc.maxDepth, hlength]
  exact hout

/-- A run is a run in strict mode, to the item in strict form. -/
theorem Run.stricter {used : List Lexeme} {e : Ending} (hc : c.Stricter c')
    (run : Run c outer top rest used e d)
    (h : Forall₂ Frame.Stricter (top :: rest) (top' :: rest')) (htight : StackTight c (top :: rest))
    (hv : ∀ l ∈ used, l.Valid ∧ l.Spelled) :
    ∃ d', Run c' outer top' rest' used e d' ∧ d.Stricter d' := by
  induction run generalizing top' rest' with
  | complete hout =>
    obtain ⟨hl, hs⟩ := hv _ List.mem_cons_self
    obtain ⟨r', hout', hr⟩ := outcome_stricter hc h htight hl hs hout
    cases hr with
    | item hd => exact ⟨_, .complete hout', hd⟩
  | dangling hset =>
    have hsettle := settle_stricter h
    rw [hset] at hsettle
    generalize hset' : settle top' rest' = settled' at hsettle
    cases hsettle with
    | item hd => exact ⟨_, .dangling hset', hd⟩
  | cut top rest => exact ⟨_, .cut top' rest', finish_stricter h⟩
  | overflow ls hout =>
    exact ⟨_, .overflow ls (overflow_of_stricter hc h hout), overflow_stricter h _ ls⟩
  | step hout run ih =>
    obtain ⟨hl, hs⟩ := hv _ List.mem_cons_self
    obtain ⟨r', hout', hr⟩ := outcome_stricter hc h htight hl hs hout
    cases hr with
    | inside hstack =>
      obtain ⟨d', run', hd⟩ := ih hstack (tight_outcome htight hl hs hout)
        fun l hl => hv l (List.mem_cons_of_mem _ hl)
      exact ⟨d', .step hout' run', hd⟩

theorem Item.stricter {used : List Lexeme} {e : Ending} (hc : c.Stricter c')
    (item : Item c outer used e d) (hv : ∀ l ∈ used, l.Valid ∧ l.Spelled) :
    ∃ d', Item c' outer used e d' ∧ d.Stricter d' := by
  cases item with
  | @lone l hf =>
    refine ⟨_, .lone hf, ?_⟩
    unfold Read.lone
    split
    · exact .branch rfl (.cons l.leaf_stricter .nil)
    · obtain ⟨hl, hs⟩ := hv _ List.mem_cons_self
      exact l.draft_stricter hl hs
  | deep ls hf hdeep => exact ⟨_, .deep ls hf (hc.maxDepth ▸ hdeep), .leaf _ _ _⟩
  | framed hf hdepth run =>
    obtain ⟨hl, hs⟩ := hv _ List.mem_cons_self
    have hframe : StackTight c [_] := List.forall_mem_singleton.mpr (Frame.tight_ofLexeme? hl hs hf)
    obtain ⟨d', run', hd⟩ := run.stricter hc (.cons (stricter_ofLexeme? hl hf) .nil) hframe
      fun l hl => hv l (List.mem_cons_of_mem _ hl)
    exact ⟨d', .framed hf (hc.maxDepth ▸ hdepth) run', hd⟩

/-- With strict delimiters a text has the same items in strict form. -/
theorem shapes_strict (hc : c.Stricter c') (source : List Char) :
    shapes c' source = (shapes c source).map Shape.strict := by
  have hread : Forall₂ Draft.Stricter (readItems c 0 (Token.lexemes source))
      (readItems c' 0 (Token.lexemes source)) := by
    apply forall₂_readItems (p := fun _ => True)
    · intro used e d hused item _
      refine item.stricter hc fun l hl => ?_
      exact ⟨Token.lexemes_valid source l (hused l hl), Token.lexemes_spelled source l (hused l hl)⟩
    · exact fun _ _ => trivial
  have hall := Draft.allShapes_stricter hread
  rw [Draft.allShapes_eq (isSingle_readItems source),
    Draft.allShapes_eq (isSingle_readItems source)] at hall
  exact hall

end Read

end RacketTree

import RacketTree.Proofs.Tree.Run
import RacketTree.Proofs.Tree.Schema

/-!
# Items and wrappers as forms

A finished item is a tree all of whose nodes have a form, and it comes with the class of trees that
its role allows (`Draft.Fits`). A lexeme that opens nothing is such an item
(`Lexeme.draft_fits`).

A wrapper that waits for its datum is the front of a form. What may stand behind its mark depends on
whether the datum still can come: only trivia in a wrapper on the stack, also datum comments without
a datum where the wrappers end at a closer or a dot, and also an error leaf at the end of the input.
A wrapper with more than trivia behind its mark only ever fails, so that a wrapper around a datum
has trivia in it and nothing else (`Wrapper.Waits.complete`).
-/

namespace RacketTree

open Shape (IsMark IsCloser IsCommentPart)

variable {config : Config}

/-! ## Finished items -/

namespace Shape

/-- Trivia. -/
def isBlank (s : Shape) : Bool :=
  s.kind.isTrivia

/-- The tree may stand in a role, if `gap` holds of what may stand between datums. -/
def suits (gap : Shape → Bool) : Role → Shape → Bool
  | .trivia, s => gap s
  | .datum, s => s.isDatum

end Shape

/-- A finished item in its role. -/
structure Draft.Fits (config : Config) (gap : Shape → Bool) (role : Role) (d : Draft) : Prop where
  single : d.isSingle = true
  formed : d.shape.Formed config
  suits : d.shape.suits gap role = true

namespace Draft.Fits

variable {gap : Shape → Bool} {role : Role} {d : Draft}

theorem mono {gap' : Shape → Bool} (h : d.Fits config gap role)
    (hgap : ∀ s, gap s = true → gap' s = true) : d.Fits config gap' role := by
  refine ⟨h.single, h.formed, ?_⟩
  cases role with
  | trivia => exact hgap _ h.suits
  | datum => exact h.suits

theorem filler (h : d.Fits config Shape.isBlank role) : d.Fits config Shape.isFiller role :=
  h.mono fun _ => Shape.isFiller_of_isTrivia

theorem loosen (h : d.Fits config Shape.isFiller role) : d.Fits config Shape.isGap role :=
  h.mono fun _ => Shape.isGap_of_isFiller

theorem isItem (h : d.Fits config Shape.isGap role) : d.shape.isItem = true := by
  cases role with
  | trivia => exact Shape.isItem_of_isGap h.suits
  | datum => exact Shape.isItem_of_isDatum h.suits

theorem allShapes_snoc (h : d.Fits config gap role) (ds : List Draft) :
    allShapes (d :: ds).reverse = allShapes ds.reverse ++ [d.shape] := by
  simp [allShapes, shapes_eq h.single]

end Draft.Fits

/-! ## Lexemes -/

namespace Lexeme

variable {l : Lexeme}

theorem fault_eq_none (hs : l.Spelled) (hc : l.kind ≠ .character) (he : l.kind ≠ .error) :
    l.fault = none := by
  cases hf : l.fault with
  | none => rfl
  | some f =>
    rcases hs.fault f hf with ⟨hk, -⟩ | ⟨hk, -⟩
    · exact absurd hk hc
    · exact absurd hk he

theorem leaf_eq (hs : l.Spelled) (hc : l.kind ≠ .character) (he : l.kind ≠ .error) :
    l.leaf = .leaf l.kind l.text none := by
  rw [leaf, fault_eq_none hs hc he]
  rfl

theorem leaf_dot (hs : l.Spelled) (hk : l.kind = .dot) : l.leaf.shapes = [Shape.dot] := by
  rw [leaf_eq hs (by simp [hk]) (by simp [hk]), hk, hs.dot hk]
  rfl

theorem leaf_closer (hs : l.Spelled) (hk : l.kind = .closer) :
    l.leaf.isSingle = true ∧ IsCloser l.leaf.shape := by
  obtain ⟨c, htext, hc⟩ := hs.closer hk
  rw [leaf_eq hs (by simp [hk]) (by simp [hk]), hk, htext]
  exact ⟨rfl, c, hc, rfl⟩

theorem isLeafFault_of_spelled {f : Fault} (hs : l.Spelled) (hf : l.fault = some f) :
    Shape.isLeafFault f = true := by
  rcases hs.fault f hf with ⟨-, rfl⟩ | ⟨-, rfl | rfl⟩ <;> rfl

end Lexeme

namespace BlockComment

/-- The front of a block comment, newest child first. -/
def Begun (config : Config) (children : List Draft) : Prop :=
  ∃ inner, Draft.allShapes children.reverse = .leaf .blockCommentOpener ['#', '|'] none :: inner ∧
    ∀ s ∈ inner, IsCommentPart s ∧ s.Formed config

theorem begun_opening (config : Config) : Begun config [opening] :=
  ⟨[], rfl, nofun⟩

theorem Begun.snoc {children : List Draft} {d : Draft} (h : Begun config children)
    (hsingle : d.isSingle = true) (hpart : IsCommentPart d.shape) (hd : d.shape.Formed config) :
    Begun config (d :: children) := by
  obtain ⟨inner, hshapes, hinner⟩ := h
  refine ⟨inner ++ [d.shape], ?_, ?_⟩
  · rw [List.reverse_cons, Draft.allShapes_append, hshapes, Draft.allShapes,
      Draft.shapes_eq hsingle, Draft.allShapes]
    rfl
  · intro s hs
    rcases List.mem_append.mp hs with hs | hs
    · exact hinner s hs
    · rw [List.mem_singleton.mp hs]
      exact ⟨hpart, hd⟩

theorem Begun.flush {children : List Draft} (h : Begun config children) (run : List Char) :
    Begun config (flush run children) := by
  unfold BlockComment.flush
  split
  · exact h
  · rename_i hrun
    have hne : run.reverse ≠ [] := by simpa using hrun
    exact h.snoc rfl (.inr ⟨_, hne, rfl⟩) (Shape.formed_leaf.mpr (.commentText hne))

theorem Begun.close {children : List Draft} (h : Begun config children) :
    (Draft.branch .blockComment (closing :: children).reverse none).shape.Formed config := by
  obtain ⟨inner, hshapes, hinner⟩ := h
  rw [Draft.shape, List.reverse_cons, Draft.allShapes_append, hshapes]
  refine Shape.formed_branch.mpr ⟨.blockComment fun s hs => (hinner s hs).1, ?_⟩
  intro s hs
  simp only [List.cons_append, List.mem_cons, List.mem_append] at hs
  rcases hs with rfl | hs | hs
  · exact Shape.formed_leaf.mpr .commentOpener
  · exact (hinner s hs).2
  · rw [show s = .leaf .blockCommentCloser ['|', '#'] none by simpa [closing, Draft.allShapes,
      Draft.shapes] using hs]
    exact Shape.formed_leaf.mpr .commentCloser

/-- The comment and all comments inside it have the form of comments. -/
theorem build_formed {run : List Char} {children : List Draft} {outer : List (List Draft)}
    {cs : List Char} {d : Draft} (h : build run children outer cs = some d)
    (hchildren : Begun config children) (houter : ∀ c ∈ outer, Begun config c) :
    d.isSingle = true ∧ d.shape.kind = .blockComment ∧ d.shape.Formed config := by
  fun_induction build run children outer cs with
  | case1 => cases h
  | case2 run children rest done =>
    obtain rfl : done = d := Option.some.inj h
    exact ⟨rfl, rfl, (hchildren.flush run).close⟩
  | case3 run children rest done parent outer ih =>
    refine ih h ?_ fun c hc => houter c (List.mem_cons_of_mem _ hc)
    exact (houter parent List.mem_cons_self).snoc rfl (.inl rfl) (hchildren.flush run).close
  | case4 run children outer rest ih =>
    refine ih h (begun_opening config) fun c hc => ?_
    rcases List.mem_cons.mp hc with rfl | hc
    · exact hchildren.flush run
    · exact houter c hc
  | case5 run children outer c rest _ _ ih => exact ih h hchildren houter

theorem draft_fits {body : List Char} (h : Token.blockWidth? 0 body = some body.length) :
    (draft ('#' :: '|' :: body)).Fits config Shape.isBlank .trivia := by
  obtain ⟨inner, hbuild, -⟩ := build_of_blockWidth [] [opening] [] h
  obtain ⟨hsingle, hkind, hformed⟩ := build_formed hbuild (begun_opening config) nofun
  have hdraft : draft ('#' :: '|' :: body) = .branch .blockComment (inner ++ [closing]) none := by
    rw [draft, List.drop_succ_cons, List.drop_succ_cons, List.drop_zero, hbuild]
    rfl
  rw [hdraft]
  refine ⟨hsingle, hformed, ?_⟩
  rw [Shape.suits, Shape.isBlank, hkind]
  rfl

end BlockComment

/-- A lexeme that opens nothing is an item in its role. -/
theorem Lexeme.draft_fits (config : Config) {l : Lexeme} (hl : l.Valid) (hs : l.Spelled)
    (hstops : Read.stops l = false) (hframe : Frame.ofLexeme? l = none) :
    l.draft.Fits config Shape.isBlank l.role := by
  by_cases hcomment : l.kind = .blockComment
  · obtain ⟨body, hbody, hwidth, -⟩ := hl.comment hcomment
    rw [draft, if_pos hcomment, role, isTrivia, hcomment, hbody]
    exact BlockComment.draft_fits hwidth
  · rw [draft_eq_leaf hcomment]
    cases hf : l.fault with
    | some f =>
      have hleaf : l.leaf = .leaf .error l.text (some f) := by
        rw [leaf, hf]
        rfl
      have hrole : l.role = .datum := by
        rcases hs.fault f hf with ⟨hk, -⟩ | ⟨hk, -⟩ <;> simp [role, isTrivia, hk]
      have hfault := isLeafFault_of_spelled hs hf
      rw [hleaf, hrole]
      refine ⟨rfl, Shape.formed_leaf.mpr (.faulty hfault hl.nonempty), ?_⟩
      cases f <;> first
        | cases hfault; done
        | rfl
    | none =>
      have hlexical : l.kind.isLexical = true := by
        rcases hl.lexical with h | ⟨-, h⟩
        · exact h
        · rw [hf] at h
          cases h
      have hleaf : l.leaf = .leaf l.kind l.text none := by
        rw [leaf, hf]
        rfl
      rw [hleaf]
      refine ⟨rfl, Shape.formed_leaf.mpr (.token hlexical hcomment hl.nonempty), ?_⟩
      simp only [Read.stops, Frame.ofLexeme?] at hstops hframe
      cases hk : l.kind <;> simp [hk, Kind.isLexical, Kind.isAtom] at hlexical hstops hframe <;>
        simp [role, isTrivia, hk, Shape.suits, Shape.isBlank, Draft.shape, Shape.kind,
          Shape.isDatum, Kind.isTrivia, Kind.isAtom]

theorem Shape.tooDeep_formed {text : List Char} (h : text ≠ []) :
    (Shape.leaf .error text (some .nestingTooDeep)).Formed config :=
  formed_leaf.mpr (.faulty rfl h)

/-! ## Wrappers -/

/-- The wrapper has its mark and behind it what `gap` allows. -/
def Wrapper.Waits (config : Config) (gap : Shape → Bool) (w : Wrapper) : Prop :=
  ∃ mark between, Draft.allShapes w.children.reverse = mark :: between ∧ IsMark w.kind mark ∧
    ∀ s ∈ between, gap s = true ∧ s.Formed config

theorem Shape.IsMark.isIdleComment {k : Kind} {mark : Shape} (h : IsMark k mark)
    (rest : List Shape) :
    (Shape.branch .error (mark :: rest) (some .unexpectedToken)).isIdleComment =
      decide (k = .datumComment) := by
  cases h with
  | @prefixMark text k h =>
    have hk : k ≠ .datumComment := by
      rintro rfl
      simp [Kind.prefixForms] at h
    simp [Shape.isIdleComment, hk]
  | graphLabel => simp [Shape.isIdleComment]
  | datumComment => simp [Shape.isIdleComment]

namespace Wrapper.Waits

variable {gap : Shape → Bool} {w : Wrapper} {d : Draft}

theorem mono {gap' : Shape → Bool} (h : w.Waits config gap)
    (hgap : ∀ s, gap s = true → gap' s = true) : w.Waits config gap' := by
  obtain ⟨mark, between, hshapes, hmark, hbetween⟩ := h
  exact ⟨mark, between, hshapes, hmark, fun s hs => ⟨hgap s (hbetween s hs).1, (hbetween s hs).2⟩⟩

theorem add (h : w.Waits config gap) (hd : d.Fits config gap .trivia) :
    (w.add d).Waits config gap := by
  obtain ⟨mark, between, hshapes, hmark, hbetween⟩ := h
  refine ⟨mark, between ++ [d.shape], ?_, hmark, ?_⟩
  · rw [Wrapper.add, hd.allShapes_snoc, hshapes]
    rfl
  · intro s hs
    rcases List.mem_append.mp hs with hs | hs
    · exact hbetween s hs
    · rw [List.mem_singleton.mp hs]
      exact ⟨hd.suits, hd.formed⟩

theorem complete (h : w.Waits config Shape.isBlank) (hd : d.Fits config gap .datum) :
    (w.complete d).Fits config Shape.isBlank w.role := by
  obtain ⟨mark, between, hshapes, hmark, hbetween⟩ := h
  have hshape : (w.complete d).shape = .branch w.kind (mark :: (between ++ [d.shape])) none := by
    rw [Wrapper.complete, Draft.shape, hd.allShapes_snoc, hshapes]
    rfl
  refine ⟨rfl, ?_, ?_⟩
  · rw [hshape]
    refine Shape.formed_branch.mpr
      ⟨.wrapped hmark (fun s hs => (hbetween s hs).1) hd.suits, fun s hs => ?_⟩
    simp only [List.mem_cons, List.mem_append, List.not_mem_nil, or_false] at hs
    rcases hs with rfl | hs | rfl
    · exact hmark.formed
    · exact (hbetween s hs).2
    · exact hd.formed
  · rw [hshape, Wrapper.role]
    split
    · rename_i hk
      rw [Shape.suits, Shape.isBlank, Shape.kind, hk]
      rfl
    · rename_i hk
      have hwrapper := hmark.kind_cases.resolve_right hk
      simp [Shape.suits, Shape.isDatum, Shape.kind, Kind.isCompound, hwrapper]

theorem fail (h : w.Waits config Shape.isGap) : w.fail.Fits config Shape.isFiller w.role := by
  obtain ⟨mark, between, hshapes, hmark, hbetween⟩ := h
  have hshape : w.fail.shape =
      .branch .error (mark :: (between ++ [Shape.missing])) (some .unexpectedToken) := by
    rw [Wrapper.fail, Draft.shape, List.reverse_cons, Draft.allShapes_append, hshapes]
    rfl
  refine ⟨rfl, ?_, ?_⟩
  · rw [hshape]
    refine Shape.formed_branch.mpr ⟨.unwrapped hmark fun s hs => (hbetween s hs).1, fun s hs => ?_⟩
    simp only [List.mem_cons, List.mem_append, List.not_mem_nil, or_false] at hs
    rcases hs with rfl | hs | rfl
    · exact hmark.formed
    · exact (hbetween s hs).2
    · exact Shape.missing_formed config
  · have hidle := hmark.isIdleComment (between ++ [Shape.missing])
    rw [hshape, Wrapper.role]
    split
    · rename_i hk
      simp [Shape.suits, Shape.isFiller, hidle, hk]
    · rename_i hk
      simp [Shape.suits, Shape.isDatum, Shape.kind, Shape.fault, hidle, hk]

end Wrapper.Waits

end RacketTree

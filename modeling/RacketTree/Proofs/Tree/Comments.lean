import Mathlib.Data.List.Chain
import Mathlib.Order.Bounds.Basic
import RacketTree.Proofs.Token.Rescan
import RacketTree.Proofs.Tree.Builder
import RacketTree.Proofs.Tree.Holds
import RacketTree.Proofs.Tree.Schema
import RacketTree.Tree.Cursor

/-!
# Trees of block comments

What the builder makes of a block comment follows from what each of its turns keeps.

* `Shape.IsComment` is the form of a comment: its opener, then comments and texts, and its closer.
  No text has a delimiter in it, and no two texts are adjacent. `Builder.Sound` says this of the
  comments that are complete and of the fronts of those that are open (`Sound.reaches`).
* `Shape.commentNesting` is how many comments are in one another at most. Counting the open comments
  as well, a turn adds to it only where it opens more of them than have been open before
  (`Turns.nesting`). At the end it is the greatest value that the counter of the search has had
  (`isGreatest_nesting`).
* `builder_mirrors_scan` puts this together for the block comments that the scanner finds.
-/

namespace RacketTree

open StateTransition
open Token (CommentSearch Delimits)

namespace Shape

/-- A leaf of text in a block comment. -/
def IsCommentText (s : Shape) : Prop :=
  ∃ text, s = leaf .commentText text none ∧ text ≠ [] ∧
    ¬['#', '|'] <:+: text ∧ ¬['|', '#'] <:+: text

/-- Both trees are texts of a block comment. -/
def AreTexts (s s' : Shape) : Prop :=
  s.kind = .commentText ∧ s'.kind = .commentText

/-- The block comment with these parts between its opener and its closer. -/
def comment (parts : List Shape) : Shape :=
  branch .blockComment
    (leaf .blockCommentOpener ['#', '|'] none ::
      (parts ++ [leaf .blockCommentCloser ['|', '#'] none])) none

/-- The parts of a block comment are block comments and texts, and no two texts are adjacent. -/
def IsComment (s : Shape) : Prop :=
  ∃ parts, s = comment parts ∧ (∀ p ∈ parts, p.kind = .blockComment ∨ p.IsCommentText) ∧
    parts.IsChain fun p q => ¬AreTexts p q

/-- All block comments in the tree have the form of one. -/
def CommentsFormed (s : Shape) : Prop :=
  ∀ n ∈ s.walk, n.kind = .blockComment → n.IsComment

theorem commentsFormed_leaf {k : Kind} {text : List Char} {f : Option Fault}
    (hk : k ≠ .blockComment) : (leaf k text f).CommentsFormed := by
  intro n hn hcomment
  rw [List.mem_singleton.mp hn] at hcomment
  exact absurd hcomment hk

theorem commentsFormed_comment {parts : List Shape} (h : (comment parts).IsComment)
    (hparts : ∀ p ∈ parts, p.CommentsFormed) : (comment parts).CommentsFormed := by
  intro n hn hcomment
  rw [comment, walk] at hn
  rcases List.mem_cons.mp hn with rfl | hn
  · exact h
  · obtain ⟨s, hs, hn⟩ := mem_walkAll.mp hn
    simp only [List.mem_cons, List.mem_append, List.not_mem_nil, or_false] at hs
    rcases hs with rfl | hs | rfl
    · exact commentsFormed_leaf (by decide) n hn hcomment
    · exact hparts s hs n hn hcomment
    · exact commentsFormed_leaf (by decide) n hn hcomment

mutual

/-- How many block comments of the tree are in one another at most. -/
def commentNesting : Shape → Nat
  | leaf .. => 0
  | branch kind children _ => (if kind = .blockComment then 1 else 0) + commentNestings children

/-- How many block comments of several trees are in one another at most. -/
def commentNestings : List Shape → Nat
  | [] => 0
  | s :: rest => max s.commentNesting (commentNestings rest)

end

theorem commentNestings_append (xs ys : List Shape) :
    commentNestings (xs ++ ys) = max (commentNestings xs) (commentNestings ys) := by
  induction xs with
  | nil => simp [commentNestings]
  | cons x xs ih => rw [List.cons_append, commentNestings, ih, commentNestings, max_assoc]

end Shape

namespace BlockComment

open Builder

/-! ## The form of comments -/

theorem not_infix_of_isChain {text : List Char} (h : text.IsChain fun a b => ¬Delimits a b) :
    ¬['#', '|'] <:+: text ∧ ¬['|', '#'] <:+: text := by
  have hpair : ∀ a b, Delimits a b → ¬[a, b] <:+: text := fun a b hab hin =>
    List.isChain_pair.mp ( List.IsChain.infix h hin) hab
  exact ⟨hpair _ _ (.inr ⟨rfl, rfl⟩), hpair _ _ (.inl ⟨rfl, rfl⟩)⟩

/-- The children of a comment so far, newest first: its opener and these parts. -/
structure Front (children : List Draft) (parts : List Shape) : Prop where
  shapes : Draft.allShapes children.reverse = .leaf .blockCommentOpener ['#', '|'] none :: parts
  each : ∀ p ∈ parts, (p.kind = .blockComment ∨ p.IsCommentText) ∧ p.CommentsFormed
  apart : parts.IsChain fun p q => ¬Shape.AreTexts p q

namespace Front

variable {children : List Draft} {parts : List Shape} {run : List Char}

theorem opening : Front [opening] [] :=
  ⟨rfl, nofun, .nil⟩

theorem snoc (h : Front children parts) {d : Draft} (hd : d.isSingle = true)
    (hpart : d.shape.kind = .blockComment ∨ d.shape.IsCommentText)
    (hformed : d.shape.CommentsFormed)
    (hapart : ∀ p ∈ parts.getLast?, ¬Shape.AreTexts p d.shape) :
    Front (d :: children) (parts ++ [d.shape]) where
  shapes := by
    rw [List.reverse_cons, Draft.allShapes_append, h.shapes, Draft.allShapes, Draft.shapes_eq hd,
      Draft.allShapes]
    rfl
  each := by
    intro p hp
    rcases List.mem_append.mp hp with hp | hp
    · exact h.each p hp
    · rw [List.mem_singleton.mp hp]
      exact ⟨hpart, hformed⟩
  apart := by
    refine List.isChain_append.mpr ⟨h.apart, .singleton _, fun p hp q hq => ?_⟩
    cases hq
    exact hapart p hp

/-- A run of text may be added behind a comment or the opener. -/
theorem flush (h : Front children parts) (hlast : ∀ p ∈ parts.getLast?, p.kind = .blockComment)
    (hrun : run.reverse.IsChain fun a b => ¬Delimits a b) :
    ∃ parts, Front (flush run children) parts := by
  unfold BlockComment.flush
  split
  · exact ⟨parts, h⟩
  · rename_i hne
    have hne : run.reverse ≠ [] := by simpa using hne
    refine ⟨_, h.snoc rfl (.inr ⟨_, rfl, hne, not_infix_of_isChain hrun⟩)
      (Shape.commentsFormed_leaf (by decide)) fun p hp htexts => ?_⟩
    cases (hlast p hp).symm.trans htexts.1

theorem shape_finish (h : Front (BlockComment.flush run children) parts) :
    (finish run children).shape = .comment parts := by
  rw [finish, Draft.shape, List.reverse_cons, Draft.allShapes_append, h.shapes]
  rfl

theorem isComment (h : Front (BlockComment.flush run children) parts) :
    (finish run children).shape.IsComment :=
  ⟨parts, h.shape_finish, fun p hp => (h.each p hp).1, h.apart⟩

theorem commentsFormed (h : Front (BlockComment.flush run children) parts) :
    (finish run children).shape.CommentsFormed := by
  have hcomment := h.isComment
  rw [h.shape_finish] at hcomment ⊢
  exact Shape.commentsFormed_comment hcomment fun p hp => (h.each p hp).2

end Front

namespace Builder

/-- What a builder has put together has the form of comments. The innermost open comment does not
end with a text, since a text is added only before a delimiter, and the run with the next character
has no delimiter in it. -/
inductive Sound : Builder → Prop
  | working {children : List Draft} {outer : List (List Draft)} {run rest : List Char}
      {parts : List Shape} (hfront : Front children parts)
      (hlast : ∀ p ∈ parts.getLast?, p.kind = .blockComment)
      (houter : ∀ c ∈ outer, ∃ parts, Front c parts)
      (hrun : (run.reverse ++ rest.take 1).IsChain fun a b => ¬Delimits a b) :
      Sound (working (children :: outer) run rest)
  | done {d : Draft} (rest : List Char) (hd : d.isSingle = true) (hcomment : d.shape.IsComment)
      (hformed : d.shape.CommentsFormed) : Sound (done d rest)

variable {b b' : Builder}

theorem isChain_take_one (rest : List Char) : (rest.take 1).IsChain fun a b => ¬Delimits a b := by
  cases rest with
  | nil => exact .nil
  | cons => exact .singleton _

theorem sound_opening {outer : List (List Draft)} (rest : List Char)
    (houter : ∀ c ∈ outer, ∃ parts, Front c parts) :
    (working ([opening] :: outer) [] rest).Sound :=
  .working .opening (by simp) houter (isChain_take_one rest)

theorem sound_start (text : List Char) : (start text).Sound :=
  sound_opening _ (by simp)

theorem Sound.isOpen (h : b.Sound) : b.IsOpen := by
  cases h with
  | working => exact List.cons_ne_nil _ _
  | done => trivial

/-- A turn keeps the form. -/
theorem Turns.sound (hturn : Turns b b') (h : b.Sound) : b'.Sound := by
  cases hturn with
  | behind => exact h
  | finish children run rest =>
    cases h with
    | working hfront hlast houter hrun =>
      obtain ⟨parts, hflush⟩ := hfront.flush hlast hrun.left_of_append
      exact .done rest rfl hflush.isComment hflush.commentsFormed
  | close children parent outer run rest =>
    cases h with
    | working hfront hlast houter hrun =>
      obtain ⟨parts, hflush⟩ := hfront.flush hlast hrun.left_of_append
      obtain ⟨before, hparent⟩ := houter parent List.mem_cons_self
      refine .working (hparent.snoc rfl (.inl rfl) hflush.commentsFormed fun p hp htexts => ?_) ?_
        (fun c hc => houter c (List.mem_cons_of_mem _ hc)) (isChain_take_one rest)
      · cases htexts.2
      · simp [BlockComment.finish, Draft.shape, Shape.kind]
  | nest children outer run rest =>
    cases h with
    | working hfront hlast houter hrun =>
      refine sound_opening rest fun c hc => ?_
      rcases List.mem_cons.mp hc with rfl | hc
      · exact hfront.flush hlast hrun.left_of_append
      · exact houter c hc
  | @plain stack run c rest hplain =>
    cases h with
    | working hfront hlast houter hrun =>
      refine .working hfront hlast houter ?_
      -- the next character has become the last of the run
      rw [List.reverse_cons, List.append_assoc]
      refine List.isChain_split.mpr ⟨hrun, ?_⟩
      cases rest with
      | nil => exact .singleton _
      | cons next rest => exact List.isChain_pair.mpr (hplain next rfl)

theorem Sound.reaches (h : b.Sound) (hreach : Reaches turn b b') : b'.Sound := by
  induction hreach with
  | refl => exact h
  | tail _ hturn ih => exact (turns_of_turn ih.isOpen hturn).sound ih

end Builder

/-! ## The nesting of comments -/

/-- How many block comments of drafts are in one another at most. -/
def nesting (ds : List Draft) : Nat :=
  Shape.commentNestings (Draft.allShapes ds)

theorem nesting_cons {d : Draft} (hd : d.isSingle = true) (ds : List Draft) :
    nesting (d :: ds) = max d.shape.commentNesting (nesting ds) := by
  rw [nesting, Draft.allShapes, Draft.shapes_eq hd]
  rfl

theorem nesting_reverse (ds : List Draft) : nesting ds.reverse = nesting ds := by
  induction ds with
  | nil => rfl
  | cons d ds ih =>
    rw [nesting] at ih
    rw [nesting, nesting, List.reverse_cons, Draft.allShapes_append, Shape.commentNestings_append,
      ih, Draft.allShapes, Draft.allShapes, Draft.allShapes, List.append_nil,
      Shape.commentNestings_append, max_comm]
    rfl

theorem nesting_flush (run : List Char) (children : List Draft) :
    nesting (flush run children) = nesting children := by
  unfold flush
  split
  · rfl
  · rw [nesting_cons rfl]
    exact Nat.zero_max _

theorem commentNesting_finish (run : List Char) (children : List Draft) :
    (finish run children).shape.commentNesting = 1 + nesting children := by
  have hclosing : nesting (closing :: flush run children) = nesting children := by
    rw [nesting_cons rfl, nesting_flush]
    exact Nat.zero_max _
  rw [← hclosing, ← nesting_reverse]
  rfl

/-- How many comments are in one another at most, in the open comments with these children. -/
def stackNesting : List (List Draft) → Nat
  | [] => 0
  | children :: outer => max (outer.length + 1 + nesting children) (stackNesting outer)

namespace Builder

/-- How many comments are in one another at most, in what is built so far. -/
def nesting : Builder → Nat
  | working stack .. => stackNesting stack
  | done d _ => d.shape.commentNesting
  | failed => 0

theorem depth_le_nesting (b : Builder) : b.search.depth ≤ b.nesting := by
  cases b with
  | working stack run rest =>
    cases stack with
    | nil => exact Nat.le_refl _
    | cons children outer =>
      simp only [search, nesting, stackNesting, List.length_cons]
      omega
  | done | failed => exact Nat.zero_le _

/-- A turn adds to the nesting only where it opens more comments than ever before. -/
theorem Turns.nesting (h : Turns b b') : b'.nesting = max b.nesting b'.search.depth := by
  have hdepth := b'.depth_le_nesting
  cases h with
  | behind stack run => exact (Nat.max_eq_left hdepth).symm
  | plain stack run => exact (Nat.max_eq_left hdepth).symm
  | finish children run rest =>
    simp only [Builder.nesting, stackNesting, Builder.search, commentNesting_finish,
      List.length_nil]
    omega
  | close children parent outer run rest =>
    have hsingle : (BlockComment.finish run children).isSingle = true := rfl
    simp only [Builder.nesting, stackNesting, Builder.search, List.length_cons,
      nesting_cons hsingle, commentNesting_finish]
    omega
  | nest children outer run rest =>
    have hopening : BlockComment.nesting [opening] = 0 := rfl
    simp only [Builder.nesting, stackNesting, Builder.search, List.length_cons, nesting_flush,
      hopening]
    omega

theorem nesting_le (hopen : b.IsOpen) (h : Reaches turn b b') : b.nesting ≤ b'.nesting := by
  induction h with
  | refl => exact Nat.le_refl _
  | tail hreach hturn ih =>
    rw [(turns_of_turn (reaches_search hopen hreach).1 hturn).nesting]
    exact Nat.le_trans ih (Nat.le_max_left _ _)

/-- As many comments have been open at once as there are in one another. -/
theorem exists_depth_eq_nesting {text : List Char} (h : Reaches turn (start text) b) :
    ∃ b', Reaches turn (start text) b' ∧ b'.search.depth = b.nesting := by
  induction h with
  | refl => exact ⟨_, .refl, rfl⟩
  | @tail mid b hreach hturn ih =>
    obtain ⟨hmid, -⟩ := reaches_search (b := start text) (List.cons_ne_nil _ _) hreach
    rw [(turns_of_turn hmid hturn).nesting]
    rcases Nat.le_total mid.nesting b.search.depth with hle | hle
    · exact ⟨b, hreach.tail hturn, (Nat.max_eq_right hle).symm⟩
    · rwa [Nat.max_eq_left hle]

/-- The nesting of a comment is the greatest value that the counter of the search has. -/
theorem isGreatest_nesting {text rest : List Char} {d : Draft}
    (h : done d rest ∈ eval turn (start text)) :
    IsGreatest {n | ∃ rest, Reaches CommentSearch.turn (.start text) ⟨n, rest⟩}
      d.shape.commentNesting := by
  have hopen : (start text).IsOpen := List.cons_ne_nil _ _
  have hreach := (mem_eval.mp h).1
  constructor
  · obtain ⟨b, hb, hdepth⟩ := exists_depth_eq_nesting hreach
    refine ⟨b.search.rest, ?_⟩
    rw [show d.shape.commentNesting = b.search.depth from hdepth.symm]
    exact (reaches_search hopen hb).2
  · rintro n ⟨ahead, hsearch⟩
    obtain ⟨b, hb, hbs⟩ := exists_reaches_of_search hopen hsearch
    -- the builder that comes by with this counter has not ended yet, or is the last one
    have hlast : Reaches turn b (done d rest) := by
      rcases reaches_total hb hreach with hlast | hfirst
      · exact hlast
      · obtain rfl := (eval_maximal h).mp hfirst
        exact .refl
    calc n = b.search.depth := by rw [hbs]
      _ ≤ b.nesting := b.depth_le_nesting
      _ ≤ (done d rest).nesting := nesting_le (reaches_search hopen hb).1 hlast

end Builder

end BlockComment

/-! ## Scanned comments -/

/-- A cursor adds the records of the comment that is built, and changes nothing else. -/
theorem Cursor.blockComment_of_build {text : List Char} {d : Draft}
    (h : BlockComment.build [] [BlockComment.opening] [] (text.drop 2) = some d)
    (hd : ∃ k ds f, d = .branch k ds f) (c : Cursor) :
    ∃ r a, blockComment text c = some (.ok r, { c with arena := a }) ∧ c.arena.Extends a ∧
      a.Holds r d.shape := by
  obtain ⟨hextends, -, hholds⟩ := Arena.holdsAll_store c.arena d
  have hlast : (c.arena.store d).2 = [(c.arena.store d).1.size - 1] := by
    obtain ⟨k, ds, f, rfl⟩ := hd
    simp [Arena.store, Arena.branch, Arena.size_push]
  have hsingle : d.isSingle = true := by
    obtain ⟨k, ds, f, rfl⟩ := hd
    rfl
  rw [hlast, Draft.shapes_eq hsingle] at hholds
  obtain ⟨r, _, hr, -, hhold, -⟩ := hholds
  cases hr
  exact ⟨_, _, by rw [blockComment, h]; rfl, hextends, hhold⟩

namespace BlockComment

open Builder

theorem build_eq_draft {body : List Char} (h : Token.blockWidth? 0 body = some body.length) :
    build [] [opening] [] body = some (draft ('#' :: '|' :: body)) := by
  obtain ⟨_, hbuild, -⟩ := build_of_blockWidth [] [opening] [] h
  rw [draft, List.drop_succ_cons, List.drop_succ_cons, List.drop_zero, hbuild]
  rfl

/-- Where the scanner finds a block comment, the builder ends with its tree at the end of the text:
at each turn as many comments are open as the counter of the search says, so that none is ever
needed that is not open. The tree has the text of the token, all comments in it have their form,
and they are in one another as deep as the counter goes. -/
theorem builder_mirrors_scan {source : List Char} {i : Nat} {t : Token}
    (h : Token.scan source i = .ok t) (hk : t.kind = .blockComment) :
    done (draft t.text) [] ∈ eval turn (start t.text) ∧
      (∀ b, Reaches turn (start t.text) b →
        b ≠ failed ∧ Reaches CommentSearch.turn (.start t.text) b.search) ∧
      (∀ c : Cursor, ∃ r a, Cursor.blockComment t.text c = some (.ok r, { c with arena := a }) ∧
        c.arena.Extends a ∧ a.Holds r (draft t.text).shape) ∧
      (draft t.text).shape.kind = .blockComment ∧ (draft t.text).shape.CommentsFormed ∧
      (draft t.text).shape.text = t.text ∧
      IsGreatest {n | ∃ rest, Reaches CommentSearch.turn (.start t.text) ⟨n, rest⟩}
        (draft t.text).shape.commentNesting := by
  obtain ⟨c, rest, e, -, he, rfl⟩ := Token.scan_eq_ok_iff.mp h
  obtain ⟨body, hbody, hwidth, -⟩ := (Token.cut_valid (Token.extent_fits he)).comment hk
  generalize (Token.cut e (c :: rest)).text = text at hbody ⊢
  subst hbody
  obtain ⟨inner, hdraft, htext, -⟩ := draft_of_blockWidth hwidth
  have hbuild := build_eq_draft hwidth
  have hend : done (draft ('#' :: '|' :: body)) [] ∈ eval turn (start ('#' :: '|' :: body)) := by
    rw [← List.drop_length (l := body)]
    exact done_mem_eval_of_blockWidth? hwidth hbuild
  have hopen := (sound_start ('#' :: '|' :: body)).isOpen
  refine ⟨hend, fun b hb => ?_, Cursor.blockComment_of_build hbuild ⟨_, _, _, hdraft⟩, ?_, ?_, ?_,
    isGreatest_nesting hend⟩
  · obtain ⟨hb, hsearch⟩ := reaches_search hopen hb
    refine ⟨?_, hsearch⟩
    rintro rfl
    exact hb
  · rw [hdraft]
    rfl
  · cases (sound_start ('#' :: '|' :: body)).reaches (mem_eval.mp hend).1 with
    | done _ _ _ hformed => exact hformed
  · rw [Draft.text_shape (by rw [hdraft]; rfl), hdraft, ← htext]
    simp [closing]

/-- Delimiters that overlap: `#|#` is an opener and a `#`, and `||#` is a bar and a closer. -/
theorem builder_mirrors_scan_overlap :
    Token.scan "(#|x#|#y|#||# z)".toList 1 =
        .ok ⟨⟨.blockComment, "#|x#|#y|#||#".toList, none⟩, 1⟩ ∧
      done (draft "#|x#|#y|#||#".toList) [] ∈ eval turn (start "#|x#|#y|#||#".toList) ∧
      (draft "#|x#|#y|#||#".toList).shape.text = "#|x#|#y|#||#".toList ∧
      IsGreatest {n | ∃ rest, Reaches CommentSearch.turn (.start "#|x#|#y|#||#".toList) ⟨n, rest⟩}
        2 := by
  have hscan : Token.scan "(#|x#|#y|#||# z)".toList 1 =
      .ok ⟨⟨.blockComment, "#|x#|#y|#||#".toList, none⟩, 1⟩ := by
    decide +kernel
  have hnesting : (draft "#|x#|#y|#||#".toList).shape.commentNesting = 2 := by
    decide +kernel
  obtain ⟨hend, -, -, -, -, htext, hgreatest⟩ := builder_mirrors_scan hscan rfl
  rw [hnesting] at hgreatest
  exact ⟨hscan, hend, htext, hgreatest⟩

end BlockComment

end RacketTree

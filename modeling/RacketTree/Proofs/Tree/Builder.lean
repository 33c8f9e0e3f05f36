import RacketTree.Proofs.Token.Search
import RacketTree.Proofs.Tree.Shape

/-!
# Building a block comment turn by turn

`BlockComment.build` recurses along the text and gives no comment where the text ends too early.
Here the builder is a machine whose state has a stack, the children of each open comment. Nothing
guards its turns: with an empty stack it fails, and behind the end of the text it goes on for ever.

* `reaches_search`, `exists_reaches_of_search`: the machine makes the same turns as the search for
  the end of the comment, whose counter is the height of the stack. They part only behind the end of
  the text, where the search stops.
* `build_eq_some_iff`, `build_eq_none_iff`: the machine ends with a comment if and only if `build`
  gives it, and never ends if and only if `build` gives none.
* `eval_dom_iff`: the machine ends if and only if the search finds the end of the comment.
-/

namespace RacketTree.BlockComment

open StateTransition
open Token (CommentSearch Delimits not_delimits_iff)

/-- The comment with these children, and a run of text before its closer. -/
def finish (run : List Char) (children : List Draft) : Draft :=
  .branch .blockComment (closing :: flush run children).reverse none

/-- The builder between two turns. -/
inductive Builder where
  /-- `stack` has the children of the comments that are open, the innermost first and each newest
  first; `run` is the text since the last delimiter, backwards. -/
  | working (stack : List (List Draft)) (run rest : List Char)
  /-- The comment is complete, and `rest` follows it. -/
  | done (d : Draft) (rest : List Char)
  /-- The innermost open comment was needed, but none is open. -/
  | failed

namespace Builder

/-- The builder behind the opener of a text. -/
def start (text : List Char) : Builder :=
  working [[opening]] [] (text.drop 2)

/-- One turn of the builder. At the end of the text no delimiter is ever found. -/
def turn : Builder → Option Builder
  | working stack run cs =>
    match cs with
    | [] => some (working stack run [])
    | '|' :: '#' :: rest =>
      match stack with
      | [] => some failed
      | [children] => some (done (finish run children) rest)
      | children :: parent :: outer =>
        some (working ((finish run children :: parent) :: outer) [] rest)
    | '#' :: '|' :: rest =>
      match stack with
      | [] => some (if run.isEmpty then working [[opening]] [] rest else failed)
      | children :: outer => some (working ([opening] :: flush run children :: outer) [] rest)
    | c :: rest => some (working stack (c :: run) rest)
  | done .. | failed => none

/-- A comment is open, or the outermost one is complete. -/
def IsOpen : Builder → Prop
  | working stack .. => stack ≠ []
  | done .. => True
  | failed => False

/-- The search with as many comments open and the same characters ahead. -/
def search : Builder → CommentSearch
  | working stack _ rest => ⟨stack.length, rest⟩
  | done _ rest => ⟨0, rest⟩
  | failed => ⟨0, []⟩

/-- The turns of a builder inside a comment. -/
inductive Turns : Builder → Builder → Prop
  | behind (stack : List (List Draft)) (run : List Char) :
      Turns (working stack run []) (working stack run [])
  | finish (children : List Draft) (run rest : List Char) :
      Turns (working [children] run ('|' :: '#' :: rest)) (done (finish run children) rest)
  | close (children parent : List Draft) (outer : List (List Draft)) (run rest : List Char) :
      Turns (working (children :: parent :: outer) run ('|' :: '#' :: rest))
        (working ((BlockComment.finish run children :: parent) :: outer) [] rest)
  | nest (children : List Draft) (outer : List (List Draft)) (run rest : List Char) :
      Turns (working (children :: outer) run ('#' :: '|' :: rest))
        (working ([opening] :: flush run children :: outer) [] rest)
  | plain (stack : List (List Draft)) (run : List Char) {c : Char} {rest : List Char}
      (h : ∀ next ∈ rest.head?, ¬Delimits c next) :
      Turns (working stack run (c :: rest)) (working stack (c :: run) rest)

variable {b b' : Builder}

theorem isOpen_cons (children : List Draft) (outer : List (List Draft)) (run rest : List Char) :
    (working (children :: outer) run rest).IsOpen :=
  List.cons_ne_nil _ _

theorem turns_of_turn (hopen : b.IsOpen) (h : b.turn = some b') : Turns b b' := by
  unfold turn at h
  split at h
  · rename_i stack run cs
    split at h
    · cases h
      exact .behind stack run
    · rename_i rest
      split at h
      · exact absurd rfl hopen
      · cases h
        exact .finish _ run rest
      · cases h
        exact .close _ _ _ run rest
    · rename_i rest
      split at h
      · exact absurd rfl hopen
      · cases h
        exact .nest _ _ run rest
    · rename_i c rest h₁ h₂
      cases h
      exact .plain stack run (not_delimits_iff.mpr ⟨h₁, h₂⟩)
  · cases h
  · cases h

theorem turn_plain (stack : List (List Draft)) (run : List Char) {c : Char} {rest : List Char}
    (h : ∀ next ∈ rest.head?, ¬Delimits c next) :
    turn (working stack run (c :: rest)) = some (working stack (c :: run) rest) := by
  obtain ⟨hclose, hopen⟩ := not_delimits_iff.mp h
  rw [turn]
  · exact hclose
  · exact hopen

/-! ## The same turns as the search -/

namespace Turns

theorem isOpen (h : Turns b b') (hopen : b.IsOpen) : b'.IsOpen := by
  cases h with
  | behind | plain => exact hopen
  | finish => trivial
  | close | nest => exact List.cons_ne_nil _ _

/-- At the end of the text the builder stays where it is and the search has stopped; at all other
places both go past the same characters. -/
theorem search (h : Turns b b') (hopen : b.IsOpen) :
    b' = b ∧ b.search.turn = none ∨ b.search.turn = some b'.search := by
  have hheight : ∀ {stack : List (List Draft)}, stack ≠ [] → ∃ n, stack.length = n + 1 :=
    fun h => Nat.exists_eq_succ_of_ne_zero (List.length_pos_of_ne_nil h).ne'
  cases h with
  | behind stack run =>
    obtain ⟨n, hn⟩ := hheight hopen
    exact .inl ⟨rfl, by rw [Builder.search, hn]; rfl⟩
  | finish | close | nest => exact .inr rfl
  | plain stack run h =>
    obtain ⟨n, hn⟩ := hheight hopen
    rw [Builder.search, Builder.search, hn]
    exact .inr (CommentSearch.turn_cons n h)

end Turns

/-- The builder never needs a comment that is not open, and the search comes by wherever it does. -/
theorem reaches_search (hopen : b.IsOpen) (h : Reaches turn b b') :
    b'.IsOpen ∧ Reaches CommentSearch.turn b.search b'.search := by
  induction h with
  | refl => exact ⟨hopen, .refl⟩
  | tail _ hturn ih =>
    obtain ⟨hmid, hreach⟩ := ih
    have hturns := turns_of_turn hmid hturn
    refine ⟨hturns.isOpen hmid, ?_⟩
    rcases hturns.search hmid with ⟨rfl, -⟩ | hsearch
    · exact hreach
    · exact hreach.tail hsearch

theorem turn_working_ne_none (stack : List (List Draft)) (run rest : List Char) :
    turn (working stack run rest) ≠ none := by
  intro h
  simp only [turn] at h
  repeat' split at h
  all_goals cases h

/-- The builder stops only where the search does. -/
theorem search_turn_eq_none (h : b.turn = none) : b.search.turn = none := by
  cases b with
  | working stack run rest => exact absurd h (turn_working_ne_none stack run rest)
  | done | failed => rfl

/-- The builder comes by wherever the search does. -/
theorem exists_reaches_of_search {s : CommentSearch} (hopen : b.IsOpen)
    (h : Reaches CommentSearch.turn b.search s) : ∃ b', Reaches turn b b' ∧ b'.search = s := by
  induction h with
  | refl => exact ⟨b, .refl, rfl⟩
  | tail _ hsearch ih =>
    obtain ⟨mid, hreach, rfl⟩ := ih
    have hmid := (reaches_search hopen hreach).1
    cases hturn : mid.turn with
    | none => cases (search_turn_eq_none hturn).symm.trans hsearch
    | some next =>
      refine ⟨next, hreach.tail hturn, ?_⟩
      rcases (turns_of_turn hmid hturn).search hmid with ⟨-, hnone⟩ | hsome
      · cases hnone.symm.trans hsearch
      · exact Option.some.inj (hsome.symm.trans hsearch)

/-! ## The comment that is built -/

theorem eval_eq (h : b.turn = some b') : eval turn b = eval turn b' :=
  reaches_eval (.single h)

/-- A builder whose turn changes nothing never ends. -/
theorem eval_of_turn_self (h : b.turn = some b) : eval turn b = Part.none := by
  refine Part.eq_none_iff.mpr fun b' hb' => ?_
  obtain ⟨hreach, hend⟩ := mem_eval.mp hb'
  have hstay : b' = b := by
    clear hend hb'
    induction hreach with
    | refl => rfl
    | tail _ hturn ih =>
      subst ih
      exact (Option.some.inj (h.symm.trans hturn)).symm
  subst hstay
  cases h.symm.trans hend

end Builder

open Builder

/-- Either `build` gives a comment and the builder ends with it, or there is none and it never
ends. -/
theorem build_cases (run : List Char) (children : List Draft) (outer : List (List Draft))
    (cs : List Char) :
    (∃ d rest, build run children outer cs = some d ∧
        done d rest ∈ eval turn (working (children :: outer) run cs)) ∨
      build run children outer cs = none ∧
        eval turn (working (children :: outer) run cs) = Part.none := by
  fun_induction build run children outer cs with
  | case1 => exact .inr ⟨rfl, eval_of_turn_self rfl⟩
  | case2 run children rest =>
    rw [Builder.eval_eq rfl]
    exact .inl ⟨_, rest, rfl, mem_eval.mpr ⟨.refl, rfl⟩⟩
  | case3 run children rest _ parent outer ih | case4 run children outer rest ih =>
    rw [Builder.eval_eq rfl]
    exact ih
  | case5 run children outer c rest h₁ h₂ ih =>
    rw [Builder.eval_eq (turn_plain _ run (not_delimits_iff.mpr ⟨h₁, h₂⟩))]
    exact ih

variable {run : List Char} {children : List Draft} {outer : List (List Draft)} {cs : List Char}

/-- The builder ends with a comment if and only if `build` gives it. -/
theorem build_eq_some_iff {d : Draft} : build run children outer cs = some d ↔
    ∃ rest, done d rest ∈ eval turn (working (children :: outer) run cs) := by
  rcases build_cases run children outer cs with ⟨d', rest', hbuild, hmem'⟩ | ⟨hbuild, hnone⟩
  · rw [hbuild]
    constructor
    · intro h
      cases h
      exact ⟨rest', hmem'⟩
    · rintro ⟨rest, hmem⟩
      cases Part.mem_unique hmem hmem'
      rfl
  · rw [hbuild, hnone]
    exact iff_of_false nofun fun ⟨_, hmem⟩ => Part.notMem_none _ hmem

/-- The builder never ends if and only if `build` gives no comment. -/
theorem build_eq_none_iff : build run children outer cs = none ↔
    eval turn (working (children :: outer) run cs) = Part.none := by
  rcases build_cases run children outer cs with ⟨d, rest, hbuild, hmem⟩ | ⟨hbuild, hnone⟩
  · rw [hbuild]
    refine iff_of_false nofun fun hnone => ?_
    rw [hnone] at hmem
    exact Part.notMem_none _ hmem
  · exact iff_of_true hbuild hnone

/-- Where the search finds the end of the comment, the builder ends behind the same characters. -/
theorem done_mem_eval_of_blockWidth? {n : Nat} {d : Draft}
    (hwidth : Token.blockWidth? outer.length cs = some n)
    (h : build run children outer cs = some d) :
    done d (cs.drop n) ∈ eval turn (working (children :: outer) run cs) := by
  obtain ⟨rest, hmem⟩ := build_eq_some_iff.mp h
  have hsearch : Reaches CommentSearch.turn ⟨outer.length + 1, cs⟩ ⟨0, rest⟩ :=
    (reaches_search (isOpen_cons _ _ _ _) (mem_eval.mp hmem).1).2
  have hrest := Part.mem_unique (mem_eval.mpr ⟨hsearch, rfl⟩) (Token.mem_eval_of_blockWidth? hwidth)
  cases hrest
  exact hmem

/-- The builder ends if and only if the search finds the end of the comment. -/
theorem eval_dom_iff : (eval turn (working (children :: outer) run cs)).Dom ↔
    ∃ n, Token.blockWidth? outer.length cs = some n := by
  constructor
  · intro hdom
    obtain ⟨b, hb⟩ := Part.dom_iff_mem.mp hdom
    obtain ⟨hreach, hend⟩ := mem_eval.mp hb
    obtain ⟨hopen, hsearch⟩ := reaches_search (isOpen_cons _ _ _ _) hreach
    have hstop := mem_eval.mpr ⟨hsearch, search_turn_eq_none hend⟩
    cases hwidth : Token.blockWidth? outer.length cs with
    | some n => exact ⟨n, rfl⟩
    | none =>
      obtain ⟨depth, hdepth⟩ := Token.exists_mem_eval_of_blockWidth? hwidth
      have hinside : b.search = ⟨depth + 1, []⟩ := Part.mem_unique hstop hdepth
      cases b with
      | working stack run rest => exact absurd hend (turn_working_ne_none stack run rest)
      | done => cases hinside
      | failed => cases hopen
  · rintro ⟨n, hwidth⟩
    obtain ⟨inner, hbuild, -⟩ := build_of_blockWidth run children outer hwidth
    exact Part.dom_iff_mem.mpr ⟨_, done_mem_eval_of_blockWidth? hwidth hbuild⟩

end RacketTree.BlockComment

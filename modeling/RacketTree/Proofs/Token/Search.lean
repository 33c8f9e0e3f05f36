import Mathlib.Computability.StateTransition
import RacketTree.Proofs.Token.Width

/-!
# The search for the end of a block comment

`blockWidth?` is a recursion along the text. Here the same search is a machine: it counts the
comments that are open, and each turn goes past a closer, an opener or one other character. It stops
where the last comment is closed, or at the end of the text. A width is what the machine goes past
until it stops with no comment open (`blockWidth?_eq_some_iff`), so that what is said of its counter
is said of `blockWidth?`.
-/

namespace RacketTree.Token

open StateTransition

/-- Two characters that close or open a block comment. -/
def Delimits (a b : Char) : Prop :=
  a = '|' ∧ b = '#' ∨ a = '#' ∧ b = '|'

/-- The two patterns that a scan of a comment tries fail if and only if no delimiter is there. -/
theorem not_delimits_iff {c : Char} {rest : List Char} :
    (∀ next ∈ rest.head?, ¬Delimits c next) ↔
      (∀ after, c = '|' → rest = '#' :: after → False) ∧
        ∀ after, c = '#' → rest = '|' :: after → False := by
  cases rest with
  | nil => simp
  | cons next rest =>
    simp only [List.head?_cons, Option.mem_some_iff, forall_eq', Delimits, List.cons.injEq]
    grind

/-- The search for the end of a block comment between two turns. -/
structure CommentSearch where
  /-- The number of open comments. -/
  depth : Nat
  /-- The characters that lie ahead. -/
  rest : List Char

namespace CommentSearch

/-- The search behind the opener of a text. -/
def start (text : List Char) : CommentSearch :=
  ⟨1, text.drop 2⟩

/-- One turn of the search. -/
def turn : CommentSearch → Option CommentSearch
  | ⟨0, _⟩ => none
  | ⟨depth + 1, cs⟩ =>
    match cs with
    | [] => none
    | '|' :: '#' :: rest => some ⟨depth, rest⟩
    | '#' :: '|' :: rest => some ⟨depth + 2, rest⟩
    | _ :: rest => some ⟨depth + 1, rest⟩

theorem turn_cons (depth : Nat) {c : Char} {rest : List Char}
    (h : ∀ next ∈ rest.head?, ¬Delimits c next) :
    turn ⟨depth + 1, c :: rest⟩ = some ⟨depth + 1, rest⟩ := by
  obtain ⟨hclose, hopen⟩ := not_delimits_iff.mp h
  rw [turn]
  · exact hclose
  · exact hopen

theorem eval_eq {s s' : CommentSearch} (h : s.turn = some s') : eval turn s = eval turn s' :=
  reaches_eval (.single h)

theorem mem_eval_self {s : CommentSearch} (h : s.turn = none) : s ∈ eval turn s :=
  mem_eval.mpr ⟨.refl, h⟩

end CommentSearch

open CommentSearch

variable {depth n : Nat} {cs : List Char}

theorem mem_eval_of_blockWidth? (h : blockWidth? depth cs = some n) :
    ⟨0, cs.drop n⟩ ∈ eval turn ⟨depth + 1, cs⟩ := by
  fun_induction blockWidth? depth cs generalizing n with
  | case1 => cases h
  | case2 rest =>
    cases h
    rw [eval_eq rfl]
    exact mem_eval_self rfl
  | case3 rest depth ih | case4 depth rest ih =>
    obtain ⟨m, hm, rfl⟩ := Option.map_eq_some_iff.mp h
    rw [eval_eq rfl]
    exact ih hm
  | case5 depth c rest h₁ h₂ ih =>
    obtain ⟨m, hm, rfl⟩ := Option.map_eq_some_iff.mp h
    rw [eval_eq (turn_cons depth (not_delimits_iff.mpr ⟨h₁, h₂⟩))]
    exact ih hm

/-- Without a width the search stops at the end of the text, inside a comment. -/
theorem exists_mem_eval_of_blockWidth? (h : blockWidth? depth cs = none) :
    ∃ d, ⟨d + 1, []⟩ ∈ eval turn ⟨depth + 1, cs⟩ := by
  fun_induction blockWidth? depth cs with
  | case1 depth => exact ⟨depth, mem_eval_self rfl⟩
  | case2 => cases h
  | case3 rest depth ih | case4 depth rest ih =>
    rw [eval_eq rfl]
    exact ih (Option.map_eq_none_iff.mp h)
  | case5 depth c rest h₁ h₂ ih =>
    rw [eval_eq (turn_cons depth (not_delimits_iff.mpr ⟨h₁, h₂⟩))]
    exact ih (Option.map_eq_none_iff.mp h)

/-- A width is the number of characters that the search goes past until all comments are closed. -/
theorem blockWidth?_eq_some_iff : blockWidth? depth cs = some n ↔
    n ≤ cs.length ∧ ⟨0, cs.drop n⟩ ∈ eval turn ⟨depth + 1, cs⟩ := by
  refine ⟨fun h => ⟨(blockWidth?_le h).2, mem_eval_of_blockWidth? h⟩, fun ⟨hle, hmem⟩ => ?_⟩
  cases h : blockWidth? depth cs with
  | none =>
    obtain ⟨d, hd⟩ := exists_mem_eval_of_blockWidth? h
    cases Part.mem_unique hmem hd
  | some m =>
    have hm := (blockWidth?_le h).2
    have hlength := congrArg (fun s => s.rest.length)
      (Part.mem_unique hmem (mem_eval_of_blockWidth? h))
    simp only [List.length_drop] at hlength
    rw [show m = n by omega]

end RacketTree.Token

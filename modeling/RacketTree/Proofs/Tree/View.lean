import RacketTree.Proofs.Tree.Holds
import RacketTree.Tree.Node

/-!
# Nodes of stored trees

A stored tree is seen at an offset as a node (`Arena.view`), and records side by side as nodes side
by side (`Arena.viewAll`). `tiles_view` says that the nodes tile the text: where a text has the text
of the tree at the node's offset, every node below covers the stretch of it that its leaves spell,
and its children lie one after the other from its start to its end.
-/

namespace RacketTree

namespace Arena

variable {a : Arena}

/-- The nodes of records side by side from an offset on. -/
def viewAll (a : Arena) (start : Nat) : List Handle → List Node
  | [] => []
  | h :: rest => a.view h start :: a.viewAll (start + a.width h) rest

theorem viewAll_append (a : Arena) (start : Nat) (xs ys : List Handle) :
    a.viewAll start (xs ++ ys) = a.viewAll start xs ++ a.viewAll (start + a.widths xs) ys := by
  induction xs generalizing start with
  | nil => simp [viewAll, widths]
  | cons x xs ih => simp [viewAll, widths, ih, Nat.add_assoc]

theorem length_viewAll (a : Arena) (start : Nat) (xs : List Handle) :
    (a.viewAll start xs).length = xs.length := by
  induction xs generalizing start with
  | nil => rfl
  | cons x xs ih => simp [viewAll, ih]

@[simp] theorem handle_view (a : Arena) (h : Handle) (start : Nat) :
    (a.view h start).handle = h := by
  rw [view]
  split <;> rfl

@[simp] theorem start_view (a : Arena) (h : Handle) (start : Nat) :
    (a.view h start).start = start := by
  rw [view]
  split <;> rfl

@[simp] theorem width_view (a : Arena) (h : Handle) (start : Nat) :
    (a.view h start).width = a.width h := by
  rw [view]
  split <;> simp [width, *]

theorem map_handle_viewAll (a : Arena) (start : Nat) (xs : List Handle) :
    (a.viewAll start xs).map Node.handle = xs := by
  induction xs generalizing start with
  | nil => rfl
  | cons x xs ih => simp [viewAll, ih]

theorem viewAll_eq {h : Handle} (start : Nat) (cs : List Handle) (hcs : ∀ c ∈ cs, c < h) :
    ((a.spots start cs).filterMap fun spot =>
      if _below : spot.1 < h then some (a.view spot.1 spot.2) else none) = a.viewAll start cs := by
  induction cs generalizing start with
  | nil => rfl
  | cons c cs ih =>
    have hc := hcs c List.mem_cons_self
    simp only [spots, List.filterMap_cons, dif_pos hc, viewAll]
    rw [ih (start + a.width c) fun d hd => hcs d (List.mem_cons_of_mem _ hd)]

/-- The node of a leaf. -/
theorem view_leaf {h : Handle} {kind : Kind} {text : List Char} {fault : Option Fault}
    (hold : a.Holds h (.leaf kind text fault)) (start : Nat) :
    (a.view h start).kind = kind ∧ (a.view h start).text? = some text ∧
      (a.view h start).fault = fault ∧ (a.view h start).children = [] := by
  obtain ⟨r, hr, hk, -, ht, hf, hcs⟩ := hold
  rw [view, hr]
  simp [hk, ht, hf, hcs, spots]

theorem HoldsAll.lt {n : Nat} {hs : List Handle} {ss : List Shape} (h : a.HoldsAll n hs ss) :
    ∀ x ∈ hs, x < n := by
  induction ss generalizing hs with
  | nil =>
    cases h
    simp
  | cons s ss ih =>
    obtain ⟨x, rest, rfl, hlt, -, hrest⟩ := h
    intro y hy
    rcases List.mem_cons.mp hy with rfl | hy
    · exact hlt
    · exact ih hrest y hy

/-- The node of a branch. -/
theorem view_branch {h : Handle} {kind : Kind} {ss : List Shape} {fault : Option Fault}
    (hold : a.Holds h (.branch kind ss fault)) (start : Nat) :
    ∃ hs, a.HoldsAll h hs ss ∧ (a.view h start).kind = kind ∧ (a.view h start).text? = none ∧
      (a.view h start).fault = fault ∧ (a.view h start).children = a.viewAll start hs := by
  obtain ⟨r, hr, hk, -, ht, hf, hcs⟩ := hold
  refine ⟨r.children, hcs, ?_⟩
  rw [view, hr]
  exact ⟨hk, ht, hf, viewAll_eq start r.children hcs.lt⟩

end Arena

namespace Node

/-- The nodes lie side by side from `start` to `stop`. -/
def Contiguous (start : Nat) (stop : Nat) : List Node → Prop
  | [] => start = stop
  | n :: rest => n.start = start ∧ Contiguous n.stop stop rest

/-- The texts of the leaves among some nodes. -/
def spell (nodes : List Node) : List Char :=
  (nodes.filter isLeaf).flatMap fun leaf => leaf.text?.getD []

/-- The stretch of a source text that a node covers. -/
def slice (n : Node) (source : List Char) : List Char :=
  (source.drop n.start).take n.width

/-- A node covers the stretch of the source that its leaves spell; its children lie side by side
from its start to its end, and a leaf has its stretch as text. -/
structure Tiles (source : List Char) (n : Node) : Prop where
  within : n.stop ≤ source.length
  contiguous : n.isLeaf = false → Contiguous n.start n.stop n.children
  leaf : n.isLeaf = true → n.children = [] ∧ n.text? = some (n.slice source)
  spells : n.slice source = spell n.walk

theorem walk_eq (n : Node) : n.walk = n :: walkAll n.children := by
  obtain ⟨handle, kind, start, width, text?, fault, hasFault, children⟩ := n
  rw [walk]

theorem spell_append (xs ys : List Node) : spell (xs ++ ys) = spell xs ++ spell ys := by
  simp [spell]

end Node

namespace Arena

open Node

theorem contiguous_viewAll (a : Arena) (start : Nat) (hs : List Handle) :
    Contiguous start (start + a.widths hs) (a.viewAll start hs) := by
  induction hs generalizing start with
  | nil => rfl
  | cons h hs ih =>
    refine ⟨start_view a h start, ?_⟩
    rw [stop, start_view, width_view, widths, ← Nat.add_assoc]
    exact ih (start + a.width h)

mutual

theorem spell_view {a : Arena} {h : Handle} (start : Nat) :
    {s : Shape} → a.Holds h s → spell (a.view h start).walk = s.text
  | .leaf kind text fault, hold => by
    obtain ⟨-, ht, -, hcs⟩ := view_leaf hold start
    simp [walk_eq, hcs, walkAll, spell, isLeaf, ht, Shape.text]
  | .branch kind ss fault, hold => by
    obtain ⟨hs, hall, -, ht, -, hcs⟩ := view_branch hold start
    have hspell := spell_viewAll start hall
    rw [walk_eq, hcs, Shape.text, ← hspell]
    simp [spell, isLeaf, ht]

theorem spell_viewAll {a : Arena} {n : Nat} {hs : List Handle} (start : Nat) :
    {ss : List Shape} → a.HoldsAll n hs ss → spell (walkAll (a.viewAll start hs)) = Shape.texts ss
  | [], hall => by
    cases hall
    rfl
  | s :: ss, ⟨h, rest, hhs, _, hold, hrest⟩ => by
    rw [hhs, viewAll, walkAll, spell_append, spell_view start hold,
      spell_viewAll (start + a.width h) hrest, Shape.texts]

end

/-- The node of a stored tree covers the text of the tree. -/
theorem slice_view {a : Arena} {h : Handle} {s : Shape} {start : Nat} {source tail : List Char}
    (hold : a.Holds h s) (hsource : source.drop start = s.text ++ tail) :
    (a.view h start).slice source = s.text := by
  rw [slice, start_view, width_view, hold.width, hsource, List.take_left]

theorem stop_view_le {a : Arena} {h : Handle} {s : Shape} {start : Nat} {source tail : List Char}
    (hold : a.Holds h s) (hstart : start ≤ source.length)
    (hsource : source.drop start = s.text ++ tail) :
    (a.view h start).stop ≤ source.length := by
  have hlen := congrArg List.length hsource
  rw [List.length_drop, List.length_append] at hlen
  rw [stop, start_view, width_view, hold.width]
  omega

mutual

/-- The nodes of a stored tree tile the text in which it stands. -/
theorem tiles_view {a : Arena} {h : Handle} {start : Nat} {source tail : List Char}
    (hstart : start ≤ source.length) :
    {s : Shape} → a.Holds h s → source.drop start = s.text ++ tail →
      ∀ n ∈ (a.view h start).walk, n.Tiles source
  | .leaf kind text fault, hold, hsource => by
    obtain ⟨-, ht, -, hcs⟩ := view_leaf hold start
    rw [walk_eq, hcs, walkAll]
    intro n hn
    rw [List.mem_singleton.mp hn]
    have hslice := slice_view hold hsource
    refine ⟨stop_view_le hold hstart hsource, ?_, ?_, ?_⟩
    · simp [isLeaf, ht]
    · intro _
      exact ⟨hcs, by rw [ht, hslice]; rfl⟩
    · rw [hslice, spell_view start hold]
  | .branch kind ss fault, hold, hsource => by
    obtain ⟨hs, hall, -, ht, -, hcs⟩ := view_branch hold start
    rw [walk_eq]
    intro n hn
    rcases List.mem_cons.mp hn with rfl | hn
    · have hslice := slice_view hold hsource
      refine ⟨stop_view_le hold hstart hsource, ?_, ?_, ?_⟩
      · intro _
        rw [hcs, stop, start_view, width_view, hold.width, Shape.text, ← hall.widths]
        exact contiguous_viewAll a start hs
      · simp [isLeaf, ht]
      · rw [hslice, spell_view start hold]
    · rw [hcs] at hn
      exact tiles_viewAll hstart hall hsource n hn

theorem tiles_viewAll {a : Arena} {m : Nat} {hs : List Handle} {start : Nat}
    {source tail : List Char} (hstart : start ≤ source.length) :
    {ss : List Shape} → a.HoldsAll m hs ss → source.drop start = Shape.texts ss ++ tail →
      ∀ n ∈ walkAll (a.viewAll start hs), n.Tiles source
  | [], hall, _ => by
    cases hall
    simp [viewAll, walkAll]
  | s :: ss, ⟨h, rest, hhs, _, hold, hrest⟩, hsource => by
    rw [Shape.texts, List.append_assoc] at hsource
    rw [hhs, viewAll, walkAll]
    intro n hn
    rcases List.mem_append.mp hn with hn | hn
    · exact tiles_view hstart hold hsource n hn
    · have hle := stop_view_le hold hstart hsource
      rw [stop, start_view, width_view] at hle
      have hnext : source.drop (start + a.width h) = Shape.texts ss ++ tail := by
        rw [← List.drop_drop, hsource, hold.width, List.drop_left]
      exact tiles_viewAll hle hrest hnext n hn

end

end Arena

end RacketTree

import RacketTree.Proofs.Tree.Lineage

/-!
# Trees that have been read

What holds of the tree of every text: its arena is well formed, its nodes conform to the schema, and
the search for errors finds one if one has been noted (`errors_parse_ne_nil_iff`). Where none has
been noted, no node has a fault (`hasFault_of_mem_walk_parse`).
-/

namespace RacketTree

theorem wellFormed_parse (config : Config) (source : List Char) :
    (parse config source).1.WellFormed :=
  (Arena.wellFormed_empty.storeAll _).branch .source none (Arena.lt_size_storeAll Arena.empty _)

theorem formed_parse (config : Config) (source : List Char) :
    (Shape.branch .source (Read.shapes config source) none).Formed config := by
  have hitems : ∀ s ∈ Read.shapes config source, s.isItem = true ∧ s.Formed config := by
    intro s hs
    obtain ⟨d, hd, rfl⟩ := List.mem_map.mp hs
    refine Read.formed_readItems config source d hd d.shape ?_
    rw [Draft.shapes_eq (Read.isSingle_readItems source d hd)]
    exact List.mem_singleton_self _
  exact Shape.formed_branch.mpr
    ⟨.source fun s hs => (hitems s hs).1, fun s hs => (hitems s hs).2⟩

/-- The search for errors finds one where one has been noted. -/
theorem errors_parse_ne_nil_iff (config : Config) (source : List Char) :
    (parse config source).2.errors (parse config source).1 ≠ [] ↔
      (parse config source).2.hasErrors (parse config source).1 = true := by
  have hold := (covers_parse config source).holds
  have hwf := wellFormed_parse config source
  have hformed := formed_parse config source
  have hkind : (Shape.branch .source (Read.shapes config source) none).kind ≠ .missing := by
    simp [Shape.kind]
  rw [Tree.errors, Tree.node, Arena.errors_view hwf _ hold hformed hkind, Tree.hasErrors,
    hwf.hasFault_eq hold]
  exact Arena.outermost_view_ne_nil_iff hold hformed _

theorem conforms_of_mem_walk_parse (config : Config) (source : List Char) {n : Node}
    (h : n ∈ ((parse config source).2.node (parse config source).1).walk) :
    n.shape.Conforms config := by
  have hwalk : n.shape ∈ (Shape.branch .source (Read.shapes config source) none).walk := by
    rw [← Arena.map_shape_walk_view _ (covers_parse config source).holds]
    exact List.mem_map_of_mem h
  exact (formed_parse config source n.shape hwalk).conforms

namespace Arena

variable {a : Arena}

mutual

theorem hasFault_of_mem_walk_view {h : Handle} (hwf : a.WellFormed) (start : Nat) :
    {s : Shape} → a.Holds h s → s.hasFault = false →
      ∀ m ∈ (a.view h start).walk, m.hasFault = false
  | .leaf kind text fault, hold, hs => by
    obtain ⟨-, -, -, hchildren⟩ := view_leaf hold start
    rw [Node.walk_eq, hchildren]
    intro m hm
    rw [List.mem_singleton.mp hm, hasFault_view, hwf.hasFault_eq hold, hs]
  | .branch kind ss fault, hold, hs => by
    obtain ⟨hs', hall, -, -, -, hchildren⟩ := view_branch hold start
    rw [Node.walk_eq, hchildren, List.forall_mem_cons, hasFault_view, hwf.hasFault_eq hold]
    rw [Shape.hasFault, Bool.or_eq_false_iff] at hs
    refine ⟨by rw [Shape.hasFault, hs.1, hs.2]; rfl, ?_⟩
    exact hasFault_of_mem_walkAll_viewAll hwf start hall hs.2

theorem hasFault_of_mem_walkAll_viewAll {n : Nat} {hs : List Handle} (hwf : a.WellFormed)
    (start : Nat) : {ss : List Shape} → a.HoldsAll n hs ss → Shape.anyFault ss = false →
      ∀ m ∈ Node.walkAll (a.viewAll start hs), m.hasFault = false
  | [], hall, _ => by
    cases hall
    nofun
  | s :: ss, ⟨h, rest, hhs, _, hold, hrest⟩, hss => by
    rw [Shape.anyFault, Bool.or_eq_false_iff] at hss
    rw [hhs, viewAll, Node.walkAll]
    exact List.forall_mem_append.mpr ⟨hasFault_of_mem_walk_view hwf start hold hss.1,
      hasFault_of_mem_walkAll_viewAll hwf _ hrest hss.2⟩

end

end Arena

theorem hasFault_of_mem_walk_parse {config : Config} {source : List Char}
    (h : (parse config source).2.hasErrors (parse config source).1 = false) :
    ∀ m ∈ ((parse config source).2.node (parse config source).1).walk, m.hasFault = false := by
  have hold := (covers_parse config source).holds
  have hwf := wellFormed_parse config source
  rw [Tree.hasErrors, hwf.hasFault_eq hold] at h
  exact Arena.hasFault_of_mem_walk_view hwf _ hold h

theorem map_shape_children_parse (config : Config) (source : List Char) :
    ((parse config source).2.node (parse config source).1).children.map Node.shape =
      Read.shapes config source := by
  obtain ⟨hs, hall, -, -, -, hchildren⟩ :=
    Arena.view_branch (covers_parse config source).holds (parse config source).2.rootStart
  rw [Tree.node, hchildren, Arena.map_shape_viewAll _ hall]

end RacketTree

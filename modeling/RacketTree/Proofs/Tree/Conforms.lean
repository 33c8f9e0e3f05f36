import RacketTree.Proofs.Tree.Formed
import RacketTree.Proofs.Tree.Session

/-!
# Every version conforms to the schema

`Node.shape` is the tree that a node stands for. The nodes below a stored tree stand for the trees
below it (`map_shape_walk_view`), so the schema carries over from items to the nodes of every
version (`Session.run_conforms`).
-/

namespace RacketTree

namespace Node

mutual

/-- The tree of a node. -/
def shape : Node → Shape
  | ⟨_, kind, _, _, some text, fault, _, _⟩ => .leaf kind text fault
  | ⟨_, kind, _, _, none, fault, _, children⟩ => .branch kind (shapes children) fault

/-- The trees of several nodes. -/
def shapes : List Node → List Shape
  | [] => []
  | n :: rest => n.shape :: shapes rest

end

variable {n : Node}

theorem shapes_eq (ns : List Node) : shapes ns = ns.map shape := by
  induction ns with
  | nil => rfl
  | cons n ns ih => rw [shapes, ih, List.map_cons]

theorem shape_of_leaf {text : List Char} (h : n.text? = some text) :
    n.shape = .leaf n.kind text n.fault := by
  obtain ⟨handle, kind, start, width, text?, fault, hasFault, children⟩ := n
  cases h
  rw [shape]

theorem shape_of_branch (h : n.text? = none) :
    n.shape = .branch n.kind (n.children.map shape) n.fault := by
  obtain ⟨handle, kind, start, width, text?, fault, hasFault, children⟩ := n
  cases h
  rw [shape, shapes_eq]

theorem kind_shape (n : Node) : n.shape.kind = n.kind := by
  cases h : n.text? with
  | some text => rw [shape_of_leaf h, Shape.kind]
  | none => rw [shape_of_branch h, Shape.kind]

/-- The kinds of children that count as datums. -/
def isDatumKind (k : Kind) : Bool :=
  k != .whitespace && !k.isPunctuation && !k.isComment

theorem length_datums (n : Node) : n.datums.length = n.children.countP (isDatumKind ·.kind) := by
  rw [datums, named, List.filter_filter, ← List.countP_eq_length_filter]
  refine List.countP_congr fun c _ => ?_
  simp [isDatumKind, and_comm, and_left_comm]

theorem isDatumKind_of_isDatum {s : Shape} (h : s.isDatum = true) :
    isDatumKind s.kind = true := by
  have hitem := Shape.isItem_of_isDatum h
  have hfiller := Shape.isFiller_of_isDatum h
  simp only [Shape.isItem, Shape.isFiller, Bool.or_eq_true, Bool.or_eq_false_iff] at hitem hfiller
  cases hk : s.kind <;> simp [hk, Kind.isTrivia, Kind.isAtom, Kind.isCompound, Kind.isSequence,
    Kind.isWrapper] at hitem hfiller <;> rfl

theorem isDatumKind_of_isTrivia {k : Kind} (h : k.isTrivia = true) : isDatumKind k = false := by
  cases k <;> first
    | cases h; done
    | rfl

/-- A wrapper or a datum comment has exactly one datum. -/
theorem length_datums_of_conforms {config : Config} (h : n.shape.Conforms config)
    (hk : n.kind.isWrapper = true ∨ n.kind = .datumComment) : n.datums.length = 1 := by
  rw [← kind_shape] at hk
  obtain ⟨mark, gap, datum, hchildren, hmark, hgap, hdatum⟩ := h.wrapper hk
  have hbranch : n.text? = none := by
    cases ht : n.text? with
    | none => rfl
    | some text =>
      rw [shape_of_leaf ht] at hchildren
      cases hchildren
  rw [shape_of_branch hbranch, Shape.children] at hchildren
  have hcount : n.children.countP (isDatumKind ·.kind) =
      (n.children.map shape).countP (isDatumKind ·.kind) := by
    rw [List.countP_map]
    exact List.countP_congr fun c _ => by simp [kind_shape]
  have hfirst : isDatumKind mark.kind = false := by
    simp [isDatumKind, hmark.isPunctuation]
  have hnone : gap.countP (isDatumKind ·.kind) = 0 :=
    List.countP_eq_zero.mpr fun g hg => by simp [isDatumKind_of_isTrivia (hgap g hg)]
  rw [length_datums, hcount, hchildren]
  simp [List.countP_append, hfirst, hnone, isDatumKind_of_isDatum hdatum]

end Node

namespace Arena

open Node

mutual

theorem shape_view {a : Arena} {h : Handle} (start : Nat) :
    {s : Shape} → a.Holds h s → (a.view h start).shape = s
  | .leaf kind text fault, hold => by
    obtain ⟨hk, ht, hf, -⟩ := view_leaf hold start
    rw [shape_of_leaf ht, hk, hf]
  | .branch kind ss fault, hold => by
    obtain ⟨hs, hall, hk, ht, hf, hcs⟩ := view_branch hold start
    rw [shape_of_branch ht, hk, hf, hcs, map_shape_viewAll start hall]

theorem map_shape_viewAll {a : Arena} {n : Nat} {hs : List Handle} (start : Nat) :
    {ss : List Shape} → a.HoldsAll n hs ss → (a.viewAll start hs).map Node.shape = ss
  | [], hall => by
    cases hall
    rfl
  | s :: ss, ⟨h, rest, hhs, _, hold, hrest⟩ => by
    rw [hhs, viewAll, List.map_cons, shape_view start hold,
      map_shape_viewAll (start + a.width h) hrest]

end

mutual

/-- The nodes below a stored tree stand for the trees below it. -/
theorem map_shape_walk_view {a : Arena} {h : Handle} (start : Nat) :
    {s : Shape} → a.Holds h s → (a.view h start).walk.map Node.shape = s.walk
  | .leaf kind text fault, hold => by
    obtain ⟨-, -, -, hcs⟩ := view_leaf hold start
    rw [walk_eq, hcs, List.map_cons, shape_view start hold]
    rfl
  | .branch kind ss fault, hold => by
    obtain ⟨hs, hall, -, -, -, hcs⟩ := view_branch hold start
    rw [walk_eq, hcs, List.map_cons, shape_view start hold, map_shape_walkAll_viewAll start hall]
    rfl

theorem map_shape_walkAll_viewAll {a : Arena} {n : Nat} {hs : List Handle} (start : Nat) :
    {ss : List Shape} → a.HoldsAll n hs ss →
      (walkAll (a.viewAll start hs)).map Node.shape = Shape.walkAll ss
  | [], hall => by
    cases hall
    rfl
  | s :: ss, ⟨h, rest, hhs, _, hold, hrest⟩ => by
    rw [hhs, viewAll, walkAll, List.map_append, map_shape_walk_view start hold,
      map_shape_walkAll_viewAll (start + a.width h) hrest, Shape.walkAll]

end

end Arena

/-- The items of a text are items of the schema. -/
theorem Read.formed_readItems (config : Config) (cs : List Char) :
    ∀ d ∈ readItems config 0 (Token.lexemes cs), ∀ s ∈ d.shapes,
      s.isItem = true ∧ s.Formed config := by
  intro d hd s hs
  have hall : readItems config 0 (Token.lexemes cs) = readItems config 0 (Token.lexemes cs) ++ [] :=
    (List.append_nil _).symm
  obtain ⟨used, rest, e, hused, items, -, -⟩ := exists_items hall
  have hv : ∀ l ∈ used, l.Valid ∧ l.Spelled := fun l hl =>
    have hmem : l ∈ Token.lexemes cs := hused ▸ List.mem_append_left _ hl
    ⟨Token.lexemes_valid cs l hmem, Token.lexemes_spelled cs l hmem⟩
  rw [Draft.shapes_eq (isSingle_readItems cs d hd)] at hs
  rw [List.mem_singleton.mp hs]
  exact items.formed hv d hd

namespace Session

/-- In every version each node conforms to the schema, and a wrapper or a datum comment has exactly
one datum. -/
theorem run_conforms (ops : List Operation) :
    ∀ t ∈ (empty.run ops).versions, ∀ n ∈ (t.node (empty.run ops).arena).walk,
      n.shape.Conforms t.config ∧
        (n.kind.isWrapper = true ∨ n.kind = .datumComment → n.datums.length = 1) := by
  intro t ht n hn
  obtain ⟨-, ss, hold, hss⟩ := run_items Read.formed_readItems ops t ht
  have hroot : (Shape.branch .source ss none).Formed t.config :=
    Shape.formed_branch.mpr ⟨.source fun s hs => (hss s hs).1, fun s hs => (hss s hs).2⟩
  have hwalk : n.shape ∈ (Shape.branch .source ss none).walk := by
    rw [← Arena.map_shape_walk_view t.rootStart hold]
    exact List.mem_map_of_mem hn
  have hconforms := (hroot n.shape hwalk).conforms
  exact ⟨hconforms, Node.length_datums_of_conforms hconforms⟩

/-- An edit closes a list with a quoted datum. In the version that it makes the quote conforms to
the schema and has one datum. -/
theorem run_conforms_quote :
    let s := empty.run [.parse .default ['(', '\x27', 'a'], .revise ⟨0, .replace 3 3 [')']⟩]
    ∃ t ∈ s.versions, t.source = ['(', '\x27', 'a', ')'] ∧
      ∃ n ∈ (t.node s.arena).walk, n.kind = .quote ∧ n.shape.Conforms t.config ∧
        n.datums.length = 1 := by
  intro s
  have hquote : (s.versions.any fun t => t.source == ['(', '\x27', 'a', ')'] &&
      (t.node s.arena).walk.any fun n => n.kind == .quote) = true := by decide +kernel
  obtain ⟨t, ht, htree⟩ := List.any_eq_true.mp hquote
  obtain ⟨hsource, hwalk⟩ := (Bool.and_eq_true _ _).mp htree
  obtain ⟨n, hn, hkind⟩ := List.any_eq_true.mp hwalk
  rw [beq_iff_eq] at hsource hkind
  obtain ⟨hconforms, hdatum⟩ := run_conforms _ t ht n hn
  exact ⟨t, ht, hsource, n, hn, hkind, hconforms, hdatum (.inl (by rw [hkind]; rfl))⟩

end Session

end RacketTree

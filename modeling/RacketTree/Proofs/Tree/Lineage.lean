import RacketTree.Proofs.Tree.Outermost

/-!
# Nodes and what is around them

`Node.lineages` lists the nodes of a tree in source order, each with the nodes around it. With it
one can say which errors are outermost without following the search for them: those that no error is
around (`filter_lineages`).

`Session.run_errors` says this of the errors that are found in any version of any text: they are
exactly the outermost ones, there are some if and only if the tree has an error, and they lie one
behind the other and are not empty. An edit need not describe the change for this, since the spans
come from the widths of the records alone.
-/

namespace RacketTree

namespace Node

mutual

/-- The node and all nodes below it in source order, each with the nodes around it, the outermost
first. -/
def lineages : Node → List (List Node × Node)
  | n@⟨_, _, _, _, _, _, _, children⟩ =>
    ([], n) :: (lineagesAll children).map fun p => (n :: p.1, p.2)

/-- The nodes of several trees, each with the nodes around it. -/
def lineagesAll : List Node → List (List Node × Node)
  | [] => []
  | n :: rest => n.lineages ++ lineagesAll rest

end

theorem lineages_eq (n : Node) :
    n.lineages = ([], n) :: (lineagesAll n.children).map fun p => (n :: p.1, p.2) := by
  obtain ⟨handle, kind, start, width, text?, fault, hasFault, children⟩ := n
  rw [lineages]

mutual

theorem map_snd_lineages : (n : Node) → n.lineages.map Prod.snd = n.walk
  | ⟨handle, kind, start, width, text?, fault, hasFault, children⟩ => by
    rw [lineages_eq, walk_eq, List.map_cons, List.map_map]
    exact congrArg _ (map_snd_lineagesAll children)

theorem map_snd_lineagesAll : (ns : List Node) → (lineagesAll ns).map Prod.snd = walkAll ns
  | [] => rfl
  | n :: ns => by
    rw [lineagesAll, walkAll, List.map_append, map_snd_lineages n, map_snd_lineagesAll ns]

end

/-- The node is an error, and no node around it is one. -/
def isOutermost (p : List Node × Node) : Bool :=
  p.2.isError && !p.1.any isError

mutual

/-- The outermost errors are the errors that no error is around. -/
theorem filter_lineages : (n : Node) → (n.lineages.filter isOutermost).map Prod.snd = n.outermost
  | ⟨handle, kind, start, width, text?, fault, hasFault, children⟩ => by
    rw [lineages_eq, outermost_eq, List.filter_cons, List.filter_map]
    by_cases herror : isError ⟨handle, kind, start, width, text?, fault, hasFault, children⟩ = true
    · -- every node below has this error around it
      have hnone : (lineagesAll children).filter (isOutermost ∘ fun p =>
          (⟨handle, kind, start, width, text?, fault, hasFault, children⟩ :: p.1, p.2)) = [] := by
        rw [List.filter_eq_nil_iff]
        intro p _
        simp [isOutermost, herror]
      rw [if_pos herror, hnone, isOutermost, herror]
      rfl
    · have hbelow : (isOutermost ∘ fun p : List Node × Node =>
          (⟨handle, kind, start, width, text?, fault, hasFault, children⟩ :: p.1, p.2)) =
            isOutermost := by
        funext p
        simp [isOutermost, herror]
      rw [if_neg herror, hbelow, if_neg (by simp [isOutermost, herror]), List.map_map]
      exact filter_lineagesAll children

theorem filter_lineagesAll : (ns : List Node) →
    ((lineagesAll ns).filter isOutermost).map Prod.snd = outermostAll ns
  | [] => rfl
  | n :: ns => by
    rw [lineagesAll, outermostAll, List.filter_append, List.map_append, filter_lineages n,
      filter_lineagesAll ns]

end

mutual

/-- Where an error is, an outermost one is too. -/
theorem outermost_ne_nil {m : Node} (hm : m.isError = true) : (n : Node) → m ∈ n.walk →
    n.outermost ≠ []
  | ⟨handle, kind, start, width, text?, fault, hasFault, children⟩, hmem => by
    rw [outermost_eq]
    split
    · exact List.cons_ne_nil _ _
    · rename_i hno
      rw [walk_eq] at hmem
      rcases List.mem_cons.mp hmem with rfl | hmem
      · exact absurd hm hno
      · exact outermostAll_ne_nil hm children hmem

theorem outermostAll_ne_nil {m : Node} (hm : m.isError = true) : (ns : List Node) →
    m ∈ walkAll ns → outermostAll ns ≠ []
  | n :: ns, hmem => by
    rw [outermostAll]
    rcases List.mem_append.mp hmem with hmem | hmem
    · exact List.append_ne_nil_of_left_ne_nil (outermost_ne_nil hm n hmem) _
    · exact List.append_ne_nil_of_right_ne_nil _ (outermostAll_ne_nil hm ns hmem)

end

end Node

namespace Shape

mutual

/-- A fault is the fault of some node. -/
theorem exists_fault : {s : Shape} → s.hasFault = true → ∃ t ∈ s.walk, t.fault ≠ none
  | .leaf kind text fault, h =>
    ⟨_, List.mem_cons_self, Option.isSome_iff_ne_none.mp h⟩
  | .branch kind children fault, h => by
    rcases (Bool.or_eq_true _ _).mp h with hfault | hchildren
    · exact ⟨_, List.mem_cons_self, Option.isSome_iff_ne_none.mp hfault⟩
    · obtain ⟨t, ht, hne⟩ := exists_fault_all hchildren
      exact ⟨t, List.mem_cons_of_mem _ ht, hne⟩

theorem exists_fault_all : {ss : List Shape} → anyFault ss = true →
    ∃ t ∈ walkAll ss, t.fault ≠ none
  | s :: ss, h => by
    rcases (Bool.or_eq_true _ _).mp h with hfirst | hrest
    · obtain ⟨t, ht, hne⟩ := exists_fault hfirst
      exact ⟨t, List.mem_append_left _ ht, hne⟩
    · obtain ⟨t, ht, hne⟩ := exists_fault_all hrest
      exact ⟨t, List.mem_append_right _ ht, hne⟩

end

end Shape

namespace Arena

open Node

variable {a : Arena} {config : Config} {h : Handle} {s : Shape}

/-- A stored tree of the schema has an outermost error if and only if it has a fault. -/
theorem outermost_view_ne_nil_iff (hold : a.Holds h s) (hs : s.Formed config) (start : Nat) :
    (a.view h start).outermost ≠ [] ↔ s.hasFault = true := by
  constructor
  · intro hne
    by_contra hfault
    exact hne (outermost_view_eq_nil hold hs (Bool.eq_false_iff.mpr hfault) start)
  · intro hfault
    obtain ⟨t, ht, hne⟩ := Shape.exists_fault hfault
    have hkind : t.kind = .error := (hs t ht).error_iff.mpr hne
    rw [← map_shape_walk_view start hold] at ht
    obtain ⟨n, hn, rfl⟩ := List.mem_map.mp ht
    rw [kind_shape] at hkind
    exact outermost_ne_nil (beq_iff_eq.mpr hkind) _ hn

/-- The outermost errors of a stored tree of the schema lie one behind the other and are not
empty. -/
theorem spans_outermost_view (hold : a.Holds h s) (hs : s.Formed config) :
    (∀ n ∈ (a.view h 0).outermost, n.start < n.stop) ∧
      (a.view h 0).outermost.Pairwise fun m n => m.stop ≤ n.start := by
  -- the tree tiles the text that it spells, whether that is its source or not
  have htiles : ∀ n ∈ (a.view h 0).walk, n.Tiles s.text :=
    tiles_view (Nat.zero_le _) hold (by rw [List.drop_zero, List.append_nil])
  refine ⟨fun n hn => ?_, (ordered_outermost _ htiles).pairwise⟩
  obtain ⟨herror, hsubset⟩ := mem_outermost _ n hn
  have hform : ∀ m ∈ n.walk, Shape.Form config m.shape := by
    intro m hm
    apply hs
    rw [← map_shape_walk_view 0 hold]
    exact List.mem_map_of_mem (hsubset hm)
  obtain ⟨stop, -, hlt, hle⟩ :=
    exists_diagnosticSpan (fun m hm => htiles m (hsubset hm)) hform herror
  exact Nat.lt_of_lt_of_le hlt hle

end Arena

namespace Session

/-- In every version the errors that are found are exactly the error nodes that no error is around,
in the order of the walk. None is a placeholder, there is one if and only if the tree has an error,
and their spans are not empty and lie one behind the other. -/
theorem run_errors (ops : List Operation) :
    ∀ t ∈ (empty.run ops).versions,
      let a := (empty.run ops).arena
      let root := t.node a
      root.lineages.map Prod.snd = root.walk ∧
        t.errors a =
          (root.lineages.filter fun p => p.2.isError && !p.1.any Node.isError).map Prod.snd ∧
        (∀ n ∈ t.errors a, n.isMissing = false) ∧
        (t.errors a ≠ [] ↔ t.hasErrors a = true) ∧
        (∀ n ∈ t.errors a, n.start < n.stop) ∧
        (t.errors a).Pairwise fun m n => m.stop ≤ n.start := by
  intro t ht a root
  obtain ⟨hstart, ss, hold, hss⟩ := run_items Read.formed_readItems ops t ht
  have hwf : a.WellFormed := (sound_empty.run ops).1.wellFormed
  have hroot : (Shape.branch .source ss none).Formed t.config :=
    Shape.formed_branch.mpr ⟨.source fun s hs => (hss s hs).1, fun s hs => (hss s hs).2⟩
  have herrors : t.errors a = root.outermost :=
    Arena.errors_view hwf t.rootStart hold hroot nofun
  have hview : root = a.view t.root 0 := by
    change a.view t.root t.rootStart = _
    rw [hstart]
  obtain ⟨hlt, hpairwise⟩ := Arena.spans_outermost_view hold hroot
  rw [← hview] at hlt hpairwise
  rw [herrors]
  refine ⟨Node.map_snd_lineages root, (Node.filter_lineages root).symm, fun n hn => ?_, ?_, hlt,
    hpairwise⟩
  · obtain ⟨herror, -⟩ := Node.mem_outermost _ n hn
    rw [Node.isMissing, beq_iff_eq.mp herror]
    rfl
  · rw [Tree.hasErrors, hwf.hasFault_eq hold]
    exact Arena.outermost_view_ne_nil_iff hold hroot t.rootStart

/-- A closing bracket by itself and a list that is not closed, until an edit closes it. The errors
of the first version are found after the edit too. -/
theorem run_errors_stray :
    let source := [')', '(', 'a']
    let s := empty.run [.parse .default source, .revise ⟨0, .replace 3 3 [')']⟩]
    let t := (parseInto Arena.empty .default source).2
    t ∈ s.versions ∧ t.errors s.arena ≠ [] ∧
      (t.errors s.arena).Pairwise fun m n => m.stop ≤ n.start := by
  intro source s t
  have hfirst : t ∈ (empty.perform (.parse .default source)).versions := List.mem_cons_self
  have hmem : t ∈ s.versions := ((sound_empty.perform _).1.run [_]).2.2.subset hfirst
  obtain ⟨-, -, -, hiff, -, hpairwise⟩ := run_errors _ t hmem
  have hhas : t.hasErrors s.arena = true := by decide +kernel
  exact ⟨hmem, hiff.mpr hhas, hpairwise⟩

end Session

end RacketTree

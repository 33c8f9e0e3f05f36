import RacketTree.Proofs.Tree.Lookup
import RacketTree.Proofs.Tree.Outermost

/-!
# Where datums lie

In a tree whose nodes tile the source and have the forms of the schema (`Node.Proper`), the datums
of a node lie one behind the other in it (`Proper.ordered_datums`), and each of them covers
something (`Proper.lt_stop_of_mem_datums`).
-/

namespace RacketTree.Node

variable {config : Config} {source : List Char} {n c : Node}

/-- All nodes of the tree tile the source and have the forms of the schema. -/
structure Proper (config : Config) (source : List Char) (n : Node) : Prop where
  tiles : ∀ m ∈ n.walk, m.Tiles source
  form : ∀ m ∈ n.walk, Shape.Form config m.shape

/-! ## Order -/

theorem Contiguous.ordered {start stop : Nat} {ns : List Node} (h : Contiguous start stop ns) :
    Ordered start stop ns := by
  induction ns generalizing start with
  | nil => exact Nat.le_of_eq h
  | cons n ns ih => exact ⟨Nat.le_of_eq h.1.symm, ih h.2⟩

theorem Ordered.mono {start first stop : Nat} {ns : List Node} (h : Ordered first stop ns)
    (hle : start ≤ first) : Ordered start stop ns := by
  cases ns with
  | nil => exact Nat.le_trans hle h
  | cons n ns => exact ⟨Nat.le_trans hle h.1, h.2⟩

theorem Ordered.sublist {start stop : Nat} {ns ms : List Node} (hsub : ms.Sublist ns)
    (h : Ordered start stop ns) : Ordered start stop ms := by
  induction hsub generalizing start with
  | slnil => exact h
  | cons n _ ih =>
    -- the node that is left out leaves a gap
    have hstop : n.start ≤ n.stop := Nat.le_add_right _ _
    exact (ih h.2).mono (Nat.le_trans h.1 hstop)
  | cons_cons n _ ih => exact ⟨h.1, ih h.2⟩

theorem datums_sublist (n : Node) : n.datums.Sublist n.children :=
  List.filter_sublist.trans List.filter_sublist

/-! ## Proper trees -/

theorem self_mem_walk (n : Node) : n ∈ n.walk := by
  rw [walk_eq]
  exact List.mem_cons_self

theorem mem_walk_of_mem_children (hc : c ∈ n.children) : c ∈ n.walk := by
  rw [walk_eq n]
  exact List.mem_cons_of_mem _ (walk_subset_of_mem hc c.self_mem_walk)

mutual

/-- The nodes below a node of a tree are in the tree. -/
theorem walk_subset : (n : Node) → ∀ m ∈ n.walk, m.walk ⊆ n.walk
  | ⟨handle, kind, start, width, text?, fault, hasFault, children⟩ => by
    intro m hm
    rw [walk_eq] at hm ⊢
    rcases List.mem_cons.mp hm with rfl | hm
    · exact List.Subset.refl _
    · rw [← walk_eq]
      exact List.subset_cons_of_subset _ (walkAll_subset children m hm)

theorem walkAll_subset : (ns : List Node) → ∀ m ∈ walkAll ns, m.walk ⊆ walkAll ns
  | [] => by simp [walkAll]
  | n :: ns => by
    intro m hm
    rw [walkAll] at hm ⊢
    rcases List.mem_append.mp hm with hm | hm
    · exact List.subset_append_of_subset_left _ (walk_subset n m hm)
    · exact List.subset_append_of_subset_right _ (walkAll_subset ns m hm)

end

namespace Proper

theorem of_mem (h : n.Proper config source) {m : Node} (hm : m ∈ n.walk) : m.Proper config source :=
  ⟨fun k hk => h.tiles k (walk_subset n m hm hk), fun k hk => h.form k (walk_subset n m hm hk)⟩

theorem child (h : n.Proper config source) (hc : c ∈ n.children) : c.Proper config source :=
  h.of_mem (mem_walk_of_mem_children hc)

theorem stop_le (h : n.Proper config source) : n.stop ≤ source.length :=
  (h.tiles n n.self_mem_walk).within

theorem within (h : n.Proper config source) : ∀ m ∈ n.walk, n.start ≤ m.start ∧ m.stop ≤ n.stop :=
  within_walk n h.tiles

theorem ordered_children (h : n.Proper config source) : Ordered n.start n.stop n.children := by
  have htiles := h.tiles n n.self_mem_walk
  cases hleaf : n.isLeaf with
  | true =>
    rw [(htiles.leaf hleaf).1]
    exact Nat.le_add_right _ _
  | false => exact (htiles.contiguous hleaf).ordered

theorem ordered_datums (h : n.Proper config source) : Ordered n.start n.stop n.datums :=
  h.ordered_children.sublist n.datums_sublist

/-- A node covers something, unless it stands for a missing datum or the source. -/
theorem lt_stop (h : n.Proper config source) (hmissing : n.kind ≠ .missing)
    (hsource : n.kind ≠ .source) : n.start < n.stop := by
  have htiles := h.tiles n n.self_mem_walk
  have hform := h.form n n.self_mem_walk
  cases htext : n.text? with
  | some text => exact lt_stop_of_leaf htiles hform (shape_of_leaf htext) hmissing
  | none =>
    rw [shape_of_branch htext] at hform
    obtain ⟨k, text, rest, hfirst, hk, -⟩ := hform.exists_first hsource
    have hordered := h.ordered_children
    -- the first child is a leaf with a text
    cases hchildren : n.children with
    | nil =>
      rw [hchildren] at hfirst
      cases hfirst
    | cons c cs =>
      have hc : c ∈ n.children := by
        rw [hchildren]
        exact List.mem_cons_self
      rw [hchildren, List.map_cons] at hfirst
      obtain ⟨hshape, -⟩ := List.cons.inj hfirst
      have hproper := h.child hc
      have hlt := lt_stop_of_leaf (hproper.tiles c c.self_mem_walk)
        (hproper.form c c.self_mem_walk) hshape hk
      obtain ⟨hstart, hstop⟩ := hordered.mem c hc
      omega

theorem lt_stop_of_mem_datums (h : n.Proper config source) (hc : c ∈ n.datums) :
    c.start < c.stop := by
  have hchild := n.datums_sublist.subset hc
  have hpunctuation : c.kind.isPunctuation = false := by
    have hnamed := (List.mem_filter.mp (List.mem_of_mem_filter hc)).2
    simp only [Bool.and_eq_true, Bool.not_eq_true'] at hnamed
    exact hnamed.2
  obtain ⟨-, hcases⟩ := child_cases (h.tiles n n.self_mem_walk) (h.form n n.self_mem_walk) hchild
  have hitem : c.shape.isItem = true := by
    rcases hcases with hitem | hfalse
    · exact hitem
    · rw [hpunctuation] at hfalse
      cases hfalse
  refine (h.child hchild).lt_stop ?_ ?_
  · intro hk
    rw [hk] at hpunctuation
    cases hpunctuation
  · intro hk
    simp [Shape.isItem, kind_shape, hk, Kind.isTrivia, Kind.isAtom, Kind.isCompound,
      Kind.isSequence, Kind.isWrapper] at hitem

end Proper

end RacketTree.Node

import Mathlib.Data.List.Chain
import RacketTree.Proofs.Tree.Datum
import RacketTree.Proofs.Tree.History

/-!
# Looking up an offset

The nodes of a tree tile its source, so that an offset in the source lies in exactly one leaf.
`Node.pathTo` goes down to it: it gives this leaf and the nodes around it from the inside out
(`Finds`, `exists_finds`). At an offset outside of the source it stays at the root.

By the schema every child is an item or punctuation, and the root has items only. So the chain of
nodes around a leaf reaches a node that is no punctuation before it reaches the root
(`Finds.exists_nearest`).
-/

namespace RacketTree

namespace Node

/-! ## The leaf at an offset -/

/-- Going down to an offset gives the only leaf there, behind it the nodes around the leaf from the
inside out, and the offset lies in all of them. -/
structure Finds (n : Node) (offset : Int) (leaf : Node) (around : List Node) : Prop where
  path : n.pathTo offset = leaf :: around
  only : n.leaves.filter (·.contains offset) = [leaf]
  /-- Each node is a child of the next one, and the last one is the root. -/
  parents : (leaf :: around).IsChain fun inner outer => inner ∈ outer.children
  root : (leaf :: around).getLast? = some n
  contains : ∀ m ∈ leaf :: around, m.contains offset = true

theorem contains_iff {n : Node} {offset : Int} :
    n.contains offset = true ↔ n.start ≤ offset ∧ offset < n.stop := by
  rw [contains, Bool.and_eq_true, decide_eq_true_eq, decide_eq_true_eq]

theorem pathTo_eq (offset : Int) (n : Node) :
    n.pathTo offset = pathToAny offset n.children ++ [n] := by
  obtain ⟨handle, kind, start, width, text?, fault, hasFault, children⟩ := n
  rw [pathTo]

theorem leaves_of_branch {n : Node} (h : n.isLeaf = false) :
    n.leaves = (walkAll n.children).filter isLeaf := by
  rw [leaves, walk_eq, List.filter_cons_of_neg (by simp [h])]

mutual

/-- Every node lies in the nodes around it. -/
theorem within_walk {source : List Char} : (n : Node) → (∀ m ∈ n.walk, m.Tiles source) →
    ∀ m ∈ n.walk, n.start ≤ m.start ∧ m.stop ≤ n.stop
  | ⟨handle, kind, start, width, text?, fault, hasFault, children⟩, h => by
    rw [walk_eq] at h ⊢
    obtain ⟨htiles, hbelow⟩ := List.forall_mem_cons.mp h
    intro m hm
    rcases List.mem_cons.mp hm with rfl | hm
    · exact ⟨Nat.le_refl _, Nat.le_refl _⟩
    · cases text? with
      | some text =>
        obtain ⟨hnone, -⟩ := htiles.leaf rfl
        rw [hnone] at hm
        cases hm
      | none => exact within_walkAll children (htiles.contiguous rfl) hbelow m hm

theorem within_walkAll {source : List Char} {start stop : Nat} : (ns : List Node) →
    Contiguous start stop ns → (∀ m ∈ walkAll ns, m.Tiles source) →
    ∀ m ∈ walkAll ns, start ≤ m.start ∧ m.stop ≤ stop
  | [], _, _ => by simp [walkAll]
  | n :: ns, ⟨hstart, hrest⟩, h => by
    rw [walkAll, List.forall_mem_append] at h
    have hle := hrest.le
    have hend : n.start ≤ n.stop := Nat.le_add_right _ _
    intro m hm
    rcases List.mem_append.mp hm with hm | hm
    · obtain ⟨hfirst, hlast⟩ := within_walk n h.1 m hm
      omega
    · obtain ⟨hfirst, hlast⟩ := within_walkAll ns hrest h.2 m hm
      omega

end

/-- Nodes that lie elsewhere have no leaf at the offset. -/
theorem filter_contains_eq_nil {ns : List Node} {start stop : Nat} {offset : Int}
    (h : ∀ m ∈ ns, start ≤ m.start ∧ m.stop ≤ stop) (hout : offset < start ∨ stop ≤ offset) :
    (ns.filter isLeaf).filter (·.contains offset) = [] := by
  rw [List.filter_eq_nil_iff]
  intro m hm hcontains
  obtain ⟨hfirst, hlast⟩ := h m (List.mem_of_mem_filter hm)
  rw [contains_iff] at hcontains
  omega

mutual

/-- An offset in a node is found in it. -/
theorem exists_finds {source : List Char} {offset : Int} : (n : Node) →
    (∀ m ∈ n.walk, m.Tiles source) → n.contains offset = true →
    ∃ leaf around, n.Finds offset leaf around
  | ⟨handle, kind, start, width, text?, fault, hasFault, children⟩, h, hin => by
    obtain ⟨n, hn⟩ : ∃ n : Node,
      n = ⟨handle, kind, start, width, text?, fault, hasFault, children⟩ := ⟨_, rfl⟩
    have hchildren : n.children = children := by rw [hn]
    rw [← hn] at h hin ⊢
    rw [walk_eq] at h
    obtain ⟨htiles, hbelow⟩ := List.forall_mem_cons.mp h
    cases hleaf : n.isLeaf with
    | true =>
      obtain ⟨hnone, -⟩ := htiles.leaf hleaf
      refine ⟨n, [], ?_, ?_, .singleton n, rfl, ?_⟩
      · rw [pathTo_eq, hnone]
        rfl
      · rw [leaves, walk_eq, hnone, walkAll]
        simp [hleaf, hin]
      · simpa using hin
    | false =>
      obtain ⟨hfirst, hlast⟩ := contains_iff.mp hin
      have hcontiguous := htiles.contiguous hleaf
      rw [hchildren] at hcontiguous hbelow
      obtain ⟨c, hc, leaf, around, hpath, honly, hparents, hroot, hcontains⟩ :=
        exists_finds_any children hcontiguous hbelow hfirst hlast
      refine ⟨leaf, around ++ [n], ?_, ?_, ?_, ?_, ?_⟩
      · rw [pathTo_eq, hchildren, hpath]
        rfl
      · rw [leaves_of_branch hleaf, hchildren, honly]
      · refine List.isChain_append.mpr ⟨hparents, .singleton n, ?_⟩
        simpa [hroot, hchildren] using hc
      · rw [← List.cons_append, List.getLast?_concat]
      · intro m hm
        rw [← List.cons_append, List.mem_append, List.mem_singleton] at hm
        rcases hm with hm | rfl
        · exact hcontains m hm
        · exact hin

theorem exists_finds_any {source : List Char} {offset : Int} {start stop : Nat} :
    (ns : List Node) → Contiguous start stop ns → (∀ m ∈ walkAll ns, m.Tiles source) →
    start ≤ offset → offset < stop →
    ∃ c ∈ ns, ∃ leaf around, pathToAny offset ns = leaf :: around ∧
      ((walkAll ns).filter isLeaf).filter (·.contains offset) = [leaf] ∧
      ((leaf :: around).IsChain fun inner outer => inner ∈ outer.children) ∧
      (leaf :: around).getLast? = some c ∧ ∀ m ∈ leaf :: around, m.contains offset = true
  | [], hcontiguous, _, hfirst, hlast => by
    rw [Contiguous] at hcontiguous
    omega
  | n :: ns, ⟨hstart, hrest⟩, h, hfirst, hlast => by
    rw [walkAll, List.forall_mem_append] at h
    rw [walkAll, List.filter_append, List.filter_append, pathToAny]
    by_cases hin : n.contains offset = true
    · obtain ⟨leaf, around, hpath, honly, hparents, hroot, hcontains⟩ := exists_finds n h.1 hin
      have hnone := filter_contains_eq_nil (within_walkAll ns hrest h.2)
        (.inl (contains_iff.mp hin).2)
      refine ⟨n, List.mem_cons_self, leaf, around, ?_, ?_, hparents, hroot, hcontains⟩
      · rw [if_pos hin, hpath]
      · rw [leaves] at honly
        rw [honly, hnone]
        rfl
    · have hstop : (n.stop : Int) ≤ offset := by
        rw [contains_iff] at hin
        omega
      have hnone := filter_contains_eq_nil (within_walk n h.1) (.inr hstop)
      obtain ⟨c, hc, leaf, around, hpath, honly, hfound⟩ :=
        exists_finds_any ns hrest h.2 hstop hlast
      refine ⟨c, List.mem_cons_of_mem n hc, leaf, around, ?_, ?_, hfound⟩
      · rw [if_neg hin, hpath]
      · rw [hnone, honly]
        rfl

end

/-- No node is found at an offset that lies in none. -/
theorem pathToAny_eq_nil {offset : Int} {ns : List Node}
    (h : ∀ n ∈ ns, n.contains offset = false) : pathToAny offset ns = [] := by
  induction ns with
  | nil => rfl
  | cons n ns ih =>
    obtain ⟨hn, hns⟩ := List.forall_mem_cons.mp h
    rw [pathToAny, if_neg (by simp [hn]), ih hns]

theorem walk_subset_of_mem {c : Node} {ns : List Node} (h : c ∈ ns) : c.walk ⊆ walkAll ns := by
  induction ns with
  | nil => cases h
  | cons n ns ih =>
    rw [walkAll]
    rcases List.mem_cons.mp h with rfl | h
    · exact List.subset_append_left _ _
    · exact List.subset_append_of_subset_right _ (ih h)

/-- What holds of the root and goes from a node to its children holds along a chain of parents. -/
theorem forall_of_parents {p : Node → Prop} {n : Node} {path : List Node}
    (hstep : ∀ q, p q → ∀ c ∈ q.children, p c) (hroot : path.getLast? = some n) (hn : p n)
    (hparents : path.IsChain fun inner outer => inner ∈ outer.children) : ∀ m ∈ path, p m := by
  induction path with
  | nil => simp
  | cons m path ih =>
    cases path with
    | nil =>
      rw [List.getLast?_singleton, Option.some.injEq] at hroot
      simpa [hroot] using hn
    | cons q path =>
      obtain ⟨hchild, hparents⟩ := List.isChain_cons_cons.mp hparents
      have hpath := ih hroot hparents
      exact List.forall_mem_cons.mpr ⟨hstep q (hpath q List.mem_cons_self) m hchild, hpath⟩

end Node

/-! ## Punctuation in the schema -/

namespace Shape

variable {config : Config} {k : Kind} {ss : List Shape} {f : Option Fault}

theorem isPunctuation_of_isItem {s : Shape} (h : s.isItem = true) :
    s.kind.isPunctuation = false := by
  rw [isItem] at h
  generalize s.kind = k at h
  revert h
  cases k <;> decide

/-- A node with children is no punctuation. -/
theorem Form.isPunctuation_branch (h : Form config (branch k ss f)) : k.isPunctuation = false := by
  cases h with
  | wrapped hmark =>
    rcases hmark.kind_cases with hwrapper | rfl
    · revert hwrapper
      cases k <;> decide
    · rfl
  | sequence =>
    rename_i opener front segments closing hbody hclosing
    have hsequence := Kind.isSequence_ofOpener opener
    revert hsequence
    cases Kind.ofOpener opener <;> decide
  | _ => rfl

/-- The children of a node are items and punctuation. -/
theorem Form.child_cases (h : Form config (branch k ss f)) :
    ∀ s ∈ ss, s.isItem = true ∨ s.kind.isPunctuation = true := by
  intro s hs
  cases h with
  | source hitems => exact .inl (hitems s hs)
  | blockComment hinner =>
    simp only [List.mem_cons, List.mem_append, List.not_mem_nil, or_false] at hs
    rcases hs with rfl | hs | rfl
    · exact .inr rfl
    · rcases hinner s hs with hcomment | ⟨text, -, rfl⟩
      · exact .inl (by simp [isItem, hcomment, Kind.isTrivia])
      · exact .inr rfl
    · exact .inr rfl
  | wrapped hmark hgap hdatum =>
    simp only [List.mem_cons, List.mem_append, List.not_mem_nil, or_false] at hs
    rcases hs with rfl | hs | rfl
    · exact .inr hmark.isPunctuation
    · exact .inl (isItem_of_isGap (isGap_of_isFiller (isFiller_of_isTrivia (hgap s hs))))
    · exact .inl (isItem_of_isDatum hdatum)
  | sequence hbody hclosing =>
    simp only [List.mem_cons, List.mem_append, List.not_mem_nil, or_false, dotted,
      List.mem_flatMap] at hs
    rcases hs with rfl | (hs | ⟨segment, hsegment, rfl | hs⟩) | rfl
    · exact .inr rfl
    · exact .inl (hbody.front_items s hs)
    · exact .inr rfl
    · exact .inl (hbody.items segment hsegment s hs)
    · rcases hclosing with ⟨c, -, rfl⟩ | ⟨-, c, -, rfl⟩
      · exact .inr rfl
      · exact .inl rfl
  | stray h | mismatch _ h =>
    obtain ⟨c, -, rfl⟩ := h
    rw [List.mem_singleton.mp hs]
    exact .inr rfl
  | unwrapped hmark hgap =>
    simp only [List.mem_cons, List.mem_append, List.not_mem_nil, or_false] at hs
    rcases hs with rfl | hs | rfl
    · exact .inr hmark.isPunctuation
    · exact .inl (isItem_of_isGap (hgap s hs))
    · exact .inr rfl
  | illegalDot h =>
    rcases List.mem_cons.mp hs with rfl | hs
    · exact .inr rfl
    · exact (h s hs).imp_right fun hdot => by rw [hdot]; rfl
  | unclosed h =>
    simp only [List.mem_cons, List.mem_append, List.not_mem_nil, or_false] at hs
    rcases hs with rfl | hs | rfl
    · exact .inr rfl
    · exact (h s hs).imp_right fun hdot => by rw [hdot]; rfl
    · exact .inr rfl

end Shape

namespace Node

variable {config : Config} {source : List Char}

/-- By the schema a node with a child is no punctuation, and the child is an item or punctuation. -/
theorem child_cases {q c : Node} (htiles : q.Tiles source) (hform : Shape.Form config q.shape)
    (hc : c ∈ q.children) :
    q.kind.isPunctuation = false ∧ (c.shape.isItem = true ∨ c.kind.isPunctuation = true) := by
  cases htext : q.text? with
  | some text =>
    obtain ⟨hnone, -⟩ := htiles.leaf (by rw [isLeaf, htext]; rfl)
    rw [hnone] at hc
    cases hc
  | none =>
    rw [shape_of_branch htext] at hform
    have hchild := hform.child_cases c.shape (List.mem_map_of_mem hc)
    rw [kind_shape] at hchild
    exact ⟨hform.isPunctuation_branch, hchild⟩

/-- The node is the first of a path that is no punctuation, and the path goes on behind it. -/
structure IsNearest (path : List Node) (n : Node) : Prop where
  split : ∃ inner outer, path = inner ++ n :: outer ∧ outer ≠ [] ∧
    ∀ m ∈ inner, m.kind.isPunctuation = true
  isPunctuation : n.kind.isPunctuation = false
  kind_ne_source : n.kind ≠ .source

/-- The nodes from a leaf up to the root reach one that is no punctuation before they reach the
root. -/
theorem Finds.exists_nearest {n leaf : Node} {offset : Int} {around : List Node}
    (h : n.Finds offset leaf around) (hbranch : n.isLeaf = false)
    (hitems : ∀ c ∈ n.children, c.shape.isItem = true) (htiles : ∀ m ∈ n.walk, m.Tiles source)
    (hform : ∀ m ∈ n.walk, Shape.Form config m.shape) : ∃ m, IsNearest (leaf :: around) m := by
  have hbelow : ∀ m ∈ leaf :: around, m.walk ⊆ n.walk := by
    refine forall_of_parents ?_ h.root (List.Subset.refl _) h.parents
    intro q hq c hc
    rw [walk_eq q] at hq
    exact List.Subset.trans (walk_subset_of_mem hc) (List.subset_of_cons_subset hq)
  have hcases : ∀ q ∈ leaf :: around, ∀ c ∈ q.children,
      q.kind.isPunctuation = false ∧ (c.shape.isItem = true ∨ c.kind.isPunctuation = true) := by
    intro q hq c hc
    have hmem := hbelow q hq (by rw [walk_eq]; exact List.mem_cons_self)
    exact child_cases (htiles q hmem) (hform q hmem) hc
  -- an item is neither punctuation nor the root
  have hitem : ∀ c : Node, c.shape.isItem = true →
      c.kind.isPunctuation = false ∧ c.kind ≠ .source := by
    intro c hc
    rw [← kind_shape]
    exact ⟨Shape.isPunctuation_of_isItem hc, Shape.kind_ne_source_of_isItem hc⟩
  have hleaf : leaf.isLeaf = true := by
    have hmem : leaf ∈ n.leaves := List.mem_of_mem_filter (h.only ▸ List.mem_singleton_self leaf)
    exact (List.mem_filter.mp hmem).2
  have hroot := h.root
  have hparents := h.parents
  cases around with
  | nil =>
    rw [List.getLast?_singleton, Option.some.injEq] at hroot
    rw [hroot, hbranch] at hleaf
    cases hleaf
  | cons q rest =>
    obtain ⟨hchild, hrest⟩ := List.isChain_cons_cons.mp hparents
    obtain ⟨hq, hi | hmark⟩ := hcases q (by simp) leaf hchild
    · exact ⟨leaf, ⟨[], q :: rest, rfl, List.cons_ne_nil _ _, by simp⟩, (hitem leaf hi).1,
        (hitem leaf hi).2⟩
    · cases rest with
      | nil =>
        -- the root has no punctuation as a child
        simp only [List.getLast?_cons_cons, List.getLast?_singleton, Option.some.injEq] at hroot
        have hnone := (hitem leaf (hitems leaf (hroot ▸ hchild))).1
        rw [hmark] at hnone
        cases hnone
      | cons r rest =>
        obtain ⟨hparent, -⟩ := List.isChain_cons_cons.mp hrest
        obtain ⟨-, hi | hqmark⟩ := hcases r (by simp) q hparent
        · exact ⟨q, ⟨[leaf], r :: rest, rfl, List.cons_ne_nil _ _, by simpa using hmark⟩, hq,
            (hitem q hi).2⟩
        · rw [hq] at hqmark
          cases hqmark

end Node

namespace Tree

/-- Looking up an offset in the source finds the only leaf there, with the nodes around it. Looking
up one outside of the source stays at the root. -/
structure LooksUp (t : Tree) (a : Arena) : Prop where
  inside : ∀ offset : Int, 0 ≤ offset → offset < t.source.length →
    ∃ leaf around, (t.node a).Finds offset leaf around
  outside : ∀ offset : Int, offset < 0 ∨ t.source.length ≤ offset → t.pathTo a offset = [t.node a]

theorem Covers.looksUp {t : Tree} {a : Arena} {ss : List Shape} (h : t.Covers a ss) :
    t.LooksUp a := by
  obtain ⟨hstart, hstop, -, htiles⟩ := History.tiles_of_covers h
  constructor
  · intro offset hfirst hlast
    refine Node.exists_finds _ htiles (Node.contains_iff.mpr ?_)
    rw [hstart, hstop]
    exact ⟨hfirst, hlast⟩
  · intro offset hout
    have hnone : Node.pathToAny offset (t.node a).children = [] := by
      refine Node.pathToAny_eq_nil fun c hc => ?_
      have hmem : c ∈ (t.node a).walk := by
        rw [Node.walk_eq]
        refine List.mem_cons_of_mem _ (Node.walk_subset_of_mem hc ?_)
        rw [Node.walk_eq]
        exact List.mem_cons_self
      obtain ⟨hfirst, hlast⟩ := Node.within_walk _ htiles c hmem
      rw [Bool.eq_false_iff, ne_eq, Node.contains_iff]
      omega
    rw [pathTo, Node.pathTo_eq, hnone]
    rfl

end Tree

end RacketTree

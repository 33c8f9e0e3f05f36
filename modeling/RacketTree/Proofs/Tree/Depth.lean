import RacketTree.Proofs.Tree.Alone
import RacketTree.Proofs.Tree.Lineage

/-!
# How deep trees are

A node is counted if a mark or an opening delimiter is its first child; these are the constructs
that the reader keeps on its stack, and the depth limit `m` bounds their number around any node. Of
the other nodes only the root and, once in each construct, the error around a part of it can be
around a node. So a node has at most `2 * m + 1` nodes around it, except inside a block comment,
where nesting has no limit (`nesting_parse`).

`Shape.Nests` says this of a tree by recursion, given how many counted nodes and how many nodes in
all are around it. The reader keeps the constructs on its stack so that what it builds of them nests
within the limit: an item that is handed to a stack of `d` constructs has at most `2 * d + 1` nodes
around it, and one that is a child of the innermost of them and not in its tail has one less.
-/

namespace RacketTree

/-- The kinds of marks and opening delimiters. -/
def Kind.opens : Kind → Bool
  | opener | prefixMark | graphLabel | datumCommentMark => true
  | _ => false

/-- The first child of the node is a mark or an opening delimiter. -/
def Node.isCounted (n : Node) : Bool :=
  n.children.head?.any fun c => c.isLeaf && c.kind.opens

namespace Shape

/-- The tree is the leaf of a mark or an opening delimiter. -/
def opens : Shape → Bool
  | leaf kind .. => kind.opens
  | branch .. => false

mutual

/-- The tree fits below `counted` counted nodes and `all` nodes in all: no node has more than `m`
counted nodes and more than `2 * m + 1` nodes around it, where nothing outside a block comment is
around the nodes inside. A leaf where nesting is too deep has exactly `m` counted nodes around it,
and its text is one of those that may be cut off. -/
def Nests (m : Nat) (cut : List Char → Prop) (counted all : Nat) : Shape → Prop
  | leaf _ text fault =>
    counted ≤ m ∧ all ≤ 2 * m + 1 ∧ (fault = some .nestingTooDeep → counted = m ∧ cut text)
  | branch kind children fault =>
    counted ≤ m ∧ all ≤ 2 * m + 1 ∧ fault ≠ some .nestingTooDeep ∧
      AllNest m cut (counted + (children.head?.any opens).toNat)
        (if kind = .blockComment then 0 else all + 1) children

/-- Several trees beside each other fit. -/
def AllNest (m : Nat) (cut : List Char → Prop) (counted all : Nat) : List Shape → Prop
  | [] => True
  | s :: rest => s.Nests m cut counted all ∧ AllNest m cut counted all rest

end

theorem allNest_iff {m c a : Nat} {cut : List Char → Prop} {ss : List Shape} :
    AllNest m cut c a ss ↔ ∀ s ∈ ss, s.Nests m cut c a := by
  induction ss with
  | nil => simp [AllNest]
  | cons s ss ih => rw [AllNest, ih, List.forall_mem_cons]

mutual

/-- With fewer nodes around it a tree fits too. -/
theorem Nests.mono {m c a b : Nat} {cut : List Char → Prop} (hab : a ≤ b) :
    {s : Shape} → s.Nests m cut c b → s.Nests m cut c a
  | leaf .., ⟨hc, hb, hcut⟩ => ⟨hc, Nat.le_trans hab hb, hcut⟩
  | branch .., ⟨hc, hb, hfault, hall⟩ =>
    ⟨hc, Nat.le_trans hab hb, hfault, hall.mono (by split <;> omega)⟩

theorem AllNest.mono {m c a b : Nat} {cut : List Char → Prop} (hab : a ≤ b) :
    {ss : List Shape} → AllNest m cut c b ss → AllNest m cut c a ss
  | [], _ => trivial
  | _ :: _, ⟨hs, hss⟩ => ⟨hs.mono hab, hss.mono hab⟩

end

/-- A branch that is a part of a block comment is a block comment. -/
theorem Form.eq_blockComment {config : Config} {k : Kind} {ss : List Shape} {f : Option Fault}
    (h : Form config (branch k ss f)) (hk : isCommentKind k = true) : k = .blockComment := by
  simp only [isCommentKind, Bool.or_eq_true, beq_iff_eq] at hk
  cases h with
  | blockComment => rfl
  | wrapped hmark =>
    rcases hmark.kind_cases with hw | rfl
    · rcases hk with ((rfl | rfl) | rfl) | rfl <;> cases hw
    · simp at hk
  | @sequence opener =>
    have hseq := Kind.isSequence_ofOpener opener
    rcases hk with ((hk | hk) | hk) | hk <;> rw [hk] at hseq <;> cases hseq
  | _ => simp at hk

theorem opens_of_comment {s : Shape} (hk : isCommentKind s.kind = true) : s.opens = false := by
  cases s with
  | leaf k text f => cases k <;> first | rfl | cases hk
  | branch => rfl

mutual

/-- A block comment fits wherever there is room for it, since nothing in it is counted. -/
theorem nests_comment {config : Config} {m c a : Nat} {cut : List Char → Prop} (hc : c ≤ m)
    (ha : a ≤ 2 * m + 1) :
    {s : Shape} → s.Formed config → isCommentKind s.kind = true → s.Nests m cut c a
  | leaf kind text fault, hs, hk => by
    have hfault : fault = none := hs.form.fault_of_comment hk
    refine ⟨hc, ha, ?_⟩
    rw [hfault]
    nofun
  | branch kind ss fault, hs, hk => by
    obtain ⟨hform, hchildren⟩ := formed_branch.mp hs
    have hfault : fault = none := hform.fault_of_comment hk
    have hkinds := hform.children_of_comment hk
    have hopens : ss.head?.any opens = false := by
      cases ss with
      | nil => rfl
      | cons first rest => exact opens_of_comment (hkinds first List.mem_cons_self)
    refine ⟨hc, ha, by rw [hfault]; nofun, ?_⟩
    rw [hopens, if_pos (hform.eq_blockComment hk)]
    exact allNest_comment hc (Nat.zero_le _) hchildren hkinds

theorem allNest_comment {config : Config} {m c a : Nat} {cut : List Char → Prop} (hc : c ≤ m)
    (ha : a ≤ 2 * m + 1) :
    {ss : List Shape} → (∀ s ∈ ss, s.Formed config) → (∀ s ∈ ss, isCommentKind s.kind = true) →
      AllNest m cut c a ss
  | [], _, _ => trivial
  | s :: ss, hss, hks => by
    obtain ⟨hs, hss⟩ := List.forall_mem_cons.mp hss
    obtain ⟨hk, hks⟩ := List.forall_mem_cons.mp hks
    exact ⟨nests_comment hc ha hs hk, allNest_comment hc ha hss hks⟩

end

end Shape

namespace Draft

variable {m c a b : Nat} {cut : List Char → Prop}

/-- The trees that the draft stands for fit, and none of them is a mark or an opening delimiter. -/
def Nests (m : Nat) (cut : List Char → Prop) (c a : Nat) (d : Draft) : Prop :=
  ∀ s ∈ d.shapes, s.opens = false ∧ s.Nests m cut c a

theorem Nests.mono {d : Draft} (hab : a ≤ b) (h : d.Nests m cut c b) : d.Nests m cut c a :=
  fun s hs => ⟨(h s hs).1, (h s hs).2.mono hab⟩

theorem nests_leaf {k : Kind} {text : List Char} {f : Option Fault} (hk : k.opens = false)
    (hc : c ≤ m) (ha : a ≤ 2 * m + 1) (hf : f = some .nestingTooDeep → c = m ∧ cut text) :
    (leaf k text f).Nests m cut c a := by
  rw [Nests, shapes, List.forall_mem_singleton]
  exact ⟨hk, hc, ha, hf⟩

theorem nests_missing (hc : c ≤ m) (ha : a ≤ 2 * m + 1) : missing.Nests m cut c a :=
  nests_leaf rfl hc ha nofun

theorem any_opens_head? {ds : List Draft} (h : ∀ d ∈ ds, d.Nests m cut c a) :
    (allShapes ds).head?.any Shape.opens = false := by
  cases hs : allShapes ds with
  | nil => rfl
  | cons s ss =>
    have hmem : s ∈ allShapes ds := hs ▸ List.mem_cons_self
    obtain ⟨d, hd, hs⟩ := mem_allShapes.mp hmem
    exact (h d hd s hs).1

/-- The error around drafts that fit. -/
theorem nests_error {ds : List Draft} {f : Option Fault} (hf : f ≠ some .nestingTooDeep)
    (hc : c ≤ m) (ha : a ≤ 2 * m + 1) (h : ∀ d ∈ ds, d.Nests m cut c (a + 1)) :
    (Shape.branch .error (allShapes ds) f).Nests m cut c a := by
  refine ⟨hc, ha, hf, ?_⟩
  rw [any_opens_head? h, Shape.allNest_iff, if_neg nofun]
  intro s hs
  obtain ⟨d, hd, hs⟩ := mem_allShapes.mp hs
  exact (h d hd s hs).2

/-- The draft fits as an item that is handed to a stack of `d` constructs. -/
def NestsAt (m : Nat) (cut : List Char → Prop) (d : Nat) (item : Draft) : Prop :=
  item.Nests m cut d (2 * d + 1)

/-- The drafts, newest first, are a mark or an opening delimiter and what fits behind it. -/
def Opened (m : Nat) (cut : List Char → Prop) (c a : Nat) (ds : List Draft) : Prop :=
  ∃ k text rest, ds = rest ++ [leaf k text none] ∧ k.opens = true ∧
    ∀ d ∈ rest, d.Nests m cut c a

theorem Opened.cons {ds : List Draft} {d : Draft} (h : Opened m cut c a ds)
    (hd : d.Nests m cut c a) : Opened m cut c a (d :: ds) := by
  obtain ⟨k, text, rest, rfl, hk, hrest⟩ := h
  exact ⟨k, text, d :: rest, rfl, hk, List.forall_mem_cons.mpr ⟨hd, hrest⟩⟩

/-- A finished construct is counted, and so it fits where its children fit one level deeper. -/
theorem Opened.nestsAt {d : Nat} {ds more : List Draft} {k : Kind} {f : Option Fault}
    (h : Opened m cut (d + 1) (2 * d + 2) ds) (hlt : d < m)
    (hmore : ∀ x ∈ more, x.Nests m cut (d + 1) (2 * d + 2)) (hf : f ≠ some .nestingTooDeep) :
    (branch k (ds.reverse ++ more) f).NestsAt m cut d := by
  have hinner : (if k = .blockComment then 0 else 2 * d + 1 + 1) ≤ 2 * d + 2 := by
    split <;> omega
  obtain ⟨mark, text, rest, rfl, hmark, hrest⟩ := h
  have hshapes : allShapes ((rest ++ [leaf mark text none]).reverse ++ more) =
      .leaf mark text none :: allShapes (rest.reverse ++ more) := by
    rw [List.reverse_append, List.append_assoc]
    rfl
  rw [NestsAt, Nests, shapes, List.forall_mem_singleton, hshapes]
  refine ⟨rfl, by omega, by omega, hf, Shape.AllNest.mono hinner ?_⟩
  have hopens : (Shape.leaf mark text none).opens = true := hmark
  rw [List.head?_cons, Option.any_some, hopens, Shape.allNest_iff]
  refine List.forall_mem_cons.mpr ⟨⟨hlt, by omega, nofun⟩, ?_⟩
  intro s hs
  obtain ⟨x, hx, hs⟩ := mem_allShapes.mp hs
  rcases List.mem_append.mp hx with hx | hx
  · exact (hrest x (List.mem_reverse.mp hx) s hs).2
  · exact (hmore x hx s hs).2

end Draft

/-! ## Lexemes -/

namespace Lexeme

variable {l : Lexeme} {m c a : Nat} {cut : List Char → Prop}

theorem opens_iff (l : Lexeme) : l.kind.opens = true ↔ (Frame.ofLexeme? l).isSome = true := by
  unfold Frame.ofLexeme?
  cases l.kind <;> simp [Kind.opens]

theorem nests_leaf (hs : l.Spelled) (hk : l.kind.opens = false) (hc : c ≤ m)
    (ha : a ≤ 2 * m + 1) : l.leaf.Nests m cut c a := by
  refine Draft.nests_leaf ?_ hc ha ?_
  · split
    · rfl
    · exact hk
  · intro hf
    rcases hs.fault _ hf with ⟨-, hf⟩ | ⟨-, hf | hf⟩ <;> cases hf

theorem nests_draft (hl : l.Valid) (hs : l.Spelled) (hk : l.kind.opens = false) (hc : c ≤ m)
    (ha : a ≤ 2 * m + 1) : l.draft.Nests m cut c a := by
  by_cases hcomment : l.kind = .blockComment
  · obtain ⟨hstops, hframe, -⟩ := Grammar.lone_of_blank (.inr (.inr hcomment))
    have hfits := draft_fits .default hl hs hstops hframe
    have hkind : Shape.isCommentKind l.draft.shape.kind = true := by
      apply kind_of_mem_draft hl hs hcomment
      cases l.draft.shape <;> exact List.mem_cons_self
    rw [Draft.Nests, Draft.shapes_eq hfits.single, List.forall_mem_singleton]
    exact ⟨Shape.opens_of_comment hkind, Shape.nests_comment hc ha hfits.formed hkind⟩
  · rw [draft_eq_leaf hcomment]
    exact nests_leaf hs hk hc ha

end Lexeme

/-! ## Open constructs -/

section

variable {m d outer : Nat} {cut : List Char → Prop}

/-- What the construct holds fits, where `d` constructs are around it. Children stand directly in
it; the pieces of a tail may come to stand in an error. -/
def Frame.Nests (m : Nat) (cut : List Char → Prop) (d : Nat) : Frame → Prop
  | wrapper w => Draft.Opened m cut (d + 1) (2 * d + 2) w.children
  | sequence s =>
    Draft.Opened m cut (d + 1) (2 * d + 2) s.children ∧
      ∀ t, s.tail = some t → ∀ x ∈ t.pieces, x.NestsAt m cut (d + 1)

/-- The constructs on the stack fit, above `outer` others. -/
def Frame.StackNests (m : Nat) (cut : List Char → Prop) (outer : Nat) : List Frame → Prop
  | [] => True
  | f :: rest =>
    outer + rest.length < m ∧ f.Nests m cut (outer + rest.length) ∧ StackNests m cut outer rest

namespace Wrapper

variable {w : Wrapper} {item : Draft}

theorem nests_add (h : (Frame.wrapper w).Nests m cut d) (hitem : item.NestsAt m cut (d + 1)) :
    (Frame.wrapper (w.add item)).Nests m cut d :=
  h.cons (hitem.mono (by omega))

theorem nestsAt_complete (h : (Frame.wrapper w).Nests m cut d) (hlt : d < m)
    (hitem : item.NestsAt m cut (d + 1)) : (w.complete item).NestsAt m cut d := by
  rw [complete, List.reverse_cons]
  refine h.nestsAt hlt ?_ (by simp)
  rw [List.forall_mem_singleton]
  exact hitem.mono (by omega)

theorem nestsAt_fail (h : (Frame.wrapper w).Nests m cut d) (hlt : d < m) :
    w.fail.NestsAt m cut d := by
  rw [fail, List.reverse_cons]
  refine h.nestsAt hlt ?_ (by simp)
  rw [List.forall_mem_singleton]
  exact Draft.nests_missing hlt (by omega)

end Wrapper

/-- The tail as children of its list. A malformed one is an error and puts its pieces one level
deeper. -/
theorem Tail.nests_finish {t : Tail} (hlt : d < m) (h : ∀ x ∈ t.pieces, x.NestsAt m cut (d + 1)) :
    ∀ x ∈ t.finish, x.Nests m cut (d + 1) (2 * d + 2) := by
  unfold finish
  split
  · intro x hx
    exact (h x (List.mem_reverse.mp hx)).mono (by omega)
  · rw [List.forall_mem_singleton, Draft.Nests, Draft.shapes, List.forall_mem_cons]
    refine ⟨⟨rfl, Draft.nests_error (by simp) hlt (by omega) ?_⟩, ?_⟩
    · intro x hx
      exact h x ((List.dropWhile_sublist _).subset (List.mem_reverse.mp hx))
    · intro s hs
      obtain ⟨x, hx, hs⟩ := Draft.mem_allShapes.mp hs
      have hpiece := h x ((List.takeWhile_sublist _).subset (List.mem_reverse.mp hx))
      exact hpiece.mono (by omega) s hs

namespace Sequence

variable {s : Sequence} {item : Draft} {role : Role} {config : Config} {l : Lexeme}

theorem nests_add (h : (Frame.sequence s).Nests m cut d) (hitem : item.NestsAt m cut (d + 1)) :
    (Frame.sequence (s.add item role)).Nests m cut d := by
  obtain ⟨opener, children, seen, tail⟩ := s
  obtain ⟨hchildren, htail⟩ := h
  cases tail with
  | none => exact ⟨hchildren.cons (hitem.mono (by omega)), nofun⟩
  | some t =>
    refine ⟨hchildren, ?_⟩
    intro t' ht'
    cases ht'
    rw [Tail.pieces_add]
    exact List.forall_mem_cons.mpr ⟨hitem, htail t rfl⟩

theorem nests_addDot (h : (Frame.sequence s).Nests m cut d) (hlt : d < m) (hs : l.Spelled)
    (hk : l.kind = .dot) : (Frame.sequence (s.addDot config l)).Nests m cut d := by
  have hopens : l.kind.opens = false := by rw [hk]; rfl
  have hleaf : l.leaf.NestsAt m cut (d + 1) := Lexeme.nests_leaf hs hopens hlt (by omega)
  obtain ⟨opener, children, seen, tail⟩ := s
  obtain ⟨hchildren, htail⟩ := h
  cases tail with
  | some t =>
    refine ⟨hchildren, ?_⟩
    intro t' ht'
    cases ht'
    exact List.forall_mem_cons.mpr ⟨hleaf, htail t rfl⟩
  | none =>
    simp only [addDot]
    split
    · refine ⟨hchildren, ?_⟩
      intro t' ht'
      cases ht'
      exact List.forall_mem_singleton.mpr hleaf
    · refine ⟨hchildren.cons ?_, by simp⟩
      rw [Draft.Nests, Draft.shapes, List.forall_mem_singleton]
      exact ⟨rfl, Draft.nests_error (by simp) hlt (by omega) (List.forall_mem_singleton.mpr hleaf)⟩

theorem nests_tail (h : (Frame.sequence s).Nests m cut d) (hlt : d < m) :
    ∀ x ∈ (s.tail.map Tail.finish).getD [], x.Nests m cut (d + 1) (2 * d + 2) := by
  cases ht : s.tail with
  | none => nofun
  | some t => exact Tail.nests_finish hlt (h.2 t ht)

theorem nestsAt_close (h : (Frame.sequence s).Nests m cut d) (hlt : d < m) (hs : l.Spelled)
    (hk : l.kind = .closer) : (s.close config l).NestsAt m cut d := by
  have hopens : l.kind.opens = false := by rw [hk]; rfl
  have hclosing : (s.closing config l).Nests m cut (d + 1) (2 * d + 2) := by
    unfold closing
    split
    · have hleaf : l.leaf.Nests m cut (d + 1) (2 * d + 3) :=
        Lexeme.nests_leaf hs hopens hlt (by omega)
      rw [Draft.Nests, Draft.shapes, List.forall_mem_singleton]
      exact ⟨rfl, Draft.nests_error (by simp) hlt (by omega) (List.forall_mem_singleton.mpr hleaf)⟩
    · exact Lexeme.nests_leaf hs hopens hlt (by omega)
  rw [close, body, List.append_assoc]
  refine h.1.nestsAt hlt (List.forall_mem_append.mpr ⟨nests_tail h hlt, ?_⟩) (by simp)
  exact List.forall_mem_singleton.mpr hclosing

theorem nestsAt_unclosed (h : (Frame.sequence s).Nests m cut d) (hlt : d < m) :
    s.unclosed.NestsAt m cut d := by
  rw [unclosed, body, List.append_assoc]
  refine h.1.nestsAt hlt (List.forall_mem_append.mpr ⟨nests_tail h hlt, ?_⟩) (by simp)
  exact List.forall_mem_singleton.mpr (Draft.nests_missing hlt (by omega))

end Sequence

theorem Frame.nests_ofLexeme? {l : Lexeme} {frame : Frame} (hs : l.Spelled)
    (h : ofLexeme? l = some frame) : frame.Nests m cut d := by
  have hopens : l.kind.opens = true := by
    rw [Lexeme.opens_iff, h]
    rfl
  have hleaf : l.leaf = .leaf l.kind l.text none := by
    refine Lexeme.leaf_eq hs ?_ ?_ <;>
    · intro hk
      rw [hk] at hopens
      cases hopens
  have hmark : Draft.Opened m cut (d + 1) (2 * d + 2) [l.leaf] :=
    ⟨l.kind, l.text, [], by rw [hleaf]; rfl, hopens, nofun⟩
  unfold ofLexeme? at h
  split at h <;> cases h
  · exact ⟨hmark, nofun⟩
  · exact hmark
  · exact hmark
  · exact hmark

/-! ## The reader -/

namespace Read

open RacketTree.Frame (StackNests)

variable {config : Config} {item x : Draft} {role : Role} {top : Frame}
  {rest stack : List Frame} {l : Lexeme} {ls : List Lexeme}

/-- The finished item or the constructs on the stack fit. -/
def Delivered.Nests (m : Nat) (cut : List Char → Prop) (outer : Nat) : Delivered → Prop
  | .item d => d.NestsAt m cut outer
  | .inside top rest => StackNests m cut outer (top :: rest)

/-- The finished item or the constructs on the stack fit. -/
def Settled.Nests (m : Nat) (cut : List Char → Prop) (outer : Nat) : Settled → Prop
  | .item d => d.NestsAt m cut outer
  | .sequence s rest => StackNests m cut outer (.sequence s :: rest)

theorem nests_deliver (h : StackNests m cut outer stack)
    (hitem : item.NestsAt m cut (outer + stack.length)) :
    (deliver item role stack).Nests m cut outer := by
  fun_induction deliver item role stack with
  | case1 item role => exact hitem
  | case2 item role s rest =>
    obtain ⟨hlt, hs, hrest⟩ := h
    exact ⟨hlt, Sequence.nests_add hs hitem, hrest⟩
  | case3 item w rest =>
    obtain ⟨hlt, hw, hrest⟩ := h
    exact ⟨hlt, Wrapper.nests_add hw hitem, hrest⟩
  | case4 item w rest ih =>
    obtain ⟨hlt, hw, hrest⟩ := h
    exact ih hrest (Wrapper.nestsAt_complete hw hlt hitem)

theorem nests_settleWith (h : StackNests m cut outer stack)
    (hitem : item.NestsAt m cut (outer + stack.length)) :
    (settleWith item role stack).Nests m cut outer := by
  fun_induction settleWith item role stack with
  | case1 item role => exact hitem
  | case2 item role s rest =>
    obtain ⟨hlt, hs, hrest⟩ := h
    exact ⟨hlt, Sequence.nests_add hs hitem, hrest⟩
  | case3 item w rest ih =>
    obtain ⟨hlt, hw, hrest⟩ := h
    exact ih hrest (Wrapper.nestsAt_fail (Wrapper.nests_add hw hitem) hlt)
  | case4 item w rest ih =>
    obtain ⟨hlt, hw, hrest⟩ := h
    exact ih hrest (Wrapper.nestsAt_complete hw hlt hitem)

theorem nests_settle (h : StackNests m cut outer (top :: rest)) :
    (settle top rest).Nests m cut outer := by
  cases top with
  | sequence s => exact h
  | wrapper w =>
    obtain ⟨hlt, hw, hrest⟩ := h
    exact nests_settleWith hrest (Wrapper.nestsAt_fail hw hlt)

theorem nestsAt_finishWith (h : StackNests m cut outer stack)
    (hitem : item.NestsAt m cut (outer + stack.length)) :
    (finishWith item role stack).NestsAt m cut outer := by
  fun_induction finishWith item role stack with
  | case1 item role => exact hitem
  | case2 item role s rest ih =>
    obtain ⟨hlt, hs, hrest⟩ := h
    exact ih hrest (Sequence.nestsAt_unclosed (Sequence.nests_add hs hitem) hlt)
  | case3 item w rest ih =>
    obtain ⟨hlt, hw, hrest⟩ := h
    exact ih hrest (Wrapper.nestsAt_fail (Wrapper.nests_add hw hitem) hlt)
  | case4 item w rest ih =>
    obtain ⟨hlt, hw, hrest⟩ := h
    exact ih hrest (Wrapper.nestsAt_complete hw hlt hitem)

theorem nestsAt_finish (h : StackNests m cut outer (top :: rest)) :
    (finish top rest).NestsAt m cut outer := by
  obtain ⟨hlt, htop, hrest⟩ := h
  cases top with
  | sequence s => exact nestsAt_finishWith hrest (Sequence.nestsAt_unclosed htop hlt)
  | wrapper w => exact nestsAt_finishWith hrest (Wrapper.nestsAt_fail htop hlt)

/-- At the limit the lexemes that are left become a leaf with `m` constructs around it. -/
theorem nestsAt_overflow (h : StackNests m cut outer (top :: rest))
    (hdeep : m ≤ outer + rest.length + 1) (hcut : cut (Lexeme.texts (l :: ls))) :
    (overflow top rest l ls).NestsAt m cut outer := by
  have hlt := h.1
  have hm : outer + (top :: rest).length = m := by
    rw [List.length_cons]
    omega
  rw [overflow_eq]
  refine nestsAt_finishWith h ?_
  rw [hm]
  exact Draft.nests_leaf rfl (Nat.le_refl m) (Nat.le_refl _) fun _ => ⟨rfl, hcut⟩

theorem nests_outcome {r : Delivered} (h : StackNests config.maxDepth cut outer (top :: rest))
    (hl : l.Valid) (hs : l.Spelled) (hout : outcome config outer top rest l = .taken r) :
    r.Nests config.maxDepth cut outer := by
  have hsettle := nests_settle h
  rcases outcome_cases config outer top rest l with
    ⟨_, -, -, hout'⟩ | ⟨s, below, hk, hset, hout'⟩ | ⟨s, below, hk, hset, hout'⟩ |
      ⟨_, -, -, -, hout'⟩ | ⟨frame, -, hf, hdepth, hout'⟩ | ⟨-, hf, hout'⟩ <;>
    rw [hout'] at hout <;> cases hout
  · rw [hset] at hsettle
    obtain ⟨hlt, hseq, hbelow⟩ := hsettle
    exact nests_deliver hbelow (Sequence.nestsAt_close hseq hlt hs hk)
  · rw [hset] at hsettle
    obtain ⟨hlt, hseq, hbelow⟩ := hsettle
    exact ⟨hlt, Sequence.nests_addDot hseq hlt hs hk, hbelow⟩
  · exact ⟨by rw [List.length_cons]; omega, Frame.nests_ofLexeme? hs hf, h⟩
  · have hopens : l.kind.opens = false := by
      rw [← Bool.not_eq_true, Lexeme.opens_iff, hf]
      nofun
    have hle : outer + (top :: rest).length ≤ config.maxDepth := h.1
    exact nests_deliver h (Lexeme.nests_draft hl hs hopens hle (by omega))

/-- The item of a run fits. The lexemes from one that opens a construct on may be cut off. -/
theorem Run.nestsAt {used : List Lexeme} {e : Ending} (run : Run config outer top rest used e x)
    (h : StackNests config.maxDepth cut outer (top :: rest))
    (hv : ∀ l ∈ used, l.Valid ∧ l.Spelled)
    (hcut : ∀ l ls, l :: ls <:+ used → l.kind.opens = true → cut (Lexeme.texts (l :: ls))) :
    x.NestsAt config.maxDepth cut outer := by
  induction run with
  | complete hout =>
    obtain ⟨hl, hs⟩ := hv _ List.mem_cons_self
    exact nests_outcome h hl hs hout
  | dangling hset =>
    have hsettle := nests_settle h
    rw [hset] at hsettle
    exact hsettle
  | cut top rest => exact nestsAt_finish h
  | @overflow _ _ l ls hout =>
    obtain ⟨-, hf, hdeep⟩ := outcome_eq_overflow.mp hout
    exact nestsAt_overflow h hdeep (hcut l ls List.suffix_rfl ((Lexeme.opens_iff l).mpr hf))
  | step hout run ih =>
    obtain ⟨hl, hs⟩ := hv _ List.mem_cons_self
    refine ih (nests_outcome h hl hs hout) (fun l hl => hv l (List.mem_cons_of_mem _ hl)) ?_
    intro l ls hsuffix
    exact hcut l ls (hsuffix.trans (List.suffix_cons _ _))

/-- An item of a text fits below the root. -/
theorem Item.nestsAt {used : List Lexeme} {e : Ending} (item : Item config 0 used e x)
    (hv : ∀ l ∈ used, l.Valid ∧ l.Spelled)
    (hcut : ∀ l ls, l :: ls <:+ used → l.kind.opens = true → cut (Lexeme.texts (l :: ls))) :
    x.NestsAt config.maxDepth cut 0 := by
  have hpos := config.maxDepth_pos
  cases item with
  | @lone l hf =>
    obtain ⟨hl, hs⟩ := hv _ List.mem_cons_self
    have hopens : l.kind.opens = false := by
      rw [← Bool.not_eq_true, Lexeme.opens_iff, hf]
      simp
    unfold Read.lone
    split
    · have hleaf : l.leaf.Nests config.maxDepth cut 0 2 :=
        Lexeme.nests_leaf hs hopens (Nat.zero_le _) (by omega)
      rw [stray, Draft.NestsAt, Draft.Nests, Draft.shapes, List.forall_mem_singleton]
      refine ⟨rfl, Draft.nests_error ?_ (Nat.zero_le _) (by omega)
        (List.forall_mem_singleton.mpr hleaf)⟩
      split <;> simp
    · exact Lexeme.nests_draft hl hs hopens (Nat.zero_le _) (by omega)
  | deep ls hf hdeep => exact absurd hpos (Nat.not_lt.mpr hdeep)
  | @framed l frame used _ _ hf hdepth run =>
    obtain ⟨hl, hs⟩ := hv _ List.mem_cons_self
    refine run.nestsAt ⟨hpos, Frame.nests_ofLexeme? hs hf, trivial⟩
      (fun l hl => hv l (List.mem_cons_of_mem _ hl)) ?_
    intro l ls hsuffix
    exact hcut l ls (hsuffix.trans (List.suffix_cons _ _))

/-- The texts that may be cut off where nesting is too deep: those of lexemes of the source, from
one that opens a construct on. -/
def Cuts (source text : List Char) : Prop :=
  ∃ l ls, text = Lexeme.texts (l :: ls) ∧ l.kind.opens = true ∧ l :: ls <:+: Token.lexemes source

/-- The tree of a text fits below the limit. -/
theorem nests_source (config : Config) (source : List Char) :
    (Shape.branch .source (shapes config source) none).Nests config.maxDepth (Cuts source) 0 0 := by
  have hitems : ∀ x ∈ readItems config 0 (Token.lexemes source),
      x.NestsAt config.maxDepth (Cuts source) 0 := by
    intro x hx
    obtain ⟨before, after, hsplit⟩ := List.append_of_mem hx
    obtain ⟨front, used, rest, e', e, hls, -, -, item, -⟩ := exists_item_at hsplit
    have hpart : used <:+: Token.lexemes source := ⟨front, rest, hls.symm⟩
    refine item.nestsAt ?_ ?_
    · intro l hl
      have hmem := hpart.mem hl
      exact ⟨Token.lexemes_valid source l hmem, Token.lexemes_spelled source l hmem⟩
    · intro l ls hsuffix hopens
      exact ⟨l, ls, rfl, hopens, hsuffix.isInfix.trans hpart⟩
  have hshapes : shapes config source =
      Draft.allShapes (readItems config 0 (Token.lexemes source)) :=
    (Draft.allShapes_eq (isSingle_readItems source)).symm
  refine ⟨Nat.zero_le _, Nat.zero_le _, nofun, ?_⟩
  rw [hshapes, Draft.any_opens_head? hitems, Shape.allNest_iff, if_neg nofun]
  intro s hs
  obtain ⟨x, hx, hs⟩ := Draft.mem_allShapes.mp hs
  exact (hitems x hx s hs).2

end Read

end

/-! ## Nodes -/

namespace Node

/-- What the limit says of a node and the nodes around it, where `counted` counted nodes and `all`
nodes in all are further out. -/
structure Within (m : Nat) (cut : List Char → Prop) (counted all : Nat) (p : List Node × Node) :
    Prop where
  counted_le : counted + p.1.countP isCounted ≤ m
  length_le : (∀ n ∈ p.1, n.kind ≠ .blockComment) → all + p.1.length ≤ 2 * m + 1
  deep : p.2.fault = some .nestingTooDeep →
    p.2.isLeaf = true ∧ counted + p.1.countP isCounted = m ∧ cut (p.2.text?.getD [])

variable {m counted all : Nat} {cut : List Char → Prop} {n : Node} {p : List Node × Node}

theorem Within.cons
    (h : Within m cut (counted + n.isCounted.toNat) (if n.kind = .blockComment then 0 else all + 1)
      p) : Within m cut counted all (n :: p.1, p.2) := by
  have hcount : counted + (n :: p.1).countP isCounted =
      counted + n.isCounted.toNat + p.1.countP isCounted := by
    rw [List.countP_cons, Nat.add_assoc, Nat.add_comm n.isCounted.toNat]
    cases n.isCounted <;> rfl
  refine ⟨hcount ▸ h.counted_le, ?_, ?_⟩
  · intro hkinds
    obtain ⟨hn, hkinds⟩ := List.forall_mem_cons.mp hkinds
    have hle := h.length_le hkinds
    rw [if_neg hn] at hle
    rw [List.length_cons]
    omega
  · intro hfault
    rw [hcount]
    exact h.deep hfault

theorem isCounted_eq (n : Node) : n.isCounted = (n.children.map shape).head?.any Shape.opens := by
  rw [isCounted, List.head?_map]
  cases n.children.head? with
  | none => rfl
  | some c =>
    rw [Option.map_some, Option.any_some, Option.any_some]
    cases ht : c.text? with
    | some text => rw [shape_of_leaf ht, isLeaf, ht]; rfl
    | none => rw [shape_of_branch ht, isLeaf, ht]; rfl

end Node

namespace Arena

open Node

mutual

/-- The nodes of a stored tree that fits are within the limit. -/
theorem within_view {a : Arena} {h : Handle} {start m counted all : Nat} {cut : List Char → Prop} :
    {s : Shape} → a.Holds h s → s.Nests m cut counted all →
      ∀ p ∈ (a.view h start).lineages, Within m cut counted all p
  | .leaf kind text fault, hold, ⟨hc, ha, hcut⟩ => by
    obtain ⟨-, ht, hf, hcs⟩ := view_leaf hold start
    rw [lineages_eq, hcs, lineagesAll, List.map_nil, List.forall_mem_singleton]
    refine ⟨hc, fun _ => ha, fun hfault => ?_⟩
    rw [hf] at hfault
    obtain ⟨hm, hcut⟩ := hcut hfault
    refine ⟨by rw [isLeaf, ht]; rfl, hm, ?_⟩
    rw [ht]
    exact hcut
  | .branch kind ss fault, hold, ⟨hc, ha, hfault, hall⟩ => by
    obtain ⟨hs, hholds, hk, ht, hf, hcs⟩ := view_branch hold start
    have hcounted : (a.view h start).isCounted = ss.head?.any Shape.opens := by
      rw [isCounted_eq, hcs, map_shape_viewAll start hholds]
    rw [lineages_eq, List.forall_mem_cons, List.forall_mem_map]
    constructor
    · refine ⟨hc, fun _ => ha, fun hdeep => ?_⟩
      rw [hf] at hdeep
      exact absurd hdeep hfault
    · intro p hp
      rw [hcs] at hp
      rw [← hcounted, ← hk] at hall
      exact Within.cons (within_viewAll hholds hall p hp)

theorem within_viewAll {a : Arena} {n : Nat} {hs : List Handle} {start m counted all : Nat}
    {cut : List Char → Prop} :
    {ss : List Shape} → a.HoldsAll n hs ss → Shape.AllNest m cut counted all ss →
      ∀ p ∈ lineagesAll (a.viewAll start hs), Within m cut counted all p
  | [], hall, _ => by
    cases hall
    nofun
  | s :: ss, ⟨h, rest, hhs, _, hold, hrest⟩, ⟨hs, hss⟩ => by
    rw [hhs, viewAll, lineagesAll]
    exact List.forall_mem_append.mpr ⟨within_view hold hs, within_viewAll hrest hss⟩

end

end Arena

/-! ## The leaf where nesting is too deep -/

/-- Nesting is too deep at the tree. -/
def Shape.isDeep (s : Shape) : Bool :=
  s.fault == some .nestingTooDeep

/-- Nesting is too deep at the lexeme. -/
def Lexeme.isDeep (l : Lexeme) : Bool :=
  l.fault == some .nestingTooDeep

namespace Shape

variable {config : Config}

/-- Nesting is never too deep at a branch. -/
theorem Form.isDeep_branch {k : Kind} {ss : List Shape} {f : Option Fault}
    (h : Form config (branch k ss f)) : (branch k ss f).isDeep = false := by
  cases h <;> rfl

mutual

/-- Nesting is too deep at as many nodes of a tree as at its lexemes. -/
theorem countP_isDeep_walk :
    {s : Shape} → s.Formed config → s.walk.countP isDeep = s.lexemes.countP Lexeme.isDeep
  | leaf kind text fault, hs => by
    rw [walk, lexemes]
    by_cases hmissing : kind = .missing
    · cases hs.form.eq_missing hmissing
      rfl
    · rw [if_neg hmissing]
      rfl
  | branch kind ss fault, hs => by
    obtain ⟨hform, hchildren⟩ := formed_branch.mp hs
    rw [lexemes]
    by_cases hcomment : kind = .blockComment
    · have hkind : isCommentKind kind = true := by rw [hcomment]; rfl
      have hfault : fault = none := hform.fault_of_comment hkind
      have hnone : (branch kind ss fault).walk.countP isDeep = 0 := by
        refine List.countP_eq_zero.mpr fun t ht => ?_
        rw [isDeep, fault_of_mem_comment hs hkind ht]
        nofun
      rw [hnone, if_pos hcomment, hfault]
      rfl
    · rw [walk, if_neg hcomment, List.countP_cons, hform.isDeep_branch,
        countP_isDeep_walkAll hchildren]
      rfl

theorem countP_isDeep_walkAll :
    {ss : List Shape} → (∀ s ∈ ss, s.Formed config) →
      (walkAll ss).countP isDeep = (allLexemes ss).countP Lexeme.isDeep
  | [], _ => rfl
  | s :: ss, hss => by
    obtain ⟨hs, hss⟩ := List.forall_mem_cons.mp hss
    rw [walkAll, allLexemes, List.countP_append, List.countP_append, countP_isDeep_walk hs,
      countP_isDeep_walkAll hss]

end

end Shape

/-- Nesting is too deep at most once among the leaves that lexemes become. -/
theorem Read.Becomes.countP_isDeep {e : Ending} {ls out : List Lexeme} (h : Becomes e ls out)
    (hs : ∀ l ∈ ls, l.Spelled) : out.countP Lexeme.isDeep ≤ 1 := by
  have hnone : ∀ xs : List Lexeme, (∀ l ∈ xs, l.Spelled) →
      (xs.map Lexeme.marked).countP Lexeme.isDeep = 0 := by
    intro xs hxs
    rw [List.countP_map]
    refine List.countP_eq_zero.mpr fun l hl hdeep => ?_
    have hfault : l.fault = some .nestingTooDeep := beq_iff_eq.mp hdeep
    rcases (hxs l hl).fault _ hfault with ⟨-, hf⟩ | ⟨-, hf | hf⟩ <;> cases hf
  cases h with
  | all =>
    rw [hnone ls hs]
    exact Nat.zero_le 1
  | buried before _ hls =>
    rw [List.countP_append, hnone before fun l hl => hs l (hls ▸ List.mem_append_left _ hl),
      Nat.zero_add]
    exact List.countP_le_length

/-- Where nesting is too deep, the rest of the source has been cut off. -/
theorem stop_of_isDeep {config : Config} {source : List Char} {n : Node}
    (hn : n ∈ ((parse config source).2.node (parse config source).1).walk)
    (hleaf : n.isLeaf = true) (hfault : n.fault = some .nestingTooDeep) :
    n.stop = source.length := by
  have hentry : n.entry source ∈
      ((parse config source).2.node (parse config source).1).entries source :=
    (Arena.mem_entries_view (by rw [Node.entry, hfault]; simp) (covers_parse config source).holds
      (Read.formed_source config source)).mpr ⟨n, hn, hleaf, rfl⟩
  have hclean : ∀ t ∈ Token.tokenize source, Token.entry t ≠ n.entry source := by
    intro t ht heq
    exact Token.fault_ne_nestingTooDeep ht ((congrArg LeafEntry.fault heq).trans hfault)
  rcases entries_parse_cases config source with hall | ⟨before, first, rest, htokens, hcut⟩
  · rw [hall] at hentry
    obtain ⟨t, ht, heq⟩ := List.mem_map.mp hentry
    exact absurd heq (hclean t ht)
  · rw [hcut] at hentry
    rcases List.mem_append.mp hentry with hentry | hentry
    · obtain ⟨t, ht, heq⟩ := List.mem_map.mp hentry
      exact absurd heq (hclean t (htokens ▸ List.mem_append_left _ ht))
    · exact congrArg LeafEntry.stop (List.mem_singleton.mp hentry)

/-- What has been cut off is cut into tokens again, from a mark or an opening delimiter on. -/
theorem Read.Cuts.tokenize {source text : List Char} (h : Cuts source text) :
    ∃ first rest, Token.tokenize text = first :: rest ∧ first.kind.opens = true := by
  obtain ⟨l, ls, rfl, hopens, hpart⟩ := h
  refine ⟨⟨l, 0⟩, Token.place (0 + l.text.length) ls, ?_, hopens⟩
  rw [Token.tokenize, Token.tokensFrom, List.drop_zero, Token.stable_lexemes source _ hpart,
    Token.place]

/-- Nesting in the tree of a text is bounded by the limit `m`. No node has more than `m` counted
nodes around it, and none outside block comments more than `2 * m + 1` nodes in all. Nesting is too
deep at one node at most. That is a leaf with exactly `m` counted nodes around it, which goes to the
end of the text, and the first token in it is a mark or an opening delimiter. -/
theorem nesting_parse (config : Config) (source : List Char) :
    let root := (parse config source).2.node (parse config source).1
    let m := config.maxDepth
    root.lineages.map Prod.snd = root.walk ∧
    (∀ p ∈ root.lineages, p.1.countP Node.isCounted ≤ m ∧
      ((∀ n ∈ p.1, n.kind ≠ .blockComment) → p.1.length ≤ 2 * m + 1)) ∧
    root.walk.countP (fun n => n.fault = some .nestingTooDeep) ≤ 1 ∧
    ∀ p ∈ root.lineages, p.2.fault = some .nestingTooDeep →
      p.2.isLeaf = true ∧ p.1.countP Node.isCounted = m ∧ p.2.stop = source.length ∧
        ∃ first rest, Token.tokenize (p.2.text source) = first :: rest ∧
          first.kind.opens = true := by
  intro root m
  have hold := (covers_parse config source).holds
  have hwithin : ∀ p ∈ root.lineages, Node.Within m (Read.Cuts source) 0 0 p :=
    Arena.within_view hold (Read.nests_source config source)
  refine ⟨Node.map_snd_lineages root, fun p hp => ?_, ?_, fun p hp hfault => ?_⟩
  · have hp := hwithin p hp
    refine ⟨?_, fun hkinds => ?_⟩
    · simpa using hp.counted_le
    · simpa using hp.length_le hkinds
  · have hformed := Read.formed_source config source
    have hshapes : root.walk.map Node.shape =
        (Shape.branch .source (Read.shapes config source) none).walk :=
      Arena.map_shape_walk_view 0 hold
    have hcount : root.walk.countP (fun n => n.fault = some .nestingTooDeep) =
        (root.walk.map Node.shape).countP Shape.isDeep := by
      rw [List.countP_map]
      refine List.countP_congr fun n _ => ?_
      simp [Shape.isDeep, Node.fault_shape]
    obtain ⟨e, hbecomes⟩ := Read.becomes_readItems config source
    rw [hcount, hshapes, Shape.countP_isDeep_walk hformed]
    exact hbecomes.countP_isDeep (Token.lexemes_spelled source)
  · obtain ⟨hleaf, hm, hcut⟩ := (hwithin p hp).deep hfault
    have hwalk : p.2 ∈ root.walk := by
      rw [← Node.map_snd_lineages]
      exact List.mem_map_of_mem hp
    refine ⟨hleaf, by simpa using hm, stop_of_isDeep hwalk hleaf hfault, ?_⟩
    obtain ⟨text, htext⟩ := Option.isSome_iff_exists.mp hleaf
    rw [htext, Option.getD_some] at hcut
    rw [Node.text, htext, Option.getD_some]
    exact hcut.tokenize

end RacketTree

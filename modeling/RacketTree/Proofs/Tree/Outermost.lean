import RacketTree.Proofs.Tree.Conforms
import RacketTree.Tree.Diagnostic

/-!
# Outermost errors

`Node.outermost` are the error nodes that no error node is around. `Node.errors` looks for them only
where the arena has noted a fault, and also gives the nodes of missing datums. In a tree of the
schema the two are the same (`errors_view`): a fault is noted wherever an error is, and every
missing datum stands in an error.

The outermost errors lie one behind the other (`ordered_outermost`), and what is shown of one is a
part of it that starts where it starts and is not empty (`exists_diagnosticSpan`).
-/

namespace RacketTree

namespace Shape

variable {config : Config} {k : Kind} {ss : List Shape} {f : Option Fault}

/-! ## Missing datums and first leaves -/

theorem kind_ne_missing_of_isItem {s : Shape} (h : s.isItem = true) : s.kind ≠ .missing := by
  intro hk
  simp [isItem, hk, Kind.isTrivia, Kind.isAtom, Kind.isCompound, Kind.isSequence,
    Kind.isWrapper] at h

/-- Only a missing datum has no text. -/
theorem Form.text_ne_nil {text : List Char} (h : Form config (leaf k text f)) (hk : k ≠ .missing) :
    text ≠ [] := by
  cases h with
  | token _ _ htext => exact htext
  | faulty _ htext => exact htext
  | missing => exact absurd rfl hk
  | commentOpener => exact List.cons_ne_nil _ _
  | commentCloser => exact List.cons_ne_nil _ _
  | commentText htext => exact htext

/-- A missing datum stands in an error. -/
theorem Form.kind_ne_missing (h : Form config (branch k ss f)) (hk : k ≠ .error) :
    ∀ s ∈ ss, s.kind ≠ .missing := by
  intro s hs
  cases h with
  | source hitems => exact kind_ne_missing_of_isItem (hitems s hs)
  | blockComment hinner =>
    simp only [List.mem_cons, List.mem_append, List.not_mem_nil, or_false] at hs
    rcases hs with rfl | hs | rfl
    · simp [kind]
    · rcases hinner s hs with hcomment | ⟨text, -, rfl⟩
      · simp [hcomment]
      · simp [kind]
    · simp [kind]
  | wrapped hmark hgap hdatum =>
    simp only [List.mem_cons, List.mem_append, List.not_mem_nil, or_false] at hs
    rcases hs with rfl | hs | rfl
    · cases hmark <;> simp [kind]
    · exact kind_ne_missing_of_isItem (isItem_of_isGap (isGap_of_isFiller
        (isFiller_of_isTrivia (hgap s hs))))
    · exact kind_ne_missing_of_isItem (isItem_of_isDatum hdatum)
  | sequence hbody hclosing =>
    simp only [List.mem_cons, List.mem_append, List.not_mem_nil, or_false, dotted,
      List.mem_flatMap] at hs
    rcases hs with rfl | (hs | ⟨segment, hsegment, rfl | hs⟩) | rfl
    · simp [kind]
    · exact kind_ne_missing_of_isItem (hbody.front_items s hs)
    · simp [dot, kind]
    · exact kind_ne_missing_of_isItem (hbody.items segment hsegment s hs)
    · rcases hclosing with ⟨c, -, rfl⟩ | ⟨-, c, -, rfl⟩
      · simp [kind]
      · simp [kind]
  | stray | unwrapped | mismatch | illegalDot | unclosed => exact absurd rfl hk

mutual

theorem fault_eq_none : {s : Shape} → s.hasFault = false → ∀ t ∈ s.walk, t.fault = none
  | .leaf kind text fault, h => by
    intro t ht
    rw [walk, List.mem_singleton] at ht
    rw [ht, Shape.fault]
    exact Option.not_isSome_iff_eq_none.mp (Bool.eq_false_iff.mp h)
  | .branch kind children fault, h => by
    obtain ⟨hfault, hchildren⟩ := Bool.or_eq_false_iff.mp h
    intro t ht
    rcases List.mem_cons.mp ht with rfl | ht
    · exact Option.not_isSome_iff_eq_none.mp (Bool.eq_false_iff.mp hfault)
    · exact faults_eq_none hchildren t ht

theorem faults_eq_none : {ss : List Shape} → anyFault ss = false → ∀ t ∈ walkAll ss, t.fault = none
  | [], _ => by simp [walkAll]
  | s :: ss, h => by
    obtain ⟨hfirst, hrest⟩ := Bool.or_eq_false_iff.mp h
    intro t ht
    rcases List.mem_append.mp ht with ht | ht
    · exact fault_eq_none hfirst t ht
    · exact faults_eq_none hrest t ht

end

end Shape

namespace Node

mutual

/-- The error nodes that no error node is around. -/
def outermost : Node → List Node
  | n@⟨_, kind, _, _, _, _, _, children⟩ =>
    if kind == .error then [n] else outermostAll children

/-- The outermost error nodes of several trees. -/
def outermostAll : List Node → List Node
  | [] => []
  | n :: rest => n.outermost ++ outermostAll rest

end

theorem outermost_eq (n : Node) :
    n.outermost = if n.isError then [n] else outermostAll n.children := by
  obtain ⟨handle, kind, start, width, text?, fault, hasFault, children⟩ := n
  rw [outermost]
  rfl

theorem errors_eq (n : Node) :
    n.errors = if n.isError || n.isMissing then [n]
      else if n.hasFault then errorsAll n.children else [] := by
  obtain ⟨handle, kind, start, width, text?, fault, hasFault, children⟩ := n
  rw [errors]
  rfl

mutual

/-- An outermost error is an error, with all its nodes in the tree. -/
theorem mem_outermost : (n : Node) → ∀ m ∈ n.outermost, m.isError = true ∧ m.walk ⊆ n.walk
  | ⟨handle, kind, start, width, text?, fault, hasFault, children⟩ => by
    intro m hm
    rw [outermost_eq] at hm
    split at hm
    · rename_i herror
      rw [List.mem_singleton.mp hm]
      exact ⟨herror, List.Subset.refl _⟩
    · obtain ⟨herror, hsubset⟩ := mem_outermostAll children m hm
      rw [walk_eq ⟨handle, kind, start, width, text?, fault, hasFault, children⟩]
      exact ⟨herror, List.subset_cons_of_subset _ hsubset⟩

theorem mem_outermostAll : (ns : List Node) → ∀ m ∈ outermostAll ns,
    m.isError = true ∧ m.walk ⊆ walkAll ns
  | [] => by simp [outermostAll]
  | n :: ns => by
    intro m hm
    rw [walkAll]
    rcases List.mem_append.mp hm with hm | hm
    · obtain ⟨herror, hsubset⟩ := mem_outermost n m hm
      exact ⟨herror, List.subset_append_of_subset_left _ hsubset⟩
    · obtain ⟨herror, hsubset⟩ := mem_outermostAll ns m hm
      exact ⟨herror, List.subset_append_of_subset_right _ hsubset⟩

end

/-! ## Their order -/

/-- The nodes lie one behind the other between two offsets. -/
def Ordered (start stop : Nat) : List Node → Prop
  | [] => start ≤ stop
  | n :: rest => start ≤ n.start ∧ Ordered n.stop stop rest

theorem Ordered.append {i j k : Nat} {xs ys : List Node} (hxs : Ordered i j xs)
    (hys : Ordered j k ys) : Ordered i k (xs ++ ys) := by
  induction xs generalizing i with
  | nil =>
    cases ys with
    | nil => exact Nat.le_trans hxs hys
    | cons y ys => exact ⟨Nat.le_trans hxs hys.1, hys.2⟩
  | cons x xs ih => exact ⟨hxs.1, ih hxs.2⟩

theorem Ordered.le {start stop : Nat} {ns : List Node} (h : Ordered start stop ns) :
    start ≤ stop := by
  induction ns generalizing start with
  | nil => exact h
  | cons n ns ih =>
    have hstart := h.1
    have hstop := ih h.2
    rw [Node.stop] at hstop
    omega

theorem Ordered.mem {start stop : Nat} {ns : List Node} (h : Ordered start stop ns) :
    ∀ n ∈ ns, start ≤ n.start ∧ n.stop ≤ stop := by
  induction ns generalizing start with
  | nil => simp
  | cons n ns ih =>
    have hstart := h.1
    intro m hm
    rcases List.mem_cons.mp hm with rfl | hm
    · exact ⟨hstart, h.2.le⟩
    · obtain ⟨hfirst, hlast⟩ := ih h.2 m hm
      rw [Node.stop] at hfirst
      exact ⟨by omega, hlast⟩

theorem Ordered.pairwise {start stop : Nat} {ns : List Node} (h : Ordered start stop ns) :
    ns.Pairwise fun m n => m.stop ≤ n.start := by
  induction ns generalizing start with
  | nil => exact .nil
  | cons n ns ih => exact .cons (fun m hm => (h.2.mem m hm).1) (ih h.2)

mutual

theorem ordered_outermost {source : List Char} : (n : Node) → (∀ m ∈ n.walk, m.Tiles source) →
    Ordered n.start n.stop n.outermost
  | ⟨handle, kind, start, width, text?, fault, hasFault, children⟩, h => by
    rw [outermost_eq]
    split
    · exact ⟨Nat.le_refl _, Nat.le_refl _⟩
    · rw [walk_eq] at h
      obtain ⟨htiles, hbelow⟩ := List.forall_mem_cons.mp h
      cases text? with
      | some text =>
        obtain ⟨hnone, -⟩ := htiles.leaf rfl
        rw [hnone]
        exact Nat.le_add_right start width
      | none => exact ordered_outermostAll children (htiles.contiguous rfl) hbelow

theorem ordered_outermostAll {source : List Char} {start stop : Nat} : (ns : List Node) →
    Contiguous start stop ns → (∀ m ∈ walkAll ns, m.Tiles source) →
    Ordered start stop (outermostAll ns)
  | [], hcontiguous, _ => Nat.le_of_eq hcontiguous
  | n :: ns, ⟨hstart, hrest⟩, h => by
    rw [walkAll, List.forall_mem_append] at h
    rw [← hstart]
    exact (ordered_outermost n h.1).append (ordered_outermostAll ns hrest h.2)

end

/-! ## What is shown of them -/

variable {config : Config} {source : List Char} {n : Node}

theorem Contiguous.le {start stop : Nat} {ns : List Node} (h : Contiguous start stop ns) :
    start ≤ stop := by
  induction ns generalizing start with
  | nil => exact Nat.le_of_eq h
  | cons n ns ih =>
    have hstop := ih h.2
    rw [Node.stop, h.1] at hstop
    omega

/-- A leaf covers something, unless it stands for a missing datum. -/
theorem lt_stop_of_leaf {k : Kind} {text : List Char} {f : Option Fault} (htiles : n.Tiles source)
    (hform : Shape.Form config n.shape) (hshape : n.shape = .leaf k text f) (hk : k ≠ .missing) :
    n.start < n.stop := by
  have htext : n.text? = some text := by
    cases ht : n.text? with
    | some text' =>
      rw [shape_of_leaf ht] at hshape
      cases hshape
      rfl
    | none =>
      rw [shape_of_branch ht] at hshape
      cases hshape
  rw [hshape] at hform
  obtain ⟨-, hslice⟩ := htiles.leaf (by rw [isLeaf, htext]; rfl)
  have hlength : text.length ≤ n.width := by
    rw [Option.some.inj (htext.symm.trans hslice), slice, List.length_take]
    exact Nat.min_le_left _ _
  have hpos := List.length_pos_of_ne_nil (hform.text_ne_nil hk)
  rw [stop]
  omega

/-- What is shown of an error is a part of it from its start on, and not empty. -/
theorem exists_diagnosticSpan (htiles : ∀ m ∈ n.walk, m.Tiles source)
    (hform : ∀ m ∈ n.walk, Shape.Form config m.shape) (herror : n.isError = true) :
    ∃ stop, n.diagnosticSpan = (n.start, stop) ∧ n.start < stop ∧ stop ≤ n.stop := by
  rw [walk_eq] at htiles hform
  have hn := htiles n List.mem_cons_self
  have hshape := hform n List.mem_cons_self
  have hkind : n.kind = .error := beq_iff_eq.mp herror
  cases htext : n.text? with
  | some text =>
    have hlt := lt_stop_of_leaf hn hshape (shape_of_leaf htext) (by simp [hkind])
    obtain ⟨hnone, -⟩ := hn.leaf (by rw [isLeaf, htext]; rfl)
    refine ⟨n.stop, ?_, hlt, Nat.le_refl _⟩
    rw [diagnosticSpan, hnone]
    cases n.isUnclosed <;> rfl
  | none =>
    rw [shape_of_branch htext] at hshape
    obtain ⟨k, text, rest, hfirst, hk, -⟩ := hshape.exists_first (by rw [hkind]; nofun)
    have hcontiguous := hn.contiguous (by rw [isLeaf, htext]; rfl)
    cases hchildren : n.children with
    | nil =>
      rw [hchildren] at hfirst
      cases hfirst
    | cons c cs =>
      rw [hchildren] at hfirst hcontiguous htiles hform
      have hmem : c ∈ n :: walkAll (c :: cs) := by
        rw [walkAll, walk_eq]
        exact List.mem_cons_of_mem _ List.mem_cons_self
      -- the first child is a token, so that the opening delimiter alone is not empty either
      obtain ⟨hc, -⟩ := List.cons.inj hfirst
      have hlt := lt_stop_of_leaf (htiles c hmem) (hform c hmem) hc hk
      obtain ⟨hstart, hrest⟩ := hcontiguous
      rw [hstart] at hlt
      rw [diagnosticSpan, hchildren]
      cases n.isUnclosed with
      | true => exact ⟨c.stop, congrArg (·, c.stop) hstart, hlt, hrest.le⟩
      | false => exact ⟨n.stop, rfl, Nat.lt_of_lt_of_le hlt hrest.le, Nat.le_refl _⟩

end Node

/-! ## Stored trees -/

namespace Arena

open Node

variable {a : Arena} {config : Config}

mutual

/-- The arena notes where faults are. -/
theorem WellFormed.hasFault_eq {h : Handle} (hwf : a.WellFormed) :
    {s : Shape} → a.Holds h s → a.hasFault h = s.hasFault
  | .leaf kind text fault, ⟨r, hr, _, _, ht, hf, _⟩ => by
    rw [Arena.hasFault, hr, Option.map_some, Option.getD_some, Shape.hasFault, ← hf]
    rcases hwf h r hr with ⟨_, -, -, -, hiff⟩ | ⟨hnone, -⟩
    · rw [Bool.eq_iff_iff, hiff, Option.isSome_iff_ne_none]
    · rw [ht] at hnone
      cases hnone
  | .branch kind ss fault, ⟨r, hr, _, _, ht, hf, hcs⟩ => by
    rw [Arena.hasFault, hr, Option.map_some, Option.getD_some, Shape.hasFault, ← hf,
      ← hwf.anyFault_eq hcs]
    rcases hwf h r hr with ⟨text, htext, -⟩ | ⟨-, -, -, hiff⟩
    · rw [ht] at htext
      cases htext
    · rw [Bool.eq_iff_iff, hiff, Bool.or_eq_true, List.any_eq_true, Option.isSome_iff_ne_none]

theorem WellFormed.anyFault_eq {n : Nat} {hs : List Handle} (hwf : a.WellFormed) :
    {ss : List Shape} → a.HoldsAll n hs ss → hs.any a.hasFault = Shape.anyFault ss
  | [], hall => by
    cases hall
    rfl
  | s :: ss, ⟨h, rest, hhs, _, hold, hrest⟩ => by
    rw [hhs, List.any_cons, hwf.hasFault_eq hold, hwf.anyFault_eq hrest, Shape.anyFault]

end

theorem hasFault_view (a : Arena) (h : Handle) (start : Nat) :
    (a.view h start).hasFault = a.hasFault h := by
  rw [view, Arena.hasFault]
  cases a.get? h <;> rfl

theorem outermost_view_eq_nil {h : Handle} {s : Shape} (hold : a.Holds h s) (hs : s.Formed config)
    (hfault : s.hasFault = false) (start : Nat) : (a.view h start).outermost = [] := by
  rw [List.eq_nil_iff_forall_not_mem]
  intro n hn
  obtain ⟨herror, hsubset⟩ := mem_outermost _ n hn
  have hwalk : n ∈ (a.view h start).walk := hsubset (by rw [walk_eq]; exact List.mem_cons_self)
  have hmem : n.shape ∈ s.walk := by
    rw [← map_shape_walk_view start hold]
    exact List.mem_map_of_mem hwalk
  have hkind : n.shape.kind = .error := by
    rw [kind_shape]
    exact beq_iff_eq.mp herror
  exact (hs _ hmem).error_iff.mp hkind (Shape.fault_eq_none hfault _ hmem)

mutual

/-- In a tree of the schema the outermost errors are found. -/
theorem errors_view {h : Handle} (hwf : a.WellFormed) (start : Nat) :
    {s : Shape} → a.Holds h s → s.Formed config → s.kind ≠ .missing →
      (a.view h start).errors = (a.view h start).outermost
  | .leaf kind text fault, hold, _, hk => by
    obtain ⟨hkind, -, -, hcs⟩ := view_leaf hold start
    have hmissing : (a.view h start).isMissing = false := by
      rw [isMissing, hkind]
      exact beq_eq_false_iff_ne.mpr hk
    rw [errors_eq, outermost_eq, hcs, hmissing, Bool.or_false]
    split
    · rfl
    · rw [errorsAll, outermostAll, ite_self]
  | .branch kind ss fault, hold, hs, hk => by
    obtain ⟨hs', hall, hkind, -, -, hcs⟩ := view_branch hold start
    have hmissing : (a.view h start).isMissing = false := by
      rw [isMissing, hkind]
      exact beq_eq_false_iff_ne.mpr hk
    obtain ⟨hform, hbelow⟩ := Shape.formed_branch.mp hs
    by_cases herror : (a.view h start).isError = true
    · rw [errors_eq, outermost_eq, herror, Bool.true_or, if_pos rfl, if_pos rfl]
    · by_cases hfault : (a.view h start).hasFault = true
      · have hne : kind ≠ .error := by
          intro heq
          rw [isError, hkind, heq] at herror
          exact herror rfl
        rw [errors_eq, outermost_eq, hmissing, Bool.or_false, if_neg herror, if_neg herror,
          if_pos hfault, hcs]
        exact errorsAll_viewAll hwf start hall hbelow (hform.kind_ne_missing hne)
      · -- no fault is noted here, and there is no error below
        rw [errors_eq, hmissing, Bool.or_false, if_neg herror, if_neg hfault]
        rw [hasFault_view, hwf.hasFault_eq hold, Bool.not_eq_true] at hfault
        exact (outermost_view_eq_nil hold hs hfault start).symm

theorem errorsAll_viewAll {n : Nat} {hs : List Handle} (hwf : a.WellFormed) (start : Nat) :
    {ss : List Shape} → a.HoldsAll n hs ss → (∀ s ∈ ss, s.Formed config) →
      (∀ s ∈ ss, s.kind ≠ .missing) →
      errorsAll (a.viewAll start hs) = outermostAll (a.viewAll start hs)
  | [], hall, _, _ => by
    cases hall
    rfl
  | s :: ss, ⟨h, rest, hhs, _, hold, hrest⟩, hformed, hk => by
    obtain ⟨hs, hss⟩ := List.forall_mem_cons.mp hformed
    obtain ⟨hks, hkss⟩ := List.forall_mem_cons.mp hk
    rw [hhs, viewAll, errorsAll, outermostAll, errors_view hwf start hold hs hks,
      errorsAll_viewAll hwf _ hrest hss hkss]

end

end Arena

end RacketTree

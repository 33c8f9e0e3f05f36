import RacketTree.Proofs.Tree.Entries
import RacketTree.Proofs.Tree.Outermost
import RacketTree.Tree.Compare
import RacketTree.Tree.Render

/-!
# Comparing decides structural equality

In an arena that is made by adding leaves and branches (`Arena.Built`) every record has a tree below
it, the one that `Arena.shape` unfolds (`WellFormed.holds_shape`). Comparing two such records always
ends. The answer for the pair in front of the list is that of `Arena.same`, whatever comes behind it
(`compare_cons`): the children come before their parent in the arena, so the records of a pair that
is added are smaller than those of the pair that is taken off.

`Rooted.compare_decides` puts this together for trees in one arena or in two. The answer is that the
unfolded trees are equal, in which nothing is left of handles and of what is shared. So equivalence
is an equivalence relation, and trees that are equivalent have the same text, the same structure
when they are written out, and the same errors at the same distances from their roots.
-/

namespace RacketTree

namespace Arena

/-- The arenas that are made by adding leaves, those of tokens and the placeholders of missing
datums among them, and branches around records that are there. -/
inductive Built : Arena → Prop
  | empty : Built Arena.empty
  | leaf {a : Arena} (h : Built a) (kind : Kind) (text : List Char) (fault : Option Fault) :
      Built (a.leaf kind text fault)
  | branch {a : Arena} (h : Built a) (kind : Kind) {children : List Handle} (fault : Option Fault)
      (hbelow : ∀ c ∈ children, c < a.size) : Built (a.branch kind children fault)

variable {a b : Arena}

theorem Built.wellFormed (h : a.Built) : a.WellFormed := by
  induction h with
  | empty => exact wellFormed_empty
  | leaf _ kind text fault ih => exact ih.leaf kind text fault
  | branch _ kind fault hbelow ih => exact ih.branch kind fault hbelow

/-! ## Unfolding -/

theorem shape_leaf {h : Handle} {r : Record} {text : List Char} (hr : a.get? h = some r)
    (ht : r.text? = some text) : a.shape h = .leaf r.kind text r.fault := by
  rw [shape, hr]
  simp only [ht]

/-- In a well-formed arena all records below a branch are unfolded. -/
theorem WellFormed.shape_branch (hwf : a.WellFormed) {h : Handle} {r : Record}
    (hr : a.get? h = some r) (ht : r.text? = none) :
    a.shape h = .branch r.kind (r.children.map a.shape) r.fault := by
  rw [shape, hr]
  simp only [ht, Shape.branch.injEq, true_and, and_true]
  rw [← List.filterMap_eq_map]
  refine List.filterMap_congr fun c hc => ?_
  rw [dif_pos (hwf.children_lt hr c hc)]
  rfl

theorem holdsAll_map {n : Nat} {hs : List Handle} {f : Handle → Shape}
    (h : ∀ c ∈ hs, c < n ∧ a.Holds c (f c)) : a.HoldsAll n hs (hs.map f) := by
  induction hs with
  | nil => rfl
  | cons c hs ih =>
    obtain ⟨⟨hlt, hold⟩, hrest⟩ := List.forall_mem_cons.mp h
    exact ⟨c, hs, rfl, hlt, hold, ih hrest⟩

/-- Every record holds the tree that it unfolds to. -/
theorem WellFormed.holds_shape (hwf : a.WellFormed) {h : Handle} (hlt : h < a.size) :
    a.Holds h (a.shape h) := by
  induction h using Nat.strongRecOn with
  | ind h ih =>
    obtain ⟨r, hr⟩ := exists_get? hlt
    rcases hwf h r hr with ⟨text, ht, hwidth, hnone, -⟩ | ⟨ht, hbelow, hwidth, -⟩
    · rw [shape_leaf hr ht]
      exact ⟨r, hr, rfl, hwidth, ht, rfl, hnone⟩
    · have hall : a.HoldsAll h r.children (r.children.map a.shape) :=
        holdsAll_map fun c hc => ⟨hbelow c hc, ih c (hbelow c hc) (Nat.lt_trans (hbelow c hc) hlt)⟩
      rw [hwf.shape_branch hr ht]
      refine ⟨r, hr, rfl, ?_, ht, rfl, hall⟩
      rw [hwidth, ← widths_eq_sum, hall.widths]

/-- Two records are the same if and only if they unfold to one tree. -/
theorem WellFormed.same_iff_shape (hwf : a.WellFormed) (hwf' : b.WellFormed) {x y : Handle}
    (hx : x < a.size) (hy : y < b.size) : a.same b x y = true ↔ a.shape x = b.shape y := by
  have hold := hwf.holds_shape hx
  rw [same_iff (hwf'.holds_shape hy)]
  constructor
  · exact fun h => hold.unique h
  · intro h
    rw [← h]
    exact hold

/-! ## The list of pairs -/

theorem same_eq_agrees (hwf : a.WellFormed) {x y : Handle} {r s : Record}
    (hr : a.get? x = some r) (hs : b.get? y = some s) :
    a.same b x y = (r.agrees s && (r.children.zip s.children).all fun p => a.same b p.1 p.2) := by
  rw [same, hr, hs]
  simp only [Record.agrees]
  congr 1
  rw [Bool.eq_iff_iff, List.all_eq_true, List.all_eq_true]
  refine forall₂_congr fun p hp => ?_
  rw [dif_pos (hwf.children_lt hr p.1 (List.of_mem_zip hp).1)]

/-- Pairs in front of a list are compared before it, if that is true of each of them. -/
theorem compare_append {one : Bool} {pairs : List (Handle × Handle)}
    (h : ∀ p ∈ pairs, ∀ rest, a.compare b one (p :: rest) =
      if a.same b p.1 p.2 then a.compare b one rest else some false)
    (rest : List (Handle × Handle)) :
    a.compare b one (pairs ++ rest) =
      if pairs.all fun p => a.same b p.1 p.2 then a.compare b one rest else some false := by
  induction pairs with
  | nil => rfl
  | cons p pairs ih =>
    obtain ⟨hp, hpairs⟩ := List.forall_mem_cons.mp h
    rw [List.cons_append, hp, List.all_cons, ih hpairs]
    cases a.same b p.1 p.2 <;> rfl

/-- The pair in front of the list ends the comparison or is taken off. -/
theorem compare_cons (hwf : a.WellFormed) (hwf' : b.WellFormed) {one : Bool}
    (hone : one = true → a = b) {x y : Handle} (hx : x < a.size) (hy : y < b.size)
    (rest : List (Handle × Handle)) :
    a.compare b one ((x, y) :: rest) =
      if a.same b x y then a.compare b one rest else some false := by
  -- the pairs that are added are those of the children, which come before `x`
  induction x using Nat.strongRecOn generalizing y rest with
  | ind x ih =>
    rw [compare]
    by_cases hself : (one && x == y) = true
    · rw [if_pos hself]
      obtain ⟨honly, hxy⟩ := Bool.and_eq_true_iff.mp hself
      cases hone honly
      cases beq_iff_eq.mp hxy
      rw [if_pos ((hwf.same_iff_shape hwf' hx hy).mpr rfl)]
    · obtain ⟨r, hr⟩ := exists_get? hx
      obtain ⟨s, hs⟩ := exists_get? hy
      rw [if_neg hself, hr, hs, same_eq_agrees hwf hr hs]
      cases hagrees : r.agrees s with
      | false => simp [hagrees]
      | true =>
        simp only [hagrees, if_true, Bool.true_and]
        rw [compare_append, List.all_reverse]
        intro p hp
        obtain ⟨hleft, hright⟩ := List.of_mem_zip (List.mem_reverse.mp hp)
        have hpx := hwf.children_lt hr p.1 hleft
        have hpy := hwf'.children_lt hs p.2 hright
        exact ih p.1 hpx (Nat.lt_trans hpx hx) (Nat.lt_trans hpy hy)

end Arena

/-! ## What equal trees have in common -/

namespace Node

theorem sexp_congr {n m : Node} (hkind : n.kind = m.kind) (htext : n.text? = m.text?)
    (hfault : n.fault = m.fault) (hchildren : namedSexps n.children = namedSexps m.children) :
    n.sexp = m.sexp := by
  obtain ⟨_, kind, _, _, text?, fault, _, children⟩ := n
  obtain ⟨_, kind', _, _, text?', fault', _, children'⟩ := m
  cases hkind
  cases htext
  cases hfault
  cases text? with
  | some text => simp only [sexp]
  | none =>
    simp only [sexp]
    rw [hchildren]

/-- The kind and the fault of a node, and its span as seen from an offset before it. -/
def seenFrom (i : Nat) (n : Node) : Kind × Option Fault × Nat × Nat :=
  (n.kind, n.fault, n.start - i, n.stop - i)

end Node

namespace Arena

open Node

mutual

/-- A tree is written out in the same way wherever it is. -/
theorem sexp_view {a b : Arena} {x y : Handle} (i j : Nat) :
    {s : Shape} → a.Holds x s → b.Holds y s → (a.view x i).sexp = (b.view y j).sexp
  | .leaf kind text fault, hold, hold' => by
    obtain ⟨hk, ht, hf, hcs⟩ := view_leaf hold i
    obtain ⟨hk', ht', hf', hcs'⟩ := view_leaf hold' j
    exact sexp_congr (hk.trans hk'.symm) (ht.trans ht'.symm) (hf.trans hf'.symm) (by rw [hcs, hcs'])
  | .branch kind ss fault, hold, hold' => by
    obtain ⟨xs, hall, hk, ht, hf, hcs⟩ := view_branch hold i
    obtain ⟨ys, hall', hk', ht', hf', hcs'⟩ := view_branch hold' j
    refine sexp_congr (hk.trans hk'.symm) (ht.trans ht'.symm) (hf.trans hf'.symm) ?_
    rw [hcs, hcs', namedSexps_viewAll i j hall hall']

theorem namedSexps_viewAll {a b : Arena} {m n : Nat} {xs ys : List Handle} (i j : Nat) :
    {ss : List Shape} → a.HoldsAll m xs ss → b.HoldsAll n ys ss →
      namedSexps (a.viewAll i xs) = namedSexps (b.viewAll j ys)
  | [], hall, hall' => by
    cases hall
    cases hall'
    rfl
  | s :: ss, ⟨x, xs, hxs, _, hold, hrest⟩, ⟨y, ys, hys, _, hold', hrest'⟩ => by
    have hkind : (a.view x i).kind = (b.view y j).kind := by
      rw [← kind_shape, ← kind_shape, shape_view i hold, shape_view j hold']
    rw [hxs, hys, viewAll, viewAll, namedSexps, namedSexps, hkind, sexp_view i j hold hold',
      namedSexps_viewAll _ _ hrest hrest']

end

theorem seenFrom_view {a b : Arena} {x y : Handle} {s : Shape} (hold : a.Holds x s)
    (hold' : b.Holds y s) (i j k : Nat) :
    seenFrom i (a.view x (i + k)) = seenFrom j (b.view y (j + k)) := by
  have hshape := (shape_view (i + k) hold).trans (shape_view (j + k) hold').symm
  have hkind := congrArg Shape.kind hshape
  have hfault := congrArg Shape.fault hshape
  rw [kind_shape, kind_shape] at hkind
  rw [fault_shape, fault_shape] at hfault
  simp only [seenFrom, stop, hkind, hfault, start_view, width_view, hold.width, hold'.width,
    Prod.mk.injEq, true_and]
  omega

mutual

/-- The same errors are found in a tree wherever it is, at the same distances from an offset before
it. -/
theorem map_seenFrom_errors {a b : Arena} (hwf : a.WellFormed) (hwf' : b.WellFormed) {x y : Handle}
    (i j k : Nat) : {s : Shape} → a.Holds x s → b.Holds y s →
      (a.view x (i + k)).errors.map (seenFrom i) = (b.view y (j + k)).errors.map (seenFrom j)
  | .leaf kind text fault, hold, hold' => by
    have hseen := seenFrom_view hold hold' i j k
    obtain ⟨hk, -, -, hcs⟩ := view_leaf hold (i + k)
    obtain ⟨hk', -, -, hcs'⟩ := view_leaf hold' (j + k)
    rw [errors_eq, errors_eq, isError, isMissing, isError, isMissing, hk, hk', hcs, hcs',
      errorsAll, ite_self, ite_self]
    split
    · rw [List.map_singleton, List.map_singleton, hseen]
    · rfl
  | .branch kind ss fault, hold, hold' => by
    have hseen := seenFrom_view hold hold' i j k
    obtain ⟨xs, hall, hk, -, -, hcs⟩ := view_branch hold (i + k)
    obtain ⟨ys, hall', hk', -, -, hcs'⟩ := view_branch hold' (j + k)
    rw [errors_eq, errors_eq, isError, isMissing, isError, isMissing, hk, hk', hcs, hcs',
      hasFault_view, hasFault_view, hwf.hasFault_eq hold, hwf'.hasFault_eq hold']
    split
    · rw [List.map_singleton, List.map_singleton, hseen]
    · split
      · exact map_seenFrom_errorsAll hwf hwf' i j k hall hall'
      · rfl

theorem map_seenFrom_errorsAll {a b : Arena} (hwf : a.WellFormed) (hwf' : b.WellFormed) {m n : Nat}
    {xs ys : List Handle} (i j k : Nat) :
    {ss : List Shape} → a.HoldsAll m xs ss → b.HoldsAll n ys ss →
      (errorsAll (a.viewAll (i + k) xs)).map (seenFrom i) =
        (errorsAll (b.viewAll (j + k) ys)).map (seenFrom j)
  | [], hall, hall' => by
    cases hall
    cases hall'
    rfl
  | s :: ss, ⟨x, xs, hxs, _, hold, hrest⟩, ⟨y, ys, hys, _, hold', hrest'⟩ => by
    rw [hxs, hys, viewAll, viewAll, errorsAll, errorsAll, List.map_append, List.map_append,
      map_seenFrom_errors hwf hwf' i j k hold hold', hold.width, hold'.width, Nat.add_assoc i,
      Nat.add_assoc j, map_seenFrom_errorsAll hwf hwf' i j _ hrest hrest']

end

end Arena

/-! ## Trees -/

/-- A tree in an arena that has been made by adding leaves and branches. -/
structure Rooted where
  arena : Arena
  tree : Tree
  built : arena.Built
  root_lt : tree.root < arena.size

namespace Rooted

/-- The unfolded tree. -/
def shape (x : Rooted) : Shape :=
  x.arena.shape x.tree.root

/-- The two trees compare as equal. -/
def Equivalent (x y : Rooted) : Prop :=
  x.tree.equivalent x.arena y.tree y.arena = true

/-- The errors that are found in the tree, as seen from its root. -/
def errors (x : Rooted) : List (Kind × Option Fault × Nat × Nat) :=
  (x.tree.errors x.arena).map (Node.seenFrom x.tree.rootStart)

theorem holds_shape (x : Rooted) : x.arena.Holds x.tree.root x.shape :=
  x.built.wellFormed.holds_shape x.root_lt

theorem equivalent_iff (x y : Rooted) : x.Equivalent y ↔ x.shape = y.shape :=
  x.built.wellFormed.same_iff_shape y.built.wellFormed x.root_lt y.root_lt

theorem compare_eq (x y : Rooted) {one : Bool} (hone : one = true → x.arena = y.arena) :
    x.tree.compare x.arena y.tree y.arena one =
      some (x.tree.equivalent x.arena y.tree y.arena) := by
  rw [Tree.compare, Tree.equivalent,
    Arena.compare_cons x.built.wellFormed y.built.wellFormed hone x.root_lt y.root_lt,
    Arena.compare]
  cases x.arena.same y.arena x.tree.root y.tree.root <;> rfl

/-- Comparing two trees, in one arena or in two, ends with the answer whether the unfolded trees are
equal. So it is an equivalence relation that does not depend on handles, and trees that compare as
equal have the same text, structure and errors. -/
theorem compare_decides :
    (∀ (x y : Rooted) (one : Bool), (one = true → x.arena = y.arena) →
      ∃ answer, x.tree.compare x.arena y.tree y.arena one = some answer ∧
        (answer = true ↔ x.shape = y.shape) ∧ (answer = true ↔ x.Equivalent y)) ∧
    Equivalence Equivalent ∧
    (∀ x x' y y' : Rooted, x.shape = x'.shape → y.shape = y'.shape →
      (x.Equivalent y ↔ x'.Equivalent y')) ∧
    ∀ x y : Rooted, x.Equivalent y →
      x.tree.text x.arena = y.tree.text y.arena ∧
      (x.tree.node x.arena).sexp = (y.tree.node y.arena).sexp ∧ x.errors = y.errors := by
  refine ⟨fun x y one hone => ?_, ⟨fun x => ?_, fun h => ?_, fun h h' => ?_⟩, ?_, ?_⟩
  · exact ⟨_, compare_eq x y hone, equivalent_iff x y, Iff.rfl⟩
  · exact (equivalent_iff x x).mpr rfl
  · exact (equivalent_iff _ _).mpr ((equivalent_iff _ _).mp h).symm
  · exact (equivalent_iff _ _).mpr (((equivalent_iff _ _).mp h).trans ((equivalent_iff _ _).mp h'))
  · intro x x' y y' hx hy
    rw [equivalent_iff, equivalent_iff, hx, hy]
  · intro x y h
    have hold := x.holds_shape
    rw [(equivalent_iff x y).mp h] at hold
    refine ⟨?_, Arena.sexp_view _ _ hold y.holds_shape, ?_⟩
    · exact (Arena.spell_view _ hold).trans (Arena.spell_view _ y.holds_shape).symm
    · exact Arena.map_seenFrom_errors x.built.wellFormed y.built.wellFormed x.tree.rootStart
        y.tree.rootStart 0 hold y.holds_shape

/-! One arena with a list of one symbol twice, and a list of two symbols with the same text. -/

def sharing : Arena :=
  (((Arena.empty.leaf .symbol ['a'] none).branch .list [0, 0] none).leaf .symbol ['a'] none).branch
    .list [0, 2] none

theorem built_sharing : sharing.Built :=
  .branch (.leaf (.branch (.leaf .empty _ _ _) _ _ (by decide)) _ _ _) _ _ (by decide)

/-- The tree of a record of the arena. -/
def inSharing (root : Fin 4) : Rooted :=
  { arena := sharing, tree := ⟨['a', 'a'], root, .default, 0⟩, built := built_sharing
    root_lt := root.isLt }

theorem shape_sharing : (inSharing 1).shape = (inSharing 3).shape := by
  have hwf := built_sharing.wellFormed
  have hfirst : sharing.get? 0 = some ⟨.symbol, 1, some ['a'], [], none, false⟩ := rfl
  have hsecond : sharing.get? 2 = some ⟨.symbol, 1, some ['a'], [], none, false⟩ := rfl
  have hone : sharing.get? 1 = some ⟨.list, 2, none, [0, 0], none, false⟩ := rfl
  have htwo : sharing.get? 3 = some ⟨.list, 2, none, [0, 2], none, false⟩ := rfl
  show sharing.shape 1 = sharing.shape 3
  simp only [hwf.shape_branch hone rfl, hwf.shape_branch htwo rfl, Arena.shape_leaf hfirst rfl,
    Arena.shape_leaf hsecond rfl, List.map_cons, List.map_nil]

theorem compare_decides_sharing :
    (inSharing 1).tree.compare sharing (inSharing 3).tree sharing true = some true ∧
      (inSharing 1).Equivalent (inSharing 3) := by
  obtain ⟨answer, hanswer, hshape, hequivalent⟩ :=
    compare_decides.1 (inSharing 1) (inSharing 3) true fun _ => rfl
  cases hshape.mpr shape_sharing
  exact ⟨hanswer, hequivalent.mp rfl⟩

end Rooted

end RacketTree

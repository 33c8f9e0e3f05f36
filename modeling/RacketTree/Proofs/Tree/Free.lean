import RacketTree.Proofs.Tree.Items
import RacketTree.Proofs.Tree.Schema

/-!
# Trees free of a fault

A tree is free of a fault if none of its nodes has it. The reader never takes back a fault: an item
at top level that is free of it has been built from constructs that were (`Run.free`). For a tail
that is no longer well-formed this means that its list will have an illegal dot, whatever comes
next.

So what is known of the item says what has not happened on the way. An item that is free of
`nestingTooDeep` has run into no depth limit (`free_overflow`).
-/

namespace RacketTree

variable {f : Fault}

/-- The property holds of the tree and of every tree below it. -/
def Shape.Forall (p : Shape → Prop) (s : Shape) : Prop :=
  ∀ t ∈ s.walk, p t

/-- The property holds of every tree that the draft stands for, and below it. -/
def Draft.Forall (p : Shape → Prop) (d : Draft) : Prop :=
  ∀ s ∈ d.shapes, s.Forall p

variable {p : Shape → Prop}

namespace Shape

theorem forall_leaf {k : Kind} {text : List Char} {g : Option Fault} :
    (leaf k text g).Forall p ↔ p (leaf k text g) :=
  List.forall_mem_singleton

theorem forall_branch {k : Kind} {ss : List Shape} {g : Option Fault} :
    (branch k ss g).Forall p ↔ p (branch k ss g) ∧ ∀ s ∈ ss, s.Forall p := by
  refine List.forall_mem_cons.trans (and_congr_right fun _ => ?_)
  simp only [mem_walkAll]
  constructor
  · intro h s hs t ht
    exact h t ⟨s, hs, ht⟩
  · rintro h t ⟨s, hs, ht⟩
    exact h s hs t ht

end Shape

namespace Draft

theorem forall_allShapes {ds : List Draft} :
    (∀ s ∈ allShapes ds, p s) ↔ ∀ d ∈ ds, ∀ s ∈ d.shapes, p s := by
  simp only [mem_allShapes]
  constructor
  · intro h d hd s hs
    exact h s ⟨d, hd, hs⟩
  · rintro h s ⟨d, hd, hs⟩
    exact h d hd s hs

theorem forall_leaf {k : Kind} {text : List Char} {g : Option Fault} :
    (leaf k text g).Forall p ↔ p (.leaf k text g) := by
  rw [Forall, shapes, List.forall_mem_singleton, Shape.forall_leaf]

theorem forall_branch {k : Kind} {ds : List Draft} {g : Option Fault} :
    (branch k ds g).Forall p ↔ p (.branch k (allShapes ds) g) ∧ ∀ d ∈ ds, d.Forall p := by
  rw [Forall, shapes, List.forall_mem_singleton, Shape.forall_branch, forall_allShapes]
  rfl

theorem forall_tail {pieces trailing : List Draft} :
    (tail pieces trailing).Forall p ↔
      p (.branch .error (allShapes pieces) (some .malformedDottedPair)) ∧
        (∀ d ∈ pieces, d.Forall p) ∧ ∀ d ∈ trailing, d.Forall p := by
  rw [Forall, shapes, List.forall_mem_cons, Shape.forall_branch, forall_allShapes, forall_allShapes,
    and_assoc]
  rfl

end Draft

/-- No node of the tree has the fault. -/
def Shape.Free (f : Fault) : Shape → Prop :=
  Shape.Forall fun s => s.fault ≠ some f

/-- No tree that the draft stands for has the fault. -/
def Draft.Free (f : Fault) : Draft → Prop :=
  Draft.Forall fun s => s.fault ≠ some f

namespace Draft

theorem free_leaf {k : Kind} {text : List Char} {g : Option Fault} :
    (leaf k text g).Free f ↔ g ≠ some f :=
  forall_leaf

theorem free_branch {k : Kind} {ds : List Draft} {g : Option Fault} :
    (branch k ds g).Free f ↔ g ≠ some f ∧ ∀ d ∈ ds, d.Free f :=
  forall_branch

theorem free_tail {pieces trailing : List Draft} :
    (tail pieces trailing).Free f ↔
      f ≠ .malformedDottedPair ∧ (∀ d ∈ pieces, d.Free f) ∧ ∀ d ∈ trailing, d.Free f := by
  refine forall_tail.trans (and_congr_left fun _ => ?_)
  simp only [Shape.fault, ne_eq, Option.some.injEq]
  rw [eq_comm]

end Draft

/-! ## Open constructs -/

/-- The pieces do not have the fault, and the tail will not get it. -/
def Tail.Free (f : Fault) (t : Tail) : Prop :=
  (∀ d ∈ t.pieces, d.Free f) ∧ (f = .malformedDottedPair → t.wellFormed = true)

/-- The open construct does not have the fault and will not get it by what it holds. -/
def Frame.Free (f : Fault) : Frame → Prop
  | wrapper w => ∀ d ∈ w.children, d.Free f
  | sequence s => (∀ d ∈ s.children, d.Free f) ∧ ∀ t, s.tail = some t → t.Free f

/-- The constructs on the stack do not have the fault. -/
def Frame.StackFree (f : Fault) (stack : List Frame) : Prop :=
  ∀ frame ∈ stack, frame.Free f

theorem Frame.stackFree_cons {frame : Frame} {stack : List Frame} :
    StackFree f (frame :: stack) ↔ frame.Free f ∧ StackFree f stack :=
  List.forall_mem_cons

namespace Wrapper

variable {w : Wrapper} {item : Draft}

theorem free_add (h : (Frame.wrapper (w.add item)).Free f) :
    (Frame.wrapper w).Free f ∧ item.Free f := by
  obtain ⟨hitem, hchildren⟩ := List.forall_mem_cons.mp h
  exact ⟨hchildren, hitem⟩

theorem free_complete (h : (w.complete item).Free f) :
    (Frame.wrapper w).Free f ∧ item.Free f := by
  obtain ⟨-, hall⟩ := Draft.free_branch.mp h
  simp only [List.mem_reverse, List.forall_mem_cons] at hall
  exact ⟨hall.2, hall.1⟩

theorem free_fail (h : w.fail.Free f) : (Frame.wrapper w).Free f := by
  obtain ⟨-, hall⟩ := Draft.free_branch.mp h
  simp only [List.mem_reverse, List.forall_mem_cons] at hall
  exact hall.2

end Wrapper

namespace Tail

variable {t : Tail} {item : Draft} {role : Role}

theorem free_add (h : (t.add item role).Free f) : t.Free f ∧ item.Free f := by
  obtain ⟨hpieces, hformed⟩ := h
  cases role with
  | trivia =>
    obtain ⟨hitem, hpieces⟩ := List.forall_mem_cons.mp hpieces
    exact ⟨⟨hpieces, hformed⟩, hitem⟩
  | datum =>
    obtain ⟨hitem, hpieces⟩ := List.forall_mem_cons.mp hpieces
    refine ⟨⟨hpieces, ?_⟩, hitem⟩
    intro hf
    have hand := hformed hf
    simp only [add, Bool.and_eq_true] at hand
    exact hand.1

theorem free_addDot {n : Nat} {dot : Draft} (h : (t.addDot n dot).Free f) : t.Free f := by
  obtain ⟨hpieces, hformed⟩ := h
  refine ⟨(List.forall_mem_cons.mp hpieces).2, ?_⟩
  intro hf
  have hand := hformed hf
  simp only [addDot, Bool.and_eq_true] at hand
  exact hand.1.1

theorem free_finish (h : ∀ d ∈ t.finish, d.Free f) : t.Free f := by
  unfold finish at h
  split at h
  · rename_i hand
    simp only [Bool.and_eq_true] at hand
    refine ⟨?_, fun _ => hand.1⟩
    intro d hd
    exact h d (List.mem_reverse.mpr hd)
  · -- the error around the pieces is the fault that they would be free of
    obtain ⟨hf, hpieces, htrailing⟩ := Draft.free_tail.mp (h _ List.mem_cons_self)
    refine ⟨?_, fun hf' => absurd hf' hf⟩
    intro d hd
    rw [← List.takeWhile_append_dropWhile (p := Draft.isTrivia) (l := t.pieces)] at hd
    rcases List.mem_append.mp hd with hd | hd
    · exact htrailing d (List.mem_reverse.mpr hd)
    · exact hpieces d (List.mem_reverse.mpr hd)

end Tail

namespace Sequence

variable {s : Sequence} {item : Draft} {role : Role} {config : Config} {l : Lexeme}

theorem free_add (h : (Frame.sequence (s.add item role)).Free f) :
    (Frame.sequence s).Free f ∧ item.Free f := by
  obtain ⟨opener, children, seen, tail⟩ := s
  obtain ⟨hchildren, htail⟩ := h
  cases tail with
  | none =>
    obtain ⟨hitem, hchildren⟩ := List.forall_mem_cons.mp hchildren
    exact ⟨⟨hchildren, nofun⟩, hitem⟩
  | some t =>
    obtain ⟨ht, hitem⟩ := Tail.free_add (htail _ rfl)
    refine ⟨⟨hchildren, ?_⟩, hitem⟩
    intro t' ht'
    cases ht'
    exact ht

theorem free_addDot (h : (Frame.sequence (s.addDot config l)).Free f) :
    (Frame.sequence s).Free f := by
  obtain ⟨opener, children, seen, tail⟩ := s
  cases tail with
  | some t =>
    refine ⟨h.1, ?_⟩
    intro t' ht'
    cases ht'
    exact Tail.free_addDot (h.2 _ rfl)
  | none =>
    refine ⟨?_, nofun⟩
    simp only [addDot] at h
    split at h
    · exact h.1
    · exact (List.forall_mem_cons.mp h.1).2

theorem free_body (h : ∀ d ∈ s.body, d.Free f) : (Frame.sequence s).Free f := by
  refine ⟨?_, ?_⟩
  · intro d hd
    exact h d (List.mem_append_left _ (List.mem_reverse.mpr hd))
  · intro t ht
    refine Tail.free_finish fun d hd => h d (List.mem_append_right _ ?_)
    rw [ht]
    exact hd

theorem free_close (h : (s.close config l).Free f) : (Frame.sequence s).Free f := by
  obtain ⟨-, hall⟩ := Draft.free_branch.mp h
  exact free_body fun d hd => hall d (List.mem_append_left _ hd)

theorem free_unclosed (h : s.unclosed.Free f) : (Frame.sequence s).Free f := by
  obtain ⟨-, hall⟩ := Draft.free_branch.mp h
  exact free_body fun d hd => hall d (List.mem_append_left _ hd)

end Sequence

/-! ## The reader -/

namespace Read

open RacketTree.Frame (StackFree stackFree_cons)

variable {config : Config} {outer : Nat} {item d : Draft} {role : Role} {top : Frame}
  {rest stack : List Frame} {l : Lexeme} {ls : List Lexeme}

/-- The item or the constructs do not have the fault. -/
def Delivered.Free (f : Fault) : Delivered → Prop
  | .item d => d.Free f
  | .inside top rest => StackFree f (top :: rest)

/-- The item or the constructs do not have the fault. -/
def Settled.Free (f : Fault) : Settled → Prop
  | .item d => d.Free f
  | .sequence s rest => StackFree f (.sequence s :: rest)

theorem free_deliver (h : (deliver item role stack).Free f) : StackFree f stack ∧ item.Free f := by
  fun_induction deliver item role stack with
  | case1 item => exact ⟨List.forall_mem_nil _, h⟩
  | case2 item role s rest =>
    obtain ⟨hs, hrest⟩ := stackFree_cons.mp h
    obtain ⟨hs, hitem⟩ := Sequence.free_add hs
    exact ⟨stackFree_cons.mpr ⟨hs, hrest⟩, hitem⟩
  | case3 item w rest =>
    obtain ⟨hw, hrest⟩ := stackFree_cons.mp h
    obtain ⟨hw, hitem⟩ := Wrapper.free_add hw
    exact ⟨stackFree_cons.mpr ⟨hw, hrest⟩, hitem⟩
  | case4 item w rest ih =>
    obtain ⟨hrest, hcomplete⟩ := ih h
    obtain ⟨hw, hitem⟩ := Wrapper.free_complete hcomplete
    exact ⟨stackFree_cons.mpr ⟨hw, hrest⟩, hitem⟩

theorem free_settleWith (h : (settleWith item role stack).Free f) :
    StackFree f stack ∧ item.Free f := by
  fun_induction settleWith item role stack with
  | case1 item => exact ⟨List.forall_mem_nil _, h⟩
  | case2 item role s rest =>
    obtain ⟨hs, hrest⟩ := stackFree_cons.mp h
    obtain ⟨hs, hitem⟩ := Sequence.free_add hs
    exact ⟨stackFree_cons.mpr ⟨hs, hrest⟩, hitem⟩
  | case3 item w rest ih =>
    obtain ⟨hrest, hfail⟩ := ih h
    obtain ⟨hw, hitem⟩ := Wrapper.free_add (Wrapper.free_fail hfail)
    exact ⟨stackFree_cons.mpr ⟨hw, hrest⟩, hitem⟩
  | case4 item w rest ih =>
    obtain ⟨hrest, hcomplete⟩ := ih h
    obtain ⟨hw, hitem⟩ := Wrapper.free_complete hcomplete
    exact ⟨stackFree_cons.mpr ⟨hw, hrest⟩, hitem⟩

theorem free_settle (h : (settle top rest).Free f) : StackFree f (top :: rest) := by
  cases top with
  | sequence s => exact h
  | wrapper w =>
    obtain ⟨hrest, hfail⟩ := free_settleWith h
    exact stackFree_cons.mpr ⟨Wrapper.free_fail hfail, hrest⟩

theorem free_finishWith (h : (finishWith item role stack).Free f) :
    StackFree f stack ∧ item.Free f := by
  fun_induction finishWith item role stack with
  | case1 item => exact ⟨List.forall_mem_nil _, h⟩
  | case2 item role s rest ih =>
    obtain ⟨hrest, hunclosed⟩ := ih h
    obtain ⟨hs, hitem⟩ := Sequence.free_add (Sequence.free_unclosed hunclosed)
    exact ⟨stackFree_cons.mpr ⟨hs, hrest⟩, hitem⟩
  | case3 item w rest ih =>
    obtain ⟨hrest, hfail⟩ := ih h
    obtain ⟨hw, hitem⟩ := Wrapper.free_add (Wrapper.free_fail hfail)
    exact ⟨stackFree_cons.mpr ⟨hw, hrest⟩, hitem⟩
  | case4 item w rest ih =>
    obtain ⟨hrest, hcomplete⟩ := ih h
    obtain ⟨hw, hitem⟩ := Wrapper.free_complete hcomplete
    exact ⟨stackFree_cons.mpr ⟨hw, hrest⟩, hitem⟩

theorem free_finish (h : (finish top rest).Free f) : StackFree f (top :: rest) := by
  cases top with
  | sequence s =>
    obtain ⟨hrest, hunclosed⟩ := free_finishWith h
    exact stackFree_cons.mpr ⟨Sequence.free_unclosed hunclosed, hrest⟩
  | wrapper w =>
    obtain ⟨hrest, hfail⟩ := free_finishWith h
    exact stackFree_cons.mpr ⟨Wrapper.free_fail hfail, hrest⟩

theorem free_tooDeep (h : (tooDeep ls).Free f) : f ≠ .nestingTooDeep := by
  rintro rfl
  exact Draft.free_leaf.mp h rfl

/-- What the depth limit has cut off is an error in the item. -/
theorem free_overflow (h : (overflow top rest l ls).Free f) :
    StackFree f (top :: rest) ∧ f ≠ .nestingTooDeep := by
  rw [overflow_eq] at h
  obtain ⟨hstack, hdeep⟩ := free_finishWith h
  exact ⟨hstack, free_tooDeep hdeep⟩

theorem free_outcome {r : Delivered} (hout : outcome config outer top rest l = .taken r)
    (h : r.Free f) : StackFree f (top :: rest) := by
  rcases outcome_cases config outer top rest l with
    ⟨_, -, -, hout'⟩ | ⟨s, below, -, hs, hout'⟩ | ⟨s, below, -, hs, hout'⟩ | ⟨_, -, -, -, hout'⟩ |
      ⟨frame, -, -, -, hout'⟩ | ⟨-, -, hout'⟩ <;> rw [hout'] at hout <;> cases hout
  · obtain ⟨hbelow, hclose⟩ := free_deliver h
    apply free_settle
    rw [hs]
    exact stackFree_cons.mpr ⟨Sequence.free_close hclose, hbelow⟩
  · obtain ⟨hdot, hbelow⟩ := stackFree_cons.mp h
    apply free_settle
    rw [hs]
    exact stackFree_cons.mpr ⟨Sequence.free_addDot hdot, hbelow⟩
  · exact (stackFree_cons.mp h).2
  · exact (free_deliver h).1

/-- An item without the fault has been read from constructs without it. -/
theorem Run.free {used : List Lexeme} {e : Ending} (run : Run config outer top rest used e d)
    (h : d.Free f) : StackFree f (top :: rest) := by
  induction run with
  | complete hout => exact free_outcome hout h
  | dangling hs =>
    apply free_settle
    rw [hs]
    exact h
  | cut top rest => exact free_finish h
  | overflow ls hout => exact (free_overflow h).1
  | step hout run ih => exact free_outcome hout (ih h)

end Read

end RacketTree

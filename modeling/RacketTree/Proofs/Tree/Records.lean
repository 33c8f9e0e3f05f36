import Mathlib.Algebra.GroupWithZero.Nat
import RacketTree.Proofs.Tree.View

/-!
# Records of an arena

`Arena.WellFormed` says what every record of an arena is: a leaf with the width of its text, or a
branch whose children come before it and whose width and faults are those of its children. Adding
leaves, branches around earlier records and drafts keeps this (`WellFormed.leaf`,
`WellFormed.branch`, `WellFormed.storeAll`).

In a well-formed arena a node depends only on records up to its own, so it is the same in every
arena that has grown from it (`view_extends`).
-/

namespace RacketTree

/-- A leaf is as wide as its text, has no children, and has a fault in it if it has one itself. -/
def Record.IsLeaf (r : Record) : Prop :=
  ∃ text, r.text? = some text ∧ r.width = text.length ∧ r.children = [] ∧
    (r.hasFault = true ↔ r.fault ≠ none)

namespace Arena

/-- A branch comes after its children, is as wide as they are together, and has a fault in it if it
has one itself or a child has one in it. -/
def IsBranch (a : Arena) (h : Handle) (r : Record) : Prop :=
  r.text? = none ∧ (∀ c ∈ r.children, c < h) ∧ r.width = (r.children.map a.width).sum ∧
    (r.hasFault = true ↔ r.fault ≠ none ∨ ∃ c ∈ r.children, a.hasFault c = true)

/-- Every record is a leaf or a branch. -/
def WellFormed (a : Arena) : Prop :=
  ∀ h r, a.get? h = some r → r.IsLeaf ∨ a.IsBranch h r

variable {a b : Arena}

theorem lt_size_of_get? {h : Handle} {r : Record} (hr : a.get? h = some r) : h < a.size :=
  (Array.getElem?_eq_some_iff.mp hr).1

theorem exists_get? {h : Handle} (hlt : h < a.size) : ∃ r, a.get? h = some r :=
  ⟨a.records[h], Array.getElem?_eq_getElem hlt⟩

theorem get?_empty (h : Handle) : empty.get? h = none := by
  simp [get?, empty]

theorem widths_eq_sum (a : Arena) (hs : List Handle) : a.widths hs = (hs.map a.width).sum := by
  induction hs with
  | nil => rfl
  | cons h hs ih => simp [widths, ih]

theorem Extends.get?_eq (hab : a.Extends b) {h : Handle} (hlt : h < a.size) :
    b.get? h = a.get? h := by
  obtain ⟨r, hr⟩ := exists_get? hlt
  rw [hr, hab h r hr]

theorem Extends.width_eq (hab : a.Extends b) {h : Handle} (hlt : h < a.size) :
    b.width h = a.width h := by
  rw [Arena.width, Arena.width, hab.get?_eq hlt]

theorem Extends.hasFault_eq (hab : a.Extends b) {h : Handle} (hlt : h < a.size) :
    b.hasFault h = a.hasFault h := by
  rw [Arena.hasFault, Arena.hasFault, hab.get?_eq hlt]

theorem Extends.size_le (hab : a.Extends b) : a.size ≤ b.size := by
  by_contra hlt
  obtain ⟨r, hr⟩ := exists_get? (Nat.lt_of_not_le hlt)
  exact Nat.lt_irrefl _ (lt_size_of_get? (hab _ r hr))

/-- A branch of an arena is one of every arena that has grown from it. -/
theorem IsBranch.mono {h : Handle} {r : Record} (hr : a.IsBranch h r) (hab : a.Extends b)
    (hlt : h ≤ a.size) : b.IsBranch h r := by
  obtain ⟨htext, hbelow, hwidth, hfault⟩ := hr
  have hsize : ∀ c ∈ r.children, c < a.size := fun c hc => Nat.lt_of_lt_of_le (hbelow c hc) hlt
  refine ⟨htext, hbelow, ?_, ?_⟩
  · rw [hwidth]
    congr 1
    exact List.map_congr_left fun c hc => (hab.width_eq (hsize c hc)).symm
  · rw [hfault]
    refine or_congr_right (exists_congr fun c => and_congr_right fun hc => ?_)
    rw [hab.hasFault_eq (hsize c hc)]

/-! ## Growing -/

theorem WellFormed.push (hwf : a.WellFormed) {r : Record} (hr : r.IsLeaf ∨ a.IsBranch a.size r) :
    (a.push r).WellFormed := by
  intro h s hs
  have hext := extends_push a r
  have hlt := lt_size_of_get? hs
  rw [size_push] at hlt
  rcases Nat.lt_succ_iff_lt_or_eq.mp hlt with hold | rfl
  · have hs' : a.get? h = some s := by rw [← hext.get?_eq hold, hs]
    exact (hwf h s hs').imp_right fun hbranch => hbranch.mono hext (Nat.le_of_lt hold)
  · rw [get?_push_size] at hs
    cases hs
    exact hr.imp_right fun hbranch => hbranch.mono hext (Nat.le_refl _)

theorem wellFormed_empty : empty.WellFormed := by
  intro h r hr
  rw [get?_empty] at hr
  cases hr

theorem WellFormed.leaf (hwf : a.WellFormed) (kind : Kind) (text : List Char)
    (fault : Option Fault) : (a.leaf kind text fault).WellFormed := by
  refine hwf.push (.inl ⟨text, rfl, rfl, rfl, ?_⟩)
  cases fault <;> simp

theorem WellFormed.branch (hwf : a.WellFormed) (kind : Kind) {children : List Handle}
    (fault : Option Fault) (hbelow : ∀ c ∈ children, c < a.size) :
    (a.branch kind children fault).WellFormed := by
  refine hwf.push (.inr ⟨rfl, hbelow, a.widths_eq_sum children, ?_⟩)
  cases fault <;> simp

theorem lt_size_storeAll (a : Arena) (ds : List Draft) :
    ∀ h ∈ (a.storeAll ds).2, h < (a.storeAll ds).1.size :=
  (a.holdsAll_storeAll ds).2.2.lt

theorem size_le_storeAll (a : Arena) (ds : List Draft) : a.size ≤ (a.storeAll ds).1.size :=
  (a.holdsAll_storeAll ds).2.1

theorem extends_storeAll (a : Arena) (ds : List Draft) : a.Extends (a.storeAll ds).1 :=
  (a.holdsAll_storeAll ds).1

mutual

theorem WellFormed.store {a : Arena} (hwf : a.WellFormed) :
    (d : Draft) → (a.store d).1.WellFormed
  | .leaf kind text fault => hwf.leaf kind text fault
  | .branch kind children fault =>
    (hwf.storeAll children).branch kind fault (a.lt_size_storeAll children)
  | .tail pieces trailing => by
    have htrailing := (hwf.storeAll pieces).storeAll trailing
    refine htrailing.branch .error (some .malformedDottedPair) fun c hc => ?_
    exact Nat.lt_of_lt_of_le (a.lt_size_storeAll pieces c hc) (size_le_storeAll _ trailing)

/-- Storing drafts keeps an arena well-formed. -/
theorem WellFormed.storeAll {a : Arena} (hwf : a.WellFormed) :
    (ds : List Draft) → (a.storeAll ds).1.WellFormed
  | [] => hwf
  | d :: ds => (hwf.store d).storeAll ds

end

/-! ## Nodes -/

theorem WellFormed.children_lt (hwf : a.WellFormed) {h : Handle} {r : Record}
    (hr : a.get? h = some r) : ∀ c ∈ r.children, c < h := by
  rcases hwf h r hr with ⟨text, -, -, hnone, -⟩ | ⟨-, hbelow, -⟩
  · simp [hnone]
  · exact hbelow

/-- In a well-formed arena the node of a record has all its children. -/
theorem WellFormed.view_eq (hwf : a.WellFormed) {h : Handle} {r : Record}
    (hr : a.get? h = some r) (start : Nat) :
    a.view h start =
      { handle := h, kind := r.kind, start, width := r.width, text? := r.text?, fault := r.fault
        hasFault := r.hasFault, children := a.viewAll start r.children } := by
  rw [view, hr]
  simp only [viewAll_eq start r.children (hwf.children_lt hr)]

/-- A node stays the same while the arena grows. -/
theorem view_extends (hwf : a.WellFormed) (hwf' : b.WellFormed) (hab : a.Extends b) {h : Handle}
    (hlt : h < a.size) (start : Nat) : b.view h start = a.view h start := by
  -- the children come before `h`, and their widths stay
  induction h using Nat.strongRecOn generalizing start with
  | ind h ih =>
    obtain ⟨r, hr⟩ := exists_get? hlt
    have hbelow := hwf.children_lt hr
    have hchildren : ∀ (cs : List Handle) (pos : Nat), (∀ c ∈ cs, c < h) →
        b.viewAll pos cs = a.viewAll pos cs := by
      intro cs
      induction cs with
      | nil => exact fun _ _ => rfl
      | cons c cs ihcs =>
        intro pos hcs
        have hc := hcs c List.mem_cons_self
        have hsize := Nat.lt_trans hc hlt
        rw [viewAll, viewAll, ih c hc hsize pos, hab.width_eq hsize,
          ihcs _ fun d hd => hcs d (List.mem_cons_of_mem _ hd)]
    rw [hwf.view_eq hr, hwf'.view_eq (hab h r hr), hchildren r.children start hbelow]

end Arena

end RacketTree

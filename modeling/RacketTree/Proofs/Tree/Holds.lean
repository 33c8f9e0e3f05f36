import Mathlib.Data.List.Forall2
import RacketTree.Proofs.Tree.Shape
import RacketTree.Tree.Arena

/-!
# Trees in an arena

`Arena.Holds` relates a handle to the tree below it: each record has the kind, width, text and fault
of its place in the tree, and children that come before it. An arena that grows holds what it held
(`Holds.mono`), and storing drafts adds the trees that they stand for (`holdsAll_storeAll`).

Two records hold one tree if and only if `Arena.same` says so (`same_iff`).
-/

namespace RacketTree.Arena

/-- Every record of `a` is a record of `b`. -/
def Extends (a b : Arena) : Prop :=
  ∀ h r, a.get? h = some r → b.get? h = some r

theorem Extends.refl (a : Arena) : a.Extends a :=
  fun _ _ h => h

theorem Extends.trans {a b c : Arena} (hab : a.Extends b) (hbc : b.Extends c) : a.Extends c :=
  fun h r hr => hbc h r (hab h r hr)

theorem get?_push_size (a : Arena) (r : Record) : (a.push r).get? a.size = some r := by
  simp [get?, push, size]

theorem extends_push (a : Arena) (r : Record) : a.Extends (a.push r) := by
  intro h s hs
  have hlt : h < a.records.size := (Array.getElem?_eq_some_iff.mp hs).1
  rw [get?, push, Array.getElem?_push, if_neg (Nat.ne_of_lt hlt)]
  exact hs

theorem size_push (a : Arena) (r : Record) : (a.push r).size = a.size + 1 := by
  simp [size, push]

mutual

/-- The tree below the record at a handle. -/
def Holds (a : Arena) (h : Handle) : Shape → Prop
  | .leaf kind text fault =>
    ∃ r, a.get? h = some r ∧ r.kind = kind ∧ r.width = text.length ∧ r.text? = some text ∧
      r.fault = fault ∧ r.children = []
  | .branch kind children fault =>
    ∃ r, a.get? h = some r ∧ r.kind = kind ∧ r.width = (Shape.texts children).length ∧
      r.text? = none ∧ r.fault = fault ∧ a.HoldsAll h r.children children

/-- The trees below several records that come before `bound`. -/
def HoldsAll (a : Arena) (bound : Nat) (hs : List Handle) : List Shape → Prop
  | [] => hs = []
  | s :: ss => ∃ h rest, hs = h :: rest ∧ h < bound ∧ a.Holds h s ∧ a.HoldsAll bound rest ss

end

mutual

theorem Holds.mono {a b : Arena} (hab : a.Extends b) {h : Handle} :
    {s : Shape} → a.Holds h s → b.Holds h s
  | .leaf .., ⟨r, hr, hfields⟩ => ⟨r, hab h r hr, hfields⟩
  | .branch .., ⟨r, hr, hk, hw, ht, hf, hcs⟩ =>
    ⟨r, hab h r hr, hk, hw, ht, hf, HoldsAll.mono hab (Nat.le_refl _) hcs⟩

theorem HoldsAll.mono {a b : Arena} (hab : a.Extends b) {m n : Nat} (hmn : m ≤ n)
    {hs : List Handle} : {ss : List Shape} → a.HoldsAll m hs ss → b.HoldsAll n hs ss
  | [], h => h
  | _ :: _, ⟨h, rest, hhs, hlt, hfirst, hrest⟩ =>
    ⟨h, rest, hhs, Nat.lt_of_lt_of_le hlt hmn, Holds.mono hab hfirst, HoldsAll.mono hab hmn hrest⟩

end

variable {a b : Arena} {n : Nat} {hs hs' : List Handle} {ss ss' : List Shape}

theorem HoldsAll.append (h : a.HoldsAll n hs ss) (h' : a.HoldsAll n hs' ss') :
    a.HoldsAll n (hs ++ hs') (ss ++ ss') := by
  induction ss generalizing hs with
  | nil =>
    cases h
    exact h'
  | cons s ss ih =>
    obtain ⟨x, rest, rfl, hlt, hx, hrest⟩ := h
    exact ⟨x, rest ++ hs', rfl, hlt, hx, ih hrest⟩

theorem HoldsAll.take (h : a.HoldsAll n hs ss) (k : Nat) :
    a.HoldsAll n (hs.take k) (ss.take k) := by
  induction ss generalizing hs k with
  | nil =>
    cases h
    simp [HoldsAll]
  | cons s ss ih =>
    obtain ⟨x, rest, rfl, hlt, hx, hrest⟩ := h
    cases k with
    | zero => rfl
    | succ k => exact ⟨x, rest.take k, rfl, hlt, hx, ih hrest k⟩

theorem HoldsAll.drop (h : a.HoldsAll n hs ss) (k : Nat) :
    a.HoldsAll n (hs.drop k) (ss.drop k) := by
  induction ss generalizing hs k with
  | nil =>
    cases h
    simp [HoldsAll]
  | cons s ss ih =>
    obtain ⟨x, rest, rfl, hlt, hx, hrest⟩ := h
    cases k with
    | zero => exact ⟨x, rest, rfl, hlt, hx, hrest⟩
    | succ k => exact ih hrest k

theorem HoldsAll.length_eq (h : a.HoldsAll n hs ss) : hs.length = ss.length := by
  induction ss generalizing hs with
  | nil =>
    cases h
    rfl
  | cons s ss ih =>
    obtain ⟨x, rest, rfl, -, -, hrest⟩ := h
    rw [List.length_cons, List.length_cons, ih hrest]

theorem Holds.width {h : Handle} {s : Shape} (hold : a.Holds h s) : a.width h = s.text.length := by
  cases s <;> obtain ⟨r, hr, -, hw, -⟩ := hold <;> simp [Arena.width, hr, hw, Shape.text]

theorem HoldsAll.widths (h : a.HoldsAll n hs ss) : a.widths hs = (Shape.texts ss).length := by
  induction ss generalizing hs with
  | nil =>
    cases h
    rfl
  | cons s ss ih =>
    obtain ⟨x, rest, rfl, -, hx, hrest⟩ := h
    simp [Arena.widths, Shape.texts, hx.width, ih hrest]

theorem HoldsAll.width_pos (hall : a.HoldsAll n hs ss) (hne : ∀ s ∈ ss, s.text ≠ []) :
    ∀ h ∈ hs, 0 < a.width h := by
  induction ss generalizing hs with
  | nil =>
    cases hall
    simp
  | cons s ss ih =>
    obtain ⟨x, rest, rfl, -, hx, hrest⟩ := hall
    intro h hh
    rcases List.mem_cons.mp hh with rfl | hh
    · rw [hx.width]
      exact List.length_pos_of_ne_nil (hne s List.mem_cons_self)
    · exact ih hrest (fun s hs => hne s (List.mem_cons_of_mem _ hs)) h hh

theorem Holds.lt_size {h : Handle} {s : Shape} (hold : a.Holds h s) : h < a.size := by
  have hlt : ∀ r, a.get? h = some r → h < a.size := fun r hr => (Array.getElem?_eq_some_iff.mp hr).1
  cases s <;> obtain ⟨r, hr, -⟩ := hold <;> exact hlt r hr

/-! ## Storing -/

theorem holds_leaf (a : Arena) (kind : Kind) (text : List Char) (fault : Option Fault) :
    (a.leaf kind text fault).Holds a.size (.leaf kind text fault) :=
  ⟨_, get?_push_size _ _, rfl, rfl, rfl, rfl, rfl⟩

theorem holds_branch (kind : Kind) (fault : Option Fault) (h : a.HoldsAll a.size hs ss) :
    (a.branch kind hs fault).Holds a.size (.branch kind ss fault) :=
  ⟨_, get?_push_size _ _, rfl, h.widths, rfl, rfl, h.mono (extends_push _ _) (Nat.le_refl _)⟩

theorem HoldsAll.single {h : Handle} {s : Shape} (hold : a.Holds h s) (hlt : h < n) :
    a.HoldsAll n [h] [s] :=
  ⟨h, [], rfl, hlt, hold, rfl⟩

mutual

/-- Storing a draft adds the trees that it stands for. -/
theorem holdsAll_store (a : Arena) : (d : Draft) →
    a.Extends (a.store d).1 ∧ a.size ≤ (a.store d).1.size ∧
      (a.store d).1.HoldsAll (a.store d).1.size (a.store d).2 d.shapes
  | .leaf kind text fault => by
    refine ⟨extends_push _ _, by simp [store, Arena.leaf, size_push], ?_⟩
    simp only [store, Draft.shapes]
    exact .single (holds_leaf a kind text fault) (by simp [Arena.leaf, size_push])
  | .branch kind children fault => by
    obtain ⟨hext, hsize, hall⟩ := holdsAll_storeAll a children
    simp only [store, Draft.shapes]
    refine ⟨hext.trans (extends_push _ _), by simp only [branch, size_push]; omega, ?_⟩
    exact .single (holds_branch kind fault hall) (by simp [branch, size_push])
  | .tail pieces trailing => by
    obtain ⟨hext, hsize, hall⟩ := holdsAll_storeAll a pieces
    obtain ⟨hext', hsize', hall'⟩ := holdsAll_storeAll (a.storeAll pieces).1 trailing
    simp only [store, Draft.shapes]
    refine ⟨(hext.trans hext').trans (extends_push _ _), by simp only [branch, size_push]; omega,
      ?_⟩
    have hpieces := holds_branch .error (some .malformedDottedPair) (hall.mono hext' hsize')
    refine ⟨_, _, rfl, by simp [branch, size_push], hpieces, hall'.mono (extends_push _ _) ?_⟩
    simp [branch, size_push]

/-- Storing drafts adds the trees that they stand for. -/
theorem holdsAll_storeAll (a : Arena) : (ds : List Draft) →
    a.Extends (a.storeAll ds).1 ∧ a.size ≤ (a.storeAll ds).1.size ∧
      (a.storeAll ds).1.HoldsAll (a.storeAll ds).1.size (a.storeAll ds).2 (Draft.allShapes ds)
  | [] => ⟨Extends.refl a, Nat.le_refl _, rfl⟩
  | d :: ds => by
    obtain ⟨hext, hsize, hall⟩ := holdsAll_store a d
    obtain ⟨hext', hsize', hall'⟩ := holdsAll_storeAll (a.store d).1 ds
    simp only [storeAll, Draft.allShapes]
    exact ⟨hext.trans hext', by omega, (hall.mono hext' hsize').append hall'⟩

end

/-! ## Comparing -/

theorem same_eq {x y : Handle} {r t : Record} (hr : a.get? x = some r) (ht : b.get? y = some t) :
    a.same b x y = true ↔ r.kind = t.kind ∧ r.width = t.width ∧ r.text? = t.text? ∧
      r.fault = t.fault ∧
      List.Forall₂ (fun c d => c < x ∧ a.same b c d = true) r.children t.children := by
  rw [same, hr, ht, List.forall₂_iff_zip]
  simp only [Bool.and_eq_true, beq_iff_eq, List.all_eq_true, and_assoc, Prod.forall]
  refine and_congr_right fun _ => and_congr_right fun _ => and_congr_right fun _ =>
    and_congr_right fun _ => and_congr_right fun _ => ?_
  constructor
  · intro h c d hmem
    have hcd := h c d hmem
    split at hcd
    · exact ⟨‹_›, hcd⟩
    · cases hcd
  · intro h c d hmem
    obtain ⟨hlt, hsame⟩ := h hmem
    rw [dif_pos hlt]
    exact hsame

mutual

/-- A record is the same as one that holds `s` if and only if it holds `s`. -/
theorem same_iff {a b : Arena} {x y : Handle} :
    {s : Shape} → b.Holds y s → (a.same b x y = true ↔ a.Holds x s)
  | .leaf kind text fault, ⟨t, ht, hk, hw, htx, hf, hcs⟩ => by
    cases hr : a.get? x with
    | none => simp [same, Holds, hr]
    | some r =>
      rw [same_eq hr ht, hk, hw, htx, hf, hcs]
      simp [Holds, hr]
  | .branch kind children fault, ⟨t, ht, hk, hw, htx, hf, hcs⟩ => by
    cases hr : a.get? x with
    | none => simp [same, Holds, hr]
    | some r =>
      rw [same_eq hr ht, hk, hw, htx, hf, sameAll_iff hcs]
      simp [Holds, hr]

theorem sameAll_iff {a b : Arena} {m n : Nat} {xs ys : List Handle} :
    {ss : List Shape} → b.HoldsAll n ys ss →
      (List.Forall₂ (fun c d => c < m ∧ a.same b c d = true) xs ys ↔ a.HoldsAll m xs ss)
  | [], h => by
    cases h
    rw [List.forall₂_nil_right_iff]
    rfl
  | s :: ss, ⟨d, rest, hhs, hlt, hd, hrest⟩ => by
    rw [hhs, List.forall₂_cons_right_iff, HoldsAll]
    constructor
    · rintro ⟨c, cs, ⟨hc, hsame⟩, hcs, rfl⟩
      exact ⟨c, cs, rfl, hc, (same_iff hd).mp hsame, (sameAll_iff hrest).mp hcs⟩
    · rintro ⟨c, cs, rfl, hc, hhold, hcs⟩
      exact ⟨c, cs, ⟨hc, (same_iff hd).mpr hhold⟩, (sameAll_iff hrest).mpr hcs, rfl⟩

end

mutual

theorem Holds.unique {a : Arena} {h : Handle} : {s s' : Shape} → a.Holds h s → a.Holds h s' → s = s'
  | .leaf .., .leaf .., ⟨r, hr, hk, _, ht, hf, _⟩, ⟨r', hr', hk', _, ht', hf', _⟩ => by
    cases hr.symm.trans hr'
    cases ht.symm.trans ht'
    rw [← hk, ← hk', ← hf, ← hf']
  | .branch .., .branch .., ⟨r, hr, hk, _, _, hf, hcs⟩, ⟨r', hr', hk', _, _, hf', hcs'⟩ => by
    cases hr.symm.trans hr'
    rw [← hk, ← hk', ← hf, ← hf', HoldsAll.unique hcs hcs']
  | .leaf .., .branch .., ⟨r, hr, _, _, ht, _⟩, ⟨r', hr', _, _, ht', _⟩ => by
    cases hr.symm.trans hr'
    cases ht.symm.trans ht'
  | .branch .., .leaf .., ⟨r, hr, _, _, ht, _⟩, ⟨r', hr', _, _, ht', _⟩ => by
    cases hr.symm.trans hr'
    cases ht.symm.trans ht'

theorem HoldsAll.unique {a : Arena} {m n : Nat} {xs : List Handle} :
    {ss ss' : List Shape} → a.HoldsAll n xs ss → a.HoldsAll m xs ss' → ss = ss'
  | [], [], _, _ => rfl
  | [], _ :: _, h, ⟨x, rest, hhs, _⟩ => by
    cases h.symm.trans hhs
  | _ :: _, [], ⟨x, rest, hhs, _⟩, h => by
    cases h.symm.trans hhs
  | _ :: _, _ :: _, ⟨x, rest, hhs, _, hx, hrest⟩, ⟨x', rest', hhs', _, hx', hrest'⟩ => by
    cases hhs.symm.trans hhs'
    rw [Holds.unique hx hx', HoldsAll.unique hrest hrest']

end

/-! ## Last leaves -/

theorem HoldsAll.of_append (h : a.HoldsAll n hs (ss ++ ss')) :
    ∃ front back, hs = front ++ back ∧ a.HoldsAll n front ss ∧ a.HoldsAll n back ss' := by
  induction ss generalizing hs with
  | nil => exact ⟨[], hs, rfl, rfl, h⟩
  | cons s ss ih =>
    obtain ⟨x, rest, rfl, hlt, hx, hrest⟩ := h
    obtain ⟨front, back, rfl, hfront, hback⟩ := ih hrest
    exact ⟨x :: front, back, rfl, ⟨x, front, rfl, hlt, hx, hfront⟩, hback⟩

theorem lastLeafKind_of_endsIn {h : Handle} {s : Shape} {k : Kind} {t : List Char}
    (hends : s.EndsIn k t) (hold : a.Holds h s) : a.lastLeafKind h = k := by
  induction hends generalizing h with
  | leaf fault =>
    obtain ⟨r, hr, hk, -, -, -, hcs⟩ := hold
    rw [lastLeafKind, hr]
    simp [hcs, hk]
  | branch outer before fault hends ih =>
    obtain ⟨r, hr, -, -, -, -, hcs⟩ := hold
    obtain ⟨front, back, hback, -, x, _, rfl, hlt, hx, rfl⟩ := hcs.of_append
    rw [lastLeafKind, hr]
    simp [hback, hlt, ih hx]

end RacketTree.Arena

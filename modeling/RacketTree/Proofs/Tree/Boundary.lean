import RacketTree.Proofs.Token.Closed
import RacketTree.Proofs.Tree.Reparse

/-!
# Item boundaries

Nothing before the boundary of an item bears on what is read behind it. The items from a boundary on
are the items of the text that is left, at shifted offsets (`items_from_boundary`); so two texts
that have the same text behind a boundary of each have the same items there.

Nothing behind a boundary bears on the items before it, if the last of them ends with a closing
character. Two texts side by side then have the items of the first and the items of the second
(`items_append_of_closed`).

Nodes of two trees are compared by `Node.Agree`: they are structurally equal one by one, and lie as
far behind an offset of the first text as behind an offset of the second.
-/

namespace RacketTree

/-- Structurally equal nodes of two arenas, as far behind `i` in one text as behind `j` in the
other. -/
def Node.SameAt (a b : Arena) (i j : Nat) (n m : Node) : Prop :=
  n.start + j = m.start + i ∧ a.same b n.handle m.handle = true

/-- Nodes that are the same one by one. -/
def Node.Agree (a b : Arena) (i j : Nat) : List Node → List Node → Prop :=
  List.Forall₂ (Node.SameAt a b i j)

/-- An offset between two items, or the start or the end of the source. -/
def Tree.IsBoundary (t : Tree) (a : Arena) (p : Nat) : Prop :=
  p = 0 ∨ p = t.source.length ∨ ∃ n ∈ t.items a, n.start = p

instance (t : Tree) (a : Arena) (p : Nat) : Decidable (t.IsBoundary a p) :=
  inferInstanceAs (Decidable (p = 0 ∨ p = t.source.length ∨ ∃ n ∈ t.items a, n.start = p))

/-- The items that start at an offset or behind it. -/
def Tree.itemsFrom (t : Tree) (a : Arena) (p : Nat) : List Node :=
  (t.items a).filter fun n => p ≤ n.start

/-! ## Nodes side by side -/

namespace Arena

variable {a b : Arena} {m n : Nat} {hs hs' : List Handle} {ss : List Shape}

/-- Records that hold the same trees are seen as nodes that agree. -/
theorem agree_viewAll (h : a.HoldsAll m hs ss) (h' : b.HoldsAll n hs' ss) {i j x y : Nat}
    (hxy : x + j = y + i) : Node.Agree a b i j (a.viewAll x hs) (b.viewAll y hs') := by
  induction ss generalizing hs hs' x y with
  | nil =>
    cases h
    cases h'
    exact .nil
  | cons s ss ih =>
    obtain ⟨c, rest, rfl, -, hc, hrest⟩ := h
    obtain ⟨d, rest', rfl, -, hd, hrest'⟩ := h'
    have hwidth : a.width c = b.width d := by rw [hc.width, hd.width]
    refine .cons ⟨?_, ?_⟩ (ih hrest hrest' (by omega))
    · rw [start_view, start_view]
      exact hxy
    · rw [handle_view, handle_view]
      exact (same_iff hd).mpr hc

theorem exists_start_of_mem_viewAll {start : Nat} {x : Node} (h : x ∈ a.viewAll start hs) :
    ∃ k, x.start = start + a.widths (hs.take k) := by
  induction hs generalizing start with
  | nil => cases h
  | cons c hs ih =>
    rcases List.mem_cons.mp h with rfl | h
    · exact ⟨0, start_view a c start⟩
    · obtain ⟨k, hk⟩ := ih h
      refine ⟨k + 1, ?_⟩
      rw [hk, List.take_succ_cons, widths, Nat.add_assoc]

theorem start_le_of_mem_viewAll {start : Nat} {x : Node} (h : x ∈ a.viewAll start hs) :
    start ≤ x.start := by
  obtain ⟨k, hk⟩ := exists_start_of_mem_viewAll h
  omega

/-- The nodes that start behind the first `k` of them are the others. -/
theorem filter_viewAll (hpos : ∀ h ∈ hs, 0 < a.width h) (start k : Nat) :
    (a.viewAll start hs).filter (fun x => start + a.widths (hs.take k) ≤ x.start) =
      a.viewAll (start + a.widths (hs.take k)) (hs.drop k) := by
  induction hs generalizing start k with
  | nil => simp [viewAll]
  | cons c hs ih =>
    cases k with
    | zero =>
      refine List.filter_eq_self.mpr ?_
      intro x hx
      have hle := start_le_of_mem_viewAll hx
      simpa [widths] using hle
    | succ k =>
      have hc := hpos c List.mem_cons_self
      have hrest := ih (fun h hh => hpos h (List.mem_cons_of_mem _ hh)) (start + a.width c) k
      have hfirst : ¬start + (a.width c + a.widths (hs.take k)) ≤ (a.view c start).start := by
        rw [start_view]
        omega
      rw [Nat.add_assoc] at hrest
      rw [List.take_succ_cons, List.drop_succ_cons, widths, viewAll, List.filter_cons,
        if_neg (by simpa using hfirst), hrest]

end Arena

/-! ## Items behind a boundary -/

namespace Tree.Covers

variable {t : Tree} {a : Arena} {ss : List Shape}

theorem exists_items (h : t.Covers a ss) :
    ∃ hs, a.HoldsAll t.root hs ss ∧ t.items a = a.viewAll 0 hs := by
  obtain ⟨hs, hall, -, -, -, hchildren⟩ := Arena.view_branch h.holds 0
  exact ⟨hs, hall, by rw [items, node, h.rootStart, hchildren]⟩

/-- A boundary lies behind some number of items, and the others are those from there on. -/
theorem exists_itemsFrom (h : t.Covers a ss) {p : Nat} (hp : t.IsBoundary a p) :
    ∃ k hs, p = (Shape.texts (ss.take k)).length ∧ a.HoldsAll t.root hs (ss.drop k) ∧
      t.itemsFrom a p = a.viewAll p hs := by
  obtain ⟨hs, hall, hitems⟩ := h.exists_items
  have hwidths : ∀ k, a.widths (hs.take k) = (Shape.texts (ss.take k)).length :=
    fun k => (hall.take k).widths
  have hk : ∃ k, p = a.widths (hs.take k) := by
    rcases hp with rfl | rfl | ⟨n, hn, rfl⟩
    · exact ⟨0, rfl⟩
    · refine ⟨hs.length, ?_⟩
      rw [List.take_length, hall.widths, h.text]
    · rw [hitems] at hn
      obtain ⟨k, hk⟩ := Arena.exists_start_of_mem_viewAll hn
      exact ⟨k, by omega⟩
  obtain ⟨k, rfl⟩ := hk
  refine ⟨k, hs.drop k, hwidths k, hall.drop k, ?_⟩
  have hfilter := Arena.filter_viewAll (hall.width_pos h.nonempty) 0 k
  rw [Nat.zero_add] at hfilter
  rw [itemsFrom, hitems, hfilter]

end Tree.Covers

/-- Behind its first `k` items a text has the items of the rest of it. -/
theorem Read.shapes_drop (config : Config) (source : List Char) (k : Nat) :
    Read.shapes config
        (source.drop (Shape.texts ((Read.shapes config source).take k)).length) =
      (Read.shapes config source).drop k := by
  have hsplit := (List.take_append_drop k (readItems config 0 (Token.lexemes source))).symm
  obtain ⟨-, hrest, hsingle⟩ := readItems_split hsplit
  rw [shapes, shapes, ← List.map_take, texts_map_shape hsingle, hrest, List.map_drop]

/-- The items from a boundary on are all the items of the text that is left, and depend on nothing
else: another text with the same text behind one of its boundaries has the same items there. -/
theorem items_from_boundary (config : Config) (source : List Char) {p : Nat}
    (hp : (parse config source).2.IsBoundary (parse config source).1 p) :
    Node.Agree (parse config source).1 (parse config (source.drop p)).1 p 0
        ((parse config source).2.itemsFrom (parse config source).1 p)
        ((parse config (source.drop p)).2.items (parse config (source.drop p)).1) ∧
      ∀ (other : List Char) (q : Nat),
        (parse config other).2.IsBoundary (parse config other).1 q →
        other.drop q = source.drop p →
          Node.Agree (parse config source).1 (parse config other).1 p q
            ((parse config source).2.itemsFrom (parse config source).1 p)
            ((parse config other).2.itemsFrom (parse config other).1 q) := by
  obtain ⟨k, hs, hpk, hall, hfrom⟩ := (covers_parse config source).exists_itemsFrom hp
  have hdrop := Read.shapes_drop config source k
  rw [← hpk] at hdrop
  rw [hfrom]
  constructor
  · obtain ⟨hs', hall', hitems⟩ := (covers_parse config (source.drop p)).exists_items
    rw [hdrop] at hall'
    rw [hitems]
    exact Arena.agree_viewAll hall hall' (by omega)
  · intro other q hq hsame
    obtain ⟨k', hs', hqk, hall', hfrom'⟩ := (covers_parse config other).exists_itemsFrom hq
    have hdrop' := Read.shapes_drop config other k'
    rw [← hqk, hsame, hdrop] at hdrop'
    rw [← hdrop'] at hall'
    rw [hfrom']
    exact Arena.agree_viewAll hall hall' (Nat.add_comm p q)

/-- The list behind a string and the list behind a quoted name. -/
theorem items_from_boundary_list :
    let a := parse .default ['\x22', '\x22', '(', 'x', ')']
    let b := parse .default ['\x27', 'y', '(', 'x', ')']
    a.2.IsBoundary a.1 2 ∧
      Node.Agree a.1 b.1 2 2 (a.2.itemsFrom a.1 2) (b.2.itemsFrom b.1 2) := by
  intro a b
  have ha : a.2.IsBoundary a.1 2 := by decide +kernel
  have hb : b.2.IsBoundary b.1 2 := by decide +kernel
  have hagree := (items_from_boundary .default _ ha).2 _ 2 hb rfl
  exact ⟨ha, hagree⟩

/-! ## Items before a closed boundary -/

/-- The last leaf is not a token that ends with a closing character. -/
def Draft.EndsOpen (d : Draft) : Prop :=
  ∃ k t, d.EndsIn k t ∧ Tree.endsClosed k = false

namespace Read

variable {config : Config} {outer : Nat} {d : Draft}

theorem endsOpen_fail (w : Wrapper) : w.fail.EndsOpen :=
  ⟨_, _, endsIn_fail w, rfl⟩

theorem endsOpen_unclosed (s : Sequence) : s.unclosed.EndsOpen :=
  ⟨_, _, .branch _ _ _ (.leaf none), rfl⟩

theorem endsOpen_finishWith {item : Draft} {role : Role} {stack : List Frame}
    (h : item.EndsOpen) : (finishWith item role stack).EndsOpen := by
  fun_induction finishWith item role stack with
  | case1 item => exact h
  | case2 item role s rest ih => exact ih (endsOpen_unclosed _)
  | case3 item w rest ih => exact ih (endsOpen_fail _)
  | case4 item w rest ih =>
    obtain ⟨k, t, hends, hopen⟩ := h
    exact ih ⟨k, t, endsIn_complete w hends, hopen⟩

theorem endsOpen_finish (top : Frame) (rest : List Frame) : (finish top rest).EndsOpen := by
  cases top with
  | sequence s => exact endsOpen_finishWith (endsOpen_unclosed s)
  | wrapper w => exact endsOpen_finishWith (endsOpen_fail w)

theorem endsOpen_tooDeep (ls : List Lexeme) : (tooDeep ls).EndsOpen :=
  ⟨_, _, .leaf _, rfl⟩

theorem endsOpen_overflow (top : Frame) (rest : List Frame) (l : Lexeme) (ls : List Lexeme) :
    (overflow top rest l ls).EndsOpen := by
  rw [overflow_eq]
  exact endsOpen_finishWith (endsOpen_tooDeep _)

theorem Run.endsOpen_of_cut {top : Frame} {rest : List Frame} {used : List Lexeme}
    (run : Run config outer top rest used .cut d) : d.EndsOpen := by
  generalize he : Ending.cut = e at run
  induction run with
  | complete | dangling => cases he
  | cut top rest => exact endsOpen_finish top rest
  | overflow ls hout => exact endsOpen_overflow _ _ _ ls
  | step hout run ih => exact ih he

/-- Only an item that ends with its last lexeme can end with a closing character. -/
theorem Item.eq_complete {used : List Lexeme} {e : Ending} (item : Item config outer used e d)
    (h : ¬d.EndsOpen) : e = .complete := by
  cases item with
  | lone => rfl
  | deep ls => exact absurd (endsOpen_tooDeep _) h
  | framed hf hdeep run =>
    cases e with
    | complete => rfl
    | dangling => exact absurd ⟨_, _, run.endsIn_of_dangling, rfl⟩ h
    | cut => exact absurd run.endsOpen_of_cut h

/-- Behind an item that ends with a closing character a new text begins. -/
theorem readItems_append_of_closed {a : List Char} {ds : List Draft}
    (h : readItems config outer (Token.lexemes a) = ds ++ [d])
    (hclosed : ∀ k t, d.EndsIn k t → Tree.endsClosed k = true) (b : List Char) :
    readItems config outer (Token.lexemes (a ++ b)) =
      ds ++ [d] ++ readItems config outer (Token.lexemes b) := by
  obtain ⟨used, rest, e, hls, items, hrest, -⟩ := exists_items (h.trans (List.append_nil _).symm)
  have hnil : rest = [] := by
    by_contra hne
    exact readItems_ne_nil hne hrest
  rw [hnil, List.append_nil] at hls
  obtain ⟨before, used', e', rfl, -, -, item⟩ := items.last
  have hcomplete : e = .complete := by
    refine item.eq_complete ?_
    rintro ⟨k, t, hends, hopen⟩
    rw [hclosed k t hends] at hopen
    cases hopen
  subst hcomplete
  have hvalid : ∀ l ∈ before ++ used', l.Valid := hls ▸ Token.lexemes_valid a
  obtain ⟨front, l, rfl, hends⟩ :=
    item.endsIn_of_complete fun l hl => hvalid l (List.mem_append_right _ hl)
  have hzero := lookahead_of_endsClosed (hvalid l (by simp)) (hclosed _ _ hends)
  rw [← List.append_assoc] at hls items
  rw [Token.lexemes_append_of_closed hls hzero, List.append_cons, items.readItems trivial]

/-- The trees of two texts side by side. -/
theorem shapes_append_of_closed {a : List Char} {ss : List Shape} {s : Shape}
    (h : shapes config a = ss ++ [s]) (hclosed : ∀ k t, s.EndsIn k t → Tree.endsClosed k = true)
    (b : List Char) : shapes config (a ++ b) = shapes config a ++ shapes config b := by
  obtain ⟨ds, ds', hds, -, hd⟩ := List.map_eq_append_iff.mp h
  obtain ⟨d, rfl, rfl⟩ := List.map_eq_singleton_iff.mp hd
  have hread := readItems_append_of_closed hds (fun k t hends => hclosed k t hends.shape) b
  rw [shapes, shapes, shapes, hread, hds, List.map_append]

end Read

/-- Where the last item of a text ends with a closing character, the text with another one behind it
has the items of both. -/
theorem items_append_of_closed (config : Config) (a b : List Char) {last : Node}
    (hlast : ((parse config a).2.items (parse config a).1).getLast? = some last)
    (hclosed : Tree.endsClosed ((parse config a).1.lastLeafKind last.handle) = true) :
    ∃ front back,
      (parse config (a ++ b)).2.items (parse config (a ++ b)).1 = front ++ back ∧
        Node.Agree (parse config (a ++ b)).1 (parse config a).1 0 0 front
          ((parse config a).2.items (parse config a).1) ∧
        Node.Agree (parse config (a ++ b)).1 (parse config b).1 a.length 0 back
          ((parse config b).2.items (parse config b).1) := by
  obtain ⟨hs, hall, hitems⟩ := (covers_parse config a).exists_items
  obtain ⟨hs', hall', hitems'⟩ := (covers_parse config b).exists_items
  obtain ⟨both, hboth, hitemsBoth⟩ := (covers_parse config (a ++ b)).exists_items
  have happend : Read.shapes config (a ++ b) = Read.shapes config a ++ Read.shapes config b := by
    rcases List.eq_nil_or_concat (Read.shapes config a) with hnil | ⟨ss, s, hss⟩
    · rw [hnil] at hall
      cases hall
      rw [hitems] at hlast
      cases hlast
    · rw [List.concat_eq_append] at hss
      rw [hss] at hall
      obtain ⟨front, back, rfl, -, x, rest, rfl, -, hx, rfl⟩ := hall.of_append
      have hhandle : last.handle = x := by
        rw [hitems, Arena.viewAll_append, Arena.viewAll, Arena.viewAll, List.getLast?_concat] at hlast
        cases hlast
        exact Arena.handle_view _ _ _
      refine Read.shapes_append_of_closed hss ?_ b
      intro k t hends
      rwa [hhandle, Arena.lastLeafKind_of_endsIn hends hx] at hclosed
  rw [happend] at hboth
  obtain ⟨front, back, rfl, hfront, hback⟩ := hboth.of_append
  have hwidth : (parse config (a ++ b)).1.widths front = a.length := by
    rw [hfront.widths, Read.texts_shapes]
  refine ⟨_, _, by rw [hitemsBoth, Arena.viewAll_append], ?_, ?_⟩
  · rw [hitems]
    exact Arena.agree_viewAll hfront hall rfl
  · rw [hitems', hwidth]
    exact Arena.agree_viewAll hback hall' (by omega)

/-- A character literal before a closing bracket, and a digit behind the bracket. -/
theorem items_append_of_closed_character :
    let a := ['(', '#', '\\', '1', ')']
    let t := parse .default (a ++ ['2'])
    ∃ last front back,
      ((parse .default a).2.items (parse .default a).1).getLast? = some last ∧
        Tree.endsClosed ((parse .default a).1.lastLeafKind last.handle) = true ∧
        t.2.items t.1 = front ++ back ∧
        Node.Agree t.1 (parse .default a).1 0 0 front
          ((parse .default a).2.items (parse .default a).1) ∧
        Node.Agree t.1 (parse .default ['2']).1 5 0 back
          ((parse .default ['2']).2.items (parse .default ['2']).1) := by
  intro a t
  obtain ⟨last, hlast⟩ : ∃ last, ((parse .default a).2.items (parse .default a).1).getLast? =
      some last := Option.isSome_iff_exists.mp (by decide +kernel)
  have hclosed : Tree.endsClosed ((parse .default a).1.lastLeafKind last.handle) = true := by
    have hall : (((parse .default a).2.items (parse .default a).1).all
        fun n => Tree.endsClosed ((parse .default a).1.lastLeafKind n.handle)) = true := by
      decide +kernel
    exact List.all_eq_true.mp hall last (List.mem_of_getLast? hlast)
  obtain ⟨front, back, hagree⟩ := items_append_of_closed .default a ['2'] hlast hclosed
  exact ⟨last, front, back, hlast, hclosed, hagree⟩

end RacketTree

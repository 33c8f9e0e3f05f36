import RacketTree.Proofs.Tree.Boundary
import RacketTree.Proofs.Tree.Descent
import RacketTree.Proofs.Tree.Entries
import RacketTree.Proofs.Tree.Outermost
import RacketTree.Tree.Datum

/-!
# Single datums and the items of a text

Reading one datum agrees with reading the whole text from the same offset on (`parseDatum_agrees`).
The trivia before the datum are the items at the front of the text that start with trivia, errors
among them; the next item is the datum, unless it is the error of a dot or a closing bracket, which
is what reading fails with.

What an item starts with is told by its first leaf. An item of the schema is a leaf or has a leaf as
its first child (`Form.exists_first`), and the leaf is that of the first lexeme that the item takes
(`Item.startKind`).
-/

namespace RacketTree

/-- The kinds of leaves that trivia starts with. -/
def Kind.startsTrivia : Kind → Bool
  | whitespace | lineComment | blockCommentOpener | datumCommentMark => true
  | _ => false

namespace Node

/-- The first leaf of the node is one that trivia starts with. -/
def startsTrivia (n : Node) : Bool :=
  n.leaves.head?.any (·.kind.startsTrivia)

/-- The node is an error around a single leaf of this kind. -/
def isErrorAround (k : Kind) (n : Node) : Bool :=
  n.isError && n.children.map Node.kind == [k]

end Node

/-! ## First leaves -/

namespace Lexeme

/-- The kind of the first leaf of an item that starts with the lexeme. -/
def startKind (l : Lexeme) : Kind :=
  if l.kind = .blockComment then .blockCommentOpener else l.marked.kind

variable {l : Lexeme}

theorem marked_kind_eq (hs : l.Spelled) (hc : l.kind ≠ .character) : l.marked.kind = l.kind := by
  by_cases he : l.kind = .error
  · simp [marked, he]
  · simp [marked, fault_eq_none hs hc he]

theorem startsTrivia_startKind (hl : l.Valid) (hs : l.Spelled) :
    l.startKind.startsTrivia = l.isTrivia := by
  by_cases hc : l.kind = .character
  · cases hf : l.fault <;> simp [startKind, marked, isTrivia, hc, hf, Kind.startsTrivia]
  · rw [startKind, marked_kind_eq hs hc, isTrivia]
    rcases hl.lexical with hlex | ⟨hk, -⟩
    · cases hk : l.kind <;> simp [hk, Kind.isLexical, Kind.isAtom] at hlex <;> rfl
    · simp [hk, Kind.startsTrivia]

theorem startKind_eq_iff (hs : l.Spelled) {k : Kind} (hk : k = .dot ∨ k = .closer) :
    l.startKind = k ↔ l.kind = k := by
  by_cases hc : l.kind = .character
  · rcases hk with rfl | rfl <;>
      cases hf : l.fault <;> simp [startKind, marked, hc, hf]
  · rw [startKind, marked_kind_eq hs hc]
    split
    · rename_i hcomment
      rcases hk with rfl | rfl <;> simp [hcomment]
    · rfl

end Lexeme

namespace Shape

variable {config : Config}

/-- The kind of the first leaf of an item. -/
def startKind : Shape → Kind
  | branch _ (first :: _) _ => first.kind
  | s => s.kind

theorem kind_ne_source_of_isItem {s : Shape} (h : s.isItem = true) : s.kind ≠ .source := by
  intro hk
  rw [isItem, hk] at h
  cases h

/-- The first leaf of an item is its first lexeme, or opens the comment that its first lexeme is. -/
theorem startKind_eq {s : Shape} {l : Lexeme} {ls : List Lexeme} (hs : s.Formed config)
    (hitem : s.isItem = true) (hl : s.lexemes = l :: ls) :
    s.startKind = if l.kind = .blockComment then .blockCommentOpener else l.kind := by
  cases s with
  | leaf k text f =>
    have hmissing : k ≠ .missing := kind_ne_missing_of_isItem hitem
    rw [lexemes, if_neg hmissing] at hl
    cases hl
    have hcomment : k ≠ .blockComment := by
      rintro rfl
      cases formed_leaf.mp hs with
      | token _ hne => exact hne rfl
    exact (if_neg hcomment).symm
  | branch k ss f =>
    obtain ⟨k', text, rest, rfl, hmissing', hiff, hcomment'⟩ :=
      hs.form.exists_first (kind_ne_source_of_isItem hitem)
    rw [lexemes] at hl
    by_cases hcomment : k = .blockComment
    · rw [if_pos hcomment] at hl
      cases hl
      rw [if_pos hcomment]
      exact hiff.mp hcomment
    · rw [if_neg hcomment, allLexemes, lexemes, if_neg hmissing'] at hl
      cases hl
      exact (if_neg hcomment').symm

end Shape

namespace Node

variable {config : Config} {n : Node}

theorem startsTrivia_eq (hs : n.shape.Formed config) (hitem : n.shape.isItem = true) :
    n.startsTrivia = n.shape.startKind.startsTrivia := by
  rw [startsTrivia, leaves, walk_eq]
  cases ht : n.text? with
  | some text =>
    have hleaf : n.isLeaf = true := by rw [isLeaf, ht]; rfl
    rw [List.filter_cons, if_pos hleaf, shape_of_leaf ht]
    rfl
  | none =>
    have hleaf : ¬n.isLeaf = true := by rw [isLeaf, ht]; simp
    rw [shape_of_branch ht] at hs hitem ⊢
    obtain ⟨k', text, rest, hchildren, -⟩ :=
      hs.form.exists_first (Shape.kind_ne_source_of_isItem hitem)
    obtain ⟨c, cs, hcs, hc, -⟩ := List.map_eq_cons_iff.mp hchildren
    -- the first child is a leaf, and so the first leaf of the node
    have hfirst : c.isLeaf = true := by
      cases hct : c.text? with
      | some text => rw [isLeaf, hct]; rfl
      | none =>
        rw [shape_of_branch hct] at hc
        cases hc
    rw [List.filter_cons, if_neg hleaf, hcs, walkAll, walk_eq, List.cons_append, List.filter_cons,
      if_pos hfirst]
    change c.kind.startsTrivia = c.shape.kind.startsTrivia
    rw [kind_shape]

theorem startKind_of_isErrorAround {k : Kind} (h : n.isErrorAround k = true)
    (hleaf : n.isLeaf = true → n.children = []) : n.shape.startKind = k := by
  rw [isErrorAround, Bool.and_eq_true, beq_iff_eq] at h
  obtain ⟨c, hcs, hc⟩ := List.map_eq_singleton_iff.mp h.2
  have hbranch : n.text? = none := by
    cases ht : n.text? with
    | none => rfl
    | some text =>
      have hnil := hleaf (by rw [isLeaf, ht]; rfl)
      rw [hcs] at hnil
      cases hnil
  rw [shape_of_branch hbranch, hcs]
  change c.shape.kind = k
  rw [kind_shape, hc]

end Node

/-! ## Items -/

namespace Read

variable {config : Config} {outer : Nat} {d : Draft} {l : Lexeme} {ls : List Lexeme}

theorem Item.exists_lexemes {e : Ending} (item : Item config outer (l :: ls) e d)
    (hv : ∀ x ∈ l :: ls, x.Valid ∧ x.Spelled) (hdepth : outer < config.maxDepth) :
    ∃ out, d.lexemes = l.marked :: out := by
  have hbecomes := item.lexemes hv
  cases item with
  | lone =>
    generalize (Read.lone l).lexemes = out at hbecomes
    cases hbecomes with
    | all => exact ⟨[], rfl⟩
    | buried _ he => cases he
  | deep _ _ hdeep => exact absurd hdepth (Nat.not_lt.mpr hdeep)
  | framed hf _ run =>
    obtain ⟨hl, hs⟩ := hv _ List.mem_cons_self
    obtain ⟨out, hout, -⟩ :=
      run.lexemes (List.forall_mem_singleton.mpr (Frame.tight_ofLexeme? hl hs hf))
        fun x hx => hv x (List.mem_cons_of_mem _ hx)
    refine ⟨out, ?_⟩
    rw [hout, Frame.stackLexemes_cons, Frame.lexemes_ofLexeme? hl hf]
    rfl

/-- An item starts with the leaf of its first lexeme, if that is not nested too deeply. -/
theorem Item.startKind {e : Ending} (item : Item config outer (l :: ls) e d)
    (hv : ∀ x ∈ l :: ls, x.Valid ∧ x.Spelled) (hdepth : outer < config.maxDepth) :
    d.shape.startKind = l.startKind := by
  obtain ⟨hitem, hformed⟩ := item.formed hv
  obtain ⟨out, hout⟩ := item.exists_lexemes hv hdepth
  have hlexemes : d.shape.lexemes = l.marked :: out := by
    rw [← hout, Draft.lexemes, Draft.shapes_eq (item.isSingle fun x hx => (hv x hx).1),
      Shape.allLexemes, Shape.allLexemes, List.append_nil]
  have hcomment : l.marked.kind = .blockComment ↔ l.kind = .blockComment := by
    by_cases hc : l.kind = .character
    · cases hf : l.fault <;> simp [Lexeme.marked, hc, hf]
    · rw [Lexeme.marked_kind_eq (hv l List.mem_cons_self).2 hc]
  rw [Shape.startKind_eq hformed hitem hlexemes, Lexeme.startKind]
  simp only [hcomment]

/-- The next item is a run that starts with the next lexeme. -/
theorem exists_item_cons (hv : ∀ x ∈ l :: ls, x.Valid ∧ x.Spelled) :
    ∃ used e, Item config outer (l :: used) e (readItem config outer l ls).1 ∧
      ls = used ++ (readItem config outer l ls).2 ∧ ∀ x ∈ l :: used, x.Valid ∧ x.Spelled := by
  obtain ⟨used, e, item, hls, -⟩ := exists_item config outer l ls
  cases used with
  | nil => exact absurd rfl item.ne_nil
  | cons m used =>
    obtain ⟨rfl, hrest⟩ := List.cons.inj hls
    refine ⟨used, e, item, hrest, fun x hx => hv x ?_⟩
    rw [hls]
    exact List.mem_append_left _ hx

theorem isSingle_readItem (hv : ∀ x ∈ l :: ls, x.Valid ∧ x.Spelled) :
    (readItem config outer l ls).1.isSingle = true := by
  obtain ⟨used, e, item, -, hused⟩ := exists_item_cons hv
  exact item.isSingle fun x hx => (hused x hx).1

theorem startKind_readItem (hv : ∀ x ∈ l :: ls, x.Valid ∧ x.Spelled)
    (hdepth : outer < config.maxDepth) :
    (readItem config outer l ls).1.shape.startKind = l.startKind := by
  obtain ⟨used, e, item, -, hused⟩ := exists_item_cons hv
  exact item.startKind hused hdepth

theorem readItem_of_stops (h : l.kind = .dot ∨ l.kind = .closer) :
    readItem config outer l ls = (stray l, ls) := by
  rw [readItem]
  rcases h with h | h <;> simp [h]

theorem readTrivia_cons_of_trivia (h : l.isTrivia = true) :
    readTrivia config outer (l :: ls) =
      ((readItem config outer l ls).1 :: (readTrivia config outer (readItem config outer l ls).2).1,
        (readTrivia config outer (readItem config outer l ls).2).2) := by
  rw [readTrivia, if_pos h]

/-- The trivia at the front are the first items of the text. -/
theorem readItems_eq_readTrivia (ls : List Lexeme) :
    readItems config outer ls =
      (readTrivia config outer ls).1 ++ readItems config outer (readTrivia config outer ls).2 := by
  fun_induction readItems config outer ls with
  | case1 => simp [readTrivia, readItems]
  | case2 l ls read ih =>
    by_cases htrivia : l.isTrivia = true
    · rw [readTrivia_cons_of_trivia htrivia, ih]
      rfl
    · rw [readTrivia, if_neg htrivia, readItems_cons]
      rfl

/-- The items in trivia position start with trivia, and are followed by what is not trivia. -/
theorem startsTrivia_readTrivia (hv : ∀ x ∈ ls, x.Valid ∧ x.Spelled)
    (hdepth : outer < config.maxDepth) :
    (∀ d ∈ (readTrivia config outer ls).1, d.shape.startKind.startsTrivia = true) ∧
      (readTrivia config outer ls).2 <:+ ls ∧
      ∀ l ∈ (readTrivia config outer ls).2.head?, l.isTrivia = false := by
  fun_induction readItems config outer ls with
  | case1 => simp [readTrivia]
  | case2 l ls read ih =>
    by_cases htrivia : l.isTrivia = true
    · obtain ⟨hl, hs⟩ := hv l List.mem_cons_self
      have hsuffix : (readItem config outer l ls).2 <:+ ls := by
        obtain ⟨used, -, -, hls, -⟩ := exists_item_cons hv
        exact ⟨used, hls.symm⟩
      obtain ⟨hitems, hrest, hhead⟩ :=
        ih fun x hx => hv x (List.mem_cons_of_mem _ (hsuffix.mem hx))
      rw [readTrivia_cons_of_trivia htrivia]
      refine ⟨List.forall_mem_cons.mpr ⟨?_, hitems⟩,
        (hrest.trans hsuffix).trans (List.suffix_cons _ _), hhead⟩
      rw [startKind_readItem hv hdepth, Lexeme.startsTrivia_startKind hl hs, htrivia]
    · rw [readTrivia, if_neg htrivia]
      refine ⟨nofun, List.suffix_rfl, ?_⟩
      rintro x ⟨⟩
      exact Bool.eq_false_iff.mpr htrivia

theorem readDatum_of_error {e : ReadError} {pos : Nat} (h : datumError? pos ls = some e) :
    readDatum config outer pos ls = .error e := by
  simp only [readDatum, h]

theorem readDatum_of_begins {pos : Nat} (h : l.beginsDatum = true) :
    readDatum config outer pos (l :: ls) = .ok (readItem config outer l ls) := by
  have hdot : l.kind ≠ .dot := by
    intro hk
    simp [Lexeme.beginsDatum, hk, Kind.isAtom] at h
  simp only [readDatum, datumError?, if_neg hdot, if_pos h]

end Read

/-! ## The tree of a single datum -/

/-- Storing a single draft behind others puts its tree at the last record. -/
theorem Arena.holds_last (a : Arena) (ds : List Draft) {d : Draft} (hd : d.isSingle = true) :
    (a.storeAll (ds ++ [d])).1.Holds ((a.storeAll (ds ++ [d])).1.size - 1) d.shape := by
  rw [storeAll_append (Prod.eta (a.storeAll ds)).symm
    (Prod.eta ((a.storeAll ds).1.storeAll [d])).symm]
  generalize (a.storeAll ds).1 = b
  cases d with
  | leaf kind text fault =>
    rw [storeAll_leaf, Arena.leaf, size_push, Nat.add_sub_cancel]
    exact holds_leaf b kind text fault
  | branch kind children fault =>
    obtain ⟨-, -, hall⟩ := b.holdsAll_storeAll children
    rw [storeAll_branch kind fault (Prod.eta (b.storeAll children)).symm, Arena.branch, size_push,
      Nat.add_sub_cancel]
    exact holds_branch kind fault hall
  | tail => cases hd

/-! ## The first item that is not trivia -/

namespace Arena

variable {a : Arena} {h : Handle} {start : Nat}

theorem startsTrivia_viewAll (config : Config) {n : Nat} {hs : List Handle} {ss : List Shape}
    (hall : a.HoldsAll n hs ss)
    (hss : ∀ s ∈ ss, (s.isItem = true ∧ s.Formed config) ∧ s.startKind.startsTrivia = true) :
    ∀ n ∈ a.viewAll start hs, n.startsTrivia = true := by
  intro n hn
  have hmem : n.shape ∈ ss := by
    rw [← map_shape_viewAll start hall]
    exact List.mem_map_of_mem hn
  obtain ⟨⟨hitem, hformed⟩, hstarts⟩ := hss _ hmem
  rw [Node.startsTrivia_eq hformed hitem, hstarts]

theorem children_view_of_isLeaf {s : Shape} (hold : a.Holds h s)
    (hleaf : (a.view h start).isLeaf = true) : (a.view h start).children = [] := by
  cases s with
  | leaf => exact (view_leaf hold start).2.2.2
  | branch =>
    obtain ⟨-, -, -, ht, -⟩ := view_branch hold start
    rw [Node.isLeaf, ht] at hleaf
    cases hleaf

theorem isErrorAround_view {k : Kind} {text : List Char} {f f' : Option Fault}
    (hold : a.Holds h (.branch .error [.leaf k text f] f')) :
    (a.view h start).isErrorAround k = true := by
  obtain ⟨hs, ⟨c, cs, rfl, -, hc, hcs⟩, hk, -, -, hchildren⟩ := view_branch hold start
  cases hcs
  rw [Node.isErrorAround, Node.isError, hk, hchildren, viewAll, viewAll, List.map_singleton,
    (view_leaf hc start).1]
  simp

end Arena

section

variable {config : Config} {source : List Char} {o : Nat} {trivia : List Draft}
  {l : Lexeme} {ls rest : List Lexeme}

/-- The items of a text at the front of which trivia has been read. -/
theorem exists_items_of_readTrivia
    (h : Read.readTrivia config 0 (Token.lexemes source) = (trivia, rest)) :
    ∃ front back, (parse config source).1.HoldsAll (parse config source).2.root back
        ((Read.readItems config 0 rest).map Draft.shape) ∧
      (∀ n ∈ (parse config source).1.viewAll 0 front, n.startsTrivia = true) ∧
      (parse config source).2.items (parse config source).1 =
        (parse config source).1.viewAll 0 front ++
          (parse config source).1.viewAll (Draft.widths trivia) back ∧
      source = Draft.texts trivia ++ Draft.texts (Read.readItems config 0 rest) := by
  have hv : ∀ x ∈ Token.lexemes source, x.Valid ∧ x.Spelled := fun x hx =>
    ⟨Token.lexemes_valid source x hx, Token.lexemes_spelled source x hx⟩
  obtain ⟨hstarts, -⟩ := Read.startsTrivia_readTrivia hv config.maxDepth_pos
  have hread := @Read.readItems_eq_readTrivia config 0 (Token.lexemes source)
  rw [h] at hstarts hread
  obtain ⟨hs, hall, hitems⟩ := (covers_parse config source).exists_items
  rw [Read.shapes, hread, List.map_append] at hall
  obtain ⟨front, back, rfl, hfront, hback⟩ := hall.of_append
  have hsingle : ∀ d ∈ trivia, d.isSingle = true := fun d hd =>
    Read.isSingle_readItems source d (hread ▸ List.mem_append_left _ hd)
  refine ⟨front, back, hback, Arena.startsTrivia_viewAll config hfront ?_, ?_, ?_⟩
  · intro s hs
    obtain ⟨d, hd, rfl⟩ := List.mem_map.mp hs
    have hmem : d ∈ Read.readItems config 0 (Token.lexemes source) :=
      hread ▸ List.mem_append_left _ hd
    refine ⟨Read.formed_readItems config source d hmem d.shape ?_, hstarts d hd⟩
    rw [Draft.shapes_eq (hsingle d hd)]
    exact List.mem_cons_self
  · rw [hitems, Arena.viewAll_append, Nat.zero_add, hfront.widths, Read.texts_map_shape hsingle,
      Draft.widths_eq]
  · rw [← Draft.texts_append, ← hread, Read.texts_readItems]

theorem parseDatum_of_error {e : ReadError}
    (htrivia : Read.readTrivia config 0 (Token.lexemes (source.drop o)) = (trivia, rest))
    (h : Read.readDatum config 0 (o + Draft.widths trivia) rest = .error e) :
    parseDatum config source o = .error e := by
  simp only [parseDatum, htrivia, h]
  rfl

theorem parseDatum_of_ok {d : Draft} {ls : List Lexeme}
    (htrivia : Read.readTrivia config 0 (Token.lexemes (source.drop o)) = (trivia, rest))
    (h : Read.readDatum config 0 (o + Draft.widths trivia) rest = .ok (d, ls))
    (hd : d.isSingle = true) :
    ∃ a t, parseDatum config source o = .ok (a, t, o + Draft.widths trivia + d.width) ∧
      a.Holds t.root d.shape ∧ t.rootStart = o + Draft.widths trivia := by
  have hlast := Arena.empty.holds_last trivia hd
  generalize hstore : (Arena.empty.storeAll (trivia ++ [d])).1 = a at hlast
  refine ⟨a, ⟨source, a.size - 1, config, o + Draft.widths trivia⟩, ?_, hlast, rfl⟩
  simp only [parseDatum, htrivia, h, ← hstore]
  rfl

/-- The next item starts with trivia if its first lexeme is trivia. -/
theorem startsTrivia_view (hv : ∀ x ∈ l :: ls, x.Valid ∧ x.Spelled) {a : Arena} {h : Handle}
    (hold : a.Holds h (Read.readItem config 0 l ls).1.shape) (start : Nat) :
    (a.view h start).startsTrivia = l.isTrivia := by
  obtain ⟨hl, hs⟩ := hv l List.mem_cons_self
  obtain ⟨used, e, item, -, hused⟩ := @Read.exists_item_cons config 0 l ls hv
  obtain ⟨hitem, hformed⟩ := item.formed hused
  rw [← Arena.shape_view start hold] at hitem hformed
  rw [Node.startsTrivia_eq hformed hitem, Arena.shape_view start hold,
    item.startKind hused config.maxDepth_pos, Lexeme.startsTrivia_startKind hl hs]

/-- The next item is the error of a dot or of a closing bracket if its first lexeme is one. -/
theorem isErrorAround_view_iff (hv : ∀ x ∈ l :: ls, x.Valid ∧ x.Spelled) {a : Arena} {h : Handle}
    (hold : a.Holds h (Read.readItem config 0 l ls).1.shape) (start : Nat) {k : Kind}
    (hk : k = .dot ∨ k = .closer) :
    (a.view h start).isErrorAround k = true ↔ l.kind = k := by
  obtain ⟨-, hs⟩ := hv l List.mem_cons_self
  constructor
  · intro haround
    have hfirst := Node.startKind_of_isErrorAround haround (Arena.children_view_of_isLeaf hold)
    rw [Arena.shape_view start hold, Read.startKind_readItem hv config.maxDepth_pos] at hfirst
    exact (Lexeme.startKind_eq_iff hs hk).mp hfirst
  · intro hl
    have hleaf : l.leaf = .leaf k l.text none := by
      rw [← hl]
      rcases hk with rfl | rfl <;> exact Lexeme.leaf_eq hs (by simp [hl]) (by simp [hl])
    rw [Read.readItem_of_stops (hl ▸ hk), Read.stray, hleaf] at hold
    exact Arena.isErrorAround_view hold

/-- What reading a datum gives behind the trivia, where the next item is stored somewhere. -/
theorem parseDatum_of_readTrivia
    (hread : Read.readTrivia config 0 (Token.lexemes (source.drop o)) = (trivia, l :: ls))
    (hv : ∀ x ∈ l :: ls, x.Valid ∧ x.Spelled) (hl : l.isTrivia = false) {b : Arena} {h : Handle}
    (hold : b.Holds h (Read.readItem config 0 l ls).1.shape) {tail : List Char}
    (htext : source.drop o =
      Draft.texts trivia ++ ((Read.readItem config 0 l ls).1.text ++ tail)) :
    let x := b.view h (Draft.widths trivia)
    if x.isErrorAround .dot then
      parseDatum config source o = .error ⟨.illegalDot, o + x.start, o + x.stop⟩
    else if x.isErrorAround .closer then
      parseDatum config source o =
        .error ⟨.unexpected (x.text (source.drop o)), o + x.start, o + x.stop⟩
    else
      ∃ a t, parseDatum config source o = .ok (a, t, o + x.stop) ∧
        a.same b t.root x.handle = true ∧ (t.node a).start = o + x.start := by
  intro x
  have hsingle := @Read.isSingle_readItem config 0 l ls hv
  have hstart : x.start = Draft.widths trivia := Arena.start_view _ _ _
  have hstop : x.stop = Draft.widths trivia + (Read.readItem config 0 l ls).1.text.length := by
    rw [Node.stop, hstart, Arena.width_view, hold.width, Draft.text_shape hsingle]
  have hfails : l.kind = .dot ∨ l.kind = .closer →
      (Read.readItem config 0 l ls).1.text = l.text := by
    intro hk
    rw [Read.readItem_of_stops hk]
    simp [Read.stray]
  have hdotIff := isErrorAround_view_iff hv hold (Draft.widths trivia) (.inl rfl)
  have hcloserIff := isErrorAround_view_iff hv hold (Draft.widths trivia) (.inr rfl)
  rw [hstart, hstop, ← Nat.add_assoc]
  split
  · rename_i hx
    have hdot := hdotIff.mp hx
    rw [hfails (.inl hdot)]
    refine parseDatum_of_error hread (Read.readDatum_of_error ?_)
    rw [Read.datumError?, if_pos hdot]
  split
  · rename_i hx hx'
    have hcloser := hcloserIff.mp hx'
    have hslice : x.text (source.drop o) = l.text := by
      have hdrop : (source.drop o).drop (Draft.widths trivia) =
          (Read.readItem config 0 l ls).1.shape.text ++ tail := by
        rw [htext, Draft.widths_eq, List.drop_left, Draft.text_shape hsingle]
      have hbranch : x.text? = none := by
        rw [Read.readItem_of_stops (.inr hcloser)] at hold
        obtain ⟨-, -, -, ht, -⟩ := Arena.view_branch hold (Draft.widths trivia)
        exact ht
      rw [Node.text, hbranch]
      refine (Arena.slice_view hold hdrop).trans ?_
      rw [Draft.text_shape hsingle, hfails (.inr hcloser)]
    rw [hfails (.inr hcloser), hslice]
    refine parseDatum_of_error hread (Read.readDatum_of_error ?_)
    have hbegins : ¬l.beginsDatum = true := by simp [Lexeme.beginsDatum, hcloser, Kind.isAtom]
    rw [Read.datumError?, if_neg (mt hdotIff.mpr hx), if_neg hbegins]
  · rename_i hx hx'
    have hstops : Read.stops l = false := by
      simpa [Read.stops] using ⟨mt hcloserIff.mpr hx', mt hdotIff.mpr hx⟩
    have hbegins := Cursor.begins_of_not_stops (hv l List.mem_cons_self).1 hl hstops
    obtain ⟨a, t, hparse, hroot, hrootStart⟩ :=
      parseDatum_of_ok (d := (Read.readItem config 0 l ls).1) hread
        (Read.readDatum_of_begins hbegins) hsingle
    refine ⟨a, t, ?_, ?_, ?_⟩
    · rw [hparse, Draft.width_eq]
    · rw [Arena.handle_view]
      exact (Arena.same_iff hold).mpr hroot
    · rw [Tree.node, Arena.start_view, hrootStart]

end

/-- Reading a datum from an offset on agrees with reading all that is left of the text. The item
that counts is the first one that does not start with trivia. If there is none, reading fails at the
end of the text, with an unexpected token. If the item is the error of a dot, reading fails there
with a malformed dotted pair, and if it is the error of a closing bracket, with an unexpected token.
Otherwise the datum is that item. -/
theorem parseDatum_agrees (config : Config) (source : List Char) {o : Nat}
    (ho : o ≤ source.length) :
    let p := parse config (source.drop o)
    match (p.2.items p.1).find? fun n => !n.startsTrivia with
    | none => parseDatum config source o = .error ⟨.endOfInput, source.length, source.length⟩
    | some x =>
      if x.isErrorAround .dot then
        parseDatum config source o = .error ⟨.illegalDot, o + x.start, o + x.stop⟩
      else if x.isErrorAround .closer then
        parseDatum config source o =
          .error ⟨.unexpected (x.text (source.drop o)), o + x.start, o + x.stop⟩
      else
        ∃ a t, parseDatum config source o = .ok (a, t, o + x.stop) ∧
          a.same p.1 t.root x.handle = true ∧ (t.node a).start = o + x.start := by
  intro p
  obtain ⟨⟨trivia, rest⟩, hread⟩ :
      ∃ r, Read.readTrivia config 0 (Token.lexemes (source.drop o)) = r := ⟨_, rfl⟩
  obtain ⟨front, back, hback, hfront, hitems, htext⟩ := exists_items_of_readTrivia hread
  have hv : ∀ x ∈ Token.lexemes (source.drop o), x.Valid ∧ x.Spelled := fun x hx =>
    ⟨Token.lexemes_valid _ x hx, Token.lexemes_spelled _ x hx⟩
  obtain ⟨-, hsuffix, hhead⟩ := Read.startsTrivia_readTrivia hv config.maxDepth_pos
  rw [hread] at hsuffix hhead
  have hskip : (p.1.viewAll 0 front).find? (fun n => !n.startsTrivia) = none :=
    List.find?_eq_none.mpr fun n hn => by simp [hfront n hn]
  rw [hitems, List.find?_append, hskip, Option.none_or]
  cases rest with
  | nil =>
    rw [Read.readItems] at hback htext
    cases hback
    have hend : o + Draft.widths trivia = source.length := by
      have hlength := congrArg List.length htext
      rw [Draft.texts_nil, List.append_nil, List.length_drop, ← Draft.widths_eq] at hlength
      omega
    exact parseDatum_of_error hread (Read.readDatum_of_error (by rw [Read.datumError?, hend]))
  | cons l ls =>
    rw [Read.readItems_cons] at hback htext
    obtain ⟨h, back, rfl, -, hold, -⟩ := hback
    have hls : ∀ x ∈ l :: ls, x.Valid ∧ x.Spelled := fun x hx => hv x (hsuffix.mem hx)
    have hltrivia : l.isTrivia = false := hhead l rfl
    have hx := startsTrivia_view hls hold (Draft.widths trivia)
    rw [hltrivia] at hx
    rw [Arena.viewAll, List.find?_cons, hx]
    exact parseDatum_of_readTrivia hread hls hltrivia hold (htext.trans (by rw [Draft.texts_cons]))

/-- Behind a name there are a blank, a datum comment and another blank; then comes the datum. -/
theorem parseDatum_agrees_comment :
    let source := ['x', ' ', '#', ';', 'y', ' ', 'z']
    1 ≤ source.length ∧
      ∃ a t, parseDatum .default source 1 = .ok (a, t, 7) ∧ (t.node a).start = 6 := by
  intro source
  have ho : 1 ≤ source.length := by decide
  have hagrees := parseDatum_agrees .default source ho
  generalize hp : parse .default (source.drop 1) = p at hagrees
  have hfound : ((p.2.items p.1).find? fun n => !n.startsTrivia).map (fun x =>
      (x.start, x.stop, x.isErrorAround .dot, x.isErrorAround .closer)) =
        some (5, 6, false, false) := by
    rw [← hp]
    decide +kernel
  obtain ⟨x, hx, hfields⟩ := Option.map_eq_some_iff.mp hfound
  obtain ⟨hstart, hstop, hdot, hcloser⟩ := by simpa using hfields
  simp only [hx, hdot, hcloser, hstart, hstop] at hagrees
  obtain ⟨a, t, hparse, -, hroot⟩ := hagrees
  exact ⟨ho, a, t, hparse, hroot⟩

end RacketTree

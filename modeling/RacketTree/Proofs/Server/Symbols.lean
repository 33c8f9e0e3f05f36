import RacketTree.Proofs.Server.Diagnostics
import RacketTree.Proofs.Server.Hover
import RacketTree.Proofs.Tree.Proper

/-!
# Nested symbols

The symbols of a text are nested as its forms are. The symbol of a form has the range of the form.
Its name is a datum of the form or a node below one (`exists_of_ofNode?`), so that it lies in the
range and is not empty. Its children come from datums of the form or of a list in it, and these lie
one behind the other (`lie_filterMap`).

`Symbol.Nested` says this of offsets. Positions in code units are in the order of the offsets, so
that it holds of what a client is given (`Payload.IsNested`), whatever messages have come before
(`Server.documentSymbol_nested`).
-/

namespace RacketTree

namespace Symbol

variable {config : Config} {source : List Char} {n : Node} {s : Symbol}

/-! ## Names -/

theorem datums_eq (n : Node) : n.datums = n.children.filter isDatum := by
  rw [Node.datums, Node.named, List.filter_filter]
  refine List.filter_congr fun c _ => ?_
  simp only [isDatum, Bool.and_comm, Bool.and_left_comm]

mutual

theorem innermost_mem_walk : (n : Node) → innermost n ∈ n.walk
  | ⟨handle, kind, start, width, text?, fault, hasFault, children⟩ => by
    rw [innermost, Node.walk_eq]
    split
    · cases hhead : innermostHead? children with
      | none => exact List.mem_cons_self
      | some m => exact List.mem_cons_of_mem _ (innermostHead?_mem_walkAll children hhead)
    · exact List.mem_cons_self

theorem innermostHead?_mem_walkAll : (ns : List Node) → {m : Node} → innermostHead? ns = some m →
    m ∈ Node.walkAll ns
  | [], _, h => by cases h
  | n :: ns, m, h => by
    rw [innermostHead?] at h
    rw [Node.walkAll, List.mem_append]
    split at h
    · cases h
      exact .inl (innermost_mem_walk n)
    · exact .inr (innermostHead?_mem_walkAll ns h)

end

/-- The name of a definition is a symbol somewhere in its second datum. -/
theorem target?_mem_walk {head : String} {kind kind' : SymbolKind} {second name : Node}
    (h : target? head kind second = some (name, kind')) :
    name ∈ second.walk ∧ name.kind = .symbol := by
  unfold target? at h
  simp only at h
  split at h
  · cases h
  · rename_i chosen hchosen
    split at h
    · rename_i hsymbol
      cases h
      refine ⟨?_, beq_iff_eq.mp hsymbol⟩
      have hsub : chosen.walk ⊆ second.walk := by
        split at hchosen
        · have hmem := second.datums_sublist.subset (List.mem_of_find?_eq_some hchosen)
          exact Node.walk_subset _ _ (Node.mem_walk_of_mem_children hmem)
        · cases hchosen
          exact List.Subset.refl _
      exact hsub (innermost_mem_walk chosen)
    · cases h

/-! ## Symbols in order -/

/-- The name of a symbol is not empty and lies in its range, and so do its children, one behind the
other and nested in the same way. -/
inductive Nested (source : List Char) : Symbol → Prop
  | intro {s : Symbol} (hstart : s.range.1 ≤ s.selection.1) (hname : s.selection.1 < s.selection.2)
      (hstop : s.selection.2 ≤ s.range.2) (hend : s.range.2 ≤ source.length)
      (hwithin : ∀ c ∈ s.children, s.range.1 ≤ c.range.1 ∧ c.range.2 ≤ s.range.2)
      (hordered : s.children.Pairwise fun c d => c.range.2 ≤ d.range.1)
      (hnested : ∀ c ∈ s.children, Nested source c) : Nested source s

theorem Nested.range_lt (h : s.Nested source) :
    s.range.1 < s.range.2 ∧ s.range.2 ≤ source.length := by
  cases h
  omega

/-- Nested symbols lie one behind the other between two offsets. -/
structure Lie (source : List Char) (start stop : Nat) (symbols : List Symbol) : Prop where
  within : ∀ s ∈ symbols, start ≤ s.range.1 ∧ s.range.2 ≤ stop
  ordered : symbols.Pairwise fun s t => s.range.2 ≤ t.range.1
  nested : ∀ s ∈ symbols, s.Nested source

theorem lie_nil (start stop : Nat) : Lie source start stop [] :=
  ⟨nofun, .nil, nofun⟩

/-- Symbols whose ranges are those of nodes lie as the nodes do. -/
theorem lie_filterMap {f : Node → Option Symbol} {start stop : Nat} {ns : List Node}
    (hrange : ∀ n s, f n = some s → s.range = span n) (h : Node.Ordered start stop ns)
    (hnested : ∀ n ∈ ns, ∀ s, f n = some s → s.Nested source) :
    Lie source start stop (ns.filterMap f) where
  within := by
    intro s hs
    obtain ⟨n, hn, hns⟩ := List.mem_filterMap.mp hs
    rw [hrange n s hns]
    exact h.mem n hn
  ordered := by
    refine h.pairwise.filterMap f fun m n hmn s hs t ht => ?_
    rw [hrange m s hs, hrange n t ht]
    exact hmn
  nested := by
    intro s hs
    obtain ⟨n, hn, hns⟩ := List.mem_filterMap.mp hs
    exact hnested n hn s hns

/-- A symbol with the range of a node is nested if its name and its children lie in the node. -/
theorem nested_of_span (hn : n.Proper config source) {name : Node} (hmem : name ∈ n.walk)
    (hlt : name.start < name.stop) (hrange : s.range = span n)
    (hselection : s.selection = span name)
    (hchildren : Lie source n.start n.stop s.children) : s.Nested source := by
  obtain ⟨hstart, hstop⟩ := hn.within name hmem
  refine .intro ?_ ?_ ?_ ?_ ?_ hchildren.ordered hchildren.nested
  · rw [hrange, hselection]
    exact hstart
  · rw [hselection]
    exact hlt
  · rw [hrange, hselection]
    exact hstop
  · rw [hrange]
    exact hn.stop_le
  · rw [hrange]
    exact hchildren.within

theorem lt_stop_of_symbol (hn : n.Proper config source) {name : Node} (hmem : name ∈ n.walk)
    (hkind : name.kind = .symbol) : name.start < name.stop :=
  (hn.of_mem hmem).lt_stop (by simp [hkind]) (by simp [hkind])

/-! ## Fields -/

/-- A field has the range of its item, and its name is in the item. -/
theorem exists_of_fieldOf? (h : fieldOf? source n = some s) :
    s.range = span n ∧ s.children = [] ∧
      ∃ name ∈ n.walk, name.kind = .symbol ∧ s.selection = span name := by
  have hname {name : Node} (hmem : name ∈ n.walk)
      (hfound : (if name.kind == .symbol then
        some ⟨name.text source, .field, span n, span name, none, []⟩ else none) = some s) :
      s.range = span n ∧ s.children = [] ∧
        ∃ name ∈ n.walk, name.kind = .symbol ∧ s.selection = span name := by
    split at hfound
    · rename_i hsymbol
      cases hfound
      exact ⟨rfl, rfl, name, hmem, beq_iff_eq.mp hsymbol, rfl⟩
    · cases hfound
  unfold fieldOf? at h
  simp only at h
  split at h
  · rename_i first rest _ hdatums
    refine hname ?_ h
    have hfirst : first ∈ n.datums := hdatums ▸ List.mem_cons_self
    exact Node.mem_walk_of_mem_children (n.datums_sublist.subset hfirst)
  · exact hname n.self_mem_walk h

theorem nested_fieldOf? (hn : n.Proper config source) (h : fieldOf? source n = some s) :
    s.Nested source := by
  obtain ⟨hrange, hchildren, name, hmem, hkind, hselection⟩ := exists_of_fieldOf? h
  refine nested_of_span hn hmem (lt_stop_of_symbol hn hmem hkind) hrange hselection ?_
  rw [hchildren]
  exact lie_nil _ _

/-- The fields of a struct lie in its form. -/
theorem lie_structFields (hn : n.Proper config source) {parts : List Node}
    (hparts : parts ⊆ n.datums) :
    Lie source n.start n.stop (structFields source parts) := by
  unfold structFields
  split
  · rename_i fields hfind
    have hchild := n.datums_sublist.subset (hparts (List.mem_of_find?_eq_some hfind))
    have hfields := hn.child hchild
    obtain ⟨hstart, hstop⟩ := hn.ordered_children.mem fields hchild
    have hlie := lie_filterMap (fun n s h => (exists_of_fieldOf? h).1) hfields.ordered_datums
      fun c hc s hs => nested_fieldOf? (hfields.child (fields.datums_sublist.subset hc)) hs
    refine ⟨fun s hs => ?_, hlie.ordered, hlie.nested⟩
    have := hlie.within s hs
    omega
  · exact lie_nil _ _

/-! ## Definitions and submodules -/

theorem ofDatums_eq (source : List Char) (skipped : Nat) (ns : List Node) :
    ofDatums source skipped ns = ((ns.filter isDatum).drop skipped).filterMap (ofNode? source) := by
  induction ns generalizing skipped with
  | nil => rw [ofDatums, List.filter_nil, List.drop_nil, List.filterMap_nil]
  | cons n ns ih =>
    by_cases hdatum : isDatum n = true
    · rw [List.filter_cons_of_pos hdatum]
      cases skipped with
      | zero =>
        rw [ofDatums, if_pos hdatum, ih, List.drop_zero, List.drop_zero]
        cases hsymbol : ofNode? source n with
        | none => rw [List.filterMap_cons_none hsymbol]
        | some s => rw [List.filterMap_cons_some hsymbol]
      | succ skipped => rw [ofDatums, if_pos hdatum, ih, List.drop_succ_cons]
    · rw [List.filter_cons_of_neg hdatum, ← ih]
      cases skipped <;> rw [ofDatums, if_neg hdatum]

/-- What a symbol of a form can be: a submodule, or a definition with the fields of a struct or
without children. -/
theorem exists_of_ofNode? (h : ofNode? source n = some s) :
    s.range = span n ∧ ∃ first second parts, n.datums = first :: second :: parts ∧
      (s.selection = span second ∧ s.children = parts.filterMap (ofNode? source) ∨
        ∃ name ∈ second.walk, name.kind = .symbol ∧ s.selection = span name ∧
          (s.children = structFields source parts ∨ s.children = [])) := by
  obtain ⟨handle, kind, start, width, text?, fault, hasFault, children⟩ := n
  unfold ofNode? at h
  simp only at h
  split at h
  · rename_i first second parts hdatums
    have hparts : ofDatums source 2 children = parts.filterMap (ofNode? source) := by
      have hfilter := datums_eq ⟨handle, .list, start, width, text?, fault, hasFault, children⟩
      rw [hdatums] at hfilter
      rw [ofDatums_eq, ← hfilter]
      rfl
    split at h
    · cases h
    split at h
    · cases h
      exact ⟨rfl, first, second, parts, hdatums, .inl ⟨rfl, hparts⟩⟩
    split at h
    · cases h
    split at h
    · cases h
    · rename_i name kind' htarget
      cases h
      obtain ⟨hmem, hsymbol⟩ := target?_mem_walk htarget
      refine ⟨rfl, first, second, parts, hdatums, .inr ⟨name, hmem, hsymbol, rfl, ?_⟩⟩
      simp only
      split
      · exact .inl rfl
      · exact .inr rfl
  · cases h

/-- The symbol of a form is nested if the symbols of the nodes below it are. -/
theorem nested_of_below (hn : n.Proper config source)
    (hbelow : ∀ c ∈ n.children, ∀ s, ofNode? source c = some s → s.Nested source)
    (h : ofNode? source n = some s) : s.Nested source := by
  obtain ⟨hrange, first, second, parts, hdatums, hform⟩ := exists_of_ofNode? h
  have hsecond : second ∈ n.datums := by
    rw [hdatums]
    exact List.mem_cons_of_mem _ List.mem_cons_self
  have hparts : parts.Sublist n.datums := by
    rw [hdatums]
    exact (List.sublist_cons_self _ _).trans (List.sublist_cons_self _ _)
  have hmem := Node.mem_walk_of_mem_children (n.datums_sublist.subset hsecond)
  rcases hform with ⟨hselection, hchildren⟩ | ⟨name, hname, hkind, hselection, hchildren⟩
  · refine nested_of_span hn hmem (hn.lt_stop_of_mem_datums hsecond) hrange hselection ?_
    rw [hchildren]
    refine lie_filterMap (fun c s hs => (exists_of_ofNode? hs).1)
      (hn.ordered_datums.sublist hparts) fun c hc => ?_
    exact hbelow c (n.datums_sublist.subset (hparts.subset hc))
  · have hname' := Node.walk_subset n second hmem hname
    refine nested_of_span hn hname' (lt_stop_of_symbol hn hname' hkind) hrange hselection ?_
    rcases hchildren with hchildren | hchildren
    · rw [hchildren]
      exact lie_structFields hn hparts.subset
    · rw [hchildren]
      exact lie_nil _ _

mutual

theorem nested_ofNode? : (n : Node) → n.Proper config source →
    ∀ s, ofNode? source n = some s → s.Nested source
  | ⟨_, _, _, _, _, _, _, children⟩, hn, _, h =>
    nested_of_below hn (nested_ofNodes? children fun _ hc => hn.child hc) h

theorem nested_ofNodes? : (ns : List Node) → (∀ n ∈ ns, n.Proper config source) →
    ∀ n ∈ ns, ∀ s, ofNode? source n = some s → s.Nested source
  | [], _ => nofun
  | n :: ns, h => by
    obtain ⟨hn, hns⟩ := List.forall_mem_cons.mp h
    exact List.forall_mem_cons.mpr ⟨nested_ofNode? n hn, nested_ofNodes? ns hns⟩

end

/-- The symbols of a tree lie one behind the other and are nested. -/
theorem lie_ofTree {t : Tree} {a : Arena} (h : (t.node a).Proper config t.source) :
    Lie t.source (t.node a).start (t.node a).stop (ofTree t a) := by
  rw [ofTree, Tree.items, ofDatums_eq, ← datums_eq, List.drop_zero]
  refine lie_filterMap (fun c s hs => (exists_of_ofNode? hs).1) h.ordered_datums fun c hc => ?_
  exact nested_ofNode? c (h.child ((t.node a).datums_sublist.subset hc))

end Symbol

/-! ## What a client is given -/

namespace Payload

/-- The value has a range under a name. -/
def HasRange (name : Codes) (r : Point × Point) (j : Json) : Prop :=
  ∃ range, j.get? name = some range ∧ IsRange r.1 r.2 range

/-- A range lies in another one. -/
def Encloses (outer inner : Point × Point) : Prop :=
  ¬inner.1.Before outer.1 ∧ ¬inner.2.Before inner.1 ∧ ¬outer.2.Before inner.2

/-- The ranges of symbols lie one behind the other. -/
def InOrder (symbols : List Json) : Prop :=
  symbols.Pairwise fun i j =>
    ∃ r q, HasRange "range" r i ∧ HasRange "range" q j ∧ ¬q.1.Before r.2

/-- A symbol has a name, and in its range lie the range that is selected and its children, one
behind the other and nested in the same way. -/
inductive IsNested : Json → Prop
  | intro {j : Json} {name : Codes} {range selection : Point × Point} {children : List Json}
      (hname : j.get? "name" = some (.str name)) (hne : name.isEmpty = false)
      (hrange : HasRange "range" range j) (hselection : HasRange "selectionRange" selection j)
      (hselected : Encloses range selection)
      (hchildren : j.get? "children" = some (.arr children) ∨
        j.get? "children" = none ∧ children = [])
      (henclosed : ∀ c ∈ children, ∃ r, HasRange "range" r c ∧ Encloses range r)
      (hordered : InOrder children) (hnested : ∀ c ∈ children, IsNested c) : IsNested j

/-- The children of a symbol are left out if there are none. -/
theorem children_documentSymbol (name kind range selection detail : Json) (children : List Json) :
    (documentSymbol name kind range selection detail (.arr children)).get? "children" =
        some (.arr children) ∨
      (documentSymbol name kind range selection detail (.arr children)).get? "children" = none ∧
        children = [] := by
  cases children with
  | nil =>
    refine .inr ⟨?_, rfl⟩
    cases detail <;> rfl
  | cons c cs =>
    refine .inl ?_
    cases detail <;> rfl

end Payload

namespace OpenText

open Payload

variable {t : OpenText} {text : Codes} {source : List Char}

theorem symbolJsons_eq (text : Codes) (lines : Lines) (symbols : List Symbol) :
    symbolJsons text lines symbols = symbols.map (symbolJson text lines) := by
  induction symbols with
  | nil => rfl
  | cons s symbols ih => rw [symbolJsons, ih, List.map_cons]

theorem symbolJson_eq (text : Codes) (lines : Lines) (s : Symbol) :
    symbolJson text lines s =
      documentSymbol (.str (text.slice s.selection.1 s.selection.2)) (.nat s.kind.code)
        (rangeOf lines s.range) (rangeOf lines s.selection)
        ((s.detail.map fun d => Json.str (.ofChars d)).getD .null)
        (.arr (s.children.map (symbolJson text lines))) := by
  obtain ⟨name, kind, range, selection, detail, children⟩ := s
  rw [symbolJson, symbolJsons_eq]

/-- The positions between two offsets. -/
def pointsOf (source : List Char) (span : Nat × Nat) : Point × Point :=
  ((Lines.ofText source).position16 span.1, (Lines.ofText source).position16 span.2)

theorem isRange_rangeOf (source : List Char) (span : Nat × Nat) :
    IsRange (pointsOf source span).1 (pointsOf source span).2
      (rangeOf (Lines.ofText source) span) :=
  ⟨_, _, rfl, rfl, ⟨rfl, rfl⟩, rfl, rfl⟩

theorem hasRange_symbolJson (text : Codes) (source : List Char) (s : Symbol) :
    HasRange "range" (pointsOf source s.range) (symbolJson text (Lines.ofText source) s) := by
  rw [symbolJson_eq]
  exact ⟨_, rfl, isRange_rangeOf source s.range⟩

theorem encloses_pointsOf {outer inner : Nat × Nat} (hstart : outer.1 ≤ inner.1)
    (hle : inner.1 ≤ inner.2) (hstop : inner.2 ≤ outer.2) (hend : outer.2 ≤ source.length) :
    Encloses (pointsOf source outer) (pointsOf source inner) :=
  ⟨Lines.position16_not_before hstart (hle.trans (hstop.trans hend)),
    Lines.position16_not_before hle (hstop.trans hend), Lines.position16_not_before hstop hend⟩

theorem isEmpty_slice {start stop : Nat} (hlt : start < stop) (hle : stop ≤ text.chars.length) :
    (text.slice start stop).isEmpty = false := by
  rw [Codes.length_chars] at hle
  rw [Codes.isEmpty, Codes.slice, List.isEmpty_eq_false_iff, Ne, List.drop_eq_nil_iff,
    List.length_take]
  omega

theorem inOrder_symbolJson {symbols : List Symbol}
    (hordered : symbols.Pairwise fun s t => s.range.2 ≤ t.range.1)
    (hnested : ∀ s ∈ symbols, s.Nested source) :
    InOrder (symbols.map (symbolJson text (Lines.ofText source))) := by
  rw [InOrder, List.pairwise_map]
  refine hordered.imp_of_mem fun {s t} _ ht hle => ?_
  refine ⟨_, _, hasRange_symbolJson text source s, hasRange_symbolJson text source t, ?_⟩
  obtain ⟨hlt, hend⟩ := (hnested t ht).range_lt
  exact Lines.position16_not_before hle ((Nat.le_of_lt hlt).trans hend)

/-- Positions lie as the offsets do, so that nested symbols are given as nested ones. -/
theorem isNested_symbolJson {s : Symbol} (h : s.Nested text.chars) :
    IsNested (symbolJson text (Lines.ofText text.chars) s) := by
  induction h with
  | @intro s hstart hname hstop hend hwithin hordered hnested ih =>
    have hjson := symbolJson_eq text (Lines.ofText text.chars) s
    refine .intro (by rw [hjson]; rfl) (isEmpty_slice hname (hstop.trans hend))
      (hasRange_symbolJson text text.chars s)
      (by rw [hjson]; exact ⟨_, rfl, isRange_rangeOf text.chars s.selection⟩)
      (encloses_pointsOf hstart (Nat.le_of_lt hname) hstop hend)
      (by rw [hjson]; exact children_documentSymbol _ _ _ _ _ _) ?_
      (inOrder_symbolJson hordered hnested) ?_
    · intro j hj
      obtain ⟨c, hc, rfl⟩ := List.mem_map.mp hj
      obtain ⟨hfirst, hlast⟩ := hwithin c hc
      obtain ⟨hlt, -⟩ := (hnested c hc).range_lt
      exact ⟨_, hasRange_symbolJson text text.chars c,
        encloses_pointsOf hfirst (Nat.le_of_lt hlt) hlast hend⟩
    · intro j hj
      obtain ⟨c, hc, rfl⟩ := List.mem_map.mp hj
      exact ih c hc

/-- The tree of an open text tiles it by nodes of the schema. -/
theorem Sound.proper (h : t.Sound) :
    (t.tree.node t.arena).Proper t.tree.config t.tree.source := by
  obtain ⟨ss, hcov, hroot⟩ := h.exists_formed
  obtain ⟨-, -, -, htiles⟩ := History.tiles_of_covers hcov
  refine ⟨htiles, fun m hm => ?_⟩
  apply hroot
  rw [← Arena.map_shape_walk_view t.tree.rootStart hcov.holds]
  exact List.mem_map_of_mem hm

/-- The symbols of an open text are nested. -/
theorem Sound.isNested_symbols (h : t.Sound) :
    InOrder t.symbols ∧ ∀ j ∈ t.symbols, IsNested j := by
  have hlie := Symbol.lie_ofTree h.proper
  rw [symbols, symbolJsons_eq, Tree.lines]
  refine ⟨inOrder_symbolJson hlie.ordered hlie.nested, fun j hj => ?_⟩
  obtain ⟨s, hs, rfl⟩ := List.mem_map.mp hj
  have hnested := hlie.nested s hs
  rw [h.source] at hnested ⊢
  exact isNested_symbolJson hnested

end OpenText

namespace Server

open Handler Payload

variable {s : Server}

/-- Whatever is asked for, symbols are given in order and nested. -/
theorem keeps_nested (params : Json) :
    Keeps (onDocumentSymbol params) fun answer =>
      ∃ symbols, answer = .arr symbols ∧ InOrder symbols ∧ ∀ j ∈ symbols, IsNested j := by
  refine (keeps_requested? params).bind fun d? hd? => ?_
  cases d? with
  | none => exact keeps_pure ⟨[], rfl, .nil, nofun⟩
  | some d =>
    refine keeps_pure ⟨d.content.symbols, rfl, ?_⟩
    cases hcontent : d.content with
    | text t => exact (hd? d rfl t hcontent).isNested_symbols
    | value j config hasErrors => exact ⟨.nil, nofun⟩

/-- After any messages, a request for the symbols of an open document is answered with them, and
every answer to such a request is a list of nested symbols. -/
theorem documentSymbol_nested (hs : s.documents = []) (messages : List Json.Fields) :
    (∀ params description uri d, params.get? "textDocument" = some description →
      description.get? "uri" = some (.str uri) →
      (s.after messages).document? (.str uri) = some d →
      Gives (onDocumentSymbol params) (s.after messages) (.arr d.content.symbols)
        (s.after messages)) ∧
    ∀ params answer s', Gives (onDocumentSymbol params) (s.after messages) answer s' →
      ∃ symbols, answer = .arr symbols ∧ InOrder symbols ∧ ∀ j ∈ symbols, IsNested j := by
  constructor
  · intro params description uri d hdescription huri hd
    exact (gives_requested? hd hdescription huri).bind (gives_pure _ _)
  · intro params answer s' hgives
    exact (keeps_nested params).of_gives ((textsSound_of_nil hs).after messages) hgives

/-- A submodule with a curried function, in which there is a stray dot, and a struct. -/
theorem documentSymbol_nested_module :
    let source : Codes := "(module m r (define ((f x) y) .) (struct p (a [b])))"
    let s := (start ⟨['/'], []⟩).after [(Notice.opened "u" source).message]
    let params : Json := .obj [("textDocument", .obj [("uri", .str "u")])]
    ∃ symbols, Gives (onDocumentSymbol params) s (.arr symbols) s ∧ symbols.length = 1 ∧
      InOrder symbols ∧ ∀ j ∈ symbols, IsNested j := by
  intro source s params
  obtain ⟨hanswered, hnested⟩ := documentSymbol_nested (s := start ⟨['/'], []⟩) rfl
    [(Notice.opened "u" source).message]
  obtain ⟨s', hhandle, hbecomes⟩ := handle_notice (sound_of_nil (s := start ⟨['/'], []⟩) rfl)
    (Notice.opened "u" source).says_message
  have hafter : s = s' := congrArg Prod.snd hhandle
  obtain ⟨d, hd, -, hcontent⟩ := hbecomes.sound.exists_document hbecomes.text?_self
  have hopen : s.document? (.str "u") = some d := by
    rw [hafter]
    exact hd
  have hgives := hanswered params _ "u" d rfl rfl hopen
  have hlength : d.content.symbols.length = 1 := by
    rw [hcontent]
    show (OpenText.read .default source).symbols.length = 1
    decide +kernel
  obtain ⟨symbols, hsymbols, hgood⟩ := hnested params _ _ hgives
  cases hsymbols
  exact ⟨_, hgives, hlength, hgood⟩

end Server

end RacketTree

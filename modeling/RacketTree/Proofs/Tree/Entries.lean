import RacketTree.Proofs.Tree.Accepts
import RacketTree.Proofs.Tree.Conforms
import RacketTree.Proofs.Tree.Leaves

/-!
# The leaves of a tree are the tokens of its source

An entry is what a leaf and a token have in common: kind, span, text and fault. The entries of a
node are those of its leaves, without placeholders and with each outermost block comment as one.
Those of a tree that has been read are the entries of the tokens; if a leaf says that nesting is too
deep, it is the last one and takes all tokens from some place on (`entries_parse`).
-/

namespace RacketTree

/-- A leaf or a token at its place. -/
structure LeafEntry where
  kind : Kind
  start : Nat
  stop : Nat
  text : List Char
  fault : Option Fault
  deriving DecidableEq, Repr

/-- The entry of a token; a token with a fault is an error. -/
def Token.entry (t : Token) : LeafEntry :=
  ⟨if t.fault.isSome then .error else t.kind, t.start, t.stop, t.text, t.fault⟩

namespace Node

/-- The entry of a node. -/
def entry (n : Node) (source : List Char) : LeafEntry :=
  ⟨n.kind, n.start, n.stop, n.text source, n.fault⟩

mutual

/-- The entries of the leaves of a node, without placeholders and with a block comment as one. -/
def entries (source : List Char) : Node → List LeafEntry
  | n@⟨_, kind, _, _, text?, _, _, children⟩ =>
    if kind = .blockComment then [n.entry source]
    else if kind = .missing then []
    else if text?.isSome then [n.entry source]
    else allEntries source children

/-- The entries of several nodes. -/
def allEntries (source : List Char) : List Node → List LeafEntry
  | [] => []
  | n :: rest => n.entries source ++ allEntries source rest

end

theorem entries_eq (n : Node) (source : List Char) :
    n.entries source =
      if n.kind = .blockComment then [n.entry source]
      else if n.kind = .missing then []
      else if n.isLeaf then [n.entry source]
      else allEntries source n.children := by
  obtain ⟨handle, kind, start, width, text?, fault, hasFault, children⟩ := n
  rw [entries]
  rfl

end Node

/-! ## Tokens -/

namespace Token

open Lexeme (texts marked)

theorem place_append (start : Nat) (xs ys : List Lexeme) :
    place start (xs ++ ys) = place start xs ++ place (start + (texts xs).length) ys := by
  induction xs generalizing start with
  | nil => simp [place]
  | cons x xs ih => simp [place, ih, Nat.add_assoc]

theorem map_entry_place_marked (start : Nat) (ls : List Lexeme) :
    (place start (ls.map marked)).map entry = (place start ls).map entry := by
  induction ls generalizing start with
  | nil => rfl
  | cons l ls ih =>
    simp only [List.map_cons, place, ih, List.cons.injEq]
    refine ⟨?_, rfl⟩
    cases hf : l.fault <;> simp [entry, marked, stop, hf]

/-- The tokens are not empty and lie side by side from `start` to `stop`. -/
def Tile (start stop : Nat) : List Token → Prop
  | [] => start = stop
  | t :: rest => t.start = start ∧ t.text ≠ [] ∧ Tile t.stop stop rest

theorem tile_place (start : Nat) {ls : List Lexeme} (h : ∀ l ∈ ls, l.text ≠ []) :
    Tile start (start + (texts ls).length) (place start ls) := by
  induction ls generalizing start with
  | nil => rfl
  | cons l ls ih =>
    obtain ⟨hl, hls⟩ := List.forall_mem_cons.mp h
    refine ⟨rfl, hl, ?_⟩
    have hrest := ih (start + l.text.length) hls
    rw [Nat.add_assoc, ← List.length_append, ← Lexeme.texts_cons] at hrest
    exact hrest

theorem flatMap_text_place (start : Nat) (ls : List Lexeme) :
    (place start ls).flatMap (·.text) = texts ls := by
  induction ls generalizing start with
  | nil => rfl
  | cons l ls ih => simp [place, ih]

/-- The tokens of a text are not empty, lie side by side and cover it. -/
theorem tile_tokenize (source : List Char) :
    Tile 0 source.length (tokenize source) ∧ (tokenize source).flatMap (·.text) = source := by
  have hlexemes : texts (lexemes source) = source := texts_lexemes source
  have htile := tile_place 0 fun l hl => (lexemes_valid source l hl).nonempty
  rw [hlexemes, Nat.zero_add] at htile
  exact ⟨htile, (flatMap_text_place 0 _).trans hlexemes⟩

/-- No token says that nesting is too deep. -/
theorem fault_ne_nestingTooDeep {source : List Char} {t : Token} (h : t ∈ tokenize source) :
    t.fault ≠ some .nestingTooDeep := by
  have hmem : t.toLexeme ∈ lexemes source := by
    rw [← Grammar.toLexeme_place 0 (lexemes source)]
    exact List.mem_map_of_mem h
  intro hf
  rcases (lexemes_spelled source _ hmem).fault _ hf with ⟨-, hno⟩ | ⟨-, hno | hno⟩ <;> cases hno

end Token

/-! ## Stored trees -/

namespace Shape

variable {config : Config}

theorem Formed.form {s : Shape} (h : s.Formed config) : Form config s := by
  cases s with
  | leaf => exact formed_leaf.mp h
  | branch => exact (formed_branch.mp h).1

theorem Form.eq_missing {s : Shape} (h : Form config s) (hk : s.kind = .missing) :
    s = Shape.missing := by
  cases h with
  | missing => rfl
  | @token k text hlex =>
    cases hk
    cases hlex
  | @wrapped k _ _ _ hmark =>
    rcases hmark.kind_cases with hw | hd <;> rw [show k = .missing from hk] at *
    · cases hw
    · cases hd
  | @sequence opener =>
    have hseq := Kind.isSequence_ofOpener opener
    rw [show Kind.ofOpener opener = .missing from hk] at hseq
    cases hseq
  | _ => cases hk

theorem texts_lexemes_leaf {k : Kind} {text : List Char} {f : Option Fault}
    (h : Form config (leaf k text f)) : Lexeme.texts (leaf k text f).lexemes = text := by
  rw [lexemes]
  split
  · rename_i hk
    cases h.eq_missing hk
    rfl
  · exact List.append_nil text

mutual

/-- The leaves of a tree spell it. -/
theorem texts_lexemes : {s : Shape} → s.Formed config → Lexeme.texts s.lexemes = s.text
  | leaf _ _ _, h => texts_lexemes_leaf h.form
  | branch kind ss fault, h => by
    rw [lexemes, text]
    split
    · exact List.append_nil _
    · exact texts_allLexemes (formed_branch.mp h).2

theorem texts_allLexemes :
    {ss : List Shape} → (∀ s ∈ ss, s.Formed config) → Lexeme.texts (allLexemes ss) = texts ss
  | [], _ => rfl
  | s :: ss, h => by
    obtain ⟨hs, hss⟩ := List.forall_mem_cons.mp h
    rw [allLexemes, Lexeme.texts_append, texts_lexemes hs, texts_allLexemes hss, texts]

end

/-- The kinds of block comments and their parts. -/
def isCommentKind (k : Kind) : Bool :=
  k == .blockComment || k == .commentText || k == .blockCommentOpener || k == .blockCommentCloser

theorem Form.children_of_comment {k : Kind} {ss : List Shape} {f : Option Fault}
    (h : Form config (branch k ss f)) (hk : isCommentKind k = true) :
    ∀ s ∈ ss, isCommentKind s.kind = true := by
  cases h with
  | @blockComment inner hinner =>
    intro s hs
    simp only [List.mem_cons, List.mem_append, List.not_mem_nil, or_false] at hs
    rcases hs with rfl | hs | rfl
    · rfl
    · rcases hinner s hs with hkind | ⟨text, -, rfl⟩
      · rw [hkind]
        rfl
      · rfl
    · rfl
  | wrapped hmark =>
    rcases hmark.kind_cases with hw | rfl
    · cases k <;> first
        | cases hw; done
        | cases hk
    · cases hk
  | @sequence opener =>
    have hseq := Kind.isSequence_ofOpener opener
    cases hopener : Kind.ofOpener opener <;> simp [hopener, Kind.isSequence, isCommentKind] at *
  | _ => cases hk

theorem Form.fault_of_comment {s : Shape} (h : Form config s) (hk : isCommentKind s.kind = true) :
    s.fault = none := by
  by_contra hf
  rw [h.error_iff.mpr hf] at hk
  cases hk

mutual

/-- Below a part of a block comment there are only such parts. -/
theorem kind_of_mem_comment {t : Shape} :
    {s : Shape} → s.Formed config → isCommentKind s.kind = true → t ∈ s.walk →
      isCommentKind t.kind = true
  | leaf _ _ _, _, hk, ht => by
    rw [List.mem_singleton.mp ht]
    exact hk
  | branch kind ss fault, hs, hk, ht => by
    obtain ⟨hform, hchildren⟩ := formed_branch.mp hs
    rcases List.mem_cons.mp ht with rfl | ht
    · exact hk
    · exact kind_of_mem_comments hchildren (hform.children_of_comment hk) ht

theorem kind_of_mem_comments {t : Shape} :
    {ss : List Shape} → (∀ s ∈ ss, s.Formed config) → (∀ s ∈ ss, isCommentKind s.kind = true) →
      t ∈ walkAll ss → isCommentKind t.kind = true
  | s :: ss, hss, hks, ht => by
    obtain ⟨hs, hss⟩ := List.forall_mem_cons.mp hss
    obtain ⟨hk, hks⟩ := List.forall_mem_cons.mp hks
    rcases List.mem_append.mp ht with ht | ht
    · exact kind_of_mem_comment hs hk ht
    · exact kind_of_mem_comments hss hks ht

end

/-- There is no fault in a block comment. -/
theorem fault_of_mem_comment {s t : Shape} (hs : s.Formed config)
    (hk : isCommentKind s.kind = true) (ht : t ∈ s.walk) : t.fault = none :=
  (hs t ht).fault_of_comment (kind_of_mem_comment hs hk ht)

end Shape

theorem Lexeme.kind_of_mem_draft {l : Lexeme} {t : Shape} (hl : l.Valid) (hs : l.Spelled)
    (hk : l.kind = .blockComment) (ht : t ∈ l.draft.shape.walk) :
    Shape.isCommentKind t.kind = true := by
  obtain ⟨hstops, hf, -⟩ := Grammar.lone_of_blank (.inr (.inr hk))
  have hformed := (draft_fits .default hl hs hstops hf).formed
  obtain ⟨body, hbody, hwidth, -⟩ := hl.comment hk
  obtain ⟨inner, hdraft, -, -⟩ := BlockComment.draft_of_blockWidth hwidth
  refine Shape.kind_of_mem_comment hformed ?_ ht
  rw [draft, if_pos hk, hbody, hdraft]
  rfl

theorem Node.fault_shape (n : Node) : n.shape.fault = n.fault := by
  cases h : n.text? with
  | some text => rw [shape_of_leaf h, Shape.fault]
  | none => rw [shape_of_branch h, Shape.fault]

namespace Arena

open Node
open Token (place)

variable {config : Config}

theorem entry_view {a : Arena} {h : Handle} {s : Shape} {start : Nat} {source tail : List Char}
    (hold : a.Holds h s) (hs : s.Formed config) (hsource : source.drop start = s.text ++ tail) :
    (a.view h start).entry source = Token.entry ⟨⟨s.kind, s.text, s.fault⟩, start⟩ := by
  have hshape := shape_view start hold
  have hkind : (a.view h start).kind = s.kind := by rw [← kind_shape, hshape]
  have hfault : (a.view h start).fault = s.fault := by rw [← fault_shape, hshape]
  have htext : (a.view h start).text source = s.text := by
    cases s with
    | leaf kind text fault =>
      obtain ⟨-, ht, -, -⟩ := view_leaf hold start
      rw [Node.text, ht]
      rfl
    | branch kind ss fault =>
      obtain ⟨hs, hall, -, ht, -, hcs⟩ := view_branch hold start
      rw [Node.text, ht]
      exact slice_view hold hsource
  have hmarked : (if s.fault.isSome then .error else s.kind) = s.kind := by
    cases hf : s.fault with
    | none => rfl
    | some f => exact (hs.form.error_iff.mpr (by rw [hf]; nofun)).symm
  simp only [Node.entry, Token.entry, Token.stop, Node.stop, start_view, width_view, hold.width, hkind,
    hfault, htext, hmarked]

mutual

/-- The entries of a stored tree are those of its leaves as tokens at their places. -/
theorem entries_view {a : Arena} {h : Handle} {start : Nat} {source tail : List Char} :
    {s : Shape} → a.Holds h s → s.Formed config → source.drop start = s.text ++ tail →
      (a.view h start).entries source = (place start s.lexemes).map Token.entry
  | .leaf kind text fault, hold, hs, hsource => by
    obtain ⟨hk, ht, -, -⟩ := view_leaf hold start
    rw [entries_eq, hk, Node.isLeaf, ht, entry_view hold hs hsource, Shape.lexemes]
    by_cases hmissing : kind = .missing
    · rw [if_neg (by rw [hmissing]; nofun), if_pos hmissing, if_pos hmissing]
      rfl
    · rw [if_neg hmissing, if_neg hmissing, if_pos (Option.isSome_some), ite_self]
      rfl
  | .branch kind ss fault, hold, hs, hsource => by
    obtain ⟨hs', hall, hk, ht, -, hcs⟩ := view_branch hold start
    rw [entries_eq, hk, Node.isLeaf, ht, hcs, entry_view hold hs hsource, Shape.lexemes]
    obtain ⟨hform, hchildren⟩ := Shape.formed_branch.mp hs
    have hmissing : kind ≠ .missing := by
      intro hk
      cases hform.eq_missing hk
    by_cases hcomment : kind = .blockComment
    · rw [if_pos hcomment, if_pos hcomment]
      rfl
    · rw [if_neg hcomment, if_neg hcomment, if_neg hmissing, if_neg nofun]
      exact allEntries_viewAll hall hchildren hsource

theorem allEntries_viewAll {a : Arena} {n : Nat} {hs : List Handle} {start : Nat}
    {source tail : List Char} :
    {ss : List Shape} → a.HoldsAll n hs ss → (∀ s ∈ ss, s.Formed config) →
      source.drop start = Shape.texts ss ++ tail →
      allEntries source (a.viewAll start hs) =
        (place start (Shape.allLexemes ss)).map Token.entry
  | [], hall, _, _ => by
    cases hall
    rfl
  | s :: ss, ⟨h, rest, hhs, _, hold, hrest⟩, hformed, hsource => by
    obtain ⟨hs, hss⟩ := List.forall_mem_cons.mp hformed
    rw [Shape.texts, List.append_assoc] at hsource
    have hnext : source.drop (start + a.width h) = Shape.texts ss ++ tail := by
      rw [← List.drop_drop, hsource, hold.width, List.drop_left]
    rw [hhs, viewAll, allEntries, entries_view hold hs hsource,
      allEntries_viewAll hrest hss hnext, Shape.allLexemes, Token.place_append, List.map_append,
      Shape.texts_lexemes hs, hold.width]

end

theorem leaf_of_fault {s : Shape} (h : s.Formed config) (hf : s.fault ≠ none) :
    s.kind ≠ .blockComment ∧ s.kind ≠ .missing := by
  have hk := h.form.error_iff.mpr hf
  rw [hk]
  exact ⟨nofun, nofun⟩

mutual

/-- The entries with a fault are those of the leaves with a fault. -/
theorem mem_entries_view {a : Arena} {h : Handle} {start : Nat} {source : List Char} {e : LeafEntry}
    (he : e.fault ≠ none) :
    {s : Shape} → a.Holds h s → s.Formed config →
      (e ∈ (a.view h start).entries source ↔
        ∃ n ∈ (a.view h start).walk, n.isLeaf = true ∧ n.entry source = e)
  | .leaf kind text fault, hold, hs => by
    obtain ⟨hk, ht, hf, hcs⟩ := view_leaf hold start
    have hleaf : (a.view h start).isLeaf = true := by rw [Node.isLeaf, ht]; rfl
    rw [walk_eq, hcs, walkAll, entries_eq, hk, hleaf]
    simp only [List.mem_singleton, exists_eq_left, hleaf, true_and]
    constructor
    · intro hmem
      split at hmem
      · exact (List.mem_singleton.mp hmem).symm
      split at hmem
      · cases hmem
      · exact (List.mem_singleton.mp hmem).symm
    · rintro rfl
      obtain ⟨hcomment, hmissing⟩ := leaf_of_fault hs (hf ▸ he)
      simp only [Shape.kind] at hcomment hmissing
      rw [if_neg hcomment, if_neg hmissing, if_pos trivial]
      exact List.mem_cons_self
  | .branch kind ss fault, hold, hs => by
    obtain ⟨hs', hall, hk, ht, hf, hcs⟩ := view_branch hold start
    have hleaf : (a.view h start).isLeaf = false := by rw [Node.isLeaf, ht]; rfl
    obtain ⟨hform, hchildren⟩ := Shape.formed_branch.mp hs
    rw [walk_eq, entries_eq, hk, hleaf]
    simp only [List.mem_cons, exists_eq_or_imp, hleaf, Bool.false_eq_true, false_and, false_or,
      if_false]
    by_cases hcomment : kind = .blockComment
    · -- neither the comment nor a leaf below it has a fault
      have hkind : Shape.isCommentKind kind = true := by rw [hcomment]; rfl
      rw [if_pos hcomment, List.mem_singleton]
      constructor
      · rintro rfl
        exact absurd (hform.fault_of_comment hkind) (hf ▸ he)
      · rintro ⟨n, hn, -, rfl⟩
        have hwalk : n.shape ∈ (Shape.branch kind ss fault).walk := by
          rw [← map_shape_walk_view start hold]
          refine List.mem_map_of_mem ?_
          rw [walk_eq]
          exact List.mem_cons_of_mem _ hn
        have hnone := Shape.fault_of_mem_comment hs hkind hwalk
        rw [fault_shape] at hnone
        exact absurd hnone he
    · have hmissing : kind ≠ .missing := by
        intro hk
        cases hform.eq_missing hk
      rw [if_neg hcomment, if_neg hmissing, hcs]
      exact mem_allEntries_viewAll he hall hchildren

theorem mem_allEntries_viewAll {a : Arena} {m : Nat} {hs : List Handle} {start : Nat}
    {source : List Char} {e : LeafEntry} (he : e.fault ≠ none) :
    {ss : List Shape} → a.HoldsAll m hs ss → (∀ s ∈ ss, s.Formed config) →
      (e ∈ allEntries source (a.viewAll start hs) ↔
        ∃ n ∈ walkAll (a.viewAll start hs), n.isLeaf = true ∧ n.entry source = e)
  | [], hall, _ => by
    cases hall
    simp [viewAll, allEntries, walkAll]
  | s :: ss, ⟨h, rest, hhs, _, hold, hrest⟩, hformed => by
    obtain ⟨hs, hss⟩ := List.forall_mem_cons.mp hformed
    rw [hhs, viewAll, allEntries, walkAll, List.mem_append, mem_entries_view he hold hs,
      mem_allEntries_viewAll he hrest hss]
    simp only [List.mem_append, or_and_right, exists_or]

end

end Arena

/-! ## Trees that have been read -/

theorem Read.becomes_readItems (config : Config) (source : List Char) :
    ∃ e, Read.Becomes e (Token.lexemes source)
      (Shape.allLexemes (Read.shapes config source)) := by
  have hall : readItems config 0 (Token.lexemes source) =
      readItems config 0 (Token.lexemes source) ++ [] := (List.append_nil _).symm
  obtain ⟨used, rest, e, hused, items, hrest, -⟩ := exists_items hall
  have hrest' : rest = [] := by
    cases rest with
    | nil => rfl
    | cons l rest =>
      rw [readItems_cons] at hrest
      cases hrest
  rw [hrest', List.append_nil] at hused
  have hlexemes := items.lexemes fun l hl =>
    ⟨Token.lexemes_valid source l (hused ▸ hl), Token.lexemes_spelled source l (hused ▸ hl)⟩
  rw [Draft.allLexemes, Draft.allShapes_eq (isSingle_readItems source)] at hlexemes
  exact ⟨e, hused ▸ hlexemes⟩

theorem Read.formed_source (config : Config) (source : List Char) :
    (Shape.branch .source (Read.shapes config source) none).Formed config := by
  have hitems : ∀ s ∈ Read.shapes config source, s.isItem = true ∧ s.Formed config := by
    intro s hs
    obtain ⟨d, hd, rfl⟩ := List.mem_map.mp hs
    refine formed_readItems config source d hd d.shape ?_
    rw [Draft.shapes_eq (isSingle_readItems source d hd)]
    exact List.mem_cons_self
  exact Shape.formed_branch.mpr ⟨.source fun s hs => (hitems s hs).1, fun s hs => (hitems s hs).2⟩

theorem texts_map_marked (ls : List Lexeme) :
    Lexeme.texts (ls.map Lexeme.marked) = Lexeme.texts ls := by
  induction ls with
  | nil => rfl
  | cons l ls ih =>
    rw [List.map_cons, Lexeme.texts_cons, Lexeme.texts_cons, ih]
    rfl

/-- The entries of a tree are those of the tokens of its source, up to the place where nesting is
too deep. -/
theorem entries_parse_cases (config : Config) (source : List Char) :
    let root := (parse config source).2.node (parse config source).1
    let tokens := Token.tokenize source
    root.entries source = tokens.map Token.entry ∨
      ∃ before first rest, tokens = before ++ first :: rest ∧
        root.entries source = before.map Token.entry ++
          [⟨.error, first.start, source.length, (first :: rest).flatMap (·.text),
            some .nestingTooDeep⟩] := by
  intro root tokens
  have hcovers := covers_parse config source
  have hsource : source.drop 0 =
      (Shape.branch .source (Read.shapes config source) none).text ++ [] := by
    rw [List.drop_zero, Shape.text, hcovers.text, List.append_nil]
    rfl
  have hentries : root.entries source =
      (Token.place 0 (Shape.allLexemes (Read.shapes config source))).map Token.entry :=
    Arena.entries_view hcovers.holds (Read.formed_source config source) hsource
  have htokens : tokens = Token.place 0 (Token.lexemes source) := rfl
  obtain ⟨e, hbecomes⟩ := Read.becomes_readItems config source
  generalize Shape.allLexemes (Read.shapes config source) = out at hentries hbecomes
  cases hbecomes with
  | all => exact .inl (hentries.trans (Token.map_entry_place_marked 0 _))
  | @buried before after he hls hne =>
    cases after with
    | nil => exact absurd rfl hne
    | cons l ls =>
      -- the leaf starts where the lexemes before it end, and takes the rest of the source
      obtain ⟨start, hstart⟩ : ∃ start, (Lexeme.texts before).length = start := ⟨_, rfl⟩
      have hcut : tokens = Token.place 0 before ++ Token.place start (l :: ls) := by
        rw [htokens, hls, Token.place_append, Nat.zero_add, hstart]
      have hlength : source.length = start + (Lexeme.texts (l :: ls)).length := by
        have htexts := Token.texts_lexemes source
        rw [hls, Lexeme.texts_append] at htexts
        rw [← htexts, List.length_append, hstart]
      refine .inr ⟨Token.place 0 before, ⟨l, start⟩, Token.place (start + l.text.length) ls, hcut, ?_⟩
      have htext : ((⟨l, start⟩ : Token) :: Token.place (start + l.text.length) ls).flatMap (·.text) =
          Lexeme.texts (l :: ls) := Token.flatMap_text_place start (l :: ls)
      rw [hentries, Token.place_append, List.map_append, Token.map_entry_place_marked,
        texts_map_marked, Nat.zero_add, hstart, hlength, htext]
      rfl

/-- If no leaf says that nesting is too deep, the entries of a tree are those of the tokens of its
source. Otherwise that leaf is the last entry, and it takes all tokens from some place on. The
tokens are not empty, lie side by side and cover the source. -/
theorem entries_parse (config : Config) (source : List Char) :
    let root := (parse config source).2.node (parse config source).1
    let tokens := Token.tokenize source
    ((∀ n ∈ root.leaves, n.fault ≠ some .nestingTooDeep) →
        root.entries source = tokens.map Token.entry) ∧
      (∀ n ∈ root.leaves, n.fault = some .nestingTooDeep →
        ∃ before first rest, tokens = before ++ first :: rest ∧
          root.entries source = before.map Token.entry ++ [n.entry source] ∧
          n.start = first.start ∧ n.stop = source.length ∧
          n.text? = some ((first :: rest).flatMap (·.text))) ∧
      Token.Tile 0 source.length tokens ∧ tokens.flatMap (·.text) = source := by
  intro root tokens
  have hmem : ∀ e : LeafEntry, e.fault = some .nestingTooDeep →
      (e ∈ root.entries source ↔ ∃ n ∈ root.walk, n.isLeaf = true ∧ n.entry source = e) :=
    fun e he => Arena.mem_entries_view (by rw [he]; nofun) (covers_parse config source).holds
      (Read.formed_source config source)
  have hclean : ∀ t ∈ tokens, (Token.entry t).fault ≠ some .nestingTooDeep :=
    fun t ht => Token.fault_ne_nestingTooDeep ht
  refine ⟨fun hnone => ?_, fun n hn hfault => ?_, Token.tile_tokenize source⟩
  · rcases entries_parse_cases config source with hall | ⟨before, first, rest, -, hcut⟩
    · exact hall
    · have hlast : _ ∈ root.entries source :=
        hcut ▸ List.mem_append_right _ List.mem_cons_self
      obtain ⟨n, hn, hleaf, hentry⟩ := (hmem _ rfl).mp hlast
      have hfault : n.fault = some .nestingTooDeep := congrArg LeafEntry.fault hentry
      exact absurd hfault (hnone n (List.mem_filter.mpr ⟨hn, hleaf⟩))
  · obtain ⟨hwalk, hleaf⟩ := List.mem_filter.mp hn
    have hentry : n.entry source ∈ root.entries source :=
      (hmem _ hfault).mpr ⟨n, hwalk, hleaf, rfl⟩
    rcases entries_parse_cases config source with hall | ⟨before, first, rest, htokens, hcut⟩
    · rw [hall] at hentry
      obtain ⟨t, ht, hte⟩ := List.mem_map.mp hentry
      exact absurd (hte ▸ hfault) (hclean t ht)
    · rw [hcut] at hentry
      rcases List.mem_append.mp hentry with hentry | hentry
      · obtain ⟨t, ht, hte⟩ := List.mem_map.mp hentry
        have hmemt : t ∈ Token.tokenize source := by
          rw [htokens]
          exact List.mem_append_left _ ht
        exact absurd (hte ▸ hfault) (hclean t hmemt)
      · have heq := List.mem_singleton.mp hentry
        obtain ⟨text, htext⟩ := Option.isSome_iff_exists.mp hleaf
        refine ⟨before, first, rest, htokens, by rw [hcut, heq], congrArg LeafEntry.start heq,
          congrArg LeafEntry.stop heq, ?_⟩
        have hspell : n.text source = (first :: rest).flatMap (·.text) := congrArg LeafEntry.text heq
        rw [Node.text, htext, Option.getD_some] at hspell
        rw [htext, hspell]

/-- A list in a list, where one level is allowed. -/
theorem entries_parse_deep :
    let config : Config := { maxDepth := 1 }
    let source := ['(', '(', 'a']
    let root := (parse config source).2.node (parse config source).1
    ∃ n ∈ root.leaves, n.fault = some .nestingTooDeep ∧
      ∃ before first rest, Token.tokenize source = before ++ first :: rest ∧
        root.entries source = before.map Token.entry ++ [n.entry source] := by
  intro config source root
  have hany : root.leaves.any (fun n => n.fault = some .nestingTooDeep) = true := by
    decide +kernel
  obtain ⟨n, hn, hdeep⟩ := List.any_eq_true.mp hany
  have hfault : n.fault = some .nestingTooDeep := of_decide_eq_true hdeep
  obtain ⟨before, first, rest, htokens, hentries, -⟩ :=
    (entries_parse config source).2.1 n hn hfault
  exact ⟨n, hn, hfault, before, first, rest, htokens, hentries⟩

end RacketTree

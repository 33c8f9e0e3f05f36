import RacketTree.Proofs.Tree.Reparse

/-!
# Reading again and reading afresh

A tree that has the items of its text is edited. The tree that `Tree.reparse` gives has the items of
the new text, unless an item of the old text is `Overlooked`: it ends in a `#lang` at least two
characters before the edit, and the new text names a language behind it. Exactly then the two trees
differ (`reparse_equivalent_iff`). Before an edit that is overlooked the text ends with `#lang` and
two or more blanks (`endsInLangBlanks_of_overlooked`).
-/

namespace RacketTree

open Token (lexemes langMark NamesLanguage)

/-- An item of `old` ends in a `#lang` at least two characters before `start`, and in `new` the name
of a language follows it. -/
def Overlooked (config : Config) (old : List Char) (start : Nat) (new : List Char) : Prop :=
  ∃ ds d ds', Read.readItems config 0 (lexemes old) = ds ++ d :: ds' ∧
    (Draft.texts (ds ++ [d])).length + 2 ≤ start ∧ d.EndsIn .extension langMark ∧
    NamesLanguage (new.drop (Draft.texts (ds ++ [d])).length)

/-- The text ends with `#lang` and two or more blanks, each a space or a tab. -/
def EndsInLangBlanks (cs : List Char) : Prop :=
  ∃ front blanks, cs = front ++ langMark ++ blanks ∧ 2 ≤ blanks.length ∧
    ∀ c ∈ blanks, c = ' ' ∨ c = '\t'

variable {config : Config} {e : Edit} {old new : List Char}

theorem Edit.Describes.split (he : e.Describes old new) :
    old = old.take e.start ++ old.drop e.start ∧ new = old.take e.start ++ new.drop e.start ∧
      (old.take e.start).length = e.start := by
  have hle := he.start_le
  exact ⟨(List.take_append_drop _ _).symm, he.common, by rw [List.length_take]; omega⟩

/-- The new text has another item where one is overlooked. -/
theorem Overlooked.readItems (h : Overlooked config old e.start new) (he : e.Describes old new) :
    ∃ ds d ds' d' ds'' t, Read.readItems config 0 (lexemes old) = ds ++ d :: ds' ∧
      (Draft.texts (ds ++ [d])).length + 2 ≤ e.start ∧ d.EndsIn .extension langMark ∧
      Read.readItems config 0 (lexemes new) = ds ++ d' :: ds'' ∧ d'.EndsIn .readerDirective t := by
  obtain ⟨ds, d, ds', hds, hle, hends, hname⟩ := h
  obtain ⟨hold, hnew, hlen⟩ := he.split
  rw [hnew] at hname
  rw [hold] at hds
  obtain ⟨d', ds'', t, hds'', hends'⟩ := Read.readItems_overlooked hds (by omega) hends hname
  rw [← hnew] at hds''
  rw [← hold] at hds
  exact ⟨ds, d, ds', d', ds'', t, hds, hle, hends, hds'', hends'⟩

theorem endsInLangBlanks_of_overlooked (h : Overlooked config old e.start new)
    (he : e.Describes old new) : EndsInLangBlanks (old.take e.start) := by
  obtain ⟨ds, d, ds', hds, hle, hends, hname⟩ := h
  obtain ⟨hold, hnew, hlen⟩ := he.split
  have hsplit := hds
  rw [List.append_cons] at hsplit
  obtain ⟨htext, -, hsingle⟩ := Read.readItems_split hsplit
  generalize hn : (Draft.texts (ds ++ [d])).length = n at hle hname htext
  -- the text of the items up to `d` is that of the first `n` characters, and ends with the mark
  obtain ⟨before, hbefore⟩ := hends.shape.text_suffix
  rw [Draft.text_shape hends.isSingle] at hbefore
  have hfront : (old.take e.start).take n = Draft.texts ds ++ before ++ langMark := by
    rw [List.take_take, Nat.min_eq_left (by omega), ← htext]
    simp [hbefore]
  refine ⟨Draft.texts ds ++ before, (old.take e.start).drop n, ?_, ?_, ?_⟩
  · rw [← hfront, List.take_append_drop]
  · rw [List.length_drop]
    omega
  · -- else the name would follow in the old text already
    by_contra hblank
    have hend : ∃ c ∈ (old.take e.start).drop n, Token.isLangBlank c = false := by
      by_contra hall
      refine hblank fun c hc => ?_
      by_contra hne
      exact hall ⟨c, hc, by simpa [Token.isLangBlank] using hne⟩
    rw [hnew, List.drop_append_of_le_length (by omega)] at hname
    have hname' : NamesLanguage ((old.take e.start ++ old.drop e.start).drop n) := by
      rw [List.drop_append_of_le_length (by omega)]
      exact hname.of_append hend
    rw [hold] at hds
    rw [← hn] at hname'
    obtain ⟨d', ds'', t, hds'', hends'⟩ := Read.readItems_overlooked hds (by omega) hends hname'
    rw [hds] at hds''
    obtain ⟨rfl, -⟩ := List.cons.inj (List.append_cancel_left hds'')
    obtain ⟨hkind, -⟩ := Read.endsIn_unique hends hends'
    cases hkind

namespace Tree.Reused

variable {kept resumed : Nat} {fresh : List Draft}

/-- The items that are kept are items of the new text, unless one is overlooked. -/
theorem readItems_kept
    (h : Reused config e new (Read.shapes config old) kept fresh resumed)
    (he : e.Describes old new) (hno : ¬Overlooked config old e.start new) :
    Read.readItems config 0 (lexemes new) =
      (Read.readItems config 0 (lexemes old)).take kept ++ Read.readItems config 0
        (lexemes (new.drop
          (Draft.texts ((Read.readItems config 0 (lexemes old)).take kept)).length)) := by
  generalize hds₀ : Read.readItems config 0 (lexemes old) = ds₀
  rcases List.eq_nil_or_concat (ds₀.take kept) with hnil | ⟨ds, d, hds⟩
  · simp [hnil]
  · rw [List.concat_eq_append] at hds
    have hsplit : Read.readItems config 0 (lexemes old) = ds ++ d :: ds₀.drop kept := by
      rw [List.append_cons, ← hds, List.take_append_drop, hds₀]
    have hshapes : (Read.shapes config old).take kept = ds.map Draft.shape ++ [d.shape] := by
      rw [Read.shapes, hds₀, ← List.map_take, hds, List.map_append]
      rfl
    have hsingle : ∀ d' ∈ ds ++ [d], d'.isSingle = true := by
      intro d' hd'
      have hmem : d' ∈ Read.readItems config 0 (lexemes old) := by
        rw [hsplit, List.append_cons]
        exact List.mem_append_left _ hd'
      exact Read.isSingle_readItems old d' hmem
    have htexts : Shape.texts ((Read.shapes config old).take kept) = Draft.texts (ds ++ [d]) := by
      rw [hshapes, ← Read.texts_map_shape hsingle, List.map_append]
      rfl
    obtain ⟨hlt, hclosed⟩ := h.last _ _ hshapes
    rw [htexts] at hlt hclosed
    obtain ⟨hold, hnew, hlen⟩ := he.split
    rw [hold] at hsplit
    rw [hds, hnew]
    rw [Read.readItems_append (new.drop e.start) hsplit (by omega) ?_ ?_, ← List.append_cons]
    · exact hlen.symm ▸ hclosed.imp_right fun hclosed k t hends => hclosed k t hends.shape
    · intro hends hname
      rw [← hnew] at hname
      rw [← hold] at hsplit
      rcases hclosed with htwo | hclosed
      · exact hno ⟨ds, d, ds₀.drop kept, hsplit, htwo, hends, hname⟩
      · cases hclosed _ _ hends.shape

theorem texts_take_shapes (config : Config) (old : List Char) (k : Nat) :
    Shape.texts ((Read.shapes config old).take k) =
      Draft.texts ((Read.readItems config 0 (lexemes old)).take k) := by
  rw [Read.shapes, ← List.map_take, Read.texts_map_shape]
  exact fun d hd => Read.isSingle_readItems old d (List.mem_of_mem_take hd)

/-- Without an overlooked item the items that are kept, fresh and taken over are those of the new
text. -/
theorem shapes_eq (h : Reused config e new (Read.shapes config old) kept fresh resumed)
    (he : e.Describes old new) (hno : ¬Overlooked config old e.start new) :
    Read.shapes config new = (Read.shapes config old).take kept ++ fresh.map Draft.shape ++
      (Read.shapes config old).drop resumed := by
  have hkept := h.readItems_kept he hno
  have hread := h.read
  have hrest := h.rest he
  rw [texts_take_shapes] at hread hrest
  rw [texts_take_shapes] at hrest
  obtain ⟨-, htail, -⟩ :=
    Read.readItems_split
      (List.take_append_drop resumed (Read.readItems config 0 (lexemes old))).symm
  rw [hread, hrest, htail] at hkept
  rw [Read.shapes, hkept, Read.shapes, List.map_append, List.map_append, List.map_take,
    List.map_drop, List.append_assoc]

/-- An overlooked item is kept although the new text has another one. -/
theorem shapes_ne (h : Reused config e new (Read.shapes config old) kept fresh resumed)
    (he : e.Describes old new) (hover : Overlooked config old e.start new) :
    Read.shapes config new ≠ (Read.shapes config old).take kept ++ fresh.map Draft.shape ++
      (Read.shapes config old).drop resumed := by
  obtain ⟨ds, d, ds', d', ds'', t, hold, hle, hends, hnew, hends'⟩ := hover.readItems he
  have hshapes : Read.shapes config old = ds.map Draft.shape ++ d.shape :: ds'.map Draft.shape := by
    simp [Read.shapes, hold]
  have htake : (Read.readItems config 0 (lexemes old)).take (ds.length + 1) = ds ++ [d] := by
    rw [hold, List.append_cons, List.take_left' (by simp)]
  have hkept : ds.length < kept := by
    refine h.most (ds.length + 1) (by rw [hshapes]; simp) ?_
    rw [texts_take_shapes, htake]
    exact hle
  intro heq
  have hget := congrArg (fun ss : List Shape => ss[ds.length]?) heq
  rw [List.append_assoc, List.getElem?_append_left, List.getElem?_take_of_lt hkept, hshapes,
    Read.shapes, hnew] at hget
  · have hsame : d'.shape = d.shape := by simpa using hget
    obtain ⟨hkind, -⟩ := (hsame ▸ hends'.shape).unique hends.shape
    cases hkind
  · rw [List.length_take, hshapes]
    simp only [List.length_append, List.length_map, List.length_cons]
    omega

end Tree.Reused

/-- The tree after an edit is the one that is read afresh, exactly if no item is overlooked. -/
theorem reparse_equivalent_iff {t : Tree} {a : Arena} (hroot : t.rootStart = 0)
    (heq : t.equivalent a (parse t.config t.source).2 (parse t.config t.source).1 = true)
    (he : e.Describes t.source new) :
    ∃ a' t', t.reparse a new e = .ok (a', t') ∧ a.Extends a' ∧ t'.source = new ∧
      t'.config = t.config ∧ t'.rootStart = 0 ∧
      (t'.equivalent a' (parse t.config new).2 (parse t.config new).1 = true ↔
        ¬Overlooked t.config t.source e.start new) := by
  have hcov : t.Covers a (Read.shapes t.config t.source) :=
    ⟨hroot, equivalent_parse_iff.mp heq, Read.texts_shapes _ _, Read.nonempty_shapes _ _⟩
  obtain ⟨a', t', kept, fresh, resumed, hreparse, hext, hsource, hconfig, hreused, hcov'⟩ :=
    Tree.reparse_covers hcov he
  refine ⟨a', t', hreparse, hext, hsource, hconfig, hcov'.rootStart, ?_⟩
  rw [equivalent_parse_iff]
  constructor
  · intro hholds hover
    obtain hshapes := Shape.branch.inj (hholds.unique hcov'.holds)
    exact hreused.shapes_ne he hover hshapes.2.1
  · intro hno
    rw [hreused.shapes_eq he hno]
    exact hcov'.holds

/-- Reading again after an edit gives the tree of the new text, or the text before the edit ends
with `#lang` and two or more blanks. -/
theorem reparse_equivalent_or_endsInLangBlanks {t : Tree} {a : Arena} {e : Edit} {new : List Char}
    (hroot : t.rootStart = 0)
    (heq : t.equivalent a (parse t.config t.source).2 (parse t.config t.source).1 = true)
    (he : e.Describes t.source new) :
    ∃ a' t', t.reparse a new e = .ok (a', t') ∧ t'.source = new ∧ t'.config = t.config ∧
      (t'.equivalent a' (parse t.config new).2 (parse t.config new).1 = true ∨
        EndsInLangBlanks (t.source.take e.start)) := by
  obtain ⟨a', t', hreparse, -, hsource, hconfig, -, hiff⟩ := reparse_equivalent_iff hroot heq he
  refine ⟨a', t', hreparse, hsource, hconfig, ?_⟩
  by_cases hover : Overlooked t.config t.source e.start new
  · exact .inr (endsInLangBlanks_of_overlooked hover he)
  · exact .inl (hiff.mpr hover)

/-- The text `#lang` with two blanks, to which `racket` is added. -/
theorem reparse_lang_racket :
    let t := parse .default (langMark ++ [' ', ' '])
    let e : Edit := { start := 7, oldEnd := 7, newEnd := 13 }
    let new := langMark ++ [' ', ' ', 'r', 'a', 'c', 'k', 'e', 't']
    ∃ a' t', t.2.reparse t.1 new e = .ok (a', t') ∧ t'.source = new ∧ t'.config = .default ∧
      (t'.equivalent a' (parse .default new).2 (parse .default new).1 = true ∨
        EndsInLangBlanks ((langMark ++ [' ', ' ']).take 7)) :=
  reparse_equivalent_or_endsInLangBlanks rfl (equivalent_parse_self _ _)
    ⟨['r', 'a', 'c', 'k', 'e', 't'], by decide, by decide, rfl, rfl⟩

end RacketTree

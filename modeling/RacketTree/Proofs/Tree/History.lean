import RacketTree.Proofs.Tree.Equivalence

/-!
# Histories of a tree

A history starts with a tree that has been read. Each revision takes any earlier version and changes
it, by a range and a text in its place or by an edit and the new text; all versions share one arena.
`texts` are the source texts of the versions, and a history is `Truthful` if every change is one of
the text that it is made in.

A truthful history is carried out to its end (`exists_revise`). Its versions tile their sources
(`versions_tile`), and all of them equal the trees that are read afresh from their sources exactly
if no revision overlooks an item (`versions_equivalent_iff`).
-/

namespace RacketTree

open Token (langMark)

/-- A change of a tree. -/
inductive Change where
  /-- A text in place of a range. -/
  | replace (start stop : Int) (inserted : List Char)
  /-- A new text and the edit that leads to it. -/
  | edit (e : Edit) (new : List Char)

namespace Change

/-- The tree after a change. -/
def apply (t : Tree) (a : Arena) : Change → Except EditError (Arena × Tree)
  | replace start stop inserted => t.replace a start stop inserted
  | edit e new => t.reparse a new e

/-- The offset of a change. -/
def start : Change → Nat
  | replace start _ _ => start.toNat
  | edit e _ => e.start

/-- The text after a change. -/
def result (old : List Char) : Change → List Char
  | replace start stop inserted => Edit.splice old start.toNat stop.toNat inserted
  | edit _ new => new

/-- The change is one of the text `old`. -/
def Truthful (old : List Char) : Change → Prop
  | replace start stop _ => 0 ≤ start ∧ start ≤ stop ∧ stop ≤ old.length
  | edit e new => e.Describes old new

/-- Every truthful change is an edit that describes it. -/
theorem exists_edit {c : Change} {t : Tree} (h : c.Truthful t.source) (a : Arena) :
    ∃ e : Edit, e.Describes t.source (c.result t.source) ∧ e.start = c.start ∧
      c.apply t a = t.reparse a (c.result t.source) e := by
  cases c with
  | edit e new => exact ⟨e, h, rfl, rfl⟩
  | replace start stop inserted =>
    obtain ⟨h₀, h₁, h₂⟩ := h
    obtain ⟨e, he, hstart, hold, hnew⟩ : ∃ e : Edit,
        Edit.replacement t.source start stop inserted =
          .ok (e, Edit.splice t.source start.toNat stop.toNat inserted) ∧
        e.start = start.toNat ∧ e.oldEnd = stop.toNat ∧
        e.newEnd = start.toNat + inserted.length := by
      refine ⟨_, if_pos (by simp [h₀, h₁, h₂]), rfl, rfl, rfl⟩
    refine ⟨e, ⟨inserted, ?_, ?_, ?_, ?_⟩, hstart, ?_⟩
    · rw [hstart, hold]
      omega
    · rw [hold]
      omega
    · rw [hstart, hnew]
    · rw [hstart, hold]
      rfl
    · simp only [apply, Tree.replace, he]
      rfl

end Change

/-- A change of an earlier version. -/
structure Revision where
  base : Nat
  change : Change

namespace History

/-- The texts after revisions, one more for each revision. -/
def texts (sources : List (List Char)) : List Revision → List (List Char)
  | [] => sources
  | r :: rest => texts (sources ++ [r.change.result (sources[r.base]?.getD [])]) rest

/-- Every revision changes a version that exists, and is a change of its text. -/
def Truthful (sources : List (List Char)) : List Revision → Prop
  | [] => True
  | r :: rest =>
    ∃ old, sources[r.base]? = some old ∧ r.change.Truthful old ∧
      Truthful (sources ++ [r.change.result old]) rest

/-- A revision overlooks an item. -/
def Overlooks (config : Config) (sources : List (List Char)) : List Revision → Prop
  | [] => False
  | r :: rest =>
    ∃ old, sources[r.base]? = some old ∧
      (Overlooked config old r.change.start (r.change.result old) ∨
        Overlooks config (sources ++ [r.change.result old]) rest)

/-- The versions after revisions, each behind those before it. -/
def revise (a : Arena) (ts : List Tree) : List Revision → Option (Arena × List Tree)
  | [] => some (a, ts)
  | r :: rest =>
    match ts[r.base]? with
    | none => none
    | some t =>
      match r.change.apply t a with
      | .error _ => none
      | .ok (a, t) => revise a (ts ++ [t]) rest

/-- The versions of a text under revisions, the tree that is read from it first. -/
def versions (config : Config) (source : List Char) (rs : List Revision) :
    Option (Arena × List Tree) :=
  revise (parse config source).1 [(parse config source).2] rs

variable {config : Config} {source : List Char} {a : Arena} {ts : List Tree} {rs : List Revision}

/-- All versions cover their sources. -/
def Covered (config : Config) (a : Arena) (ts : List Tree) : Prop :=
  ∀ t ∈ ts, t.config = config ∧ ∃ ss, t.Covers a ss

/-- All versions are the trees that are read from their sources. -/
def Fresh (config : Config) (a : Arena) (ts : List Tree) : Prop :=
  ∀ t ∈ ts, t.equivalent a (parse config t.source).2 (parse config t.source).1 = true

theorem Covered.snoc {a' : Arena} {t : Tree} {ss : List Shape} (h : Covered config a ts)
    (hext : a.Extends a') (hconfig : t.config = config) (hcov : t.Covers a' ss) :
    Covered config a' (ts ++ [t]) := by
  intro u hu
  rcases List.mem_append.mp hu with hu | hu
  · obtain ⟨hu, ss, hss⟩ := h u hu
    exact ⟨hu, ss, hss.mono hext⟩
  · rw [List.mem_singleton.mp hu]
    exact ⟨hconfig, ss, hcov⟩

/-- A tree stays equivalent, or not, while the arena grows. -/
theorem equivalent_extends {a' : Arena} {t : Tree} {ss : List Shape} (hcov : t.Covers a ss)
    (hext : a.Extends a') :
    t.equivalent a' (parse config source).2 (parse config source).1 = true ↔
      t.equivalent a (parse config source).2 (parse config source).1 = true := by
  rw [equivalent_parse_iff, equivalent_parse_iff]
  constructor
  · intro h
    rw [h.unique (hcov.holds.mono hext)]
    exact hcov.holds
  · exact fun h => h.mono hext

theorem Fresh.snoc {a' : Arena} {t : Tree} (h : Fresh config a ts) (hcov : Covered config a ts)
    (hext : a.Extends a')
    (ht : t.equivalent a' (parse config t.source).2 (parse config t.source).1 = true) :
    Fresh config a' (ts ++ [t]) := by
  intro u hu
  rcases List.mem_append.mp hu with hu' | hu'
  · obtain ⟨-, ss, hss⟩ := hcov u hu'
    exact (equivalent_extends hss hext).mpr (h u hu')
  · rw [List.mem_singleton.mp hu']
    exact ht

/-- One revision is the edit of a version that covers its source. -/
theorem revise_cons {r : Revision} {old : List Char} (hcov : Covered config a ts)
    (hbase : (ts.map Tree.source)[r.base]? = some old) (htrue : r.change.Truthful old) :
    ∃ t e ss, t ∈ ts ∧ t.source = old ∧ t.config = config ∧ t.Covers a ss ∧
      e.Describes old (r.change.result old) ∧ e.start = r.change.start ∧
      ∀ a' t' rest, t.reparse a (r.change.result old) e = .ok (a', t') →
        revise a ts (r :: rest) = revise a' (ts ++ [t']) rest := by
  rw [List.getElem?_map] at hbase
  obtain ⟨t, ht, rfl⟩ := Option.map_eq_some_iff.mp hbase
  obtain ⟨hconfig, ss, hss⟩ := hcov t (List.mem_of_getElem? ht)
  obtain ⟨e, he, hstart, happly⟩ := Change.exists_edit htrue a
  refine ⟨t, e, ss, List.mem_of_getElem? ht, rfl, hconfig, hss, he, hstart, ?_⟩
  intro a' t' rest hreparse
  rw [revise, ht]
  simp only [happly, hreparse]

/-- Truthful revisions are carried out to the end, and every version covers its source. -/
theorem exists_revise (hcov : Covered config a ts) (htrue : Truthful (ts.map Tree.source) rs) :
    ∃ a' ts', revise a ts rs = some (a', ts') ∧ a.Extends a' ∧ ts ⊆ ts' ∧
      ts'.map Tree.source = texts (ts.map Tree.source) rs ∧ Covered config a' ts' := by
  induction rs generalizing a ts with
  | nil => exact ⟨a, ts, rfl, Arena.Extends.refl a, List.Subset.refl ts, rfl, hcov⟩
  | cons r rs ih =>
    obtain ⟨old, hbase, htrue, hrest⟩ := htrue
    obtain ⟨t, e, ss, -, rfl, hconfig, hss, he, -, hrevise⟩ := revise_cons hcov hbase htrue
    obtain ⟨a', t', kept, fresh, resumed, hreparse, hext, hsource, hconfig', -, hcov'⟩ :=
      Tree.reparse_covers hss he
    have hsources : (ts ++ [t']).map Tree.source =
        ts.map Tree.source ++ [r.change.result t.source] := by
      simp [hsource]
    obtain ⟨a'', ts'', hrun, hext', hsub, htexts, hcov''⟩ :=
      ih (hcov.snoc hext (hconfig'.trans hconfig) hcov') (hsources ▸ hrest)
    refine ⟨a'', ts'', (hrevise a' t' rs hreparse).trans hrun, hext.trans hext',
      List.Subset.trans (List.subset_append_left _ _) hsub, ?_, hcov''⟩
    rw [htexts, hsources, texts, hbase, Option.getD_some]

/-- Revisions of fresh versions leave all versions fresh, exactly if none of them overlooks an
item. -/
theorem fresh_revise_iff (hcov : Covered config a ts) (hfresh : Fresh config a ts)
    (htrue : Truthful (ts.map Tree.source) rs) :
    ∃ a' ts', revise a ts rs = some (a', ts') ∧
      (Fresh config a' ts' ↔ ¬Overlooks config (ts.map Tree.source) rs) := by
  induction rs generalizing a ts with
  | nil => exact ⟨a, ts, rfl, fun _ h => h, fun _ => hfresh⟩
  | cons r rs ih =>
    obtain ⟨old, hbase, htrue, hrest⟩ := htrue
    obtain ⟨t, e, ss, hmem, rfl, hconfig, hss, he, hstart, hrevise⟩ := revise_cons hcov hbase htrue
    obtain ⟨a', t', kept, fresh, resumed, hreparse, hext, hsource, hconfig', -, hcov'⟩ :=
      Tree.reparse_covers hss he
    have hiff : t'.equivalent a' (parse config t'.source).2 (parse config t'.source).1 = true ↔
        ¬Overlooked config t.source r.change.start (r.change.result t.source) := by
      obtain ⟨b, u, hreparse', -, -, -, -, hiff⟩ :=
        reparse_equivalent_iff hss.rootStart (hconfig ▸ hfresh t hmem) he
      cases hreparse.symm.trans hreparse'
      rw [hsource, ← hconfig, ← hstart]
      exact hiff
    have hsources : (ts ++ [t']).map Tree.source =
        ts.map Tree.source ++ [r.change.result t.source] := by
      simp [hsource]
    have hcov'' := hcov.snoc hext (hconfig'.trans hconfig) hcov'
    by_cases hover : Overlooked config t.source r.change.start (r.change.result t.source)
    · -- the new version is stale, and stays so
      obtain ⟨b, us, hrun, hext', hsub, -, -⟩ := exists_revise hcov'' (hsources ▸ hrest)
      refine ⟨b, us, (hrevise a' t' rs hreparse).trans hrun, fun hall => ?_, fun hno => ?_⟩
      · have ht' := hall t' (hsub (by simp))
        exact absurd hover (hiff.mp ((equivalent_extends hcov' hext').mp ht'))
      · exact absurd ⟨t.source, hbase, .inl hover⟩ hno
    · obtain ⟨b, us, hrun, hus⟩ :=
        ih hcov'' (hfresh.snoc hcov hext (hiff.mpr hover)) (hsources ▸ hrest)
      refine ⟨b, us, (hrevise a' t' rs hreparse).trans hrun, hus.trans (not_congr ?_)⟩
      rw [hsources, Overlooks]
      constructor
      · exact fun h => ⟨t.source, hbase, .inr h⟩
      · rintro ⟨old', hbase', h⟩
        cases hbase.symm.trans hbase'
        exact h.resolve_left hover

theorem covered_parse (config : Config) (source : List Char) :
    Covered config (parse config source).1 [(parse config source).2] := by
  intro t ht
  rw [List.mem_singleton.mp ht]
  exact ⟨rfl, Read.shapes config source, covers_parse config source⟩

theorem fresh_parse (config : Config) (source : List Char) :
    Fresh config (parse config source).1 [(parse config source).2] := by
  intro t ht
  rw [List.mem_singleton.mp ht]
  exact equivalent_parse_self config source

/-! ## Equality with reading afresh -/

/-- A truthful history is carried out to its end. All its versions are the trees that are read
afresh from their sources, exactly if none of its revisions overlooks an item. -/
theorem versions_equivalent_iff (config : Config) {source : List Char} {rs : List Revision}
    (h : Truthful [source] rs) :
    ∃ a ts, versions config source rs = some (a, ts) ∧ ts.map Tree.source = texts [source] rs ∧
      ((∀ t ∈ ts, t.equivalent a (parse config t.source).2 (parse config t.source).1 = true) ↔
        ¬Overlooks config [source] rs) := by
  obtain ⟨a, ts, hrun, -, -, htexts, -⟩ := exists_revise (covered_parse config source) h
  obtain ⟨b, us, hrun', hiff⟩ :=
    fresh_revise_iff (covered_parse config source) (fresh_parse config source) h
  cases hrun.symm.trans hrun'
  exact ⟨a, ts, hrun, htexts, hiff⟩

/-- Two revisions of `#lang` with two blanks: `racket` is added to the first version, and a
parenthesis goes before the second one. -/
theorem versions_equivalent_iff_lang :
    let source := langMark ++ [' ', ' ']
    let rs : List Revision :=
      [⟨0, .replace 7 7 ['r', 'a', 'c', 'k', 'e', 't']⟩, ⟨1, .replace 0 0 ['(']⟩]
    ∃ a ts, versions .default source rs = some (a, ts) ∧ ts.map Tree.source = texts [source] rs ∧
      ((∀ t ∈ ts, t.equivalent a (parse .default t.source).2 (parse .default t.source).1 = true) ↔
        ¬Overlooks .default [source] rs) :=
  versions_equivalent_iff .default
    ⟨_, rfl, ⟨by decide, by decide, by decide⟩, _, rfl, ⟨by decide, by decide, by decide⟩, trivial⟩

theorem lexemes_langMark :
    Token.lexemes (langMark ++ [' ', ' ']) =
      [⟨.extension, langMark, none⟩, ⟨.whitespace, [' ', ' '], none⟩] := by
  have hmark : Token.extent '#' ['l', 'a', 'n', 'g', ' ', ' '] = .ok (.plain .extension 5) := rfl
  have hblanks : Token.extent ' ' [' '] = .ok (.plain .whitespace 2) := rfl
  change Token.lexemes ('#' :: ['l', 'a', 'n', 'g', ' ', ' ']) = _
  rw [Token.lexemes_cons hmark]
  change _ :: Token.lexemes (' ' :: [' ']) = _
  rw [Token.lexemes_cons hblanks]
  change _ :: _ :: Token.lexemes [] = _
  rw [Token.lexemes]
  rfl

theorem overlooked_langMark :
    Overlooked .default (langMark ++ [' ', ' ']) 7
      (langMark ++ [' ', ' ', 'r', 'a', 'c', 'k', 'e', 't']) := by
  refine ⟨[], .leaf .extension langMark none,
    Read.readItems .default 0 [⟨.whitespace, [' ', ' '], none⟩], ?_, by simp [langMark], .leaf none,
    [' ', ' '], 'r', ['a', 'c', 'k', 'e', 't'], ?_, by simp, List.all_eq_true.mp rfl, by decide⟩
  · rw [lexemes_langMark, Read.readItems_cons]
    rfl
  · simp [langMark]

/-- The tree of `#lang` and two blanks does not become that of a language line when the name of a
language is added. -/
theorem versions_lang_stale :
    let source := langMark ++ [' ', ' ']
    let rs : List Revision := [⟨0, .replace 7 7 ['r', 'a', 'c', 'k', 'e', 't']⟩]
    Truthful [source] rs ∧ ∃ a ts, versions .default source rs = some (a, ts) ∧
      ¬∀ t ∈ ts, t.equivalent a (parse .default t.source).2 (parse .default t.source).1 = true := by
  intro source rs
  have htrue : Truthful [source] rs := ⟨_, rfl, ⟨by decide, by decide, by decide⟩, trivial⟩
  obtain ⟨a, ts, hrun, hiff⟩ :=
    fresh_revise_iff (covered_parse .default source) (fresh_parse .default source) htrue
  exact ⟨htrue, a, ts, hrun, fun hall => hiff.mp hall ⟨_, rfl, .inl overlooked_langMark⟩⟩

/-! ## Tiling -/

/-- The nodes of a tree that covers its source tile it. -/
theorem tiles_of_covers {t : Tree} {ss : List Shape} (h : t.Covers a ss) :
    (t.node a).start = 0 ∧ (t.node a).stop = t.source.length ∧ t.text a = t.source ∧
      ∀ n ∈ (t.node a).walk, n.Tiles t.source := by
  have htext : (Shape.branch .source ss none).text = t.source := by rw [Shape.text, h.text]
  rw [Tree.text, Tree.node, h.rootStart]
  refine ⟨Arena.start_view _ _ _, ?_, ?_, ?_⟩
  · rw [Node.stop, Arena.start_view, Arena.width_view, h.holds.width, htext, Nat.zero_add]
  · exact (Arena.spell_view 0 h.holds).trans htext
  · have hdrop : t.source.drop 0 = (Shape.branch .source ss none).text ++ [] := by
      rw [List.drop_zero, List.append_nil, htext]
    exact Arena.tiles_view (Nat.zero_le _) h.holds hdrop

/-- Every version of a truthful history spans its source, spells it, and has only nodes that tile
it. -/
theorem versions_tile (config : Config) {source : List Char} {rs : List Revision}
    (h : Truthful [source] rs) :
    ∃ a ts, versions config source rs = some (a, ts) ∧ ts.map Tree.source = texts [source] rs ∧
      ∀ t ∈ ts, (t.node a).start = 0 ∧ (t.node a).stop = t.source.length ∧
        t.text a = t.source ∧ ∀ n ∈ (t.node a).walk, n.Tiles t.source := by
  obtain ⟨a, ts, hrun, -, -, htexts, hcov⟩ := exists_revise (covered_parse config source) h
  refine ⟨a, ts, hrun, htexts, fun t ht => ?_⟩
  obtain ⟨-, ss, hss⟩ := hcov t ht
  exact tiles_of_covers hss

/-- An unclosed list in which a closing parenthesis is added by an edit, and the first version cut
short by a range. -/
theorem versions_tile_list :
    let source := ['(', 'a', ' ', '.', ' ', 'b']
    let rs : List Revision :=
      [⟨0, .edit { start := 6, oldEnd := 6, newEnd := 7 } ['(', 'a', ' ', '.', ' ', 'b', ')']⟩,
        ⟨0, .replace 3 6 []⟩]
    ∃ a ts, versions .default source rs = some (a, ts) ∧ ts.map Tree.source = texts [source] rs ∧
      ∀ t ∈ ts, (t.node a).start = 0 ∧ (t.node a).stop = t.source.length ∧
        t.text a = t.source ∧ ∀ n ∈ (t.node a).walk, n.Tiles t.source :=
  versions_tile .default
    ⟨_, rfl, ⟨[')'], by decide, by decide, rfl, rfl⟩, _, rfl, ⟨by decide, by decide, by decide⟩,
      trivial⟩

end History

end RacketTree

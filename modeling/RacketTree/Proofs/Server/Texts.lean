import RacketTree.Proofs.Text.Units
import RacketTree.Proofs.Tree.Conforms
import RacketTree.Server.Document

/-!
# Open texts

A text that is open belongs to its tree (`OpenText.Sound`): the tree is over its characters, its
items spell them, and each of them has the form that the schema asks for. Reading makes such a text,
and every change of one makes another one (`Sound.exists_change`), wherever the positions of the
change lie.
-/

namespace RacketTree

/-- A change of a text: a new text, or a text in place of the range between two positions. -/
inductive TextChange where
  | whole (text : Codes)
  | range (startLine startCharacter stopLine stopCharacter : Nat) (text : Codes)

namespace OpenText

/-- The text after a change. -/
def change? (t : OpenText) : TextChange → Option OpenText
  | .whole text => some (.read t.tree.config text)
  | .range startLine startCharacter stopLine stopCharacter text =>
    match t.tree.lines.place? (.nat startLine) (.nat startCharacter),
      t.tree.lines.place? (.nat stopLine) (.nat stopCharacter) with
    | some (.exact start), some (.exact stop) => (t.replace start stop text).toOption
    | _, _ => none

/-- The tree is one of the characters of the text, and its nodes have the forms of the schema. -/
structure Sound (t : OpenText) : Prop where
  source : t.tree.source = t.text.chars
  wellFormed : t.arena.WellFormed
  covers : ∃ ss, t.tree.Covers t.arena ss ∧ ∀ s ∈ ss, s.isItem = true ∧ s.Formed t.tree.config

variable {t : OpenText}

theorem sound_read (config : Config) (text : Codes) : (read config text).Sound where
  source := rfl
  wellFormed :=
    ((made_parseInto Arena.empty [] config text.chars).wellFormed Arena.wellFormed_empty).1
  covers := by
    refine ⟨_, covers_parse config text.chars, fun s hs => ?_⟩
    obtain ⟨d, hd, rfl⟩ := List.mem_map.mp hs
    apply Read.formed_readItems config text.chars d hd
    rw [Draft.shapes_eq (Read.isSingle_readItems text.chars d hd)]
    exact List.mem_singleton_self _

theorem chars_splice (text inserted : Codes) (start stop : Nat) :
    (text.splice start stop inserted).chars = Edit.splice text.chars start stop inserted.chars := by
  simp [Codes.chars, Codes.splice, Edit.splice]

theorem Sound.replace (h : t.Sound) {start stop : Nat} (hstart : start ≤ t.text.chars.length)
    (hstop : stop ≤ t.text.chars.length) (inserted : Codes) :
    ∃ t', t.replace start stop inserted = .ok t' ∧ t'.Sound ∧
      t'.text = t.text.splice (min start stop) (max start stop) inserted := by
  obtain ⟨ss, hcov, hss⟩ := h.covers
  have htrue : (Change.replace (min start stop : Nat) (max start stop : Nat) inserted.chars).Truthful
      t.tree.source := by
    rw [h.source]
    refine ⟨?_, ?_, ?_⟩ <;> omega
  obtain ⟨e, hdescribes, -, happly⟩ := Change.exists_edit htrue t.arena
  obtain ⟨a', t', kept, fresh, resumed, hreparse, -, hsource, hconfig, -, hcov'⟩ :=
    Tree.reparse_covers hcov hdescribes
  rw [hreparse] at happly
  have hmade := made_reparse (List.mem_singleton_self t.tree) hreparse
  obtain ⟨hwf, -⟩ := hmade.wellFormed h.wellFormed
  have hitems : ∀ u ∈ [t.tree],
      u.ItemsHave (fun config s => s.isItem = true ∧ s.Formed config) t.arena := by
    intro u hu
    rw [List.mem_singleton.mp hu]
    exact ⟨hcov.rootStart, ss, hcov.holds, hss⟩
  obtain ⟨-, ss', hold', hss'⟩ := hmade.itemsHave Read.formed_readItems hitems
  refine ⟨⟨t.text.splice (min start stop) (max start stop) inserted, a', t'⟩, ?_, ?_, rfl⟩
  · have hreplaced : t.tree.replace t.arena (min start stop : Nat) (max start stop : Nat)
        inserted.chars = .ok (a', t') := happly
    simp only [OpenText.replace, hreplaced]
    rfl
  · refine ⟨?_, hwf, _, hcov', ?_⟩
    · rw [hsource, chars_splice, h.source]
      rfl
    · have hsame := hold'.unique hcov'.holds
      cases hsame
      exact hss'

/-- Every change of a text is carried out. -/
theorem Sound.exists_change (h : t.Sound) (c : TextChange) :
    ∃ t', t.change? c = some t' ∧ t'.Sound := by
  cases c with
  | whole text => exact ⟨_, rfl, sound_read _ _⟩
  | range startLine startCharacter stopLine stopCharacter text =>
    obtain ⟨start, hstart, hstartPlace⟩ :=
      Lines.exists_place? t.tree.source startLine startCharacter
    obtain ⟨stop, hstop, hstopPlace⟩ := Lines.exists_place? t.tree.source stopLine stopCharacter
    rw [h.source] at hstart hstop
    obtain ⟨t', hreplace, hsound, -⟩ := h.replace hstart hstop text
    refine ⟨t', ?_, hsound⟩
    simp only [change?, Json.nat, Tree.lines, hstartPlace, hstopPlace, hreplace]
    rfl

theorem Sound.change (h : t.Sound) {c : TextChange} {t' : OpenText}
    (hchange : t.change? c = some t') :
    t'.Sound := by
  obtain ⟨t₁, hchange₁, hsound⟩ := h.exists_change c
  rw [hchange] at hchange₁
  cases hchange₁
  exact hsound

/-- All changes of a text are carried out. -/
theorem Sound.exists_changes (h : t.Sound) (cs : List TextChange) :
    ∃ t', cs.foldlM change? t = some t' ∧ t'.Sound := by
  induction cs generalizing t with
  | nil => exact ⟨t, rfl, h⟩
  | cons c cs ih =>
    obtain ⟨t₁, hchange, hsound⟩ := h.exists_change c
    obtain ⟨t', hchanges, hsound'⟩ := ih hsound
    refine ⟨t', ?_, hsound'⟩
    rw [List.foldlM_cons, hchange]
    exact hchanges

/-- The leaves of the tree spell the text. -/
theorem Sound.text_eq (h : t.Sound) : t.tree.text t.arena = t.tree.source := by
  obtain ⟨ss, hcov, -⟩ := h.covers
  rw [Tree.text_of_holds hcov.rootStart hcov.holds, hcov.text]

end OpenText

end RacketTree

import RacketTree.Proofs.Tree.Items
import RacketTree.Tree.Edit

/-!
# Items that a change leaves alone

Two texts begin with the same characters `p`. `readItems_append` says which items of the first text
are also items of the second: those up to one that ends two characters before the end of `p`, or
only one if its last token ends with a closing character. The exception is an item that ends in a
`#lang` which names a language in the second text only. Then the second text has another item in its
place (`readItems_overlooked`).
-/

namespace RacketTree

namespace Token

open Lexeme (texts)

/-- The mark of a language line. -/
def langMark : List Char := ['#', 'l', 'a', 'n', 'g']

theorem lexemes_drop {cs : List Char} {used rest : List Lexeme} (h : lexemes cs = used ++ rest) :
    lexemes (cs.drop (texts used).length) = rest := by
  obtain ⟨hcs, hrest⟩ := lexemes_suffix h
  rw [hcs, List.drop_left, ← hrest]

theorem fault_of_extension {cs : List Char} {l : Lexeme} (hl : l ∈ lexemes cs)
    (hk : l.kind = .extension) : l.fault = none := by
  fun_induction lexemes cs with
  | case1 => cases hl
  | case2 c rest e he ih =>
    rcases List.mem_cons.mp hl with rfl | hl
    · obtain ⟨n, -, rfl⟩ := extent_extension he hk
      rfl
    · exact ih hl
  | case3 c rest cause he =>
    rw [List.mem_singleton.mp hl] at hk
    cases hk

/-- An extension that becomes a language line is the mark, and a name follows it. -/
theorem langMark_of_languageLine {p q v : List Char} {l : Lexeme} {ls : List Lexeme}
    (h : lexemes (p ++ q) = l :: ls) (hk : l.kind = .extension)
    (hlt : l.text.length < p.length) (hl : LanguageLine (p ++ v)) :
    l.text = langMark ∧ NamesLanguage (p.drop l.text.length ++ v) := by
  cases p with
  | nil => exact absurd hlt (Nat.not_lt_zero _)
  | cons c p =>
    cases he : extent c (p ++ q) with
    | error cause =>
      rw [List.cons_append, lexemes_cons_error he] at h
      cases h
      cases hk
    | ok e =>
      rw [List.cons_append, lexemes_cons he] at h
      obtain ⟨rfl, -⟩ := List.cons.inj h
      rw [length_text_cut (extent_fits he), List.length_cons] at hlt
      obtain ⟨hwidth, b, p', hp, -, hname⟩ := extension_of_languageLine he hk hlt hl
      rw [length_text_cut (extent_fits he), hwidth, ← List.cons_append]
      constructor
      · rw [hp]
        simp only [cut, hwidth]
        rfl
      · rw [hp]
        exact hname

/-- The mark with a name behind it is a language line. -/
theorem languageLine_of_langMark {p q v : List Char} {l : Lexeme} {ls : List Lexeme}
    (h : lexemes (p ++ q) = l :: ls) (hlm : l.text = langMark) (hle : l.text.length ≤ p.length)
    (hname : NamesLanguage (p.drop l.text.length ++ v)) : LanguageLine (p ++ v) := by
  obtain ⟨hcs, -⟩ := lexemes_eq_cons h
  have hprefix : l.text <+: p :=
    @List.prefix_of_prefix_length_le _ _ _ (p ++ q) (by rw [hcs]; exact ⟨_, rfl⟩) ⟨q, rfl⟩ hle
  obtain ⟨tail, rfl⟩ := hprefix
  rw [List.drop_left] at hname
  exact ⟨tail ++ v, by rw [hlm, List.append_assoc]; rfl, hname⟩

/-- The first lexeme of a language line is a directive. -/
theorem lexemes_languageLine {cs : List Char} (h : LanguageLine cs) :
    ∃ l ls, lexemes cs = l :: ls ∧ l.kind = .readerDirective ∧ l.fault = none := by
  cases cs with
  | nil =>
    obtain ⟨rest, hcs, -⟩ := h
    cases hcs
  | cons c rest =>
    obtain ⟨n, he⟩ := extent_languageLine h
    exact ⟨_, _, lexemes_cons he, rfl, rfl⟩

end Token

namespace Read

open Lexeme (texts)
open Token

variable {config : Config} {outer : Nat}

theorem lookahead_of_endsClosed {l : Lexeme} (hv : l.Valid)
    (h : Tree.endsClosed l.endKind = true) : lookahead l.kind = 0 := by
  unfold Lexeme.endKind at h
  split at h
  · rename_i hk
    rw [hk]
    rfl
  · split at h
    · cases h
    · have hlexical := hv.lexical
      cases hk : l.kind <;> rw [hk] at h hlexical <;> first
        | rfl
        | cases h; done
        | rcases hlexical with hlexical | ⟨hlexical, -⟩ <;> cases hlexical

theorem endKind_eq {l : Lexeme} (hk : l.kind ≠ .blockComment) (hf : l.fault = none) :
    l.endKind = l.kind := by
  simp [Lexeme.endKind, hk, hf]

theorem endText_eq {l : Lexeme} (hk : l.kind ≠ .blockComment) : l.endText = l.text :=
  if_neg hk

/-- A draft ends in one way only. -/
theorem endsIn_unique {d : Draft} {k k' : Kind} {t t' : List Char} (h : d.EndsIn k t)
    (h' : d.EndsIn k' t') : k = k' ∧ t = t' :=
  h.shape.unique h'.shape

theorem kind_of_endKind {l : Lexeme} (h : l.endKind = .extension) : l.kind = .extension := by
  unfold Lexeme.endKind at h
  split at h
  · cases h
  · split at h
    · cases h
    · exact h

/-- An item of a text, the lexemes before it, its own, and those behind it. -/
theorem exists_item_at {cs : List Char} {ds ds' : List Draft} {d : Draft}
    (h : readItems config outer (lexemes cs) = ds ++ d :: ds') :
    ∃ before last rest e' e, lexemes cs = before ++ last ++ rest ∧
      Items config outer before e' ds ∧ e'.Allows last ∧ Item config outer last e d ∧
      e.Allows rest ∧ Draft.texts (ds ++ [d]) = texts (before ++ last) := by
  rw [List.append_cons] at h
  obtain ⟨used, rest, e, hls, items, -, hallows⟩ := exists_items h
  have hvalid : ∀ l ∈ used ++ rest, l.Valid := hls ▸ lexemes_valid cs
  have htext := items.text fun l hl => hvalid l (List.mem_append_left _ hl)
  obtain ⟨before, last, e', rfl, items', hbefore, item⟩ := items.last
  exact ⟨before, last, rest, e', e, hls, items', hbefore, item, hallows, htext⟩

/-- Lexemes that end before the text does are not cut by its end. -/
theorem not_allows_cut {p q : List Char} {used rest : List Lexeme}
    (h : lexemes (p ++ q) = used ++ rest) (hlt : (texts used).length < p.length) :
    ¬Ending.cut.Allows rest := by
  intro hrest
  cases hrest
  obtain ⟨hcs, -⟩ := lexemes_suffix h
  have hlen := congrArg List.length hcs
  rw [List.length_append, List.length_append, Lexeme.texts_nil, List.length_nil] at hlen
  omega

/-- The items up to `d` are items of every text that begins with `p`, if `d` ends inside `p`, its
last token has looked no further, and it is not a `#lang` before a name. -/
theorem readItems_append {p q : List Char} (v : List Char) {ds ds' : List Draft} {d : Draft}
    (h : readItems config outer (lexemes (p ++ q)) = ds ++ d :: ds')
    (hlt : (Draft.texts (ds ++ [d])).length < p.length)
    (hclosed : (Draft.texts (ds ++ [d])).length + 2 ≤ p.length ∨
      ∀ k t, d.EndsIn k t → Tree.endsClosed k = true)
    (hlang : d.EndsIn .extension langMark →
      ¬NamesLanguage ((p ++ v).drop (Draft.texts (ds ++ [d])).length)) :
    readItems config outer (lexemes (p ++ v)) = ds ++ d ::
      readItems config outer (lexemes ((p ++ v).drop (Draft.texts (ds ++ [d])).length)) := by
  obtain ⟨before, last, rest, e', e, hls, items, hbefore, item, hallows, htext⟩ :=
    exists_item_at h
  have hvalid : ∀ l ∈ before ++ last ++ rest, l.Valid := hls ▸ lexemes_valid (p ++ q)
  rw [htext] at hlt hclosed hlang ⊢
  suffices hfront : ∃ rest', lexemes (p ++ v) = before ++ last ++ rest' ∧ e.Allows rest' by
    obtain ⟨rest', hlexemes, hallows'⟩ := hfront
    rw [lexemes_drop hlexemes, hlexemes, (Items.snoc items hbefore item).readItems hallows',
      ← List.append_cons]
  cases e with
  | cut => exact absurd hallows (not_allows_cut hls hlt)
  | dangling =>
    obtain ⟨m, rest, rfl, hm⟩ := hallows
    -- the item ends in no token, so it has two characters left, and `m` takes one
    have htwo : (texts (before ++ last)).length + 2 ≤ p.length := by
      rcases hclosed with htwo | hk
      · exact htwo
      · cases hk _ _ item.endsIn_of_dangling
    have hkind : m.kind = .closer ∨ m.kind = .dot := by simpa [stops] using hm
    have hone := (hvalid m (by simp)).single hkind
    have hla : lookahead m.kind ≤ 1 := by
      rcases hkind with hk | hk <;> rw [hk] <;> decide
    have hlen := Lexeme.length_texts_snoc (before ++ last) m
    refine ⟨m :: lexemes (p.drop (texts (before ++ last ++ [m])).length ++ v), ?_, m, _, rfl, hm⟩
    rw [lexemes_append hls (by omega) (by omega), List.append_assoc]
    · rfl
    · intro hk
      rcases hkind with hk' | hk' <;> rw [hk'] at hk <;> cases hk
  | complete =>
    obtain ⟨front, l, rfl, hends⟩ := item.endsIn_of_complete fun l hl =>
      hvalid l (List.mem_append_left _ (List.mem_append_right _ hl))
    rw [← List.append_assoc before] at hls hlt hclosed hlang ⊢
    rw [List.append_assoc _ [l]] at hls
    have hmem : l ∈ lexemes (p ++ q) := by
      rw [hls]
      simp
    refine ⟨_, lexemes_append hls hlt ?_ ?_, trivial⟩
    · rcases hclosed with htwo | hk
      · have := lookahead_le l.kind
        omega
      · rw [lookahead_of_endsClosed (lexemes_valid _ l hmem) (hk _ _ hends)]
        omega
    · intro hk hline
      have hlen := Lexeme.length_texts_snoc (before ++ front) l
      have hdrop := lexemes_drop hls
      rw [List.drop_append_of_le_length (by omega)] at hdrop
      obtain ⟨hmark, hname⟩ := langMark_of_languageLine hdrop hk
        (by rw [List.length_drop]; omega) hline
      have hnb : l.kind ≠ .blockComment := by rw [hk]; decide
      rw [endKind_eq hnb (fault_of_extension hmem hk), endText_eq hnb, hk, hmark] at hends
      refine hlang hends ?_
      rw [List.drop_append_of_le_length (by omega), hlen]
      rwa [List.drop_drop] at hname

theorem isPlain_of_kind {l : Lexeme} (h : l.kind = .extension ∨ l.kind = .readerDirective) :
    isPlain l = true := by
  rcases h with h | h <;> simp [isPlain, stops, Frame.ofLexeme?, Lexeme.role, Lexeme.isTrivia, h]

theorem allows_exchange {e : Ending} {front : List Lexeme} {l m : Lexeme}
    (h : e.Allows (front ++ [l])) (hl : stops l = false) : e.Allows (front ++ [m]) := by
  cases front with
  | cons u front =>
    have hne := List.cons_ne_nil u front
    exact (h.of_append hne).append hne _
  | nil =>
    cases e with
    | complete => trivial
    | dangling =>
      obtain ⟨l', rest, hls, hl'⟩ := h
      cases hls
      rw [hl'] at hl
      cases hl
    | cut => cases h

/-- Where an item ends in a `#lang` that names a language in the text of `p` and `v`, that text has
another item. -/
theorem readItems_overlooked {p q v : List Char} {ds ds' : List Draft} {d : Draft}
    (h : readItems config outer (lexemes (p ++ q)) = ds ++ d :: ds')
    (hlt : (Draft.texts (ds ++ [d])).length < p.length)
    (hends : d.EndsIn .extension langMark)
    (hname : NamesLanguage ((p ++ v).drop (Draft.texts (ds ++ [d])).length)) :
    ∃ d' ds'' t, readItems config outer (lexemes (p ++ v)) = ds ++ d' :: ds'' ∧
      d'.EndsIn .readerDirective t := by
  obtain ⟨before, last, rest, e', e, hls, items, hbefore, item, hallows, htext⟩ :=
    exists_item_at h
  have hvalid : ∀ l ∈ before ++ last ++ rest, l.Valid := hls ▸ lexemes_valid (p ++ q)
  rw [htext] at hlt hname
  cases e with
  | cut => exact absurd hallows (not_allows_cut hls hlt)
  | dangling =>
    obtain ⟨hk, -⟩ := endsIn_unique hends item.endsIn_of_dangling
    cases hk
  | complete =>
    obtain ⟨front, l, rfl, hends'⟩ := item.endsIn_of_complete fun l hl =>
      hvalid l (List.mem_append_left _ (List.mem_append_right _ hl))
    obtain ⟨hkind, hlm⟩ := endsIn_unique hends hends'
    have hk := kind_of_endKind hkind.symm
    rw [endText_eq (by rw [hk]; decide)] at hlm
    rw [← List.append_assoc before] at hls hlt hname
    rw [List.append_assoc _ [l]] at hls
    have hlen := Lexeme.length_texts_snoc (before ++ front) l
    -- the lexemes before the mark stay, and in its place there is a directive
    have hsettled := lexemes_append_of_settled hls (settled_before (v := v) hls hlt)
    have hline : LanguageLine (p.drop (texts (before ++ front)).length ++ v) := by
      have hdrop := lexemes_drop hls
      rw [List.drop_append_of_le_length (by omega)] at hdrop
      refine languageLine_of_langMark hdrop hlm.symm (by rw [List.length_drop]; omega) ?_
      rw [hlen, List.drop_append_of_le_length (by omega)] at hname
      rwa [List.drop_drop]
    obtain ⟨m, ls, hm, hmk, hmf⟩ := lexemes_languageLine hline
    have hmvalid : m.Valid := lexemes_valid _ m (by rw [hm]; exact List.mem_cons_self)
    obtain ⟨d', item'⟩ := item.exchange (isPlain_of_kind (.inl hk)) (isPlain_of_kind (.inr hmk))
    have hitems := Items.snoc items (allows_exchange hbefore (by simp [stops, hk])) item'
    obtain ⟨front', m', hfront, hends''⟩ := item'.endsIn_of_complete fun u hu => by
      rcases List.mem_append.mp hu with hu | hu
      · exact hvalid u (by simp [hu])
      · rw [List.mem_singleton.mp hu]
        exact hmvalid
    obtain ⟨-, hm'⟩ := List.append_inj' hfront rfl
    cases hm'
    rw [endKind_eq (by rw [hmk]; decide) hmf, hmk] at hends''
    refine ⟨d', readItems config outer ls, m.endText, ?_, hends''⟩
    rw [hsettled, hm, List.append_cons, List.append_assoc before, hitems.readItems trivial,
      ← List.append_cons]

end Read

end RacketTree

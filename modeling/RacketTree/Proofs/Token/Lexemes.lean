import RacketTree.Proofs.Token.Lookahead

/-!
# Lexemes of a changed text

The lexemes of a text cover it (`texts_lexemes`), and from any lexeme on they are the lexemes of the
text that is left (`lexemes_suffix`). `lexemes_append` says which lexemes stay when the text behind
a front `p` is replaced: all those up to one that ends before the end of `p` and has looked no
further. Before that one the exception for language lines cannot arise, because the blanks after
`#lang` form a lexeme of their own; so only the last lexeme has to be looked at.
-/

namespace RacketTree

/-- The text of lexemes side by side. -/
def Lexeme.texts (ls : List Lexeme) : List Char :=
  ls.flatMap Lexeme.text

namespace Lexeme

@[simp] theorem texts_nil : texts [] = [] := rfl

@[simp] theorem texts_cons (l : Lexeme) (ls : List Lexeme) :
    texts (l :: ls) = l.text ++ texts ls := rfl

@[simp] theorem texts_append (ls ms : List Lexeme) : texts (ls ++ ms) = texts ls ++ texts ms :=
  List.flatMap_append

theorem length_texts_snoc (ls : List Lexeme) (l : Lexeme) :
    (texts (ls ++ [l])).length = (texts ls).length + l.text.length := by
  simp

end Lexeme

namespace Token

open Lexeme

theorem take_append_drop_pred {c : Char} {rest : List Char} {n : Nat} (hn : 0 < n) :
    (c :: rest).take n ++ rest.drop (n - 1) = c :: rest := by
  obtain ⟨m, rfl⟩ : ∃ m, n = m + 1 := ⟨n - 1, by omega⟩
  simp [List.take_append_drop]

theorem lexemes_cons {c : Char} {rest : List Char} {e : Extent} (h : extent c rest = .ok e) :
    lexemes (c :: rest) = cut e (c :: rest) :: lexemes ((c :: rest).drop e.width) := by
  have hpos := (extent_fits h).pos
  obtain ⟨m, hm⟩ : ∃ m, e.width = m + 1 := ⟨e.width - 1, by omega⟩
  rw [lexemes]
  simp [h, hm]

theorem lexemes_cons_error {c : Char} {rest : List Char} {cause : Unterminated}
    (h : extent c rest = .error cause) :
    lexemes (c :: rest) = [⟨.error, c :: rest, some cause.fault⟩] := by
  rw [lexemes]
  simp [h]

theorem texts_lexemes (cs : List Char) : texts (lexemes cs) = cs := by
  fun_induction lexemes cs with
  | case1 => rfl
  | case2 c rest e he ih =>
    rw [texts_cons, ih]
    exact take_append_drop_pred (extent_fits he).pos
  | case3 c rest cause he => simp

theorem lexemes_ne_nil {cs : List Char} (h : cs ≠ []) : lexemes cs ≠ [] := by
  intro hnil
  have := texts_lexemes cs
  rw [hnil] at this
  exact h this.symm

/-- The first lexeme of a text and the text behind it. -/
theorem lexemes_eq_cons {cs : List Char} {l : Lexeme} {ls : List Lexeme}
    (h : lexemes cs = l :: ls) : cs = l.text ++ texts ls ∧ ls = lexemes (texts ls) := by
  have htexts := texts_lexemes cs
  rw [h, texts_cons] at htexts
  refine ⟨htexts.symm, ?_⟩
  cases cs with
  | nil => rw [lexemes] at h; cases h
  | cons c rest =>
    cases he : extent c rest with
    | error cause =>
      rw [lexemes_cons_error he] at h
      cases h
      simp [lexemes]
    | ok e =>
      rw [lexemes_cons he] at h
      cases h
      rw [texts_lexemes]

theorem lexemes_suffix {cs : List Char} {used rest : List Lexeme}
    (h : lexemes cs = used ++ rest) :
    cs = texts used ++ texts rest ∧ rest = lexemes (texts rest) := by
  induction used generalizing cs with
  | nil =>
    rw [List.nil_append] at h
    have hcs := texts_lexemes cs
    rw [h] at hcs
    exact ⟨hcs.symm, by rw [hcs, h]⟩
  | cons l used ih =>
    obtain ⟨hcs, hls⟩ := lexemes_eq_cons h
    obtain ⟨h₁, h₂⟩ := ih hls.symm
    refine ⟨?_, h₂⟩
    rw [hcs, h₁, texts_cons, List.append_assoc]

/-! ## Language lines -/

/-- A language line is a directive. -/
theorem extent_languageLine {c : Char} {rest : List Char} (hl : LanguageLine (c :: rest)) :
    ∃ n, extent c rest = .ok (.plain .readerDirective n) := by
  obtain ⟨tail, hcs, hname⟩ := hl
  cases hcs
  change ∃ n, wordExtent 'l' ('a' :: 'n' :: 'g' :: tail) = .ok (.plain .readerDirective n)
  cases hd : directive? ('l' :: 'a' :: 'n' :: 'g' :: tail) with
  | none => exact absurd hname ((directive?_lang tail).mp hd)
  | some e' =>
    rcases directive?_cases hd with ⟨_, _, hcs, -, -⟩ | ⟨_, hcs, -, -, -⟩ | ⟨_, -, -, -, rfl⟩
    · cases hcs
    · cases hcs
    · exact ⟨_, wordExtent_eq_ok_iff.mpr (.directive hd)⟩

theorem wordExtent_extension {c : Char} {rest : List Char} {e : Extent}
    (h : wordExtent c rest = .ok e) (hk : e.kind = .extension) :
    ∃ n, runWidth false (c :: rest) = .ok n ∧ e = .plain .extension (n + 1) := by
  cases wordExtent_eq_ok_iff.mp h with
  | directive hd =>
    rcases directive?_cases hd with ⟨_, _, -, -, rfl⟩ | ⟨_, -, -, -, rfl⟩ | ⟨_, -, -, -, rfl⟩ <;>
      cases hk
  | regexp | hereString | opener => cases hk
  | mark hd hr hh ho hm =>
    rcases Option.or_eq_some_iff.mp hm with hm | ⟨-, hm⟩
    · obtain ⟨-, _, _, -, ⟨-, rfl⟩ | ⟨-, rfl⟩⟩ := graphMark?_cases hm <;> cases hk
    · obtain ⟨_, -, -, -, rfl⟩ := boolean?_cases hm
      cases hk
  | run hd hr hh ho hm hw =>
    refine ⟨_, hw, ?_⟩
    simp only [Extent.plain] at hk ⊢
    rw [hk]

/-- A kind of token that begins with a `#` wherever it stands. -/
def beginsHash : Kind → Bool
  | .blockComment | .byteString | .character | .boolean | .keyword | .regexp | .hereString
  | .graphReference | .readerDirective | .extension | .datumCommentMark | .graphLabel => true
  | _ => false

theorem hashExtent_of_extent {c : Char} {rest : List Char} {e : Extent}
    (h : extent c rest = .ok e) (hk : beginsHash e.kind = true) :
    c = '#' ∧ hashExtent rest = .ok e := by
  unfold extent at h
  split at h
  · cases h; cases hk
  split at h
  · cases h; cases hk
  split at h
  · cases h; cases hk
  split at h
  · cases h; cases hk
  · cases h; cases hk
  · cases h; cases hk
  · cases h; cases hk
  · split at h
    · cases h; cases hk
    · cases h
  · exact ⟨rfl, h⟩
  · obtain ⟨n, -, rfl⟩ := atomExtent_eq_ok h
    simp only [Extent.plain] at hk
    split at hk
    · cases hk
    · split at hk <;> cases hk

/-- An extension is a `#` with the run behind it. -/
theorem extent_extension {c : Char} {rest : List Char} {e : Extent}
    (hextent : extent c rest = .ok e) (hk : e.kind = .extension) :
    ∃ n, runWidth false rest = .ok n ∧ e = .plain .extension (n + 1) := by
  obtain ⟨-, h⟩ := hashExtent_of_extent hextent (by rw [hk]; rfl)
  unfold hashExtent at h
  split at h
  · cases h
    exact ⟨0, rfl, rfl⟩
  · split at h
    · split at h
      · cases h; cases hk
      · cases h
    · cases h; cases hk
    · rw [characterExtent_kind h] at hk; cases hk
    · split at h
      · cases h; cases hk
      · cases h
    · cases h; cases hk
    · cases h; cases hk
    · cases h; cases hk
    · cases h; cases hk
    · rename_i rest' _
      cases hw : runWidth false rest' with
      | error cause => rw [hw] at h; cases h
      | ok n => rw [hw] at h; cases h; cases hk
    · split at h
      · cases h; cases hk
      · exact wordExtent_extension h hk

/-- An extension that is not the rest of the text ends before a character that ends a run. -/
theorem extension_stop {c : Char} {rest : List Char} {e : Extent} (h : extent c rest = .ok e)
    (hk : e.kind = .extension) (hlt : e.width < rest.length + 1) :
    ∃ d tail, (c :: rest).drop e.width = d :: tail ∧ endsRun d = true := by
  obtain ⟨n, hw, rfl⟩ := extent_extension h hk
  simp only [Extent.plain] at hlt ⊢
  obtain ⟨d, tail, hdrop, hd⟩ := runWidth_stop hw (by omega)
  exact ⟨d, tail, hdrop, hd⟩

theorem extension_lang_width {b : Char} {rest : List Char} {e : Extent}
    (h : extent '#' ('l' :: 'a' :: 'n' :: 'g' :: b :: rest) = .ok e) (hk : e.kind = .extension)
    (hb : isLangBlank b = true) : e.width = 5 := by
  obtain ⟨n, hw, rfl⟩ := extent_extension h hk
  have h₁ : b ≠ '\\' := by rintro rfl; cases hb
  have h₂ : b ≠ '|' := by rintro rfl; cases hb
  have hrun : runWidth false ('l' :: 'a' :: 'n' :: 'g' :: b :: rest) = .ok 4 := by
    rw [runWidth_cons (by decide) (by decide), runWidth_cons (by decide) (by decide),
      runWidth_cons (by decide) (by decide), runWidth_cons (by decide) (by decide),
      runWidth_cons h₁ h₂, endsRun_of_isLangBlank hb]
    rfl
  rw [hrun] at hw
  cases hw
  rfl

/-- An extension at the front of `p` that becomes a language line by other text behind `p` is
`#lang` with a blank behind it. -/
theorem extension_of_languageLine {c : Char} {p q v : List Char} {e : Extent}
    (h : extent c (p ++ q) = .ok e) (hk : e.kind = .extension) (hlen : e.width < p.length + 1)
    (hl : LanguageLine (c :: (p ++ v))) :
    e.width = 5 ∧ ∃ b p', c :: p = ['#', 'l', 'a', 'n', 'g'] ++ b :: p' ∧ isLangBlank b = true ∧
      NamesLanguage (b :: p' ++ v) := by
  obtain ⟨rest, hcs, hname⟩ := hl
  obtain ⟨blanks, x, tail, hrest, hne, hblanks, hx⟩ := id hname
  cases blanks with
  | nil => exact absurd rfl hne
  | cons b blanks =>
    have hb := hblanks b List.mem_cons_self
    -- the character after the extension stands in `p`, so it is not one of `#lang`
    have hfive : 5 ≤ e.width := by
      obtain ⟨d, tail', hdrop, hd⟩ := extension_stop h hk (by rw [List.length_append]; omega)
      have hget : (c :: (p ++ v))[e.width]? = some d := by
        have hq : (c :: p ++ q)[e.width]? = some d := by
          rw [← Nat.add_zero e.width, ← List.getElem?_drop, List.cons_append, hdrop]
          rfl
        rw [List.getElem?_append_left (by simpa using hlen)] at hq
        rw [← List.cons_append, List.getElem?_append_left (by simpa using hlen), hq]
      have hpos := (extent_fits h).pos
      by_contra hlt
      rw [hcs] at hget
      have hcases : e.width = 1 ∨ e.width = 2 ∨ e.width = 3 ∨ e.width = 4 := by omega
      rcases hcases with hw | hw | hw | hw <;> rw [hw] at hget <;> cases hget <;> cases hd
    have hfront : ∃ p', c :: p = ['#', 'l', 'a', 'n', 'g'] ++ b :: p' ∧
        blanks ++ x :: tail = p' ++ v := by
      have hprefix : ['#', 'l', 'a', 'n', 'g', b] <+: c :: p := by
        refine @List.prefix_of_prefix_length_le _ _ _ (c :: (p ++ v)) ?_ ?_ ?_
        · rw [hcs, hrest]
          exact ⟨blanks ++ x :: tail, by simp⟩
        · exact ⟨v, rfl⟩
        · simp only [List.length_cons, List.length_nil]
          omega
      obtain ⟨p', hp'⟩ := hprefix
      refine ⟨p', by rw [← hp']; rfl, ?_⟩
      rw [← List.cons_append, ← hp', hrest] at hcs
      simpa using hcs.symm
    obtain ⟨p', hp, hp'⟩ := hfront
    refine ⟨?_, b, p', hp, hb, ?_⟩
    · cases hp
      exact extension_lang_width h hk hb
    · exact ⟨b :: blanks, x, tail, by rw [List.cons_append, ← hp']; rfl, hne, hblanks, hx⟩

/-! ## Replacing the text behind a front -/

/-- The lexemes lie in the front `p`, have looked no further, and none of them becomes a language
line when `v` follows. -/
def Settled (v : List Char) : List Char → List Lexeme → Prop
  | _, [] => True
  | p, l :: ls =>
    l.text.length + lookahead l.kind ≤ p.length ∧
      (l.kind = .extension → ¬LanguageLine (p ++ v)) ∧ Settled v (p.drop l.text.length) ls

theorem cut_append {e : Extent} {p : List Char} (h : e.width ≤ p.length) (q : List Char) :
    cut e (p ++ q) = cut e p := by
  rw [cut, cut, List.take_append_of_le_length h]

/-- The first lexeme of a text lies in a front of the text that holds it. -/
theorem lexemes_front {c : Char} {p q : List Char} {e : Extent} (h : extent c (p ++ q) = .ok e)
    (hle : e.width ≤ p.length + 1) :
    lexemes (c :: (p ++ q)) = cut e (c :: p) :: lexemes ((c :: p).drop e.width ++ q) := by
  rw [lexemes_cons h, ← List.cons_append, cut_append hle, List.drop_append_of_le_length hle]

theorem lexemes_append_cons {p q v : List Char} {l : Lexeme} {ls : List Lexeme}
    (h : lexemes (p ++ q) = l :: ls) (hlen : l.text.length + lookahead l.kind ≤ p.length)
    (hl : l.kind = .extension → ¬LanguageLine (p ++ v)) :
    lexemes (p ++ v) = l :: lexemes (p.drop l.text.length ++ v) ∧
      ls = lexemes (p.drop l.text.length ++ q) := by
  have hvalid := (lexemes_valid (p ++ q) l (by rw [h]; exact List.mem_cons_self)).nonempty
  cases p with
  | nil =>
    rw [List.length_nil] at hlen
    exact absurd (List.length_eq_zero_iff.mp (by omega)) hvalid
  | cons c p =>
    cases he : extent c (p ++ q) with
    | error cause =>
      rw [List.cons_append, lexemes_cons_error he] at h
      cases h
      have hall : (p ++ q).length + 1 + 1 ≤ p.length + 1 := hlen
      rw [List.length_append] at hall
      omega
    | ok e =>
      have hwidth : l.text.length = e.width := by
        rw [← length_text_cut (extent_fits he)]
        rw [List.cons_append, lexemes_cons he] at h
        cases h
        rfl
      rw [hwidth] at hlen ⊢
      have hle : e.width ≤ p.length + 1 := by
        rw [List.length_cons] at hlen
        omega
      rw [List.cons_append, lexemes_front he hle] at h
      obtain ⟨rfl, rfl⟩ := List.cons.inj h
      exact ⟨lexemes_front (extent_append he hlen hl) hle, rfl⟩

theorem lexemes_append_of_settled {p q v : List Char} {used rest : List Lexeme}
    (h : lexemes (p ++ q) = used ++ rest) (hs : Settled v p used) :
    lexemes (p ++ v) = used ++ lexemes (p.drop (texts used).length ++ v) := by
  induction used generalizing p with
  | nil => simp
  | cons l used ih =>
    obtain ⟨hlen, hl, hs⟩ := hs
    obtain ⟨hv, hq⟩ := lexemes_append_cons h hlen hl
    rw [hv, ih hq.symm hs, List.drop_drop, texts_cons, List.length_append, List.cons_append]

/-- Whether a name follows the blanks is decided where they end. -/
theorem NamesLanguage.of_append {p q v : List Char} (h : NamesLanguage (p ++ v))
    (hp : ∃ c ∈ p, isLangBlank c = false) : NamesLanguage (p ++ q) := by
  obtain ⟨blanks, x, tail, hcs, hne, hb, hx⟩ := h
  obtain ⟨c, hc, hcb⟩ := hp
  have hblank : ¬∀ b ∈ p, isLangBlank b = true := by
    intro hall
    rw [hall c hc] at hcb
    cases hcb
  rcases List.append_eq_append_iff.mp hcs with ⟨mid, rfl, -⟩ | ⟨mid, rfl, hmid⟩
  · exact absurd (fun b h => hb b (List.mem_append_left _ h)) hblank
  · cases mid with
    | nil =>
      rw [List.append_nil] at hblank
      exact absurd hb hblank
    | cons y mid =>
      obtain ⟨rfl, -⟩ := List.cons.inj hmid
      exact ⟨blanks, x, mid ++ q, by simp, hne, hb, hx⟩

theorem lexemes_blank {b : Char} (rest : List Char) {m : Lexeme} {ls : List Lexeme}
    (hb : Text.isBlank b = true) (h : lexemes (b :: rest) = m :: ls) :
    m.text.length = ((b :: rest).takeWhile Text.isBlank).length := by
  have he : extent b rest =
      .ok (.plain .whitespace (1 + (rest.takeWhile Text.isBlank).length)) := by
    simp [extent, hb]
  rw [lexemes_cons he] at h
  obtain ⟨rfl, -⟩ := List.cons.inj h
  rw [length_text_cut (extent_fits he), List.takeWhile_cons_of_pos hb, List.length_cons]
  exact Nat.add_comm _ _

/-- No language line arises where an extension is followed by another lexeme inside `p`. -/
theorem not_languageLine_of_next {p q v : List Char} {l m : Lexeme} {ls : List Lexeme}
    (h : lexemes (p ++ q) = l :: m :: ls) (hk : l.kind = .extension)
    (hlen : l.text.length + m.text.length < p.length) : ¬LanguageLine (p ++ v) := by
  intro hl
  cases p with
  | nil => exact absurd hlen (Nat.not_lt_zero _)
  | cons c p =>
    cases he : extent c (p ++ q) with
    | error cause =>
      rw [List.cons_append, lexemes_cons_error he] at h
      cases h
    | ok e =>
      rw [List.cons_append, lexemes_cons he] at h
      obtain ⟨rfl, hrest⟩ := List.cons.inj h
      rw [length_text_cut (extent_fits he), List.length_cons] at hlen
      obtain ⟨hwidth, b, p', hp, hb, hname⟩ :=
        extension_of_languageLine he hk (by omega) (by simpa using hl)
      rw [hwidth, ← List.cons_append, hp, List.append_assoc] at hrest
      have hblanks := lexemes_blank (p' ++ q) (isBlank_of_isLangBlank hb) hrest
      have hp_len : p.length + 1 = 5 + (b :: p').length := by
        rw [← List.length_cons (a := c), hp, List.length_append]
        rfl
      -- the blanks end inside `p`, so the line was one before
      have hend : ∃ d ∈ b :: p', isLangBlank d = false := by
        by_contra hall
        have hblank : ∀ d ∈ b :: p', Text.isBlank d = true := by
          intro d hd
          by_contra hne
          refine hall ⟨d, hd, ?_⟩
          rw [Bool.eq_false_iff]
          exact fun hd => hne (isBlank_of_isLangBlank hd)
        have hle : (b :: p').length ≤ m.text.length := by
          rw [hblanks, ← List.cons_append, List.takeWhile_append_of_pos hblank, List.length_append]
          omega
        omega
      have hline : LanguageLine (c :: (p ++ q)) :=
        ⟨b :: p' ++ q, by rw [← List.cons_append, hp, List.append_assoc], hname.of_append hend⟩
      obtain ⟨n, hn⟩ := extent_languageLine hline
      rw [he] at hn
      cases hn
      cases hk

theorem lookahead_le_one {k : Kind} (h : k ≠ .character) : lookahead k ≤ 1 := by
  cases k <;> first
    | exact absurd rfl h
    | decide

theorem lookahead_le (k : Kind) : lookahead k ≤ 2 := by
  cases k <;> decide

theorem settled_append {v p : List Char} {xs ys : List Lexeme} :
    Settled v p (xs ++ ys) ↔ Settled v p xs ∧ Settled v (p.drop (texts xs).length) ys := by
  induction xs generalizing p with
  | nil => simp [Settled]
  | cons l xs ih =>
    rw [List.cons_append, Settled, Settled, ih, texts_cons, List.length_append, List.drop_drop,
      and_assoc, and_assoc]

/-- A lexeme that ends inside `p` before another one has looked no further than `p`, and is no
language line whatever follows. -/
theorem settled_before {p q v : List Char} {used rest : List Lexeme} {l : Lexeme}
    (h : lexemes (p ++ q) = used ++ l :: rest)
    (hlt : (texts (used ++ [l])).length < p.length) : Settled v p used := by
  induction used generalizing p with
  | nil => exact trivial
  | cons m used ih =>
    rw [List.cons_append, texts_cons, List.length_append] at hlt
    have hpos : 0 < (texts (used ++ [l])).length := by
      rw [length_texts_snoc]
      have hmem : l ∈ lexemes (p ++ q) := by
        rw [h]
        simp
      have := List.length_pos_of_ne_nil (lexemes_valid _ l hmem).nonempty
      omega
    have hla := lookahead_le m.kind
    have hmk : m.kind = .extension → ¬LanguageLine (p ++ v) := by
      intro hk
      cases used with
      | nil =>
        refine not_languageLine_of_next h hk ?_
        simpa using hlt
      | cons n used =>
        refine not_languageLine_of_next h hk ?_
        simp only [List.cons_append, texts_cons, List.length_append] at hlt
        omega
    have hrest := (lexemes_append_cons h (by omega) hmk).2
    refine ⟨by omega, hmk, ih hrest.symm ?_⟩
    rw [List.length_drop]
    omega

/-- The lexemes up to `l` stay whatever follows `p`, if `l` ends inside `p`, has looked no further
and does not become a language line. -/
theorem lexemes_append {p q v : List Char} {used rest : List Lexeme} {l : Lexeme}
    (h : lexemes (p ++ q) = used ++ l :: rest)
    (hlt : (texts (used ++ [l])).length < p.length)
    (hlen : (texts (used ++ [l])).length + lookahead l.kind ≤ p.length)
    (hl : l.kind = .extension → ¬LanguageLine (p.drop (texts used).length ++ v)) :
    lexemes (p ++ v) = used ++ [l] ++ lexemes (p.drop (texts (used ++ [l])).length ++ v) := by
  have hlast : Settled v (p.drop (texts used).length) [l] := by
    refine ⟨?_, hl, trivial⟩
    rw [length_texts_snoc] at hlen
    rw [List.length_drop]
    omega
  have h' : lexemes (p ++ q) = used ++ [l] ++ rest := by simpa using h
  exact lexemes_append_of_settled h' (settled_append.mpr ⟨settled_before h hlt, hlast⟩)

end Token

end RacketTree

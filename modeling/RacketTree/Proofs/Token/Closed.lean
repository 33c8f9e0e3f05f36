import RacketTree.Proofs.Token.Lexemes

/-!
# Texts that end with a closing character

Where the last lexeme of a text ends with a closing character, the lexemes of the text are not
changed by anything that is written behind it, and what is written there is read as a text of its
own (`lexemes_append_of_closed`). Every earlier lexeme has at least one character of the text behind
it. This is as far as most tokens look; two kinds look further:

* a character literal looks for two more octal digits, but no lexeme with a closing character starts
  with a digit;
* `#lang` looks for blanks and a name, but blanks would be a lexeme of their own.
-/

namespace RacketTree.Token

open Lexeme (texts)

/-! ## Character literals -/

theorem wordExtent_ne_character {c : Char} {rest : List Char} {e : Extent}
    (h : wordExtent c rest = .ok e) : e.kind ≠ .character := by
  intro hk
  cases wordExtent_eq_ok_iff.mp h with
  | directive hd =>
    rcases directive?_cases hd with ⟨_, _, -, -, rfl⟩ | ⟨_, -, -, -, rfl⟩ | ⟨_, -, -, -, rfl⟩ <;>
      cases hk
  | regexp | hereString | opener => cases hk
  | mark hd hr hh ho hm =>
    rcases Option.or_eq_some_iff.mp hm with hm | ⟨-, hm⟩
    · obtain ⟨-, _, _, -, ⟨-, rfl⟩ | ⟨-, rfl⟩⟩ := graphMark?_cases hm <;> cases hk
    · obtain ⟨_, -, -, -, rfl⟩ := boolean?_cases hm
      cases hk
  | run =>
    simp only [Extent.plain] at hk
    split at hk
    · split at hk <;> cases hk
    · cases hk

/-- A character literal begins with `#\`. -/
theorem extent_character {c : Char} {rest : List Char} {e : Extent}
    (hextent : extent c rest = .ok e) (hk : e.kind = .character) :
    c = '#' ∧ ∃ tail, rest = '\\' :: tail ∧ characterExtent tail = .ok e := by
  obtain ⟨hc, h⟩ := hashExtent_of_extent hextent (by rw [hk]; rfl)
  refine ⟨hc, ?_⟩
  unfold hashExtent at h
  split at h
  · cases h; cases hk
  · split at h
    · split at h
      · cases h; cases hk
      · cases h
    · cases h; cases hk
    · exact ⟨_, rfl, h⟩
    · split at h
      · cases h; cases hk
      · cases h
    · cases h; cases hk
    · cases h; cases hk
    · cases h; cases hk
    · cases h; cases hk
    · rename_i rest' _
      cases hw : runWidth false rest' with
      | error cause => rw [hw] at h; cases h
      | ok n => rw [hw] at h; cases h; cases hk
    · split at h
      · cases h; cases hk
      · exact absurd hk (wordExtent_ne_character h)

/-- A character literal is decided by the character behind it, if that is no octal digit. -/
theorem extent_append_of_character {c d : Char} {p q rest : List Char} {e : Extent}
    (h : extent c (p ++ q) = .ok e) (hk : e.kind = .character)
    (hd : (c :: p).drop e.width = d :: rest) (hoctal : Text.isOctalDigit d = false)
    (v : List Char) : extent c (p ++ v) = .ok e := by
  have hlt : e.width < p.length + 1 := length_lt_of_drop_eq_cons hd
  obtain ⟨rfl, tail, htail, h⟩ := extent_character h hk
  have hthree := characterExtent_three_le h
  obtain ⟨p, rfl, rfl⟩ := exists_of_append_eq_cons (by omega) htail
  rw [List.length_cons] at hlt
  cases p with
  | nil => rw [List.length_nil] at hlt; omega
  | cons b p =>
    rw [List.length_cons] at hlt
    refine characterExtent_append_of_octal h (by omega) v ?_
    by_cases hwidth : e.width = 3
    · rw [hwidth] at hd
      cases hd
      rw [List.cons_append, List.cons_append, isOctalCode_of_not hoctal, isOctalCode_of_not hoctal]
    · rw [isOctalCode_append (by omega), isOctalCode_append (by omega)]

theorem mem_of_isOctalDigit {c : Char} (h : Text.isOctalDigit c = true) :
    c ∈ ['0', '1', '2', '3', '4', '5', '6', '7'] := by
  simp only [Text.isOctalDigit, Bool.and_eq_true, decide_eq_true_eq] at h
  have hlo : 48 ≤ c.toNat := h.1
  have hhi : c.toNat < 56 := Nat.lt_succ_of_le h.2
  have hall : ∀ n < 56, 48 ≤ n →
      Char.ofNat n ∈ ['0', '1', '2', '3', '4', '5', '6', '7'] := by decide
  rw [← Char.ofNat_toNat c]
  exact hall c.toNat hhi hlo

/-- A token that starts with an octal digit is a run. -/
theorem lookahead_of_isOctalDigit {c : Char} {rest : List Char} {e : Extent}
    (hc : Text.isOctalDigit c = true) (h : extent c rest = .ok e) : lookahead e.kind = 1 := by
  have hatom : atomExtent (c :: rest) = .ok e := by
    have hmem := mem_of_isOctalDigit hc
    simp only [List.mem_cons, List.not_mem_nil, or_false] at hmem
    rcases hmem with rfl | rfl | rfl | rfl | rfl | rfl | rfl | rfl <;> exact h
  obtain ⟨n, -, rfl⟩ := atomExtent_eq_ok hatom
  simp only [Extent.plain]
  split
  · rfl
  · split <;> rfl

/-! ## Language lines -/

/-- No language line arises from an extension before a lexeme other than blanks. -/
theorem not_languageLine_of_kind {c : Char} {p q v : List Char} {e : Extent} {n : Lexeme}
    {ns : List Lexeme} (h : extent c (p ++ q) = .ok e) (hk : e.kind = .extension)
    (hlt : e.width < p.length + 1) (hn : lexemes ((c :: p).drop e.width ++ q) = n :: ns)
    (hnk : n.kind ≠ .whitespace) : ¬LanguageLine (c :: (p ++ v)) := by
  intro hline
  obtain ⟨hwidth, b, p', hp, hb, -⟩ := extension_of_languageLine h hk hlt hline
  have hblank : extent b (p' ++ q) =
      .ok (.plain .whitespace (1 + ((p' ++ q).takeWhile Text.isBlank).length)) := by
    simp [extent, isBlank_of_isLangBlank hb]
  have hdrop : (c :: p).drop e.width = b :: p' := by
    rw [hp, hwidth]
    rfl
  rw [hdrop, List.cons_append, lexemes_cons hblank] at hn
  obtain ⟨rfl, -⟩ := List.cons.inj hn
  exact hnk rfl

/-! ## Lexemes before a closing character -/

/-- A token is decided before the lexeme `n`, if `n` ends with a closing character or there is more
text behind it. -/
theorem extent_append_of_next {c : Char} {p q : List Char} {e : Extent} {n : Lexeme}
    {ns : List Lexeme} (h : extent c (p ++ q) = .ok e) (hlt : e.width < p.length + 1)
    (hn : lexemes ((c :: p).drop e.width ++ q) = n :: ns)
    (hnext : lookahead n.kind = 0 ∨ e.width + n.text.length < p.length + 1) (v : List Char) :
    extent c (p ++ v) = .ok e := by
  have hpos : 0 < n.text.length := by
    have hvalid := lexemes_valid _ n (by rw [hn]; exact List.mem_cons_self)
    exact List.length_pos_iff.mpr hvalid.nonempty
  obtain ⟨d, rest, hd⟩ : ∃ d rest, (c :: p).drop e.width = d :: rest :=
    List.exists_cons_of_length_pos (by rw [List.length_drop, List.length_cons]; omega)
  by_cases hchar : e.kind = .character ∧ Text.isOctalDigit d = false
  · exact extent_append_of_character h hchar.1 hd hchar.2 v
  · refine extent_append h ?_ ?_
    · by_cases hk : e.kind = .character
      · -- the digit behind the literal starts a run, so there is more text
        have hoctal : Text.isOctalDigit d = true := by
          by_contra hno
          exact hchar ⟨hk, Bool.eq_false_iff.mpr hno⟩
        have hone : lookahead n.kind = 1 := by
          rw [hd, List.cons_append] at hn
          cases hextent : extent d (rest ++ q) with
          | error cause =>
            rw [lexemes_cons_error hextent] at hn
            cases hn
            rfl
          | ok e' =>
            rw [lexemes_cons hextent] at hn
            obtain ⟨rfl, -⟩ := List.cons.inj hn
            exact lookahead_of_isOctalDigit hoctal hextent
        have htwo := lookahead_le e.kind
        omega
      · have hone := lookahead_le_one hk
        omega
    · intro hk
      rcases hnext with hzero | hmore
      · refine not_languageLine_of_kind h hk hlt hn ?_
        intro hblank
        rw [hblank] at hzero
        cases hzero
      · have hlexemes := lexemes_front h (by omega)
        rw [hn] at hlexemes
        refine not_languageLine_of_next (p := c :: p) hlexemes hk ?_
        simp only [cut, List.length_take, List.length_cons]
        omega

/-- Behind a lexeme that ends with a closing character a new text begins. -/
theorem lexemes_append_of_closed {a : List Char} {used : List Lexeme} {l : Lexeme}
    (h : lexemes a = used ++ [l]) (hl : lookahead l.kind = 0) (b : List Char) :
    lexemes (a ++ b) = used ++ l :: lexemes b := by
  induction used generalizing a with
  | nil =>
    obtain ⟨ha, -⟩ := lexemes_eq_cons h
    rw [Lexeme.texts_nil, List.append_nil] at ha
    have h' : lexemes (a ++ []) = [l] := by rwa [List.append_nil]
    have hkind : l.kind = .extension → ¬LanguageLine (a ++ b) := by
      intro hk
      rw [hk] at hl
      cases hl
    obtain ⟨hv, -⟩ := lexemes_append_cons h' (by rw [hl, ha]; exact Nat.le_refl _) hkind
    rw [hv, ha, List.drop_length]
    rfl
  | cons m used ih =>
    cases a with
    | nil => rw [lexemes] at h; cases h
    | cons c p =>
      obtain ⟨n, ns, hns⟩ : ∃ n ns, used ++ [l] = n :: ns :=
        List.exists_cons_of_ne_nil (by simp)
      cases he : extent c p with
      | error cause =>
        rw [lexemes_cons_error he, List.cons_append, hns] at h
        cases h
      | ok e =>
        rw [lexemes_cons he, List.cons_append] at h
        obtain ⟨hm, hrest⟩ := List.cons.inj h
        obtain ⟨hcs, -⟩ := lexemes_eq_cons (hrest.trans hns)
        have hlen := congrArg List.length hcs
        rw [List.length_drop, List.length_append, List.length_cons] at hlen
        have hvalid : ∀ x ∈ used ++ [l], x.Valid := hrest ▸ lexemes_valid _
        have hpos : 0 < n.text.length :=
          List.length_pos_iff.mpr (hvalid n (by rw [hns]; exact List.mem_cons_self)).nonempty
        have hnext : lookahead n.kind = 0 ∨ e.width + n.text.length < p.length + 1 := by
          cases used with
          | nil =>
            cases hns
            exact .inl hl
          | cons u used =>
            have hlast := List.length_pos_iff.mpr (hvalid l (by simp)).nonempty
            rw [List.cons_append] at hns
            obtain ⟨rfl, rfl⟩ := List.cons.inj hns
            rw [Lexeme.length_texts_snoc] at hlen
            exact .inr (by omega)
        have he' : extent c (p ++ b) = .ok e := by
          have hq : extent c (p ++ []) = .ok e := by rwa [List.append_nil]
          have hn : lexemes ((c :: p).drop e.width ++ []) = n :: ns := by
            rw [List.append_nil, hrest, hns]
          exact extent_append_of_next hq (by omega) hn hnext b
        rw [List.cons_append, lexemes_front he' (by omega), hm, ih hrest]
        rfl

end RacketTree.Token

import RacketTree.Proofs.Token.Extent

/-!
# How far the classifier of tokens looks

`lookahead` bounds by kind how many characters behind a token its classification depends on: none
for tokens that end with a closing character, two for characters (three octal digits are one
character, a single digit is one too), one for all others. `extent_append` proves the bound: a front
of the text that holds the token and so many characters more decides the token, whatever follows.

There is one exception. After `#lang` come any number of blanks before the name of the language, and
only what follows them tells whether the token is the extension `#lang` or a directive. So an
extension stays one only if no `LanguageLine` comes into being.
-/

namespace RacketTree.Token

/-- The number of characters behind a token of this kind that decide it together with its own. -/
def lookahead : Kind → Nat
  | .opener | .closer | .string | .byteString | .regexp | .blockComment | .datumCommentMark
  | .graphLabel | .graphReference => 0
  | .character => 2
  | _ => 1

/-- Blanks and the first character of the name of a language. -/
def NamesLanguage (cs : List Char) : Prop :=
  ∃ blanks c rest, cs = blanks ++ c :: rest ∧ blanks ≠ [] ∧
    (∀ b ∈ blanks, isLangBlank b = true) ∧ isLangChar c = true

/-- The text begins with `#lang`, blanks and the name of a language. -/
def LanguageLine (cs : List Char) : Prop :=
  ∃ rest, cs = ['#', 'l', 'a', 'n', 'g'] ++ rest ∧ NamesLanguage rest

/-! ## Directives -/

theorem not_isLangBlank_of_isLangChar {c : Char} (h : isLangChar c = true) :
    isLangBlank c = false := by
  rw [Bool.eq_false_iff]
  intro hb
  rw [not_isLangChar_of_endsRun (endsRun_of_isLangBlank hb)] at h
  cases h

theorem takeWhile_blanks {blanks : List Char} (hb : ∀ b ∈ blanks, isLangBlank b = true)
    {c : Char} (hc : isLangBlank c = false) (rest : List Char) :
    (blanks ++ c :: rest).takeWhile isLangBlank = blanks ∧
      (blanks ++ c :: rest).dropWhile isLangBlank = c :: rest := by
  rw [List.takeWhile_append_of_pos hb, List.dropWhile_append_of_pos hb]
  simp [hc]

theorem namesLanguage_iff {cs : List Char} :
    NamesLanguage cs ↔ cs.takeWhile isLangBlank ≠ [] ∧
      (cs.dropWhile isLangBlank).takeWhile isLangChar ≠ [] := by
  constructor
  · rintro ⟨blanks, c, rest, rfl, hne, hb, hc⟩
    obtain ⟨h₁, h₂⟩ := takeWhile_blanks hb (not_isLangBlank_of_isLangChar hc) rest
    rw [h₁, h₂, List.takeWhile_cons_of_pos hc]
    exact ⟨hne, by simp⟩
  · rintro ⟨h₁, h₂⟩
    cases hd : cs.dropWhile isLangBlank with
    | nil => rw [hd] at h₂; exact absurd rfl h₂
    | cons c rest =>
      refine ⟨cs.takeWhile isLangBlank, c, rest, ?_, h₁, ?_, ?_⟩
      · rw [← hd, List.takeWhile_append_dropWhile]
      · exact List.all_eq_true.mp List.all_takeWhile
      · rw [hd] at h₂
        by_contra hc
        rw [List.takeWhile_cons_of_neg hc] at h₂
        exact h₂ rfl

theorem directive?_lang (rest : List Char) :
    directive? ('l' :: 'a' :: 'n' :: 'g' :: rest) = none ↔ ¬NamesLanguage rest := by
  rw [namesLanguage_iff]
  simp only [directive?]
  split
  · rename_i h
    simp only [Bool.or_eq_true, List.isEmpty_iff] at h
    exact ⟨fun _ hn => h.elim hn.1 hn.2, fun _ => rfl⟩
  · rename_i h
    simp only [Bool.or_eq_true, List.isEmpty_iff, not_or] at h
    exact ⟨nofun, fun hn => absurd h hn⟩

theorem exists_of_append_eq_append {front p q rest : List Char} (hle : front.length ≤ p.length)
    (h : p ++ q = front ++ rest) : ∃ p', p = front ++ p' ∧ rest = p' ++ q := by
  rcases List.append_eq_append_iff.mp h with ⟨more, hfront, hq⟩ | hrest
  · -- `front` is no longer than `p`
    have hlength := congrArg List.length hfront
    rw [List.length_append] at hlength
    obtain rfl : more = [] := List.eq_nil_of_length_eq_zero (by omega)
    rw [List.append_nil] at hfront
    exact ⟨[], by rw [hfront, List.append_nil], hq.symm⟩
  · exact hrest

theorem exists_of_append_eq_cons {p q rest : List Char} {c : Char} (hp : 0 < p.length)
    (h : p ++ q = c :: rest) : ∃ p', p = c :: p' ∧ rest = p' ++ q :=
  @exists_of_append_eq_append [c] p q rest hp h

theorem directive?_bang {c : Char} (h₁ : c ≠ ' ') (h₂ : c ≠ '/') (rest : List Char) :
    directive? ('!' :: c :: rest) =
      if ((c :: rest).takeWhile isLangChar).isEmpty then none
      else some (.plain .readerDirective (2 + ((c :: rest).takeWhile isLangChar).length)) := by
  simp [directive?, h₁, h₂]

theorem dropWhile_append_of_lt {f : Char → Bool} {p q : List Char}
    (h : ((p ++ q).takeWhile f).length < p.length) (v : List Char) :
    (p ++ v).dropWhile f = p.dropWhile f ++ v := by
  have htake := takeWhile_append_of_lt h []
  rw [List.append_nil] at htake
  have hlen := congrArg List.length (List.takeWhile_append_dropWhile (p := f) (l := p))
  rw [List.length_append, htake] at hlen
  rw [List.dropWhile_append, if_neg]
  rw [List.isEmpty_iff_length_eq_zero]
  omega

/-- A directive that ends before the end of `p` is one whatever follows `p`. -/
theorem directive?_append {p q : List Char} {e : Extent} (h : directive? (p ++ q) = some e)
    (hlen : e.width ≤ p.length) (v : List Char) : directive? (p ++ v) = some e := by
  rcases directive?_cases h with ⟨c, rest, hcs, hc, rfl⟩ | ⟨rest, hcs, hfirst, hname, rfl⟩ |
    ⟨rest, hcs, hblanks, hname, rfl⟩
  · simp only [Extent.plain] at hlen
    obtain ⟨p, rfl, hrest⟩ := exists_of_append_eq_cons (by omega) hcs
    rw [hrest] at hlen ⊢
    simp only [untilNewline, List.length_cons] at hlen ⊢
    rw [← takeWhile_append_of_lt (by omega) v]
    obtain ⟨p, rfl, -⟩ := exists_of_append_eq_cons (by omega) hrest.symm
    rcases hc with rfl | rfl <;> rfl
  · simp only [Extent.plain] at hlen
    obtain ⟨p, rfl, rfl⟩ := exists_of_append_eq_cons (by omega) hcs
    rw [List.length_cons] at hlen
    have hsame := takeWhile_append_of_lt (f := isLangChar) (p := p) (q := q) (by omega) v
    cases p with
    | nil => rw [List.length_nil] at hlen; omega
    | cons c p =>
      obtain ⟨h₁, h₂⟩ := hfirst c (p ++ q) rfl
      rw [← hsame] at hname ⊢
      simp only [List.cons_append] at hname ⊢
      rw [directive?_bang h₁ h₂, if_neg (by simpa using hname)]
  · simp only [Extent.plain] at hlen
    have hword : ['l', 'a', 'n', 'g'].length ≤ p.length := by
      show 4 ≤ p.length
      omega
    obtain ⟨p, rfl, rfl⟩ := exists_of_append_eq_append hword hcs
    simp only [List.cons_append, List.nil_append, List.length_cons] at hlen ⊢
    have hlt : ((p ++ q).takeWhile isLangBlank).length < p.length := by omega
    have hsum := congrArg List.length
      (List.takeWhile_append_dropWhile (p := isLangBlank) (l := p ++ q))
    have hdrop := dropWhile_append_of_lt hlt q
    rw [hdrop, List.length_append, List.length_append, List.length_append] at hsum
    rw [hdrop] at hname hlen ⊢
    have hname' := takeWhile_append_of_lt (f := isLangChar) (p := p.dropWhile isLangBlank) (q := q)
      (by omega) v
    rw [← takeWhile_append_of_lt hlt v] at hblanks ⊢
    rw [← hname', ← dropWhile_append_of_lt hlt v] at hname ⊢
    simp only [directive?]
    rw [if_neg (by simp only [Bool.or_eq_true, List.isEmpty_iff, not_or]; exact ⟨hblanks, hname⟩)]

theorem directive?_lookahead {cs : List Char} {e : Extent} (h : directive? cs = some e) :
    lookahead e.kind = 1 := by
  rcases directive?_cases h with ⟨_, _, -, -, rfl⟩ | ⟨_, -, -, -, rfl⟩ | ⟨_, -, -, -, rfl⟩ <;> rfl

/-- No directive begins where none began, if a run ends in `p` and no language line begins. -/
theorem directive?_append_eq_none {p q v : List Char} (hp : Ended p)
    (h : directive? (p ++ q) = none) (hl : ¬LanguageLine ('#' :: (p ++ v))) :
    directive? (p ++ v) = none := by
  -- a script line and a `#!` directive are decided by the character after the `!`
  have hbang : ∀ c rest, c = ' ' ∨ isLangChar c = true → p ++ v = '!' :: c :: rest → False := by
    intro c rest hc hcs
    obtain ⟨d, hd, -⟩ := id hp
    obtain ⟨p, rfl, hrest⟩ := exists_of_append_eq_cons (List.length_pos_of_mem hd) hcs
    obtain ⟨d, hd, -⟩ := hp.of_cons rfl
    obtain ⟨p, rfl, -⟩ := exists_of_append_eq_cons (List.length_pos_of_mem hd) hrest.symm
    by_cases h₁ : c = ' '
    · subst h₁
      cases h
    · by_cases h₂ : c = '/'
      · subst h₂
        cases h
      · have hc := hc.resolve_left h₁
        simp only [List.cons_append] at h
        rw [directive?_bang h₁ h₂, List.takeWhile_cons_of_pos hc] at h
        cases h
  cases hd : directive? (p ++ v) with
  | none => rfl
  | some e =>
    exfalso
    rcases directive?_cases hd with ⟨c, rest, hcs, hc, -⟩ | ⟨rest, hcs, -, hname, -⟩ |
      ⟨rest, hcs, hblanks, hname, -⟩
    · exact hbang c rest (hc.imp id (by rintro rfl; rfl)) hcs
    · cases rest with
      | nil => exact hname rfl
      | cons c rest =>
        refine hbang c rest (.inr ?_) hcs
        by_contra hc
        rw [List.takeWhile_cons_of_neg hc] at hname
        exact hname rfl
    · exact hl ⟨rest, by rw [hcs]; rfl, namesLanguage_iff.mpr ⟨hblanks, hname⟩⟩

/-! ## Characters -/

theorem hexDigits_append {c : Char} {p q : List Char} (h : (hexDigits c (p ++ q)).length < p.length)
    (v : List Char) : hexDigits c (p ++ v) = hexDigits c (p ++ q) := by
  unfold hexDigits at h ⊢
  generalize (if c = 'u' then 4 else 8) = k at h ⊢
  rcases Nat.le_total k p.length with hk | hk
  · rw [List.take_append_of_le_length hk, List.take_append_of_le_length hk]
  · rw [List.take_append, List.take_of_length_le hk] at h
    rw [List.take_append, List.take_append, List.take_of_length_le hk]
    exact takeWhile_append_of_lt h _

theorem isOctalCode_append {c : Char} {p : List Char} (h : 2 ≤ p.length) (v : List Char) :
    isOctalCode c (p ++ v) = isOctalCode c p := by
  match p with
  | [] | [a] => simp at h
  | a :: b :: p => rfl

theorem isOctalCode_of_not {a c : Char} (ha : Text.isOctalDigit a = false) (rest : List Char) :
    isOctalCode c (a :: rest) = false := by
  cases rest with
  | nil => simp [isOctalCode]
  | cons b rest => simp [isOctalCode, ha]

theorem characterExtent_three_le {cs : List Char} {e : Extent} (h : characterExtent cs = .ok e) :
    3 ≤ e.width := by
  cases cs with
  | nil => cases h
  | cons c rest =>
    rw [characterExtent_cons] at h
    repeat' split at h
    all_goals cases h; simp [Extent.plain]

/-- A character literal that ends before the end of the text is decided there, but for the question
whether it is given by octal digits. -/
theorem characterExtent_append_of_octal {c : Char} {p q : List Char} {e : Extent}
    (h : characterExtent (c :: (p ++ q)) = .ok e) (hlen : e.width < p.length + 3) (v : List Char)
    (hOctal : isOctalCode c (p ++ v) = isOctalCode c (p ++ q)) :
    characterExtent (c :: (p ++ v)) = .ok e := by
  have hthree := characterExtent_three_le h
  rw [characterExtent_cons] at h ⊢
  split at h
  · cases h
    simp only [Extent.plain] at hlen
    rw [hexDigits_append (q := q) (by omega), if_pos (by assumption)]
  · rename_i hHex
    have hHex' : ¬((decide (c = 'u') || decide (c = 'U')) &&
        !(hexDigits c (p ++ v)).isEmpty) = true := by
      intro hv
      simp only [Bool.and_eq_true, Bool.not_eq_true', not_and, Bool.not_eq_false] at hHex hv
      have hnil := List.isEmpty_iff.mp (hHex hv.1)
      have hsame := hexDigits_append (c := c) (p := p) (q := q) (by simp [hnil]; omega) v
      rw [hsame, hnil] at hv
      exact absurd hv.2 (by simp)
    rw [if_neg hHex', hOctal]
    split at h
    · rename_i h₁
      rw [if_pos h₁, h]
    · rename_i h₁
      rw [if_neg h₁]
      split at h
      · rename_i h₂
        cases h
        simp only at hlen
        rw [if_pos h₂, takeWhile_append_of_lt (q := q) (by omega)]
      · rename_i h₂
        rw [if_neg h₂, h]

theorem characterExtent_append {p q : List Char} {e : Extent}
    (h : characterExtent (p ++ q) = .ok e) (hlen : e.width ≤ p.length) (v : List Char) :
    characterExtent (p ++ v) = .ok e := by
  have hthree := characterExtent_three_le h
  cases p with
  | nil => rw [List.length_nil] at hlen; omega
  | cons c p =>
    rw [List.length_cons] at hlen
    refine characterExtent_append_of_octal h (by omega) v ?_
    rw [isOctalCode_append (by omega), isOctalCode_append (by omega)]

/-! ## Words after `#` -/

theorem not_languageLine_of_ne {c : Char} (hc : c ≠ 'l') (cs : List Char) :
    ¬LanguageLine ('#' :: c :: cs) := by
  rintro ⟨rest, h, -⟩
  exact hc (List.cons.inj (List.cons.inj h).2).1

/-- A mark that is neither a directive nor a run does not begin with the letter of `#lang`. -/
theorem sequenceOpener?_l (cs : List Char) : sequenceOpener? ('l' :: cs) = none := by
  have hDigit : Text.isDecimalDigit 'l' = false := by decide
  simp [sequenceOpener?, sizedWords, openerWords, digitRun, hDigit]

theorem boolean?_l (cs : List Char) : boolean? ('l' :: cs) = none := by
  have hLower : Text.lower 'l' = 'l' := by decide
  simp [boolean?, booleanWords, hLower]

theorem regexpMark?_eq_some {c : Char} {rest : List Char} {n : Nat}
    (h : regexpMark? (c :: rest) = some n) : c ≠ 'l' ∧ Ended ((c :: rest).take n) := by
  unfold regexpMark? at h
  split at h
  all_goals first
    | cases h; done
    | rename_i heq
      cases heq
      cases h
      exact ⟨by decide, '\x22', by simp, by decide⟩

theorem ended_of_take {p q : List Char} {n : Nat} (hn : n ≤ p.length)
    (h : Ended ((p ++ q).take n)) : Ended p := by
  obtain ⟨c, hc, he⟩ := h
  rw [List.take_append_of_le_length hn] at hc
  exact ⟨c, List.mem_of_mem_take hc, he⟩

theorem ended_of_drop {p q : List Char} {n : Nat} {c : Char} {rest : List Char}
    (hn : n < p.length) (h : (p ++ q).drop n = c :: rest) (hc : endsRun c = true) : Ended p := by
  rw [List.drop_append_of_le_length (Nat.le_of_lt hn)] at h
  obtain ⟨p', hp', -⟩ := exists_of_append_eq_cons (by rw [List.length_drop]; omega) h
  exact ⟨c, List.mem_of_mem_drop (by rw [hp']; exact List.mem_cons_self), hc⟩

theorem endsRun_of_isOpenBracket {c : Char} (h : isOpenBracket c = true) : endsRun c = true := by
  simp only [isOpenBracket, Bool.or_eq_true, beq_iff_eq] at h
  rcases h with (rfl | rfl) | rfl <;> decide

/-- The answers of the searches for a mark that come before the last two. -/
theorem searches_append {p q v : List Char} (hp : Ended p) (hl : ¬LanguageLine ('#' :: (p ++ v)))
    (hd : directive? (p ++ q) = none) (hr : regexpMark? (p ++ q) = none)
    (hh : ['<', '<'].isPrefixOf (p ++ q) = false) :
    directive? (p ++ v) = none ∧ regexpMark? (p ++ v) = none ∧
      ['<', '<'].isPrefixOf (p ++ v) = false := by
  refine ⟨directive?_append_eq_none hp hd hl, ?_, ?_⟩
  · rw [regexpMark?_append hp] at hr ⊢
    exact hr
  · rw [isPrefixOf_append (eq_false_of_all (by decide)) hp] at hh ⊢
    exact hh

theorem marks_append {p q v : List Char} (hp : Ended p) :
    sequenceOpener? (p ++ v) = sequenceOpener? (p ++ q) ∧
      graphMark? (p ++ v) = graphMark? (p ++ q) ∧ boolean? (p ++ v) = boolean? (p ++ q) := by
  refine ⟨?_, ?_, ?_⟩
  · rw [sequenceOpener?_append hp, sequenceOpener?_append hp]
  · rw [graphMark?_append hp, graphMark?_append hp]
  · rw [boolean?_append hp, boolean?_append hp]

theorem ne_of_isDecimalDigit {c : Char} (hc : Text.isDecimalDigit c = true) :
    ∀ x ∈ ['!', 'l', 'r', 'p', '<', 'f', 'h', 's', 'v'], x ≠ c := by
  have hLetters : ∀ x ∈ ['!', 'l', 'r', 'p', '<', 'f', 'h', 's', 'v'],
      Text.isDecimalDigit x = false := eq_false_of_all (by decide)
  rintro x hx rfl
  rw [hLetters x hx] at hc
  cases hc

/-- After a digit only a sequence opener with a length and a graph mark can follow. -/
theorem searches_digit {c : Char} (hc : Text.isDecimalDigit c = true) (cs : List Char) :
    directive? (c :: cs) = none ∧ regexpMark? (c :: cs) = none ∧
      ['<', '<'].isPrefixOf (c :: cs) = false ∧
      sequenceOpener? (c :: cs) = bracketAt? (digitRun (c :: cs)) (c :: cs) := by
  have hne := ne_of_isDecimalDigit hc
  have hne' : ∀ x ∈ ['!', 'l', 'r', 'p', '<', 'f', 'h', 's', 'v'], c ≠ x :=
    fun x hx => (hne x hx).symm
  simp only [List.forall_mem_cons] at hne hne'
  refine ⟨?_, ?_, ?_, ?_⟩
  · unfold directive?
    split <;> simp_all
  · unfold regexpMark?
    split <;> simp_all
  · simp [List.isPrefixOf, hne]
  · have hRun : digitRun (c :: cs) ≠ 0 := by simp [digitRun, hc]
    simp [sequenceOpener?, sizedWords, openerWords, hne, hRun]

theorem lookahead_run (a b : Bool) :
    lookahead (if a then if b then .number else .symbol else .extension) = 1 := by
  cases a <;> cases b <;> rfl

theorem graphMark?_append_of_le {p q : List Char} {e : Extent} (h : graphMark? (p ++ q) = some e)
    (hlen : e.width ≤ p.length + 1) (v : List Char) :
    graphMark? (p ++ v) = some e ∧ bracketAt? (digitRun (p ++ v)) (p ++ v) = none := by
  obtain ⟨hRun, b, rest, hdrop, hb⟩ := graphMark?_cases h
  have hlt : digitRun (p ++ q) < p.length := by
    rcases hb with ⟨-, rfl⟩ | ⟨-, rfl⟩ <;> simp only [Extent.plain] at hlen <;> omega
  have hsame : digitRun (p ++ v) = digitRun (p ++ q) :=
    congrArg List.length (takeWhile_append_of_lt hlt v)
  rw [List.drop_append_of_le_length (Nat.le_of_lt hlt)] at hdrop
  obtain ⟨p', hp', -⟩ := exists_of_append_eq_cons (by rw [List.length_drop]; omega) hdrop
  have hdrop' : (p ++ v).drop (digitRun (p ++ q)) = b :: (p' ++ v) := by
    rw [List.drop_append_of_le_length (Nat.le_of_lt hlt), hp', List.cons_append]
  simp only [graphMark?, bracketAt?, hsame, hdrop', if_neg hRun]
  rcases hb with ⟨rfl, rfl⟩ | ⟨rfl, rfl⟩ <;> exact ⟨rfl, rfl⟩

theorem ended_of_sequenceOpener? {c : Char} {p q : List Char} {n : Nat}
    (h : sequenceOpener? (c :: (p ++ q)) = some n) (hn : n ≤ (c :: p).length) :
    c ≠ 'l' ∧ Ended (c :: p) := by
  constructor
  · rintro rfl
    rw [sequenceOpener?_l] at h
    cases h
  · obtain ⟨m, b, rest, rfl, hdrop, hb⟩ := sequenceOpener?_eq_some h
    exact ended_of_drop (q := q) (by omega) hdrop (endsRun_of_isOpenBracket hb)

theorem ended_of_boolean? {c : Char} {p q : List Char} {e : Extent}
    (h : boolean? (c :: (p ++ q)) = some e) (hlen : e.width ≤ (c :: p).length) :
    c ≠ 'l' ∧ Ended (c :: p) := by
  constructor
  · rintro rfl
    rw [boolean?_l] at h
    cases h
  · obtain ⟨word, -, -, hBoundary, rfl⟩ := boolean?_cases h
    have hlt : word.length < (c :: p).length := hlen
    cases hdrop : (c :: p ++ q).drop word.length with
    | nil =>
      simp only [List.drop_eq_nil_iff, List.length_append] at hdrop
      omega
    | cons b rest =>
      rw [← List.cons_append, hdrop] at hBoundary
      exact ended_of_drop hlt hdrop hBoundary

theorem ended_of_runWidth {c : Char} {p q : List Char} {n : Nat}
    (h : runWidth false (c :: (p ++ q)) = .ok n) (hn : n < (c :: p).length) : Ended (c :: p) := by
  have hlt : n < (c :: (p ++ q)).length := by
    simp only [List.length_cons, List.length_append] at hn ⊢
    omega
  obtain ⟨b, rest, hdrop, hb⟩ := runWidth_stop h hlt
  exact ended_of_drop hn hdrop hb

/-- A graph mark is decided by its own characters. -/
theorem wordExtent_graphMark {c : Char} {p q : List Char} {e : Extent}
    (h : graphMark? (c :: (p ++ q)) = some e)
    (hlen : e.width + lookahead e.kind ≤ p.length + 2) (v : List Char) :
    WordExtent c (p ++ v) e := by
  obtain ⟨hRun, b, rest, hdrop, hb⟩ := graphMark?_cases h
  have hDigit : Text.isDecimalDigit c = true := by
    by_contra hc
    simp [digitRun, hc] at hRun
  have hwidth : e.width ≤ (c :: p).length + 1 := by
    rw [List.length_cons]
    rcases hb with ⟨-, rfl⟩ | ⟨-, rfl⟩ <;> simpa [Extent.plain, lookahead] using hlen
  obtain ⟨hg, hNoBracket⟩ := graphMark?_append_of_le (p := c :: p) h hwidth v
  obtain ⟨hd, hr, hh, ho⟩ := searches_digit hDigit (p ++ v)
  exact .mark hd hr hh (ho.trans hNoBracket) (Option.or_eq_some_iff.mpr (.inl hg))

theorem wordExtent_append {c : Char} {p q v : List Char} {e : Extent}
    (h : wordExtent c (p ++ q) = .ok e) (hlen : e.width + lookahead e.kind ≤ p.length + 2)
    (hl : e.kind = .extension → ¬LanguageLine ('#' :: c :: (p ++ v))) :
    wordExtent c (p ++ v) = .ok e := by
  rw [wordExtent_eq_ok_iff] at h ⊢
  have hcons : ∀ w : List Char, c :: (p ++ w) = (c :: p) ++ w := fun _ => rfl
  cases h with
  | directive hd =>
    refine .directive (directive?_append (p := c :: p) hd ?_ v)
    rw [directive?_lookahead hd] at hlen
    rw [List.length_cons]
    omega
  | @regexp n body hd hr hs =>
    obtain ⟨hc, hEnded⟩ := regexpMark?_eq_some hr
    have hbody := stringWidth?_le hs
    simp only [Extent.plain, lookahead] at hlen
    have hn : n ≤ (c :: p).length := by rw [List.length_cons]; omega
    have hp : Ended (c :: p) := ended_of_take hn hEnded
    have hl' := not_languageLine_of_ne hc (p ++ v)
    refine .regexp (directive?_append_eq_none (p := c :: p) hp hd hl') ?_ ?_
    · rw [hcons, regexpMark?_append hp] at hr ⊢
      exact hr
    · rw [hcons, List.drop_append_of_le_length hn] at hs ⊢
      refine stringWidth?_append hs ?_ v
      rw [List.length_drop, List.length_cons]
      omega
  | @hereString body hd hr hh hb =>
    simp only [Extent.plain, lookahead] at hlen
    obtain ⟨tail, htail⟩ := List.isPrefixOf_iff_prefix.mp hh
    simp only [List.cons_append, List.nil_append, List.cons.injEq] at htail
    obtain ⟨rfl, htail⟩ := htail
    obtain ⟨p, rfl, -⟩ := exists_of_append_eq_cons (by omega) htail.symm
    rw [List.length_cons] at hlen
    exact .hereString rfl rfl rfl (hereWidth?_append hb (by omega) v)
  | @opener n hd hr hh ho =>
    have hn : n ≤ (c :: p).length := by
      simp only [Extent.plain, lookahead] at hlen
      rw [List.length_cons]
      omega
    obtain ⟨hc, hp⟩ := ended_of_sequenceOpener? ho hn
    obtain ⟨hd', hr', hh'⟩ := searches_append hp (not_languageLine_of_ne hc (p ++ v)) hd hr hh
    exact .opener hd' hr' hh' ((marks_append hp).1.trans ho)
  | mark hd hr hh ho hm =>
    rcases Option.or_eq_some_iff.mp hm with hg | ⟨-, hb⟩
    · exact wordExtent_graphMark hg hlen v
    · have hwidth : e.width ≤ (c :: p).length := by
        obtain ⟨word, -, -, -, rfl⟩ := boolean?_cases hb
        simp only [Extent.plain, lookahead] at hlen ⊢
        rw [List.length_cons]
        omega
      obtain ⟨hc, hp⟩ := ended_of_boolean? hb hwidth
      obtain ⟨hd', hr', hh'⟩ := searches_append hp (not_languageLine_of_ne hc (p ++ v)) hd hr hh
      obtain ⟨ho', hg', hb'⟩ := marks_append (q := q) (v := v) hp
      refine .mark hd' hr' hh' (ho'.trans ho) ?_
      rw [hcons, hg', hb']
      exact hm
  | @run n hd hr hh ho hm hw =>
    have hn : n < (c :: p).length := by
      rw [List.length_cons]
      simp only [Extent.plain] at hlen
      rw [lookahead_run] at hlen
      omega
    have hp := ended_of_runWidth hw hn
    have hl' : ¬LanguageLine ('#' :: c :: (p ++ v)) := by
      by_cases hc : c = 'l'
      · subst hc
        exact hl rfl
      · exact not_languageLine_of_ne hc _
    obtain ⟨hd', hr', hh'⟩ := searches_append hp hl' hd hr hh
    obtain ⟨ho', hg', hm'⟩ := marks_append (q := q) (v := v) hp
    have htake : (c :: (p ++ q)).take n = (c :: (p ++ v)).take n := by
      rw [hcons, hcons, List.take_append_of_le_length (Nat.le_of_lt hn),
        List.take_append_of_le_length (Nat.le_of_lt hn)]
    rw [htake]
    refine .run hd' hr' hh' (ho'.trans ho) ?_ (runWidth_append (p := c :: p) hw hn v)
    rw [hcons, hg', hm']
    exact hm

/-! ## All tokens -/

/-- No token is decided by its `#` alone. -/
theorem wordExtent_two_le {c : Char} {rest : List Char} {e : Extent}
    (h : wordExtent c rest = .ok e) : 2 ≤ e.width + lookahead e.kind := by
  have hpos := (wordExtent_fits h).pos
  cases wordExtent_eq_ok_iff.mp h with
  | directive hd => rw [directive?_lookahead hd]; omega
  | regexp hd hr hs =>
    have := stringWidth?_le hs
    simp only [Extent.plain]
    omega
  | hereString => simp only [Extent.plain]; omega
  | opener hd hr hh ho =>
    obtain ⟨m, _, _, rfl, -, -⟩ := sequenceOpener?_eq_some ho
    simp only [Extent.plain]
    omega
  | mark hd hr hh ho hm =>
    rcases Option.or_eq_some_iff.mp hm with hm | ⟨-, hm⟩
    · obtain ⟨-, _, _, -, ⟨-, rfl⟩ | ⟨-, rfl⟩⟩ := graphMark?_cases hm <;> simp [Extent.plain] <;>
        omega
    · obtain ⟨word, -, -, -, rfl⟩ := boolean?_cases hm
      simp only [Extent.plain, lookahead]
      omega
  | run =>
    simp only [Extent.plain]
    rw [lookahead_run]
    omega

theorem hashExtent_two_le {cs : List Char} {e : Extent} (h : hashExtent cs = .ok e) :
    2 ≤ e.width + lookahead e.kind := by
  have hpos := (hashExtent_fits h).pos
  unfold hashExtent at h
  split at h
  · cases h; simp [Extent.plain, lookahead]
  · split at h
    · split at h
      · cases h; simp only [Extent.plain]; omega
      · cases h
    · cases h; simp [Extent.plain]
    · rw [characterExtent_kind h, lookahead]; omega
    · split at h
      · cases h; simp only [Extent.plain]; omega
      · cases h
    · cases h; simp [Extent.plain]
    · cases h; simp [Extent.plain]
    · cases h; simp [Extent.plain]
    · cases h; simp only [Extent.plain, lookahead]; split <;> omega
    · rename_i rest _
      cases hw : runWidth false rest with
      | error cause => rw [hw] at h; cases h
      | ok n => rw [hw] at h; cases h; simp only [Extent.plain]; omega
    · split at h
      · cases h; simp [Extent.plain]
      · exact wordExtent_two_le h

theorem head?_append_of_pos {p : List Char} (hp : 0 < p.length) (v : List Char) :
    (p ++ v).head? = p.head? := by
  cases p with
  | nil => simp at hp
  | cons c p => rfl

theorem hashExtent_append {p q v : List Char} {e : Extent} (h : hashExtent (p ++ q) = .ok e)
    (hlen : e.width + lookahead e.kind ≤ p.length + 1)
    (hl : e.kind = .extension → ¬LanguageLine ('#' :: (p ++ v))) :
    hashExtent (p ++ v) = .ok e := by
  have htwo := hashExtent_two_le h
  cases p with
  | nil => rw [List.length_nil] at hlen; omega
  | cons c p =>
    simp only [List.cons_append, List.length_cons] at h hlen hl ⊢
    unfold hashExtent at h ⊢
    simp only at h ⊢
    split at h
    · split at h
      · rename_i n hn
        cases h
        simp only [Extent.plain, lookahead] at hlen
        rw [blockWidth?_append hn (by omega) v]
      · cases h
    · exact h
    · rw [characterExtent_kind h, lookahead] at hlen
      exact characterExtent_append h (by omega) v
    · split at h
      · rename_i n hn
        cases h
        simp only [Extent.plain, lookahead] at hlen
        rw [stringWidth?_append hn (by omega) v]
      · cases h
    · exact h
    · exact h
    · exact h
    · have hp : 0 < p.length := by
        cases h
        simp only [Extent.plain, lookahead] at hlen
        split at hlen <;> omega
      rw [head?_append_of_pos hp] at h ⊢
      exact h
    · cases hw : runWidth false (p ++ q) with
      | error cause => rw [hw] at h; cases h
      | ok n =>
        rw [hw] at h
        cases h
        simp only [Extent.plain, lookahead] at hlen
        rw [runWidth_append hw (by omega) v]
        rfl
    · split at h
      · rename_i hc
        rw [if_pos hc, h]
      · rename_i hc
        rw [if_neg hc]
        exact wordExtent_append h hlen hl

theorem atomExtent_append {p q : List Char} {e : Extent} (h : atomExtent (p ++ q) = .ok e)
    (hlen : e.width < p.length) (v : List Char) : atomExtent (p ++ v) = .ok e := by
  obtain ⟨n, hw, rfl⟩ := atomExtent_eq_ok h
  simp only [Extent.plain] at hlen
  have htake : (p ++ v).take n = (p ++ q).take n := by
    rw [List.take_append_of_le_length (Nat.le_of_lt hlen),
      List.take_append_of_le_length (Nat.le_of_lt hlen)]
  unfold atomExtent
  rw [runWidth_append hw hlen v, ← htake]
  rfl

/-- The token at the front of a text is decided by its own characters and as many behind it as
`lookahead` says, unless a language line comes into being. -/
theorem extent_append {c : Char} {p q v : List Char} {e : Extent} (h : extent c (p ++ q) = .ok e)
    (hlen : e.width + lookahead e.kind ≤ p.length + 1)
    (hl : e.kind = .extension → ¬LanguageLine (c :: (p ++ v))) : extent c (p ++ v) = .ok e := by
  unfold extent at h ⊢
  split at h
  · rename_i hc
    cases h
    simp only [Extent.plain, lookahead] at hlen
    rw [if_pos hc, takeWhile_append_of_lt (q := q) (by omega)]
  rename_i hBlank
  rw [if_neg hBlank]
  split at h
  · rename_i hc
    rw [if_pos hc, h]
  rename_i hOpen
  rw [if_neg hOpen]
  split at h
  · rename_i hc
    rw [if_pos hc, h]
  rename_i hClose
  rw [if_neg hClose]
  split at h
  · cases h
    simp only [Extent.plain, lookahead, untilNewline] at hlen ⊢
    rw [takeWhile_append_of_lt (q := q) (by omega)]
  · exact h
  · exact h
  · have hp : 0 < p.length := by
      cases h
      simp only [Extent.plain, lookahead] at hlen
      split at hlen <;> omega
    simp only [head?_append_of_pos hp] at h ⊢
    exact h
  · split at h
    · rename_i n hn
      cases h
      simp only [Extent.plain, lookahead] at hlen
      simp only [stringWidth?_append hn (by omega) v]
    · cases h
  · exact hashExtent_append h hlen hl
  · rename_i h₁ h₂ h₃ h₄ h₅ h₆
    refine atomExtent_append (p := c :: p) h ?_ v
    obtain ⟨n, -, rfl⟩ := atomExtent_eq_ok h
    have hone : lookahead (if (c :: (p ++ q)).take n = ['.'] then Kind.dot
        else if Number.isNumber ((c :: (p ++ q)).take n) then .number else .symbol) = 1 := by
      split <;> [rfl; split <;> rfl]
    simp only [Extent.plain] at hlen ⊢
    rw [hone] at hlen
    rw [List.length_cons]
    omega

end RacketTree.Token

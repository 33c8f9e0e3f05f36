import RacketTree.Proofs.Token.Lexemes

/-!
# Texts that are cut off behind a token

A token stays the token that it is when the text is cut off somewhere behind it, even directly
behind it (`extent_of_le`). What a token has seen behind it is only that it ends there, and the end
of the text says the same: the run is over, the boolean stands before a boundary, no more octal
digit follows. Here no token is an exception, as a text that is cut off is no longer than it was and
so no `#lang` comes before a name that has not been there.

So lexemes side by side in a text are the lexemes of the stretch of text that they take
(`lexemes_texts`).
-/

namespace RacketTree.Token

open Lexeme (texts)

/-! ## Widths -/

theorem takeWhile_of_le {f : Char → Bool} {p q : List Char}
    (h : ((p ++ q).takeWhile f).length ≤ p.length) : p.takeWhile f = (p ++ q).takeWhile f := by
  rw [List.takeWhile_append] at h ⊢
  split at h
  · rename_i hlen
    have hp : p.takeWhile f = p := (List.takeWhile_prefix f).eq_of_length hlen
    rw [List.length_append] at h
    have hq : q.takeWhile f = [] := List.length_eq_zero_iff.mp (by omega)
    rw [if_pos hlen, hp, hq, List.append_nil]
  · rename_i hlen
    rw [if_neg hlen]

/-- The run that stops at the end of the text. -/
theorem runWidth_self {inBars : Bool} {cs : List Char} {n : Nat} (h : runWidth inBars cs = .ok n) :
    runWidth inBars (cs.take n) = .ok n := by
  fun_induction runWidth inBars cs generalizing n with
  | case1 | case6 => cases h
  | case2 inBars hb =>
    cases h
    simp only [Bool.not_eq_true] at hb
    subst hb
    rfl
  | case3 rest ih =>
    obtain ⟨m, hm, rfl⟩ := map_eq_ok h
    change (runWidth true (rest.take m)).map (· + 2) = _
    rw [ih hm]
    rfl
  | case4 rest ih =>
    obtain ⟨m, hm, rfl⟩ := map_eq_ok h
    change (runWidth false (rest.take m)).map (· + 1) = _
    rw [ih hm]
    rfl
  | case5 c rest h₁ h₂ ih =>
    obtain ⟨m, hm, rfl⟩ := map_eq_ok h
    have hfirst : ∀ rest', c = '\\' → rest.take m = '|' :: rest' → False := by
      intro rest' hc he
      have hrest := List.take_append_drop m rest
      rw [he] at hrest
      exact h₁ _ hc hrest.symm
    rw [List.take_succ_cons, runWidth_bars_cons hfirst h₂, ih hm]
    rfl
  | case7 _ hb c rest ih =>
    obtain ⟨m, hm, rfl⟩ := map_eq_ok h
    simp only [Bool.not_eq_true] at hb
    subst hb
    rw [List.take_succ_cons, List.take_succ_cons, runWidth_escape, ih hm]
    rfl
  | case8 _ hb rest ih =>
    obtain ⟨m, hm, rfl⟩ := map_eq_ok h
    simp only [Bool.not_eq_true] at hb
    subst hb
    change (runWidth true (rest.take m)).map (· + 1) = _
    rw [ih hm]
    rfl
  | case9 _ hb =>
    cases h
    simp only [Bool.not_eq_true] at hb
    subst hb
    rfl
  | case10 _ hb c rest h₁ h₂ h₃ hc ih =>
    obtain ⟨m, hm, rfl⟩ := map_eq_ok h
    simp only [Bool.not_eq_true] at hb
    subst hb
    rw [List.take_succ_cons, runWidth_cons (ne_backslash h₁ h₂) h₃, if_neg hc, ih hm]
    rfl

theorem runWidth_of_le {inBars : Bool} {p q : List Char} {n : Nat}
    (h : runWidth inBars (p ++ q) = .ok n) (hn : n ≤ p.length) : runWidth inBars p = .ok n := by
  rcases Nat.lt_or_eq_of_le hn with hlt | rfl
  · have hp := runWidth_append h hlt []
    rwa [List.append_nil] at hp
  · have hp := runWidth_self h
    rwa [List.take_left] at hp

/-- The here string whose terminator ends the text. -/
theorem hereBody?_self {line terminator cs : List Char} {n : Nat}
    (h : hereBody? line terminator cs = some n) :
    hereBody? line terminator (cs.take n) = some n := by
  fun_induction hereBody? line terminator cs generalizing n with
  | case1 line hl =>
    cases h
    simp [hereBody?, hl]
  | case2 => cases h
  | case3 line rest hl =>
    cases h
    simp [hereBody?, hl]
  | case4 line rest hl ih =>
    obtain ⟨m, hm, rfl⟩ := Option.map_eq_some_iff.mp h
    simp [hereBody?, hl, ih hm]
  | case5 line c rest hc ih =>
    obtain ⟨m, hm, rfl⟩ := Option.map_eq_some_iff.mp h
    simp [hereBody?, hc, ih hm]

theorem hereWidth?_self {cs : List Char} {n : Nat} (h : hereWidth? cs = some n) :
    hereWidth? (cs.take n) = some n := by
  unfold hereWidth? at h
  simp only at h
  split at h
  · cases h
  · rename_i d body hd
    obtain ⟨m, hm, rfl⟩ := Option.map_eq_some_iff.mp h
    have hsplit := List.takeWhile_append_dropWhile (p := (· != '\n')) (l := cs)
    have hline : ∀ c ∈ cs.takeWhile (· != '\n'), (c != '\n') = true :=
      List.all_eq_true.mp List.all_takeWhile
    have hnewline : (d != '\n') = false := by
      have hhead := List.head?_dropWhile_not (· != '\n') cs
      rwa [hd] at hhead
    generalize cs.takeWhile (· != '\n') = line at hsplit hline hm ⊢
    have htake : cs.take (line.length + 1 + m) = line ++ d :: body.take m := by
      rw [← hsplit, hd, List.take_append, List.take_of_length_le (by omega), Nat.add_assoc,
        Nat.add_sub_cancel_left, Nat.add_comm 1 m, List.take_succ_cons]
    rw [htake, hereWidth?]
    simp only [List.takeWhile_append_of_pos hline, List.dropWhile_append_of_pos hline,
      List.takeWhile_cons, List.dropWhile_cons, hnewline, Bool.false_eq_true, if_false,
      List.append_nil, hereBody?_self hm, Option.map_some]

theorem hereWidth?_of_le {p q : List Char} {n : Nat} (h : hereWidth? (p ++ q) = some n)
    (hn : n ≤ p.length) : hereWidth? p = some n := by
  rcases Nat.lt_or_eq_of_le hn with hlt | rfl
  · have hp := hereWidth?_append h hlt []
    rwa [List.append_nil] at hp
  · have hp := hereWidth?_self h
    rwa [List.take_left] at hp

/-! ## Directives -/

theorem directive?_of_le {p q : List Char} {e : Extent} (h : directive? (p ++ q) = some e)
    (hlen : e.width ≤ p.length + 1) : directive? p = some e := by
  rcases directive?_cases h with ⟨c, rest, hcs, hc, rfl⟩ | ⟨rest, hcs, hfirst, hname, rfl⟩ |
    ⟨rest, hcs, hblanks, hname, rfl⟩
  · have hpos : 0 < untilNewline (c :: rest) := by
      rcases hc with rfl | rfl <;> simp [untilNewline]
    simp only [Extent.plain] at hlen
    obtain ⟨p, rfl, hrest⟩ := exists_of_append_eq_cons (by omega) hcs
    rw [List.length_cons] at hlen
    rw [hrest] at hlen hpos ⊢
    rw [untilNewline] at hlen hpos ⊢
    rw [← takeWhile_of_le (by omega)]
    obtain ⟨p, rfl, -⟩ := exists_of_append_eq_cons (by omega) hrest.symm
    rcases hc with rfl | rfl <;> rfl
  · have hpos := List.length_pos_iff.mpr hname
    simp only [Extent.plain] at hlen
    obtain ⟨p, rfl, rfl⟩ := exists_of_append_eq_cons (by omega) hcs
    rw [List.length_cons] at hlen
    rw [← takeWhile_of_le (by omega)] at hname ⊢
    cases p with
    | nil => exact absurd rfl hname
    | cons c p =>
      obtain ⟨h₁, h₂⟩ := hfirst c (p ++ q) rfl
      rw [directive?_bang h₁ h₂, if_neg (by simpa using hname)]
  · have hpos := List.length_pos_iff.mpr hname
    simp only [Extent.plain] at hlen
    have hword : ['l', 'a', 'n', 'g'].length ≤ p.length := by
      show 4 ≤ p.length
      omega
    obtain ⟨p, rfl, rfl⟩ := exists_of_append_eq_append hword hcs
    simp only [List.cons_append, List.nil_append, List.length_cons] at hlen ⊢
    -- the blanks end inside `p`, where the name begins
    have hlt : ((p ++ q).takeWhile isLangBlank).length < p.length := by omega
    have hsum := congrArg List.length
      (List.takeWhile_append_dropWhile (p := isLangBlank) (l := p))
    rw [List.length_append, takeWhile_of_le (Nat.le_of_lt hlt)] at hsum
    rw [dropWhile_append_of_lt hlt q] at hname hlen ⊢
    rw [← takeWhile_of_le (p := p.dropWhile isLangBlank) (by omega)] at hname ⊢
    rw [← takeWhile_of_le (Nat.le_of_lt hlt)] at hblanks ⊢
    simp only [directive?]
    rw [if_neg (by simp only [Bool.or_eq_true, List.isEmpty_iff, not_or]; exact ⟨hblanks, hname⟩)]

theorem directive?_eq_none_of_append {p q : List Char} (h : directive? (p ++ q) = none) :
    directive? p = none := by
  cases hd : directive? p with
  | none => rfl
  | some e =>
    exfalso
    rcases directive?_cases hd with ⟨c, rest, rfl, hc, -⟩ | ⟨rest, rfl, hfirst, hname, -⟩ |
      ⟨rest, rfl, hblanks, hname, -⟩
    · rcases hc with rfl | rfl <;> cases h
    · cases rest with
      | nil => exact hname rfl
      | cons c rest =>
        obtain ⟨h₁, h₂⟩ := hfirst c rest rfl
        have hc : isLangChar c = true := by
          by_contra hc
          rw [List.takeWhile_cons_of_neg hc] at hname
          exact hname rfl
        simp only [List.cons_append] at h
        rw [directive?_bang h₁ h₂, List.takeWhile_cons_of_pos hc] at h
        cases h
    · obtain ⟨blanks, c, tail, rfl, hne, hb, hc⟩ := namesLanguage_iff.mpr ⟨hblanks, hname⟩
      refine (directive?_lang _).mp h ⟨blanks, c, tail ++ q, ?_, hne, hb, hc⟩
      exact List.append_assoc blanks (c :: tail) q

/-! ## Marks -/

theorem isPrefixOf_eq_false_of_append {word p q : List Char}
    (h : word.isPrefixOf (p ++ q) = false) : word.isPrefixOf p = false := by
  rw [Bool.eq_false_iff] at h ⊢
  intro hp
  apply h
  rw [List.isPrefixOf_iff_prefix] at hp ⊢
  exact hp.trans (List.prefix_append p q)

theorem regexpMark?_eq_none_of_append {c : Char} {p q : List Char}
    (h : regexpMark? (c :: (p ++ q)) = none) : regexpMark? (c :: p) = none := by
  cases hr : regexpMark? (c :: p) with
  | none => rfl
  | some n =>
    obtain ⟨-, hend⟩ := regexpMark?_eq_some hr
    obtain ⟨d, hd, hstop⟩ := hend
    have hsame := regexpMark?_append ⟨d, List.mem_of_mem_take hd, hstop⟩ q
    rw [List.cons_append, h, hr] at hsame
    cases hsame

theorem sequenceOpener?_eq_none_of_append {c : Char} {p q : List Char}
    (h : sequenceOpener? (c :: (p ++ q)) = none) : sequenceOpener? (c :: p) = none := by
  cases ho : sequenceOpener? (c :: p) with
  | none => rfl
  | some n =>
    obtain ⟨m, b, rest, rfl, hdrop, hb⟩ := sequenceOpener?_eq_some ho
    have hmem : b ∈ c :: p := List.mem_of_mem_drop (by rw [hdrop]; exact List.mem_cons_self)
    have hsame := sequenceOpener?_append ⟨b, hmem, endsRun_of_isOpenBracket hb⟩ q
    rw [List.cons_append, h, ho] at hsame
    cases hsame

theorem graphMark?_eq_none_of_append {p q : List Char} (h : graphMark? (p ++ q) = none) :
    graphMark? p = none := by
  cases hg : graphMark? p with
  | none => rfl
  | some e =>
    obtain ⟨-, b, rest, hdrop, hb⟩ := graphMark?_cases hg
    have hlt := length_lt_of_drop_eq_cons hdrop
    have hlen : e.width ≤ p.length + 1 := by
      rcases hb with ⟨-, rfl⟩ | ⟨-, rfl⟩ <;> simp only [Extent.plain] <;> omega
    have hsame : graphMark? (p ++ q) = some e :=
      (graphMark?_append_of_le (q := []) (by rwa [List.append_nil]) hlen q).1
    rw [h] at hsame
    cases hsame

/-- A text of the length of a boolean word is that boolean. -/
theorem boolean?_of_word {cs word : List Char} (hword : word ∈ booleanWords)
    (h : cs.map Text.lower = word) :
    boolean? cs = some (.plain .boolean (word.length + 1)) := by
  have hlen : cs.length = word.length := by rw [← h, List.length_map]
  have hwords : word = ['t', 'r', 'u', 'e'] ∨ word = ['f', 'a', 'l', 's', 'e'] ∨ word = ['t'] ∨
      word = ['f'] := by simpa [booleanWords] using hword
  rcases hwords with rfl | rfl | rfl | rfl
  · have hdrop : cs.drop 4 = [] := List.drop_of_length_le (by rw [hlen]; decide)
    simp [boolean?, booleanWords, List.map_take, h, hdrop, isBoundary]
  · have hdrop : cs.drop 5 = [] := List.drop_of_length_le (by rw [hlen]; decide)
    simp [boolean?, booleanWords, List.map_take, h, hdrop, isBoundary]
  · have hdrop : cs.drop 1 = [] := List.drop_of_length_le (by rw [hlen]; decide)
    simp [boolean?, booleanWords, List.map_take, h, hdrop, isBoundary]
  · have hdrop : cs.drop 1 = [] := List.drop_of_length_le (by rw [hlen]; decide)
    simp [boolean?, booleanWords, List.map_take, h, hdrop, isBoundary]

/-- No boolean ends with the text where none ends before a boundary. -/
theorem boolean?_eq_none_of_append {p q : List Char} (hq : isBoundary q = true)
    (h : boolean? (p ++ q) = none) : boolean? p = none := by
  cases hb : boolean? p with
  | none => rfl
  | some e =>
    obtain ⟨word, hword, htake, hboundary, -⟩ := boolean?_cases hb
    have hle : word.length ≤ p.length := by
      have hlen := congrArg List.length htake
      rw [List.length_map, List.length_take] at hlen
      omega
    have hsame : isBoundary ((p ++ q).drop word.length) = true := by
      rw [List.drop_append_of_le_length hle]
      cases hdrop : p.drop word.length with
      | nil => exact hq
      | cons b rest =>
        rw [hdrop] at hboundary
        exact hboundary
    have hnone := List.findSome?_eq_none_iff.mp h word hword
    rw [List.take_append_of_le_length hle, htake, hsame] at hnone
    simp at hnone

/-! ## Words after `#` -/

theorem searches_of_append {c : Char} {p q : List Char} (hd : directive? (c :: (p ++ q)) = none)
    (hr : regexpMark? (c :: (p ++ q)) = none) (hh : ['<', '<'].isPrefixOf (c :: (p ++ q)) = false)
    (ho : sequenceOpener? (c :: (p ++ q)) = none) :
    directive? (c :: p) = none ∧ regexpMark? (c :: p) = none ∧
      ['<', '<'].isPrefixOf (c :: p) = false ∧ sequenceOpener? (c :: p) = none :=
  ⟨directive?_eq_none_of_append (p := c :: p) hd, regexpMark?_eq_none_of_append hr,
    isPrefixOf_eq_false_of_append (p := c :: p) hh, sequenceOpener?_eq_none_of_append ho⟩

theorem wordExtent_boolean_of_le {c : Char} {p q : List Char} {e : Extent}
    (h : WordExtent c (p ++ q) e) (hb : boolean? (c :: (p ++ q)) = some e)
    (hsearches : directive? (c :: p) = none ∧ regexpMark? (c :: p) = none ∧
      ['<', '<'].isPrefixOf (c :: p) = false ∧ sequenceOpener? (c :: p) = none)
    (hg : graphMark? (c :: p) = none) (hlen : e.width ≤ p.length + 2) : WordExtent c p e := by
  obtain ⟨word, hword, htake, -, rfl⟩ := boolean?_cases hb
  rcases Nat.lt_or_eq_of_le hlen with hlt | heq
  · have happend := wordExtent_append (v := []) (wordExtent_eq_ok_iff.mpr h) hlt nofun
    rw [List.append_nil] at happend
    exact wordExtent_eq_ok_iff.mp happend
  · have hlength : word.length = (c :: p).length := Nat.succ.inj heq
    rw [hlength, ← List.cons_append, List.take_left] at htake
    obtain ⟨hd, hr, hh, ho⟩ := hsearches
    refine .mark hd hr hh ho ?_
    rw [hg, boolean?_of_word hword htake]
    rfl

theorem wordExtent_run_of_le {c : Char} {p q : List Char} {n : Nat}
    (hw : runWidth false (c :: (p ++ q)) = .ok n)
    (hm : (graphMark? (c :: (p ++ q))).or (boolean? (c :: (p ++ q))) = none)
    (hsearches : directive? (c :: p) = none ∧ regexpMark? (c :: p) = none ∧
      ['<', '<'].isPrefixOf (c :: p) = false ∧ sequenceOpener? (c :: p) = none)
    (hn : n ≤ (c :: p).length) :
    WordExtent c p (.plain
      (if isNumberMark c then
        if Number.isNumber ('#' :: (c :: p).take n) then .number else .symbol
      else .extension) (n + 1)) := by
  obtain ⟨hd, hr, hh, ho⟩ := hsearches
  obtain ⟨hg, hb⟩ := Option.or_eq_none_iff.mp hm
  refine .run hd hr hh ho (Option.or_eq_none_iff.mpr ⟨?_, ?_⟩) (runWidth_of_le (p := c :: p) hw hn)
  · exact graphMark?_eq_none_of_append (p := c :: p) hg
  · rcases Nat.lt_or_eq_of_le hn with hlt | heq
    · have hsame := boolean?_append (ended_of_runWidth hw hlt) q
      rw [List.cons_append, hb] at hsame
      exact hsame.symm
    · -- the run stops before `q`, so a boolean could have stopped there
      have hq : isBoundary q = true := by
        cases q with
        | nil => rfl
        | cons b q =>
          have hlt : n < (c :: (p ++ b :: q)).length := by
            simp only [List.length_cons, List.length_append] at heq ⊢
            omega
          obtain ⟨d, rest, hdrop, hd⟩ := runWidth_stop hw hlt
          rw [heq, ← List.cons_append, List.drop_left] at hdrop
          cases hdrop
          exact hd
      exact boolean?_eq_none_of_append (p := c :: p) hq hb

/-- A token after `#` stays when the text is cut off behind it. -/
theorem wordExtent_of_le {c : Char} {p q : List Char} {e : Extent}
    (h : wordExtent c (p ++ q) = .ok e) (hlen : e.width ≤ p.length + 2) :
    wordExtent c p = .ok e := by
  have hword := wordExtent_eq_ok_iff.mp h
  have happend : lookahead e.kind = 0 → wordExtent c p = .ok e := by
    intro hzero
    have hkind : e.kind = .extension → ¬LanguageLine ('#' :: c :: (p ++ [])) := by
      intro hk
      rw [hk] at hzero
      cases hzero
    have hp := wordExtent_append h (by omega) hkind
    rwa [List.append_nil] at hp
  rw [wordExtent_eq_ok_iff]
  cases hword with
  | directive hd => exact .directive (directive?_of_le (p := c :: p) hd hlen)
  | regexp | opener => exact wordExtent_eq_ok_iff.mp (happend rfl)
  | @hereString body hd hr hh hb =>
    obtain ⟨tail, htail⟩ := List.isPrefixOf_iff_prefix.mp hh
    simp only [List.cons_append, List.nil_append, List.cons.injEq] at htail
    obtain ⟨rfl, htail⟩ := htail
    simp only [Extent.plain] at hlen
    obtain ⟨p, rfl, -⟩ := exists_of_append_eq_cons (by omega) htail.symm
    rw [List.length_cons] at hlen
    exact .hereString rfl rfl rfl (hereWidth?_of_le (p := p) hb (by omega))
  | mark hd hr hh ho hm =>
    have hsearches := searches_of_append hd hr hh ho
    rcases Option.or_eq_some_iff.mp hm with hg | ⟨hg, hb⟩
    · have hzero : lookahead e.kind = 0 := by
        obtain ⟨-, _, _, -, ⟨-, rfl⟩ | ⟨-, rfl⟩⟩ := graphMark?_cases hg <;> rfl
      exact wordExtent_eq_ok_iff.mp (happend hzero)
    · have hg' := graphMark?_eq_none_of_append (p := c :: p) hg
      exact wordExtent_boolean_of_le (.mark hd hr hh ho hm) hb hsearches hg' hlen
  | @run n hd hr hh ho hm hw =>
    have hn : n ≤ (c :: p).length := by
      simp only [Extent.plain] at hlen
      rw [List.length_cons]
      omega
    have htake : (c :: (p ++ q)).take n = (c :: p).take n := List.take_append_of_le_length hn
    rw [htake]
    exact wordExtent_run_of_le hw hm (searches_of_append hd hr hh ho) hn

/-! ## All tokens -/

theorem hexDigits_of_le {c : Char} {p q : List Char}
    (h : (hexDigits c (p ++ q)).length ≤ p.length) : hexDigits c p = hexDigits c (p ++ q) := by
  unfold hexDigits at h ⊢
  generalize (if c = 'u' then 4 else 8) = k at h ⊢
  rcases Nat.le_total k p.length with hk | hk
  · rw [List.take_append_of_le_length hk]
  · rw [List.take_append, List.take_of_length_le hk] at h ⊢
    exact takeWhile_of_le h

theorem isOctalCode_of_append {c : Char} {p : List Char} (q : List Char)
    (h : isOctalCode c p = true) : isOctalCode c (p ++ q) = true := by
  rw [isOctalCode_append (two_le_length_of_isOctalCode h), h]

theorem characterExtent_of_le {p q : List Char} {e : Extent}
    (h : characterExtent (p ++ q) = .ok e) (hlen : e.width ≤ p.length + 2) :
    characterExtent p = .ok e := by
  have hthree := characterExtent_three_le h
  cases p with
  | nil => rw [List.length_nil] at hlen; omega
  | cons c p =>
    rw [List.length_cons] at hlen
    rw [List.cons_append, characterExtent_cons] at h
    rw [characterExtent_cons]
    split at h
    · rename_i hHex
      cases h
      simp only [Extent.plain] at hlen
      rw [hexDigits_of_le (q := q) (by omega), if_pos hHex]
    · rename_i hHex
      have hHex' : ¬((decide (c = 'u') || decide (c = 'U')) &&
          !(hexDigits c p).isEmpty) = true := by
        intro hp
        simp only [Bool.and_eq_true, Bool.not_eq_true', not_and, Bool.not_eq_false] at hHex hp
        have hnil := List.isEmpty_iff.mp (hHex hp.1)
        rw [hexDigits_of_le (q := q) (by simp [hnil]), hnil] at hp
        exact absurd hp.2 (by simp)
      rw [if_neg hHex']
      split at h
      · rename_i hOctal
        cases h
        simp only [Extent.plain] at hlen
        rw [isOctalCode_append (by omega)] at hOctal
        rw [if_pos hOctal]
      · rename_i hOctal
        rw [if_neg fun hp => hOctal (isOctalCode_of_append q hp)]
        split at h
        · rename_i hLetter
          cases h
          simp only at hlen
          rw [if_pos hLetter, takeWhile_of_le (q := q) (by omega)]
        · rename_i hLetter
          rw [if_neg hLetter, h]

/-- Whether an `@` follows a comma. -/
theorem head?_of_le {p q : List Char} {n : Nat}
    (h : (if (p ++ q).head? = some '@' then n + 1 else n) ≤ p.length + n) :
    (if p.head? = some '@' then n + 1 else n) =
      if (p ++ q).head? = some '@' then n + 1 else n := by
  cases p with
  | cons c p => rfl
  | nil =>
    rw [List.nil_append] at h ⊢
    split at h
    · rw [List.length_nil] at h
      omega
    · rename_i hq
      rw [if_neg hq]
      rfl

theorem not_isNumberMark_of_endsRun {c : Char} (h : endsRun c = true) :
    isNumberMark c = false := by
  have hAll : runEnders.all (fun c => !isNumberMark c) = true := by decide
  exact eq_false_of_all hAll c (mem_runEnders h)

/-- A `#` alone is an extension. -/
theorem wordExtent_single {c : Char} {rest : List Char} {e : Extent}
    (h : wordExtent c rest = .ok e) (hlen : e.width ≤ 1) : e = .plain .extension 1 := by
  cases wordExtent_eq_ok_iff.mp h with
  | directive hd =>
    rcases directive?_cases hd with ⟨_, _, -, -, rfl⟩ | ⟨_, -, -, -, rfl⟩ | ⟨_, -, -, -, rfl⟩ <;>
      simp only [Extent.plain] at hlen <;> omega
  | regexp hd hr hs =>
    have hbody := stringWidth?_le hs
    simp only [Extent.plain] at hlen
    omega
  | hereString =>
    simp only [Extent.plain] at hlen
    omega
  | opener hd hr hh ho =>
    obtain ⟨m, _, _, rfl, -, -⟩ := sequenceOpener?_eq_some ho
    simp only [Extent.plain] at hlen
    omega
  | mark hd hr hh ho hm =>
    rcases Option.or_eq_some_iff.mp hm with hg | ⟨-, hb⟩
    · obtain ⟨-, _, _, -, ⟨-, rfl⟩ | ⟨-, rfl⟩⟩ := graphMark?_cases hg <;>
        simp only [Extent.plain] at hlen <;> omega
    · obtain ⟨word, hword, -, -, rfl⟩ := boolean?_cases hb
      have hpos : ∀ word ∈ booleanWords, 0 < word.length := by decide
      have := hpos word hword
      simp only [Extent.plain] at hlen
      omega
  | @run n hd hr hh ho hm hw =>
    simp only [Extent.plain] at hlen
    have hn : n = 0 := by omega
    subst hn
    have hends : endsRun c = true := by
      by_contra hc
      exact absurd (runWidth_pos (Bool.eq_false_iff.mpr hc) hw) (Nat.lt_irrefl 0)
    rw [not_isNumberMark_of_endsRun hends]
    rfl

theorem hashExtent_single {cs : List Char} {e : Extent} (h : hashExtent cs = .ok e)
    (hlen : e.width ≤ 1) : e = .plain .extension 1 := by
  unfold hashExtent at h
  split at h
  · cases h
    rfl
  · split at h
    · split at h
      · cases h
        simp [Extent.plain] at hlen
      · cases h
    · cases h
      simp [Extent.plain] at hlen
    · have := characterExtent_three_le h
      omega
    · split at h
      · cases h
        simp [Extent.plain] at hlen
      · cases h
    · cases h
      simp [Extent.plain] at hlen
    · cases h
      simp [Extent.plain] at hlen
    · cases h
      simp [Extent.plain] at hlen
    · cases h
      simp only [Extent.plain] at hlen
      split at hlen <;> omega
    · rename_i rest _
      cases hw : runWidth false rest with
      | error cause => rw [hw] at h; cases h
      | ok n =>
        rw [hw] at h
        cases h
        simp [Extent.plain] at hlen
    · split at h
      · cases h
        simp [Extent.plain] at hlen
      · exact wordExtent_single h hlen

theorem hashExtent_of_le {p q : List Char} {e : Extent} (h : hashExtent (p ++ q) = .ok e)
    (hlen : e.width ≤ p.length + 1) : hashExtent p = .ok e := by
  cases p with
  | nil => rw [hashExtent_single h hlen, hashExtent]
  | cons c p =>
    simp only [List.cons_append, List.length_cons] at h hlen ⊢
    unfold hashExtent at h ⊢
    simp only at h ⊢
    split at h
    · split at h
      · rename_i n hn
        cases h
        simp only [Extent.plain] at hlen
        have hp := blockWidth?_append hn (by omega) []
        rw [List.append_nil] at hp
        rw [hp]
      · cases h
    · exact h
    · exact characterExtent_of_le h hlen
    · split at h
      · rename_i n hn
        cases h
        simp only [Extent.plain] at hlen
        have hp := stringWidth?_append hn (by omega) []
        rw [List.append_nil] at hp
        rw [hp]
      · cases h
    · exact h
    · exact h
    · exact h
    · cases h
      rw [head?_of_le (q := q) (by simpa [Extent.plain] using hlen)]
    · cases hw : runWidth false (p ++ q) with
      | error cause => rw [hw] at h; cases h
      | ok n =>
        rw [hw] at h
        cases h
        simp only [Extent.plain] at hlen
        rw [runWidth_of_le hw (by omega)]
        rfl
    · split at h
      · rename_i hc
        rw [if_pos hc, h]
      · rename_i hc
        rw [if_neg hc]
        exact wordExtent_of_le h hlen

/-- A token stays when the text is cut off behind it. -/
theorem extent_of_le {c : Char} {p q : List Char} {e : Extent} (h : extent c (p ++ q) = .ok e)
    (hlen : e.width ≤ p.length + 1) : extent c p = .ok e := by
  unfold extent at h ⊢
  split at h
  · rename_i hc
    cases h
    simp only [Extent.plain] at hlen
    rw [if_pos hc, takeWhile_of_le (q := q) (by omega)]
  rename_i hBlank
  rw [if_neg hBlank]
  split at h
  · rename_i hc
    rw [if_pos hc, h]
  rename_i hOpen
  rw [if_neg hOpen]
  split at h
  · rename_i hc
    rw [if_pos hc, h]
  rename_i hClose
  rw [if_neg hClose]
  split at h
  · cases h
    simp only [Extent.plain, untilNewline] at hlen ⊢
    rw [takeWhile_of_le (q := q) (by omega)]
  · exact h
  · exact h
  · cases h
    have hhead := head?_of_le (q := q) (n := 1) hlen
    exact congrArg (fun n => Except.ok (Extent.plain .prefixMark n)) hhead
  · split at h
    · rename_i n hn
      cases h
      simp only [Extent.plain] at hlen
      have hp := stringWidth?_append hn (by omega) []
      rw [List.append_nil] at hp
      simp only [hp]
    · cases h
  · exact hashExtent_of_le h hlen
  · obtain ⟨n, hw, rfl⟩ := atomExtent_eq_ok h
    simp only [Extent.plain] at hlen
    have hn : n ≤ (c :: p).length := hlen
    have htake : (c :: (p ++ q)).take n = (c :: p).take n := List.take_append_of_le_length hn
    have hp : runWidth false (c :: p) = .ok n := runWidth_of_le (p := c :: p) hw hn
    simp only [atomExtent, hp, htake]
    rfl

/-! ## Lexemes -/

theorem lexemes_of_append {used after : List Lexeme} {q : List Char}
    (h : lexemes (texts used ++ q) = used ++ after) : lexemes (texts used) = used := by
  induction used with
  | nil => rw [Lexeme.texts_nil, lexemes]
  | cons l used ih =>
    have hvalid : l.Valid := lexemes_valid _ l (by rw [h]; exact List.mem_cons_self)
    obtain ⟨c, p, hp⟩ : ∃ c p, texts (l :: used) = c :: p :=
      List.exists_cons_of_ne_nil (by simp [hvalid.nonempty])
    rw [hp] at h ⊢
    rw [List.cons_append] at h
    cases he : extent c (p ++ q) with
    | error cause =>
      rw [lexemes_cons_error he, List.cons_append] at h
      obtain ⟨rfl, hnil⟩ := List.cons.inj h
      obtain ⟨rfl, -⟩ := List.append_eq_nil_iff.mp hnil.symm
      have hq : p ++ q = p := by simpa using hp
      rw [hq] at he ⊢
      exact lexemes_cons_error he
    | ok e =>
      have hwidth : l.text.length = e.width := by
        rw [lexemes_cons he] at h
        rw [← (List.cons.inj h).1, length_text_cut (extent_fits he)]
      have hle : e.width ≤ p.length + 1 := by
        have hlen := congrArg List.length hp
        rw [Lexeme.texts_cons, List.length_append, List.length_cons] at hlen
        omega
      have hrest : (c :: p).drop e.width = texts used := by
        rw [← hp, Lexeme.texts_cons, ← hwidth, List.drop_left]
      rw [lexemes_front he hle, hrest] at h
      obtain ⟨hl, hused⟩ := List.cons.inj h
      rw [lexemes_cons (extent_of_le he hle), hrest, hl, ih hused]

/-- Lexemes side by side in a text are the lexemes of the text that they take. -/
theorem lexemes_texts {cs : List Char} {before used after : List Lexeme}
    (h : lexemes cs = before ++ used ++ after) : lexemes (texts used) = used := by
  rw [List.append_assoc] at h
  obtain ⟨-, hrest⟩ := lexemes_suffix h
  rw [Lexeme.texts_append] at hrest
  exact lexemes_of_append hrest.symm

end RacketTree.Token

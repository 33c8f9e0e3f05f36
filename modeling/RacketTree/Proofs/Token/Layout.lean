import RacketTree.Proofs.Token.Lexemes

/-!
# Words and gaps

Texts that are laid out as words with gaps between them. A gap is made of blanks and comments up to
the end of a line (`Gap`), and may be left out next to a bracket or quote (`Spaced`). The lexemes of
such a text are those of its words, with lexemes of gaps between (`gapped_of_spaced`).
-/

namespace RacketTree

/-! ## Lexemes of gaps -/

namespace Lexeme

/-- A blank or a comment up to the end of a line. -/
def isGap (l : Lexeme) : Bool :=
  l.kind == .whitespace || l.kind == .lineComment

/-- An opening bracket. -/
def leftParen : Lexeme := ⟨.opener, ['('], none⟩

/-- A closing bracket. -/
def rightParen : Lexeme := ⟨.closer, [')'], none⟩

/-- A quote. -/
def quoteMark : Lexeme := ⟨.prefixMark, ['\x27'], none⟩

/-- A dot. -/
def point : Lexeme := ⟨.dot, ['.'], none⟩

/-- Lexemes of gaps without fault. -/
def AreGaps (ts : List Lexeme) : Prop :=
  ∀ l ∈ ts, l.isGap = true ∧ l.fault = none

/-- The lexemes other than those of gaps, which have no fault. -/
structure Gapped (ms ls : List Lexeme) : Prop where
  fault : ∀ m ∈ ms, m.isGap = true → m.fault = none
  words : ms.filter (!·.isGap) = ls

theorem gapped_nil : Gapped [] [] :=
  ⟨nofun, rfl⟩

theorem Gapped.cons_gap {m : Lexeme} {ms ls : List Lexeme} (h : Gapped ms ls)
    (hm : m.isGap = true) (hfault : m.fault = none) : Gapped (m :: ms) ls := by
  refine ⟨?_, ?_⟩
  · rw [List.forall_mem_cons]
    exact ⟨fun _ => hfault, h.fault⟩
  · rw [List.filter_cons_of_neg (by simp [hm]), h.words]

theorem Gapped.cons_word {m : Lexeme} {ms ls : List Lexeme} (h : Gapped ms ls)
    (hm : m.isGap = false) : Gapped (m :: ms) (m :: ls) := by
  refine ⟨?_, ?_⟩
  · rw [List.forall_mem_cons]
    exact ⟨fun hgap => absurd hgap (by simp [hm]), h.fault⟩
  · rw [List.filter_cons_of_pos (by simp [hm]), h.words]

theorem Gapped.areGaps {ms : List Lexeme} (h : Gapped ms []) : AreGaps ms := by
  intro m hm
  have hgap : m.isGap = true := by
    simpa using List.filter_eq_nil_iff.mp h.words m hm
  exact ⟨hgap, h.fault m hm hgap⟩

theorem Gapped.exists_append {ms xs ys : List Lexeme} (h : Gapped ms (xs ++ ys)) :
    ∃ ms₁ ms₂, ms = ms₁ ++ ms₂ ∧ Gapped ms₁ xs ∧ Gapped ms₂ ys := by
  obtain ⟨ms₁, ms₂, rfl, hxs, hys⟩ := List.filter_eq_append_iff.mp h.words
  exact ⟨ms₁, ms₂, rfl, ⟨fun m hm => h.fault m (List.mem_append_left _ hm), hxs⟩,
    fun m hm => h.fault m (List.mem_append_right _ hm), hys⟩

theorem Gapped.exists_cons {m : Lexeme} {ms ls : List Lexeme} (h : Gapped ms (m :: ls)) :
    ∃ ts ms', ms = ts ++ m :: ms' ∧ AreGaps ts ∧ Gapped ms' ls := by
  obtain ⟨ts, ms', rfl, hts, -, hls⟩ := List.filter_eq_cons_iff.mp h.words
  refine ⟨ts, ms', rfl, fun l hl => ?_, fun l hl => h.fault l (by simp [hl]), hls⟩
  have hgap : l.isGap = true := by
    simpa using hts l hl
  exact ⟨hgap, h.fault l (by simp [hl]) hgap⟩

end Lexeme

namespace Token

open Lexeme (Gapped)

/-! ## Gaps -/

/-- Blanks and comments, each up to the end of its line. -/
inductive Gap : List Char → Prop
  | nil : Gap []
  | blank {c : Char} {g : List Char} (hc : Text.isBlank c = true) (h : Gap g) : Gap (c :: g)
  | comment {body g : List Char} (hbody : '\n' ∉ body) (h : Gap g) :
      Gap (';' :: (body ++ '\n' :: g))

/-- The text does not begin with a blank. -/
def IsTight (cs : List Char) : Prop :=
  ∀ c ∈ cs.head?, Text.isBlank c = false

theorem dropWhile_append_of_isTight {g rest : List Char} (h : IsTight rest) :
    (g ++ rest).dropWhile Text.isBlank = g.dropWhile Text.isBlank ++ rest := by
  induction g with
  | nil =>
    cases rest with
    | nil => rfl
    | cons c rest => exact List.dropWhile_cons_of_neg (by simp [h c rfl])
  | cons c g ih =>
    rw [List.cons_append, List.dropWhile_cons, List.dropWhile_cons]
    split
    · exact ih
    · rfl

theorem Gap.dropWhile {g : List Char} (h : Gap g) : Gap (g.dropWhile Text.isBlank) := by
  induction h with
  | nil => exact .nil
  | blank hc _ ih =>
    rw [List.dropWhile_cons_of_pos hc]
    exact ih
  | comment hbody h _ =>
    rw [List.dropWhile_cons_of_neg (by decide +kernel)]
    exact .comment hbody h

theorem drop_takeWhile (p : Char → Bool) (cs : List Char) :
    cs.drop (cs.takeWhile p).length = cs.dropWhile p := by
  have hsplit := List.takeWhile_append_dropWhile (p := p) (l := cs)
  calc cs.drop (cs.takeWhile p).length
      = (cs.takeWhile p ++ cs.dropWhile p).drop (cs.takeWhile p).length := by rw [hsplit]
    _ = cs.dropWhile p := List.drop_left

/-- The first lexeme of a text that begins with a blank takes all blanks there. -/
theorem lexemes_cons_blank {c : Char} {rest : List Char} (hc : Text.isBlank c = true) :
    lexemes (c :: rest) =
      ⟨.whitespace, c :: rest.takeWhile Text.isBlank, none⟩ ::
        lexemes (rest.dropWhile Text.isBlank) := by
  have hextent : extent c rest =
      .ok (.plain .whitespace (1 + (rest.takeWhile Text.isBlank).length)) := if_pos hc
  have htake : rest.take (rest.takeWhile Text.isBlank).length = rest.takeWhile Text.isBlank :=
    (List.prefix_iff_eq_take.mp (List.takeWhile_prefix _)).symm
  rw [lexemes_cons hextent]
  simp only [cut, Extent.plain, Nat.add_comm 1, List.take_succ_cons, List.drop_succ_cons, htake,
    drop_takeWhile]

/-- The first lexeme of a text that begins with a comment ends in front of the line's end. -/
theorem lexemes_cons_comment {body rest : List Char} (h : '\n' ∉ body) :
    lexemes (';' :: (body ++ '\n' :: rest)) =
      ⟨.lineComment, ';' :: body, none⟩ :: lexemes ('\n' :: rest) := by
  have hwidth : untilNewline (body ++ '\n' :: rest) = body.length := by
    have hall : ∀ c ∈ body, (c != '\n') = true := by
      intro c hc
      rw [bne_iff_ne]
      rintro rfl
      exact h hc
    rw [untilNewline, List.takeWhile_append_of_pos hall]
    simp
  have hextent : extent ';' (body ++ '\n' :: rest) =
      .ok (.plain .lineComment (1 + body.length)) := by
    unfold extent
    rw [if_neg (by decide +kernel), if_neg (by decide), if_neg (by decide)]
    simp only [hwidth]
  rw [lexemes_cons hextent]
  simp only [cut, Extent.plain, Nat.add_comm 1, List.take_succ_cons, List.drop_succ_cons,
    List.take_left, List.drop_left]

/-- A gap in front of something else adds lexemes of gaps. -/
theorem Gap.gapped {g rest : List Char} (h : Gap g) (hrest : IsTight rest)
    {ls : List Lexeme} (hls : Gapped (lexemes rest) ls) : Gapped (lexemes (g ++ rest)) ls := by
  -- the lexeme of a blank goes on over further blanks of the gap
  induction hn : g.length using Nat.strongRecOn generalizing g with
  | ind n ih =>
    subst hn
    have hblank : ∀ {c : Char} {g' : List Char}, Text.isBlank c = true → Gap g' →
        g'.length < g.length → Gapped (lexemes (c :: (g' ++ rest))) ls := by
      intro c g' hc hg' hlt
      rw [lexemes_cons_blank hc, dropWhile_append_of_isTight hrest]
      have hle := (List.dropWhile_suffix Text.isBlank (l := g')).length_le
      exact (ih _ (by omega) hg'.dropWhile rfl).cons_gap rfl rfl
    cases h with
    | nil => exact hls
    | @blank c g' hc hg' => exact hblank hc hg' (Nat.lt_succ_self _)
    | @comment body g' hbody hg' =>
      rw [List.cons_append, List.append_assoc, List.cons_append, lexemes_cons_comment hbody]
      have hnewline : Gapped (lexemes ('\n' :: (g' ++ rest))) ls := by
        refine hblank (by decide +kernel) hg' ?_
        simp only [List.length_cons, List.length_append]
        omega
      exact hnewline.cons_gap rfl rfl

/-! ## Words -/

/-- The brackets and the quote, behind which no gap is needed. -/
def brackets : List (List Char) :=
  [['('], [')'], ['\x27']]

/-- The lexeme is cut off in front of every text that begins with a blank or a delimiter, or in
front of any text if it is a bracket. -/
structure IsWord (l : Lexeme) : Prop where
  not_gap : l.isGap = false
  tight : ∃ c w, l.text = c :: w ∧ Text.isBlank c = false
  lexemes_append : ∀ rest, isBoundary rest = true ∨ l.text ∈ brackets →
    lexemes (l.text ++ rest) = l :: lexemes rest

theorem lexemes_append_of_extent {c : Char} {w rest : List Char} {kind : Kind}
    (h : extent c (w ++ rest) = .ok (.plain kind (w.length + 1))) :
    lexemes (c :: w ++ rest) = ⟨kind, c :: w, none⟩ :: lexemes rest := by
  rw [List.cons_append, lexemes_cons h]
  simp only [cut, Extent.plain, List.take_succ_cons, List.drop_succ_cons, List.take_left,
    List.drop_left]

theorem isWord_leftParen : IsWord .leftParen :=
  ⟨rfl, ⟨_, _, rfl, by decide +kernel⟩, fun rest _ =>
    lexemes_append_of_extent (w := []) (by unfold extent; rw [if_neg (by decide +kernel)]; rfl)⟩

theorem isWord_rightParen : IsWord .rightParen :=
  ⟨rfl, ⟨_, _, rfl, by decide +kernel⟩, fun rest _ =>
    lexemes_append_of_extent (w := []) (by unfold extent; rw [if_neg (by decide +kernel)]; rfl)⟩

theorem isWord_quoteMark : IsWord .quoteMark :=
  ⟨rfl, ⟨_, _, rfl, by decide +kernel⟩, fun rest _ =>
    lexemes_append_of_extent (w := []) (by unfold extent; rw [if_neg (by decide +kernel)]; rfl)⟩

/-- A character of words without escapes. -/
def isPlain (c : Char) : Bool :=
  !endsRun c && c != '\\' && c != '|' && c != '#'

theorem runWidth_append_of_isPlain {w rest : List Char} (hw : ∀ c ∈ w, isPlain c = true)
    (hrest : isBoundary rest = true) : runWidth false (w ++ rest) = .ok w.length := by
  induction w with
  | nil =>
    cases rest with
    | nil => rfl
    | cons c rest =>
      have hc : endsRun c = true := hrest
      have hslash : c ≠ '\\' := by
        rintro rfl
        exact absurd hc (by decide +kernel)
      have hbar : c ≠ '|' := by
        rintro rfl
        exact absurd hc (by decide +kernel)
      rw [List.nil_append, runWidth_cons hslash hbar, if_pos hc]
      rfl
  | cons c w ih =>
    obtain ⟨hc, hw⟩ := List.forall_mem_cons.mp hw
    simp only [isPlain, Bool.and_eq_true, Bool.not_eq_true', bne_iff_ne] at hc
    rw [List.cons_append, runWidth_cons hc.1.1.2 hc.1.2, if_neg (by simp [hc.1.1.1]), ih hw]
    rfl

/-- The kind of a word that does not begin with `#`. -/
def atomKind (w : List Char) : Kind :=
  if w = ['.'] then .dot else if Number.isNumber w then .number else .symbol

theorem extent_eq_atomExtent {c : Char} (hc : isPlain c = true) (rest : List Char) :
    extent c rest = atomExtent (c :: rest) := by
  have hends : endsRun c = false := by
    simp only [isPlain, Bool.and_eq_true, Bool.not_eq_true'] at hc
    exact hc.1.1.1
  have hblank : Text.isBlank c = false := (Bool.or_eq_false_iff.mp hends).1
  have hopen : isOpenBracket c = false := by
    by_contra h
    simp only [isOpenBracket, Bool.not_eq_false, Bool.or_eq_true, beq_iff_eq] at h
    rcases h with (rfl | rfl) | rfl <;> exact absurd hends (by decide +kernel)
  have hclose : isCloseBracket c = false := by
    by_contra h
    simp only [isCloseBracket, Bool.not_eq_false, Bool.or_eq_true, beq_iff_eq] at h
    rcases h with (rfl | rfl) | rfl <;> exact absurd hends (by decide +kernel)
  unfold extent
  rw [if_neg (by simp [hblank]), if_neg (by simp [hopen]), if_neg (by simp [hclose])]
  split
  all_goals first
    | exact absurd hc (by decide +kernel)
    | rfl

theorem isWord_atom {w : List Char} (hne : w ≠ []) (hw : ∀ c ∈ w, isPlain c = true) :
    IsWord ⟨atomKind w, w, none⟩ := by
  cases w with
  | nil => exact absurd rfl hne
  | cons c w =>
    have hc := hw c List.mem_cons_self
    have hbrackets : c :: w ∉ brackets := by
      intro hmem
      simp only [brackets, List.mem_cons, List.cons.injEq, List.not_mem_nil, or_false] at hmem
      rcases hmem with ⟨rfl, -⟩ | ⟨rfl, -⟩ | ⟨rfl, -⟩ <;> exact absurd hc (by decide +kernel)
    refine ⟨?_, ⟨c, w, rfl, ?_⟩, fun rest hrest => lexemes_append_of_extent ?_⟩
    · unfold atomKind
      repeat' split
      all_goals rfl
    · simp only [isPlain, endsRun, Bool.and_eq_true, Bool.not_eq_true', Bool.or_eq_false_iff] at hc
      exact hc.1.1.1.1
    · have hwidth := runWidth_append_of_isPlain hw (hrest.resolve_right hbrackets)
      rw [List.cons_append] at hwidth
      rw [extent_eq_atomExtent hc, atomExtent, hwidth]
      simp only [bind, Except.bind, ← List.cons_append, List.take_left]
      rfl

theorem isWord_point : IsWord .point := by
  have hkind : atomKind ['.'] = .dot := rfl
  have hword := isWord_atom (List.cons_ne_nil '.' [])
    (List.forall_mem_singleton.mpr (by decide +kernel))
  rwa [hkind] at hword

/-- A boolean in front of a blank or a delimiter. -/
theorem extent_boolean {word rest : List Char} (hword : word ∈ booleanWords)
    (hrest : isBoundary rest = true) :
    extent '#' (word ++ rest) = .ok (.plain .boolean (word.length + 1)) := by
  cases rest with
  | nil =>
    have hall : ∀ word ∈ booleanWords,
        extent '#' (word ++ []) = .ok (.plain .boolean (word.length + 1)) := by decide +kernel
    exact hall word hword
  | cons d rest =>
    have hall : ∀ word ∈ booleanWords, runEnders.all (fun d =>
        extent '#' (word ++ [d]) = .ok (.plain .boolean (word.length + 1))) = true := by
      decide +kernel
    have hshort := of_decide_eq_true (List.all_eq_true.mp (hall word hword) d (mem_runEnders hrest))
    rw [List.append_cons]
    refine extent_append (q := []) (by rw [List.append_nil]; exact hshort) ?_ nofun
    simp [Extent.plain, lookahead]

theorem isWord_boolean {word : List Char} (hword : word ∈ booleanWords) :
    IsWord ⟨.boolean, '#' :: word, none⟩ := by
  refine ⟨rfl, ⟨_, _, rfl, by decide +kernel⟩, fun rest hrest => ?_⟩
  rcases hrest with hrest | hmem
  · exact lexemes_append_of_extent (extent_boolean hword hrest)
  · simp [brackets] at hmem

/-! ## Spaced words -/

/-- The words with gaps between and behind. Between two words there must be a gap, unless one of
them is a bracket or quote. -/
inductive Spaced : List (List Char) → List Char → Prop
  | nil : Spaced [] []
  | cons {w g rest : List Char} {ws : List (List Char)} (hg : Gap g)
      (hsep : g ≠ [] ∨ w ∈ brackets ∨ ∀ v ∈ ws.head?, v ∈ brackets) (h : Spaced ws rest) :
      Spaced (w :: ws) (w ++ (g ++ rest))

theorem Gap.isBoundary_append {g : List Char} (h : Gap g) (hne : g ≠ []) (rest : List Char) :
    isBoundary (g ++ rest) = true := by
  cases h with
  | nil => exact absurd rfl hne
  | blank hc _ => exact Bool.or_eq_true_iff.mpr (.inl hc)
  | comment _ _ => exact show endsRun ';' = true by decide +kernel

theorem Spaced.isBoundary {ws : List (List Char)} {cs : List Char} (h : Spaced ws cs)
    (hws : ∀ v ∈ ws.head?, v ∈ brackets) : isBoundary cs = true := by
  cases h with
  | nil => rfl
  | cons _ _ _ =>
    have hw := hws _ rfl
    simp only [brackets, List.mem_cons, List.not_mem_nil, or_false] at hw
    rcases hw with rfl | rfl | rfl
    · exact show endsRun '(' = true by decide +kernel
    · exact show endsRun ')' = true by decide +kernel
    · exact show endsRun '\x27' = true by decide +kernel

/-- The lexemes of spaced words are those of the words and of the gaps. -/
theorem gapped_of_spaced {ls : List Lexeme} {g cs : List Char} (hg : Gap g)
    (h : Spaced (ls.map Lexeme.text) cs) (hls : ∀ l ∈ ls, IsWord l) :
    Gapped (lexemes (g ++ cs)) ls := by
  induction ls generalizing g cs with
  | nil =>
    cases h with
    | nil =>
      have hnil : Gapped (lexemes []) [] := by
        rw [lexemes]
        exact Lexeme.gapped_nil
      exact hg.gapped (fun c hc => by cases hc) hnil
  | cons l ls ih =>
    obtain ⟨hl, hls⟩ := List.forall_mem_cons.mp hls
    cases h with
    | @cons _ g' rest _ hg' hsep h =>
      refine hg.gapped ?_ ?_
      · obtain ⟨c, w, htext, hc⟩ := hl.tight
        rw [htext]
        rintro d ⟨⟩
        exact hc
      · have hend : isBoundary (g' ++ rest) = true ∨ l.text ∈ brackets := by
          by_cases hne : g' = []
          · rw [hne]
            rcases hsep with hne' | hw | hnext
            · exact absurd hne hne'
            · exact .inr hw
            · exact .inl (h.isBoundary hnext)
          · exact .inl (hg'.isBoundary_append hne rest)
        rw [hl.lexemes_append _ hend]
        exact (ih hg' h hls).cons_word hl.not_gap

end Token

end RacketTree

import RacketTree.Proofs.Token.Mark
import RacketTree.Token.Scan

/-!
# What an extent can be

`extent_fits` says once what the classifier of tokens can answer: the extent is not empty and lies
in the text, its kind is one that tokens have, openers end in a bracket, block comments are
complete, and closers and dots are one character wide. `lexemes_valid` carries this over to all
lexemes of a text.
-/

namespace RacketTree

/-- A kind that a terminated token can have. -/
def Kind.isLexical (k : Kind) : Bool :=
  k.isAtom || match k with
    | .whitespace | .lineComment | .blockComment | .datumCommentMark | .prefixMark | .graphLabel
    | .opener | .closer | .dot => true
    | _ => false

namespace Token

/-- The extent of the token at the front of a text, as far as its kind tells. -/
structure Fits (e : Extent) (cs : List Char) : Prop where
  pos : 0 < e.width
  le : e.width ≤ cs.length
  lexical : e.kind.isLexical = true
  opener : e.kind = .opener → ∃ c, (cs.take e.width).getLast? = some c ∧ isOpenBracket c = true
  comment : e.kind = .blockComment →
    ∃ n rest, cs = '#' :: '|' :: rest ∧ blockWidth? 0 rest = some n ∧ e.width = n + 2 ∧
      e.fault = none
  single : e.kind = .closer ∨ e.kind = .dot → e.width = 1

/-- A kind of token about which only its place in the text is known. -/
def isSimple (k : Kind) : Bool :=
  k.isAtom || match k with
    | .whitespace | .lineComment | .datumCommentMark | .prefixMark | .graphLabel => true
    | _ => false

theorem fits_simple {e : Extent} {cs : List Char} (hk : isSimple e.kind = true)
    (hpos : 0 < e.width) (hle : e.width ≤ cs.length) : Fits e cs := by
  obtain ⟨kind, width, fault⟩ := e
  cases kind <;> first
    | cases hk; done
    | exact ⟨hpos, hle, rfl, nofun, nofun, by rintro (h | h) <;> cases h⟩

theorem fits_plain {k : Kind} {w : Nat} {cs : List Char} (hk : isSimple k = true) (hpos : 0 < w)
    (hle : w ≤ cs.length) : Fits (.plain k w) cs :=
  fits_simple hk hpos hle

theorem length_lt_of_drop_eq_cons {cs : List Char} {n : Nat} {c : Char} {rest : List Char}
    (h : cs.drop n = c :: rest) : n < cs.length := by
  rcases Nat.lt_or_ge n cs.length with hlt | hge
  · exact hlt
  · rw [List.drop_eq_nil_of_le hge] at h
    cases h

theorem fits_opener {n : Nat} {cs : List Char} {c : Char} {rest : List Char}
    (hd : cs.drop n = c :: rest) (hc : isOpenBracket c = true) :
    Fits (.plain .opener (n + 1)) cs := by
  refine ⟨Nat.succ_pos n, length_lt_of_drop_eq_cons hd, rfl, fun _ => ⟨c, ?_, hc⟩, nofun, ?_⟩
  · have hget : cs[n]? = some c := by
      rw [← Nat.add_zero n, ← List.getElem?_drop, hd]
      rfl
    simp only [Extent.plain]
    rw [List.getLast?_take]
    simp [hget]
  · rintro (h | h) <;> cases h

/-! ## Directives and words after `#` -/

theorem directive?_cases {cs : List Char} {e : Extent} (h : directive? cs = some e) :
    (∃ c rest, cs = '!' :: c :: rest ∧ (c = ' ' ∨ c = '/') ∧
      e = .plain .lineComment (2 + untilNewline (c :: rest))) ∨
    (∃ rest, cs = '!' :: rest ∧ (∀ c rest', rest = c :: rest' → c ≠ ' ' ∧ c ≠ '/') ∧
      rest.takeWhile isLangChar ≠ [] ∧
      e = .plain .readerDirective (2 + (rest.takeWhile isLangChar).length)) ∨
    (∃ rest, cs = 'l' :: 'a' :: 'n' :: 'g' :: rest ∧ rest.takeWhile isLangBlank ≠ [] ∧
      (rest.dropWhile isLangBlank).takeWhile isLangChar ≠ [] ∧
      e = .plain .readerDirective (5 + (rest.takeWhile isLangBlank).length +
        ((rest.dropWhile isLangBlank).takeWhile isLangChar).length)) := by
  unfold directive? at h
  split at h
  · split at h
    · cases h
      exact .inl ⟨_, _, rfl, .inl rfl, rfl⟩
    · cases h
      exact .inl ⟨_, _, rfl, .inr rfl, rfl⟩
    · rename_i h₁ h₂
      simp only at h
      split at h
      · cases h
      · rename_i hname
        cases h
        refine .inr (.inl ⟨_, rfl, ?_, by simpa using hname, rfl⟩)
        rintro c rest rfl
        exact ⟨fun hc => h₁ rest (by rw [hc]), fun hc => h₂ rest (by rw [hc])⟩
  · simp only at h
    split at h
    · cases h
    · rename_i hname
      cases h
      simp only [Bool.or_eq_true, List.isEmpty_iff, not_or] at hname
      exact .inr (.inr ⟨_, rfl, hname.1, hname.2, rfl⟩)
  · cases h
/-- The ways in which a token after `#` is found when its first character does not decide it. -/
inductive WordExtent (c : Char) (rest : List Char) : Extent → Prop where
  | directive {e : Extent} (hd : directive? (c :: rest) = some e) : WordExtent c rest e
  | regexp {n body : Nat} (hd : directive? (c :: rest) = none)
      (hr : regexpMark? (c :: rest) = some n)
      (hs : stringWidth? ((c :: rest).drop n) = some body) :
      WordExtent c rest (.plain .regexp (1 + n + body))
  | hereString {body : Nat} (hd : directive? (c :: rest) = none)
      (hr : regexpMark? (c :: rest) = none) (hh : ['<', '<'].isPrefixOf (c :: rest) = true)
      (hb : hereWidth? ((c :: rest).drop 2) = some body) :
      WordExtent c rest (.plain .hereString (3 + body))
  | opener {n : Nat} (hd : directive? (c :: rest) = none) (hr : regexpMark? (c :: rest) = none)
      (hh : ['<', '<'].isPrefixOf (c :: rest) = false)
      (ho : sequenceOpener? (c :: rest) = some n) :
      WordExtent c rest (.plain .opener (n + 1))
  | mark {e : Extent} (hd : directive? (c :: rest) = none) (hr : regexpMark? (c :: rest) = none)
      (hh : ['<', '<'].isPrefixOf (c :: rest) = false) (ho : sequenceOpener? (c :: rest) = none)
      (hm : (graphMark? (c :: rest)).or (boolean? (c :: rest)) = some e) : WordExtent c rest e
  | run {n : Nat} (hd : directive? (c :: rest) = none) (hr : regexpMark? (c :: rest) = none)
      (hh : ['<', '<'].isPrefixOf (c :: rest) = false) (ho : sequenceOpener? (c :: rest) = none)
      (hm : (graphMark? (c :: rest)).or (boolean? (c :: rest)) = none)
      (hw : runWidth false (c :: rest) = .ok n) :
      WordExtent c rest (.plain
        (if isNumberMark c then
          if Number.isNumber ('#' :: (c :: rest).take n) then .number else .symbol
        else .extension) (n + 1))

theorem wordExtent_eq_ok_iff {c : Char} {rest : List Char} {e : Extent} :
    wordExtent c rest = .ok e ↔ WordExtent c rest e := by
  constructor
  · intro h
    unfold wordExtent at h
    simp only at h
    split at h
    · rename_i hd
      cases h
      exact .directive hd
    rename_i hd
    split at h
    · rename_i n hr
      split at h
      · rename_i body hs
        cases h
        exact .regexp hd hr hs
      · cases h
    rename_i hr
    split at h
    · rename_i hh
      split at h
      · rename_i body hb
        cases h
        exact .hereString hd hr hh hb
      · cases h
    rename_i hh
    simp only [Bool.not_eq_true] at hh
    split at h
    · rename_i n ho
      cases h
      exact .opener hd hr hh ho
    rename_i ho
    split at h
    · rename_i e hm
      cases h
      exact .mark hd hr hh ho hm
    rename_i hm
    cases hw : runWidth false (c :: rest) with
    | error cause => rw [hw] at h; cases h
    | ok n =>
      rw [hw] at h
      have hrun := WordExtent.run hd hr hh ho hm hw
      simp only [bind, Except.bind, pure, Except.pure] at h
      split at h
      · rename_i hc
        cases h
        simpa only [hc, if_true] using hrun
      · rename_i hc
        cases h
        simpa only [hc, Bool.false_eq_true, if_false] using hrun
  · intro h
    cases h with
    | directive hd => simp only [wordExtent, hd]
    | regexp hd hr hs => simp only [wordExtent, hd, hr, hs]
    | hereString hd hr hh hb => simp only [wordExtent, hd, hr, hh, hb, if_true]
    | opener hd hr hh ho => simp only [wordExtent, hd, hr, hh, ho, if_false, Bool.false_eq_true]
    | mark hd hr hh ho hm =>
      simp only [wordExtent, hd, hr, hh, ho, hm, if_false, Bool.false_eq_true]
    | run hd hr hh ho hm hw =>
      simp only [wordExtent, hd, hr, hh, ho, hm, hw, if_false, Bool.false_eq_true, bind,
        Except.bind, pure, Except.pure]
      split <;> rfl
theorem directive?_fits {cs : List Char} {e : Extent} (h : directive? cs = some e) :
    Fits e ('#' :: cs) := by
  rcases directive?_cases h with ⟨c, rest, rfl, -, rfl⟩ | ⟨rest, rfl, -, -, rfl⟩ |
    ⟨rest, rfl, -, -, rfl⟩
  · have := length_takeWhile_le (· != '\n') (c :: rest)
    refine fits_plain rfl (by omega) ?_
    simp only [untilNewline, List.length_cons] at this ⊢
    omega
  · have := length_takeWhile_le isLangChar rest
    refine fits_plain rfl (by omega) ?_
    simp only [List.length_cons]
    omega
  · have h₁ := congrArg List.length (List.takeWhile_append_dropWhile (p := isLangBlank) (l := rest))
    have h₂ := length_takeWhile_le isLangChar (rest.dropWhile isLangBlank)
    refine fits_plain rfl (by omega) ?_
    simp only [List.length_cons, List.length_append] at h₁ ⊢
    omega

theorem regexpMark?_le {cs : List Char} {n : Nat} (h : regexpMark? cs = some n) :
    n ≤ cs.length := by
  unfold regexpMark? at h
  split at h <;> first
    | cases h; simp
    | cases h

theorem hereWidth?_le {cs : List Char} {n : Nat} (h : hereWidth? cs = some n) :
    n ≤ cs.length := by
  unfold hereWidth? at h
  have hlen := congrArg List.length
    (List.takeWhile_append_dropWhile (p := (· != '\n')) (l := cs))
  simp only at h
  split at h
  · cases h
  · rename_i c body hd
    obtain ⟨m, hm, rfl⟩ := Option.map_eq_some_iff.mp h
    have := hereBody?_le hm
    rw [hd] at hlen
    simp only [List.length_append, List.length_cons] at hlen
    omega

theorem sequenceOpener?_eq_some {cs : List Char} {n : Nat} (h : sequenceOpener? cs = some n) :
    ∃ m c rest, n = m + 1 ∧ cs.drop m = c :: rest ∧ isOpenBracket c = true := by
  have hBracket : ∀ m, bracketAt? m cs = some n →
      ∃ m c rest, n = m + 1 ∧ cs.drop m = c :: rest ∧ isOpenBracket c = true := by
    intro m hm
    obtain ⟨hn, c, rest, hd, hc⟩ := bracketAt?_eq_some hm
    exact ⟨m, c, rest, hn, hd, hc⟩
  simp only [sequenceOpener?, Option.or_eq_some_iff] at h
  rcases h with h | ⟨-, h | ⟨-, h⟩⟩
  · obtain ⟨word, -, h⟩ := List.exists_of_findSome?_eq_some h
    split at h
    · exact hBracket _ h
    · cases h
  · obtain ⟨word, -, h⟩ := List.exists_of_findSome?_eq_some h
    split at h
    · exact hBracket _ h
    · cases h
  · split at h
    · cases h
    · exact hBracket _ h

theorem graphMark?_cases {cs : List Char} {e : Extent} (h : graphMark? cs = some e) :
    digitRun cs ≠ 0 ∧ ∃ c rest, cs.drop (digitRun cs) = c :: rest ∧
      (c = '=' ∧ e = .plain .graphLabel (digitRun cs + 2) ∨
        c = '#' ∧ e = .plain .graphReference (digitRun cs + 2)) := by
  unfold graphMark? at h
  simp only at h
  split at h
  · cases h
  · rename_i hn
    refine ⟨hn, ?_⟩
    split at h
    · rename_i rest hd
      cases h
      exact ⟨_, rest, hd, .inl ⟨rfl, rfl⟩⟩
    · rename_i rest hd
      cases h
      exact ⟨_, rest, hd, .inr ⟨rfl, rfl⟩⟩
    · cases h

theorem boolean?_cases {cs : List Char} {e : Extent} (h : boolean? cs = some e) :
    ∃ word ∈ booleanWords, (cs.take word.length).map Text.lower = word ∧
      isBoundary (cs.drop word.length) = true ∧ e = .plain .boolean (word.length + 1) := by
  obtain ⟨word, hword, h⟩ := List.exists_of_findSome?_eq_some h
  split at h
  · rename_i hc
    cases h
    simp only [Bool.and_eq_true, decide_eq_true_eq] at hc
    exact ⟨word, hword, hc.1, hc.2, rfl⟩
  · cases h

theorem wordExtent_fits {c : Char} {rest : List Char} {e : Extent}
    (h : wordExtent c rest = .ok e) : Fits e ('#' :: c :: rest) := by
  cases wordExtent_eq_ok_iff.mp h with
  | directive hd => exact directive?_fits hd
  | @regexp n body hd hr hs =>
    have h₁ := regexpMark?_le hr
    have h₂ := stringWidth?_le hs
    rw [List.length_drop] at h₂
    refine fits_plain rfl (by omega) ?_
    simp only [List.length_cons] at h₁ h₂ ⊢
    omega
  | @hereString body hd hr hh hb =>
    have h₁ := hereWidth?_le hb
    have h₂ := (List.isPrefixOf_iff_prefix.mp hh).length_le
    rw [List.length_drop] at h₁
    refine fits_plain rfl (by omega) ?_
    simp only [List.length_cons, List.length_nil] at h₁ h₂ ⊢
    omega
  | @opener n hd hr hh ho =>
    obtain ⟨m, b, tail, rfl, hdrop, hb⟩ := sequenceOpener?_eq_some ho
    exact @fits_opener _ ('#' :: c :: rest) _ _ hdrop hb
  | mark hd hr hh ho hm =>
    rcases Option.or_eq_some_iff.mp hm with hm | ⟨-, hm⟩
    · obtain ⟨-, b, tail, hdrop, ⟨-, rfl⟩ | ⟨-, rfl⟩⟩ := graphMark?_cases hm
      all_goals
        have := length_lt_of_drop_eq_cons hdrop
        refine fits_plain rfl (by omega) ?_
        rw [List.length_cons]
        omega
    · obtain ⟨word, hword, htake, -, rfl⟩ := boolean?_cases hm
      have hlen := congrArg List.length htake
      rw [List.length_map, List.length_take] at hlen
      refine fits_plain rfl (by omega) ?_
      rw [List.length_cons]
      omega
  | @run n hd hr hh ho hm hw =>
    have := runWidth_le hw
    have hle : n + 1 ≤ ('#' :: c :: rest).length := by
      rw [List.length_cons]
      omega
    split
    · split
      · exact fits_plain rfl (by omega) hle
      · exact fits_plain rfl (by omega) hle
    · exact fits_plain rfl (by omega) hle

/-! ## Characters -/

/-- The hexadecimal digits of a character that is given by its code. -/
def hexDigits (c : Char) (rest : List Char) : List Char :=
  (rest.take (if c = 'u' then 4 else 8)).takeWhile Text.isHexDigit

/-- The character is given by three octal digits. -/
def isOctalCode (c : Char) (rest : List Char) : Bool :=
  '0' ≤ c && c ≤ '3' && match rest with
    | a :: b :: _ => Text.isOctalDigit a && Text.isOctalDigit b
    | _ => false

/-- The fault of a word after `#\`. -/
def wordFault (word : List Char) : Option Fault :=
  if word.length = 1 || (Text.namedChar? word).isSome then none else some .badCharacter

theorem characterExtent_cons (c : Char) (rest : List Char) :
    characterExtent (c :: rest) =
      if (c = 'u' || c = 'U') && !(hexDigits c rest).isEmpty then
        .ok (.plain .character (3 + (hexDigits c rest).length))
      else if isOctalCode c rest then .ok (.plain .character 5)
      else if Text.isLetter c then
        .ok ⟨.character, 3 + (rest.takeWhile Text.isLetter).length,
          wordFault (c :: rest.takeWhile Text.isLetter)⟩
      else .ok (.plain .character 3) := by
  have hlen : 2 + (c :: rest.takeWhile Text.isLetter).length =
      3 + (rest.takeWhile Text.isLetter).length := by
    rw [List.length_cons]
    omega
  simp only [characterExtent, hlen]
  refine ite_congr rfl (fun _ => rfl) fun _ => ite_congr rfl (fun _ => rfl) fun _ =>
    ite_congr rfl (fun _ => ?_) fun _ => rfl
  unfold wordFault
  split <;> rfl

theorem length_hexDigits_le (c : Char) (rest : List Char) :
    (hexDigits c rest).length ≤ rest.length :=
  Nat.le_trans (length_takeWhile_le _ _) (List.length_take_le' _ _)

theorem two_le_length_of_isOctalCode {c : Char} {rest : List Char}
    (h : isOctalCode c rest = true) : 2 ≤ rest.length := by
  match rest with
  | [] | [a] => simp [isOctalCode] at h
  | a :: b :: rest => simp

theorem characterExtent_fits {cs : List Char} {e : Extent} (h : characterExtent cs = .ok e) :
    Fits e ('#' :: '\\' :: cs) := by
  cases cs with
  | nil => cases h
  | cons c rest =>
    rw [characterExtent_cons] at h
    have h₁ := length_hexDigits_le c rest
    have h₂ := length_takeWhile_le Text.isLetter rest
    split at h
    · cases h
      refine fits_plain rfl (by omega) ?_
      simp only [List.length_cons]
      omega
    split at h
    · rename_i hOctal
      cases h
      have := two_le_length_of_isOctalCode hOctal
      refine fits_plain rfl (by omega) ?_
      simp only [List.length_cons]
      omega
    split at h
    · cases h
      refine fits_simple rfl (by simp only; omega) ?_
      simp only [List.length_cons]
      omega
    · cases h
      exact fits_plain rfl (by omega) (by simp)

theorem characterExtent_kind {cs : List Char} {e : Extent} (h : characterExtent cs = .ok e) :
    e.kind = .character := by
  cases cs with
  | nil => cases h
  | cons c rest =>
    rw [characterExtent_cons] at h
    repeat' split at h
    all_goals cases h; rfl

/-! ## All tokens -/

theorem hashExtent_fits {cs : List Char} {e : Extent} (h : hashExtent cs = .ok e) :
    Fits e ('#' :: cs) := by
  unfold hashExtent at h
  split at h
  · cases h
    exact fits_plain rfl (by omega) (by simp)
  · rename_i c rest
    split at h
    · split at h
      · rename_i n hn
        cases h
        have := blockWidth?_le hn
        have hopener : Kind.blockComment ≠ .opener := by decide
        exact ⟨by simp [Extent.plain], by simp [Extent.plain]; omega, rfl,
          fun hk => absurd hk hopener, fun _ => ⟨n, rest, rfl, hn, rfl, rfl⟩,
          by rintro (h | h) <;> cases h⟩
      · cases h
    · cases h
      exact fits_plain rfl (by omega) (by simp)
    · exact characterExtent_fits h
    · split at h
      · rename_i n hn
        cases h
        have := stringWidth?_le hn
        refine fits_plain rfl (by omega) ?_
        simp only [List.length_cons]
        omega
      · cases h
    · cases h
      exact fits_plain rfl (by omega) (by simp)
    · cases h
      exact fits_plain rfl (by omega) (by simp)
    · cases h
      exact fits_plain rfl (by omega) (by simp)
    · cases h
      split
      · rename_i hhead
        obtain ⟨tail, rfl⟩ := List.head?_eq_some_iff.mp hhead
        exact fits_plain rfl (by omega) (by simp)
      · exact fits_plain rfl (by omega) (by simp)
    · cases hw : runWidth false rest with
      | error cause => rw [hw] at h; cases h
      | ok n =>
        rw [hw] at h
        cases h
        have := runWidth_le hw
        refine fits_plain rfl (by omega) ?_
        simp only [List.length_cons]
        omega
    · split at h
      · rename_i hc
        cases h
        exact fits_opener (n := 1) (c := c) rfl hc
      · exact wordExtent_fits h

theorem runWidth_pos {c : Char} {rest : List Char} {n : Nat} (hc : endsRun c = false)
    (h : runWidth false (c :: rest) = .ok n) : 0 < n := by
  by_cases h₁ : c = '\\'
  · subst h₁
    cases rest with
    | nil => cases h
    | cons d rest =>
      rw [runWidth_escape] at h
      obtain ⟨m, -, rfl⟩ := map_eq_ok h
      omega
  · by_cases h₂ : c = '|'
    · subst h₂
      change (runWidth true rest).map (· + 1) = .ok n at h
      obtain ⟨m, -, rfl⟩ := map_eq_ok h
      omega
    · rw [runWidth_cons h₁ h₂, hc] at h
      obtain ⟨m, -, rfl⟩ := map_eq_ok h
      omega

theorem atomExtent_eq_ok {cs : List Char} {e : Extent} (h : atomExtent cs = .ok e) :
    ∃ n, runWidth false cs = .ok n ∧
      e = .plain (if cs.take n = ['.'] then .dot
        else if Number.isNumber (cs.take n) then .number else .symbol) n := by
  unfold atomExtent at h
  cases hw : runWidth false cs with
  | error cause => rw [hw] at h; cases h
  | ok n =>
    rw [hw] at h
    cases h
    exact ⟨n, rfl, rfl⟩

theorem atomExtent_fits {c : Char} {rest : List Char} {e : Extent} (hc : endsRun c = false)
    (h : atomExtent (c :: rest) = .ok e) : Fits e (c :: rest) := by
  obtain ⟨n, hw, rfl⟩ := atomExtent_eq_ok h
  have hpos := runWidth_pos hc hw
  have hle := runWidth_le hw
  split
  · rename_i hdot
    have hlen := congrArg List.length hdot
    rw [List.length_take] at hlen
    refine ⟨hpos, hle, rfl, nofun, nofun, fun _ => ?_⟩
    simp only [Extent.plain, List.length_singleton] at hlen ⊢
    omega
  · split
    · exact fits_plain rfl hpos hle
    · exact fits_plain rfl hpos hle

/-- What the classifier of tokens can answer. -/
theorem extent_fits {c : Char} {rest : List Char} {e : Extent} (h : extent c rest = .ok e) :
    Fits e (c :: rest) := by
  unfold extent at h
  split at h
  · cases h
    have := length_takeWhile_le Text.isBlank rest
    refine fits_plain rfl (by omega) ?_
    rw [List.length_cons]
    omega
  rename_i hBlank
  split at h
  · rename_i hc
    cases h
    exact fits_opener (n := 0) (c := c) rfl hc
  rename_i hOpen
  split at h
  · cases h
    exact ⟨by simp [Extent.plain], by simp [Extent.plain], rfl, nofun, nofun, fun _ => rfl⟩
  rename_i hClose
  split at h
  · cases h
    have := length_takeWhile_le (· != '\n') rest
    refine fits_plain rfl (by omega) ?_
    simp only [untilNewline, List.length_cons] at this ⊢
    omega
  · cases h
    exact fits_plain rfl (by omega) (by simp)
  · cases h
    exact fits_plain rfl (by omega) (by simp)
  · cases h
    split
    · rename_i hhead
      obtain ⟨tail, rfl⟩ := List.head?_eq_some_iff.mp hhead
      exact fits_plain rfl (by omega) (by simp)
    · exact fits_plain rfl (by omega) (by simp)
  · split at h
    · rename_i n hn
      cases h
      have := stringWidth?_le hn
      refine fits_plain rfl (by omega) ?_
      rw [List.length_cons]
      omega
    · cases h
  · exact hashExtent_fits h
  · rename_i h₁ h₂ h₃ h₄ h₅ h₆
    refine atomExtent_fits ?_ h
    simp_all [endsRun, isDelimiter, isOpenBracket, isCloseBracket]

/-! ## Lexemes -/

end Token

/-- What is known of a lexeme from its kind. An error without a kind of its own has a fault. -/
structure Lexeme.Valid (l : Lexeme) : Prop where
  nonempty : l.text ≠ []
  lexical : l.kind.isLexical = true ∨ l.kind = .error ∧ l.fault.isSome = true
  opener : l.kind = .opener → ∃ c, l.text.getLast? = some c ∧ Token.isOpenBracket c = true
  comment : l.kind = .blockComment →
    ∃ body, l.text = '#' :: '|' :: body ∧ Token.blockWidth? 0 body = some body.length ∧
      l.fault = none
  single : l.kind = .closer ∨ l.kind = .dot → l.text.length = 1

namespace Token

theorem length_text_cut {e : Extent} {cs : List Char} (h : Fits e cs) :
    (cut e cs).text.length = e.width := by
  have := h.le
  simp only [cut, List.length_take]
  omega

theorem cut_valid {e : Extent} {cs : List Char} (h : Fits e cs) : (cut e cs).Valid where
  nonempty := by
    intro hnil
    have hlen := length_text_cut h
    rw [hnil] at hlen
    exact Nat.ne_of_lt h.pos hlen
  lexical := .inl h.lexical
  opener := h.opener
  comment := by
    intro hk
    obtain ⟨n, rest, rfl, hn, hw, hf⟩ := h.comment hk
    have htake := blockWidth?_take hn []
    have hle := blockWidth?_le hn
    rw [List.append_nil] at htake
    refine ⟨rest.take n, by simp [cut, hw], ?_, hf⟩
    rw [htake, List.length_take, Nat.min_eq_left hle.2]
  single := fun hk => by rw [length_text_cut h]; exact h.single hk

theorem lexemes_valid (cs : List Char) : ∀ l ∈ lexemes cs, l.Valid := by
  fun_induction lexemes cs with
  | case1 => simp
  | case2 c rest e he ih =>
    intro l hl
    rcases List.mem_cons.mp hl with rfl | hl
    · exact cut_valid (extent_fits he)
    · exact ih l hl
  | case3 c rest cause he =>
    intro l hl
    rw [List.mem_singleton] at hl
    subst hl
    exact ⟨by simp, .inr ⟨rfl, rfl⟩, nofun, nofun, by rintro (h | h) <;> cases h⟩

end Token

end RacketTree

import RacketTree.Proofs.Literal.Strings

/-!
# Codes that are too large

Numbers of more than 31 bits are told apart from other numbers beyond the code points. In a string
only the eight digits behind `\U` can stand for one (`string_eq_codeTooLarge_iff`). It is met where
everything in front of it has been decoded: a backslash ends every escape before it, so that the
front is decoded as if it stood alone (`decode_append`).
-/

namespace RacketTree.Literal

variable {text rest : List Char} {letter : Char}

/-! ## In front of a backslash -/

/-- A step with more text behind it. -/
def Decoded.append (d : Decoded) (tail : List Char) : Decoded :=
  ⟨d.codes, d.rest ++ tail⟩

theorem takeWhile_take_append {p : Char → Bool} (hp : p '\\' = false) (limit : Nat)
    (cs t : List Char) :
    ((cs ++ '\\' :: t).take limit).takeWhile p = (cs.take limit).takeWhile p := by
  induction cs generalizing limit with
  | nil => cases limit <;> simp [hp]
  | cons c cs ih =>
    cases limit with
    | zero => rfl
    | succ limit =>
      rw [List.cons_append, List.take_succ_cons, List.take_succ_cons, List.takeWhile_cons,
        List.takeWhile_cons, ih]

theorem digitsEscape_backslash (isDigit : Char → Bool) (hdigit : isDigit '\\' = false)
    (radix limit : Nat) (text t : List Char) :
    digitsEscape isDigit radix limit (text ++ '\\' :: t) =
      (digitsEscape isDigit radix limit text).map (·.append ('\\' :: t)) := by
  have hlen : ((text.take limit).takeWhile isDigit).length ≤ text.length :=
    ((List.takeWhile_prefix _).trans (List.take_prefix _ _)).length_le
  rw [digitsEscape_eq, digitsEscape_eq, takeWhile_take_append hdigit,
    List.drop_append_of_le_length hlen]
  cases codePoint (Text.ofDigits radix ((text.take limit).takeWhile isDigit)) <;> rfl

theorem hexEscape_backslash (letter : Char) (limit : Nat) (text t : List Char) :
    hexEscape letter limit (text ++ '\\' :: t) =
      (hexEscape letter limit text).map (·.append ('\\' :: t)) := by
  cases text with
  | nil => rfl
  | cons c text =>
    have hdigits := digitsEscape_backslash Text.isHexDigit rfl 16 limit (c :: text) t
    rw [List.cons_append] at hdigits ⊢
    simp only [hexEscape]
    by_cases hc : Text.isHexDigit c = true
    · rw [if_pos hc, if_pos hc, hdigits]
    · rw [if_neg hc, if_neg hc]
      rfl

theorem dropIndent_backslash (cs t : List Char) :
    dropIndent (cs ++ '\\' :: t) = dropIndent cs ++ '\\' :: t := by
  induction cs with
  | nil => rfl
  | cons c cs ih =>
    simp only [dropIndent, List.cons_append, List.dropWhile_cons] at ih ⊢
    split
    · exact ih
    · rfl

/-- An escape does not reach beyond a backslash behind it. -/
theorem escape_backslash (letter : Char) (rest t : List Char) :
    escape letter (rest ++ '\\' :: t) = (escape letter rest).map (·.append ('\\' :: t)) := by
  unfold escape
  split
  · rfl
  · split
    · exact digitsEscape_backslash Text.isOctalDigit rfl 8 3 (letter :: rest) t
    · split
      · exact hexEscape_backslash _ _ rest t
      · exact hexEscape_backslash _ _ rest t
      · exact hexEscape_backslash _ _ rest t
      · rw [dropIndent_backslash]
        rfl
      · cases rest with
        | nil => rfl
        | cons c rest =>
          -- a line feed is taken together with the carriage return in front of it
          by_cases hc : c = '\n'
          · subst hc
            simp only [List.cons_append, dropIndent_backslash]
            rfl
          · have hdrop := dropIndent_backslash (c :: rest) t
            simp only [List.cons_append] at hdrop ⊢
            split
            · rename_i heq
              cases heq
              exact absurd rfl hc
            · split
              · rename_i heq
                cases heq
                exact absurd rfl hc
              · rw [hdrop]
                rfl
      · rfl

/-- Induction along the steps of the decoder. -/
@[elab_as_elim]
theorem decode_induct {motive : List Char → Prop} (nil : motive []) (lone : motive ['\\'])
    (escape : ∀ letter rest, (∀ d, escape letter rest = .ok d → motive d.rest) →
      motive ('\\' :: letter :: rest))
    (plain : ∀ c rest, c ≠ '\\' → motive rest → motive (c :: rest)) (text : List Char) :
    motive text := by
  induction hn : text.length using Nat.strongRecOn generalizing text with
  | ind n ih =>
    subst hn
    cases text with
    | nil => exact nil
    | cons c rest =>
      by_cases hc : c = '\\'
      · subst hc
        cases rest with
        | nil => exact lone
        | cons letter rest =>
          refine escape letter rest fun d hd => ih _ ?_ d.rest rfl
          have hle := (rest_suffix_of_escape hd).length_le
          simp only [List.length_cons]
          omega
      · exact plain c rest hc (ih _ (Nat.lt_succ_self _) rest rfl)

/-- What stands in front of a backslash is decoded as if it stood alone. -/
theorem decode_append {front : List Char} {codes : List Nat} (h : decode front = .ok codes)
    (t : List Char) :
    decode (front ++ '\\' :: t) = (decode ('\\' :: t)).map (codes ++ ·) := by
  have hmap : ∀ first more : List Nat,
      ((decode ('\\' :: t)).map (more ++ ·)).map (first ++ ·) =
        (decode ('\\' :: t)).map (first ++ more ++ ·) := by
    intro first more
    cases decode ('\\' :: t) with
    | error e => rfl
    | ok codes => exact congrArg Except.ok (List.append_assoc ..).symm
  induction front using decode_induct generalizing codes with
  | nil =>
    cases h
    rw [List.nil_append]
    cases decode ('\\' :: t) <;> rfl
  | lone => cases h
  | escape letter rest ih =>
    rw [decode_escape] at h
    cases hescape : escape letter rest with
    | error e =>
      rw [hescape] at h
      cases h
    | ok d =>
      rw [hescape] at h
      obtain ⟨more, hmore, rfl⟩ := Token.map_eq_ok h
      rw [List.cons_append, List.cons_append, decode_escape, escape_backslash, hescape, ← hmap,
        ← ih d hescape hmore]
      rfl
  | plain c rest hc ih =>
    rw [decode_cons hc] at h
    obtain ⟨more, hmore, rfl⟩ := Token.map_eq_ok h
    rw [List.cons_append, decode_cons hc, ih hmore]
    exact hmap [c.toNat] more

/-! ## Numbers of more than 31 bits -/

/-- The text starts with `U` and eight digits that stand for a number of more than 31 bits. -/
def StartsLarge (text : List Char) : Prop :=
  ∃ ds rest n, text = 'U' :: (ds ++ rest) ∧ ds.length = 8 ∧ Text.Denotes .hexadecimal ds n ∧
    0x7FFFFFFF < n

theorem codePoint_eq_codeTooLarge_iff {n : Nat} :
    codePoint n = .error .codeTooLarge ↔ 0x7FFFFFFF < n := by
  unfold codePoint
  split
  · exact iff_of_false nofun (by omega)
  · split
    · exact iff_of_false nofun (by omega)
    · exact iff_of_true rfl (by omega)

theorem digitsEscape_eq_codeTooLarge_iff {isDigit : Char → Bool} {radix limit : Nat} :
    digitsEscape isDigit radix limit text = .error .codeTooLarge ↔
      0x7FFFFFFF < Text.ofDigits radix ((text.take limit).takeWhile isDigit) := by
  rw [digitsEscape_eq, ← codePoint_eq_codeTooLarge_iff]
  cases codePoint (Text.ofDigits radix ((text.take limit).takeWhile isDigit)) <;>
    simp [Except.map]

theorem eight_le_length {ds : List Char} {n : Nat} (h : Text.Denotes .hexadecimal ds n)
    (hn : 0x7FFFFFFF < n) : 8 ≤ ds.length := by
  by_contra hlt
  have hpow : 16 ^ ds.length ≤ 16 ^ 7 := Nat.pow_le_pow_right (by decide) (by omega)
  have hbound : n < 16 ^ ds.length := h.lt
  omega

theorem exists_of_hexEscape {limit : Nat} (h : hexEscape letter limit text = .error .codeTooLarge) :
    ∃ ds rest n, text = ds ++ rest ∧ 8 ≤ ds.length ∧ ds.length ≤ limit ∧
      Text.Denotes .hexadecimal ds n ∧ 0x7FFFFFFF < n := by
  cases text with
  | nil => cases h
  | cons c text =>
    simp only [hexEscape] at h
    split at h
    · have hprefix : ((c :: text).take limit).takeWhile Text.isHexDigit <+: c :: text :=
        (List.takeWhile_prefix _).trans (List.take_prefix _ _)
      have hdenotes : Text.Denotes .hexadecimal
          (((c :: text).take limit).takeWhile Text.isHexDigit) _ :=
        Text.denotes_ofDigits fun d hd =>
          Text.isHexDigit_iff.mp (List.all_eq_true.mp List.all_takeWhile d hd)
      have hlarge := digitsEscape_eq_codeTooLarge_iff.mp h
      obtain ⟨rest, hrest⟩ := hprefix
      exact ⟨_, rest, _, hrest.symm, eight_le_length hdenotes hlarge,
        (Token.length_takeWhile_le _ _).trans (List.length_take_le _ _), hdenotes, hlarge⟩
    · cases h

theorem escape_eq_codeTooLarge_iff :
    escape letter rest = .error .codeTooLarge ↔ StartsLarge (letter :: rest) := by
  constructor
  · intro h
    unfold escape at h
    split at h
    · cases h
    · split at h
      · -- three octal digits are not enough
        have hlarge := digitsEscape_eq_codeTooLarge_iff.mp h
        have hdenotes : Text.Denotes .octal
            (((letter :: rest).take 3).takeWhile Text.isOctalDigit) _ :=
          Text.denotes_ofDigits fun d hd =>
            Text.isOctalDigit_iff.mp (List.all_eq_true.mp List.all_takeWhile d hd)
        have hle : (((letter :: rest).take 3).takeWhile Text.isOctalDigit).length ≤ 3 :=
          (Token.length_takeWhile_le _ _).trans (List.length_take_le _ _)
        have hlt := Nat.lt_of_lt_of_le hdenotes.lt (Nat.pow_le_pow_right (by decide) hle)
        exact absurd (hlarge.trans hlt) (by decide)
      · split at h
        · obtain ⟨ds, rest, n, -, hlen, hlimit, -⟩ := exists_of_hexEscape h
          omega
        · obtain ⟨ds, rest, n, -, hlen, hlimit, -⟩ := exists_of_hexEscape h
          omega
        · obtain ⟨ds, rest, n, rfl, hlen, hlimit, hdenotes, hlarge⟩ := exists_of_hexEscape h
          exact ⟨ds, rest, n, rfl, Nat.le_antisymm hlimit hlen, hdenotes, hlarge⟩
        · cases h
        · split at h <;> cases h
        · cases h
  · rintro ⟨ds, rest, n, heq, hlen, hdenotes, hlarge⟩
    cases heq
    have hmem : ('U', ds.length) ∈ codeLetters := by
      rw [hlen]
      decide
    rw [escape_hexadecimal hmem hdenotes, codePoint_eq_codeTooLarge_iff.mpr hlarge]
    rfl

/-- A number of more than 31 bits is written where all before it can be decoded. -/
def HasLargeCode (body : List Char) : Prop :=
  ∃ front tail codes, body = front ++ '\\' :: tail ∧ decode front = .ok codes ∧ StartsLarge tail

theorem HasLargeCode.cons {c : Char} (hc : c ≠ '\\') (h : HasLargeCode rest) :
    HasLargeCode (c :: rest) := by
  obtain ⟨front, tail, codes, rfl, hfront, hlarge⟩ := h
  refine ⟨c :: front, tail, c.toNat :: codes, rfl, ?_, hlarge⟩
  rw [decode_cons hc, hfront]
  rfl

theorem HasLargeCode.escape {d : Decoded} (hescape : escape letter rest = .ok d)
    (h : HasLargeCode d.rest) : HasLargeCode ('\\' :: letter :: rest) := by
  obtain ⟨front, tail, codes, hbody, hfront, hlarge⟩ := h
  obtain ⟨used, rfl⟩ := rest_suffix_of_escape hescape
  -- the escape is the same where the text ends in front of the large code
  rw [hbody, ← List.append_assoc, escape_backslash] at hescape
  obtain ⟨d', hd', hd⟩ := Token.map_eq_ok hescape
  have hrest : d'.rest = front := by
    have hrest := congrArg Decoded.rest hd
    rw [hbody] at hrest
    exact List.append_cancel_right hrest
  refine ⟨'\\' :: letter :: (used ++ front), tail, d'.codes ++ codes, ?_, ?_, hlarge⟩
  · rw [hbody]
    simp
  · rw [decode_escape, hd']
    simp only [Except.bind, hrest, hfront]
    rfl

theorem map_eq_error {α β : Type} {f : α → β} {x : Except LiteralError α} {e : LiteralError}
    (h : x.map f = .error e) : x = .error e := by
  cases x with
  | error e' =>
    cases h
    rfl
  | ok a => cases h

theorem decode_eq_codeTooLarge_iff {body : List Char} :
    decode body = .error .codeTooLarge ↔ HasLargeCode body := by
  constructor
  · intro h
    induction body using decode_induct with
    | nil => cases h
    | lone => cases h
    | escape letter rest ih =>
      rw [decode_escape] at h
      cases hescape : escape letter rest with
      | error e =>
        rw [hescape] at h
        cases h
        exact ⟨[], letter :: rest, [], rfl, rfl, escape_eq_codeTooLarge_iff.mp hescape⟩
      | ok d =>
        rw [hescape] at h
        exact (ih d hescape (map_eq_error h)).escape hescape
    | plain c rest hc ih =>
      rw [decode_cons hc] at h
      exact (ih (map_eq_error h)).cons hc
  · rintro ⟨front, tail, codes, rfl, hfront, hlarge⟩
    cases tail with
    | nil =>
      obtain ⟨ds, rest, n, heq, -⟩ := hlarge
      cases heq
    | cons letter rest =>
      rw [decode_append hfront, decode_escape, escape_eq_codeTooLarge_iff.mpr hlarge]
      rfl

theorem string_eq_codeTooLarge_iff :
    string text = .error .codeTooLarge ↔ ∃ body, text = enclose body ∧ HasLargeCode body := by
  constructor
  · intro h
    unfold string at h
    split at h
    · rename_i hform
      simp only [Bool.and_eq_true, decide_eq_true_eq] at hform
      obtain ⟨⟨hlen, hhead⟩, hlast⟩ := hform
      match text, hhead with
      | c :: rest, hhead =>
        cases hhead
        have hne : rest ≠ [] := by
          rintro rfl
          exact absurd hlen (by decide)
        refine ⟨rest.dropLast, ?_, decode_eq_codeTooLarge_iff.mp h⟩
        have hrest : rest.getLast? = some '\x22' := by
          rwa [List.getLast?_cons_of_ne_nil hne] at hlast
        rw [enclose, List.dropLast_append_getLast?]
        exact hrest
    · cases h
  · rintro ⟨body, rfl, h⟩
    rw [string_enclose]
    exact decode_eq_codeTooLarge_iff.mpr h

/-- A character that is written in digits which stand for a number of more than 31 bits. -/
def IsLargeCharacter (text : List Char) : Prop :=
  ∃ c ds n, (c = 'u' ∨ c = 'U') ∧ text = '#' :: '\\' :: c :: ds ∧
    Text.Denotes .hexadecimal ds n ∧ 0x7FFFFFFF < n

theorem character_eq_codeTooLarge_iff :
    character text = .error .codeTooLarge ↔ IsLargeCharacter text := by
  constructor
  · intro h
    obtain ⟨c, d, rest, rfl⟩ : ∃ c d rest, text = '#' :: '\\' :: c :: d :: rest := by
      unfold character at h
      split at h
      · cases h
      · exact ⟨_, _, _, rfl⟩
      · cases h
    rw [character_of_two_le (by simp)] at h
    split at h
    · cases h
    · split at h
      · rename_i hcode
        simp only [List.head?_cons, Option.some.injEq] at hcode
        have hdigits := List.all_eq_true.mp hcode.2
        exact ⟨c, d :: rest, _, hcode.1, rfl, Text.denotes_ofDigits fun x hx =>
          Text.isHexDigit_iff.mp (hdigits x hx), codePoint_eq_codeTooLarge_iff.mp h⟩
      · split at h <;> cases h
  · rintro ⟨c, ds, n, hc, rfl, hdenotes, hlarge⟩
    have hne : ds ≠ [] := by
      rintro rfl
      exact absurd (eight_le_length hdenotes hlarge) (by decide)
    have hvalue : Text.ofDigits 16 ds = n := hdenotes.ofDigits_eq
    rw [character_code hc hne fun d hd => Text.isHexDigit_iff.mpr (hdenotes.1 d hd), hvalue]
    exact codePoint_eq_codeTooLarge_iff.mpr hlarge

end RacketTree.Literal

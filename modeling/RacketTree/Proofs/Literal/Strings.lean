import Mathlib.Data.List.TakeWhile
import RacketTree.Proofs.Literal.Characters

/-!
# String literals

A code point can be spelled in a string as itself, by a letter behind a backslash, or by a fixed
number of digits (`Spells`). The scanner goes past a backslash and one character at a time, so the
digits of a code are plain characters to it (`Spells.stringWidth?_append`); the decoder takes as
many digits as the letter allows (`Spells.decode_append`). Neither looks at what follows a spelling,
and whole strings are read back by induction on their spellings (`string_of_spells`).
-/

namespace RacketTree

/-! ## Extents of strings -/

namespace Token

/-- Neither a backslash nor a quote. -/
def IsInner (c : Char) : Prop :=
  c ≠ '\\' ∧ c ≠ '\x22'

theorem isInner_of_isDigit {r : Number.Radix} {c : Char} (h : Number.Derives.IsDigit r c) :
    IsInner c := by
  have hall : ∀ d ∈ Number.Derives.digits, d ≠ '\\' ∧ d ≠ '\x22' :=
    List.all_iff_forall_prop.mp (by decide)
  have hmem := hall _ (List.mem_of_mem_take h)
  constructor
  · rintro rfl
    exact hmem.1 rfl
  · rintro rfl
    exact hmem.2 rfl

theorem stringWidth?_append_of_isInner {cs : List Char} (h : ∀ c ∈ cs, IsInner c)
    (rest : List Char) :
    stringWidth? (cs ++ rest) = (stringWidth? rest).map (· + cs.length) := by
  induction cs with
  | nil => simp
  | cons c cs ih =>
    obtain ⟨hc, hcs⟩ := List.forall_mem_cons.mp h
    rw [List.cons_append, stringWidth?, if_neg hc.2, ih hcs, Option.map_map]
    · rfl
    · exact hc.1

theorem stringWidth?_escape (c : Char) (rest : List Char) :
    stringWidth? ('\\' :: c :: rest) = (stringWidth? rest).map (· + 2) := by
  rw [stringWidth?]

theorem extent_string {rest : List Char} {n : Nat} (h : stringWidth? rest = some n) :
    extent '\x22' rest = .ok (.plain .string (n + 1)) := by
  unfold extent
  rw [if_neg (by decide +kernel), if_neg (by decide), if_neg (by decide)]
  simp only [h]

theorem extent_byteString {rest : List Char} {n : Nat} (h : stringWidth? rest = some n) :
    extent '#' ('\x22' :: rest) = .ok (.plain .byteString (n + 2)) := by
  unfold extent
  rw [if_neg (by decide +kernel), if_neg (by decide), if_neg (by decide)]
  simp only [hashExtent, h]

/-- What is scanned at an offset is decided by the text from there on. -/
theorem scan_append {before text after : List Char} {c : Char} {kind : Kind}
    (h : extent c (text ++ after) = .ok (.plain kind (c :: text).length)) :
    scan (before ++ c :: text ++ after) before.length =
      .ok ⟨⟨kind, c :: text, none⟩, before.length⟩ := by
  have hcut : cut (.plain kind (c :: text).length) (c :: (text ++ after)) =
      ⟨kind, c :: text, none⟩ := by
    simp [cut, Extent.plain]
  rw [scan, List.append_assoc, List.drop_left, List.cons_append]
  simp only [h, hcut]

end Token

namespace Literal

/-! ## Steps of the decoder -/

theorem digitsEscape_eq (isDigit : Char → Bool) (radix limit : Nat) (text : List Char) :
    digitsEscape isDigit radix limit text =
      (codePoint (Text.ofDigits radix ((text.take limit).takeWhile isDigit))).map fun code =>
        ⟨[code], text.drop ((text.take limit).takeWhile isDigit).length⟩ := by
  simp only [digitsEscape]
  cases codePoint (Text.ofDigits radix ((text.take limit).takeWhile isDigit)) <;> rfl

theorem rest_of_digitsEscape {isDigit : Char → Bool} {radix limit : Nat} {text : List Char}
    {d : Decoded} (h : digitsEscape isDigit radix limit text = .ok d) :
    d.rest = text.drop ((text.take limit).takeWhile isDigit).length := by
  rw [digitsEscape_eq] at h
  obtain ⟨code, -, rfl⟩ := Token.map_eq_ok h
  rfl

theorem rest_suffix_of_hexEscape {letter : Char} {limit : Nat} {text : List Char} {d : Decoded}
    (h : hexEscape letter limit text = .ok d) : d.rest <:+ text := by
  unfold hexEscape at h
  split at h
  · split at h
    · rw [rest_of_digitsEscape h]
      exact List.drop_suffix _ _
    · cases h
  · cases h

/-- An escape leaves an end of what stands behind its letter. -/
theorem rest_suffix_of_escape {letter : Char} {rest : List Char} {d : Decoded}
    (h : escape letter rest = .ok d) : d.rest <:+ rest := by
  have hindent : ∀ text, dropIndent text <:+ text := fun _ => List.dropWhile_suffix _
  unfold escape at h
  split at h
  · cases h
    exact List.suffix_rfl
  · split at h
    · -- the letter is itself a digit of the code
      rename_i hoctal
      rw [rest_of_digitsEscape h, List.take_succ_cons, List.takeWhile_cons_of_pos hoctal,
        List.length_cons, List.drop_succ_cons]
      exact List.drop_suffix _ _
    · split at h
      · exact rest_suffix_of_hexEscape h
      · exact rest_suffix_of_hexEscape h
      · exact rest_suffix_of_hexEscape h
      · cases h
        exact hindent rest
      · split at h
        · cases h
          exact (hindent _).trans (List.suffix_cons _ _)
        · cases h
          exact hindent _
      · cases h

/-- Any bound that the text keeps within is as good as another. -/
theorem decodeSteps_eq_decode {steps : Nat} {text : List Char} (h : text.length ≤ steps) :
    decodeSteps steps text = decode text := by
  suffices hsteps : ∀ m n (text : List Char), text.length ≤ m → text.length ≤ n →
      decodeSteps m text = decodeSteps n text from hsteps _ _ _ h (Nat.le_refl _)
  intro m
  induction m with
  | zero =>
    intro n text hm _
    rw [List.eq_nil_of_length_eq_zero (Nat.le_zero.mp hm)]
    cases n <;> rfl
  | succ m ih =>
    intro n text hm hn
    match n, text with
    | 0, [] => rfl
    | n + 1, [] => rfl
    | n + 1, c :: rest =>
      simp only [List.length_cons, Nat.succ_le_succ_iff] at hm hn
      by_cases hc : c = '\\'
      · subst hc
        cases rest with
        | nil => rfl
        | cons letter rest =>
          simp only [List.length_cons] at hm hn
          rw [decodeSteps, decodeSteps]
          cases hescape : escape letter rest with
          | error e => rfl
          | ok d =>
            have hrest := (rest_suffix_of_escape hescape).length_le
            simp only [bind, Except.bind, ih n d.rest (by omega) (by omega)]
      · rw [decodeSteps, decodeSteps, ih n rest hm hn] <;> exact hc

@[simp]
theorem decode_nil : decode [] = .ok [] :=
  rfl

theorem decode_cons {c : Char} (hc : c ≠ '\\') (rest : List Char) :
    decode (c :: rest) = (decode rest).map (c.toNat :: ·) := by
  rw [decode, List.length_cons, decodeSteps, decodeSteps_eq_decode (Nat.le_refl _)]
  · cases decode rest <;> rfl
  · exact hc

theorem decode_escape (letter : Char) (rest : List Char) :
    decode ('\\' :: letter :: rest) =
      (escape letter rest).bind fun d => (decode d.rest).map (d.codes ++ ·) := by
  rw [decode, List.length_cons, decodeSteps]
  cases hescape : escape letter rest with
  | error e => rfl
  | ok d =>
    have hle : d.rest.length ≤ (letter :: rest).length :=
      (rest_suffix_of_escape hescape).length_le.trans (Nat.le_succ _)
    simp only [bind, Except.bind, decodeSteps_eq_decode hle]
    cases decode d.rest <;> rfl

/-! ## Spellings -/

/-- The letters that stand for a code point behind a backslash. -/
def escapeLetters : List (Char × Nat) :=
  [('a', 7), ('b', 8), ('t', 9), ('n', 10), ('v', 11), ('f', 12), ('r', 13), ('e', 27),
    ('\x22', 34), ('\x27', 39), ('\\', 92)]

/-- The letters that stand before the hexadecimal digits of a code, with the number of digits. -/
def codeLetters : List (Char × Nat) :=
  [('x', 2), ('u', 4), ('U', 8)]

/-- The ways to write a code point in a string. -/
inductive Spells : Nat → List Char → Prop
  | plain {c : Char} (hslash : c ≠ '\\') (hquote : c ≠ '\x22') : Spells c.toNat [c]
  | letter {c : Char} {code : Nat} (h : (c, code) ∈ escapeLetters) : Spells code ['\\', c]
  | octal {ds : List Char} {code : Nat} (hlen : ds.length = 3) (h : Text.Denotes .octal ds code) :
      Spells code ('\\' :: ds)
  | hexadecimal {c : Char} {ds : List Char} {code : Nat} (hc : (c, ds.length) ∈ codeLetters)
      (h : Text.Denotes .hexadecimal ds code) : Spells code ('\\' :: c :: ds)

theorem simpleEscape?_of_mem {c : Char} {code : Nat} (h : (c, code) ∈ escapeLetters) :
    simpleEscape? c = some code := by
  have hall : ∀ entry ∈ escapeLetters, simpleEscape? entry.1 = some entry.2 := by decide
  exact hall _ h

theorem simpleEscape?_of_isOctalDigit {c : Char} (h : Text.isOctalDigit c = true) :
    simpleEscape? c = none := by
  have hall : ∀ c ∈ ['0', '1', '2', '3', '4', '5', '6', '7'], simpleEscape? c = none :=
    List.all_iff_forall_prop.mp (by decide)
  exact hall c (Token.mem_of_isOctalDigit h)

theorem escape_of_isOctalDigit {c : Char} (h : Text.isOctalDigit c = true) (rest : List Char) :
    escape c rest = digitsEscape Text.isOctalDigit 8 3 (c :: rest) := by
  unfold escape
  rw [simpleEscape?_of_isOctalDigit h]
  exact if_pos h

theorem escape_of_mem_codeLetters {c : Char} {limit : Nat} (h : (c, limit) ∈ codeLetters)
    (rest : List Char) : escape c rest = hexEscape c limit rest := by
  simp only [codeLetters, List.mem_cons, Prod.mk.injEq, List.not_mem_nil, or_false] at h
  rcases h with ⟨rfl, rfl⟩ | ⟨rfl, rfl⟩ | ⟨rfl, rfl⟩ <;> rfl

/-- Where the limit is reached, what follows the digits does not count. -/
theorem digitsEscape_append {isDigit : Char → Bool} (radix : Nat) {ds : List Char}
    (h : ∀ d ∈ ds, isDigit d = true) (rest : List Char) :
    digitsEscape isDigit radix ds.length (ds ++ rest) =
      (codePoint (Text.ofDigits radix ds)).map fun code => ⟨[code], rest⟩ := by
  rw [digitsEscape_eq, List.take_left, List.takeWhile_eq_self_iff.mpr h, List.drop_left]

theorem escape_octal {d : Char} {ds : List Char} {code : Nat} (hlen : (d :: ds).length = 3)
    (h : Text.Denotes .octal (d :: ds) code) (rest : List Char) :
    escape d (ds ++ rest) = (codePoint code).map fun code => ⟨[code], rest⟩ := by
  have hdigits : ∀ x ∈ d :: ds, Text.isOctalDigit x = true := fun x hx =>
    Text.isOctalDigit_iff.mpr (h.1 x hx)
  have hvalue : Text.ofDigits 8 (d :: ds) = code := h.ofDigits_eq
  have htake := digitsEscape_append 8 hdigits rest
  rw [hlen, hvalue] at htake
  rw [escape_of_isOctalDigit (hdigits d List.mem_cons_self)]
  exact htake

theorem escape_hexadecimal {c : Char} {ds : List Char} {code : Nat}
    (hc : (c, ds.length) ∈ codeLetters) (h : Text.Denotes .hexadecimal ds code)
    (rest : List Char) :
    escape c (ds ++ rest) = (codePoint code).map fun code => ⟨[code], rest⟩ := by
  have hdigits : ∀ x ∈ ds, Text.isHexDigit x = true := fun x hx =>
    Text.isHexDigit_iff.mpr (h.1 x hx)
  have hvalue : Text.ofDigits 16 ds = code := h.ofDigits_eq
  have htake := digitsEscape_append 16 hdigits rest
  rw [hvalue] at htake
  rw [escape_of_mem_codeLetters hc]
  cases ds with
  | nil => simp [codeLetters] at hc
  | cons d ds => exact (if_pos (hdigits d List.mem_cons_self)).trans htake

/-- A spelling is decoded on its own, whatever follows. -/
theorem Spells.decode_append {code : Nat} {part : List Char} (h : Spells code part)
    (hcode : code < 0x110000) (rest : List Char) :
    decode (part ++ rest) = (decode rest).map (code :: ·) := by
  cases h with
  | plain hslash _ => exact decode_cons hslash rest
  | letter h =>
    simp only [List.cons_append, List.nil_append, decode_escape, escape, simpleEscape?_of_mem h]
    rfl
  | octal hlen h =>
    rename_i ds
    match ds, hlen with
    | d :: ds, hlen =>
      simp only [List.cons_append, decode_escape, escape_octal hlen h, codePoint_of_lt hcode]
      rfl
  | hexadecimal hc h =>
    simp only [List.cons_append, decode_escape, escape_hexadecimal hc h, codePoint_of_lt hcode]
    rfl

theorem decode_spells {codes : List Nat} {parts : List (List Char)}
    (h : List.Forall₂ Spells codes parts) (hcodes : ∀ code ∈ codes, code < 0x110000) :
    decode parts.flatten = .ok codes := by
  induction h with
  | nil => rfl
  | cons hpart _ ih =>
    obtain ⟨hcode, hcodes⟩ := List.forall_mem_cons.mp hcodes
    rw [List.flatten_cons, hpart.decode_append hcode, ih hcodes]
    rfl

/-- A spelling is passed as a whole, whatever follows. -/
theorem Spells.stringWidth?_append {code : Nat} {part : List Char} (h : Spells code part)
    (rest : List Char) :
    Token.stringWidth? (part ++ rest) = (Token.stringWidth? rest).map (· + part.length) := by
  have hescape : ∀ (c : Char) {r : Number.Radix} {ds : List Char},
      (∀ d ∈ ds, Number.Derives.IsDigit r d) →
      Token.stringWidth? (('\\' :: c :: ds) ++ rest) =
        (Token.stringWidth? rest).map (· + ('\\' :: c :: ds).length) := by
    intro c r ds hds
    rw [List.cons_append, List.cons_append, Token.stringWidth?_escape,
      Token.stringWidth?_append_of_isInner fun d hd => Token.isInner_of_isDigit (hds d hd),
      Option.map_map]
    rfl
  cases h with
  | plain hslash hquote =>
    exact Token.stringWidth?_append_of_isInner (List.forall_mem_singleton.mpr ⟨hslash, hquote⟩) rest
  | letter _ => exact Token.stringWidth?_escape _ rest
  | octal hlen h =>
    rename_i ds
    match ds, hlen with
    | d :: ds, _ => exact hescape d fun x hx => h.1 x (List.mem_cons_of_mem d hx)
  | hexadecimal _ h => exact hescape _ h.1

theorem stringWidth?_spells {codes : List Nat} {parts : List (List Char)}
    (h : List.Forall₂ Spells codes parts) (after : List Char) :
    Token.stringWidth? (parts.flatten ++ '\x22' :: after) = some (parts.flatten.length + 1) := by
  induction h with
  | nil => rfl
  | @cons code part codes parts hpart _ ih =>
    rw [List.flatten_cons, List.append_assoc, hpart.stringWidth?_append, ih, List.length_append,
      Option.map_some]
    congr 1
    omega

/-! ## Strings -/

/-- The text between quotes. -/
def enclose (body : List Char) : List Char :=
  '\x22' :: (body ++ ['\x22'])

theorem string_enclose (body : List Char) : string (enclose body) = decode body := by
  have hform : (2 ≤ (enclose body).length && (enclose body).head? = some '\x22' &&
      (enclose body).getLast? = some '\x22') = true := by
    simp [List.getLast?_cons, enclose]
  have hbody : ((enclose body).drop 1).dropLast = body := List.dropLast_concat
  rw [string, if_pos hform, hbody]

theorem bytes_enclose (body : List Char) :
    bytes ('#' :: enclose body) =
      (decode body).bind fun codes =>
        if ∀ code ∈ codes, code < 0x100 then .ok codes
        else .error (.notBytes ('#' :: enclose body)) := by
  have hform : (['#', '\x22'].isPrefixOf ('#' :: enclose body) &&
      3 ≤ ('#' :: enclose body).length && ('#' :: enclose body).getLast? = some '\x22') = true := by
    simp [List.getLast?_cons, enclose]
  have hbody : (('#' :: enclose body).drop 2).dropLast = body := List.dropLast_concat
  rw [bytes, if_pos hform, hbody]
  cases decode body with
  | error e => rfl
  | ok codes => exact ite_congr (by simp) (fun _ => rfl) fun _ => rfl

/-- A string is scanned and decoded as it was spelled, whatever stands before and after it. With `#`
in front it is a byte string, and is decoded if its codes are bytes. -/
theorem string_of_spells {codes : List Nat} {parts : List (List Char)}
    (h : List.Forall₂ Spells codes parts) (hcodes : ∀ code ∈ codes, code < 0x110000)
    (before after : List Char) :
    (Token.scan (before ++ enclose parts.flatten ++ after) before.length =
        .ok ⟨⟨.string, enclose parts.flatten, none⟩, before.length⟩ ∧
      string (enclose parts.flatten) = .ok codes) ∧
    (Token.scan (before ++ '#' :: enclose parts.flatten ++ after) before.length =
        .ok ⟨⟨.byteString, '#' :: enclose parts.flatten, none⟩, before.length⟩ ∧
      bytes ('#' :: enclose parts.flatten) =
        if ∀ code ∈ codes, code < 0x100 then .ok codes
        else .error (.notBytes ('#' :: enclose parts.flatten))) := by
  have hdecode := decode_spells h hcodes
  have hwidth : Token.stringWidth? ((parts.flatten ++ ['\x22']) ++ after) =
      some (parts.flatten.length + 1) := by
    rw [List.append_assoc]
    exact stringWidth?_spells h after
  refine ⟨⟨Token.scan_append ?_, ?_⟩, Token.scan_append ?_, ?_⟩
  · simpa using Token.extent_string hwidth
  · rw [string_enclose, hdecode]
  · simpa [enclose] using Token.extent_byteString hwidth
  · rw [bytes_enclose, hdecode]
    rfl

/-- A smiling face and a line break in front of a digit. -/
theorem string_of_spells_face :
    Token.scan "\"\\U0001f600\\n\"1".toList 0 =
        .ok ⟨⟨.string, "\"\\U0001f600\\n\"".toList, none⟩, 0⟩ ∧
      string "\"\\U0001f600\\n\"".toList = .ok [0x1F600, 10] ∧
      bytes "#\"\\U0001f600\\n\"".toList =
        .error (.notBytes "#\"\\U0001f600\\n\"".toList) := by
  have hface : Spells 0x1F600 "\\U0001f600".toList :=
    .hexadecimal (by decide) ⟨List.all_iff_forall_prop.mp (by decide +kernel), by decide +kernel⟩
  have hspells : List.Forall₂ Spells [0x1F600, 10] ["\\U0001f600".toList, "\\n".toList] :=
    .cons hface (.cons (.letter (by decide)) .nil)
  obtain ⟨⟨hscan, hstring⟩, -, hbytes⟩ := string_of_spells hspells (by decide) [] ['1']
  exact ⟨hscan, hstring, hbytes⟩

end Literal

end RacketTree

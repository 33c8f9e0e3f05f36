import RacketTree.Proofs.Number.Integers
import RacketTree.Proofs.Token.Closed

/-!
# Character literals

The scanner tells where a character literal ends from what follows `#\`: a code in hexadecimal or
octal digits, a run of letters, or any single character. `exists_characterBody` lists the texts that
it can take and the fault that it notes. The decoder sees the text alone, and tries names first,
then codes.

Both agree on whether the literal is a character (`character_agrees`), with one exception: eight
digits behind `#\U` can name a number beyond the code points. The scanner notes no fault there, and
the decoder has no character to give.
-/

namespace RacketTree

open Number (Radix)
open Number.Derives (digits IsDigit)

/-! ## Codes in digits -/

namespace Text

variable {c : Char} {cs : List Char} {n : Nat}

/-- The characters are digits of the radix that stand for the number. -/
def Denotes (r : Radix) (cs : List Char) (n : Nat) : Prop :=
  (∀ c ∈ cs, IsDigit r c) ∧
    Nat.ofDigits r.value (cs.map fun c => digits.idxOf c.toLower).reverse = n

theorem isHexDigit_iff : isHexDigit c = true ↔ IsDigit .hexadecimal c :=
  Number.Derives.isDigit_iff (r := .hexadecimal)

theorem isOctalDigit_iff : isOctalDigit c = true ↔ IsDigit .octal c :=
  Number.Derives.isDigit_iff (r := .octal)

theorem digitValue_eq {r : Radix} (h : IsDigit r c) : digitValue c = digits.idxOf c.toLower := by
  refine Number.forall_ascii (p := fun c => c.toLower ∈ digits →
    digitValue c = digits.idxOf c.toLower) ?_ h.isAscii (List.mem_of_mem_take h)
  decide +kernel

theorem ofDigits_eq {r : Radix} (h : ∀ c ∈ cs, IsDigit r c) :
    ofDigits r.value cs =
      Nat.ofDigits r.value (cs.map fun c => digits.idxOf c.toLower).reverse := by
  have hvalues : cs.map digitValue = cs.map fun c => digits.idxOf c.toLower :=
    List.map_congr_left fun c hc => digitValue_eq (h c hc)
  rw [← hvalues, ← Number.ofDigits_eq, Number.ofDigits, List.foldl_map]
  rfl

theorem denotes_ofDigits {r : Radix} (h : ∀ c ∈ cs, IsDigit r c) :
    Denotes r cs (ofDigits r.value cs) :=
  ⟨h, (ofDigits_eq h).symm⟩

theorem Denotes.ofDigits_eq {r : Radix} (h : Denotes r cs n) : ofDigits r.value cs = n :=
  (Text.ofDigits_eq h.1).trans h.2

theorem Denotes.lt {r : Radix} (h : Denotes r cs n) : n < r.value ^ cs.length := by
  obtain ⟨hdigits, rfl⟩ := h
  have hradix : 1 < r.value := by
    cases r <;> decide
  have hlt : ∀ v ∈ (cs.map fun c => digits.idxOf c.toLower).reverse, v < r.value := by
    intro v hv
    obtain ⟨c, hc, rfl⟩ := List.mem_map.mp (List.mem_reverse.mp hv)
    exact (List.mem_take_iff_idxOf_lt (List.mem_of_mem_take (hdigits c hc))).mp (hdigits c hc)
  have hbound := Nat.ofDigits_lt_base_pow_length hradix hlt
  rwa [List.length_reverse, List.length_map] at hbound

theorem toNat_lt (c : Char) : c.toNat < 0x110000 := by
  have hvalid : c.toNat.isValidChar := c.valid
  unfold Nat.isValidChar at hvalid
  omega

/-! ## Names -/

/-- Only a text that begins as a name does is one. -/
theorem namedChar?_eq_none (h : lower c ∉ charNames.filterMap (·.1.toList.head?)) :
    namedChar? (c :: cs) = none := by
  rw [namedChar?, Option.map_eq_none_iff, List.find?_eq_none]
  intro entry hentry heq
  have hname : entry.1.toList = lower c :: cs.map lower := eq_of_beq heq
  refine h (List.mem_filterMap.mpr ⟨entry, hentry, ?_⟩)
  rw [hname]
  rfl

theorem namedChar?_lt {word : List Char} {code : Nat} (h : namedChar? word = some code) :
    code < 0x110000 := by
  obtain ⟨entry, hentry, rfl⟩ := Option.map_eq_some_iff.mp h
  have hall : ∀ entry ∈ charNames, entry.2 < 0x110000 := by decide
  exact hall entry (List.mem_of_find?_eq_some hentry)

theorem not_isLetter_of_isOctalDigit (h : isOctalDigit c = true) : isLetter c = false := by
  have hall : ∀ c ∈ ['0', '1', '2', '3', '4', '5', '6', '7'], isLetter c = false :=
    Token.eq_false_of_all (by decide +kernel)
  exact hall c (Token.mem_of_isOctalDigit h)

theorem namedChar?_of_isOctalDigit (h : isOctalDigit c = true) :
    namedChar? (c :: cs) = none := by
  have hall : ∀ c ∈ ['0', '1', '2', '3', '4', '5', '6', '7'],
      lower c ∉ charNames.filterMap (·.1.toList.head?) :=
    List.all_iff_forall_prop.mp (by decide +kernel)
  exact namedChar?_eq_none (hall c (Token.mem_of_isOctalDigit h))

theorem namedChar?_of_u (h : c = 'u' ∨ c = 'U') : namedChar? (c :: cs) = none := by
  apply namedChar?_eq_none
  rcases h with rfl | rfl <;> decide +kernel

end Text

/-! ## What the scanner takes -/

namespace Token

/-- The texts of character literals behind `#\`, with the fault that is noted. -/
inductive CharacterBody : List Char → Option Fault → Prop
  | code {c : Char} {ds : List Char} (hc : c = 'u' ∧ ds.length ≤ 4 ∨ c = 'U' ∧ ds.length ≤ 8)
      (hne : ds ≠ []) (hdigits : ∀ d ∈ ds, Text.isHexDigit d = true) :
      CharacterBody (c :: ds) none
  | octal {x y z : Char} (h : ∀ d ∈ [x, y, z], Text.isOctalDigit d = true) :
      CharacterBody [x, y, z] none
  /-- A run of letters that has not been taken for a code. -/
  | word {c : Char} {rest : List Char} (hletters : ∀ d ∈ c :: rest, Text.isLetter d = true)
      (hcode : c = 'u' ∨ c = 'U' → ∀ d ∈ rest.head?, Text.isHexDigit d = false) :
      CharacterBody (c :: rest) (wordFault (c :: rest))
  | single (c : Char) : CharacterBody [c] none

theorem take_length_takeWhile_take (p : Char → Bool) (n : Nat) (cs : List Char) :
    cs.take ((cs.take n).takeWhile p).length = (cs.take n).takeWhile p :=
  (List.prefix_iff_eq_take.mp ((List.takeWhile_prefix p).trans (List.take_prefix n cs))).symm

/-- Where no code is taken for a literal, no hexadecimal digit follows `u`. -/
theorem not_isHexDigit_of_hexDigits {c d : Char} {rest : List Char} (h : hexDigits c rest = [])
    (hd : d ∈ rest.head?) : Text.isHexDigit d = false := by
  cases rest with
  | nil => cases hd
  | cons x rest =>
    cases hd
    by_contra hhex
    rw [Bool.not_eq_false] at hhex
    unfold hexDigits at h
    split at h <;> simp [hhex] at h

theorem head?_takeWhile {p : Char → Bool} {cs : List Char} {d : Char}
    (h : d ∈ (cs.takeWhile p).head?) : d ∈ cs.head? := by
  cases cs with
  | nil => cases h
  | cons c cs =>
    rw [List.takeWhile_cons] at h
    split at h
    · exact h
    · cases h

theorem characterBody_hexDigits {c : Char} {rest : List Char} (hc : c = 'u' ∨ c = 'U')
    (hne : hexDigits c rest ≠ []) : CharacterBody (c :: hexDigits c rest) none := by
  refine .code ?_ hne (List.all_eq_true.mp List.all_takeWhile)
  have hle : (hexDigits c rest).length ≤ if c = 'u' then 4 else 8 :=
    (length_takeWhile_le _ _).trans (List.length_take_le _ _)
  rcases hc with rfl | rfl
  · exact .inl ⟨rfl, hle⟩
  · exact .inr ⟨rfl, hle⟩

theorem characterBody_octalCode {c : Char} {rest : List Char} (h : isOctalCode c rest = true) :
    CharacterBody ((c :: rest).take 3) none := by
  match rest, two_le_length_of_isOctalCode h with
  | a :: b :: rest, _ =>
    simp only [isOctalCode, Bool.and_eq_true, decide_eq_true_eq] at h
    have hc : Text.isOctalDigit c = true := by
      simp only [Text.isOctalDigit, Bool.and_eq_true, decide_eq_true_eq]
      exact ⟨h.1.1, Char.le_trans h.1.2 (by decide)⟩
    exact .octal (by simp [hc, h.2.1, h.2.2])

theorem characterBody_of_extent {cs : List Char} {e : Extent} (h : characterExtent cs = .ok e) :
    CharacterBody (cs.take (e.width - 2)) e.fault := by
  cases cs with
  | nil => cases h
  | cons c rest =>
    rw [characterExtent_cons] at h
    have htake : ∀ n, (c :: rest).take (3 + n - 2) = c :: rest.take n := by
      intro n
      rw [show 3 + n - 2 = n + 1 by omega, List.take_succ_cons]
    split at h
    · rename_i hcode
      simp only [Bool.and_eq_true, Bool.or_eq_true, decide_eq_true_eq, Bool.not_eq_true',
        List.isEmpty_eq_false_iff] at hcode
      cases h
      have hbody : rest.take (hexDigits c rest).length = hexDigits c rest :=
        take_length_takeWhile_take _ _ _
      simp only [Extent.plain, htake, hbody]
      exact characterBody_hexDigits hcode.1 hcode.2
    rename_i hcode
    split at h
    · rename_i hoctal
      cases h
      exact characterBody_octalCode hoctal
    split at h
    · rename_i hletter
      cases h
      have hbody : rest.take (rest.takeWhile Text.isLetter).length = rest.takeWhile Text.isLetter :=
        (List.prefix_iff_eq_take.mp (List.takeWhile_prefix _)).symm
      simp only [htake, hbody]
      refine .word ?_ ?_
      · rw [List.forall_mem_cons]
        exact ⟨hletter, List.all_eq_true.mp List.all_takeWhile⟩
      · intro hc d hd
        refine not_isHexDigit_of_hexDigits (c := c) ?_ (head?_takeWhile hd)
        simpa [hc] using hcode
    · cases h
      exact .single c

/-- What a scanned character literal can be. -/
theorem exists_characterBody {source : List Char} {offset : Nat} {t : Token}
    (h : scan source offset = .ok t) (hk : t.kind = .character) :
    ∃ body, t.text = '#' :: '\\' :: body ∧ CharacterBody body t.fault := by
  unfold scan at h
  split at h
  · cases h
  · rename_i c rest hdrop
    split at h
    · rename_i e he
      cases h
      obtain ⟨rfl, tail, rfl, hextent⟩ := extent_character he hk
      refine ⟨tail.take (e.width - 2), ?_, characterBody_of_extent hextent⟩
      have hthree := characterExtent_three_le hextent
      obtain ⟨n, hn⟩ : ∃ n, e.width = n + 2 := ⟨e.width - 2, by omega⟩
      simp [cut, hn]
    · cases h

end Token

/-! ## What the decoder makes of it -/

namespace Literal

variable {c : Char} {ds : List Char} {n : Nat}

theorem codePoint_of_lt (h : n < 0x110000) : codePoint n = .ok n :=
  if_pos h

theorem codePoint_of_le (h : 0x110000 ≤ n) :
    codePoint n = .error (if n ≤ 0x7FFFFFFF then .notCodePoint else .codeTooLarge) := by
  rw [codePoint, if_neg (Nat.not_lt.mpr h)]
  split <;> rfl

/-- A literal of several characters is a name, a code or no character. -/
theorem character_of_two_le {body : List Char} (h : 2 ≤ body.length) :
    character ('#' :: '\\' :: body) =
      match Text.namedChar? body with
      | some code => .ok code
      | none =>
        if (body.head? = some 'u' ∨ body.head? = some 'U') ∧
            body.tail.all Text.isHexDigit = true then
          codePoint (Text.ofDigits 16 body.tail)
        else if body.length = 3 ∧ body.all Text.isOctalDigit = true then
          .ok (Text.ofDigits 8 body)
        else .error (.badCharacter ('#' :: '\\' :: body)) := by
  match body, h with
  | c :: d :: rest, _ =>
    rw [character]
    cases Text.namedChar? (c :: d :: rest) with
    | some code => rfl
    | none =>
      dsimp only
      refine ite_congr (by simp) (fun _ => rfl) fun _ =>
        ite_congr (by simp) (fun _ => rfl) fun _ => rfl

/-- The text is `#\U` with digits that stand for the number. -/
def IsLongCode (text : List Char) (n : Nat) : Prop :=
  ∃ ds, ds ≠ [] ∧ Text.Denotes .hexadecimal ds n ∧ text = '#' :: '\\' :: 'U' :: ds

theorem character_code (hc : c = 'u' ∨ c = 'U') (hne : ds ≠ [])
    (hdigits : ∀ d ∈ ds, Text.isHexDigit d = true) :
    character ('#' :: '\\' :: c :: ds) = codePoint (Text.ofDigits 16 ds) := by
  have hlen : 2 ≤ (c :: ds).length := Nat.succ_le_succ (List.length_pos_iff.mpr hne)
  rw [character_of_two_le hlen, Text.namedChar?_of_u hc]
  exact if_pos ⟨by simpa using hc, List.all_eq_true.mpr hdigits⟩

theorem IsLongCode.character_eq {text : List Char} (h : IsLongCode text n) :
    character text = codePoint n := by
  obtain ⟨ds, hne, hdenotes, rfl⟩ := h
  have hdigits : ∀ d ∈ ds, Text.isHexDigit d = true := fun d hd =>
    Text.isHexDigit_iff.mpr (hdenotes.1 d hd)
  have hvalue : Text.ofDigits 16 ds = n := hdenotes.ofDigits_eq
  rw [character_code (.inr rfl) hne hdigits, hvalue]

/-- What is said of a literal by the fault that the scanner has noted and by the decoder. -/
inductive Verdict (text : List Char) : Option Fault → Prop
  | good {code : Nat} (hcode : code < 0x110000) (h : character text = .ok code) : Verdict text none
  | bad (h : character text = .error (.badCharacter text)) : Verdict text (some .badCharacter)
  | beyond {n : Nat} (hn : 0x110000 ≤ n) (h : IsLongCode text n) : Verdict text none

theorem verdict_code (hc : c = 'u' ∧ ds.length ≤ 4 ∨ c = 'U' ∧ ds.length ≤ 8) (hne : ds ≠ [])
    (hdigits : ∀ d ∈ ds, Text.isHexDigit d = true) : Verdict ('#' :: '\\' :: c :: ds) none := by
  have hdenotes : Text.Denotes .hexadecimal ds (Text.ofDigits 16 ds) :=
    Text.denotes_ofDigits fun d hd => Text.isHexDigit_iff.mp (hdigits d hd)
  have hcharacter := character_code (hc.imp And.left And.left) hne hdigits
  by_cases hlt : Text.ofDigits 16 ds < 0x110000
  · exact .good hlt (hcharacter.trans (codePoint_of_lt hlt))
  · rcases hc with ⟨rfl, hlen⟩ | ⟨rfl, -⟩
    · -- four digits name no number beyond the code points
      have hfour : Text.ofDigits 16 ds < 16 ^ 4 :=
        Nat.lt_of_lt_of_le hdenotes.lt (Nat.pow_le_pow_right (by decide) hlen)
      exact absurd (Nat.lt_of_lt_of_le hfour (by decide)) hlt
    · exact .beyond (Nat.le_of_not_lt hlt) ⟨ds, hne, hdenotes, rfl⟩

theorem verdict_octal {x y z : Char} (h : ∀ d ∈ [x, y, z], Text.isOctalDigit d = true) :
    Verdict ['#', '\\', x, y, z] none := by
  have hx := h x List.mem_cons_self
  have hdenotes : Text.Denotes .octal [x, y, z] (Text.ofDigits 8 [x, y, z]) :=
    Text.denotes_ofDigits fun d hd => Text.isOctalDigit_iff.mp (h d hd)
  have hu : ¬(x = 'u' ∨ x = 'U') := by
    rintro (rfl | rfl) <;> cases hx
  have hhex : ¬((x = 'u' ∨ x = 'U') ∧ [y, z].all Text.isHexDigit = true) :=
    fun hcode => hu hcode.1
  refine .good (Nat.lt_of_lt_of_le hdenotes.lt (by simp [Number.Radix.value])) ?_
  rw [character_of_two_le (by simp), Text.namedChar?_of_isOctalDigit hx]
  simp only [List.head?_cons, Option.some.injEq, List.tail_cons, if_neg hhex]
  exact if_pos ⟨rfl, List.all_eq_true.mpr h⟩

theorem verdict_word {rest : List Char} (hletters : ∀ d ∈ c :: rest, Text.isLetter d = true)
    (hcode : c = 'u' ∨ c = 'U' → ∀ d ∈ rest.head?, Text.isHexDigit d = false) :
    Verdict ('#' :: '\\' :: c :: rest) (Token.wordFault (c :: rest)) := by
  cases rest with
  | nil => exact .good (Text.toNat_lt c) rfl
  | cons d rest =>
    have htwo : 2 ≤ (c :: d :: rest).length := by simp
    have hcharacter := character_of_two_le htwo
    cases hname : Text.namedChar? (c :: d :: rest) with
    | some code =>
      rw [Token.wordFault, hname, Option.isSome_some, Bool.or_true, if_pos rfl]
      exact .good (Text.namedChar?_lt hname) (by rw [hcharacter, hname])
    | none =>
      have hfault : Token.wordFault (c :: d :: rest) = some .badCharacter := by
        simp [Token.wordFault, hname]
      -- neither the hexadecimal nor the octal form fits a run of letters
      have hhex : ¬((c = 'u' ∨ c = 'U') ∧ (d :: rest).all Text.isHexDigit = true) := by
        rintro ⟨hc, hall⟩
        exact absurd (List.all_eq_true.mp hall d List.mem_cons_self) (by simp [hcode hc d rfl])
      have hoctal : ¬(c :: d :: rest).all Text.isOctalDigit = true := by
        intro hall
        have hc := List.all_eq_true.mp hall c List.mem_cons_self
        have hno := Text.not_isLetter_of_isOctalDigit hc
        exact absurd (hletters c List.mem_cons_self) (by simp [hno])
      rw [hfault]
      refine .bad ?_
      rw [hcharacter, hname]
      simp only [List.head?_cons, Option.some.injEq, List.tail_cons, if_neg hhex]
      exact if_neg fun h => hoctal h.2

theorem verdict_characterBody {body : List Char} {fault : Option Fault}
    (h : Token.CharacterBody body fault) : Verdict ('#' :: '\\' :: body) fault := by
  cases h with
  | code hc hne hdigits => exact verdict_code hc hne hdigits
  | octal h => exact verdict_octal h
  | word hletters hcode => exact verdict_word hletters hcode
  | single c => exact .good (Text.toNat_lt c) rfl

/-- A scanned literal stands for a character if and only if no fault has been noted and it is not
`#\U` with a number beyond the code points. Where a fault has been noted, the decoder says that the
literal is bad; where the number lies beyond, no fault has been noted and the decoder fails in one
of two ways. -/
theorem character_agrees {source : List Char} {offset : Nat} {t : Token}
    (h : Token.scan source offset = .ok t) (hk : t.kind = .character) :
    ((∃ code < 0x110000, character t.text = .ok code) ↔
      t.fault = none ∧ ¬∃ n, 0x110000 ≤ n ∧ IsLongCode t.text n) ∧
    (t.fault = none ∨
      t.fault = some .badCharacter ∧ character t.text = .error (.badCharacter t.text)) ∧
    ∀ n, 0x110000 ≤ n → IsLongCode t.text n →
      t.fault = none ∧
        character t.text = .error (if n ≤ 0x7FFFFFFF then .notCodePoint else .codeTooLarge) := by
  obtain ⟨body, hbody, hscan⟩ := Token.exists_characterBody h hk
  have hverdict := verdict_characterBody hscan
  rw [← hbody] at hverdict
  have hbeyond : ∀ n, 0x110000 ≤ n → IsLongCode t.text n →
      character t.text = .error (if n ≤ 0x7FFFFFFF then .notCodePoint else .codeTooLarge) :=
    fun n hn hlong => hlong.character_eq.trans (codePoint_of_le hn)
  generalize t.fault = fault at hverdict ⊢
  cases hverdict with
  | good hcode hok =>
    have hnone : ¬∃ n, 0x110000 ≤ n ∧ IsLongCode t.text n := by
      rintro ⟨n, hn, hlong⟩
      cases hok.symm.trans (hbeyond n hn hlong)
    refine ⟨iff_of_true ⟨_, hcode, hok⟩ ⟨rfl, hnone⟩, .inl rfl, ?_⟩
    exact fun n hn hlong => absurd ⟨n, hn, hlong⟩ hnone
  | bad herror =>
    refine ⟨iff_of_false ?_ nofun, .inr ⟨rfl, herror⟩, ?_⟩
    · rintro ⟨code, -, hok⟩
      cases herror.symm.trans hok
    · intro n hn hlong
      have heq := herror.symm.trans (hbeyond n hn hlong)
      split at heq <;> cases heq
  | beyond hn hlong =>
    refine ⟨iff_of_false ?_ ?_, .inl rfl, fun m hm hm' => ⟨rfl, hbeyond m hm hm'⟩⟩
    · rintro ⟨code, -, hok⟩
      cases hok.symm.trans (hbeyond _ hn hlong)
    · exact fun hno => hno.2 ⟨_, hn, hlong⟩

/-- The character literal at the front of `#\space)` stands for a blank. -/
theorem character_agrees_space :
    ∃ t, Token.scan "#\\space)".toList 0 = .ok t ∧ t.kind = .character ∧ t.fault = none ∧
      ∃ code < 0x110000, character t.text = .ok code := by
  have hscan : Token.scan "#\\space)".toList 0 =
      .ok ⟨⟨.character, "#\\space".toList, none⟩, 0⟩ := by decide +kernel
  have hshort : ¬∃ n, 0x110000 ≤ n ∧ IsLongCode "#\\space".toList n := by
    rintro ⟨n, -, ds, -, -, htext⟩
    cases htext
  exact ⟨_, hscan, rfl, rfl, (character_agrees hscan rfl).1.mpr ⟨rfl, hshort⟩⟩

/-- No fault is noted for the first number beyond the code points and for the largest that can be
written; neither stands for a character. -/
theorem character_beyond :
    Token.scan "#\\U00110000".toList 0 = .ok ⟨⟨.character, "#\\U00110000".toList, none⟩, 0⟩ ∧
      character "#\\U00110000".toList = .error .notCodePoint ∧
    Token.scan "#\\UFFFFFFFF".toList 0 = .ok ⟨⟨.character, "#\\UFFFFFFFF".toList, none⟩, 0⟩ ∧
      character "#\\UFFFFFFFF".toList = .error .codeTooLarge := by
  decide +kernel

end Literal

end RacketTree

import Mathlib.Data.Bool.AllAny
import RacketTree.Number.Classify
import RacketTree.Proofs.Number.Pattern

/-!
# Derivations of numbers

The grammar of number literals as inductive relations. A literal is up to one mark for the radix and
up to one for exactness, in either order, and a body. Each production says of what category the
number is and how precise it is by itself; letters count in either case.

The bodies that can be derived are the ASCII texts that the pattern of the radix accepts
(`accepts_body_iff`).
-/

namespace RacketTree.Number

/-! ## The grammar -/

/-- How precise a number is by itself. -/
inductive Precision where
  | exact
  /-- It has a decimal point, a `#` in place of a digit, or an exponent. -/
  | inexact
  /-- It has an infinity or a not-a-number. -/
  | special
  deriving DecidableEq, Repr

/-- How precise a number of two parts is. -/
def Precision.join : Precision → Precision → Precision
  | special, _ => special
  | _, special => special
  | inexact, _ => inexact
  | _, inexact => inexact
  | exact, exact => exact

namespace Derives

/-- The digits of all radixes, each at the place of its value. -/
def digits : List Char :=
  ['0', '1', '2', '3', '4', '5', '6', '7', '8', '9', 'a', 'b', 'c', 'd', 'e', 'f']

/-- A digit of the radix. -/
def IsDigit (r : Radix) (c : Char) : Prop :=
  c.toLower ∈ digits.take r.value

/-- One or more digits. -/
def Digits (r : Radix) (text : List Char) : Prop :=
  text ≠ [] ∧ ∀ c ∈ text, IsDigit r c

def IsSign (c : Char) : Prop :=
  c = '+' ∨ c = '-'

/-- A sign or nothing. -/
def Sign (text : List Char) : Prop :=
  text = [] ∨ ∃ c, IsSign c ∧ text = [c]

/-- A decimal without exponent that is not just digits. -/
inductive Mantissa (r : Radix) : List Char → Prop
  | hashed {whole : List Char} (hwhole : Digits r whole) (n : Nat) :
      Mantissa r (whole ++ List.replicate (n + 1) '#')
  | pointed {whole : List Char} (hwhole : Digits r whole) (m n : Nat) :
      Mantissa r (whole ++ List.replicate m '#' ++ '.' :: List.replicate n '#')
  | fraction {whole part : List Char} (hwhole : ∀ c ∈ whole, IsDigit r c) (hpart : Digits r part)
      (n : Nat) : Mantissa r (whole ++ '.' :: (part ++ List.replicate n '#'))

/-- An exponent. The letter for it is one that is no digit of the radix. -/
inductive Exponent (r : Radix) : List Char → Prop
  | mk {mark : Char} {sign power : List Char} (hmark : mark.toLower ∈ r.exponentMarks)
      (hsign : Sign sign) (hpower : Digits r power) : Exponent r (mark :: (sign ++ power))

/-- A real without its sign. -/
inductive Unsigned (r : Radix) : Category → Precision → List Char → Prop
  | integer {text : List Char} (h : Digits r text) : Unsigned r .integer .exact text
  | rational {x y : List Char} (hx : Digits r x) (hy : Digits r y) (m n : Nat) :
      Unsigned r .rational (if m = 0 ∧ n = 0 then .exact else .inexact)
        (x ++ List.replicate m '#' ++ '/' :: (y ++ List.replicate n '#'))
  | decimal {text : List Char} (h : Mantissa r text) : Unsigned r .decimal .inexact text
  | scaled {x e : List Char} (hx : Digits r x ∨ Mantissa r x) (he : Exponent r e) :
      Unsigned r .decimal .inexact (x ++ e)

/-- An infinity or a not-a-number without its sign. -/
inductive Special : List Char → Prop
  | mk {name : List Char} {c : Char}
      (hname : name.map Char.toLower ∈ [['i', 'n', 'f'], ['n', 'a', 'n']])
      (hc : c.toLower ∈ ['0', 'f', 't']) : Special (name ++ ['.', c])

/-- A real. -/
inductive Real (r : Radix) : Category → Precision → List Char → Prop
  | unsigned {k : Category} {p : Precision} {sign text : List Char} (hsign : Sign sign)
      (h : Unsigned r k p text) : Real r k p (sign ++ text)
  | special {c : Char} {text : List Char} (hc : IsSign c) (h : Special text) :
      Real r .decimal .special (c :: text)

/-- An imaginary part. -/
inductive Imaginary (r : Radix) : Precision → List Char → Prop
  | unit {c i : Char} (hc : IsSign c) (hi : i.toLower = 'i') : Imaginary r .exact [c, i]
  | unsigned {k : Category} {p : Precision} {c i : Char} {text : List Char} (hc : IsSign c)
      (h : Unsigned r k p text) (hi : i.toLower = 'i') : Imaginary r p (c :: (text ++ [i]))
  | special {c i : Char} {text : List Char} (hc : IsSign c) (h : Special text)
      (hi : i.toLower = 'i') : Imaginary r .special (c :: (text ++ [i]))

/-- A number without marks. -/
inductive Body (r : Radix) : Category → Precision → List Char → Prop
  | real {k : Category} {p : Precision} {text : List Char} (h : Real r k p text) : Body r k p text
  | imaginary {p : Precision} {text : List Char} (h : Imaginary r p text) : Body r .complex p text
  | rectangular {k : Category} {p q : Precision} {x y : List Char} (hx : Real r k p x)
      (hy : Imaginary r q y) : Body r .complex (p.join q) (x ++ y)
  | polar {k l : Category} {p q : Precision} {x y : List Char} (hx : Real r k p x)
      (hy : Real r l q y) : Body r .complex (p.join q) (x ++ '@' :: y)

/-- The letters that mark a radix. -/
def radixMarks : List (Char × Radix) :=
  [('b', .binary), ('o', .octal), ('d', .decimal), ('x', .hexadecimal)]

/-- The letters that mark exactness. -/
def exactnessMarks : List (Char × Bool) :=
  [('e', true), ('i', false)]

/-- What stands before a body with the marks. -/
inductive Front : Marks → List Char → Prop
  | none : Front ⟨.none, .none⟩ []
  | radix {c : Char} {r : Radix} (h : (c.toLower, r) ∈ radixMarks) : Front ⟨some r, .none⟩ ['#', c]
  | exactness {c : Char} {e : Bool} (h : (c.toLower, e) ∈ exactnessMarks) :
      Front ⟨.none, some e⟩ ['#', c]
  | radixFirst {c d : Char} {r : Radix} {e : Bool} (hc : (c.toLower, r) ∈ radixMarks)
      (hd : (d.toLower, e) ∈ exactnessMarks) : Front ⟨some r, some e⟩ ['#', c, '#', d]
  | exactnessFirst {c d : Char} {r : Radix} {e : Bool} (hc : (c.toLower, e) ∈ exactnessMarks)
      (hd : (d.toLower, r) ∈ radixMarks) : Front ⟨some r, some e⟩ ['#', c, '#', d]

end Derives

/-! ## Characters -/

/-- A text of ASCII characters. -/
def IsAscii (text : List Char) : Prop :=
  ∀ c ∈ text, c.toNat < 128

theorem isAscii_append {x y : List Char} : IsAscii (x ++ y) ↔ IsAscii x ∧ IsAscii y :=
  List.forall_mem_append

theorem isAscii_cons {c : Char} {text : List Char} :
    IsAscii (c :: text) ↔ c.toNat < 128 ∧ IsAscii text :=
  List.forall_mem_cons

/-- What holds of the ASCII characters one by one holds of all of them. -/
theorem forall_ascii {p : Char → Prop} (h : ∀ n < 128, p (Char.ofNat n)) {c : Char}
    (hc : c.toNat < 128) : p c := by
  have hp := h c.toNat hc
  rwa [Char.ofNat_toNat] at hp

theorem toLower_of_le {c : Char} (h : 128 ≤ c.toNat) : c.toLower = c := by
  refine dif_neg ?_
  rintro ⟨-, hle⟩
  have hval : c.toNat ≤ 90 := hle
  omega

theorem lower_of_isAscii {c : Char} (h : c.toNat < 128) : Text.lower c = c.toLower := by
  rw [Text.lower, if_neg]
  rintro rfl
  exact absurd h (by decide)

theorem foldsTo_of_isAscii {c : Char} (h : c.toNat < 128) (letter : Char) :
    Text.foldsTo letter c = (c.toLower == letter) := by
  have hne : ∀ d : Char, 128 ≤ d.toNat → (c == d) = false := by
    intro d hd
    rw [beq_eq_false_iff_ne]
    rintro rfl
    omega
  rw [Text.foldsTo, lower_of_isAscii h, hne _ (by decide), hne _ (by decide), hne _ (by decide)]
  simp

namespace Derives

instance (r : Radix) (c : Char) : Decidable (IsDigit r c) :=
  inferInstanceAs (Decidable (c.toLower ∈ digits.take r.value))

theorem isAscii_digits : IsAscii digits :=
  List.all_iff_forall_prop.mp (by decide)

theorem IsDigit.isAscii {r : Radix} {c : Char} (h : IsDigit r c) : c.toNat < 128 := by
  by_contra hc
  have hmem : c ∈ digits := by
    rw [← toLower_of_le (Nat.le_of_not_lt hc)]
    exact List.mem_of_mem_take h
  exact hc (isAscii_digits c hmem)

theorem isDigit_iff {r : Radix} {c : Char} : r.isDigit c = true ↔ IsDigit r c := by
  by_cases hc : c.toNat < 128
  · refine forall_ascii (p := fun c => r.isDigit c = true ↔ IsDigit r c) ?_ hc
    cases r <;> decide
  · refine iff_of_false ?_ fun h : IsDigit r c => hc h.isAscii
    have hgt : ∀ d : Char, d.toNat < 128 → ¬c ≤ d := by
      intro d hd hle
      have hval : c.toNat ≤ d.toNat := hle
      omega
    cases r <;> simp [Radix.isDigit, hgt]
    constructor <;> rintro rfl <;> exact hc (by decide)

/-! ## Patterns and derivations -/

open Pattern

variable {r : Radix} {text : List Char}

theorem mem_digits : text ∈ (many1 (Grammar.digit r)).language ↔ Digits r text := by
  rw [Grammar.digit, mem_many1_char]
  simp only [isDigit_iff]
  exact Iff.rfl

theorem mem_hashes : text ∈ Grammar.hashes.language ↔ ∃ n, text = List.replicate n '#' :=
  mem_star_exactly

theorem mem_sign : text ∈ Grammar.sign.language ↔ ∃ c, IsSign c ∧ text = [c] := by
  simp [Grammar.sign, mem_char, IsSign]

theorem mem_optional_sign : text ∈ (optional Grammar.sign).language ↔ Sign text := by
  rw [mem_optional, mem_sign]
  exact Iff.rfl

theorem mem_letter {letters : List Char} (h : IsAscii text) :
    text ∈ (Grammar.letter letters).language ↔ ∃ c, c.toLower ∈ letters ∧ text = [c] := by
  rw [Grammar.letter, mem_char]
  refine exists_congr fun c => and_congr_left ?_
  rintro rfl
  simp [foldsTo_of_isAscii (isAscii_cons.mp h).1]

theorem mem_word {letters : List Char} (h : IsAscii text) :
    text ∈ (Grammar.word letters).language ↔ text.map Char.toLower = letters := by
  rw [Grammar.word]
  induction letters generalizing text with
  | nil => simp [mem_inOrder_nil]
  | cons letter letters ih =>
    rw [List.map_cons, mem_inOrder_cons]
    constructor
    · rintro ⟨front, back, rfl, hfront, hback⟩
      obtain ⟨hfrontAscii, hbackAscii⟩ := isAscii_append.mp h
      obtain ⟨c, hc, rfl⟩ := (mem_letter hfrontAscii).mp hfront
      simpa [(ih hbackAscii).mp hback] using hc
    · intro heq
      obtain ⟨c, back, rfl, hc, hback⟩ := List.map_eq_cons_iff.mp heq
      obtain ⟨-, hbackAscii⟩ := isAscii_cons.mp h
      refine ⟨[c], back, rfl, ?_, (ih hbackAscii).mpr hback⟩
      exact (mem_letter fun d hd => h d (by simp_all)).mpr ⟨c, by simp [hc], rfl⟩

theorem mem_uinteger : text ∈ (Grammar.uinteger r).language ↔
    ∃ x n, Digits r x ∧ text = x ++ List.replicate n '#' := by
  rw [Grammar.uinteger, mem_seq]
  constructor
  · rintro ⟨x, _, rfl, hx, hhashes⟩
    obtain ⟨n, rfl⟩ := mem_hashes.mp hhashes
    exact ⟨x, n, mem_digits.mp hx, rfl⟩
  · rintro ⟨x, n, hx, rfl⟩
    exact ⟨x, _, rfl, mem_digits.mpr hx, mem_hashes.mpr ⟨n, rfl⟩⟩

theorem mem_udecimal : text ∈ (Grammar.udecimal r).language ↔ Digits r text ∨ Mantissa r text := by
  rw [Grammar.udecimal, mem_oneOf]
  simp only [List.mem_cons, List.not_mem_nil, or_false, exists_eq_or_imp, exists_eq_left,
    mem_inOrder_cons_cons, mem_inOrder_singleton, mem_digits, mem_hashes, mem_exactly, mem_uinteger]
  constructor
  · rintro (⟨x, _, rfl, hx, _, _, rfl, ⟨m, rfl⟩, _, _, rfl, rfl, n, rfl⟩ |
      ⟨x, _, rfl, hx, _, _, rfl, rfl, y, _, rfl, hy, n, rfl⟩ | ⟨x, n, hx, rfl⟩)
    · right
      simpa using Mantissa.pointed hx m n
    · have hwhole : ∀ c ∈ x, IsDigit r c := fun c hc => isDigit_iff.mp (mem_star_char.mp hx c hc)
      exact .inr (.fraction hwhole hy n)
    · cases n with
      | zero => simpa using Or.inl hx
      | succ n => exact .inr (.hashed hx n)
  · rintro (hx | hx)
    · exact .inr (.inr ⟨text, 0, hx, by simp⟩)
    · cases hx with
      | hashed hwhole n => exact .inr (.inr ⟨_, n + 1, hwhole, rfl⟩)
      | pointed hwhole m n =>
        exact .inl ⟨_, _, List.append_assoc _ _ _, hwhole, _, _, rfl, ⟨m, rfl⟩, ['.'], _, rfl, rfl,
          n, rfl⟩
      | fraction hwhole hpart n =>
        have hmem := mem_star_char.mpr fun c hc => isDigit_iff.mpr (hwhole c hc)
        exact .inr (.inl ⟨_, _, rfl, hmem, ['.'], _, rfl, rfl, _, _, rfl, hpart, n, rfl⟩)

theorem mem_exponent (h : IsAscii text) :
    text ∈ (Grammar.exponent r).language ↔ Exponent r text := by
  simp only [Grammar.exponent, mem_inOrder_cons_cons, mem_inOrder_singleton, mem_optional_sign,
    mem_digits]
  constructor
  · rintro ⟨_, _, rfl, hmark, sign, power, rfl, hsign, hpower⟩
    obtain ⟨mark, hletter, rfl⟩ := (mem_letter (isAscii_append.mp h).1).mp hmark
    show Exponent r (mark :: (sign ++ power))
    exact .mk hletter hsign hpower
  · rintro ⟨hmark, hsign, hpower⟩
    rename_i mark sign power
    have hascii : IsAscii [mark] := (isAscii_append (x := [mark])).mp h |>.1
    exact ⟨_, _, rfl, (mem_letter hascii).mpr ⟨mark, hmark, rfl⟩, _, _, rfl, hsign, hpower⟩

theorem mem_ureal (h : IsAscii text) :
    text ∈ (Grammar.ureal r).language ↔ ∃ k p, Unsigned r k p text := by
  simp only [Grammar.ureal, mem_alt, mem_inOrder_cons_cons, mem_inOrder_singleton, mem_uinteger,
    mem_exactly, mem_seq, mem_udecimal, mem_optional]
  constructor
  · rintro (⟨_, _, rfl, ⟨x, m, hx, rfl⟩, _, _, rfl, rfl, y, n, hy, rfl⟩ | ⟨x, e, rfl, hx, rfl | he⟩)
    · exact ⟨_, _, .rational hx hy m n⟩
    · rw [List.append_nil]
      rcases hx with hx | hx
      · exact ⟨_, _, .integer hx⟩
      · exact ⟨_, _, .decimal hx⟩
    · exact ⟨_, _, .scaled hx ((mem_exponent (isAscii_append.mp h).2).mp he)⟩
  · rintro ⟨k, p, hderive⟩
    cases hderive with
    | integer hx => exact .inr ⟨_, [], (List.append_nil _).symm, .inl hx, .inl rfl⟩
    | rational hx hy m n =>
      exact .inl ⟨_, _, rfl, ⟨_, m, hx, rfl⟩, ['/'], _, rfl, rfl, _, n, hy, rfl⟩
    | decimal hx => exact .inr ⟨_, [], (List.append_nil _).symm, .inr hx, .inl rfl⟩
    | scaled hx he =>
      exact .inr ⟨_, _, rfl, hx, .inr ((mem_exponent (isAscii_append.mp h).2).mpr he)⟩

theorem mem_special (h : IsAscii text) : text ∈ Grammar.special.language ↔ Special text := by
  simp only [Grammar.special, mem_inOrder_cons_cons, mem_inOrder_singleton, mem_alt, mem_exactly]
  constructor
  · rintro ⟨name, _, rfl, hname, _, _, rfl, rfl, hlast⟩
    obtain ⟨hnameAscii, hrest⟩ := isAscii_append.mp h
    obtain ⟨c, hc, rfl⟩ := (mem_letter (isAscii_append.mp hrest).2).mp hlast
    rw [mem_word hnameAscii, mem_word hnameAscii] at hname
    exact .mk (by simpa using hname) hc
  · rintro ⟨hname, hc⟩
    rename_i name c
    obtain ⟨hnameAscii, hrest⟩ := isAscii_append.mp h
    refine ⟨name, _, rfl, ?_, ['.'], [c], rfl, rfl, ?_⟩
    · rw [mem_word hnameAscii, mem_word hnameAscii]
      simpa using hname
    · exact (mem_letter (isAscii_cons.mp hrest).2).mpr ⟨c, hc, rfl⟩

theorem mem_real (h : IsAscii text) :
    text ∈ (Grammar.real r).language ↔ ∃ k p, Real r k p text := by
  simp only [Grammar.real, mem_alt, mem_seq, mem_optional_sign, mem_sign]
  constructor
  · rintro (⟨sign, x, rfl, hsign, hx⟩ | ⟨_, x, rfl, ⟨c, hc, rfl⟩, hx⟩)
    · obtain ⟨k, p, hx⟩ := (mem_ureal (isAscii_append.mp h).2).mp hx
      exact ⟨k, p, .unsigned hsign hx⟩
    · exact ⟨_, _, .special hc ((mem_special (isAscii_append.mp h).2).mp hx)⟩
  · rintro ⟨k, p, hderive⟩
    cases hderive with
    | unsigned hsign hx =>
      exact .inl ⟨_, _, rfl, hsign, (mem_ureal (isAscii_append.mp h).2).mpr ⟨k, p, hx⟩⟩
    | special hc hx =>
      exact .inr ⟨[_], _, rfl, ⟨_, hc, rfl⟩, (mem_special (isAscii_cons.mp h).2).mpr hx⟩

theorem mem_imaginary (h : IsAscii text) :
    text ∈ (Grammar.imaginary r).language ↔ ∃ p, Imaginary r p text := by
  simp only [Grammar.imaginary, mem_inOrder_cons_cons, mem_inOrder_singleton, mem_sign,
    mem_optional, mem_alt]
  constructor
  · rintro ⟨_, _, rfl, ⟨c, hc, rfl⟩, x, _, rfl, hx, hlast⟩
    obtain ⟨hxAscii, hlastAscii⟩ := isAscii_append.mp (isAscii_append.mp h).2
    obtain ⟨i, hi, rfl⟩ := (mem_letter hlastAscii).mp hlast
    rw [List.mem_singleton] at hi
    rcases hx with rfl | hx | hx
    · exact ⟨_, .unit hc hi⟩
    · obtain ⟨k, p, hx⟩ := (mem_ureal hxAscii).mp hx
      exact ⟨p, .unsigned hc hx hi⟩
    · exact ⟨_, .special hc ((mem_special hxAscii).mp hx) hi⟩
  · rintro ⟨p, hderive⟩
    cases hderive with
    | unit hc hi =>
      refine ⟨[_], _, rfl, ⟨_, hc, rfl⟩, [], _, rfl, .inl rfl, ?_⟩
      exact (mem_letter (isAscii_cons.mp h).2).mpr ⟨_, List.mem_singleton.mpr hi, rfl⟩
    | unsigned hc hx hi =>
      obtain ⟨hxAscii, hlastAscii⟩ := isAscii_append.mp (isAscii_cons.mp h).2
      refine ⟨[_], _, rfl, ⟨_, hc, rfl⟩, _, _, rfl, .inr (.inl ?_), ?_⟩
      · exact (mem_ureal hxAscii).mpr ⟨_, p, hx⟩
      · exact (mem_letter hlastAscii).mpr ⟨_, List.mem_singleton.mpr hi, rfl⟩
    | special hc hx hi =>
      obtain ⟨hxAscii, hlastAscii⟩ := isAscii_append.mp (isAscii_cons.mp h).2
      refine ⟨[_], _, rfl, ⟨_, hc, rfl⟩, _, _, rfl, .inr (.inr ?_), ?_⟩
      · exact (mem_special hxAscii).mpr hx
      · exact (mem_letter hlastAscii).mpr ⟨_, List.mem_singleton.mpr hi, rfl⟩

/-- The pattern of a radix accepts the texts that can be derived. -/
theorem accepts_body_iff (h : IsAscii text) :
    (Grammar.body r).accepts text = true ↔ ∃ k p, Body r k p text := by
  rw [accepts_iff, Grammar.body, mem_oneOf]
  simp only [List.mem_cons, List.not_mem_nil, or_false, exists_eq_or_imp, exists_eq_left,
    mem_inOrder_cons_cons, mem_inOrder_singleton, mem_exactly, mem_seq, mem_optional]
  constructor
  · rintro (⟨x, _, rfl, hx, _, y, rfl, rfl, hy⟩ | ⟨x, y, rfl, hx, hy⟩ | hx)
    · obtain ⟨hxAscii, hyAscii⟩ := isAscii_append.mp h
      obtain ⟨k, p, hx⟩ := (mem_real hxAscii).mp hx
      obtain ⟨l, q, hy⟩ := (mem_real (isAscii_append.mp hyAscii).2).mp hy
      exact ⟨_, _, .polar hx hy⟩
    · obtain ⟨hxAscii, hyAscii⟩ := isAscii_append.mp h
      obtain ⟨q, hy⟩ := (mem_imaginary hyAscii).mp hy
      rcases hx with rfl | hx
      · exact ⟨_, _, .imaginary hy⟩
      · obtain ⟨k, p, hx⟩ := (mem_real hxAscii).mp hx
        exact ⟨_, _, .rectangular hx hy⟩
    · obtain ⟨k, p, hx⟩ := (mem_real h).mp hx
      exact ⟨k, p, .real hx⟩
  · rintro ⟨k, p, hderive⟩
    cases hderive with
    | real hx => exact .inr (.inr ((mem_real h).mpr ⟨k, p, hx⟩))
    | imaginary hy => exact .inr (.inl ⟨[], _, rfl, .inl rfl, (mem_imaginary h).mpr ⟨p, hy⟩⟩)
    | rectangular hx hy =>
      obtain ⟨hxAscii, hyAscii⟩ := isAscii_append.mp h
      exact .inr (.inl ⟨_, _, rfl, .inr ((mem_real hxAscii).mpr ⟨_, _, hx⟩),
        (mem_imaginary hyAscii).mpr ⟨_, hy⟩⟩)
    | polar hx hy =>
      obtain ⟨hxAscii, hyAscii⟩ := isAscii_append.mp h
      exact .inl ⟨_, _, rfl, (mem_real hxAscii).mpr ⟨_, _, hx⟩, ['@'], _, rfl, rfl,
        (mem_real (isAscii_cons.mp hyAscii).2).mpr ⟨_, _, hy⟩⟩

end Derives

end RacketTree.Number

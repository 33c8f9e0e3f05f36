import RacketTree.Literal
import RacketTree.Proofs.Number.Classification
import RacketTree.Proofs.Number.Decimal

/-!
# Recognizing and reading integers

A text is recognized as an exact integer by its classification, and read as one by a liberal reader
of integers. `integer_eq_ok` says what is read: behind the marks a sign, perhaps a zero with the
letter of the radix, and digits of any script. What is recognized is a sign and ASCII digits
(`classify?_of_digits`, `exists_digits_of_classify?`).

So the two agree on most texts (`integer_agrees`), with the value that the digits stand for. They
differ on three sorts of texts: what only the liberal reader takes (`Lenient`), more decimal digits
than it takes (`Overlong`), and letters outside of ASCII that match a letter of the grammar but are
overlooked when the category is told (`Folded`).
-/

namespace RacketTree.Number

open Derives

variable {r : Radix} {text sign mark ds : List Char} {c : Char} {n : Nat}

/-! ## Digits of any script -/

/-- A digit of the radix in any script. -/
def IsAnyDigit (r : Radix) (c : Char) : Prop :=
  ∃ v < r.value, digitValue? c = some v

/-- One or more digits of any script. -/
def AnyDigits (r : Radix) (text : List Char) : Prop :=
  text ≠ [] ∧ ∀ c ∈ text, IsAnyDigit r c

/-- The value of a digit. -/
def valueOf (c : Char) : Nat :=
  (digitValue? c).getD 0

theorem toNat_lt_of_toLower (h : c.toLower.toNat < 128) : c.toNat < 128 := by
  by_contra hc
  rw [toLower_of_le (Nat.le_of_not_lt hc)] at h
  exact hc h

theorem digitValue?_of_mem_digits (h : c.toLower ∈ digits) :
    digitValue? c = some (digits.idxOf c.toLower) := by
  have hascii := toNat_lt_of_toLower (isAscii_digits _ h)
  refine forall_ascii (p := fun c => c.toLower ∈ digits →
    digitValue? c = some (digits.idxOf c.toLower)) ?_ hascii h
  decide +kernel

/-- Letters behind the digits of all radixes count as digits of greater values. -/
theorem le_of_digitValue? (hascii : c.toNat < 128) (h : c.toLower ∉ digits) {v : Nat}
    (hv : digitValue? c = some v) : 16 ≤ v := by
  refine forall_ascii (p := fun c => c.toLower ∉ digits → ∀ v ∈ digitValue? c, 16 ≤ v) ?_
    hascii h v hv
  decide +kernel

theorem isAnyDigit_iff (hascii : c.toNat < 128) : IsAnyDigit r c ↔ IsDigit r c := by
  by_cases hmem : c.toLower ∈ digits
  · rw [IsDigit, List.mem_take_iff_idxOf_lt hmem, IsAnyDigit, digitValue?_of_mem_digits hmem]
    simp
  · refine iff_of_false ?_ fun h : IsDigit r c => hmem (List.mem_of_mem_take h)
    rintro ⟨v, hlt, hv⟩
    have hle : r.value ≤ 16 := by
      cases r <;> decide
    have hbig := le_of_digitValue? hascii hmem hv
    omega

/-- The value of an ASCII digit is its place among the digits. -/
theorem Derives.IsDigit.valueOf_eq (h : IsDigit r c) : valueOf c = digits.idxOf c.toLower := by
  rw [valueOf, digitValue?_of_mem_digits (List.mem_of_mem_take h), Option.getD_some]

theorem digitValues?_cons {rest : List Char} (hmark : rest.head? ≠ some '_') {vs : List Nat} :
    digitValues? r (c :: rest) = some vs ↔ IsAnyDigit r c ∧
      (rest = [] ∧ vs = [valueOf c] ∨
        ∃ ws, digitValues? r rest = some ws ∧ vs = valueOf c :: ws) := by
  rw [digitValues?, IsAnyDigit, valueOf]
  cases hv : digitValue? c with
  | none => simp
  | some v =>
    by_cases hlt : v < r.value
    · simp only [hlt, if_true]
      split
      · simp [digitValues?, hlt, eq_comm]
      · exact absurd rfl hmark
      · rename_i hrest _
        have hne : rest ≠ [] := hrest
        simp [hlt, hne, eq_comm]
    · simp [hlt]

theorem digitValues?_eq_some (hmark : '_' ∉ text) {vs : List Nat} :
    digitValues? r text = some vs ↔ AnyDigits r text ∧ vs = text.map valueOf := by
  induction text generalizing vs with
  | nil => simp [digitValues?, AnyDigits]
  | cons c rest ih =>
    rw [List.mem_cons, not_or] at hmark
    have hhead : rest.head? ≠ some '_' := fun h => hmark.2 (List.mem_of_head? h)
    rw [digitValues?_cons hhead]
    simp only [ih hmark.2, AnyDigits, List.forall_mem_cons, List.map_cons]
    constructor
    · rintro ⟨hc, ⟨rfl, rfl⟩ | ⟨ws, ⟨⟨-, hrest⟩, rfl⟩, rfl⟩⟩
      · exact ⟨⟨List.cons_ne_nil _ _, hc, List.forall_mem_nil _⟩, rfl⟩
      · exact ⟨⟨List.cons_ne_nil _ _, hc, hrest⟩, rfl⟩
    · rintro ⟨⟨-, hc, hrest⟩, rfl⟩
      refine ⟨hc, ?_⟩
      cases rest with
      | nil => exact .inl ⟨rfl, rfl⟩
      | cons d rest => exact .inr ⟨_, ⟨⟨List.cons_ne_nil _ _, hrest⟩, rfl⟩, rfl⟩

theorem ofDigits_eq (radix : Nat) (vs : List Nat) :
    ofDigits radix vs = Nat.ofDigits radix vs.reverse := by
  rw [ofDigits, Nat.ofDigits_eq_foldr, List.foldr_reverse]
  congr 1
  funext n d
  simp [Nat.mul_comm, Nat.add_comm]

/-! ## Marks of the radix -/

/-- The letters behind a zero that name a radix. -/
def zeroMarks : List (Char × Radix) :=
  [('b', .binary), ('o', .octal), ('x', .hexadecimal)]

/-- A zero of any script with the letter of the radix. -/
def IsZeroMark (r : Radix) (text : List Char) : Prop :=
  ∃ z m, text = [z, m] ∧ Text.decimalValue? z = some 0 ∧ (m.toLower, r) ∈ zeroMarks

theorem toNat_lt_of_mem_marks {α : Type} {marks : List (Char × α)} {a : α}
    (hmarks : ∀ m ∈ marks, m.1.toNat < 128) (h : (c.toLower, a) ∈ marks) : c.toNat < 128 :=
  toNat_lt_of_toLower (hmarks _ h)

/-- The letter behind a zero is a digit of some radix, but not of the one that it names. -/
theorem value_le_of_zeroMark (h : (c.toLower, r) ∈ zeroMarks) :
    ∃ v, r.value ≤ v ∧ digitValue? c = some v := by
  have hall : ∀ n < 128, ∀ r, ((Char.ofNat n).toLower, r) ∈ zeroMarks →
      r.value ≤ valueOf (Char.ofNat n) ∧ (digitValue? (Char.ofNat n)).isSome = true := by
    intro n hn r
    revert n
    cases r <;> decide +kernel
  obtain ⟨hle, hsome⟩ := forall_ascii (p := fun c => ∀ r, (c.toLower, r) ∈ zeroMarks →
    r.value ≤ valueOf c ∧ (digitValue? c).isSome = true) hall
    (toNat_lt_of_mem_marks (by decide) h) r h
  obtain ⟨v, hv⟩ := Option.isSome_iff_exists.mp hsome
  rw [valueOf, hv] at hle
  exact ⟨v, hle, hv⟩

theorem dropRadixMark_cons (z m : Char) (rest : List Char) :
    dropRadixMark r (z :: m :: rest) =
      if Text.decimalValue? z = some 0 ∧ (m.toLower, r) ∈ zeroMarks then skipUnderscore rest
      else z :: m :: rest := by
  have hlower : (Text.lower m, r) ∈ zeroMarks ↔ (m.toLower, r) ∈ zeroMarks :=
    lower_mem_marks (by decide)
  simp only [← hlower]
  cases r <;> simp [dropRadixMark, zeroMarks]

theorem skipUnderscore_of_notMem (h : '_' ∉ text) : skipUnderscore text = text := by
  unfold skipUnderscore
  split
  · exact absurd List.mem_cons_self h
  · rfl

/-- The text is the mark that is dropped, if there is one, and the rest. -/
theorem exists_dropRadixMark (r : Radix) (h : '_' ∉ text) :
    ∃ mark, text = mark ++ dropRadixMark r text ∧ (mark = [] ∨ IsZeroMark r mark) := by
  match text, h with
  | [], _ => exact ⟨[], rfl, .inl rfl⟩
  | [z], _ => exact ⟨[], rfl, .inl rfl⟩
  | z :: m :: rest, h =>
    rw [dropRadixMark_cons]
    split
    · rename_i hmark
      have hrest : '_' ∉ rest := fun hmem => h (by simp [hmem])
      rw [skipUnderscore_of_notMem hrest]
      exact ⟨[z, m], rfl, .inr ⟨z, m, rfl, hmark⟩⟩
    · exact ⟨[], rfl, .inl rfl⟩

theorem dropRadixMark_append (hmark : mark = [] ∨ IsZeroMark r mark) (hds : AnyDigits r ds)
    (h : '_' ∉ ds) : dropRadixMark r (mark ++ ds) = ds := by
  rcases hmark with rfl | ⟨z, m, rfl, hz, hm⟩
  · match ds, hds with
    | [], _ => rfl
    | [z], _ => rfl
    | z :: m :: rest, hds =>
      refine (dropRadixMark_cons z m rest).trans (if_neg ?_)
      rintro ⟨-, hm⟩
      obtain ⟨v, hle, hv⟩ := value_le_of_zeroMark hm
      obtain ⟨w, hlt, hw⟩ := hds.2 m (by simp)
      rw [hv] at hw
      cases hw
      omega
  · refine (dropRadixMark_cons z m ds).trans ?_
    rw [if_pos ⟨hz, hm⟩, skipUnderscore_of_notMem h]

theorem readNatural?_eq_some (h : '_' ∉ text) : readNatural? r text = some n ↔
    ∃ mark ds, text = mark ++ ds ∧ (mark = [] ∨ IsZeroMark r mark) ∧ AnyDigits r ds ∧
      (r = .decimal → ds.length ≤ maxDigits) ∧
      n = Nat.ofDigits r.value (ds.map valueOf).reverse := by
  have hread : ∀ {ds : List Char}, dropRadixMark r text = ds → '_' ∉ ds →
      (readNatural? r text = some n ↔ AnyDigits r ds ∧ (r = .decimal → ds.length ≤ maxDigits) ∧
        n = Nat.ofDigits r.value (ds.map valueOf).reverse) := by
    intro ds hdrop hds
    rw [readNatural?, hdrop]
    cases hvalues : digitValues? r ds with
    | none =>
      refine iff_of_false (Option.some_ne_none n).symm fun hany => ?_
      rw [(digitValues?_eq_some hds).mpr ⟨hany.1, rfl⟩] at hvalues
      cases hvalues
    | some vs =>
      obtain ⟨hany, rfl⟩ := (digitValues?_eq_some hds).mp hvalues
      rw [← ofDigits_eq]
      simp only [List.length_map]
      split
      · rename_i hlong
        simp only [Bool.and_eq_true, decide_eq_true_eq] at hlong
        refine iff_of_false (Option.some_ne_none n).symm fun hshort => ?_
        have hle := hshort.2.1 hlong.1
        omega
      · rename_i hshort
        simp only [Bool.and_eq_true, decide_eq_true_eq, not_and, Nat.not_lt] at hshort
        rw [Option.some.injEq]
        exact ⟨fun hn => ⟨hany, hshort, hn.symm⟩, fun hn => hn.2.2.symm⟩
  constructor
  · intro hn
    obtain ⟨mark, htext, hmark⟩ := exists_dropRadixMark r h
    have hds : '_' ∉ dropRadixMark r text := fun hmem =>
      h (htext ▸ List.mem_append_right _ hmem)
    exact ⟨mark, _, htext, hmark, (hread rfl hds).mp hn⟩
  · rintro ⟨mark, ds, rfl, hmark, hany, hshort, hn⟩
    have hds : '_' ∉ ds := fun hmem => h (List.mem_append_right _ hmem)
    exact (hread (dropRadixMark_append hmark hany hds) hds).mpr ⟨hany, hshort, hn⟩

/-! ## Blanks and other characters -/

/-- The letters outside of ASCII that match a letter of the grammar. -/
def foldedLetters : List Char :=
  ['\u0130', '\u0131', '\u017F']

/-- The character is no blank, and none that a numeral could not have. -/
def IsClean (c : Char) : Prop :=
  c ∉ '_' :: '#' :: foldedLetters ∧ Text.isBlank c = false

theorem isBlank_of_within (low high : Nat) (hlow : low ≤ c.toNat) (hhigh : c.toNat ≤ high)
    (h : ∀ range ∈ Text.blankRanges, high < range.1 ∨ range.2 < low) : Text.isBlank c = false := by
  simp only [Text.isBlank, Text.inRanges, List.any_eq_false, Bool.and_eq_true, decide_eq_true_eq]
  intro range hrange
  have hdisjoint := h range hrange
  omega

theorem isClean_of_digitValue? {v : Nat} (h : digitValue? c = some v) : IsClean c := by
  constructor
  · intro hmem
    have hnone : ∀ d ∈ '_' :: '#' :: foldedLetters, digitValue? d = none :=
      List.all_iff_forall_prop.mp (by decide +kernel)
    rw [hnone c hmem] at h
    cases h
  · have hzeros : ∀ z ∈ Text.decimalZeros, ∀ range ∈ Text.blankRanges,
        z + 9 < range.1 ∨ range.2 < z := by
      decide +kernel
    unfold digitValue? at h
    split at h
    · rename_i w hw
      obtain ⟨z, hz, -⟩ := Option.map_eq_some_iff.mp hw
      have hin := List.find?_some hz
      simp only [Bool.and_eq_true, decide_eq_true_eq] at hin
      exact isBlank_of_within z (z + 9) hin.1 (Nat.le_of_lt_succ hin.2)
        (hzeros z (List.mem_of_find?_eq_some hz))
    · split at h
      · rename_i hletter
        simp only [Bool.and_eq_true, decide_eq_true_eq] at hletter
        exact isBlank_of_within 97 122 hletter.1 hletter.2 (by decide)
      · split at h
        · rename_i hletter
          simp only [Bool.and_eq_true, decide_eq_true_eq] at hletter
          exact isBlank_of_within 65 90 hletter.1 hletter.2 (by decide)
        · cases h

theorem isClean_sign (h : IsSign c) : IsClean c := by
  rcases h with rfl | rfl <;> exact ⟨by decide, by decide⟩

/-- A text that has no blanks to strip neither begins nor ends with one. -/
theorem ends_of_strip (h : Text.strip text = text) :
    (∀ c ∈ text.head?, Text.isBlank c = false) ∧ ∀ c ∈ text.getLast?, Text.isBlank c = false := by
  have hfront : text.dropWhile Text.isBlank = text := by
    refine (List.dropWhile_suffix _).eq_of_length_le ?_
    have hlength := congrArg List.length h
    rw [Text.strip, List.length_reverse] at hlength
    have hback : (text.dropWhile Text.isBlank).reverse.dropWhile Text.isBlank <:+ _ :=
      List.dropWhile_suffix _
    have hle := hback.length_le
    rw [List.length_reverse] at hle
    omega
  have hback : text.reverse.dropWhile Text.isBlank = text.reverse := by
    rw [Text.strip, hfront] at h
    exact List.reverse_eq_iff.mp h
  have hhead : ∀ {cs : List Char}, cs.dropWhile Text.isBlank = cs →
      ∀ c ∈ cs.head?, Text.isBlank c = false := by
    intro cs hcs c hc
    have hnot := List.head?_dropWhile_not Text.isBlank cs
    rw [hcs, hc] at hnot
    simpa using hnot
  refine ⟨hhead hfront, ?_⟩
  rw [← List.head?_reverse]
  exact hhead hback

theorem dropMargins_eq (hhead : ∀ c ∈ text.head?, Text.isBlank c = false)
    (hlast : ∀ c ∈ text.getLast?, Text.isBlank c = false) : dropMargins text = text := by
  have hmargin : ∀ {c : Char}, Text.isBlank c = false → isMargin c = false := by
    intro c hc
    rw [isMargin, hc, Bool.false_and]
  by_cases hne : text = []
  · rw [hne]
    rfl
  · have htrim := Text.trim_eq (List.forall_mem_nil _) (List.forall_mem_nil _)
      (fun c hc => hmargin (hhead c hc)) (fun c hc => hmargin (hlast c hc)) hne
    rwa [List.nil_append, List.append_nil] at htrim

/-! ## Numerals -/

/-- A sign, the mark of the radix or nothing, and digits that are read as an integer. -/
structure IsNumeral (r : Radix) (sign mark ds : List Char) : Prop where
  sign : Sign sign
  mark : mark = [] ∨ IsZeroMark r mark
  digits : AnyDigits r ds
  length : r = .decimal → ds.length ≤ maxDigits

/-- The number with the sign. -/
def signed (sign : List Char) (n : Nat) : Int :=
  if sign = ['-'] then -(n : Int) else n

namespace IsNumeral

theorem exists_digitValue? (h : IsNumeral r sign mark ds) :
    ∀ c ∈ mark ++ ds, ∃ v, digitValue? c = some v := by
  intro c hc
  rcases List.mem_append.mp hc with hc | hc
  · rcases h.mark with rfl | ⟨z, m, rfl, hz, hm⟩
    · cases hc
    · simp only [List.mem_cons, List.not_mem_nil, or_false] at hc
      rcases hc with rfl | rfl
      · exact ⟨0, by rw [digitValue?, hz]⟩
      · obtain ⟨v, -, hv⟩ := value_le_of_zeroMark hm
        exact ⟨v, hv⟩
  · obtain ⟨v, -, hv⟩ := h.digits.2 c hc
    exact ⟨v, hv⟩

theorem isClean (h : IsNumeral r sign mark ds) : ∀ c ∈ sign ++ (mark ++ ds), IsClean c := by
  intro c hc
  rcases List.mem_append.mp hc with hc | hc
  · exact isClean_sign (h.sign.isSign c hc)
  · obtain ⟨v, hv⟩ := h.exists_digitValue? c hc
    exact isClean_of_digitValue? hv

theorem ne_nil (h : IsNumeral r sign mark ds) : mark ++ ds ≠ [] := by
  simp [h.digits.1]

end IsNumeral

theorem not_isSign_of_digitValue? {v : Nat} (h : digitValue? c = some v) : ¬IsSign c := by
  rintro (rfl | rfl)
  · exact absurd h (by decide +kernel +revert)
  · exact absurd h (by decide +kernel +revert)

theorem readInteger?_eq_some (h : '_' ∉ text) (hmargins : dropMargins text = text) {n : Int} :
    readInteger? r text = some n ↔ ∃ sign mark ds, text = sign ++ (mark ++ ds) ∧
      IsNumeral r sign mark ds ∧
      n = signed sign (Nat.ofDigits r.value (ds.map valueOf).reverse) := by
  constructor
  · intro hn
    have hread : ∃ sign rest m, text = sign ++ rest ∧ Sign sign ∧ readNatural? r rest = some m ∧
        n = signed sign m := by
      rw [readInteger?, hmargins] at hn
      split at hn
      · rename_i rest
        cases hm : readNatural? r rest with
        | none => simp [hm] at hn
        | some m =>
          rw [hm] at hn
          exact ⟨['-'], rest, m, rfl, .inr ⟨'-', .inr rfl, rfl⟩, hm, (Option.some.inj hn).symm⟩
      · obtain ⟨m, hm, rfl⟩ := Option.map_eq_some_iff.mp hn
        exact ⟨['+'], _, m, rfl, .inr ⟨'+', .inl rfl, rfl⟩, hm, rfl⟩
      · obtain ⟨m, hm, rfl⟩ := Option.map_eq_some_iff.mp hn
        exact ⟨[], _, m, rfl, .inl rfl, hm, rfl⟩
    obtain ⟨sign, rest, m, rfl, hsign, hm, rfl⟩ := hread
    have hrest : '_' ∉ rest := fun hmem => h (List.mem_append_right _ hmem)
    obtain ⟨mark, ds, rfl, hmark, hds, hlength, rfl⟩ := (readNatural?_eq_some hrest).mp hm
    exact ⟨sign, mark, ds, rfl, ⟨hsign, hmark, hds, hlength⟩, rfl⟩
  · rintro ⟨sign, mark, ds, rfl, hnumeral, rfl⟩
    have hrest : '_' ∉ mark ++ ds := fun hmem => h (List.mem_append_right _ hmem)
    have hm := (readNatural?_eq_some hrest).mpr
      ⟨mark, ds, rfl, hnumeral.mark, hnumeral.digits, hnumeral.length, rfl⟩
    have hhead : ∀ c ∈ (mark ++ ds).head?, ¬IsSign c := by
      intro c hc
      obtain ⟨v, hv⟩ := hnumeral.exists_digitValue? c (List.mem_of_head? hc)
      exact not_isSign_of_digitValue? hv
    rw [readInteger?, hmargins]
    rcases hnumeral.sign with rfl | ⟨c, rfl | rfl, rfl⟩
    · rw [List.nil_append]
      split
      · exact absurd (.inr rfl) (hhead '-' (by simp [*]))
      · exact absurd (.inl rfl) (hhead '+' (by simp [*]))
      · rw [hm]
        rfl
    · simp only [List.cons_append, List.nil_append, hm]
      rfl
    · simp only [List.cons_append, List.nil_append, hm]
      rfl

/-! ## What is read -/

/-- The text is marks, none of which says that the number is inexact, and a body. -/
def IsMarked (marks : Marks) (body text : List Char) : Prop :=
  marks.exactness? ≠ some false ∧ ∃ front, Front marks front ∧ text = front ++ body

theorem IsMarked.splitMarks? {marks : Marks} {body : List Char} (h : IsMarked marks body text)
    (hbody : body.head? ≠ some '#') : splitMarks? text = some (marks, body) := by
  obtain ⟨-, front, hfront, rfl⟩ := h
  exact splitMarks?_append hfront hbody

/-- What is read as an exact integer: behind the marks a numeral, with the value of its digits. -/
theorem integer_eq_ok {n : Int} : Literal.integer text = .ok n ↔
    ∃ marks sign mark ds, IsMarked marks (sign ++ (mark ++ ds)) text ∧
      IsNumeral marks.radix sign mark ds ∧
      n = signed sign (Nat.ofDigits marks.radix.value (ds.map valueOf).reverse) := by
  constructor
  · intro h
    rw [Literal.integer] at h
    cases hsplit : splitMarks? text with
    | none => simp [hsplit] at h
    | some split =>
      obtain ⟨marks, body⟩ := split
      simp only [hsplit] at h
      split at h
      · cases h
      · rename_i hguard
        simp only [Bool.or_eq_true, decide_eq_true_eq, List.contains_iff_mem, bne_iff_ne, ne_eq,
          not_or, not_not] at hguard
        obtain ⟨⟨hexact, hmark⟩, hstrip⟩ := hguard
        obtain ⟨hhead, hlast⟩ := ends_of_strip hstrip
        split at h
        · rename_i m hread
          cases h
          obtain ⟨sign, mark, ds, rfl, hnumeral, rfl⟩ :=
            (readInteger?_eq_some hmark (dropMargins_eq hhead hlast)).mp hread
          obtain ⟨front, rfl, hfront⟩ := exists_front hsplit
          exact ⟨marks, sign, mark, ds, ⟨hexact, front, hfront, rfl⟩, hnumeral, rfl⟩
        · cases h
  · rintro ⟨marks, sign, mark, ds, hmarked, hnumeral, rfl⟩
    have hclean := hnumeral.isClean
    generalize hbody : sign ++ (mark ++ ds) = body at hmarked hclean
    have hne : body ≠ [] := by
      rw [← hbody]
      exact List.append_ne_nil_of_right_ne_nil _ hnumeral.ne_nil
    have hhead : ∀ c ∈ body.head?, Text.isBlank c = false :=
      fun c hc => (hclean c (List.mem_of_head? hc)).2
    have hlast : ∀ c ∈ body.getLast?, Text.isBlank c = false :=
      fun c hc => (hclean c (List.mem_of_getLast? hc)).2
    have hstrip : Text.strip body = body := by
      have htrim := @Text.trim_eq _ Text.isBlank [] body [] nofun nofun hhead hlast hne
      rwa [List.nil_append, List.append_nil] at htrim
    have hmark : '_' ∉ body := fun hmem => (hclean _ hmem).1 (by decide)
    have hhash : body.head? ≠ some '#' :=
      fun hmem => (hclean _ (List.mem_of_head? hmem)).1 (by decide)
    have hread := (readInteger?_eq_some hmark (dropMargins_eq hhead hlast)).mpr
      ⟨sign, mark, ds, hbody.symm, hnumeral, rfl⟩
    rw [Literal.integer, hmarked.splitMarks? hhash]
    simp [hmarked.1, hmark, hstrip, hread]

theorem integer_eq_error {e : LiteralError} (h : Literal.integer text = .error e) :
    e = .notInteger text := by
  rw [Literal.integer] at h
  split at h
  · cases h
    rfl
  · split at h
    · cases h
      rfl
    · split at h
      · cases h
      · cases h
        rfl

/-! ## What is recognized -/

/-- An ASCII character, or one that matches a letter. -/
def IsGrammarChar (c : Char) : Prop :=
  c.toNat < 128 ∨ c ∈ foldedLetters

theorem within_letter {letters : List Char} (h : ∀ d ∈ letters, d ≠ 'k' ∧ d.toNat < 128) :
    (Grammar.letter letters).Within IsGrammarChar := by
  intro c hc
  obtain ⟨d, hd, hfold⟩ := List.any_eq_true.mp hc
  simp only [Text.foldsTo, Bool.or_eq_true, Bool.and_eq_true, beq_iff_eq] at hfold
  rcases hfold with (hlower | ⟨-, hc⟩) | ⟨-, rfl⟩
  · rw [Text.lower] at hlower
    split at hlower
    · exact absurd hlower.symm (h d hd).1
    · exact .inl (toNat_lt_of_toLower (hlower ▸ (h d hd).2))
  · rcases hc with rfl | rfl <;> exact .inr (by decide)
  · exact .inr (by decide)

theorem within_exactly (h : c.toNat < 128) : (Pattern.exactly c).Within IsGrammarChar := by
  intro d hd
  rw [beq_iff_eq.mp hd]
  exact .inl h

theorem within_sign : Grammar.sign.Within IsGrammarChar := by
  intro c hc
  rw [Bool.or_eq_true, beq_iff_eq, beq_iff_eq] at hc
  rcases hc with rfl | rfl <;> exact .inl (by decide)

theorem within_digit (r : Radix) : (Grammar.digit r).Within IsGrammarChar :=
  fun _ hc => .inl (isDigit_iff.mp hc).isAscii

theorem within_body (r : Radix) : (Grammar.body r).Within IsGrammarChar := by
  have hmarks : ∀ d ∈ r.exponentMarks, d ≠ 'k' ∧ d.toNat < 128 := by
    cases r <;> exact List.all_iff_forall_prop.mp (by decide)
  have hureal : (Grammar.ureal r).Within IsGrammarChar := by
    simp [Grammar.ureal, Grammar.uinteger, Grammar.udecimal, Grammar.exponent, Grammar.hashes,
      Pattern.Within, Pattern.inOrder, Pattern.oneOf, Pattern.optional, Pattern.many1,
      within_digit, within_sign, within_exactly, within_letter hmarks]
  have hspecial : Grammar.special.Within IsGrammarChar := by
    simp [Grammar.special, Grammar.word, Pattern.Within, Pattern.inOrder, within_exactly,
      within_letter]
  simp [Grammar.body, Grammar.real, Grammar.imaginary, Pattern.Within, Pattern.inOrder,
    Pattern.oneOf, Pattern.optional, hureal, hspecial, within_sign, within_exactly, within_letter]

theorem Derives.Digits.body (h : Digits r ds) (hsign : Sign sign) :
    Body r .integer .exact (sign ++ ds) :=
  .real (.unsigned hsign (.integer h))

/-- Marks, a sign and ASCII digits are recognized as an exact integer. -/
theorem classify?_of_digits {marks : Marks} (h : IsMarked marks (sign ++ ds) text)
    (hsign : Sign sign) (hdigits : Digits marks.radix ds) :
    classify? text = some ⟨marks.radix, true, .integer⟩ := by
  have hbody := hdigits.body hsign
  have hascii : IsAscii (sign ++ ds) := by
    refine isAscii_append.mpr ⟨fun c hc => ?_, fun c hc => (hdigits.2 c hc).isAscii⟩
    rcases hsign.isSign c hc with rfl | rfl <;> decide
  rw [classify?_of_body (h.splitMarks? hbody.startsBody.head?) hbody hascii, if_neg nofun]
  cases hmark : marks.exactness? with
  | none => rfl
  | some e =>
    cases e with
    | true => rfl
    | false => exact absurd hmark h.1

/-- The text has a letter outside of ASCII that matches a letter of the grammar. -/
def Folded (text : List Char) : Prop :=
  ∃ c ∈ text, c ∈ foldedLetters

/-- Nothing else is, but for texts with folded letters. -/
theorem exists_digits_of_classify? (h : classify? text = some ⟨r, true, .integer⟩)
    (hfolded : ¬Folded text) : ∃ marks sign ds, marks.radix = r ∧
      IsMarked marks (sign ++ ds) text ∧ Sign sign ∧ Digits r ds := by
  obtain ⟨marks, front, body, rfl, hfront, hsplit, haccepts⟩ := exists_body h
  have hascii : IsAscii body := by
    intro c hc
    have hchar := (within_body _).forall_mem (Pattern.accepts_iff.mp haccepts) c hc
    exact hchar.resolve_right fun hmem => hfolded ⟨c, List.mem_append_right _ hc, hmem⟩
  obtain ⟨k, p, hderive⟩ := (accepts_body_iff hascii).mp haccepts
  rw [classify?_of_body hsplit hderive hascii] at h
  split at h
  · cases h
  · simp only [Option.some.injEq, Info.mk.injEq] at h
    obtain ⟨rfl, hexact, rfl⟩ := h
    have hmarks : marks.exactness? ≠ some false := by
      intro hmark
      rw [hmark] at hexact
      cases hexact
    obtain ⟨hsign, hdigits⟩ | _ := hderive
    cases hdigits with
    | integer hdigits => exact ⟨marks, _, _, rfl, ⟨hmarks, front, hfront, rfl⟩, hsign, hdigits⟩

/-! ## Agreement -/

theorem Derives.Front.isAscii {marks : Marks} {front : List Char} (h : Front marks front) :
    IsAscii front := by
  have hradix : ∀ {c : Char} {r : Radix}, (c.toLower, r) ∈ radixMarks → c.toNat < 128 :=
    toNat_lt_of_mem_marks (by decide)
  have hexact : ∀ {c : Char} {e : Bool}, (c.toLower, e) ∈ exactnessMarks → c.toNat < 128 :=
    toNat_lt_of_mem_marks (by decide)
  cases h with
  | none => nofun
  | radix hc => simp [IsAscii, hradix hc]
  | exactness hc => simp [IsAscii, hexact hc]
  | radixFirst hc hd => simp [IsAscii, hradix hc, hexact hd]
  | exactnessFirst hc hd => simp [IsAscii, hexact hc, hradix hd]

/-- A numeral behind marks has no folded letters. -/
theorem IsNumeral.not_folded {marks : Marks} (h : IsNumeral r sign mark ds)
    (hmarked : IsMarked marks (sign ++ (mark ++ ds)) text) : ¬Folded text := by
  rintro ⟨c, hc, hfolded⟩
  obtain ⟨-, front, hfront, rfl⟩ := hmarked
  rcases List.mem_append.mp hc with hc | hc
  · have hletters : ∀ d ∈ foldedLetters, ¬d.toNat < 128 :=
      List.all_iff_forall_prop.mp (by decide)
    exact hletters c hfolded (hfront.isAscii c hc)
  · exact (h.isClean c hc).1 (List.mem_cons_of_mem _ (List.mem_cons_of_mem _ hfolded))

/-- Marks and a numeral, and marks, a sign and ASCII digits, are one split of the text. -/
theorem IsNumeral.split_eq {marks marks' : Marks} {r' : Radix} {sign' ds' : List Char}
    (h : IsNumeral r sign mark ds) (hmarked : IsMarked marks (sign ++ (mark ++ ds)) text)
    (hmarked' : IsMarked marks' (sign' ++ ds') text) (hsign : Sign sign')
    (hdigits : Digits r' ds') : marks = marks' ∧ sign ++ (mark ++ ds) = sign' ++ ds' := by
  have hhash : (sign ++ (mark ++ ds)).head? ≠ some '#' :=
    fun hhash => (h.isClean _ (List.mem_of_head? hhash)).1 (by decide)
  have hsplit := hmarked'.splitMarks? (hdigits.body hsign).startsBody.head?
  rw [hmarked.splitMarks? hhash, Option.some.injEq, Prod.mk.injEq] at hsplit
  exact hsplit

/-- The only numerals that are a sign and ASCII digits are those written so. -/
theorem IsNumeral.mark_eq_nil {sign' ds' : List Char} (h : IsNumeral r sign mark ds)
    (heq : sign ++ (mark ++ ds) = sign' ++ ds') (hsign : Sign sign') (hdigits : Digits r ds') :
    mark = [] ∧ IsAscii ds := by
  have hdigit : ∀ c ∈ mark ++ ds, IsDigit r c := by
    intro c hc
    obtain ⟨v, hv⟩ := h.exists_digitValue? c hc
    have hmem : c ∈ sign' ++ ds' := heq ▸ List.mem_append_right _ hc
    rcases List.mem_append.mp hmem with hmem | hmem
    · exact absurd (hsign.isSign c hmem) (not_isSign_of_digitValue? hv)
    · exact hdigits.2 c hmem
  refine ⟨?_, fun c hc => (hdigit c (List.mem_append_right _ hc)).isAscii⟩
  rcases h.mark with hmark | ⟨z, m, rfl, -, hm⟩
  · exact hmark
  · have hletter := hdigit m (by simp)
    obtain ⟨v, hle, hv⟩ := value_le_of_zeroMark hm
    obtain ⟨w, hlt, hw⟩ := (isAnyDigit_iff hletter.isAscii).mpr hletter
    rw [hv] at hw
    cases hw
    omega

theorem IsNumeral.digits_of_isAscii (h : IsNumeral r sign mark ds) (hascii : IsAscii ds) :
    Digits r ds :=
  ⟨h.digits.1, fun c hc => (isAnyDigit_iff (hascii c hc)).mp (h.digits.2 c hc)⟩

/-- A numeral is recognized if and only if it has no mark of the radix and ASCII digits. -/
theorem IsNumeral.classify?_iff {marks : Marks} (h : IsNumeral marks.radix sign mark ds)
    (hmarked : IsMarked marks (sign ++ (mark ++ ds)) text) :
    classify? text = some ⟨r, true, .integer⟩ ↔ marks.radix = r ∧ mark = [] ∧ IsAscii ds := by
  constructor
  · intro hclassify
    obtain ⟨marks', sign', ds', rfl, hmarked', hsign, hdigits⟩ :=
      exists_digits_of_classify? hclassify (h.not_folded hmarked)
    obtain ⟨rfl, heq⟩ := h.split_eq hmarked hmarked' hsign hdigits
    exact ⟨rfl, h.mark_eq_nil heq hsign hdigits⟩
  · rintro ⟨rfl, rfl, hascii⟩
    exact classify?_of_digits hmarked h.sign (h.digits_of_isAscii hascii)

theorem sign_append_inj {sign' x y : List Char} (hsign : Sign sign) (hsign' : Sign sign')
    (hx : ∀ c ∈ x.head?, ¬IsSign c) (hy : ∀ c ∈ y.head?, ¬IsSign c)
    (h : sign ++ x = sign' ++ y) : x = y := by
  rcases hsign with rfl | ⟨c, hc, rfl⟩
  · rcases hsign' with rfl | ⟨d, hd, rfl⟩
    · exact h
    · rw [List.nil_append] at h
      exact absurd hd (hx d (by simp [h]))
  · rcases hsign' with rfl | ⟨d, hd, rfl⟩
    · rw [List.nil_append] at h
      exact absurd hc (hy c (by simp [← h]))
    · exact (List.cons.inj h).2

theorem Derives.IsDigit.not_isSign (h : IsDigit r c) : ¬IsSign c := by
  obtain ⟨v, -, hv⟩ := (isAnyDigit_iff h.isAscii).mpr h
  exact not_isSign_of_digitValue? hv

/-- ASCII digits are read if there are not too many. -/
theorem exists_integer_iff {marks : Marks} (hmarked : IsMarked marks (sign ++ ds) text)
    (hsign : Sign sign) (hdigits : Digits marks.radix ds) :
    (∃ n, Literal.integer text = .ok n) ↔ (marks.radix = .decimal → ds.length ≤ maxDigits) := by
  constructor
  · rintro ⟨n, hn⟩
    obtain ⟨marks', sign', mark, ds', hmarked', hnumeral, -⟩ := integer_eq_ok.mp hn
    obtain ⟨rfl, heq⟩ := hnumeral.split_eq hmarked' hmarked hsign hdigits
    obtain ⟨rfl, hascii⟩ := hnumeral.mark_eq_nil heq hsign hdigits
    have hsame : ds' = ds := by
      refine sign_append_inj hnumeral.sign hsign ?_ ?_ heq
      · intro c hc
        obtain ⟨v, hv⟩ := hnumeral.exists_digitValue? c (List.mem_of_head? hc)
        exact not_isSign_of_digitValue? hv
      · exact fun c hc => (hdigits.2 c (List.mem_of_head? hc)).not_isSign
    exact hsame ▸ hnumeral.length
  · intro hlength
    have hany : AnyDigits marks.radix ds :=
      ⟨hdigits.1, fun c hc => (isAnyDigit_iff (hdigits.2 c hc).isAscii).mpr (hdigits.2 c hc)⟩
    exact ⟨_, integer_eq_ok.mpr
      ⟨marks, sign, [], ds, hmarked, ⟨hsign, .inl rfl, hany, hlength⟩, rfl⟩⟩

/-- The text is read as an integer, but with a mark of the radix or with digits outside of ASCII. -/
def Lenient (text : List Char) : Prop :=
  ∃ marks sign mark ds, IsMarked marks (sign ++ (mark ++ ds)) text ∧
    IsNumeral marks.radix sign mark ds ∧ ¬(mark = [] ∧ IsAscii ds)

/-- The text is an integer with more decimal digits than are read. -/
def Overlong (text : List Char) : Prop :=
  ∃ marks sign ds, IsMarked marks (sign ++ ds) text ∧ marks.radix = .decimal ∧ Sign sign ∧
    Digits marks.radix ds ∧ maxDigits < ds.length

/-- What is read without being recognized is what only the liberal reader takes. -/
theorem lenient_iff : Lenient text ↔
    (∃ n, Literal.integer text = .ok n) ∧ ¬∃ r, classify? text = some ⟨r, true, .integer⟩ := by
  constructor
  · rintro ⟨marks, sign, mark, ds, hmarked, hnumeral, hlenient⟩
    refine ⟨⟨_, integer_eq_ok.mpr ⟨marks, sign, mark, ds, hmarked, hnumeral, rfl⟩⟩, ?_⟩
    rintro ⟨r, hclassify⟩
    exact hlenient ((hnumeral.classify?_iff hmarked).mp hclassify).2
  · rintro ⟨⟨n, hn⟩, hclassify⟩
    obtain ⟨marks, sign, mark, ds, hmarked, hnumeral, -⟩ := integer_eq_ok.mp hn
    exact ⟨marks, sign, mark, ds, hmarked, hnumeral,
      fun hplain => hclassify ⟨_, (hnumeral.classify?_iff hmarked).mpr ⟨rfl, hplain⟩⟩⟩

/-- A text that is recognized is read if it is neither overlong nor has a folded letter. -/
theorem exists_integer_of_classify? (h : classify? text = some ⟨r, true, .integer⟩) :
    (∃ n, Literal.integer text = .ok n) ↔ ¬Overlong text ∧ ¬Folded text := by
  constructor
  · rintro ⟨n, hn⟩
    constructor
    · rintro ⟨marks, sign, ds, hmarked, hradix, hsign, hdigits, hlength⟩
      have hle := (exists_integer_iff hmarked hsign hdigits).mp ⟨n, hn⟩ hradix
      omega
    · obtain ⟨marks, sign, mark, ds, hmarked, hnumeral, -⟩ := integer_eq_ok.mp hn
      exact hnumeral.not_folded hmarked
  · rintro ⟨hlong, hfolded⟩
    obtain ⟨marks, sign, ds, rfl, hmarked, hsign, hdigits⟩ := exists_digits_of_classify? h hfolded
    refine (exists_integer_iff hmarked hsign hdigits).mpr fun hradix => ?_
    by_contra hlength
    exact hlong ⟨marks, sign, ds, hmarked, hradix, hsign, hdigits, Nat.lt_of_not_le hlength⟩

theorem Overlong.exists_classify? (h : Overlong text) :
    ∃ r, classify? text = some ⟨r, true, .integer⟩ := by
  obtain ⟨marks, sign, ds, hmarked, -, hsign, hdigits, -⟩ := h
  exact ⟨_, classify?_of_digits hmarked hsign hdigits⟩

/-- A text is read as an integer if and only if it is recognized as an exact one, but for those that
are lenient, overlong or have a folded letter, where it is only read or only recognized. The value
of one that is both is that of its digits in the radix, with the sign, and one that is not read
gives the error that says so. -/
theorem integer_agrees (text : List Char) :
    (∀ e, Literal.integer text = .error e → e = .notInteger text) ∧
    ((∃ n, Literal.integer text = .ok n) ∧ ¬(∃ r, classify? text = some ⟨r, true, .integer⟩) ↔
      Lenient text) ∧
    ((∃ r, classify? text = some ⟨r, true, .integer⟩) ∧ ¬(∃ n, Literal.integer text = .ok n) ↔
      Overlong text ∨ (∃ r, classify? text = some ⟨r, true, .integer⟩) ∧ Folded text) ∧
    ∀ n r, Literal.integer text = .ok n → classify? text = some ⟨r, true, .integer⟩ →
      ∃ marks sign ds, marks.radix = r ∧ IsMarked marks (sign ++ ds) text ∧ Sign sign ∧
        Digits r ds ∧ n = signed sign
          (Nat.ofDigits r.value (ds.map fun c => digits.idxOf c.toLower).reverse) := by
  refine ⟨fun e => integer_eq_error, lenient_iff.symm, ⟨?_, ?_⟩, ?_⟩
  · rintro ⟨⟨r, hclassify⟩, hread⟩
    rw [exists_integer_of_classify? hclassify, not_and_or, not_not, not_not] at hread
    exact hread.imp_right fun hfolded => ⟨⟨r, hclassify⟩, hfolded⟩
  · rintro (hlong | ⟨⟨r, hclassify⟩, hfolded⟩)
    · obtain ⟨r, hclassify⟩ := hlong.exists_classify?
      exact ⟨⟨r, hclassify⟩, fun hread =>
        ((exists_integer_of_classify? hclassify).mp hread).1 hlong⟩
    · exact ⟨⟨r, hclassify⟩, fun hread =>
        ((exists_integer_of_classify? hclassify).mp hread).2 hfolded⟩
  · intro n r hn hclassify
    obtain ⟨marks, sign, mark, ds, hmarked, hnumeral, rfl⟩ := integer_eq_ok.mp hn
    obtain ⟨rfl, rfl, hascii⟩ := (hnumeral.classify?_iff hmarked).mp hclassify
    have hdigits : Digits marks.radix ds := hnumeral.digits_of_isAscii hascii
    refine ⟨marks, sign, ds, rfl, hmarked, hnumeral.sign, hdigits, ?_⟩
    rw [List.map_congr_left fun c hc => (hdigits.2 c hc).valueOf_eq]

/-- A negative hexadecimal integer is read and recognized, with one value. -/
theorem integer_agrees_hexadecimal :
    Literal.integer ['#', 'x', '-', '1', 'F'] = .ok (-31) ∧
      classify? ['#', 'x', '-', '1', 'F'] = some ⟨.hexadecimal, true, .integer⟩ ∧
      ¬Lenient ['#', 'x', '-', '1', 'F'] ∧
      ∃ marks sign ds, marks.radix = .hexadecimal ∧
        IsMarked marks (sign ++ ds) ['#', 'x', '-', '1', 'F'] ∧ Sign sign ∧
        Digits .hexadecimal ds ∧ (-31 : Int) = signed sign
          (Nat.ofDigits 16 (ds.map fun c => digits.idxOf c.toLower).reverse) := by
  have hread : Literal.integer ['#', 'x', '-', '1', 'F'] = .ok (-31) := by
    decide +kernel
  have hclassify : classify? ['#', 'x', '-', '1', 'F'] = some ⟨.hexadecimal, true, .integer⟩ := by
    decide +kernel
  obtain ⟨-, hlenient, -, hvalue⟩ := integer_agrees ['#', 'x', '-', '1', 'F']
  exact ⟨hread, hclassify, fun h => (hlenient.mpr h).2 ⟨_, hclassify⟩,
    hvalue _ _ hread hclassify⟩

/-- A mark of the radix behind a zero is read although it is not recognized, and a dotless `i` is
recognized as part of an integer although it is not read. -/
theorem integer_disagrees :
    Literal.integer ['#', 'x', '0', 'x', '1', 'F'] = .ok 31 ∧
      classify? ['#', 'x', '0', 'x', '1', 'F'] = none ∧
      Literal.integer ['+', '\u0131'] = .error (.notInteger ['+', '\u0131']) ∧
      classify? ['+', '\u0131'] = some ⟨.decimal, true, .integer⟩ := by
  refine ⟨?_, ?_, ?_, ?_⟩ <;> decide +kernel

end RacketTree.Number

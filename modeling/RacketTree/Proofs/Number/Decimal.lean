import Mathlib.Data.Nat.Digits.Defs
import RacketTree.Number.Integer

/-!
# Reading the digits of a number

The decimal digits of a number are read as that number (`readInteger?_toDigits`), unless there are
more of them than are read at all. Nothing is taken off their ends (`trim_eq`), since no digit is a
blank.
-/

namespace RacketTree

/-! ## Blanks at the ends -/

namespace Text

variable {α : Type} {p : α → Bool}

theorem dropWhile_of_head {x : α} {xs : List α} (h : p x = false) :
    (x :: xs).dropWhile p = x :: xs :=
  List.dropWhile_cons_of_neg (by simp [h])

/-- What stands between blanks at both ends, if it neither begins nor ends with one. -/
theorem trim_eq {front core back : List α} (hfront : ∀ x ∈ front, p x = true)
    (hback : ∀ x ∈ back, p x = true) (hhead : ∀ x ∈ core.head?, p x = false)
    (hlast : ∀ x ∈ core.getLast?, p x = false) (hne : core ≠ []) :
    (((front ++ (core ++ back)).dropWhile p).reverse.dropWhile p).reverse = core := by
  have hstart : (front ++ (core ++ back)).dropWhile p = core ++ back := by
    rw [List.dropWhile_append_of_pos hfront]
    obtain ⟨x, xs, rfl⟩ := List.exists_cons_of_ne_nil hne
    exact dropWhile_of_head (hhead x rfl)
  have hend : (back.reverse ++ core.reverse).dropWhile p = core.reverse := by
    rw [List.dropWhile_append_of_pos fun x hx => hback x (List.mem_reverse.mp hx)]
    obtain ⟨xs, x, rfl⟩ := (List.eq_nil_or_concat core).resolve_left hne
    rw [List.concat_eq_append, List.reverse_append]
    exact dropWhile_of_head (hlast x (by simp))
  rw [hstart, List.reverse_append, hend, List.reverse_reverse]

end Text

/-! ## Digits -/

namespace Number

theorem toNat_of_isDigit {c : Char} (h : c.isDigit = true) : 48 ≤ c.toNat ∧ c.toNat ≤ 57 :=
  Char.isDigit_iff_toNat.mp h

theorem isBlank_of_isDigit {c : Char} (h : c.isDigit = true) : Text.isBlank c = false := by
  obtain ⟨hlow, hhigh⟩ := toNat_of_isDigit h
  simp only [Text.isBlank, Text.inRanges, Text.blankRanges, List.any_eq_false, List.mem_cons,
    List.not_mem_nil, or_false]
  rintro range (rfl | rfl | rfl | rfl | rfl | rfl | rfl | rfl | rfl | rfl) <;>
    simp only [Bool.and_eq_true, decide_eq_true_eq] <;> omega

theorem digitValue?_of_isDigit {c : Char} (h : c.isDigit = true) :
    digitValue? c = some (c.toNat - 48) := by
  obtain ⟨hlow, hhigh⟩ := toNat_of_isDigit h
  have hzeros : Text.decimalZeros = 0x30 :: Text.decimalZeros.tail := rfl
  have hvalue : Text.decimalValue? c = some (c.toNat - 48) := by
    rw [Text.decimalValue?, hzeros, List.find?_cons_of_pos, Option.map_some]
    simp only [Bool.and_eq_true, decide_eq_true_eq]
    omega
  rw [digitValue?, hvalue]

theorem digitValues?_of_isDigit {cs : List Char} (hne : cs ≠ []) (h : ∀ c ∈ cs, c.isDigit = true) :
    digitValues? .decimal cs = some (cs.map fun c => c.toNat - 48) := by
  induction cs with
  | nil => exact absurd rfl hne
  | cons c cs ih =>
    have hc := h c List.mem_cons_self
    have hlt : c.toNat - 48 < Radix.value .decimal := by
      have := toNat_of_isDigit hc
      simp only [Radix.value]
      omega
    rw [digitValues?, digitValue?_of_isDigit hc]
    simp only [if_pos hlt]
    split
    · rfl
    · have hmark : ('_' : Char).isDigit = true := h '_' (by simp)
      cases hmark
    · rename_i hcs _
      rw [ih hcs fun x hx => h x (List.mem_cons_of_mem _ hx)]
      rfl

theorem ofDigits_map (cs : List Char) :
    ofDigits 10 (cs.map fun c => c.toNat - 48) = Nat.ofDigitChars 10 cs 0 := by
  rw [ofDigits, List.foldl_map, Nat.ofDigitChars_eq_foldl]
  congr 1
  funext n c
  rw [Nat.mul_comm]
  rfl

theorem isDigit_of_mem {n : Nat} {c : Char} (h : c ∈ Nat.toDigits 10 n) : c.isDigit = true :=
  Nat.isDigit_of_mem_toDigits (by decide) (by decide) h

/-- The digits of a number are read as the number, unless there are too many. -/
theorem readInteger?_toDigits_eq (n : Nat) :
    readInteger? .decimal (Nat.toDigits 10 n) =
      if maxDigits < (Nat.toDigits 10 n).length then none else some (n : Int) := by
  have hdigit : ∀ c ∈ Nat.toDigits 10 n, c.isDigit = true := fun c hc => isDigit_of_mem hc
  have hne : Nat.toDigits 10 n ≠ [] := Nat.toDigits_ne_nil
  have hmargin : ∀ c ∈ Nat.toDigits 10 n, isMargin c = false := fun c hc => by
    rw [isMargin, isBlank_of_isDigit (hdigit c hc), Bool.false_and]
  have htrim : dropMargins (Nat.toDigits 10 n) = Nat.toDigits 10 n := by
    have hcore := @Text.trim_eq _ isMargin [] (Nat.toDigits 10 n) [] nofun nofun
      (fun x hx => hmargin x (List.mem_of_head? hx))
      (fun x hx => hmargin x (List.mem_of_getLast? hx)) hne
    rwa [List.nil_append, List.append_nil] at hcore
  have hmark : dropRadixMark .decimal (Nat.toDigits 10 n) = Nat.toDigits 10 n := by
    unfold dropRadixMark
    split
    · rename_i hdigits
      simp [hdigits]
    · rfl
  have hnatural : readNatural? .decimal (Nat.toDigits 10 n) =
      if maxDigits < (Nat.toDigits 10 n).length then none else some n := by
    rw [readNatural?, hmark, digitValues?_of_isDigit hne hdigit]
    simp only [List.length_map, decide_true, Bool.true_and, decide_eq_true_eq]
    rw [Radix.value, ofDigits_map, Nat.ofDigitChars_toDigits (by decide) (by decide)]
  -- a sign is no digit
  rw [readInteger?, htrim]
  split
  · rename_i hdigits
    have hsign : ('-' : Char).isDigit = true := hdigit '-' (by rw [hdigits]; simp)
    cases hsign
  · rename_i hdigits
    have hsign : ('+' : Char).isDigit = true := hdigit '+' (by rw [hdigits]; simp)
    cases hsign
  · rw [hnatural]
    split <;> rfl

theorem readInteger?_toDigits {n : Nat} (h : (Nat.toDigits 10 n).length ≤ maxDigits) :
    readInteger? .decimal (Nat.toDigits 10 n) = some (n : Int) := by
  rw [readInteger?_toDigits_eq, if_neg (Nat.not_lt.mpr h)]

end Number

end RacketTree

import Mathlib.Computability.Language
import RacketTree.Number.Pattern

/-!
# The language of a pattern

A pattern stands for a language, the set of the texts that it matches from end to end. Nullability
and derivatives say of this language what they are to say (`nullable_iff`, `mem_language_deriv`), so
that `accepts` decides it (`accepts_iff`). The simplified constructors change a pattern, but not its
language.

What the patterns for repeated characters, options and sequences match is told by one lemma each.
-/

namespace RacketTree.Number.Pattern

open Computability

/-- The texts that a pattern matches. -/
def language : Pattern → Language Char
  | never => 0
  | empty => 1
  | char accepts => {text | ∃ c, accepts c = true ∧ text = [c]}
  | alt p q => p.language + q.language
  | seq p q => p.language * q.language
  | star p => p.language∗

variable {p q : Pattern} {c : Char} {text : List Char}

/-! ## Constructors -/

theorem mem_char {accepts : Char → Bool} :
    text ∈ (char accepts).language ↔ ∃ c, accepts c = true ∧ text = [c] :=
  Iff.rfl

theorem mem_alt : text ∈ (alt p q).language ↔ text ∈ p.language ∨ text ∈ q.language :=
  Language.mem_add _ _ _

theorem mem_seq : text ∈ (seq p q).language ↔
    ∃ front back, text = front ++ back ∧ front ∈ p.language ∧ back ∈ q.language := by
  rw [language, Language.mem_mul]
  constructor
  · rintro ⟨front, hfront, back, hback, rfl⟩
    exact ⟨front, back, rfl, hfront, hback⟩
  · rintro ⟨front, back, rfl, hfront, hback⟩
    exact ⟨front, hfront, back, hback, rfl⟩

theorem language_orElse (p q : Pattern) : (p.orElse q).language = p.language + q.language := by
  unfold orElse
  split
  · rw [language, zero_add]
  · rw [language, add_zero]
  · rw [language]

theorem language_andThen (p q : Pattern) : (p.andThen q).language = p.language * q.language := by
  unfold andThen
  split
  · rw [language, zero_mul]
  · rw [language, one_mul]
  · rw [language, mul_zero]
  · rw [language]

/-! ## Derivatives -/

theorem nullable_iff (p : Pattern) : p.nullable = true ↔ [] ∈ p.language := by
  induction p with
  | never => simp [nullable, language]
  | empty => simp [nullable, language]
  | char accepts => simp [nullable, mem_char]
  | alt p q ihp ihq => rw [nullable, Bool.or_eq_true, ihp, ihq, mem_alt]
  | seq p q ihp ihq =>
    rw [nullable, Bool.and_eq_true, ihp, ihq, mem_seq]
    constructor
    · rintro ⟨hp, hq⟩
      exact ⟨[], [], rfl, hp, hq⟩
    · rintro ⟨front, back, heq, hfront, hback⟩
      obtain ⟨rfl, rfl⟩ := List.append_eq_nil_iff.mp heq.symm
      exact ⟨hfront, hback⟩
  | star p => simp [nullable, language, Language.nil_mem_kstar]

/-- A text that starts with a character is matched in a repetition if a first part of it is. -/
theorem cons_mem_kstar {l : Language Char} :
    c :: text ∈ l∗ ↔ ∃ front, c :: front ∈ l ∧ ∃ back ∈ l∗, front ++ back = text := by
  constructor
  · intro h
    obtain ⟨parts, hparts, hall⟩ := Language.mem_kstar_iff_exists_nonempty.mp h
    cases parts with
    | nil => cases hparts
    | cons part parts =>
      obtain ⟨hpart, hne⟩ := hall part List.mem_cons_self
      obtain ⟨d, front, rfl⟩ := List.exists_cons_of_ne_nil hne
      obtain ⟨rfl, rfl⟩ := List.cons.inj hparts
      refine ⟨front, hpart, parts.flatten, ?_, rfl⟩
      exact Language.join_mem_kstar fun y hy => (hall y (List.mem_cons_of_mem _ hy)).1
  · rintro ⟨front, hfront, back, hback, rfl⟩
    obtain ⟨parts, rfl, hparts⟩ := hback
    exact ⟨(c :: front) :: parts, rfl, List.forall_mem_cons.mpr ⟨hfront, hparts⟩⟩

theorem cons_mem_mul {l m : Language Char} :
    c :: text ∈ l * m ↔ (∃ front, c :: front ∈ l ∧ ∃ back ∈ m, front ++ back = text) ∨
      [] ∈ l ∧ c :: text ∈ m := by
  rw [Language.mem_mul]
  constructor
  · rintro ⟨front, hfront, back, hback, heq⟩
    cases front with
    | nil => exact .inr ⟨hfront, heq ▸ hback⟩
    | cons d front =>
      obtain ⟨rfl, rfl⟩ := List.cons.inj heq
      exact .inl ⟨front, hfront, back, hback, rfl⟩
  · rintro (⟨front, hfront, back, hback, rfl⟩ | ⟨hnil, hm⟩)
    · exact ⟨c :: front, hfront, back, hback, rfl⟩
    · exact ⟨[], hnil, c :: text, hm, rfl⟩

theorem mem_language_deriv (p : Pattern) (c : Char) (text : List Char) :
    text ∈ (p.deriv c).language ↔ c :: text ∈ p.language := by
  induction p generalizing text with
  | never => exact Iff.rfl
  | empty => simp [deriv, language]
  | char accepts =>
    rw [deriv, mem_char]
    split
    · simp_all [language]
    · simp_all [language]
  | alt p q ihp ihq => rw [deriv, language_orElse, Language.mem_add, ihp, ihq, mem_alt]
  | seq p q ihp ihq =>
    rw [language, cons_mem_mul, deriv]
    split
    · rename_i hnull
      rw [language_orElse, language_andThen, Language.mem_add, Language.mem_mul, ihq]
      simp [ihp, (nullable_iff p).mp hnull]
    · rename_i hnull
      rw [nullable_iff] at hnull
      rw [language_andThen, Language.mem_mul]
      simp [ihp, hnull]
  | star p ih =>
    rw [deriv, language_andThen, language, Language.mem_mul, cons_mem_kstar]
    simp only [ih]

/-- A pattern accepts the texts of its language. -/
theorem accepts_iff : p.accepts text = true ↔ text ∈ p.language := by
  induction text generalizing p with
  | nil => exact nullable_iff p
  | cons c text ih =>
    rw [← mem_language_deriv, ← ih]
    rfl

/-! ## Derived patterns -/

theorem mem_star_char {accepts : Char → Bool} :
    text ∈ (star (char accepts)).language ↔ ∀ c ∈ text, accepts c = true := by
  induction text with
  | nil => exact iff_of_true (Language.nil_mem_kstar _) (by simp)
  | cons c text ih =>
    rw [language] at ih ⊢
    rw [cons_mem_kstar, List.forall_mem_cons, ← ih]
    simp [mem_char]

theorem mem_many1_char {accepts : Char → Bool} :
    text ∈ (many1 (char accepts)).language ↔ text ≠ [] ∧ ∀ c ∈ text, accepts c = true := by
  rw [many1, mem_seq]
  constructor
  · rintro ⟨_, back, rfl, ⟨c, hc, rfl⟩, hback⟩
    exact ⟨List.cons_ne_nil _ _, List.forall_mem_cons.mpr ⟨hc, mem_star_char.mp hback⟩⟩
  · rintro ⟨hne, hall⟩
    obtain ⟨c, back, rfl⟩ := List.exists_cons_of_ne_nil hne
    obtain ⟨hc, hback⟩ := List.forall_mem_cons.mp hall
    exact ⟨[c], back, rfl, ⟨c, hc, rfl⟩, mem_star_char.mpr hback⟩

theorem mem_exactly : text ∈ (exactly c).language ↔ text = [c] := by
  simp [exactly, mem_char]

theorem mem_star_exactly : text ∈ (star (exactly c)).language ↔
    ∃ n, text = List.replicate n c := by
  rw [exactly, mem_star_char]
  constructor
  · intro h
    exact ⟨text.length, List.eq_replicate_of_mem fun d hd => by simpa using h d hd⟩
  · rintro ⟨n, rfl⟩ d hd
    simp [(List.mem_replicate.mp hd).2]

theorem mem_optional : text ∈ (optional p).language ↔ text = [] ∨ text ∈ p.language := by
  rw [optional, mem_alt]
  exact Iff.rfl

theorem mem_inOrder_nil : text ∈ (inOrder []).language ↔ text = [] :=
  Iff.rfl

theorem mem_inOrder_singleton : text ∈ (inOrder [p]).language ↔ text ∈ p.language := by
  rw [inOrder, List.foldr_cons, List.foldr_nil, language, language, mul_one]

theorem mem_inOrder_cons {ps : List Pattern} : text ∈ (inOrder (p :: ps)).language ↔
    ∃ front back, text = front ++ back ∧ front ∈ p.language ∧ back ∈ (inOrder ps).language :=
  mem_seq

theorem mem_inOrder_cons_cons {ps : List Pattern} : text ∈ (inOrder (p :: q :: ps)).language ↔
    ∃ front back, text = front ++ back ∧ front ∈ p.language ∧
      back ∈ (inOrder (q :: ps)).language :=
  mem_seq

theorem mem_oneOf {ps : List Pattern} :
    text ∈ (oneOf ps).language ↔ ∃ p ∈ ps, text ∈ p.language := by
  induction ps with
  | nil => simp [oneOf, language]
  | cons p ps ih =>
    rw [oneOf, List.foldr_cons, mem_alt, ← oneOf, ih]
    simp

/-! ## Characters -/

/-- Every character that the pattern can match is of the class. -/
def Within (isOfClass : Char → Prop) : Pattern → Prop
  | never => True
  | empty => True
  | char accepts => ∀ c, accepts c = true → isOfClass c
  | alt x y => x.Within isOfClass ∧ y.Within isOfClass
  | seq x y => x.Within isOfClass ∧ y.Within isOfClass
  | star x => x.Within isOfClass

theorem Within.forall_mem {isOfClass : Char → Prop} {x : Pattern} (h : x.Within isOfClass)
    (htext : text ∈ x.language) : ∀ c ∈ text, isOfClass c := by
  induction x generalizing text with
  | never => cases htext
  | empty =>
    cases htext
    nofun
  | char accepts =>
    obtain ⟨c, hc, rfl⟩ := htext
    simpa using h c hc
  | alt x y ihx ihy =>
    rcases mem_alt.mp htext with htext | htext
    · exact ihx h.1 htext
    · exact ihy h.2 htext
  | seq x y ihx ihy =>
    obtain ⟨front, back, rfl, hfront, hback⟩ := mem_seq.mp htext
    exact List.forall_mem_append.mpr ⟨ihx h.1 hfront, ihy h.2 hback⟩
  | star x ih =>
    obtain ⟨parts, rfl, hparts⟩ := htext
    intro c hc
    obtain ⟨part, hpart, hc⟩ := List.mem_flatten.mp hc
    exact ih h (hparts part hpart) c hc

end RacketTree.Number.Pattern

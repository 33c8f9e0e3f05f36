import RacketTree.Proofs.Number.Derivation

/-!
# Classification of numbers

The category and the exactness of a number are read off single letters of its body: a final `i`, a
slash, a point, a letter that can mark an exponent. They agree with the derivation of the body.

What the letters tell of the precision is kept by putting texts side by side (`Tells.append`), and a
real has no letter that would tell something else (`Real.plain`). So the classification of a text
gives what its derivation says, and there is one if and only if there is a derivation
(`classify?_iff_derives`).
-/

namespace RacketTree.Number

open Derives

variable {r : Radix} {k : Category} {p q : Precision} {text x y : List Char} {c : Char}

namespace Precision

theorem join_eq_special : p.join q = .special ↔ p = .special ∨ q = .special := by
  cases p <;> cases q <;> decide

theorem join_eq_exact : p.join q = .exact ↔ p = .exact ∧ q = .exact := by
  cases p <;> cases q <;> decide

@[simp] theorem exact_join (p : Precision) : exact.join p = p := by
  cases p <;> rfl

@[simp] theorem join_exact (p : Precision) : p.join exact = p := by
  cases p <;> rfl

end Precision

/-! ## Words -/

theorem hasWord_append_left {a b d : Char} (h : hasWord a b d x = true) (y : List Char) :
    hasWord a b d (x ++ y) = true := by
  fun_induction hasWord a b d x with
  | case1 u v w rest ih =>
    rw [List.cons_append, List.cons_append, List.cons_append, hasWord, Bool.or_eq_true]
    rcases Bool.or_eq_true_iff.mp h with h | h
    · exact .inl h
    · exact .inr (ih h)
  | case2 => cases h

theorem hasWord_append_right {a b d : Char} (h : hasWord a b d y = true) (x : List Char) :
    hasWord a b d (x ++ y) = true := by
  induction x with
  | nil => exact h
  | cons u x ih =>
    rw [List.cons_append]
    generalize x ++ y = z at ih
    unfold hasWord at ih
    split at ih
    · rw [hasWord, Bool.or_eq_true]
      right
      rw [hasWord]
      exact ih
    · cases ih

theorem exists_of_hasWord {a b d : Char} (h : hasWord a b d text = true) :
    (∃ c ∈ text, Text.foldsTo a c = true) ∧ ∃ c ∈ text, Text.foldsTo b c = true := by
  fun_induction hasWord a b d text with
  | case1 u v w rest ih =>
    rcases Bool.or_eq_true_iff.mp h with h | h
    · simp only [Bool.and_eq_true] at h
      exact ⟨⟨u, by simp, h.1.1⟩, v, by simp, h.1.2⟩
    · obtain ⟨⟨e, he, ha⟩, g, hg, hb⟩ := ih h
      exact ⟨⟨e, List.mem_cons_of_mem _ he, ha⟩, g, List.mem_cons_of_mem _ hg, hb⟩
  | case2 => cases h

theorem hasSpecial_append_left (h : hasSpecial x = true) (y : List Char) :
    hasSpecial (x ++ y) = true := by
  rw [hasSpecial, Bool.or_eq_true] at h ⊢
  exact h.imp (hasWord_append_left · y) (hasWord_append_left · y)

theorem hasSpecial_append_right (h : hasSpecial y = true) (x : List Char) :
    hasSpecial (x ++ y) = true := by
  rw [hasSpecial, Bool.or_eq_true] at h ⊢
  exact h.imp (hasWord_append_right · x) (hasWord_append_right · x)

theorem hasSpecial_eq_false (hascii : IsAscii text) (h : ∀ c ∈ text, c.toLower ≠ 'n') :
    hasSpecial text = false := by
  have hfold : ¬∃ c ∈ text, Text.foldsTo 'n' c = true := by
    rintro ⟨c, hc, hfold⟩
    rw [foldsTo_of_isAscii (hascii c hc), beq_iff_eq] at hfold
    exact h c hc hfold
  rw [hasSpecial, Bool.or_eq_false_iff, Bool.eq_false_iff, Bool.eq_false_iff]
  exact ⟨fun hword => hfold (exists_of_hasWord hword).2,
    fun hword => hfold (exists_of_hasWord hword).1⟩

theorem Derives.Special.hasSpecial (h : Special text) (hascii : IsAscii text) :
    hasSpecial text = true := by
  obtain ⟨hname, hc⟩ := h
  rename_i name c
  have hfold : ∀ d ∈ name, ∀ letter, d.toLower = letter → Text.foldsTo letter d = true := by
    rintro d hd letter rfl
    rw [foldsTo_of_isAscii (hascii d (List.mem_append_left _ hd)), beq_self_eq_true]
  refine hasSpecial_append_left ?_ _
  rw [Number.hasSpecial, Bool.or_eq_true]
  simp only [List.mem_cons, List.not_mem_nil, or_false] at hname
  rcases hname with hname | hname
  · left
    obtain ⟨u, _, rfl, hu, hname⟩ := List.map_eq_cons_iff.mp hname
    obtain ⟨v, _, rfl, hv, hname⟩ := List.map_eq_cons_iff.mp hname
    obtain ⟨w, _, rfl, hw, hname⟩ := List.map_eq_cons_iff.mp hname
    simp [hasWord, hfold u (by simp) _ hu, hfold v (by simp) _ hv, hfold w (by simp) _ hw]
  · right
    obtain ⟨u, _, rfl, hu, hname⟩ := List.map_eq_cons_iff.mp hname
    obtain ⟨v, _, rfl, hv, hname⟩ := List.map_eq_cons_iff.mp hname
    obtain ⟨w, _, rfl, hw, hname⟩ := List.map_eq_cons_iff.mp hname
    simp [hasWord, hfold u (by simp) _ hu, hfold v (by simp) _ hv, hfold w (by simp) _ hw]

/-! ## What letters tell -/

/-- A character that only an inexact number has. -/
def IsInexactMark (r : Radix) (c : Char) : Prop :=
  c = '.' ∨ c = '#' ∨ c.toLower ∈ r.exponentMarks

/-- The letters of the text tell how precise it is. -/
structure Tells (r : Radix) (p : Precision) (text : List Char) : Prop where
  special : p = .special → hasSpecial text = true
  ordinary : p ≠ .special → ∀ c ∈ text, c.toLower ≠ 'n'
  inexact : p ≠ .exact ↔ ∃ c ∈ text, IsInexactMark r c

/-- The character tells nothing. -/
def IsNeutral (r : Radix) (c : Char) : Prop :=
  c.toLower ≠ 'n' ∧ ¬IsInexactMark r c

theorem tells_exact (h : ∀ c ∈ text, IsNeutral r c) : Tells r .exact text := by
  refine ⟨nofun, fun _ c hc => (h c hc).1, ?_⟩
  simp only [ne_eq, not_true_eq_false, false_iff, not_exists, not_and]
  exact fun c hc => (h c hc).2

theorem tells_inexact (h : ∀ c ∈ text, c.toLower ≠ 'n') (hc : c ∈ text)
    (hmark : IsInexactMark r c) : Tells r .inexact text :=
  ⟨nofun, fun _ => h, iff_of_true nofun ⟨c, hc, hmark⟩⟩

theorem Tells.append (hx : Tells r p x) (hy : Tells r q y) : Tells r (p.join q) (x ++ y) := by
  refine ⟨?_, ?_, ?_⟩
  · rw [Precision.join_eq_special]
    rintro (hp | hq)
    · exact hasSpecial_append_left (hx.special hp) y
    · exact hasSpecial_append_right (hy.special hq) x
  · rw [ne_eq, Precision.join_eq_special, not_or]
    rintro ⟨hp, hq⟩
    exact List.forall_mem_append.mpr ⟨hx.ordinary hp, hy.ordinary hq⟩
  · rw [ne_eq, Precision.join_eq_exact, not_and_or]
    simp only [List.mem_append, or_and_right, exists_or]
    exact or_congr hx.inexact hy.inexact

theorem Tells.hasSpecial_eq (h : Tells r p text) (hascii : IsAscii text) :
    hasSpecial text = decide (p = .special) := by
  by_cases hp : p = .special
  · rw [h.special hp, decide_eq_true hp]
  · rw [hasSpecial_eq_false hascii (h.ordinary hp), decide_eq_false hp]

theorem hasExponent_iff (hascii : IsAscii text) :
    hasExponent r text = true ↔ ∃ c ∈ text, c.toLower ∈ r.exponentMarks := by
  rw [hasExponent, List.any_eq_true]
  refine exists_congr fun c => and_congr_right fun hc => ?_
  rw [List.contains_iff_mem, lower_of_isAscii (hascii c hc)]

/-- A point, a `#`, a special value or an exponent is there if and only if the text is inexact. -/
theorem Tells.isInexact_iff (h : Tells r p text) (hascii : IsAscii text) :
    (hasInexactPart text || hasExponent r text) = true ↔ p ≠ .exact := by
  rw [hasInexactPart, h.hasSpecial_eq hascii, Bool.or_eq_true, Bool.or_eq_true,
    hasExponent_iff hascii, h.inexact]
  simp only [List.any_eq_true, Bool.or_eq_true, beq_iff_eq, decide_eq_true_eq, IsInexactMark]
  constructor
  · rintro ((⟨c, hc, rfl | rfl⟩ | rfl) | ⟨c, hc, hmark⟩)
    · exact ⟨_, hc, .inl rfl⟩
    · exact ⟨_, hc, .inr (.inl rfl)⟩
    · exact h.inexact.mp nofun
    · exact ⟨c, hc, .inr (.inr hmark)⟩
  · rintro ⟨c, hc, rfl | rfl | hmark⟩
    · exact .inl (.inl ⟨_, hc, .inl rfl⟩)
    · exact .inl (.inl ⟨_, hc, .inr rfl⟩)
    · exact .inr ⟨c, hc, hmark⟩

/-! ## Characters of reals -/

theorem exponentMarks_subset (r : Radix) : r.exponentMarks ⊆ ['e', 's', 'f', 'd', 'l', 't'] := by
  cases r <;> decide

theorem isNeutral_of_notMem (h : c.toLower ∉ ['n', '.', '#', 'e', 's', 'f', 'd', 'l', 't']) :
    IsNeutral r c := by
  refine ⟨fun hc => h (by simp [hc]), ?_⟩
  rintro (rfl | rfl | hmark)
  · exact h (by decide)
  · exact h (by decide)
  · exact h (List.mem_cons_of_mem _ (List.mem_cons_of_mem _ (List.mem_cons_of_mem _
      (exponentMarks_subset r hmark))))

theorem isNeutral_sign (h : IsSign c) : IsNeutral r c := by
  rcases h with rfl | rfl <;> exact isNeutral_of_notMem (by decide)

/-- A digit is none of the characters that tell something. -/
theorem Derives.IsDigit.neutral (h : IsDigit r c) : IsNeutral r c := by
  have hdigit : c.toLower ∈ digits := List.mem_of_mem_take h
  refine ⟨?_, ?_⟩
  · intro hc
    rw [hc] at hdigit
    revert hdigit
    decide
  · rintro (rfl | rfl | hmark)
    · revert hdigit
      decide
    · revert hdigit
      decide
    · -- the digits of the radix come before the letters for its exponents
      have hdisjoint : ∀ d ∈ digits.take r.value, d ∉ r.exponentMarks := by
        cases r <;> exact List.all_iff_forall_prop.mp (by decide)
      exact hdisjoint _ h hmark

/-- The characters of a real of a category, if it is no special value. -/
def IsRealChar (r : Radix) (k : Category) (c : Char) : Prop :=
  IsDigit r c ∨ c = '#' ∨ k = .rational ∧ c = '/' ∨
    k = .decimal ∧ (c = '.' ∨ IsSign c ∨ c.toLower ∈ r.exponentMarks)

theorem IsRealChar.toLower_notMem (h : IsRealChar r k c) : c.toLower ∉ ['n', 'i', '@'] := by
  rcases h with h | rfl | ⟨-, rfl⟩ | ⟨-, rfl | (rfl | rfl) | h⟩
  · have hdigits : ∀ d ∈ digits, d ∉ ['n', 'i', '@'] :=
      List.all_iff_forall_prop.mp (by decide)
    exact hdigits _ (List.mem_of_mem_take h)
  · decide
  · decide
  · decide
  · decide
  · decide
  · have hmarks : ∀ d ∈ ['e', 's', 'f', 'd', 'l', 't'], d ∉ ['n', 'i', '@'] :=
      List.all_iff_forall_prop.mp (by decide)
    exact hmarks _ (exponentMarks_subset r h)

theorem IsRealChar.eq_rational (h : IsRealChar r k '/') : k = .rational := by
  rcases h with h | h | ⟨hk, -⟩ | ⟨-, h | (h | h) | h⟩
  · exact absurd (List.mem_of_mem_take h : '/'.toLower ∈ digits) (by decide)
  · cases h
  · exact hk
  · cases h
  · cases h
  · cases h
  · exact absurd (exponentMarks_subset r h) (by decide)

namespace Derives

theorem Mantissa.forall_char (h : Mantissa r text) :
    ∀ c ∈ text, IsDigit r c ∨ c = '#' ∨ c = '.' := by
  intro c hc
  cases h with
  | hashed hwhole n =>
    simp only [List.mem_append] at hc
    exact hc.imp (hwhole.2 c) fun hc => .inl (List.eq_of_mem_replicate hc)
  | pointed hwhole m n =>
    simp only [List.mem_append, List.mem_cons] at hc
    rcases hc with (hc | hc) | rfl | hc
    · exact .inl (hwhole.2 c hc)
    · exact .inr (.inl (List.eq_of_mem_replicate hc))
    · exact .inr (.inr rfl)
    · exact .inr (.inl (List.eq_of_mem_replicate hc))
  | fraction hwhole hpart n =>
    simp only [List.mem_append, List.mem_cons] at hc
    rcases hc with hc | rfl | hc | hc
    · exact .inl (hwhole c hc)
    · exact .inr (.inr rfl)
    · exact .inl (hpart.2 c hc)
    · exact .inr (.inl (List.eq_of_mem_replicate hc))

theorem Mantissa.exists_mark (h : Mantissa r text) : ∃ c ∈ text, IsInexactMark r c := by
  cases h with
  | hashed hwhole n => exact ⟨'#', by simp, .inr (.inl rfl)⟩
  | pointed hwhole m n => exact ⟨'.', by simp, .inl rfl⟩
  | fraction hwhole hpart n => exact ⟨'.', by simp, .inl rfl⟩

theorem Exponent.forall_char (h : Exponent r text) :
    ∀ c ∈ text, IsDigit r c ∨ IsSign c ∨ c.toLower ∈ r.exponentMarks := by
  obtain ⟨hmark, hsign, hpower⟩ := h
  intro c hc
  simp only [List.mem_append, List.mem_cons] at hc
  rcases hc with rfl | hc | hc
  · exact .inr (.inr hmark)
  · rcases hsign with rfl | ⟨d, hd, rfl⟩
    · cases hc
    · rw [List.mem_singleton.mp hc]
      exact .inr (.inl hd)
  · exact .inl (hpower.2 c hc)

theorem Unsigned.forall_char (h : Unsigned r k p text) : ∀ c ∈ text, IsRealChar r k c := by
  intro c hc
  cases h with
  | integer h => exact .inl (h.2 c hc)
  | rational hx hy m n =>
    simp only [List.mem_append, List.mem_cons] at hc
    rcases hc with (hc | hc) | rfl | hc | hc
    · exact .inl (hx.2 c hc)
    · exact .inr (.inl (List.eq_of_mem_replicate hc))
    · exact .inr (.inr (.inl ⟨rfl, rfl⟩))
    · exact .inl (hy.2 c hc)
    · exact .inr (.inl (List.eq_of_mem_replicate hc))
  | decimal h =>
    rcases h.forall_char c hc with hc | hc | hc
    · exact .inl hc
    · exact .inr (.inl hc)
    · exact .inr (.inr (.inr ⟨rfl, .inl hc⟩))
  | scaled hx he =>
    rcases List.mem_append.mp hc with hc | hc
    · rcases hx with hx | hx
      · exact .inl (hx.2 c hc)
      · rcases hx.forall_char c hc with hc | hc | hc
        · exact .inl hc
        · exact .inr (.inl hc)
        · exact .inr (.inr (.inr ⟨rfl, .inl hc⟩))
    · rcases he.forall_char c hc with hc | hc
      · exact .inl hc
      · exact .inr (.inr (.inr ⟨rfl, .inr hc⟩))

theorem Unsigned.tells (h : Unsigned r k p text) : Tells r p text := by
  have hn : ∀ c ∈ text, c.toLower ≠ 'n' := by
    intro c hc hn
    exact (h.forall_char c hc).toLower_notMem (by simp [hn])
  cases h with
  | integer h => exact tells_exact fun c hc => (h.2 c hc).neutral
  | @rational x y hx hy m n =>
    by_cases hexact : m = 0 ∧ n = 0
    · rw [if_pos hexact]
      obtain ⟨rfl, rfl⟩ := hexact
      refine tells_exact fun c hc => ?_
      simp only [List.replicate_zero, List.append_nil, List.mem_append, List.mem_cons] at hc
      rcases hc with hc | rfl | hc
      · exact (hx.2 c hc).neutral
      · exact isNeutral_of_notMem (by decide)
      · exact (hy.2 c hc).neutral
    · rw [if_neg hexact]
      have hhash : '#' ∈ x ++ List.replicate m '#' ++ '/' :: (y ++ List.replicate n '#') := by
        rcases not_and_or.mp hexact with hm | hn
        · simp [hm]
        · simp [hn]
      exact tells_inexact hn hhash (.inr (.inl rfl))
  | decimal h =>
    obtain ⟨c, hc, hmark⟩ := h.exists_mark
    exact tells_inexact hn hc hmark
  | scaled hx he =>
    obtain ⟨hmark, -, -⟩ := he
    exact tells_inexact hn (List.mem_append_right _ List.mem_cons_self) (.inr (.inr hmark))

theorem Unsigned.category_cases (h : Unsigned r k p text) :
    k = .integer ∧ p = .exact ∨ k = .rational ∧ '/' ∈ text ∨ k = .decimal ∧ p ≠ .exact := by
  cases h with
  | integer h => exact .inl ⟨rfl, rfl⟩
  | rational hx hy m n => exact .inr (.inl ⟨rfl, by simp⟩)
  | decimal h => exact .inr (.inr ⟨rfl, nofun⟩)
  | scaled hx he => exact .inr (.inr ⟨rfl, nofun⟩)

theorem Special.forall_char (h : Special text) :
    ∀ c ∈ text, c.toLower ∈ ['i', 'n', 'f', 'a', '.', '0', 't'] := by
  obtain ⟨hname, hc⟩ := h
  rename_i name last
  have hname : ∀ c ∈ name, c.toLower ∈ ['i', 'n', 'f', 'a'] := by
    intro c hc
    have hmem : c.toLower ∈ name.map Char.toLower := List.mem_map_of_mem hc
    generalize name.map Char.toLower = lowered at hname hmem
    simp only [List.mem_cons, List.not_mem_nil, or_false] at hname
    rcases hname with rfl | rfl
    · exact (by decide : ['i', 'n', 'f'] ⊆ ['i', 'n', 'f', 'a']) hmem
    · exact (by decide : ['n', 'a', 'n'] ⊆ ['i', 'n', 'f', 'a']) hmem
  intro c hmem
  simp only [List.mem_append, List.mem_cons, List.not_mem_nil, or_false] at hmem
  rcases hmem with hmem | rfl | rfl
  · exact List.mem_append_left ['.', '0', 't'] (hname c hmem)
  · decide
  · exact (by decide : ['0', 'f', 't'] ⊆ ['i', 'n', 'f', 'a', '.', '0', 't']) hc

theorem Special.tells (h : Special text) (hascii : IsAscii text) : Tells r .special text := by
  refine ⟨fun _ => h.hasSpecial hascii, fun hne => absurd rfl hne, iff_of_true nofun ?_⟩
  obtain ⟨-, -⟩ := h
  exact ⟨'.', by simp, .inl rfl⟩

/-- What the letters of a real tell of its category. -/
structure RealTraits (r : Radix) (k : Category) (p : Precision) (text : List Char) : Prop where
  tells : Tells r p text
  notPolar : '@' ∉ text
  notImaginary : ∀ c, text.getLast? = some c → c.toLower ≠ 'i'
  slash : '/' ∈ text ↔ k = .rational
  unscaled : k = .rational → ∀ c ∈ text, c.toLower ∉ r.exponentMarks
  category : k = .integer ∧ p = .exact ∨ k = .rational ∨ k = .decimal ∧ p ≠ .exact

theorem Sign.isSign {sign : List Char} (h : Sign sign) : ∀ c ∈ sign, IsSign c := by
  rcases h with rfl | ⟨d, hd, rfl⟩
  · simp
  · intro c hc
    rw [List.mem_singleton.mp hc]
    exact hd

theorem Real.traits (h : Real r k p text) (hascii : IsAscii text) : RealTraits r k p text := by
  cases h with
  | @unsigned _ _ sign text hsign h =>
    have hsign := hsign.isSign
    have hsignLower : ∀ c ∈ sign, c.toLower ∉ ['n', 'i', '@', '/'] := by
      intro c hc
      rcases hsign c hc with rfl | rfl <;> decide
    have hlower : ∀ c ∈ sign ++ text, c.toLower ∉ ['i', '@'] := by
      intro c hc hmem
      rcases List.mem_append.mp hc with hc | hc
      · exact hsignLower c hc (by simp_all)
      · exact (h.forall_char c hc).toLower_notMem (by simp_all)
    refine ⟨?_, ?_, ?_, ?_, ?_, ?_⟩
    · simpa using (tells_exact fun c hc => isNeutral_sign (hsign c hc)).append h.tells
    · intro hat
      exact hlower '@' hat (by decide)
    · intro c hc hi
      exact hlower c (List.mem_of_getLast? hc) (by simp [hi])
    · constructor
      · intro hslash
        rcases List.mem_append.mp hslash with hslash | hslash
        · exact absurd (by decide) (hsignLower '/' hslash)
        · exact (h.forall_char '/' hslash).eq_rational
      · rintro rfl
        rcases h.category_cases with ⟨hk, -⟩ | ⟨-, hslash⟩ | ⟨hk, -⟩
        · cases hk
        · exact List.mem_append_right _ hslash
        · cases hk
    · rintro rfl c hc hmark
      rcases List.mem_append.mp hc with hc | hc
      · exact (isNeutral_sign (hsign c hc)).2 (.inr (.inr hmark))
      · rcases h.forall_char c hc with hdigit | rfl | ⟨-, rfl⟩ | ⟨hk, -⟩
        · exact hdigit.neutral.2 (.inr (.inr hmark))
        · exact absurd (exponentMarks_subset r hmark) (by decide)
        · exact absurd (exponentMarks_subset r hmark) (by decide)
        · cases hk
    · rcases h.category_cases with h | ⟨hk, -⟩ | h
      · exact .inl h
      · exact .inr (.inl hk)
      · exact .inr (.inr h)
  | @special sign text hsign h =>
    have hnone : ∀ c ∈ ['@', '/'], c ∉ sign :: text := by
      intro c hc hmem
      rcases List.mem_cons.mp hmem with rfl | hmem
      · rcases hsign with rfl | rfl <;> revert hc <;> decide
      · have hother : ∀ d ∈ ['@', '/'], d.toLower ∉ ['i', 'n', 'f', 'a', '.', '0', 't'] :=
          List.all_iff_forall_prop.mp (by decide)
        exact hother c hc (h.forall_char c hmem)
    refine ⟨?_, hnone '@' (by decide), ?_, ?_, nofun, .inr (.inr ⟨rfl, nofun⟩)⟩
    · have htells : Tells r .exact [sign] := by
        refine tells_exact fun c hc => ?_
        rw [List.mem_singleton.mp hc]
        exact isNeutral_sign hsign
      exact htells.append (h.tells (isAscii_cons.mp hascii).2)
    · obtain ⟨-, hc⟩ := h
      intro c hlast hi
      simp only [← List.cons_append, List.getLast?_append, List.getLast?_cons_cons,
        List.getLast?_singleton, Option.some_or, Option.some.injEq] at hlast
      subst hlast
      rw [hi] at hc
      revert hc
      decide
    · exact iff_of_false (hnone '/' (by decide)) nofun

theorem isNeutral_i {i : Char} (hi : i.toLower = 'i') : IsNeutral r i :=
  isNeutral_of_notMem (by rw [hi]; decide)

theorem tells_singleton (h : IsNeutral r c) : Tells r .exact [c] := by
  refine tells_exact fun d hd => ?_
  rw [List.mem_singleton.mp hd]
  exact h

theorem Imaginary.tells (h : Imaginary r p text) (hascii : IsAscii text) : Tells r p text := by
  cases h with
  | unit hc hi =>
    exact (tells_singleton (isNeutral_sign hc)).append (tells_singleton (isNeutral_i hi))
  | unsigned hc h hi =>
    simpa using (tells_singleton (isNeutral_sign hc)).append
      (h.tells.append (tells_singleton (isNeutral_i hi)))
  | special hc h hi =>
    have htext := (isAscii_append.mp (isAscii_cons.mp hascii).2).1
    exact (tells_singleton (isNeutral_sign hc)).append
      ((h.tells htext).append (tells_singleton (isNeutral_i hi)))

theorem Imaginary.exists_last (h : Imaginary r p text) :
    ∃ i, text.getLast? = some i ∧ i.toLower = 'i' := by
  cases h with
  | unit hc hi => exact ⟨_, rfl, hi⟩
  | unsigned hc h hi => exact ⟨_, by rw [← List.cons_append, List.getLast?_concat], hi⟩
  | special hc h hi => exact ⟨_, by rw [← List.cons_append, List.getLast?_concat], hi⟩

end Derives

/-! ## Bodies -/

theorem categorize_of_last {i : Char} (hlast : text.getLast? = some i) (hi : i.toLower = 'i')
    (hascii : IsAscii text) : categorize r text = .complex := by
  have hlower := lower_of_isAscii (hascii i (List.mem_of_getLast? hlast))
  rw [categorize, hlast, Option.map_some, hlower, hi]
  rfl

theorem categorize_of_mem (h : '@' ∈ text) : categorize r text = .complex := by
  rw [categorize, List.contains_iff_mem.mpr h, Bool.or_true, if_pos rfl]

theorem Derives.RealTraits.categorize_eq (h : RealTraits r k p text) (hascii : IsAscii text) :
    categorize r text = k := by
  have hlast : (text.getLast?.map Text.lower == some 'i') = false := by
    cases hlast : text.getLast? with
    | none => rfl
    | some c =>
      rw [Option.map_some, lower_of_isAscii (hascii c (List.mem_of_getLast? hlast))]
      simpa using h.notImaginary c hlast
  have hat : text.contains '@' = false := by
    simpa using h.notPolar
  rw [categorize, hlast, hat, Bool.or_false, if_neg Bool.false_ne_true]
  rcases h.category with ⟨rfl, hp⟩ | rfl | ⟨rfl, hp⟩
  · have hslash : text.contains '/' = false := by
      simp [h.slash]
    rw [hslash, if_neg Bool.false_ne_true, if_neg]
    rw [h.tells.isInexact_iff hascii]
    exact fun hne => hne hp
  · rw [List.contains_iff_mem.mpr (h.slash.mpr rfl), if_pos rfl]
  · have hslash : text.contains '/' = false := by
      simp [h.slash]
    rw [hslash, if_neg Bool.false_ne_true, if_pos ((h.tells.isInexact_iff hascii).mpr hp)]

/-- A body is exact by itself if its precision is, where no exponent is overlooked. -/
theorem Tells.isExactBody_eq (h : Tells r p text) (hascii : IsAscii text)
    (hscale : categorize r text = .decimal ∨ categorize r text = .complex ∨
      hasExponent r text = false) :
    isExactBody r text = decide (p = .exact) := by
  have hinexact := h.isInexact_iff hascii
  have hpart : (hasInexactPart text || ((categorize r text == .decimal ||
      categorize r text == .complex) && hasExponent r text)) =
      (hasInexactPart text || hasExponent r text) := by
    rcases hscale with hk | hk | hnone
    · rw [hk]
      rfl
    · rw [hk]
      rfl
    · rw [hnone, Bool.and_false]
  rw [isExactBody, hpart]
  by_cases hp : p = .exact
  · rw [decide_eq_true hp, Bool.eq_false_iff.mpr fun htrue => hinexact.mp htrue hp]
    rfl
  · rw [decide_eq_false hp, hinexact.mpr hp]
    rfl

theorem Derives.RealTraits.isExactBody_eq (h : RealTraits r k p text) (hascii : IsAscii text) :
    isExactBody r text = decide (p = .exact) := by
  refine h.tells.isExactBody_eq hascii ?_
  rw [h.categorize_eq hascii]
  rcases h.category with ⟨-, hp⟩ | hk | ⟨hk, -⟩
  · have hinexact := h.tells.isInexact_iff hascii
    right
    right
    rw [Bool.eq_false_iff]
    exact fun htrue => hinexact.mp (by rw [htrue, Bool.or_true]) hp
  · right
    right
    rw [Bool.eq_false_iff, ne_eq, hasExponent_iff hascii]
    rintro ⟨c, hc, hmark⟩
    exact h.unscaled hk c hc hmark
  · exact .inl hk

theorem Tells.classified (h : Tells r p text) (hascii : IsAscii text)
    (hk : categorize r text = .complex) :
    categorize r text = .complex ∧ isExactBody r text = decide (p = .exact) ∧
      hasSpecial text = decide (p = .special) :=
  ⟨hk, h.isExactBody_eq hascii (.inr (.inl hk)), h.hasSpecial_eq hascii⟩

/-- What is read off the letters of a body agrees with its derivation. -/
theorem Derives.Body.classified (h : Body r k p text) (hascii : IsAscii text) :
    categorize r text = k ∧ isExactBody r text = decide (p = .exact) ∧
      hasSpecial text = decide (p = .special) := by
  cases h with
  | real h =>
    have traits := h.traits hascii
    exact ⟨traits.categorize_eq hascii, traits.isExactBody_eq hascii,
      traits.tells.hasSpecial_eq hascii⟩
  | imaginary h =>
    obtain ⟨i, hlast, hi⟩ := h.exists_last
    exact (h.tells hascii).classified hascii (categorize_of_last hlast hi hascii)
  | @rectangular _ _ _ x y hx hy =>
    obtain ⟨hxAscii, hyAscii⟩ := isAscii_append.mp hascii
    obtain ⟨i, hlast, hi⟩ := hy.exists_last
    have hend : (x ++ y).getLast? = some i := by
      rw [List.getLast?_append, hlast, Option.some_or]
    exact ((hx.traits hxAscii).tells.append (hy.tells hyAscii)).classified hascii
      (categorize_of_last hend hi hascii)
  | @polar _ _ _ _ x y hx hy =>
    obtain ⟨hxAscii, hyAscii⟩ := isAscii_append.mp hascii
    obtain ⟨-, hyAscii⟩ := isAscii_cons.mp hyAscii
    have hat : Tells r .exact ['@'] := tells_singleton (isNeutral_of_notMem (by decide))
    have htells := (hx.traits hxAscii).tells.append (hat.append (hy.traits hyAscii).tells)
    rw [Precision.exact_join] at htells
    have hmem : '@' ∈ x ++ '@' :: y := List.mem_append_right _ List.mem_cons_self
    exact htells.classified hascii (categorize_of_mem hmem)

/-! ## Marks -/

theorem ofMark?_eq_some {d : Char} : Radix.ofMark? d = some r ↔ (d, r) ∈ radixMarks := by
  unfold Radix.ofMark?
  split
  all_goals simp_all [radixMarks, eq_comm]

theorem mem_exactnessMarks {d : Char} {e : Bool} :
    (d, e) ∈ exactnessMarks ↔ (d = 'e' ∨ d = 'i') ∧ e = (d == 'e') := by
  simp only [exactnessMarks, List.mem_cons, List.not_mem_nil, or_false, Prod.mk.injEq]
  constructor
  · rintro (⟨rfl, rfl⟩ | ⟨rfl, rfl⟩) <;> decide
  · rintro ⟨rfl | rfl, rfl⟩ <;> decide

namespace Marks

variable {m m' : Marks} {d : Char} {e : Bool}

/-- A mark that is added is one for the radix or for exactness, and the first of its sort. -/
theorem add?_cases (h : m.add? d = some m') :
    (m.radix? = .none ∧ ∃ r, (d, r) ∈ radixMarks ∧ m' = { m with radix? := some r }) ∨
    (m.exactness? = .none ∧ ∃ e, (d, e) ∈ exactnessMarks ∧
      m' = { m with exactness? := some e }) := by
  unfold add? at h
  split at h
  · rename_i r hmark hradix
    cases h
    exact .inl ⟨hradix, r, ofMark?_eq_some.mp hmark, rfl⟩
  · split at h
    · rename_i hmark
      cases h
      rw [Bool.and_eq_true, Option.isNone_iff_eq_none] at hmark
      exact .inr ⟨hmark.2, _, mem_exactnessMarks.mpr ⟨by simpa using hmark.1, rfl⟩, rfl⟩
    · cases h

theorem add?_radix (hm : m.radix? = .none) (h : (d, r) ∈ radixMarks) :
    m.add? d = some { m with radix? := some r } := by
  rw [add?, ofMark?_eq_some.mpr h, hm]

theorem add?_exactness (hm : m.exactness? = .none) (h : (d, e) ∈ exactnessMarks) :
    m.add? d = some { m with exactness? := some e } := by
  obtain ⟨hd, rfl⟩ := mem_exactnessMarks.mp h
  have hnone : Radix.ofMark? d = .none := by
    rcases hd with rfl | rfl <;> rfl
  rw [add?, hnone]
  simp [hm, hd]

end Marks

/-- The Kelvin sign, the one letter whose lower case is told by its own rule, is no mark. -/
theorem lower_mem_marks {α : Type} {marks : List (Char × α)} {a : α}
    (hmarks : ∀ m ∈ marks, m.1 ≠ 'k' ∧ m.1.toNat < 128) :
    (Text.lower c, a) ∈ marks ↔ (c.toLower, a) ∈ marks := by
  rw [Text.lower]
  split
  · rename_i hc
    subst hc
    have hkelvin : ¬('\u212A'.toLower).toNat < 128 := by decide
    exact iff_of_false (fun h => (hmarks _ h).1 rfl) fun h => hkelvin (hmarks _ h).2
  · exact Iff.rfl

theorem lower_mem_radixMarks : (Text.lower c, r) ∈ radixMarks ↔ (c.toLower, r) ∈ radixMarks :=
  lower_mem_marks (by decide)

theorem lower_mem_exactnessMarks {e : Bool} :
    (Text.lower c, e) ∈ exactnessMarks ↔ (c.toLower, e) ∈ exactnessMarks :=
  lower_mem_marks (by decide)

theorem splitMarksFrom_cons (m : Marks) (c : Char) (rest : List Char) :
    splitMarksFrom m ('#' :: c :: rest) =
      (m.add? (Text.lower c)).bind fun m' => splitMarksFrom m' rest := by
  rw [splitMarksFrom]
  cases m.add? (Text.lower c) <;> rfl

theorem splitMarksFrom_body (m : Marks) {body : List Char} (h : body.head? ≠ some '#') :
    splitMarksFrom m body = some (m, body) := by
  unfold splitMarksFrom
  split
  · exact absurd rfl h
  · exact absurd rfl h
  · rfl

/-- Marks are split off the body that they stand before. -/
theorem splitMarks?_append {marks : Marks} {front body : List Char} (h : Front marks front)
    (hbody : body.head? ≠ some '#') : splitMarks? (front ++ body) = some (marks, body) := by
  rw [splitMarks?]
  cases h with
  | none => exact splitMarksFrom_body _ hbody
  | radix hc =>
    rw [List.cons_append, List.cons_append, splitMarksFrom_cons,
      Marks.add?_radix rfl (lower_mem_radixMarks.mpr hc)]
    exact splitMarksFrom_body _ hbody
  | exactness hc =>
    rw [List.cons_append, List.cons_append, splitMarksFrom_cons,
      Marks.add?_exactness rfl (lower_mem_exactnessMarks.mpr hc)]
    exact splitMarksFrom_body _ hbody
  | radixFirst hc hd =>
    rw [List.cons_append, List.cons_append, splitMarksFrom_cons,
      Marks.add?_radix rfl (lower_mem_radixMarks.mpr hc), Option.bind_some, List.cons_append,
      List.cons_append, splitMarksFrom_cons,
      Marks.add?_exactness rfl (lower_mem_exactnessMarks.mpr hd)]
    exact splitMarksFrom_body _ hbody
  | exactnessFirst hc hd =>
    rw [List.cons_append, List.cons_append, splitMarksFrom_cons,
      Marks.add?_exactness rfl (lower_mem_exactnessMarks.mpr hc), Option.bind_some,
      List.cons_append, List.cons_append, splitMarksFrom_cons,
      Marks.add?_radix rfl (lower_mem_radixMarks.mpr hd)]
    exact splitMarksFrom_body _ hbody

/-- Splitting a mark off, or coming to the body. -/
theorem splitMarksFrom_cases {m marks : Marks} {body : List Char}
    (h : splitMarksFrom m text = some (marks, body)) :
    text = body ∧ marks = m ∨ ∃ c rest m', text = '#' :: c :: rest ∧
      m.add? (Text.lower c) = some m' ∧ splitMarksFrom m' rest = some (marks, body) := by
  unfold splitMarksFrom at h
  split at h
  · rename_i c rest
    split at h
    · rename_i m' hadd
      exact .inr ⟨c, rest, m', rfl, hadd, h⟩
    · cases h
  · cases h
  · cases h
    exact .inl ⟨rfl, rfl⟩

/-- What is split off is at most one mark of each sort. -/
theorem exists_front {marks : Marks} {body : List Char}
    (h : splitMarks? text = some (marks, body)) :
    ∃ front, text = front ++ body ∧ Front marks front := by
  -- with a mark of either sort there is no further one
  have hfull : ∀ {r : Radix} {e : Bool} {rest : List Char},
      splitMarksFrom ⟨some r, some e⟩ rest = some (marks, body) →
        rest = body ∧ marks = ⟨some r, some e⟩ := by
    intro r e rest h
    rcases splitMarksFrom_cases h with h | ⟨c, rest, m', -, hadd, -⟩
    · exact h
    · rcases Marks.add?_cases hadd with ⟨hradix, -⟩ | ⟨hexact, -⟩
      · cases hradix
      · cases hexact
  rcases splitMarksFrom_cases h with ⟨rfl, rfl⟩ | ⟨c, rest, m', rfl, hadd, h⟩
  · exact ⟨[], rfl, .none⟩
  rcases Marks.add?_cases hadd with ⟨-, r, hc, rfl⟩ | ⟨-, e, hc, rfl⟩
  · rw [lower_mem_radixMarks] at hc
    rcases splitMarksFrom_cases h with ⟨rfl, rfl⟩ | ⟨d, rest, m', rfl, hadd, h⟩
    · exact ⟨['#', c], rfl, .radix hc⟩
    rcases Marks.add?_cases hadd with ⟨hradix, -⟩ | ⟨-, e, hd, rfl⟩
    · cases hradix
    · obtain ⟨rfl, rfl⟩ := hfull h
      exact ⟨['#', c, '#', d], rfl, .radixFirst hc (lower_mem_exactnessMarks.mp hd)⟩
  · rw [lower_mem_exactnessMarks] at hc
    rcases splitMarksFrom_cases h with ⟨rfl, rfl⟩ | ⟨d, rest, m', rfl, hadd, h⟩
    · exact ⟨['#', c], rfl, .exactness hc⟩
    rcases Marks.add?_cases hadd with ⟨-, r, hd, rfl⟩ | ⟨hexact, -⟩
    · obtain ⟨rfl, rfl⟩ := hfull h
      exact ⟨['#', c, '#', d], rfl, .exactnessFirst hc (lower_mem_radixMarks.mp hd)⟩
    · cases hexact

namespace Derives

/-- The text starts with a character other than `#`. -/
def StartsBody (text : List Char) : Prop :=
  ∃ c rest, text = c :: rest ∧ c ≠ '#'

theorem StartsBody.append (h : StartsBody x) (y : List Char) : StartsBody (x ++ y) := by
  obtain ⟨c, rest, rfl, hc⟩ := h
  exact ⟨c, rest ++ y, rfl, hc⟩

theorem StartsBody.head? (h : StartsBody text) : text.head? ≠ some '#' := by
  obtain ⟨c, rest, rfl, hc⟩ := h
  simpa using hc

theorem IsSign.ne_hash (h : IsSign c) : c ≠ '#' := by
  rcases h with rfl | rfl <;> decide

theorem Digits.startsBody (h : Digits r text) : StartsBody text := by
  obtain ⟨c, rest, rfl⟩ := List.exists_cons_of_ne_nil h.1
  refine ⟨c, rest, rfl, ?_⟩
  rintro rfl
  exact (h.2 '#' List.mem_cons_self).neutral.2 (.inr (.inl rfl))

theorem Mantissa.startsBody (h : Mantissa r text) : StartsBody text := by
  cases h with
  | hashed hwhole n => exact hwhole.startsBody.append _
  | pointed hwhole m n => exact (hwhole.startsBody.append _).append _
  | @fraction whole part hwhole hpart n =>
    cases whole with
    | nil => exact ⟨'.', _, rfl, by decide⟩
    | cons c whole =>
      have hdigits : Digits r (c :: whole) := ⟨List.cons_ne_nil _ _, hwhole⟩
      exact hdigits.startsBody.append _

theorem Unsigned.startsBody (h : Unsigned r k p text) : StartsBody text := by
  cases h with
  | integer h => exact h.startsBody
  | rational hx hy m n => exact (hx.startsBody.append _).append _
  | decimal h => exact h.startsBody
  | scaled hx he => exact (hx.elim Digits.startsBody Mantissa.startsBody).append _

theorem Real.startsBody (h : Real r k p text) : StartsBody text := by
  cases h with
  | unsigned hsign h =>
    rcases hsign with rfl | ⟨c, hc, rfl⟩
    · exact h.startsBody
    · exact ⟨c, _, rfl, hc.ne_hash⟩
  | special hc h => exact ⟨_, _, rfl, hc.ne_hash⟩

theorem Imaginary.startsBody (h : Imaginary r p text) : StartsBody text := by
  cases h with
  | unit hc hi => exact ⟨_, _, rfl, hc.ne_hash⟩
  | unsigned hc h hi => exact ⟨_, _, rfl, hc.ne_hash⟩
  | special hc h hi => exact ⟨_, _, rfl, hc.ne_hash⟩

theorem Body.startsBody (h : Body r k p text) : StartsBody text := by
  cases h with
  | real h => exact h.startsBody
  | imaginary h => exact h.startsBody
  | rectangular hx hy => exact hx.startsBody.append _
  | polar hx hy => exact hx.startsBody.append _

end Derives

/-! ## Literals -/

/-- The classification of a text with a body that can be derived. -/
theorem classify?_of_body {marks : Marks} {body : List Char}
    (hsplit : splitMarks? text = some (marks, body)) (h : Body marks.radix k p body)
    (hascii : IsAscii body) :
    classify? text = if marks.exactness? = some true ∧ p = .special then none
      else some ⟨marks.radix, marks.exactness?.getD (decide (p = .exact)), k⟩ := by
  obtain ⟨hk, hexact, hspecial⟩ := h.classified hascii
  rw [classify?, hsplit]
  simp only [(accepts_body_iff hascii).mpr ⟨k, p, h⟩, if_true, hk, hexact, hspecial]
  cases hmark : marks.exactness? with
  | none => simp
  | some e => cases e <;> simp

/-- A text that is classified has marks and a body that the pattern of its radix accepts. -/
theorem exists_body {info : Info} (h : classify? text = some info) :
    ∃ marks front body, text = front ++ body ∧ Front marks front ∧
      splitMarks? text = some (marks, body) ∧ (Grammar.body marks.radix).accepts body = true := by
  cases hsplit : splitMarks? text with
  | none => simp [classify?, hsplit] at h
  | some split =>
    obtain ⟨marks, body⟩ := split
    obtain ⟨front, htext, hfront⟩ := exists_front hsplit
    refine ⟨marks, front, body, htext, hfront, rfl, ?_⟩
    by_contra haccepts
    simp [classify?, hsplit, haccepts] at h

/-- An ASCII text is classified as a number if and only if it is at most one mark for the radix, at
most one for exactness, and a body that can be derived in the radix, but for an exact special value.
The radix is the marked one, or ten, the category that of the derivation, and exactness is as
marked, or else that of the derivation. -/
theorem classify?_iff_derives (hascii : IsAscii text) (info : Info) :
    classify? text = some info ↔
      ∃ marks front body k p, text = front ++ body ∧ Front marks front ∧
        Body marks.radix k p body ∧ ¬(marks.exactness? = some true ∧ p = .special) ∧
        info = ⟨marks.radix, marks.exactness?.getD (decide (p = .exact)), k⟩ := by
  constructor
  · intro h
    obtain ⟨marks, front, body, rfl, hfront, hsplit, haccepts⟩ := exists_body h
    obtain ⟨-, hbody⟩ := isAscii_append.mp hascii
    obtain ⟨k, p, hderive⟩ := (accepts_body_iff hbody).mp haccepts
    rw [classify?_of_body hsplit hderive hbody] at h
    split at h
    · cases h
    · rename_i hspecial
      exact ⟨marks, front, body, k, p, rfl, hfront, hderive, hspecial, (Option.some.inj h).symm⟩
  · rintro ⟨marks, front, body, k, p, rfl, hfront, hderive, hspecial, rfl⟩
    have hsplit := splitMarks?_append hfront hderive.startsBody.head?
    rw [classify?_of_body hsplit hderive (isAscii_append.mp hascii).2, if_neg hspecial]

/-- A complex number that is marked as exact: neither the point of its real part nor the slash of
its imaginary part decides what it is. -/
theorem classify?_iff_derives_complex :
    IsAscii ['#', 'E', '1', '.', '5', '-', '2', '/', '3', 'I'] ∧
      classify? ['#', 'E', '1', '.', '5', '-', '2', '/', '3', 'I'] =
        some ⟨.decimal, true, .complex⟩ := by
  have hascii : IsAscii ['#', 'E', '1', '.', '5', '-', '2', '/', '3', 'I'] :=
    List.all_iff_forall_prop.mp (by decide)
  have hdigits : ∀ c ∈ ['1', '5', '2', '3'], Digits .decimal [c] := by
    intro c hc
    simp only [List.mem_cons, List.not_mem_nil, or_false] at hc
    rcases hc with rfl | rfl | rfl | rfl <;>
      exact ⟨List.cons_ne_nil _ _, List.all_iff_forall_prop.mp (by decide)⟩
  have hreal : Real .decimal .decimal .inexact ['1', '.', '5'] :=
    .unsigned (.inl rfl) (.decimal (.fraction (hdigits '1' (by simp)).2 (hdigits '5' (by simp)) 0))
  have himaginary : Imaginary .decimal .exact ['-', '2', '/', '3', 'I'] :=
    .unsigned (.inr rfl) (.rational (hdigits '2' (by simp)) (hdigits '3' (by simp)) 0 0) rfl
  refine ⟨hascii, (classify?_iff_derives hascii _).mpr ⟨⟨none, some true⟩, ['#', 'E'], _, _, _, rfl,
    .exactness (by decide), .rectangular hreal himaginary, nofun, rfl⟩⟩

end RacketTree.Number

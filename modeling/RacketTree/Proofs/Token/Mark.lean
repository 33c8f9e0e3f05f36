import RacketTree.Proofs.Token.Width
import RacketTree.Token.Hash

/-!
# Marks after `#` are decided where a run ends

The words and digits that a mark consists of are never blanks or delimiters. So the functions of
`Token/Hash` that look for a mark (`regexpMark?`, `sequenceOpener?`, `graphMark?`, `boolean?`) give
the same answer on all texts that share a front in which some character ends a run (`Ended`). The
search for a directive is the exception: blanks may stand between `#lang` and the name
(`NamesLanguage`), and no number of blanks decides it.
-/

namespace RacketTree.Token

/-! ## Characters that end a run -/

/-- All blanks and delimiters. -/
def runEnders : List Char :=
  (Text.blankRanges.flatMap fun r => List.range' r.1 (r.2 + 1 - r.1)).map Char.ofNat ++
    ['(', ')', '[', ']', '\x7b', '\x7d', '\x22', ',', '\x27', '\x60', ';']

theorem eq_false_of_all {p : Char → Bool} {cs : List Char} (h : cs.all (fun c => !p c) = true) :
    ∀ c ∈ cs, p c = false := by
  simpa using h

theorem mem_runEnders {c : Char} (h : endsRun c = true) : c ∈ runEnders := by
  simp only [endsRun, Bool.or_eq_true] at h
  refine List.mem_append.mpr (h.imp ?_ ?_)
  · intro hBlank
    simp only [Text.isBlank, Text.inRanges, List.any_eq_true, Bool.and_eq_true,
      decide_eq_true_eq] at hBlank
    obtain ⟨r, hr, hlo, hhi⟩ := hBlank
    refine List.mem_map.mpr ⟨c.toNat, List.mem_flatMap.mpr ⟨r, hr, ?_⟩, Char.ofNat_toNat c⟩
    rw [List.mem_range'_1]
    omega
  · intro hDelimiter
    simpa [isDelimiter, or_assoc] using hDelimiter

theorem not_isDecimalDigit_of_endsRun {c : Char} (h : endsRun c = true) :
    Text.isDecimalDigit c = false := by
  have hAll : runEnders.all (fun c => !Text.isDecimalDigit c) = true := by decide
  exact eq_false_of_all hAll c (mem_runEnders h)

theorem not_isLangChar_of_endsRun {c : Char} (h : endsRun c = true) : isLangChar c = false := by
  have hAll : runEnders.all (fun c => !isLangChar c) = true := by decide
  exact eq_false_of_all hAll c (mem_runEnders h)

theorem lower_eq_self_of_endsRun {c : Char} (h : endsRun c = true) : Text.lower c = c := by
  have hAll : runEnders.all (fun c => Text.lower c == c) = true := by decide
  exact eq_of_beq (List.all_eq_true.mp hAll c (mem_runEnders h))

theorem isBlank_of_isLangBlank {c : Char} (h : isLangBlank c = true) : Text.isBlank c = true := by
  simp only [isLangBlank, Bool.or_eq_true, beq_iff_eq] at h
  rcases h with rfl | rfl <;> decide

theorem endsRun_of_isLangBlank {c : Char} (h : isLangBlank c = true) : endsRun c = true := by
  simp [endsRun, isBlank_of_isLangBlank h]

/-- Some character of the text ends a run. -/
def Ended (cs : List Char) : Prop :=
  ∃ c ∈ cs, endsRun c = true

theorem Ended.of_cons {c : Char} {cs : List Char} (h : Ended (c :: cs))
    (hc : endsRun c = false) : Ended cs := by
  obtain ⟨d, hd, he⟩ := h
  rcases List.mem_cons.mp hd with rfl | hd
  · rw [hc] at he
    cases he
  · exact ⟨d, hd, he⟩

/-! ## Words, digits and brackets -/

/-- A word that ends a run nowhere before its last character is found at the front of a text, or
not, before a run ends in the text. -/
theorem isPrefixOf_append {word p : List Char} (hw : ∀ c ∈ word.dropLast, endsRun c = false)
    (hp : Ended p) (v : List Char) : word.isPrefixOf (p ++ v) = word.isPrefixOf p := by
  induction word generalizing p with
  | nil => simp
  | cons a word ih =>
    cases p with
    | nil => obtain ⟨c, hc, -⟩ := hp; cases hc
    | cons b p =>
      simp only [List.cons_append, List.isPrefixOf_cons_cons]
      by_cases hab : a = b
      · subst hab
        cases word with
        | nil => simp
        | cons a' word =>
          have ha := hw a (by simp)
          rw [ih (fun c hc => hw c (by simp [hc])) (hp.of_cons ha)]
      · rw [beq_false_of_ne hab, Bool.false_and, Bool.false_and]

theorem length_lt_of_isPrefixOf {word p : List Char} (hw : ∀ c ∈ word, endsRun c = false)
    (hp : Ended p) (h : word.isPrefixOf p = true) :
    word.length < p.length ∧ Ended (p.drop word.length) := by
  induction word generalizing p with
  | nil =>
    obtain ⟨c, hc, he⟩ := hp
    exact ⟨List.length_pos_of_mem hc, c, by simpa using hc, he⟩
  | cons a word ih =>
    cases p with
    | nil => obtain ⟨c, hc, -⟩ := hp; cases hc
    | cons b p =>
      simp only [List.isPrefixOf_cons_cons, Bool.and_eq_true, beq_iff_eq] at h
      obtain ⟨rfl, h⟩ := h
      have ha := hw a List.mem_cons_self
      have := ih (fun c hc => hw c (List.mem_cons_of_mem _ hc)) (hp.of_cons ha) h
      simpa using this

theorem Ended.exists_not_digit {p : List Char} (hp : Ended p) :
    ∃ c ∈ p, Text.isDecimalDigit c = false := by
  obtain ⟨c, hc, he⟩ := hp
  exact ⟨c, hc, not_isDecimalDigit_of_endsRun he⟩

theorem digitRun_append {p : List Char} (hp : Ended p) (v : List Char) :
    digitRun (p ++ v) = digitRun p := by
  rw [digitRun, digitRun, takeWhile_append_of_mem hp.exists_not_digit]

theorem digitRun_lt {p : List Char} (hp : Ended p) : digitRun p < p.length :=
  length_takeWhile_lt_of_mem hp.exists_not_digit

theorem bracketAt?_append {n : Nat} {p : List Char} (h : n < p.length) (v : List Char) :
    bracketAt? n (p ++ v) = bracketAt? n p := by
  rw [bracketAt?, bracketAt?, List.drop_append_of_le_length (Nat.le_of_lt h)]
  cases hd : p.drop n with
  | nil => simp only [List.drop_eq_nil_iff] at hd; omega
  | cons c cs => rfl

theorem bracketAt?_eq_some {n m : Nat} {cs : List Char} (h : bracketAt? n cs = some m) :
    m = n + 1 ∧ ∃ c rest, cs.drop n = c :: rest ∧ isOpenBracket c = true := by
  unfold bracketAt? at h
  split at h
  · split at h
    · cases h
      exact ⟨rfl, _, _, by assumption, by assumption⟩
    · cases h
  · cases h

theorem findSome?_congr {α β : Type} {xs : List α} {f g : α → Option β}
    (h : ∀ x ∈ xs, f x = g x) : xs.findSome? f = xs.findSome? g := by
  induction xs with
  | nil => rfl
  | cons x xs ih =>
    rw [List.findSome?_cons, List.findSome?_cons, h x List.mem_cons_self,
      ih (fun y hy => h y (List.mem_cons_of_mem _ hy))]

/-! ## Marks -/

theorem regexpMark?_eq (cs : List Char) :
    regexpMark? cs =
      if ['r', 'x', '\x22'].isPrefixOf cs || ['p', 'x', '\x22'].isPrefixOf cs then some 3
      else if ['r', 'x', '#', '\x22'].isPrefixOf cs || ['p', 'x', '#', '\x22'].isPrefixOf cs then
        some 4
      else none := by
  unfold regexpMark?
  split
  · rfl
  · rfl
  · rfl
  · rfl
  · rename_i h₁ h₂ h₃ h₄
    have hno : ∀ word : List Char, (∀ tail, cs = word ++ tail → False) →
        word.isPrefixOf cs = false := by
      intro word hword
      rw [Bool.eq_false_iff, Ne, List.isPrefixOf_iff_prefix]
      rintro ⟨tail, rfl⟩
      exact hword tail rfl
    rw [hno _ h₁, hno _ h₂, hno _ h₃, hno _ h₄]
    rfl

theorem regexpMark?_append {p : List Char} (hp : Ended p) (v : List Char) :
    regexpMark? (p ++ v) = regexpMark? p := by
  rw [regexpMark?_eq, regexpMark?_eq, isPrefixOf_append (eq_false_of_all (by decide)) hp,
    isPrefixOf_append (eq_false_of_all (by decide)) hp,
    isPrefixOf_append (eq_false_of_all (by decide)) hp,
    isPrefixOf_append (eq_false_of_all (by decide)) hp]

theorem sequenceOpener?_append {p : List Char} (hp : Ended p) (v : List Char) :
    sequenceOpener? (p ++ v) = sequenceOpener? p := by
  have hSized : ∀ word ∈ sizedWords, ∀ c ∈ word, endsRun c = false := by
    have hAll : ∀ word ∈ sizedWords, word.all (fun c => !endsRun c) = true := by decide
    exact fun word hword => eq_false_of_all (hAll word hword)
  have hNamed : ∀ word ∈ openerWords, ∀ c ∈ word, endsRun c = false := by
    have hAll : ∀ word ∈ openerWords, word.all (fun c => !endsRun c) = true := by decide
    exact fun word hword => eq_false_of_all (hAll word hword)
  simp only [sequenceOpener?]
  rw [digitRun_append hp, bracketAt?_append (digitRun_lt hp)]
  congr 1
  · refine findSome?_congr fun word hword => ?_
    rw [isPrefixOf_append (fun c hc => hSized word hword c ((List.dropLast_subset _ hc))) hp]
    split
    · rename_i h
      obtain ⟨hlt, hrest⟩ := length_lt_of_isPrefixOf (hSized word hword) hp h
      rw [List.drop_append_of_le_length (Nat.le_of_lt hlt), digitRun_append hrest]
      have := digitRun_lt hrest
      rw [List.length_drop] at this
      exact bracketAt?_append (by omega) v
    · rfl
  · congr 1
    refine findSome?_congr fun word hword => ?_
    rw [isPrefixOf_append (fun c hc => hNamed word hword c ((List.dropLast_subset _ hc))) hp]
    split
    · rename_i h
      exact bracketAt?_append (length_lt_of_isPrefixOf (hNamed word hword) hp h).1 v
    · rfl

theorem graphMark?_append {p : List Char} (hp : Ended p) (v : List Char) :
    graphMark? (p ++ v) = graphMark? p := by
  have hlt := digitRun_lt hp
  simp only [graphMark?]
  rw [digitRun_append hp, List.drop_append_of_le_length (Nat.le_of_lt hlt)]
  cases hd : p.drop (digitRun p) with
  | nil => simp only [List.drop_eq_nil_iff] at hd; omega
  | cons c cs =>
    by_cases h₁ : c = '='
    · subst h₁; rfl
    · by_cases h₂ : c = '#'
      · subst h₂; rfl
      · simp [h₁, h₂]

theorem boolean?_append {p : List Char} (hp : Ended p) (v : List Char) :
    boolean? (p ++ v) = boolean? p := by
  have hWords : ∀ word ∈ booleanWords, ∀ c ∈ word, endsRun c = false := by
    have hAll : ∀ word ∈ booleanWords, word.all (fun c => !endsRun c) = true := by decide
    exact fun word hword => eq_false_of_all (hAll word hword)
  refine findSome?_congr fun word hword => ?_
  by_cases hlt : word.length < p.length
  · rw [List.take_append_of_le_length (Nat.le_of_lt hlt),
      List.drop_append_of_le_length (Nat.le_of_lt hlt)]
    cases hd : p.drop word.length with
    | nil => simp only [List.drop_eq_nil_iff] at hd; omega
    | cons c cs => rfl
  · -- the character that ends the run would have to be a letter of the word
    have hne : ∀ cs : List Char, ((p ++ cs).take word.length).map Text.lower ≠ word := by
      intro cs h
      obtain ⟨c, hc, he⟩ := hp
      have hmem : c ∈ (p ++ cs).take word.length := by
        rw [List.take_append, List.take_of_length_le (by omega)]
        exact List.mem_append_left _ hc
      have hword' : c ∈ word := by
        rw [← h, ← lower_eq_self_of_endsRun he]
        exact List.mem_map_of_mem hmem
      rw [hWords word hword c hword'] at he
      cases he
    have hne' := hne []
    rw [List.append_nil] at hne'
    simp only [hne v, hne', decide_false, Bool.false_and]

end RacketTree.Token

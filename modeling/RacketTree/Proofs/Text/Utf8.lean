import RacketTree.Text.Utf8

/-!
# UTF-8 both ways

Bytes are decoded to a text if and only if they are its encoding (`decode?_eq_ok_iff`). `Spells` is
the syntax of the bytes of one character: how many there are, in which ranges, and the code that
they stand for. Encoding gives such bytes (`spells_encodeChar`), they are the only ones with their
code (`Spells.encodeChar`), and they are what the decoder takes for a character (`Spells.pieces`,
`exists_spells`).
-/

namespace RacketTree.Text.Utf8

/-! ## Characters and bytes as numbers -/

theorem toNat_toUInt8 {n : Nat} (h : n < 0x100) : n.toUInt8.toNat = n := by
  rw [Nat.toUInt8, UInt8.toNat_ofNat', Nat.mod_eq_of_lt h]

theorem toUInt8_eq {n : Nat} {b : UInt8} (h : n = b.toNat) : n.toUInt8 = b := by
  rw [h, Nat.toUInt8, UInt8.ofNat_toNat]

theorem toNat_ofNat {n : Nat} (h : n < 0xD800 ∨ 0xE000 ≤ n ∧ n < 0x110000) :
    (Char.ofNat n).toNat = n := by
  have hvalid : n.isValidChar := by
    unfold Nat.isValidChar
    omega
  rw [Char.ofNat, dif_pos hvalid]
  rfl

theorem toNat_valid (c : Char) : c.toNat < 0xD800 ∨ 0xE000 ≤ c.toNat ∧ c.toNat < 0x110000 := by
  have hvalid : c.toNat.isValidChar := c.valid
  unfold Nat.isValidChar at hvalid
  omega

/-! ## First bytes -/

section

variable {b : UInt8}

theorem start_one (h : b.toNat < 0x80) : start b = .inl (.char (Char.ofNat b.toNat)) := by
  simp only [start, if_pos h]

theorem start_two (h : 0xC2 ≤ b.toNat) (h' : b.toNat < 0xE0) :
    start b = .inr ⟨[b], 1, 0x80, 0xBF, b.toNat - 0xC0⟩ := by
  have h₁ : ¬b.toNat < 0x80 := by omega
  have h₂ : ¬b.toNat < 0xC2 := by omega
  simp only [start, if_neg h₁, if_neg h₂, if_pos h']

theorem start_three (h : 0xE0 ≤ b.toNat) (h' : b.toNat < 0xF0) :
    start b = .inr ⟨[b], 2, if b.toNat = 0xE0 then 0xA0 else 0x80,
      if b.toNat = 0xED then 0x9F else 0xBF, b.toNat - 0xE0⟩ := by
  have h₁ : ¬b.toNat < 0x80 := by omega
  have h₂ : ¬b.toNat < 0xC2 := by omega
  have h₃ : ¬b.toNat < 0xE0 := by omega
  simp only [start, if_neg h₁, if_neg h₂, if_neg h₃, if_pos h']
  by_cases hlow : b.toNat = 0xE0
  · simp [hlow]
  · by_cases hhigh : b.toNat = 0xED
    · simp [hhigh]
    · simp [hlow, hhigh]

theorem start_four (h : 0xF0 ≤ b.toNat) (h' : b.toNat ≤ 0xF4) :
    start b = .inr ⟨[b], 3, if b.toNat = 0xF0 then 0x90 else 0x80,
      if b.toNat = 0xF4 then 0x8F else 0xBF, b.toNat - 0xF0⟩ := by
  have h₁ : ¬b.toNat < 0x80 := by omega
  have h₂ : ¬b.toNat < 0xC2 := by omega
  have h₃ : ¬b.toNat < 0xE0 := by omega
  have h₄ : b.toNat ≠ 0xE0 := by omega
  have h₅ : b.toNat ≠ 0xED := by omega
  have h₆ : ¬b.toNat < 0xF0 := by omega
  simp only [start, if_neg h₁, if_neg h₂, if_neg h₃, if_neg h₄, if_neg h₅, if_neg h₆]
  by_cases hlow : b.toNat = 0xF0
  · simp [hlow]
  · by_cases hhigh : b.toNat = 0xF4
    · simp [hhigh]
    · have h₇ : b.toNat < 0xF4 := by omega
      simp [hlow, hhigh, h₇]

theorem start_bad (h : 0x80 ≤ b.toNat ∧ b.toNat < 0xC2 ∨ 0xF4 < b.toNat) :
    start b = .inl (.malformed [b] .badStart) := by
  have h₁ : ¬b.toNat < 0x80 := by omega
  simp only [start, if_neg h₁]
  rcases h with ⟨-, h⟩ | h
  · rw [if_pos h]
  · have h₂ : ¬b.toNat < 0xC2 := by omega
    have h₃ : ¬b.toNat < 0xE0 := by omega
    have h₄ : b.toNat ≠ 0xE0 := by omega
    have h₅ : b.toNat ≠ 0xED := by omega
    have h₆ : ¬b.toNat < 0xF0 := by omega
    have h₇ : b.toNat ≠ 0xF0 := by omega
    have h₈ : ¬b.toNat < 0xF4 := by omega
    have h₉ : b.toNat ≠ 0xF4 := by omega
    simp only [if_neg h₂, if_neg h₃, if_neg h₄, if_neg h₅, if_neg h₆, if_neg h₇, if_neg h₈,
      if_neg h₉]

end

/-! ## Further bytes -/

section

variable {s : Started} {b : UInt8} {rest : List UInt8}

theorem piecesAfter_last (h : s.least ≤ b.toNat) (h' : b.toNat ≤ s.greatest) (howed : s.owed ≤ 1) :
    piecesAfter s (b :: rest) =
      .char (Char.ofNat (s.code * 0x40 + (b.toNat - 0x80))) :: pieces rest := by
  rw [piecesAfter, if_pos (by simp [h, h']), if_pos howed]

theorem piecesAfter_next (h : s.least ≤ b.toNat) (h' : b.toNat ≤ s.greatest) (howed : 1 < s.owed) :
    piecesAfter s (b :: rest) =
      piecesAfter ⟨s.bytes ++ [b], s.owed - 1, 0x80, 0xBF, s.code * 0x40 + (b.toNat - 0x80)⟩
        rest := by
  rw [piecesAfter, if_pos (by simp [h, h']), if_neg (Nat.not_le.mpr howed)]

/-- A character that has been started ends at once, or the next byte is in its range. -/
theorem piecesAfter_cases (s : Started) (bytes : List UInt8) :
    (∃ bad reason more, piecesAfter s bytes = .malformed bad reason :: more) ∨
      ∃ b rest, bytes = b :: rest ∧ s.least ≤ b.toNat ∧ b.toNat ≤ s.greatest := by
  cases bytes with
  | nil => exact .inl ⟨_, _, _, by rw [piecesAfter]⟩
  | cons b rest =>
    by_cases h : (decide (s.least ≤ b.toNat) && decide (b.toNat ≤ s.greatest)) = true
    · simp only [Bool.and_eq_true, decide_eq_true_eq] at h
      exact .inr ⟨b, rest, rfl, h.1, h.2⟩
    · exact .inl ⟨_, _, _, by rw [piecesAfter, if_neg h]⟩

end

/-! ## Characters and their bytes -/

/-- The bytes spell the character with a code. The second byte is restricted where the code would be
small enough for fewer bytes, half of a surrogate pair or too large. -/
inductive Spells : List UInt8 → Nat → Prop
  | one {a : UInt8} (ha : a.toNat < 0x80) : Spells [a] a.toNat
  | two {a b : UInt8} (ha : 0xC2 ≤ a.toNat ∧ a.toNat < 0xE0)
      (hb : 0x80 ≤ b.toNat ∧ b.toNat ≤ 0xBF) :
      Spells [a, b] ((a.toNat - 0xC0) * 0x40 + (b.toNat - 0x80))
  | three {a b c : UInt8} (ha : 0xE0 ≤ a.toNat ∧ a.toNat < 0xF0)
      (hb : (if a.toNat = 0xE0 then 0xA0 else 0x80) ≤ b.toNat ∧
        b.toNat ≤ (if a.toNat = 0xED then 0x9F else 0xBF))
      (hc : 0x80 ≤ c.toNat ∧ c.toNat ≤ 0xBF) :
      Spells [a, b, c]
        (((a.toNat - 0xE0) * 0x40 + (b.toNat - 0x80)) * 0x40 + (c.toNat - 0x80))
  | four {a b c d : UInt8} (ha : 0xF0 ≤ a.toNat ∧ a.toNat ≤ 0xF4)
      (hb : (if a.toNat = 0xF0 then 0x90 else 0x80) ≤ b.toNat ∧
        b.toNat ≤ (if a.toNat = 0xF4 then 0x8F else 0xBF))
      (hc : 0x80 ≤ c.toNat ∧ c.toNat ≤ 0xBF) (hd : 0x80 ≤ d.toNat ∧ d.toNat ≤ 0xBF) :
      Spells [a, b, c, d]
        ((((a.toNat - 0xF0) * 0x40 + (b.toNat - 0x80)) * 0x40 + (c.toNat - 0x80)) * 0x40 +
          (d.toNat - 0x80))

theorem Spells.length_pos {bytes : List UInt8} {n : Nat} (h : Spells bytes n) :
    0 < bytes.length := by
  cases h <;> exact Nat.succ_pos _

/-- The bytes of a character are read as the character. -/
theorem Spells.pieces {bytes : List UInt8} {n : Nat} (h : Spells bytes n) (rest : List UInt8) :
    pieces (bytes ++ rest) = .char (Char.ofNat n) :: pieces rest := by
  cases h with
  | one ha =>
    rw [List.singleton_append, Utf8.pieces, start_one ha]
  | two ha hb =>
    rw [List.cons_append, List.singleton_append, Utf8.pieces, start_two ha.1 ha.2]
    exact piecesAfter_last hb.1 hb.2 (Nat.le_refl 1)
  | three ha hb hc =>
    rw [List.cons_append, List.cons_append, List.singleton_append, Utf8.pieces,
      start_three ha.1 ha.2]
    refine (piecesAfter_next hb.1 hb.2 (Nat.lt_succ_self 1)).trans ?_
    exact piecesAfter_last hc.1 hc.2 (Nat.le_refl 1)
  | four ha hb hc hd =>
    rw [List.cons_append, List.cons_append, List.cons_append, List.singleton_append, Utf8.pieces,
      start_four ha.1 ha.2]
    refine (piecesAfter_next hb.1 hb.2 (by exact Nat.le_succ 2)).trans ?_
    refine (piecesAfter_next hc.1 hc.2 (Nat.lt_succ_self 1)).trans ?_
    exact piecesAfter_last hd.1 hd.2 (Nat.le_refl 1)

/-- The bytes of a character are its encoding. -/
theorem Spells.encodeChar {bytes : List UInt8} {n : Nat} (h : Spells bytes n) :
    encodeChar (Char.ofNat n) = bytes := by
  cases h with
  | @one a ha =>
    have hn := @toNat_ofNat a.toNat (by omega)
    simp only [Utf8.encodeChar, hn, if_pos ha]
    rw [toUInt8_eq rfl]
  | @two a b ha hb =>
    have hn := @toNat_ofNat ((a.toNat - 0xC0) * 0x40 + (b.toNat - 0x80)) (by omega)
    generalize hcode : (a.toNat - 0xC0) * 0x40 + (b.toNat - 0x80) = n at hn
    have h₁ : ¬n < 0x80 := by omega
    have h₂ : n < 0x800 := by omega
    have ea : 0xC0 + n / 0x40 = a.toNat := by omega
    have eb : 0x80 + n % 0x40 = b.toNat := by omega
    simp only [Utf8.encodeChar, hn, if_neg h₁, if_pos h₂]
    rw [toUInt8_eq ea, toUInt8_eq eb]
  | @three a b c ha hb hc =>
    obtain ⟨n, hcode⟩ : ∃ n,
        ((a.toNat - 0xE0) * 0x40 + (b.toNat - 0x80)) * 0x40 + (c.toNat - 0x80) = n := ⟨_, rfl⟩
    have hlow : 0x80 ≤ b.toNat ∧ 0x800 ≤ n := by
      split at hb <;> omega
    have hhigh : b.toNat ≤ 0xBF ∧ (n < 0xD800 ∨ 0xE000 ≤ n ∧ n < 0x10000) := by
      split at hb <;> split at hb <;> omega
    have h₁ : ¬n < 0x80 := by omega
    have h₂ : ¬n < 0x800 := by omega
    have h₃ : n < 0x10000 := by omega
    have ea : 0xE0 + n / 0x1000 = a.toNat := by omega
    have eb : 0x80 + n / 0x40 % 0x40 = b.toNat := by omega
    have ec : 0x80 + n % 0x40 = c.toNat := by omega
    rw [hcode]
    simp only [Utf8.encodeChar, toNat_ofNat (n := n) (by omega), if_neg h₁, if_neg h₂, if_pos h₃]
    rw [toUInt8_eq ea, toUInt8_eq eb, toUInt8_eq ec]
  | @four a b c d ha hb hc hd =>
    obtain ⟨n, hcode⟩ : ∃ n,
        (((a.toNat - 0xF0) * 0x40 + (b.toNat - 0x80)) * 0x40 + (c.toNat - 0x80)) * 0x40 +
          (d.toNat - 0x80) = n := ⟨_, rfl⟩
    have hlow : 0x80 ≤ b.toNat ∧ 0x10000 ≤ n := by
      split at hb <;> omega
    have hhigh : b.toNat ≤ 0xBF ∧ n < 0x110000 := by
      split at hb <;> split at hb <;> omega
    have h₁ : ¬n < 0x80 := by omega
    have h₂ : ¬n < 0x800 := by omega
    have h₃ : ¬n < 0x10000 := by omega
    have ea : 0xF0 + n / 0x40000 = a.toNat := by omega
    have eb : 0x80 + n / 0x1000 % 0x40 = b.toNat := by omega
    have ec : 0x80 + n / 0x40 % 0x40 = c.toNat := by omega
    have ed : 0x80 + n % 0x40 = d.toNat := by omega
    rw [hcode]
    simp only [Utf8.encodeChar, toNat_ofNat (n := n) (by omega), if_neg h₁, if_neg h₂, if_neg h₃]
    rw [toUInt8_eq ea, toUInt8_eq eb, toUInt8_eq ec, toUInt8_eq ed]

/-- The encoding of a character spells it. -/
theorem spells_encodeChar (c : Char) : Spells (encodeChar c) c.toNat := by
  have hvalid := toNat_valid c
  unfold encodeChar
  generalize c.toNat = n at hvalid
  simp only
  split
  · have ha : n.toUInt8.toNat = n := toNat_toUInt8 (by omega)
    have h := @Spells.one n.toUInt8 (by omega)
    rwa [ha] at h
  split
  · have ha := @toNat_toUInt8 (0xC0 + n / 0x40) (by omega)
    have hb := @toNat_toUInt8 (0x80 + n % 0x40) (by omega)
    generalize (0xC0 + n / 0x40).toUInt8 = a at ha
    generalize (0x80 + n % 0x40).toUInt8 = b at hb
    have h := @Spells.two a b (by omega) (by omega)
    have hcode : (a.toNat - 0xC0) * 0x40 + (b.toNat - 0x80) = n := by omega
    rwa [hcode] at h
  split
  · have ha := @toNat_toUInt8 (0xE0 + n / 0x1000) (by omega)
    have hb := @toNat_toUInt8 (0x80 + n / 0x40 % 0x40) (by omega)
    have hc := @toNat_toUInt8 (0x80 + n % 0x40) (by omega)
    generalize (0xE0 + n / 0x1000).toUInt8 = a at ha
    generalize (0x80 + n / 0x40 % 0x40).toUInt8 = b at hb
    generalize (0x80 + n % 0x40).toUInt8 = c at hc
    have h := @Spells.three a b c (by omega) (by split <;> split <;> omega) (by omega)
    have hcode : ((a.toNat - 0xE0) * 0x40 + (b.toNat - 0x80)) * 0x40 + (c.toNat - 0x80) = n := by
      omega
    rwa [hcode] at h
  · have ha := @toNat_toUInt8 (0xF0 + n / 0x40000) (by omega)
    have hb := @toNat_toUInt8 (0x80 + n / 0x1000 % 0x40) (by omega)
    have hc := @toNat_toUInt8 (0x80 + n / 0x40 % 0x40) (by omega)
    have hd := @toNat_toUInt8 (0x80 + n % 0x40) (by omega)
    generalize (0xF0 + n / 0x40000).toUInt8 = a at ha
    generalize (0x80 + n / 0x1000 % 0x40).toUInt8 = b at hb
    generalize (0x80 + n / 0x40 % 0x40).toUInt8 = c at hc
    generalize (0x80 + n % 0x40).toUInt8 = d at hd
    have h := @Spells.four a b c d (by omega) (by split <;> split <;> omega) (by omega) (by omega)
    have hcode : (((a.toNat - 0xF0) * 0x40 + (b.toNat - 0x80)) * 0x40 + (c.toNat - 0x80)) * 0x40 +
        (d.toNat - 0x80) = n := by
      omega
    rwa [hcode] at h

/-- The bytes of a character are at the front, or malformed ones. -/
theorem exists_spells (a : UInt8) (rest : List UInt8) :
    (∃ bytes n tail, Spells bytes n ∧ a :: rest = bytes ++ tail) ∨
      ∃ bad reason more, pieces (a :: rest) = .malformed bad reason :: more := by
  by_cases h₁ : a.toNat < 0x80
  · exact .inl ⟨[a], _, rest, .one h₁, rfl⟩
  by_cases h₂ : 0xC2 ≤ a.toNat ∧ a.toNat < 0xE0
  · rw [pieces, start_two h₂.1 h₂.2]
    rcases piecesAfter_cases ⟨[a], 1, 0x80, 0xBF, a.toNat - 0xC0⟩ rest with
      hbad | ⟨b, rest, rfl, hb⟩
    · exact .inr hbad
    · exact .inl ⟨[a, b], _, rest, .two h₂ hb, rfl⟩
  by_cases h₃ : 0xE0 ≤ a.toNat ∧ a.toNat < 0xF0
  · rw [pieces, start_three h₃.1 h₃.2]
    simp only
    generalize hs : (⟨[a], 2, _, _, _⟩ : Started) = s
    rcases piecesAfter_cases s rest with hbad | ⟨b, rest, rfl, hb⟩
    · exact .inr hbad
    rw [piecesAfter_next hb.1 hb.2 (by rw [← hs]; exact Nat.lt_succ_self 1)]
    rcases piecesAfter_cases _ rest with hbad | ⟨c, rest, rfl, hc⟩
    · exact .inr hbad
    · subst hs
      exact .inl ⟨[a, b, c], _, rest, .three h₃ hb hc, rfl⟩
  by_cases h₄ : 0xF0 ≤ a.toNat ∧ a.toNat ≤ 0xF4
  · rw [pieces, start_four h₄.1 h₄.2]
    simp only
    generalize hs : (⟨[a], 3, _, _, _⟩ : Started) = s
    have howed : s.owed = 3 := by rw [← hs]
    rcases piecesAfter_cases s rest with hbad | ⟨b, rest, rfl, hb⟩
    · exact .inr hbad
    rw [piecesAfter_next hb.1 hb.2 (by omega)]
    rcases piecesAfter_cases _ rest with hbad | ⟨c, rest, rfl, hc⟩
    · exact .inr hbad
    rw [piecesAfter_next hc.1 hc.2 (by simp only; omega)]
    rcases piecesAfter_cases _ rest with hbad | ⟨d, rest, rfl, hd⟩
    · exact .inr hbad
    · subst hs
      exact .inl ⟨[a, b, c, d], _, rest, .four h₄ hb hc hd, rfl⟩
  · rw [pieces, start_bad (by omega)]
    exact .inr ⟨_, _, _, rfl⟩

/-! ## Texts -/

theorem encode_cons (c : Char) (text : List Char) :
    encode (c :: text) = encodeChar c ++ encode text :=
  List.flatMap_cons

theorem encodeChar_of_ascii {c : Char} (h : c.toNat < 0x80) : encodeChar c = [c.toNat.toUInt8] :=
  if_pos h

/-- An ASCII character is encoded as one byte. -/
theorem encode_of_ascii {text : List Char} (h : ∀ c ∈ text, c.toNat < 0x80) :
    encode text = text.map fun c => c.toNat.toUInt8 := by
  induction text with
  | nil => rfl
  | cons c text ih =>
    obtain ⟨hc, htext⟩ := List.forall_mem_cons.mp h
    rw [encode_cons, encodeChar_of_ascii hc, ih htext, List.map_cons]
    rfl

theorem characters?_char (position : Nat) (c : Char) (rest : List Piece) :
    characters? position (.char c :: rest) =
      (characters? (position + (encodeChar c).length) rest).map (c :: ·) := by
  rw [characters?]
  cases characters? (position + (encodeChar c).length) rest <;> rfl

theorem pieces_encode (text : List Char) : pieces (encode text) = text.map .char := by
  induction text with
  | nil => rfl
  | cons c text ih =>
    rw [encode_cons, (spells_encodeChar c).pieces, Char.ofNat_toNat, ih, List.map_cons]

theorem characters?_map_char (position : Nat) (text : List Char) :
    characters? position (text.map .char) = .ok text := by
  induction text generalizing position with
  | nil => rfl
  | cons c text ih =>
    rw [List.map_cons, characters?_char, ih]
    rfl

theorem decode?_encode (text : List Char) : decode? (encode text) = .ok text := by
  rw [decode?, pieces_encode, characters?_map_char]

theorem decodeReplacing_encode (text : List Char) : decodeReplacing (encode text) = text := by
  rw [decodeReplacing, pieces_encode, List.map_map]
  exact List.map_id text

/-- Bytes whose pieces are characters are the encoding of these. -/
theorem encode_of_characters? {position : Nat} {bytes : List UInt8} {text : List Char}
    (h : characters? position (pieces bytes) = .ok text) : bytes = encode text := by
  induction hn : bytes.length using Nat.strongRecOn generalizing bytes position text with
  | ind k ih =>
    cases bytes with
    | nil =>
      cases h
      rfl
    | cons a rest =>
      rcases exists_spells a rest with ⟨front, n, tail, hfront, hbytes⟩ | ⟨bad, reason, more, hbad⟩
      · rw [hbytes, hfront.pieces, characters?_char] at h
        cases hmore : characters? (position + (encodeChar (Char.ofNat n)).length) (pieces tail) with
        | error e =>
          rw [hmore] at h
          cases h
        | ok more =>
          rw [hmore] at h
          cases h
          have hlength : tail.length < k := by
            rw [← hn, hbytes, List.length_append]
            have := hfront.length_pos
            omega
          rw [hbytes, encode_cons, hfront.encodeChar, ← ih _ hlength hmore rfl]
      · rw [hbad, characters?] at h
        cases h

/-- Bytes are decoded to a text if and only if they are its encoding. -/
theorem decode?_eq_ok_iff {bytes : List UInt8} {text : List Char} :
    decode? bytes = .ok text ↔ bytes = encode text := by
  constructor
  · exact encode_of_characters?
  · rintro rfl
    exact decode?_encode text

end RacketTree.Text.Utf8

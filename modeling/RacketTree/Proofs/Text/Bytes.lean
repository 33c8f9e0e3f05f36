import Mathlib.Order.Bounds.Basic
import RacketTree.Proofs.Text.Positions
import RacketTree.Proofs.Text.Utf8

/-!
# Byte offsets

The bytes of a text cut off at any place are those of some characters and the first few of one more.
The decoder leaves the character that is cut out (`Spells.decodeSkipping_take`), so that it gives
the characters that are whole (`exists_decodeSkipping_take`). Their number is the greatest offset
with at most as many bytes before it. Byte offsets of offsets and offsets of byte offsets are
adjoint in this way, and in ASCII they are the same.
-/

namespace RacketTree

namespace Text.Utf8

/-! ## Characters that are cut -/

theorem piecesAfter_nil (s : Started) : piecesAfter s [] = [.malformed s.bytes .truncated] := by
  rw [piecesAfter]

/-- The first bytes of a character are one malformed stretch. -/
theorem Spells.exists_pieces_take {bytes : List UInt8} {n k : Nat} (h : Spells bytes n)
    (hpos : 0 < k) (hk : k < bytes.length) :
    ∃ bad, Utf8.pieces (bytes.take k) = [.malformed bad .truncated] := by
  cases h with
  | one => simp only [List.length_singleton] at hk; omega
  | two ha hb =>
    obtain rfl : k = 1 := by simp only [List.length_cons, List.length_nil] at hk; omega
    rw [List.take_succ_cons, List.take_zero, Utf8.pieces, start_two ha.1 ha.2]
    exact ⟨_, piecesAfter_nil _⟩
  | three ha hb hc =>
    obtain rfl | rfl : k = 1 ∨ k = 2 := by
      simp only [List.length_cons, List.length_nil] at hk
      omega
    · rw [List.take_succ_cons, List.take_zero, Utf8.pieces, start_three ha.1 ha.2]
      exact ⟨_, piecesAfter_nil _⟩
    · rw [List.take_succ_cons, List.take_succ_cons, List.take_zero, Utf8.pieces,
        start_three ha.1 ha.2]
      exact ⟨_, (piecesAfter_next hb.1 hb.2 (Nat.lt_succ_self 1)).trans (piecesAfter_nil _)⟩
  | four ha hb hc hd =>
    obtain rfl | rfl | rfl : k = 1 ∨ k = 2 ∨ k = 3 := by
      simp only [List.length_cons, List.length_nil] at hk
      omega
    · rw [List.take_succ_cons, List.take_zero, Utf8.pieces, start_four ha.1 ha.2]
      exact ⟨_, piecesAfter_nil _⟩
    · rw [List.take_succ_cons, List.take_succ_cons, List.take_zero, Utf8.pieces,
        start_four ha.1 ha.2]
      exact ⟨_, (piecesAfter_next hb.1 hb.2 (by exact Nat.le_succ 2)).trans (piecesAfter_nil _)⟩
    · rw [List.take_succ_cons, List.take_succ_cons, List.take_succ_cons, List.take_zero,
        Utf8.pieces, start_four ha.1 ha.2]
      exact ⟨_, (piecesAfter_next hb.1 hb.2 (by exact Nat.le_succ 2)).trans
        ((piecesAfter_next hc.1 hc.2 (Nat.lt_succ_self 1)).trans (piecesAfter_nil _))⟩

/-- A character that is cut is left out. -/
theorem Spells.decodeSkipping_take {bytes : List UInt8} {n k : Nat} (h : Spells bytes n)
    (hk : k < bytes.length) : decodeSkipping (bytes.take k) = [] := by
  rcases Nat.eq_zero_or_pos k with rfl | hpos
  · rfl
  · obtain ⟨bad, hbad⟩ := h.exists_pieces_take hpos hk
    rw [decodeSkipping, hbad]
    rfl

theorem decodeSkipping_char (c : Char) (bytes : List UInt8) :
    decodeSkipping (encodeChar c ++ bytes) = c :: decodeSkipping bytes := by
  rw [decodeSkipping, (spells_encodeChar c).pieces, Char.ofNat_toNat]
  rfl

/-! ## Bytes before an offset -/

theorem encode_append (xs ys : List Char) : encode (xs ++ ys) = encode xs ++ encode ys :=
  List.flatMap_append

theorem length_encodeChar_pos (c : Char) : 0 < (encodeChar c).length :=
  (spells_encodeChar c).length_pos

/-- The number of bytes before an offset. -/
def bytesBefore (text : List Char) (o : Nat) : Nat :=
  (encode (text.take o)).length

theorem bytesBefore_succ {text : List Char} {o : Nat} (h : o < text.length) :
    bytesBefore text o < bytesBefore text (o + 1) := by
  have hpos := length_encodeChar_pos text[o]
  rw [bytesBefore, bytesBefore, List.take_succ_eq_append_getElem h, encode_append,
    List.length_append, encode_cons, List.length_append]
  omega

theorem bytesBefore_lt {text : List Char} {i j : Nat} (hij : i < j) (hj : j ≤ text.length) :
    bytesBefore text i < bytesBefore text j := by
  induction hij with
  | refl => exact bytesBefore_succ hj
  | step _ ih => exact (ih (Nat.le_of_succ_le hj)).trans (bytesBefore_succ hj)

theorem bytesBefore_le {text : List Char} {i j : Nat} (hij : i ≤ j) (hj : j ≤ text.length) :
    bytesBefore text i ≤ bytesBefore text j := by
  rcases Nat.eq_or_lt_of_le hij with rfl | hij
  · exact Nat.le_refl _
  · exact Nat.le_of_lt (bytesBefore_lt hij hj)

theorem bytesBefore_le_length {text : List Char} {o : Nat} (ho : o ≤ text.length) :
    bytesBefore text o ≤ (encode text).length := by
  calc bytesBefore text o
      ≤ bytesBefore text text.length := bytesBefore_le ho (Nat.le_refl _)
    _ = (encode text).length := by rw [bytesBefore, List.take_length]

/-- What is decoded from the first bytes of a text are the characters that are whole. -/
theorem exists_decodeSkipping_take (text : List Char) (b : Nat) :
    ∃ o, o ≤ text.length ∧ decodeSkipping ((encode text).take b) = text.take o ∧
      bytesBefore text o ≤ b ∧ (o < text.length → b < bytesBefore text (o + 1)) := by
  induction text generalizing b with
  | nil => exact ⟨0, Nat.le_refl _, by rw [encode, List.flatMap_nil, List.take_nil]; rfl,
      Nat.zero_le _, nofun⟩
  | cons c text ih =>
    have hnext (o : Nat) : bytesBefore (c :: text) (o + 1) =
        (encodeChar c).length + bytesBefore text o := by
      rw [bytesBefore, List.take_succ_cons, encode_cons, List.length_append, bytesBefore]
    rw [encode_cons]
    by_cases hb : (encodeChar c).length ≤ b
    · obtain ⟨o, ho, hdecode, hle, hlt⟩ := ih (b - (encodeChar c).length)
      refine ⟨o + 1, Nat.succ_le_succ ho, ?_, ?_, ?_⟩
      · rw [List.take_append, List.take_of_length_le hb, decodeSkipping_char, hdecode,
          List.take_succ_cons]
      · rw [hnext]
        omega
      · intro hmore
        have := hlt (Nat.lt_of_succ_lt_succ hmore)
        rw [hnext]
        omega
    · have hcut : b < (encodeChar c).length := Nat.lt_of_not_le hb
      refine ⟨0, Nat.zero_le _, ?_, Nat.zero_le _, ?_⟩
      · rw [List.take_append_of_le_length (Nat.le_of_lt hcut),
          (spells_encodeChar c).decodeSkipping_take hcut, List.take_zero]
      · intro _
        rw [hnext]
        omega

theorem isGreatest_of_between {text : List Char} {o b : Nat} (ho : o ≤ text.length)
    (hle : bytesBefore text o ≤ b) (hlt : o < text.length → b < bytesBefore text (o + 1)) :
    IsGreatest {i | i ≤ text.length ∧ bytesBefore text i ≤ b} o := by
  refine ⟨⟨ho, hle⟩, ?_⟩
  rintro i ⟨hi, hbytes⟩
  by_contra hmore
  have hoi : o + 1 ≤ i := Nat.lt_of_not_le hmore
  have hnext := hlt (Nat.lt_of_lt_of_le hoi hi)
  have := bytesBefore_le hoi hi
  omega

/-- The number of whole characters in the first bytes of a text is the greatest offset with at most
as many bytes before it. -/
theorem isGreatest_decodeSkipping_take (text : List Char) (b : Nat) :
    IsGreatest {o | o ≤ text.length ∧ bytesBefore text o ≤ b}
      (decodeSkipping ((encode text).take b)).length := by
  obtain ⟨o, ho, hdecode, hle, hlt⟩ := exists_decodeSkipping_take text b
  rw [hdecode, List.length_take, Nat.min_eq_left ho]
  exact isGreatest_of_between ho hle hlt

/-! ## The size of a text -/

theorem length_encodeChar (c : Char) : (encodeChar c).length = c.utf8Size := by
  have hval : c.val.toNat = c.toNat := rfl
  simp only [encodeChar, Char.utf8Size, UInt32.le_iff_toNat_le, hval, UInt32.toNat_ofNatLT,
    apply_ite List.length, ← Nat.lt_succ_iff]
  rfl

theorem length_encode (text : List Char) :
    (encode text).length = (String.ofList text).utf8ByteSize := by
  induction text with
  | nil => rfl
  | cons c text ih =>
    rw [encode_cons, List.length_append, length_encodeChar, ih, String.ofList_cons,
      String.utf8ByteSize_append, String.utf8ByteSize_singleton]

theorem length_encode_of_ascii {text : List Char} (h : ∀ c ∈ text, c.toNat < 0x80) :
    (encode text).length = text.length := by
  rw [encode_of_ascii h, List.length_map]

theorem bytesBefore_of_ascii {text : List Char} (h : ∀ c ∈ text, c.toNat < 0x80) {o : Nat}
    (ho : o ≤ text.length) : bytesBefore text o = o := by
  rw [bytesBefore, length_encode_of_ascii fun c hc => h c (List.mem_of_mem_take hc),
    List.length_take, Nat.min_eq_left ho]

end Text.Utf8

namespace Lines

open Text.Utf8

variable {text : List Char}

/-! ## Both ways -/

theorem slice_zero {α : Type} (xs : List α) {n : Nat} (h : n ≤ xs.length) :
    Text.slice xs 0 n = xs.take n := by
  have hslice := slice_natCast xs (Nat.zero_le _) h
  rwa [List.drop_zero] at hslice

/-- The bytes before an offset are counted in the same way in ASCII. -/
theorem byteOffset_eq_length {o : Nat} (ho : o ≤ text.length) :
    (ofText text).byteOffset o = (encode (Text.slice text 0 o)).length := by
  rw [byteOffset]
  split
  · rename_i hascii
    have hbytes := bytesBefore_of_ascii (toNat_of_isAscii hascii) ho
    rw [slice_zero text ho, ← bytesBefore, hbytes]
  · rfl

theorem byteOffset_eq {o : Nat} (ho : o ≤ text.length) :
    (ofText text).byteOffset o = bytesBefore text o := by
  rw [byteOffset_eq_length ho, slice_zero text ho, bytesBefore]

/-- The characters before a byte offset are counted in the same way in ASCII. -/
theorem ofByteOffset_eq_length {b : Nat} (hb : b ≤ (encode text).length) :
    (ofText text).ofByteOffset b =
      (decodeSkipping (Text.slice (encode text) 0 b)).length := by
  rw [ofByteOffset]
  split
  · rename_i hascii
    have hchars := toNat_of_isAscii hascii
    rw [length_encode_of_ascii hchars] at hb
    have hbytes := bytesBefore_of_ascii hchars hb
    have hgreatest := isGreatest_of_between hb (Nat.le_of_eq hbytes) fun hlt => by
      rw [bytesBefore_of_ascii hchars hlt]
      exact Nat.lt_succ_self b
    rw [slice_zero _ (by rwa [length_encode_of_ascii hchars]),
      (isGreatest_decodeSkipping_take text b).unique hgreatest]
  · rfl

theorem isGreatest_ofByteOffset {b : Nat} (hb : b ≤ (encode text).length) :
    ∃ o : Nat, (ofText text).ofByteOffset b = o ∧
      IsGreatest {o : Nat | o ≤ text.length ∧ (ofText text).byteOffset o ≤ b} o := by
  refine ⟨_, ofByteOffset_eq_length hb, ?_⟩
  rw [slice_zero _ hb]
  have hset : {o : Nat | o ≤ text.length ∧ (ofText text).byteOffset o ≤ b} =
      {o | o ≤ text.length ∧ bytesBefore text o ≤ b} := by
    ext o
    refine and_congr_right fun ho => ?_
    rw [byteOffset_eq ho, Int.ofNat_le]
  rw [hset]
  exact isGreatest_decodeSkipping_take text b

/-- Offsets and byte offsets are adjoint. -/
theorem byteOffset_le_iff {o b : Nat} (ho : o ≤ text.length) (hb : b ≤ (encode text).length) :
    (ofText text).byteOffset o ≤ b ↔ o ≤ (ofText text).ofByteOffset b := by
  obtain ⟨i, hi, ⟨hle, hbytes⟩, hgreatest⟩ := isGreatest_ofByteOffset hb
  rw [hi, Int.ofNat_le]
  constructor
  · exact fun h => hgreatest ⟨ho, h⟩
  · intro h
    rw [byteOffset_eq hle, Int.ofNat_le] at hbytes
    rw [byteOffset_eq ho, Int.ofNat_le]
    exact (bytesBefore_le h hle).trans hbytes

/-- All bytes of a character stand for its offset. -/
theorem ofByteOffset_of_between {o b : Nat} (ho : o ≤ text.length)
    (hle : bytesBefore text o ≤ b) (hlt : o < text.length → b < bytesBefore text (o + 1))
    (hb : b ≤ (encode text).length) : (ofText text).ofByteOffset b = o := by
  rw [ofByteOffset_eq_length hb, slice_zero _ hb,
    (isGreatest_decodeSkipping_take text b).unique (isGreatest_of_between ho hle hlt)]

theorem ofByteOffset_byteOffset {o : Nat} (ho : o ≤ text.length) :
    (ofText text).ofByteOffset ((ofText text).byteOffset o) = o := by
  rw [byteOffset_eq ho]
  exact ofByteOffset_of_between ho (Nat.le_refl _) bytesBefore_succ (bytesBefore_le_length ho)

/-- The byte offset of an offset is the number of bytes before it, and offsets come in the order of
their byte offsets. The offset of a byte offset is the greatest one with a byte offset that is not
beyond; it is the offset of the character in which the byte offset lies. Whether the text is in
ASCII makes no difference. -/
theorem byteOffsets_adjoint (text : List Char) :
    let l := ofText text
    (∀ o : Nat, o ≤ text.length →
      l.byteOffset o = (String.ofList (text.take o)).utf8ByteSize ∧
      l.byteOffset o = (encode (Text.slice text 0 o)).length) ∧
    (∀ i j : Nat, i < j → j ≤ text.length → l.byteOffset i < l.byteOffset j) ∧
    (∀ b : Nat, b ≤ (String.ofList text).utf8ByteSize →
      l.ofByteOffset b = (decodeSkipping (Text.slice (encode text) 0 b)).length ∧
      (∃ o : Nat, l.ofByteOffset b = o ∧
        IsGreatest {i : Nat | i ≤ text.length ∧ l.byteOffset i ≤ b} o) ∧
      ∀ o : Nat, o ≤ text.length → (l.byteOffset o ≤ b ↔ o ≤ l.ofByteOffset b)) ∧
    (∀ o : Nat, o ≤ text.length → l.ofByteOffset (l.byteOffset o) = o) ∧
    ∀ o b : Nat, o < text.length → l.byteOffset o ≤ b → b < l.byteOffset (o + 1 : Nat) →
      l.ofByteOffset b = o := by
  refine ⟨fun o ho => ⟨?_, byteOffset_eq_length ho⟩, fun i j hij hj => ?_, fun b hb => ?_,
    fun o ho => ofByteOffset_byteOffset ho, fun o b ho hle hlt => ?_⟩
  · rw [byteOffset_eq ho, bytesBefore, length_encode]
  · rw [byteOffset_eq (by omega), byteOffset_eq hj, Int.ofNat_lt]
    exact bytesBefore_lt hij hj
  · rw [← length_encode] at hb
    exact ⟨ofByteOffset_eq_length hb, isGreatest_ofByteOffset hb,
      fun o ho => byteOffset_le_iff ho hb⟩
  · rw [byteOffset_eq (Nat.le_of_lt ho), Int.ofNat_le] at hle
    rw [byteOffset_eq ho, Int.ofNat_lt] at hlt
    refine ofByteOffset_of_between (Nat.le_of_lt ho) hle (fun _ => hlt) ?_
    exact (Nat.le_of_lt hlt).trans (bytesBefore_le_length ho)

/-- The third byte of a character of three bytes stands for its offset. -/
theorem byteOffsets_adjoint_euro :
    let l := ofText ['\u00E9', '\u20AC']
    l.byteOffset 1 = 2 ∧ l.byteOffset 1 < l.byteOffset 2 ∧
      l.ofByteOffset (l.byteOffset 1) = 1 ∧ l.ofByteOffset 4 = 1 ∧
      (l.byteOffset 2 ≤ 4 ↔ 2 ≤ l.ofByteOffset 4) := by
  intro l
  obtain ⟨-, horder, hinside, hback, hwithin⟩ := byteOffsets_adjoint ['\u00E9', '\u20AC']
  have hadjoint := (hinside 4 (by decide)).2.2 2 (by decide)
  exact ⟨by decide, horder 1 2 (by decide) (by decide), hback 1 (by decide),
    hwithin 1 4 (by decide) (by decide) (by decide), hadjoint⟩

end Lines

end RacketTree

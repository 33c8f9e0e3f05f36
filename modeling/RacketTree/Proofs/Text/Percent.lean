import RacketTree.Proofs.Text.Utf8
import RacketTree.Text.Percent

/-!
# Percent encoding undone

An encoded text is ASCII, so that it is one run for the decoder, and the bytes of the run are those
of the text in UTF-8, each plain or escaped (`decodeFrom_encode`). At the end of the run they are
read as the text that they have come from (`decode_encode`).
-/

namespace RacketTree.Text.Percent

variable {c : Char} {run : List UInt8}

/-! ## Escapes -/

theorem hexValue?_hexDigit {n : Nat} (hn : n < 16) : hexValue? (hexDigit n) = some n := by
  have hall : ∀ n < 16, hexValue? (hexDigit n) = some n := by decide
  exact hall n hn

theorem byte?_hexDigit (b : UInt8) :
    byte? (hexDigit (b.toNat / 16)) (hexDigit (b.toNat % 16)) = some b := by
  have hb := b.toNat_lt
  have hhigh : b.toNat / 16 < 16 := by omega
  have hlow : b.toNat % 16 < 16 := by omega
  have hsum : 16 * (b.toNat / 16) + b.toNat % 16 = b.toNat := by omega
  simp only [byte?, hexValue?_hexDigit hhigh, hexValue?_hexDigit hlow]
  exact congrArg some (Utf8.toUInt8_eq hsum)

/-- An escape is one more byte of the run. -/
theorem decodeFrom_escape (run : List UInt8) (b : UInt8) (rest : List Char) :
    decodeFrom run (escape b ++ rest) = decodeFrom (b :: run) rest := by
  show decodeFrom run ('%' :: hexDigit (b.toNat / 16) :: hexDigit (b.toNat % 16) :: rest) = _
  rw [decodeFrom, if_pos rfl]
  simp only [byte?_hexDigit]

theorem decodeFrom_escapes (run bytes : List UInt8) (rest : List Char) :
    decodeFrom run (bytes.flatMap escape ++ rest) = decodeFrom (bytes.reverse ++ run) rest := by
  induction bytes generalizing run with
  | nil => rfl
  | cons b bytes ih =>
    rw [List.flatMap_cons, List.append_assoc, decodeFrom_escape, ih, List.reverse_cons,
      List.append_assoc]
    rfl

/-! ## Plain characters -/

theorem toNat_of_isAlphanum (h : c.isAlphanum = true) : c.toNat < 0x80 ∧ c ≠ '%' := by
  have hranges : ((65 ≤ c.toNat ∧ c.toNat ≤ 90) ∨ (97 ≤ c.toNat ∧ c.toNat ≤ 122)) ∨
      (48 ≤ c.toNat ∧ c.toNat ≤ 57) := by
    rcases Bool.or_eq_true_iff.mp h with halpha | hdigit
    · rcases Bool.or_eq_true_iff.mp halpha with hupper | hlower
      · exact .inl (.inl (of_decide_eq_true hupper))
      · obtain ⟨hlow, hhigh⟩ := Bool.and_eq_true_iff.mp hlower
        exact .inl (.inr ⟨of_decide_eq_true hlow, of_decide_eq_true hhigh⟩)
    · exact .inr (Char.isDigit_iff_toNat.mp hdigit)
  refine ⟨by omega, ?_⟩
  rintro rfl
  exact absurd hranges (by decide)

theorem toNat_of_isPlain (h : isPlain c = true) : c.toNat < 0x80 ∧ c ≠ '%' := by
  simp only [isPlain, Bool.or_eq_true, beq_iff_eq, or_assoc] at h
  rcases h with h | rfl | rfl | rfl | rfl | rfl
  · exact toNat_of_isAlphanum h
  all_goals decide

/-- A plain character is one more byte of the run. -/
theorem decodeFrom_plain (h : isPlain c = true) (run : List UInt8) (rest : List Char) :
    decodeFrom run (c :: rest) = decodeFrom (c.toNat.toUInt8 :: run) rest := by
  obtain ⟨hascii, hne⟩ := toNat_of_isPlain h
  rw [decodeFrom.eq_def]
  simp only [if_neg hne, if_pos hascii]

/-! ## Texts -/

theorem encode_cons (c : Char) (text : List Char) :
    encode (c :: text) =
      (if isPlain c then [c] else (Utf8.encodeChar c).flatMap escape) ++ encode text :=
  List.flatMap_cons

/-- The bytes of an encoded text come behind those of the run before it. -/
theorem decodeFrom_encode (run : List UInt8) (text rest : List Char) :
    decodeFrom run (encode text ++ rest) =
      decodeFrom ((Utf8.encode text).reverse ++ run) rest := by
  induction text generalizing run with
  | nil => rfl
  | cons c text ih =>
    rw [encode_cons, List.append_assoc, Utf8.encode_cons, List.reverse_append, List.append_assoc,
      ← ih]
    split
    · rename_i hplain
      rw [Utf8.encodeChar_of_ascii (toNat_of_isPlain hplain).1]
      exact decodeFrom_plain hplain run (encode text ++ rest)
    · exact decodeFrom_escapes run (Utf8.encodeChar c) (encode text ++ rest)

/-- What is encoded is decoded as it was. -/
theorem decode_encode (text : List Char) : decode (encode text) = text := by
  have hrun := decodeFrom_encode [] text []
  rw [List.append_nil, List.append_nil] at hrun
  rw [decode, hrun, decodeFrom, List.reverse_reverse, Utf8.decodeReplacing_encode]

end RacketTree.Text.Percent

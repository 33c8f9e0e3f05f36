import RacketTree.Proofs.Token.Truncate

/-!
# A token scanned by itself

What stands behind a token decides where it ends, and nothing else. Cut off directly behind the
token, the text still begins with the same extent (`exists_extent_alone`), so that the text of a
token, scanned alone, is a token of the same kind with the same fault, and all of it (`scan_alone`).
What stands before an offset is not looked at at all: where nothing can be classified, the rest of
the text fails for the same cause (`scan_drop_of_error`).
-/

namespace RacketTree.Token

variable {source : List Char} {i : Nat}

/-- A token at an offset is cut from the extent at the front of the text from there on. -/
theorem scan_eq_ok_iff {t : Token} : scan source i = .ok t ↔
    ∃ c rest e, source.drop i = c :: rest ∧ extent c rest = .ok e ∧ t = ⟨cut e (c :: rest), i⟩ := by
  constructor
  · intro h
    unfold scan at h
    split at h
    · cases h
    · rename_i c rest hdrop
      split at h
      · rename_i e he
        cases h
        exact ⟨c, rest, e, hdrop, he, rfl⟩
      · cases h
  · rintro ⟨c, rest, e, hdrop, he, rfl⟩
    simp only [scan, hdrop, he]

/-- An error inside the text is that of a token that is never terminated. -/
theorem scan_eq_error_iff (hi : i < source.length) {failure : ScanError} :
    scan source i = .error failure ↔
      ∃ c rest cause, source.drop i = c :: rest ∧ extent c rest = .error cause ∧
        failure = .unterminated cause i source.length := by
  constructor
  · intro h
    unfold scan at h
    split at h
    · rename_i hdrop
      have := List.drop_eq_nil_iff.mp hdrop
      omega
    · rename_i c rest hdrop
      split at h
      · cases h
      · rename_i cause hcause
        cases h
        exact ⟨c, rest, cause, hdrop, hcause, rfl⟩
  · rintro ⟨c, rest, cause, hdrop, hcause, rfl⟩
    simp only [scan, hdrop, hcause]

/-- The characters of an extent have that extent when nothing follows them. -/
theorem exists_extent_alone {c : Char} {rest : List Char} {e : Extent} (h : extent c rest = .ok e) :
    ∃ text, (c :: rest).take e.width = c :: text ∧ (c :: text).length = e.width ∧
      extent c text = .ok e := by
  have hfits := extent_fits h
  have hpos := hfits.pos
  have hle := hfits.le
  rw [List.length_cons] at hle
  obtain ⟨n, hn⟩ : ∃ n, e.width = n + 1 := ⟨e.width - 1, by omega⟩
  have hlength : (rest.take n).length = n := by
    rw [List.length_take]
    omega
  refine ⟨rest.take n, by rw [hn, List.take_succ_cons], by rw [List.length_cons, hlength, hn], ?_⟩
  -- the rest of the text goes, and with it nothing that the extent has taken
  apply extent_of_le (q := rest.drop n)
  · rwa [List.take_append_drop]
  · omega

/-- The text of a token is all of a token of the same kind and with the same fault. -/
theorem scan_alone {t : Token} (h : scan source i = .ok t) :
    scan t.text 0 = .ok ⟨t.toLexeme, 0⟩ := by
  obtain ⟨c, rest, e, -, he, rfl⟩ := scan_eq_ok_iff.mp h
  obtain ⟨text, htext, hlength, halone⟩ := exists_extent_alone he
  apply scan_eq_ok_iff.mpr
  refine ⟨c, text, e, htext, halone, ?_⟩
  show Token.mk (cut e (c :: rest)) 0 = Token.mk (cut e (c :: text)) 0
  rw [cut, cut, htext, ← hlength, List.take_length]

/-- The text of a token is what the source has between the ends of the token. -/
theorem text_of_scan {t : Token} (h : scan source i = .ok t) :
    i < t.stop ∧ t.stop ≤ source.length ∧ t.text = (source.take t.stop).drop i := by
  obtain ⟨c, rest, e, hdrop, he, rfl⟩ := scan_eq_ok_iff.mp h
  have hfits := extent_fits he
  have hpos := hfits.pos
  have hle := hfits.le
  have hwidth : (cut e (c :: rest)).text.length = e.width := length_text_cut hfits
  rw [← hdrop, List.length_drop] at hle
  simp only [stop, hwidth]
  refine ⟨by omega, by omega, ?_⟩
  rw [List.drop_take, hdrop, Nat.add_sub_cancel_left]
  rfl

/-- The rest of a text fails for the same cause as the text where the rest starts. -/
theorem scan_drop_of_error (hi : i < source.length) {failure : ScanError}
    (h : scan source i = .error failure) :
    ∃ cause, failure = .unterminated cause i source.length ∧
      scan (source.drop i) 0 = .error (.unterminated cause 0 (source.length - i)) := by
  obtain ⟨c, rest, cause, hdrop, hcause, rfl⟩ := (scan_eq_error_iff hi).mp h
  refine ⟨cause, rfl, ?_⟩
  have hlength : source.length - i = (c :: rest).length := by
    rw [← hdrop, List.length_drop]
  rw [hdrop, hlength]
  exact (scan_eq_error_iff (Nat.succ_pos _)).mpr ⟨c, rest, cause, rfl, hcause, rfl⟩

/-- A token is determined by its own text: it is not empty, its text is the stretch of the source
between its ends, and that text alone is a token of the same kind with the same fault. Where there
is no token, the rest of the source alone fails for the same cause. -/
theorem scan_text (hi : i < source.length) :
    (∀ t, scan source i = .ok t → i < t.stop ∧ t.stop ≤ source.length ∧
      t.text = (source.take t.stop).drop i ∧ scan t.text 0 = .ok ⟨t.toLexeme, 0⟩) ∧
    ∀ failure, scan source i = .error failure → ∃ cause,
      failure = .unterminated cause i source.length ∧
        scan (source.drop i) 0 = .error (.unterminated cause 0 (source.length - i)) := by
  refine ⟨fun t h => ?_, fun failure h => scan_drop_of_error hi h⟩
  obtain ⟨hpos, hle, htext⟩ := text_of_scan h
  exact ⟨hpos, hle, htext, scan_alone h⟩

/-- A character before a digit that is not octal, and a string that the source does not close. -/
theorem scan_text_character :
    scan "(#\\128 \"a".toList 1 = .ok ⟨⟨.character, "#\\1".toList, none⟩, 1⟩ ∧
      scan "#\\1".toList 0 = .ok ⟨⟨.character, "#\\1".toList, none⟩, 0⟩ ∧
      scan "(#\\128 \"a".toList 7 = .error (.unterminated .string 7 9) ∧
      scan "\"a".toList 0 = .error (.unterminated .string 0 2) := by
  have hscan : scan "(#\\128 \"a".toList 1 = .ok ⟨⟨.character, "#\\1".toList, none⟩, 1⟩ := by
    decide +kernel
  have hfail : scan "(#\\128 \"a".toList 7 = .error (.unterminated .string 7 9) := by
    decide +kernel
  obtain ⟨htext, -⟩ := @scan_text "(#\\128 \"a".toList 1 (by decide)
  obtain ⟨-, herror⟩ := @scan_text "(#\\128 \"a".toList 7 (by decide)
  obtain ⟨cause, hcause, hrest⟩ := herror _ hfail
  cases hcause
  exact ⟨hscan, (htext _ hscan).2.2.2, hfail, hrest⟩

end RacketTree.Token

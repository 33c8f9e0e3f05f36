import RacketTree.Proofs.Path
import RacketTree.Proofs.Text.Percent
import RacketTree.Uri

/-!
# Paths behind file URIs

The URI of a path holds the path as it is percent-encoded, so that all of it is found again behind
the URI (`toPath_scheme_encode`). The reader of URIs then takes the slash from a path that looks
like a drive path, and it does so on every system. So a normal path leads back to itself through its
URI if and only if its third character is no colon (`toPath_ofPath`).
-/

namespace RacketTree.Uri

variable {path : List Char}

/-- A slash, one character and a colon, as before a drive path. -/
def HasDrive (path : List Char) : Prop :=
  ∃ drive rest, path = '/' :: drive :: ':' :: rest

theorem dropDriveSlash_of_hasDrive (h : HasDrive path) : '/' :: dropDriveSlash path = path := by
  obtain ⟨drive, rest, rfl⟩ := h
  rfl

theorem dropDriveSlash_of_not_hasDrive (h : ¬HasDrive path) : dropDriveSlash path = path := by
  unfold dropDriveSlash
  split
  · rename_i drive rest
    exact absurd ⟨drive, rest, rfl⟩ h
  · rfl

theorem dropDriveSlash_eq_self_iff : dropDriveSlash path = path ↔ ¬HasDrive path := by
  constructor
  · intro hsame hdrive
    have hlength := congrArg List.length (dropDriveSlash_of_hasDrive hdrive)
    rw [hsame, List.length_cons] at hlength
    omega
  · exact dropDriveSlash_of_not_hasDrive

/-- Behind the encoded form of a text there is the text, but for the slash before a drive. -/
theorem toPath_scheme_encode (text : List Char) :
    toPath (scheme ++ Text.Percent.encode text) = dropDriveSlash text := by
  have hscheme : scheme.isPrefixOf (scheme ++ Text.Percent.encode text) = true := by
    rw [List.isPrefixOf_iff_prefix]
    exact List.prefix_append _ _
  rw [toPath, if_pos hscheme, List.drop_left, Text.Percent.decode_encode]

/-- The URI of a normal path leads back to the path if and only if the path does not look like a
drive path; then it leads to the path without its slash. -/
theorem toPath_ofPath (h : Path.IsNormal path) (cwd : List Char) :
    (toPath (ofPath cwd path) = path ↔ ¬HasDrive path) ∧
      (HasDrive path → '/' :: toPath (ofPath cwd path) = path) := by
  have hpath : toPath (ofPath cwd path) = dropDriveSlash path := by
    rw [ofPath, Path.absolute_of_isNormal h, toPath_scheme_encode]
  rw [hpath]
  exact ⟨dropDriveSlash_eq_self_iff, dropDriveSlash_of_hasDrive⟩

/-- A path with a percent sign, a blank, a letter beyond ASCII and a colon further behind. -/
theorem toPath_ofPath_percent :
    Path.IsNormal "/50%25 é/c:/x".toList ∧
      ofPath ['/'] "/50%25 é/c:/x".toList = "file:///50%2525%20%C3%A9/c%3A/x".toList ∧
      toPath (ofPath ['/'] "/50%25 é/c:/x".toList) = "/50%25 é/c:/x".toList := by
  have hnormal : Path.IsNormal "/50%25 é/c:/x".toList :=
    Path.isNormal_iff.mpr ⟨by decide, by decide +kernel⟩
  have hdrive : ¬HasDrive "/50%25 é/c:/x".toList := by
    rintro ⟨drive, rest, heq⟩
    simp at heq
  exact ⟨hnormal, by decide +kernel, (toPath_ofPath hnormal ['/']).1.mpr hdrive⟩

/-- The path of a directory that is named like a drive loses its slash. -/
theorem toPath_ofPath_drive :
    Path.IsNormal "/c:/x".toList ∧ ofPath ['/'] "/c:/x".toList = "file:///c%3A/x".toList ∧
      toPath "file:///c%3A/x".toList = "c:/x".toList ∧
      toPath (ofPath ['/'] "/c:/x".toList) ≠ "/c:/x".toList :=
  ⟨Path.isNormal_iff.mpr ⟨by decide, by decide +kernel⟩, by decide +kernel, by decide +kernel,
    by decide +kernel⟩

end RacketTree.Uri

import Mathlib.Data.List.Basic
import RacketTree.Path

/-!
# Normal paths

A normal absolute path is one slash or two and names with slashes between (`IsNormal`). Making a
path normal gives such a path, if it is absolute (`isNormal_normalize`), and leaves one as it is
(`normalize_of_isNormal`). So the normal paths are those that are made normal already
(`isNormal_iff`), and seen from any directory they stand for themselves (`absolute_of_isNormal`).
-/

namespace RacketTree.Path

variable {part path rest : List Char} {names done : List (List Char)}

/-- A part of a normal absolute path: not empty, and neither one dot nor two. -/
structure IsName (part : List Char) : Prop where
  ne_nil : part ≠ []
  not_mem : '/' ∉ part
  ne_dot : part ≠ ['.']
  ne_up : part ≠ up

/-- One slash or two, and names with slashes between. -/
def IsNormal (path : List Char) : Prop :=
  ∃ front names, (front = ['/'] ∨ front = ['/', '/']) ∧ (∀ part ∈ names, IsName part) ∧
    path = front ++ joinParts names

/-! ## Parts -/

theorem partsFrom_of_not_mem (h : '/' ∉ path) (part : List Char) :
    partsFrom part path = [part.reverse ++ path] := by
  induction path generalizing part with
  | nil => rw [partsFrom, List.append_nil]
  | cons c path ih =>
    rw [List.mem_cons, not_or] at h
    rw [partsFrom, if_neg (Ne.symm h.1), ih h.2, List.reverse_cons, List.append_assoc]
    rfl

/-- A slash ends a part. -/
theorem partsFrom_append (h : '/' ∉ path) (part rest : List Char) :
    partsFrom part (path ++ '/' :: rest) = (part.reverse ++ path) :: parts rest := by
  induction path generalizing part with
  | nil => rw [List.nil_append, partsFrom, if_pos rfl, List.append_nil, parts]
  | cons c path ih =>
    rw [List.mem_cons, not_or] at h
    rw [List.cons_append, partsFrom, if_neg (Ne.symm h.1), ih h.2, List.reverse_cons,
      List.append_assoc]
    rfl

theorem parts_slash (rest : List Char) : parts ('/' :: rest) = [] :: parts rest :=
  @partsFrom_append [] List.not_mem_nil [] rest

theorem parts_joinParts (hne : names ≠ []) (h : ∀ part ∈ names, '/' ∉ part) :
    parts (joinParts names) = names := by
  induction names with
  | nil => exact absurd rfl hne
  | cons part names ih =>
    obtain ⟨hpart, hnames⟩ := List.forall_mem_cons.mp h
    cases names with
    | nil => exact partsFrom_of_not_mem hpart []
    | cons next names =>
      rw [joinParts, parts, partsFrom_append hpart, ih (List.cons_ne_nil _ _) hnames]
      · rfl
      · exact List.cons_ne_nil _ _

theorem not_mem_of_mem_partsFrom (hpart : '/' ∉ part) :
    ∀ p ∈ partsFrom part path, '/' ∉ p := by
  induction path generalizing part with
  | nil =>
    intro p hp
    rw [List.mem_singleton.mp hp, List.mem_reverse]
    exact hpart
  | cons c path ih =>
    rw [partsFrom]
    split
    · refine List.forall_mem_cons.mpr ⟨?_, ih List.not_mem_nil⟩
      rwa [List.mem_reverse]
    · rename_i hc
      apply ih
      rw [List.mem_cons, not_or]
      exact ⟨Ne.symm hc, hpart⟩

/-! ## Names -/

theorem addPart_nil (absolute : Bool) (done : List (List Char)) : addPart absolute done [] = done :=
  rfl

theorem addPart_of_isName (h : IsName part) (absolute : Bool) (done : List (List Char)) :
    addPart absolute done part = part :: done := by
  unfold addPart
  rw [if_neg (by simp [h.ne_nil, h.ne_dot]), if_neg h.ne_up]

theorem foldl_addPart_of_isName (h : ∀ part ∈ names, IsName part) (absolute : Bool)
    (done : List (List Char)) : names.foldl (addPart absolute) done = names.reverse ++ done := by
  induction names generalizing done with
  | nil => rfl
  | cons part names ih =>
    obtain ⟨hpart, hnames⟩ := List.forall_mem_cons.mp h
    rw [List.foldl_cons, addPart_of_isName hpart, ih hnames, List.reverse_cons, List.append_assoc]
    rfl

/-- In an absolute path only names are kept: two dots take a name away or are left out. -/
theorem isName_of_mem_addPart (hdone : ∀ p ∈ done, IsName p) (hpart : '/' ∉ part) :
    ∀ p ∈ addPart true done part, IsName p := by
  unfold addPart
  split
  · exact hdone
  · rename_i hkept
    simp only [Bool.or_eq_true, decide_eq_true_eq, not_or] at hkept
    split
    · cases done with
      | nil => exact hdone
      | cons last earlier =>
        obtain ⟨hlast, hearlier⟩ := List.forall_mem_cons.mp hdone
        simp only [if_neg hlast.ne_up]
        exact hearlier
    · rename_i hup
      exact List.forall_mem_cons.mpr ⟨⟨hkept.1, hpart, hkept.2, hup⟩, hdone⟩

theorem isName_of_mem_foldl (hdone : ∀ p ∈ done, IsName p) (hnames : ∀ part ∈ names, '/' ∉ part) :
    ∀ p ∈ names.foldl (addPart true) done, IsName p := by
  induction names generalizing done with
  | nil => exact hdone
  | cons part names ih =>
    obtain ⟨hpart, hnames⟩ := List.forall_mem_cons.mp hnames
    exact ih (isName_of_mem_addPart hdone hpart) hnames

theorem foldl_parts_joinParts (h : ∀ part ∈ names, IsName part) :
    (parts (joinParts names)).foldl (addPart true) [] = names.reverse := by
  cases names with
  | nil => rfl
  | cons part names =>
    rw [parts_joinParts (List.cons_ne_nil _ _) fun p hp => (h p hp).not_mem,
      foldl_addPart_of_isName h, List.append_nil]

/-! ## The front -/

theorem head?_joinParts (h : ∀ part ∈ names, IsName part) :
    (joinParts names).head? ≠ some '/' := by
  cases names with
  | nil => nofun
  | cons part names =>
    obtain ⟨c, part, rfl⟩ := List.exists_cons_of_ne_nil (h part List.mem_cons_self).ne_nil
    have hc : c ≠ '/' := by
      rintro rfl
      exact (h _ List.mem_cons_self).not_mem List.mem_cons_self
    cases names with
    | nil => simpa [joinParts] using hc
    | cons next names => simpa [joinParts] using hc

theorem root_one (h : rest.head? ≠ some '/') : root ('/' :: rest) = ['/'] := by
  unfold root
  split
  · rfl
  · rename_i heq
    cases heq
    exact absurd rfl h
  · rfl
  · rename_i hslash
    exact absurd rfl (hslash rest)

theorem root_two (h : rest.head? ≠ some '/') : root ('/' :: '/' :: rest) = ['/', '/'] := by
  unfold root
  split
  · rename_i heq
    cases heq
    exact absurd rfl h
  · rfl
  · rename_i htwo heq
    cases heq
    exact absurd rfl (htwo rest)
  · rename_i hslash
    exact absurd rfl (hslash _)

theorem root_cases (h : path.head? = some '/') : root path = ['/'] ∨ root path = ['/', '/'] := by
  unfold root
  split
  · exact .inl rfl
  · exact .inr rfl
  · exact .inl rfl
  · rename_i hslash
    cases path with
    | nil => cases h
    | cons c rest =>
      cases h
      exact absurd rfl (hslash rest)

/-! ## Normal paths -/

theorem normalize_eq (h : path.head? = some '/') : normalize path =
    root path ++ joinParts ((parts path).foldl (addPart true) []).reverse := by
  have hne : root path ≠ [] := by
    rcases root_cases h with hroot | hroot <;> rw [hroot] <;> exact List.cons_ne_nil _ _
  have hempty : (root path).isEmpty = false := List.isEmpty_eq_false_iff.mpr hne
  rw [normalize]
  simp only [hempty, Bool.not_false]
  exact if_neg (by simp [hne])

/-- Making an absolute path normal gives a normal path. -/
theorem isNormal_normalize (h : path.head? = some '/') : IsNormal (normalize path) := by
  refine ⟨root path, ((parts path).foldl (addPart true) []).reverse, root_cases h, ?_,
    normalize_eq h⟩
  intro p hp
  have hdone : ∀ p ∈ ([] : List (List Char)), IsName p := List.forall_mem_nil _
  apply isName_of_mem_foldl hdone ?_ p (List.mem_reverse.mp hp)
  exact not_mem_of_mem_partsFrom List.not_mem_nil

theorem head?_of_isNormal (h : IsNormal path) : path.head? = some '/' := by
  obtain ⟨front, names, rfl | rfl, -, rfl⟩ := h <;> rfl

/-- A normal path is left as it is. -/
theorem normalize_of_isNormal (h : IsNormal path) : normalize path = path := by
  obtain ⟨front, names, hfront, hnames, rfl⟩ := h
  have hhead := head?_joinParts hnames
  have hfold := foldl_parts_joinParts hnames
  rcases hfront with rfl | rfl
  · rw [normalize_eq rfl, List.singleton_append, root_one hhead, parts_slash, List.foldl_cons,
      addPart_nil, hfold, List.reverse_reverse, List.singleton_append]
  · show normalize ('/' :: '/' :: joinParts names) = _
    rw [normalize_eq rfl, root_two hhead, parts_slash, parts_slash, List.foldl_cons,
      List.foldl_cons, addPart_nil, addPart_nil, hfold, List.reverse_reverse]

/-- The normal paths are the absolute paths that are made normal already. -/
theorem isNormal_iff : IsNormal path ↔ path.head? = some '/' ∧ normalize path = path := by
  constructor
  · exact fun h => ⟨head?_of_isNormal h, normalize_of_isNormal h⟩
  · rintro ⟨hhead, hsame⟩
    rw [← hsame]
    exact isNormal_normalize hhead

/-- Seen from any directory a normal path stands for itself. -/
theorem absolute_of_isNormal (h : IsNormal path) (cwd : List Char) : absolute cwd path = path := by
  have hjoin : join cwd path = path := by
    rw [join, head?_of_isNormal h]
    rfl
  rw [absolute, hjoin, normalize_of_isNormal h]

end RacketTree.Path

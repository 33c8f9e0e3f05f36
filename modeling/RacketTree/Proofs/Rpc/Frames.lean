import RacketTree.Proofs.Number.Decimal
import RacketTree.Proofs.Text.Utf8
import RacketTree.Rpc.Frame

/-!
# Well-formed frames

A frame around a body (`IsFrame`) has header lines, a blank line and the body. One header line gives
the length of the body: the name of the length in any letter case, blanks, and the decimal digits.
Any other line may stand before or behind it that is not blank and does not begin with that name,
blanks in front of it left out: a line with the name behind blanks gives the length as well
(`readHeaders_indented`).

Reading a frame in front of any input gives its body and the rest of the input (`read_frame`). A
frame whose body is cut short ends the input (`read_cut`), unless its length cannot be read
(`read_overlong`, `read_digits`). What the server writes is a frame (`isFrame_ofText`).
-/

namespace RacketTree

namespace Text

theorem mem_dropWhile {α : Type} {p : α → Bool} {x : α} {xs : List α} (h : x ∈ xs)
    (hx : p x = false) : x ∈ xs.dropWhile p := by
  rw [← @List.takeWhile_append_dropWhile _ p xs, List.mem_append] at h
  refine h.resolve_left fun hmem => ?_
  have := List.all_eq_true.mp List.all_takeWhile x hmem
  rw [hx] at this
  cases this

theorem mem_strip {c : Char} {text : List Char} (h : c ∈ text) (hc : isBlank c = false) :
    c ∈ strip text :=
  List.mem_reverse.mpr (mem_dropWhile (List.mem_reverse.mpr (mem_dropWhile h hc)) hc)

theorem strip_prefix (text : List Char) : strip text <+: text.dropWhile isBlank := by
  rw [strip, ← List.reverse_suffix, List.reverse_reverse]
  exact List.dropWhile_suffix _

/-- Blanks behind a text that is not blank are left out. -/
theorem strip_append {c : Char} {text blanks : List Char} (h : c ∈ text) (hc : isBlank c = false)
    (hblanks : ∀ b ∈ blanks, isBlank b = true) : strip (text ++ blanks) = strip text := by
  have hne : (text.dropWhile isBlank).isEmpty = false := by
    rw [List.isEmpty_eq_false_iff]
    exact List.ne_nil_of_mem (mem_dropWhile h hc)
  rw [strip, List.dropWhile_append, hne, if_neg (by simp), List.reverse_append,
    List.dropWhile_append_of_pos fun b hb => hblanks b (List.mem_reverse.mp hb), strip]

end Text

namespace Rpc.Frame

/-! ## Header lines -/

/-- A byte that counts as a blank in a header line. -/
def isBlankByte (b : UInt8) : Bool :=
  (9 ≤ b && b ≤ 13) || (28 ≤ b && b ≤ 32)

/-- A byte with an ASCII capital in lower case. -/
def lowerByte (b : UInt8) : UInt8 :=
  if 0x41 ≤ b ∧ b ≤ 0x5A then b + 0x20 else b

/-- ASCII characters as bytes. -/
def bytesOf (text : List Char) : List UInt8 :=
  text.map fun c => c.toNat.toUInt8

/-- A line with the break that ends it. -/
def broken (line : List UInt8) : List UInt8 :=
  line ++ [0x0D, 0x0A]

/-- The bytes spell the name of the length in any letter case. -/
def NamesLength (name : List UInt8) : Prop :=
  name.map lowerByte = bytesOf lengthName

/-- A header line that does not give the length. Blanks in front of a line do not count: one with
the name behind blanks is no other line, although it does not begin with the name. -/
structure IsOther (line : List UInt8) : Prop where
  unbroken : 0x0A ∉ line
  nonblank : ∃ b ∈ line, isBlankByte b = false
  unnamed : ∀ name rest, line.dropWhile isBlankByte = name ++ rest → ¬NamesLength name

/-- A header line that gives the length `n`. -/
def GivesLength (n : Nat) (line : List UInt8) : Prop :=
  ∃ name blanks, NamesLength name ∧ (∀ b ∈ blanks, b = 0x20 ∨ b = 0x09) ∧
    line = name ++ (blanks ++ bytesOf (Nat.toDigits 10 n))

/-- A frame around a body. -/
def IsFrame (body frame : List UInt8) : Prop :=
  ∃ (before : List (List UInt8)) (line : List UInt8) (after : List (List UInt8)),
    (∀ l ∈ before ++ after, IsOther l) ∧ GivesLength body.length line ∧
      frame =
        before.flatMap broken ++ (broken line ++ (after.flatMap broken ++ ([0x0D, 0x0A] ++ body)))

/-- Header lines that give the length `n`, and the blank line that ends them. -/
def IsHead (n : Nat) (head : List UInt8) : Prop :=
  ∃ (before : List (List UInt8)) (line : List UInt8) (after : List (List UInt8)),
    (∀ l ∈ before ++ after, IsOther l) ∧ GivesLength n line ∧
      head = before.flatMap broken ++ (broken line ++ (after.flatMap broken ++ [0x0D, 0x0A]))

/-! ## Bytes as characters -/

/-- The character that stands for a byte of a header line. -/
def headerChar (b : UInt8) : Char :=
  if b < 0x80 then Char.ofNat b.toNat else '\uFFFD'

theorem headerText_eq (bytes : List UInt8) :
    headerText bytes = Text.strip (bytes.map headerChar) :=
  rfl

theorem forall_byte {p : UInt8 → Prop} (h : ∀ n : Fin 256, p ⟨⟨n⟩⟩) (b : UInt8) : p b :=
  h b.toBitVec.toFin

theorem isBlank_headerChar (b : UInt8) : Text.isBlank (headerChar b) = isBlankByte b := by
  revert b
  apply forall_byte
  decide +kernel

theorem lower_headerChar (b : UInt8) : ∀ c ∈ lengthName,
    (Text.lower (headerChar b) = c ↔ lowerByte b = c.toNat.toUInt8) := by
  -- as a test of a list, so that no characters but those of the name are tried
  have hall : ∀ b : UInt8, lengthName.all (fun c =>
      decide (Text.lower (headerChar b) = c ↔ lowerByte b = c.toNat.toUInt8)) = true := by
    apply forall_byte
    decide +kernel
  intro c hc
  exact of_decide_eq_true (List.all_eq_true.mp (hall b) c hc)

theorem isBlank_of_mem_break : ∀ c ∈ [0x0D, 0x0A].map headerChar, Text.isBlank c = true :=
  List.all_eq_true.mp (by decide)

theorem headerChar_of_lt {c : Char} (h : c.toNat < 0x80) : headerChar c.toNat.toUInt8 = c := by
  have hsmall : c.toNat.toUInt8.toNat = c.toNat := by
    rw [Nat.toUInt8, UInt8.toNat_ofNat']
    omega
  have hlt : c.toNat.toUInt8 < 0x80 := by
    rw [UInt8.lt_iff_toNat_lt, hsmall]
    exact h
  rw [headerChar, if_pos hlt, hsmall, Char.ofNat_toNat]

theorem map_headerChar_bytesOf {text : List Char} (h : ∀ c ∈ text, c.toNat < 0x80) :
    (bytesOf text).map headerChar = text := by
  rw [bytesOf, List.map_map, List.map_congr_left (g := id), List.map_id]
  exact fun c hc => headerChar_of_lt (h c hc)

theorem map_eq_iff {f : UInt8 → Char} {g : UInt8 → UInt8} {k : Char → UInt8} {name : List UInt8}
    {text : List Char} (h : ∀ b, ∀ c ∈ text, (f b = c ↔ g b = k c)) :
    name.map f = text ↔ name.map g = text.map k := by
  induction text generalizing name with
  | nil => simp
  | cons c text ih =>
    cases name with
    | nil => simp
    | cons b name =>
      rw [List.map_cons, List.map_cons, List.map_cons, List.cons.injEq, List.cons.injEq,
        h b c List.mem_cons_self, ih fun b c hc => h b c (List.mem_cons_of_mem _ hc)]

/-- The name is read as it is meant. -/
theorem namesLength_iff {name : List UInt8} :
    NamesLength name ↔ name.map (fun b => Text.lower (headerChar b)) = lengthName :=
  (map_eq_iff lower_headerChar).symm

/-! ## Lines -/

theorem line_broken {l : List UInt8} (h : 0x0A ∉ l) (rest : List UInt8) :
    line (broken l ++ rest) = broken l ∧ afterLine (broken l ++ rest) = rest := by
  induction l with
  | nil => exact ⟨rfl, rfl⟩
  | cons b l ih =>
    obtain ⟨hb, hl⟩ := List.ne_and_not_mem_of_not_mem_cons h
    obtain ⟨hline, hafter⟩ := ih hl
    constructor
    · change line (b :: (broken l ++ rest)) = b :: broken l
      rw [line, if_neg (Ne.symm hb), hline]
    · change afterLine (b :: (broken l ++ rest)) = rest
      rw [afterLine, if_neg (Ne.symm hb), hafter]

theorem broken_eq_cons (l rest : List UInt8) : ∃ b bytes, broken l ++ rest = b :: bytes :=
  List.exists_cons_of_ne_nil (by simp [broken])

/-- A line with another text is skipped. -/
theorem readHeaders_skip {l : List UInt8} (h : 0x0A ∉ l) (hne : headerText (broken l) ≠ [])
    (hvalue : lengthValue? (headerText (broken l)) = none) (length? : Option Int)
    (rest : List UInt8) : readHeaders length? (broken l ++ rest) = readHeaders length? rest := by
  obtain ⟨hline, hafter⟩ := line_broken h rest
  obtain ⟨b, bytes, hbytes⟩ := broken_eq_cons l rest
  rw [hbytes] at hline hafter ⊢
  cases length? <;> simp only [readHeaders, hline, hafter, hvalue, List.isEmpty_iff, hne, if_false]

/-- A line with the length sets it. -/
theorem readHeaders_set {l : List UInt8} (h : 0x0A ∉ l) (hne : headerText (broken l) ≠ [])
    {value : List Char} {n : Int} (hvalue : lengthValue? (headerText (broken l)) = some value)
    (hn : Number.readInteger? .decimal (Text.strip value) = some n) (length? : Option Int)
    (rest : List UInt8) : readHeaders length? (broken l ++ rest) = readHeaders (some n) rest := by
  obtain ⟨hline, hafter⟩ := line_broken h rest
  obtain ⟨b, bytes, hbytes⟩ := broken_eq_cons l rest
  rw [hbytes] at hline hafter ⊢
  cases length? <;>
    simp only [readHeaders, hline, hafter, hvalue, hn, List.isEmpty_iff, hne, if_false]

/-- A line with a length that is no number is refused. -/
theorem readHeaders_refuse {l : List UInt8} (h : 0x0A ∉ l) (hne : headerText (broken l) ≠ [])
    {value : List Char} (hvalue : lengthValue? (headerText (broken l)) = some value)
    (hn : Number.readInteger? .decimal (Text.strip value) = none) (length? : Option Int)
    (rest : List UInt8) :
    ∃ text, readHeaders length? (broken l ++ rest) =
      .refused ⟨Error.parseError, text, none⟩ rest := by
  obtain ⟨hline, hafter⟩ := line_broken h rest
  obtain ⟨b, bytes, hbytes⟩ := broken_eq_cons l rest
  rw [hbytes] at hline hafter ⊢
  refine ⟨"Invalid Content-Length: " ++ String.ofList (headerText (broken l)), ?_⟩
  cases length? <;>
    simp only [readHeaders, hline, hafter, hvalue, hn, List.isEmpty_iff, hne, if_false]

/-- A blank line ends the headers. -/
theorem readHeaders_blank (n : Int) (rest : List UInt8) :
    readHeaders (some n) ([0x0D, 0x0A] ++ rest) = .length n rest := by
  have htext : headerText (broken []) = [] := by decide
  obtain ⟨hline, hafter⟩ := @line_broken [] (List.not_mem_nil) rest
  obtain ⟨b, bytes, hbytes⟩ := broken_eq_cons [] rest
  change readHeaders (some n) (broken [] ++ rest) = _
  rw [hbytes] at hline hafter ⊢
  simp only [readHeaders, hline, hafter, htext, List.isEmpty_nil, if_true]

theorem headerText_broken {l : List UInt8} (h : ∃ b ∈ l, isBlankByte b = false) :
    headerText (broken l) = Text.strip (l.map headerChar) := by
  obtain ⟨b, hb, hblank⟩ := h
  rw [← isBlank_headerChar] at hblank
  rw [headerText_eq, broken, List.map_append]
  exact Text.strip_append (List.mem_map_of_mem hb) hblank isBlank_of_mem_break

/-- A line that does not give the length is skipped. -/
theorem readHeaders_other {l : List UInt8} (h : IsOther l) (length? : Option Int)
    (rest : List UInt8) : readHeaders length? (broken l ++ rest) = readHeaders length? rest := by
  have htext := headerText_broken h.nonblank
  apply readHeaders_skip h.unbroken
  · obtain ⟨b, hb, hblank⟩ := h.nonblank
    rw [← isBlank_headerChar] at hblank
    rw [htext]
    exact List.ne_nil_of_mem (Text.mem_strip (List.mem_map_of_mem hb) hblank)
  · rw [htext, lengthValue?, if_neg]
    intro hprefix
    have hblank : Text.isBlank ∘ headerChar = isBlankByte := funext isBlank_headerChar
    have hfront := (Text.strip_prefix (l.map headerChar)).map Text.lower
    rw [List.dropWhile_map, hblank, List.map_map] at hfront
    obtain ⟨tail, htail⟩ := (List.isPrefixOf_iff_prefix.mp hprefix).trans hfront
    obtain ⟨name, rest, hname, hmap, -⟩ := List.map_eq_append_iff.mp htail.symm
    exact h.unnamed name rest hname (namesLength_iff.mpr hmap)

theorem readHeaders_others {ls : List (List UInt8)} (h : ∀ l ∈ ls, IsOther l)
    (length? : Option Int) (rest : List UInt8) :
    readHeaders length? (ls.flatMap broken ++ rest) = readHeaders length? rest := by
  induction ls with
  | nil => rfl
  | cons l ls ih =>
    rw [List.flatMap_cons, List.append_assoc, readHeaders_other (h l List.mem_cons_self)]
    exact ih fun x hx => h x (List.mem_cons_of_mem _ hx)

/-! ## The length -/

theorem isBlank_of_mem_name {name : List UInt8} (h : NamesLength name) :
    ∀ b ∈ name, isBlankByte b = false ∧ b ≠ 0x0A := by
  have hname : ∀ b : UInt8,
      lowerByte b ∈ bytesOf lengthName → isBlankByte b = false ∧ b ≠ 0x0A := by
    apply forall_byte
    decide +kernel
  intro b hb
  apply hname
  rw [← h]
  exact List.mem_map_of_mem hb

theorem toNat_lt_of_mem_toDigits {n : Nat} {c : Char} (h : c ∈ Nat.toDigits 10 n) :
    c.toNat < 0x80 := by
  have := Number.toNat_of_isDigit (Number.isDigit_of_mem h)
  omega

theorem digit_of_mem {n : Nat} {b : UInt8} (h : b ∈ bytesOf (Nat.toDigits 10 n)) :
    isBlankByte b = false ∧ b ≠ 0x0A := by
  obtain ⟨c, hc, rfl⟩ := List.mem_map.mp h
  have hdigit := Number.isDigit_of_mem hc
  have hchar := headerChar_of_lt (toNat_lt_of_mem_toDigits hc)
  constructor
  · rw [← isBlank_headerChar, hchar, Number.isBlank_of_isDigit hdigit]
  · intro heq
    rw [heq] at hchar
    rw [← hchar] at hdigit
    cases hdigit

theorem getLast?_digits {n : Nat} (front : List Char) :
    ∀ c ∈ (front ++ Nat.toDigits 10 n).getLast?, Text.isBlank c = false := by
  intro c hc
  have hne : Nat.toDigits 10 n ≠ [] := Nat.toDigits_ne_nil
  rw [List.getLast?_append, List.getLast?_eq_some_getLast hne, Option.some_or,
    ← List.getLast?_eq_some_getLast hne] at hc
  exact Number.isBlank_of_isDigit (Number.isDigit_of_mem (List.mem_of_getLast? hc))

theorem strip_digits {n : Nat} {blanks : List Char} (h : ∀ c ∈ blanks, Text.isBlank c = true) :
    Text.strip (blanks ++ Nat.toDigits 10 n) = Nat.toDigits 10 n := by
  have hcore := @Text.trim_eq _ Text.isBlank blanks (Nat.toDigits 10 n) [] h nofun ?_
    (getLast?_digits []) Nat.toDigits_ne_nil
  · rwa [List.append_nil] at hcore
  · intro c hc
    exact Number.isBlank_of_isDigit (Number.isDigit_of_mem (List.mem_of_head? hc))

/-- The text of the line that gives the length, and its value. -/
theorem lengthValue?_name {name : List UInt8} (h : NamesLength name) (value : List Char) :
    lengthValue? (name.map headerChar ++ value) = some value := by
  have hspelled := namesLength_iff.mp h
  have hlength : (name.map headerChar).length = lengthName.length := by
    rw [← hspelled, List.length_map, List.length_map]
  rw [lengthValue?, if_pos, List.drop_left' hlength]
  rw [List.isPrefixOf_iff_prefix, List.map_append, List.map_map]
  exact ⟨value.map Text.lower, congrArg (· ++ _) hspelled.symm⟩

theorem headerText_name {name : List UInt8} (h : NamesLength name) {n : Nat} (front : List Char) :
    Text.strip (name.map headerChar ++ (front ++ Nat.toDigits 10 n) ++
      [0x0D, 0x0A].map headerChar) = name.map headerChar ++ (front ++ Nat.toDigits 10 n) := by
  apply @Text.trim_eq _ Text.isBlank []
  · exact nofun
  · exact isBlank_of_mem_break
  · cases name with
    | nil => cases h
    | cons b name =>
      intro c hc
      cases hc
      rw [isBlank_headerChar]
      exact (isBlank_of_mem_name h b List.mem_cons_self).1
  · rw [← List.append_assoc]
    exact getLast?_digits _
  · simp

/-- The line that gives the length has its digits as value. -/
theorem exists_lengthValue {n : Nat} {l : List UInt8} (h : GivesLength n l) :
    0x0A ∉ l ∧ headerText (broken l) ≠ [] ∧
      ∃ value, lengthValue? (headerText (broken l)) = some value ∧
        Text.strip value = Nat.toDigits 10 n := by
  obtain ⟨name, blanks, hname, hblanks, rfl⟩ := h
  have hchars : (bytesOf (Nat.toDigits 10 n)).map headerChar = Nat.toDigits 10 n :=
    map_headerChar_bytesOf fun c hc => toNat_lt_of_mem_toDigits hc
  have htext : headerText (broken (name ++ (blanks ++ bytesOf (Nat.toDigits 10 n)))) =
      name.map headerChar ++ (blanks.map headerChar ++ Nat.toDigits 10 n) := by
    rw [headerText_eq, broken, List.map_append, List.map_append, List.map_append, hchars,
      headerText_name hname]
  refine ⟨?_, ?_, blanks.map headerChar ++ Nat.toDigits 10 n, ?_, strip_digits ?_⟩
  · intro hmem
    rcases List.mem_append.mp hmem with hmem | hmem
    · exact (isBlank_of_mem_name hname _ hmem).2 rfl
    · rcases List.mem_append.mp hmem with hmem | hmem
      · rcases hblanks _ hmem with hb | hb <;> cases hb
      · exact (digit_of_mem hmem).2 rfl
  · rw [htext]
    simp
  · rw [htext, lengthValue?_name hname]
  · intro c hc
    obtain ⟨b, hb, rfl⟩ := List.mem_map.mp hc
    rcases hblanks b hb with rfl | rfl <;> decide

theorem headerText_indented {l blanks : List UInt8} (hblanks : ∀ b ∈ blanks, isBlankByte b = true) :
    headerText (broken (blanks ++ l)) = headerText (broken l) := by
  have hchars : ∀ c ∈ blanks.map headerChar, Text.isBlank c = true := by
    intro c hc
    obtain ⟨b, hb, rfl⟩ := List.mem_map.mp hc
    rw [isBlank_headerChar, hblanks b hb]
  have hbroken : broken (blanks ++ l) = blanks ++ broken l := List.append_assoc ..
  rw [hbroken, headerText_eq, List.map_append, Text.strip, List.dropWhile_append_of_pos hchars,
    headerText_eq, Text.strip]

/-- A line that gives the length behind blanks sets it as well. -/
theorem readHeaders_indented {n : Nat} {l blanks : List UInt8} (h : GivesLength n l)
    (hblanks : ∀ b ∈ blanks, isBlankByte b = true ∧ b ≠ 0x0A)
    (hn : (Nat.toDigits 10 n).length ≤ Number.maxDigits) (length? : Option Int)
    (rest : List UInt8) :
    readHeaders length? (broken (blanks ++ l) ++ rest) = readHeaders (some n) rest := by
  obtain ⟨hunbroken, hne, value, hvalue, hdigits⟩ := exists_lengthValue h
  have htext := headerText_indented (l := l) fun b hb => (hblanks b hb).1
  rw [← htext] at hne hvalue
  have hwhole : 0x0A ∉ blanks ++ l := fun hmem =>
    (List.mem_append.mp hmem).elim (fun hb => (hblanks _ hb).2 rfl) hunbroken
  apply readHeaders_set hwhole hne hvalue
  rw [hdigits, Number.readInteger?_toDigits hn]

/-- The line that gives the length sets it. -/
theorem readHeaders_length {n : Nat} {l : List UInt8} (h : GivesLength n l)
    (hn : (Nat.toDigits 10 n).length ≤ Number.maxDigits) (length? : Option Int)
    (rest : List UInt8) :
    readHeaders length? (broken l ++ rest) = readHeaders (some n) rest :=
  readHeaders_indented h (List.forall_mem_nil _) hn length? rest

/-- A length with too many digits is refused. -/
theorem readHeaders_digits {n : Nat} {l : List UInt8} (h : GivesLength n l)
    (hn : Number.maxDigits < (Nat.toDigits 10 n).length) (length? : Option Int)
    (rest : List UInt8) :
    ∃ text, readHeaders length? (broken l ++ rest) =
      .refused ⟨Error.parseError, text, none⟩ rest := by
  obtain ⟨hunbroken, hne, value, hvalue, hdigits⟩ := exists_lengthValue h
  apply readHeaders_refuse hunbroken hne hvalue
  rw [hdigits, Number.readInteger?_toDigits_eq, if_pos hn]

/-! ## Frames -/

theorem length_toDigits_le {n : Nat} (h : n < lengthBound) :
    (Nat.toDigits 10 n).length ≤ Number.maxDigits := by
  have hbound : n < 10 ^ 19 := Nat.lt_trans h (by decide)
  exact Nat.le_trans (Nat.toDigits_length 10 n 19 (by decide) hbound) (by decide)

theorem isFrame_iff {body frame : List UInt8} :
    IsFrame body frame ↔ ∃ head, IsHead body.length head ∧ frame = head ++ body := by
  constructor
  · rintro ⟨before, line, after, hothers, hline, rfl⟩
    refine ⟨_, ⟨before, line, after, hothers, hline, rfl⟩, ?_⟩
    simp only [List.append_assoc]
  · rintro ⟨head, ⟨before, line, after, hothers, hline, rfl⟩, rfl⟩
    refine ⟨before, line, after, hothers, hline, ?_⟩
    simp only [List.append_assoc]

theorem readHeaders_head {n : Nat} {head : List UInt8} (h : IsHead n head)
    (hn : (Nat.toDigits 10 n).length ≤ Number.maxDigits) (rest : List UInt8) :
    readHeaders none (head ++ rest) = .length n rest := by
  obtain ⟨before, line, after, hothers, hline, rfl⟩ := h
  simp only [List.append_assoc]
  rw [readHeaders_others fun l hl => hothers l (List.mem_append_left _ hl),
    readHeaders_length hline hn,
    readHeaders_others fun l hl => hothers l (List.mem_append_right _ hl), readHeaders_blank]

variable {room : Nat}

theorem isLength_of_lt {n : Nat} (h : n < lengthBound) : isLength n = true := by
  simp only [isLength, Bool.and_eq_true, decide_eq_true_eq]
  omega

theorem read_nil : read room [] = .finished := by
  simp only [read, readHeaders]

/-- Reading takes a frame off the front of the input and goes on with its body. -/
theorem read_frame {body frame : List UInt8} (h : IsFrame body frame)
    (hlength : body.length < lengthBound) (rest : List UInt8) :
    read room (frame ++ rest) = ofBody room body rest := by
  obtain ⟨head, hhead, rfl⟩ := isFrame_iff.mp h
  have hneg : ¬(body.length : Int) < 0 := by
    omega
  have henough : ¬(body ++ rest).length < body.length := by
    rw [List.length_append]
    omega
  rw [read, List.append_assoc, readHeaders_head hhead (length_toDigits_le hlength)]
  simp only [isLength_of_lt hlength, Bool.not_true, Bool.false_eq_true, if_false, hneg,
    Int.toNat_natCast, henough, List.take_left, List.drop_left]

/-- A body that is cut short ends the input. -/
theorem read_cut {n : Nat} {head part : List UInt8} (h : IsHead n head) (hpart : part.length < n)
    (hlength : n < lengthBound) : read room (head ++ part) = .finished := by
  have hneg : ¬(n : Int) < 0 := by
    omega
  rw [read, readHeaders_head h (length_toDigits_le hlength)]
  simp only [isLength_of_lt hlength, Bool.not_true, Bool.false_eq_true, if_false, hneg,
    Int.toNat_natCast, hpart, if_true]

/-- A length that no body has cannot be read. -/
theorem read_overlong {n : Nat} {head : List UInt8} (h : IsHead n head) (hlength : lengthBound ≤ n)
    (hn : (Nat.toDigits 10 n).length ≤ Number.maxDigits) (rest : List UInt8) :
    read room (head ++ rest) = .unreadable .length := by
  have hinvalid : isLength n = false := by
    simp only [isLength, Bool.and_eq_false_iff, decide_eq_false_iff_not]
    omega
  rw [read, readHeaders_head h hn]
  simp only [hinvalid, Bool.not_false, if_true]

/-- A length with too many digits is refused, and reading goes on behind its line. -/
theorem read_digits {n : Nat} {head : List UInt8} (h : IsHead n head)
    (hn : Number.maxDigits < (Nat.toDigits 10 n).length) (rest : List UInt8) :
    ∃ text behind, read room (head ++ rest) = .refused ⟨Error.parseError, text, none⟩ behind := by
  obtain ⟨before, line, after, hothers, hline, rfl⟩ := h
  obtain ⟨text, hrefused⟩ :=
    readHeaders_digits hline hn none (after.flatMap broken ++ ([0x0D, 0x0A] ++ rest))
  refine ⟨text, after.flatMap broken ++ ([0x0D, 0x0A] ++ rest), ?_⟩
  simp only [read, List.append_assoc]
  rw [readHeaders_others fun l hl => hothers l (List.mem_append_left _ hl), hrefused]

/-- What the server writes is a frame around the text. -/
theorem isFrame_ofText (text : Codes) :
    IsFrame (Text.Utf8.encode text.chars) (ofText text) := by
  have hheader (n : Nat) : s!"Content-Length: {n}\r\n\r\n".toList =
      "Content-Length: ".toList ++ (Nat.toDigits 10 n ++ ['\r', '\n', '\r', '\n']) := by
    simp
    rfl
  have hname : "Content-Length: ".toList.all (fun c => decide (c.toNat < 0x80)) = true := by decide
  have hbreaks : ['\r', '\n', '\r', '\n'].all (fun c => decide (c.toNat < 0x80)) = true := by decide
  have hascii (n : Nat) : ∀ c ∈ "Content-Length: ".toList ++ (Nat.toDigits 10 n ++
      ['\r', '\n', '\r', '\n']), c.toNat < 0x80 := by
    intro c hc
    rcases List.mem_append.mp hc with hc | hc
    · exact of_decide_eq_true (List.all_eq_true.mp hname c hc)
    · rcases List.mem_append.mp hc with hc | hc
      · exact toNat_lt_of_mem_toDigits hc
      · exact of_decide_eq_true (List.all_eq_true.mp hbreaks c hc)
  refine ⟨[], bytesOf "Content-Length: ".toList ++ bytesOf (Nat.toDigits 10 _), [], nofun,
    ⟨bytesOf "Content-Length:".toList, [0x20], rfl, by simp, rfl⟩, ?_⟩
  rw [ofText, hheader, Text.Utf8.encode_of_ascii (hascii _), List.map_append, List.map_append]
  simp [broken, bytesOf]

end Rpc.Frame

end RacketTree

import RacketTree.Proofs.Token.Spelling
import RacketTree.Proofs.Tree.Shape
import RacketTree.Tree.Node

/-!
# The schema of trees

`Shape.Form` lists the forms that a node can have: the source, the leaves of tokens, block comments,
wrappers and datum comments, sequences, and one form for each way to recover from an error. A tree
is `Formed` if each of its nodes has a form.

`Shape.Conforms` says what the kind of a node tells about its children. It follows from the form
(`Form.conforms`), and so code that looks at the children of a node by its kind can rely on it.

Three classes of trees stand beside each other in a sequence: datums, among them the errors in datum
position; fillers, which are trivia and datum comments without a datum; and the errors around dots.
-/

namespace RacketTree

theorem Kind.isSequence_ofOpener (text : List Char) : (ofOpener text).isSequence = true := by
  unfold ofOpener
  repeat' split
  all_goals rfl

namespace Shape

/-- The kind of the root. -/
def kind : Shape → Kind
  | leaf kind .. => kind
  | branch kind .. => kind

/-- The fault of the root. -/
def fault : Shape → Option Fault
  | leaf _ _ fault => fault
  | branch _ _ fault => fault

/-- The trees below the root. -/
def children : Shape → List Shape
  | leaf .. => []
  | branch _ children _ => children

mutual

/-- The tree and all trees below it, each before its children. -/
def walk : Shape → List Shape
  | leaf kind text fault => [leaf kind text fault]
  | branch kind children fault => branch kind children fault :: walkAll children

/-- The trees below several ones. -/
def walkAll : List Shape → List Shape
  | [] => []
  | s :: rest => s.walk ++ walkAll rest

end

/-! ## Classes of trees -/

/-- The error of a datum comment that has nothing to consume. -/
def isIdleComment : Shape → Bool
  | branch .error (leaf .datumCommentMark _ _ :: _) (some .unexpectedToken) => true
  | _ => false

/-- Trivia, or a datum comment that has nothing to consume. -/
def isFiller (s : Shape) : Bool :=
  s.kind.isTrivia || s.isIdleComment

/-- An atom, a compound, or an error in datum position. -/
def isDatum (s : Shape) : Bool :=
  s.kind.isAtom || s.kind.isCompound ||
    s.kind == .error && s.fault != some .malformedDottedPair && !s.isIdleComment

/-- Trivia, a datum or an error, and so neither a delimiter nor a dot. -/
def isItem (s : Shape) : Bool :=
  s.kind.isTrivia || s.kind.isAtom || s.kind.isCompound || s.kind == .error

/-- What may stand between a mark and a datum that never comes. -/
def isGap (s : Shape) : Bool :=
  s.isFiller || s.kind == .error && s.fault == some .nestingTooDeep

/-- A dot. -/
def dot : Shape :=
  leaf .dot ['.'] none

/-- A placeholder for a datum that the source lacks. -/
def missing : Shape :=
  leaf .missing [] none

/-- The mark that starts a wrapper or a datum comment. -/
inductive IsMark : Kind → Shape → Prop
  | prefixMark {text : List Char} {k : Kind} (h : (text, k) ∈ Kind.prefixForms) :
      IsMark k (leaf .prefixMark text none)
  | graphLabel {text : List Char} (h : IsGraphLabel text) :
      IsMark .graphDefinition (leaf .graphLabel text none)
  | datumComment : IsMark .datumComment (leaf .datumCommentMark ['#', ';'] none)

/-- A closing bracket. -/
def IsCloser (s : Shape) : Prop :=
  ∃ c, Token.isCloseBracket c = true ∧ s = leaf .closer [c] none

/-- The end of a sequence: a closing bracket, or the error around one in strict mode. -/
def IsClosing (config : Config) (s : Shape) : Prop :=
  IsCloser s ∨
    config.strictDelimiters = true ∧
      ∃ c, IsCloser c ∧ s = branch .error [c] (some .delimiterMismatch)

/-- The dots of a sequence, each with the children up to the next dot or the closing bracket. -/
def dotted (segments : List (List Shape)) : List Shape :=
  segments.flatMap (dot :: ·)

/-- The children of a sequence between its delimiters: those before the first dot, and for each dot
those behind it. -/
structure IsBody (config : Config) (kind : Kind) (front : List Shape)
    (segments : List (List Shape)) : Prop where
  front_items : ∀ s ∈ front, s.isItem = true
  items : ∀ segment ∈ segments, ∀ s ∈ segment, s.isItem = true
  /-- Every dot has one datum. -/
  datum : ∀ segment ∈ segments, segment.countP (!·.isFiller) = 1
  /-- Only a list has dots, and only after a datum. -/
  list : segments ≠ [] → kind = .list ∧ ∃ s ∈ front, s.isDatum = true
  length_le : segments.length ≤ config.maxDots

/-- The faults of error leaves. -/
def isLeafFault : Fault → Bool
  | .unterminatedLiteral | .unterminatedComment | .badCharacter | .nestingTooDeep => true
  | _ => false

/-- A part of a block comment between its opener and its closer. -/
def IsCommentPart (s : Shape) : Prop :=
  s.kind = .blockComment ∨ ∃ text, text ≠ [] ∧ s = leaf .commentText text none

/-! ## Forms -/

/-- The forms of nodes. -/
inductive Form (config : Config) : Shape → Prop
  | source {items : List Shape} (h : ∀ s ∈ items, s.isItem = true) :
      Form config (branch .source items none)
  -- leaves
  | token {k : Kind} {text : List Char} (hk : k.isLexical = true) (hne : k ≠ .blockComment)
      (htext : text ≠ []) : Form config (leaf k text none)
  | faulty {text : List Char} {f : Fault} (hf : isLeafFault f = true) (htext : text ≠ []) :
      Form config (leaf .error text (some f))
  | missing : Form config missing
  -- block comments
  | commentOpener : Form config (leaf .blockCommentOpener ['#', '|'] none)
  | commentCloser : Form config (leaf .blockCommentCloser ['|', '#'] none)
  | commentText {text : List Char} (htext : text ≠ []) : Form config (leaf .commentText text none)
  | blockComment {inner : List Shape} (h : ∀ s ∈ inner, IsCommentPart s) :
      Form config (branch .blockComment
        (leaf .blockCommentOpener ['#', '|'] none ::
          (inner ++ [leaf .blockCommentCloser ['|', '#'] none])) none)
  -- compounds
  | wrapped {k : Kind} {mark datum : Shape} {gap : List Shape} (hmark : IsMark k mark)
      (hgap : ∀ s ∈ gap, s.kind.isTrivia = true) (hdatum : datum.isDatum = true) :
      Form config (branch k (mark :: (gap ++ [datum])) none)
  | sequence {opener : List Char} {front : List Shape} {segments : List (List Shape)}
      {closing : Shape} (hbody : IsBody config (Kind.ofOpener opener) front segments)
      (hclosing : IsClosing config closing) :
      Form config (branch (Kind.ofOpener opener)
        (leaf .opener opener none :: (front ++ dotted segments ++ [closing])) none)
  -- recovery
  | stray {closer : Shape} (h : IsCloser closer) :
      Form config (branch .error [closer] (some .unexpectedToken))
  | unwrapped {k : Kind} {mark : Shape} {gap : List Shape} (hmark : IsMark k mark)
      (hgap : ∀ s ∈ gap, s.isGap = true) :
      Form config (branch .error (mark :: (gap ++ [Shape.missing])) (some .unexpectedToken))
  | mismatch {closer : Shape} (hstrict : config.strictDelimiters = true) (h : IsCloser closer) :
      Form config (branch .error [closer] (some .delimiterMismatch))
  | illegalDot {pieces : List Shape} (h : ∀ s ∈ pieces, s.isItem = true ∨ s = dot) :
      Form config (branch .error (dot :: pieces) (some .malformedDottedPair))
  | unclosed {opener : List Char} {body : List Shape}
      (h : ∀ s ∈ body, s.isItem = true ∨ s = dot) :
      Form config (branch .error (leaf .opener opener none :: (body ++ [Shape.missing]))
        (some .unclosedDelimiter))

/-- What the kind of a node tells about its fault and its children. -/
structure Conforms (config : Config) (s : Shape) : Prop where
  /-- A wrapper or a datum comment has its mark, trivia and one datum. -/
  wrapper : s.kind.isWrapper = true ∨ s.kind = .datumComment →
    ∃ mark gap datum, s.children = mark :: (gap ++ [datum]) ∧ IsMark s.kind mark ∧
      (∀ g ∈ gap, g.kind.isTrivia = true) ∧ datum.isDatum = true
  /-- A sequence has the opener of its kind, items and for each dot its datum, and a closer. -/
  sequence : s.kind.isSequence = true →
    ∃ opener front segments closing,
      s.children = leaf .opener opener none :: (front ++ dotted segments ++ [closing]) ∧
        Kind.ofOpener opener = s.kind ∧ IsBody config s.kind front segments ∧
        IsClosing config closing
  /-- The errors are the nodes with a fault. -/
  error : s.kind = .error ↔ s.fault ≠ none
  form : Form config s

namespace IsMark

variable {k : Kind} {mark : Shape}

theorem kind_cases (h : IsMark k mark) : k.isWrapper = true ∨ k = .datumComment := by
  cases h with
  | prefixMark h =>
    simp only [Kind.prefixForms, List.mem_cons, Prod.mk.injEq, List.not_mem_nil, or_false] at h
    rcases h with ⟨-, rfl⟩ | ⟨-, rfl⟩ | ⟨-, rfl⟩ | ⟨-, rfl⟩ | ⟨-, rfl⟩ | ⟨-, rfl⟩ | ⟨-, rfl⟩ |
      ⟨-, rfl⟩ | ⟨-, rfl⟩ <;> exact .inl rfl
  | graphLabel => exact .inl rfl
  | datumComment => exact .inr rfl

theorem isPunctuation (h : IsMark k mark) : mark.kind.isPunctuation = true := by
  cases h <;> rfl

theorem form {config : Config} (h : IsMark k mark) : Form config mark := by
  cases h with
  | prefixMark h =>
    refine .token rfl (by simp) ?_
    rintro rfl
    simp [Kind.prefixForms] at h
  | graphLabel h =>
    obtain ⟨digits, -, -, rfl⟩ := h
    exact .token rfl (by simp) (by simp)
  | datumComment => exact .token rfl (by simp) (by simp)

end IsMark

theorem IsCloser.form {config : Config} {s : Shape} (h : IsCloser s) : Form config s := by
  obtain ⟨c, -, rfl⟩ := h
  exact .token rfl nofun (by simp)

/-- The kind of a wrapper tells it from the nodes of every other form. -/
theorem Form.exists_wrapped {config : Config} {s : Shape} (h : Form config s)
    (hk : s.kind.isWrapper = true ∨ s.kind = .datumComment) :
    ∃ mark gap datum, s.children = mark :: (gap ++ [datum]) ∧ IsMark s.kind mark ∧
      (∀ g ∈ gap, g.kind.isTrivia = true) ∧ datum.isDatum = true := by
  cases h with
  | wrapped hmark hgap hdatum => exact ⟨_, _, _, rfl, hmark, hgap, hdatum⟩
  | @token k text hlex =>
    cases k <;> first
      | cases hlex; done
      | simp [kind, Kind.isWrapper] at hk
  | @sequence opener =>
    have hseq := Kind.isSequence_ofOpener opener
    cases hopener : Kind.ofOpener opener <;>
      simp [kind, hopener, Kind.isWrapper, Kind.isSequence] at hk hseq
  | _ => simp [kind, Shape.missing, Kind.isWrapper] at hk

/-- The kind of a sequence tells it from the nodes of every other form. -/
theorem Form.exists_sequence {config : Config} {s : Shape} (h : Form config s)
    (hk : s.kind.isSequence = true) :
    ∃ opener front segments closing,
      s.children = leaf .opener opener none :: (front ++ dotted segments ++ [closing]) ∧
        Kind.ofOpener opener = s.kind ∧ IsBody config s.kind front segments ∧
        IsClosing config closing := by
  cases h with
  | sequence hbody hclosing => exact ⟨_, _, _, _, rfl, rfl, hbody, hclosing⟩
  | @token k text hlex =>
    cases k <;> first
      | cases hlex; done
      | cases hk
  | @wrapped k _ _ _ hmark =>
    rcases hmark.kind_cases with hw | rfl
    · cases k <;> first
        | cases hw; done
        | cases hk
    · cases hk
  | _ => cases hk

theorem Form.error_iff {config : Config} {s : Shape} (h : Form config s) :
    s.kind = .error ↔ s.fault ≠ none := by
  cases h with
  | @token k text hlex =>
    cases k <;> first
      | cases hlex; done
      | simp [kind, fault]
  | @wrapped k _ _ _ hmark =>
    rcases hmark.kind_cases with hw | rfl
    · cases k <;> first
        | cases hw; done
        | simp [kind, fault]
    · simp [kind, fault]
  | @sequence opener =>
    have hseq := Kind.isSequence_ofOpener opener
    cases hopener : Kind.ofOpener opener <;>
      simp [kind, fault, hopener, Kind.isSequence] at hseq ⊢
  | _ => simp [kind, fault, Shape.missing]

/-- Every branch of the schema below the root starts with a leaf. -/
theorem Form.exists_first {config : Config} {k : Kind} {ss : List Shape} {f : Option Fault}
    (h : Form config (branch k ss f)) (hk : k ≠ .source) :
    ∃ k' text rest, ss = leaf k' text none :: rest ∧ k' ≠ .missing ∧
      (k = .blockComment ↔ k' = .blockCommentOpener) ∧ k' ≠ .blockComment := by
  have hmark : ∀ {k : Kind} {mark : Shape}, IsMark k mark →
      ∃ k' text, mark = leaf k' text none ∧ k' ≠ .missing ∧ k' ≠ .blockCommentOpener ∧
        k' ≠ .blockComment := by
    intro k mark h
    cases h <;> exact ⟨_, _, rfl, nofun, nofun, nofun⟩
  cases h with
  | source => exact absurd rfl hk
  | blockComment => exact ⟨_, _, _, rfl, nofun, by simp, nofun⟩
  | wrapped h =>
    obtain ⟨k', text, rfl, hmissing, hopener, hcomment⟩ := hmark h
    refine ⟨k', text, _, rfl, hmissing, iff_of_false ?_ hopener, hcomment⟩
    rintro rfl
    rcases h.kind_cases with hw | hw <;> cases hw
  | @sequence opener =>
    refine ⟨_, _, _, rfl, nofun, iff_of_false ?_ nofun, nofun⟩
    intro hcomment
    have hseq := Kind.isSequence_ofOpener opener
    rw [hcomment] at hseq
    cases hseq
  | unwrapped h =>
    obtain ⟨k', text, rfl, hmissing, hopener, hcomment⟩ := hmark h
    exact ⟨k', text, _, rfl, hmissing, iff_of_false nofun hopener, hcomment⟩
  | stray h | mismatch _ h =>
    obtain ⟨c, -, rfl⟩ := h
    exact ⟨_, _, _, rfl, nofun, iff_of_false nofun nofun, nofun⟩
  | illegalDot | unclosed => exact ⟨_, _, _, rfl, nofun, iff_of_false nofun nofun, nofun⟩

theorem Form.conforms {config : Config} {s : Shape} (h : Form config s) : s.Conforms config :=
  ⟨h.exists_wrapped, h.exists_sequence, h.error_iff, h⟩

/-! ## Trees all of whose nodes have a form -/

/-- Each node of the tree has a form. -/
def Formed (config : Config) (s : Shape) : Prop :=
  ∀ t ∈ s.walk, Form config t

theorem mem_walkAll {ss : List Shape} {t : Shape} : t ∈ walkAll ss ↔ ∃ s ∈ ss, t ∈ s.walk := by
  induction ss with
  | nil => simp [walkAll]
  | cons s ss ih => simp [walkAll, ih]

theorem formed_leaf {config : Config} {k : Kind} {text : List Char} {f : Option Fault} :
    (leaf k text f).Formed config ↔ Form config (leaf k text f) := by
  simp [Formed, walk]

theorem formed_branch {config : Config} {k : Kind} {ss : List Shape} {f : Option Fault} :
    (branch k ss f).Formed config ↔
      Form config (branch k ss f) ∧ ∀ s ∈ ss, s.Formed config := by
  simp only [Formed, walk, List.mem_cons, forall_eq_or_imp, mem_walkAll]
  exact and_congr_right fun _ => ⟨fun h s hs t ht => h t ⟨s, hs, ht⟩,
    fun h t ⟨s, hs, ht⟩ => h s hs t ht⟩

theorem IsMark.formed {config : Config} {k : Kind} {mark : Shape} (h : IsMark k mark) :
    mark.Formed config := by
  have hform : Form config mark := h.form
  cases h <;> exact formed_leaf.mpr hform

theorem IsCloser.formed {config : Config} {s : Shape} (h : IsCloser s) : s.Formed config := by
  have hform : Form config s := h.form
  obtain ⟨c, -, rfl⟩ := h
  exact formed_leaf.mpr hform

theorem dot_formed (config : Config) : dot.Formed config :=
  formed_leaf.mpr (.token rfl nofun (by simp))

theorem missing_formed (config : Config) : missing.Formed config :=
  formed_leaf.mpr .missing

/-! ## How the classes lie to each other -/

theorem isItem_of_isDatum {s : Shape} (h : s.isDatum = true) : s.isItem = true := by
  simp only [isDatum, isItem, Bool.or_eq_true, Bool.and_eq_true] at h ⊢
  rcases h with (h | h) | h
  · exact .inl (.inl (.inr h))
  · exact .inl (.inr h)
  · exact .inr h.1.1

theorem kind_of_isIdleComment {s : Shape} (h : s.isIdleComment = true) : s.kind = .error := by
  unfold isIdleComment at h
  split at h
  · rfl
  · cases h

theorem isItem_of_isGap {s : Shape} (h : s.isGap = true) : s.isItem = true := by
  simp only [isGap, isFiller, isItem, Bool.or_eq_true, Bool.and_eq_true] at h ⊢
  rcases h with (h | h) | h
  · exact .inl (.inl (.inl h))
  · exact .inr (beq_iff_eq.mpr (kind_of_isIdleComment h))
  · exact .inr h.1

theorem isGap_of_isFiller {s : Shape} (h : s.isFiller = true) : s.isGap = true := by
  simp [isGap, h]

theorem isFiller_of_isTrivia {s : Shape} (h : s.kind.isTrivia = true) : s.isFiller = true := by
  simp [isFiller, h]

theorem isFiller_of_isDatum {s : Shape} (h : s.isDatum = true) : s.isFiller = false := by
  simp only [isDatum, Bool.or_eq_true, Bool.and_eq_true, Bool.not_eq_true', beq_iff_eq] at h
  simp only [isFiller, Bool.or_eq_false_iff]
  rcases h with h | ⟨⟨hk, -⟩, hidle⟩
  · have hne : s.kind ≠ .error := by
      intro hk
      simp [hk, Kind.isAtom, Kind.isCompound, Kind.isSequence, Kind.isWrapper] at h
    refine ⟨?_, Bool.eq_false_iff.mpr fun hidle => hne (kind_of_isIdleComment hidle)⟩
    cases hk : s.kind <;>
      simp [hk, Kind.isAtom, Kind.isCompound, Kind.isSequence, Kind.isWrapper] at h <;> rfl
  · exact ⟨by rw [hk]; rfl, hidle⟩

end Shape

end RacketTree

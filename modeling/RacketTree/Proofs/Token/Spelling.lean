import RacketTree.Proofs.Token.Extent

/-!
# How tokens are spelled

`Lexeme.Spelled` says what the kind of a lexeme tells about its text and its fault: a mark has one
of the texts that its kind allows, a closer is a closing bracket and a dot a dot, and only character
literals and tokens that never end have a fault. All lexemes of a text are spelled so
(`lexemes_spelled`).
-/

namespace RacketTree

theorem Kind.ofPrefix_of_mem {text : List Char} {k : Kind} (h : (text, k) ∈ prefixForms) :
    ofPrefix text = k := by
  simp only [prefixForms, List.mem_cons, Prod.mk.injEq, List.not_mem_nil, or_false] at h
  rcases h with ⟨rfl, rfl⟩ | ⟨rfl, rfl⟩ | ⟨rfl, rfl⟩ | ⟨rfl, rfl⟩ | ⟨rfl, rfl⟩ | ⟨rfl, rfl⟩ |
    ⟨rfl, rfl⟩ | ⟨rfl, rfl⟩ | ⟨rfl, rfl⟩ <;> rfl

/-- The text of a graph label: `#`, digits and `=`. -/
def IsGraphLabel (text : List Char) : Prop :=
  ∃ digits, digits ≠ [] ∧ (∀ c ∈ digits, Text.isDecimalDigit c = true) ∧
    text = '#' :: digits ++ ['=']

/-- A token that never ends, or a malformed character. -/
def Kind.HasFault (k : Kind) (f : Fault) : Prop :=
  k = .character ∧ f = .badCharacter ∨
    k = .error ∧ (f = .unterminatedLiteral ∨ f = .unterminatedComment)

/-- The text and the fault of a lexeme, as far as its kind tells. -/
structure Lexeme.Spelled (l : Lexeme) : Prop where
  prefixMark : l.kind = .prefixMark → ∃ k, (l.text, k) ∈ Kind.prefixForms
  graphLabel : l.kind = .graphLabel → IsGraphLabel l.text
  datumCommentMark : l.kind = .datumCommentMark → l.text = ['#', ';']
  closer : l.kind = .closer → ∃ c, l.text = [c] ∧ Token.isCloseBracket c = true
  dot : l.kind = .dot → l.text = ['.']
  fault : ∀ f, l.fault = some f → l.kind.HasFault f

namespace Token

/-- A kind of token whose text can be anything, as far as the kind tells. -/
def isFree (k : Kind) : Bool :=
  match k with
  | .prefixMark | .graphLabel | .datumCommentMark | .closer | .dot => false
  | _ => true

theorem spelled_free {k : Kind} (w : Nat) (cs : List Char) (hk : isFree k = true) :
    (cut (.plain k w) cs).Spelled := by
  cases k <;> first
    | cases hk; done
    | exact ⟨nofun, nofun, nofun, nofun, nofun, nofun⟩

theorem spelled_prefixMark {w : Nat} {cs : List Char} {k : Kind}
    (h : (cs.take w, k) ∈ Kind.prefixForms) : (cut (.plain .prefixMark w) cs).Spelled :=
  ⟨fun _ => ⟨k, h⟩, nofun, nofun, nofun, nofun, nofun⟩

theorem characterExtent_fault {cs : List Char} {e : Extent} (h : characterExtent cs = .ok e) :
    e.fault = none ∨ e.fault = some .badCharacter := by
  cases cs with
  | nil => cases h
  | cons c rest =>
    rw [characterExtent_cons] at h
    repeat' split at h
    · cases h
      exact .inl rfl
    · cases h
      exact .inl rfl
    · cases h
      simp only [wordFault]
      split <;> simp
    · cases h
      exact .inl rfl

theorem characterExtent_spelled {cs : List Char} {e : Extent} (h : characterExtent cs = .ok e) :
    (cut e ('#' :: '\\' :: cs)).Spelled := by
  have hkind := characterExtent_kind h
  have hfault := characterExtent_fault h
  obtain ⟨kind, width, fault⟩ := e
  cases hkind
  refine ⟨nofun, nofun, nofun, nofun, nofun, ?_⟩
  rintro f rfl
  rcases hfault with hfault | hfault <;> cases hfault
  exact .inl ⟨rfl, rfl⟩

theorem graphMark?_spelled {cs : List Char} {e : Extent} (h : graphMark? cs = some e) :
    (cut e ('#' :: cs)).Spelled := by
  obtain ⟨hne, c, rest, hdrop, ⟨rfl, rfl⟩ | ⟨rfl, rfl⟩⟩ := graphMark?_cases h
  · refine ⟨nofun, fun _ => ?_, nofun, nofun, nofun, nofun⟩
    refine ⟨cs.take (digitRun cs), ?_, ?_, ?_⟩
    · intro hnil
      have hlt := length_lt_of_drop_eq_cons hdrop
      have hlen := congrArg List.length hnil
      rw [List.length_take, List.length_nil] at hlen
      omega
    · have htake : cs.take (digitRun cs) = cs.takeWhile Text.isDecimalDigit :=
        (List.prefix_iff_eq_take.mp (List.takeWhile_prefix _)).symm
      rw [htake]
      exact List.all_eq_true.mp List.all_takeWhile
    · have htake : cs.take (digitRun cs + 1) = cs.take (digitRun cs) ++ ['='] := by
        rw [List.take_add, hdrop]
        rfl
      simp only [cut, Extent.plain, List.take_succ_cons, htake, List.cons_append]
  · exact spelled_free _ _ rfl

theorem wordExtent_spelled {c : Char} {rest : List Char} {e : Extent}
    (h : wordExtent c rest = .ok e) : (cut e ('#' :: c :: rest)).Spelled := by
  cases wordExtent_eq_ok_iff.mp h with
  | directive hd =>
    rcases directive?_cases hd with ⟨_, _, -, -, rfl⟩ | ⟨_, -, -, -, rfl⟩ | ⟨_, -, -, -, rfl⟩ <;>
      exact spelled_free _ _ rfl
  | regexp | hereString | opener => exact spelled_free _ _ rfl
  | mark hd hr hh ho hm =>
    rcases Option.or_eq_some_iff.mp hm with hm | ⟨-, hm⟩
    · exact graphMark?_spelled hm
    · obtain ⟨word, -, -, -, rfl⟩ := boolean?_cases hm
      exact spelled_free _ _ rfl
  | run hd hr hh ho hm hw =>
    refine spelled_free _ _ ?_
    split
    · split <;> rfl
    · rfl

theorem spelled_datumCommentMark (cs : List Char) :
    (cut (.plain .datumCommentMark 2) ('#' :: ';' :: cs)).Spelled :=
  ⟨nofun, nofun, fun _ => rfl, nofun, nofun, nofun⟩

theorem hashExtent_spelled {cs : List Char} {e : Extent} (h : hashExtent cs = .ok e) :
    (cut e ('#' :: cs)).Spelled := by
  unfold hashExtent at h
  split at h
  · cases h
    exact spelled_free _ _ rfl
  · rename_i c rest
    split at h
    · split at h
      · cases h
        exact spelled_free _ _ rfl
      · cases h
    · cases h
      exact spelled_datumCommentMark _
    · exact characterExtent_spelled h
    · split at h
      · cases h
        exact spelled_free _ _ rfl
      · cases h
    · cases h
      exact spelled_prefixMark (k := .syntaxQuote) (by simp [Kind.prefixForms])
    · cases h
      exact spelled_prefixMark (k := .syntaxQuasiquote) (by simp [Kind.prefixForms])
    · cases h
      exact spelled_prefixMark (k := .box) (by simp [Kind.prefixForms])
    · cases h
      split
      · rename_i hhead
        obtain ⟨tail, rfl⟩ := List.head?_eq_some_iff.mp hhead
        exact spelled_prefixMark (k := .syntaxUnquoteSplicing) (by simp [Kind.prefixForms])
      · exact spelled_prefixMark (k := .syntaxUnquote) (by simp [Kind.prefixForms])
    · cases hw : runWidth false rest with
      | error cause => rw [hw] at h; cases h
      | ok n =>
        rw [hw] at h
        cases h
        exact spelled_free _ _ rfl
    · split at h
      · cases h
        exact spelled_free _ _ rfl
      · exact wordExtent_spelled h

theorem atomExtent_spelled {cs : List Char} {e : Extent} (h : atomExtent cs = .ok e) :
    (cut e cs).Spelled := by
  obtain ⟨n, -, rfl⟩ := atomExtent_eq_ok h
  split
  · rename_i hdot
    exact ⟨nofun, nofun, nofun, nofun, fun _ => hdot, nofun⟩
  · split <;> exact spelled_free _ _ rfl

theorem extent_spelled {c : Char} {rest : List Char} {e : Extent} (h : extent c rest = .ok e) :
    (cut e (c :: rest)).Spelled := by
  unfold extent at h
  split at h
  · cases h
    exact spelled_free _ _ rfl
  split at h
  · cases h
    exact spelled_free _ _ rfl
  split at h
  · rename_i hclose
    cases h
    exact ⟨nofun, nofun, nofun, fun _ => ⟨c, rfl, hclose⟩, nofun, nofun⟩
  split at h
  · cases h
    exact spelled_free _ _ rfl
  · cases h
    exact spelled_prefixMark (k := .quote) (by simp [Kind.prefixForms])
  · cases h
    exact spelled_prefixMark (k := .quasiquote) (by simp [Kind.prefixForms])
  · cases h
    split
    · rename_i hhead
      obtain ⟨tail, rfl⟩ := List.head?_eq_some_iff.mp hhead
      exact spelled_prefixMark (k := .unquoteSplicing) (by simp [Kind.prefixForms])
    · exact spelled_prefixMark (k := .unquote) (by simp [Kind.prefixForms])
  · split at h
    · cases h
      exact spelled_free _ _ rfl
    · cases h
  · exact hashExtent_spelled h
  · exact atomExtent_spelled h

theorem spelled_unterminated (cause : Unterminated) (cs : List Char) :
    (⟨.error, cs, some cause.fault⟩ : Lexeme).Spelled := by
  refine ⟨nofun, nofun, nofun, nofun, nofun, ?_⟩
  rintro f hf
  cases hf
  refine .inr ⟨rfl, ?_⟩
  cases cause <;> simp [Unterminated.fault]

theorem lexemes_spelled (cs : List Char) : ∀ l ∈ lexemes cs, l.Spelled := by
  fun_induction lexemes cs with
  | case1 => simp
  | case2 c rest e he ih =>
    intro l hl
    rcases List.mem_cons.mp hl with rfl | hl
    · exact extent_spelled he
    · exact ih l hl
  | case3 c rest cause he =>
    intro l hl
    rw [List.mem_singleton.mp hl]
    exact spelled_unterminated cause _

end Token

end RacketTree

import RacketTree.Proofs.Tree.Sequences

/-!
# Reading returns

The calls for constructs, datums and trivia return whatever the text is (`Cursor.specs`), and so do
the calls for items at top level and for the whole text. What they add to the arena is what the
stack reader makes of the same lexemes (`Cursor.returns_readTopLevel`, `Cursor.returns_readItems`).
-/

namespace RacketTree

open Grammar (resume resumeAfter)

namespace Cursor

open Call
open Read (stops)

variable {c c' : Cursor} {l : Lexeme} {ls : List Lexeme} {n : Nat} {a : Arena} {first : Handle}
  {frame : Frame}

/-! ## Constructs -/

theorem returns_readDelimited (hS : Specs n) (h : c.Sound) (hn : c.lexemes.length ≤ n)
    (hstored : a.storeAll [l.leaf] = (c.arena, [first])) :
    (Phrase.delimited (Sequence.ofOpener l).counterpart (Sequence.ofOpener l).kind
      first).read.Returns c (c.ReadsRest a (.sequence (Sequence.ofOpener l)) .datum) := by
  have hin : InSequence { c with boundaries := (Sequence.ofOpener l).counterpart :: c.boundaries } a
      (Sequence.ofOpener l) [first] :=
    ⟨⟨h.within, h.peeked⟩, rfl, hstored, c.boundaries, rfl⟩
  obtain ⟨x, c₁, hcall, used, d, hgoes, hsingle, hd, hresume⟩ := returns_readElements hS hin hn
  refine ⟨x, { c₁ with boundaries := c₁.boundaries.tail }, ?_, used, d, ?_, hsingle, hd, hresume⟩
  · have hcall' : (Phrase.elements (Sequence.ofOpener l).kind [first] false).read _ = _ := hcall
    rw [Phrase.read]
    simp only [hcall']
    rfl
  · exact ⟨hgoes.source, hgoes.config, hgoes.depth, by rw [hgoes.boundaries]; rfl,
      ⟨hgoes.sound.within, hgoes.sound.peeked⟩, hgoes.lexemes, hgoes.pos⟩

theorem returns_readSequence (hS : Specs n) (h : c.Sound) (hl : c.lexemes = l :: ls)
    (hn : ls.length ≤ n) (hk : l.kind = .opener) :
    Phrase.sequence.read.Returns c (c.ReadsOpened ls (.sequence (Sequence.ofOpener l)) .datum) := by
  rw [Phrase.read]
  refine (returns_next h hl).bind ?_
  rintro tok c₁ ⟨rfl, hgoes₁, harena₁⟩
  refine (returns_token hgoes₁.sound l c.pos).bind ?_
  rintro first c₂ ⟨hgoes₂, hfirst⟩
  simp only [counterpart?_eq (valid_of_mem (mem_lexemes hl)) hk]
  have hgo := hgoes₁.trans hgoes₂
  have hlexemes : c₂.lexemes = ls := hgo.lexemes_of_cons hl
  rw [harena₁] at hfirst
  exact (returns_readDelimited hS hgoes₂.sound (hlexemes ▸ hn) hfirst).mono
    fun x c₃ hrest => hgo.readsOpened hl hrest

theorem returns_construct (hS : Specs n) (h : c.Sound) (hl : c.lexemes = l :: ls)
    (hn : ls.length ≤ n) (hf : Frame.ofLexeme? l = some frame) :
    Call.Returns (if l.kind = .opener then Phrase.sequence.read else Phrase.wrapped.read) c
      (c.ReadsOpened ls frame l.role) := by
  by_cases hk : l.kind = .opener
  · rw [if_pos hk]
    have hrole : l.role = .datum := by simp [Lexeme.role, Lexeme.isTrivia, hk]
    rw [Frame.ofLexeme?, hk] at hf
    cases hf
    rw [hrole]
    exact returns_readSequence hS h hl hn hk
  · rw [if_neg hk]
    obtain ⟨w, rfl⟩ : ∃ w, frame = .wrapper w := by
      unfold Frame.ofLexeme? at hf
      split at hf <;> cases hf
      · exact absurd ‹_› hk
      all_goals exact ⟨_, rfl⟩
    rw [← (children_ofLexeme? hf).2]
    exact returns_readWrapped hS h hl hn hf

/-- The construct at the cursor is read; where nesting is too deep, the rest of the text is an
error. -/
theorem returns_readNested (hS : Specs n) (h : c.Sound) (hl : c.lexemes = l :: ls)
    (hn : ls.length ≤ n) (hf : Frame.ofLexeme? l = some frame) :
    (Phrase.nested l.kind).read.Returns c (c.ReadsItem l.role) := by
  by_cases hdeep : c.config.maxDepth ≤ c.depth
  · obtain ⟨x, c₁, hcall, hgoes, hstored⟩ := returns_tooDeep h hl
    have hend : c₁.lexemes = [] := by
      have hlexemes := hgoes.lexemes
      rw [hl] at hlexemes
      simpa using hlexemes
    refine ⟨x, c₁, ?_, _, _, hgoes, List.cons_ne_nil _ _, rfl, hstored, ?_⟩
    · rw [Phrase.read]
      simp only [if_pos hdeep]
      exact hcall
    · intro outer stack hdepth
      rw [hl, hend]
      exact Read.resume_tooDeep hf (hdepth ▸ hdeep)
  -- the construct is read one level deeper, and the depth is set back behind it
  · obtain ⟨x, c₁, hcall, used, d, hgoes, hne, hsingle, hstored, hresume⟩ :=
      returns_construct (c := { c with depth := c.depth + 1 }) hS ⟨h.within, h.peeked⟩ hl hn hf
    refine ⟨x, { c₁ with depth := c₁.depth - 1 }, ?_, used, d, ?_, hne, hsingle, hstored, ?_⟩
    · rw [Phrase.read]
      by_cases hk : l.kind = .opener
      · rw [if_pos hk] at hcall
        simp only [if_neg hdeep, if_pos hk, hcall]
        rfl
      · rw [if_neg hk] at hcall
        simp only [if_neg hdeep, if_neg hk, hcall]
        rfl
    · exact ⟨hgoes.source, hgoes.config, by rw [hgoes.depth]; rfl, hgoes.boundaries,
        ⟨hgoes.sound.within, hgoes.sound.peeked⟩, hgoes.lexemes, hgoes.pos⟩
    · intro outer stack hdepth
      rw [hl, Grammar.resume_open hf (by omega)]
      exact hresume outer stack (by rw [hdepth])

/-! ## Datums and trivia -/

theorem Goes.readsItem {x : Handle} (h : Goes c c' [l]) (hl : c.lexemes = l :: ls)
    (hstops : stops l = false) (hf : Frame.ofLexeme? l = none)
    (hstored : c.arena.storeAll [l.draft] = (c'.arena, [x])) : c.ReadsItem l.role x c' := by
  have hvalid := valid_of_mem (mem_lexemes hl)
  refine ⟨[l], l.draft, h, List.cons_ne_nil _ _, (Lexeme.draft_of_valid hvalid).2.2.isSingle,
    hstored, fun outer stack _ => ?_⟩
  rw [hl, h.lexemes_of_cons hl]
  exact Grammar.resume_lone hstops hf

theorem returns_readDatum (hS : Specs n) (h : c.Sound) (hl : c.lexemes = l :: ls)
    (hn : ls.length ≤ n) (hdatum : l.beginsDatum = true) :
    readDatum.Returns c (c.ReadsItem .datum) := by
  have hfacts : l.kind ≠ .dot ∧ stops l = false ∧ l.role = .datum ∧ l.kind ≠ .blockComment := by
    unfold Lexeme.beginsDatum at hdatum
    unfold stops Lexeme.role Lexeme.isTrivia
    cases hk : l.kind <;> simp_all [Kind.isAtom]
  obtain ⟨hdot, hstops, hrole, hcomment⟩ := hfacts
  rw [readDatum, Phrase.read]
  refine (returns_peek_cons h hl).bind ?_
  rintro tok c₁ ⟨rfl, hgoes₁, harena₁⟩
  have hl₁ : c₁.lexemes = l :: ls := hgoes₁.lexemes_eq.trans hl
  simp only [if_neg hdot, hdatum, if_true]
  by_cases hopens : (l.kind = .opener || l.kind = .prefixMark || l.kind = .graphLabel) = true
  · rw [if_pos hopens]
    obtain ⟨frame, hf⟩ : ∃ frame, Frame.ofLexeme? l = some frame := by
      simp only [Bool.or_eq_true, decide_eq_true_eq] at hopens
      unfold Frame.ofLexeme?
      rcases hopens with (hk | hk) | hk <;> rw [hk] <;> exact ⟨_, rfl⟩
    rw [← hrole]
    exact (returns_readNested hS hgoes₁.sound hl₁ hn hf).mono
      fun x c₂ hitem => hitem.of_goes hgoes₁ harena₁
  · rw [if_neg hopens]
    have hf : Frame.ofLexeme? l = none := by
      unfold Lexeme.beginsDatum at hdatum
      unfold Frame.ofLexeme?
      cases hk : l.kind <;> simp_all [Kind.isAtom]
    refine (returns_next hgoes₁.sound hl₁).bind ?_
    rintro tok c₂ ⟨-, hgoes₂, harena₂⟩
    refine (returns_token hgoes₂.sound l c.pos).mono ?_
    rintro x c₃ ⟨hgoes₃, hstored⟩
    rw [harena₂, harena₁, ← Lexeme.draft_eq_leaf hcomment] at hstored
    rw [← hrole]
    exact ((hgoes₁.trans hgoes₂).trans hgoes₃).readsItem hl hstops hf hstored

/-- A token that is not the mark of a datum comment is taken by itself. -/
theorem returns_readTriviaItem_lone (h : c.Sound) (hl : c.lexemes = l :: ls)
    (hmark : l.kind ≠ .datumCommentMark) :
    readTriviaItem.Returns c fun x c' =>
      Goes c c' [l] ∧ c.arena.storeAll [l.draft] = (c'.arena, [x]) := by
  rw [readTriviaItem, Phrase.read]
  refine (returns_peek_cons h hl).bind ?_
  rintro tok c₁ ⟨rfl, hgoes₁, harena₁⟩
  simp only [if_neg hmark]
  have hl₁ : c₁.lexemes = l :: ls := hgoes₁.lexemes_eq.trans hl
  refine (returns_next hgoes₁.sound hl₁).bind ?_
  rintro tok c₂ ⟨-, hgoes₂, harena₂⟩
  have hadds : Call.Returns (if l.kind = .blockComment then blockComment l.text
      else token ⟨l, c.pos⟩) c₂ (c₂.Adds l.draft) := by
    by_cases hk : l.kind = .blockComment
    · rw [if_pos hk]
      exact returns_blockComment hgoes₂.sound (valid_of_mem (mem_lexemes hl)) hk
    · rw [if_neg hk, Lexeme.draft_eq_leaf hk]
      exact returns_token hgoes₂.sound l c.pos
  refine hadds.mono ?_
  rintro x c₃ ⟨hgoes₃, hstored⟩
  refine ⟨(hgoes₁.trans hgoes₂).trans hgoes₃, ?_⟩
  rw [← harena₁, ← harena₂]
  exact hstored

theorem returns_readTriviaItem (hS : Specs n) (h : c.Sound) (hl : c.lexemes = l :: ls)
    (hn : ls.length ≤ n) (htrivia : l.isTrivia = true) :
    readTriviaItem.Returns c (c.ReadsItem .trivia) := by
  have hrole : l.role = .trivia := if_pos htrivia
  rw [← hrole]
  by_cases hmark : l.kind = .datumCommentMark
  · rw [readTriviaItem, Phrase.read]
    refine (returns_peek_cons h hl).bind ?_
    rintro tok c₁ ⟨rfl, hgoes₁, harena₁⟩
    simp only [if_pos hmark]
    have hf : Frame.ofLexeme? l = some (.wrapper ⟨.datumComment, [l.leaf]⟩) := by
      rw [Frame.ofLexeme?, hmark]
    exact (returns_readNested hS hgoes₁.sound (hgoes₁.lexemes_eq.trans hl) hn hf).mono
      fun x c₂ hitem => hitem.of_goes hgoes₁ harena₁
  · refine (returns_readTriviaItem_lone h hl hmark).mono ?_
    rintro x c₁ ⟨hgoes, hstored⟩
    have hlone : stops l = false ∧ Frame.ofLexeme? l = none := by
      unfold Lexeme.isTrivia at htrivia
      unfold stops Frame.ofLexeme?
      cases hk : l.kind <;> simp_all
    exact hgoes.readsItem hl hlone.1 hlone.2 hstored

theorem readsTrivia_of_not_trivia (h : c.Sound)
    (hhead : ∀ l ∈ c.lexemes.head?, l.isTrivia = false) : readTrivia.Returns c c.ReadsTrivia := by
  refine (readTrivia_of_not_trivia h hhead).mono ?_
  rintro hs c₁ ⟨rfl, hgoes, harena⟩
  exact ⟨[], [], hgoes, by simp, by rw [harena]; rfl, hgoes.lexemes_eq ▸ hhead,
    fun f => hgoes.passes f⟩

theorem returns_readTrivia (hS : Specs n) (h : c.Sound) (hn : c.lexemes.length ≤ n + 1) :
    readTrivia.Returns c c.ReadsTrivia := by
  by_cases hhead : ∀ l ∈ c.lexemes.head?, l.isTrivia = false
  · exact readsTrivia_of_not_trivia h hhead
  · obtain ⟨l, ls, hl, htrivia⟩ : ∃ l ls, c.lexemes = l :: ls ∧ l.isTrivia = true := by
      cases hl : c.lexemes with
      | nil => exact absurd (by simp [hl]) hhead
      | cons l ls =>
        refine ⟨l, ls, rfl, ?_⟩
        by_contra hno
        exact hhead (by simpa [hl] using hno)
    rw [readTrivia, Phrase.read]
    refine (returns_peek_cons h hl).bind ?_
    rintro tok c₁ ⟨rfl, hgoes₁, harena₁⟩
    simp only [htrivia, if_true]
    rw [hl] at hn
    have hn' : ls.length ≤ n := Nat.le_of_succ_le_succ hn
    refine (returns_readTriviaItem hS hgoes₁.sound (hgoes₁.lexemes_eq.trans hl) hn' htrivia).bind
      fun x c₂ hitem => ?_
    obtain ⟨used₂, d, hgoes₂, hne, hd, hstored₂, hyields⟩ := hitem.of_goes hgoes₁ harena₁
    -- the first item has taken a lexeme, so `hS` covers what is left
    have hlt := hgoes₂.length_lt hne
    rw [hl, List.length_cons] at hlt
    refine (hS.trivia c₂ hgoes₂.sound (by omega)).bind fun hs c₃ hrest => ?_
    obtain ⟨used₃, ds, hgoes₃, hds, hstored₃, hhead₃, hpasses₃⟩ := hrest
    refine returns_pure ⟨_, d :: ds, hgoes₂.trans hgoes₃, by simpa [hd] using hds,
      Arena.storeAll_append hstored₂ hstored₃, hhead₃, fun f => ?_⟩
    have hpasses₂ : Passes c c₂ used₂ f (f.add d) := by
      refine ⟨hgoes₂, fun outer stack hdepth => (hyields outer (f :: stack) hdepth).trans ?_⟩
      cases f <;> rfl
    exact hpasses₂.trans (hpasses₃ (f.add d))

/-- The calls for trivia and datums return whatever is left of the text. -/
theorem specs (n : Nat) : Specs n := by
  induction n with
  | zero =>
    refine ⟨fun c h hn => ?_, fun c l ls h hl hn => ?_⟩
    · have hl : c.lexemes = [] := List.length_eq_zero_iff.mp (Nat.le_zero.mp hn)
      exact readsTrivia_of_not_trivia h (by simp [hl])
    · rw [hl] at hn
      cases hn
  | succ n ih =>
    refine ⟨fun c h hn => returns_readTrivia ih h hn, fun c l ls h hl hn hdatum => ?_⟩
    rw [hl] at hn
    exact returns_readDatum ih h hl (Nat.le_of_succ_le_succ hn) hdatum

/-! ## Top level -/

/-- One item has been read at top level. -/
def ReadsTop (c : Cursor) (x : Handle) (c' : Cursor) : Prop :=
  ∃ used d, Goes c c' used ∧ used ≠ [] ∧ c.arena.storeAll [d] = (c'.arena, [x]) ∧
    Read.readItems c.config c.depth c.lexemes = d :: Read.readItems c.config c.depth c'.lexemes

theorem ReadsItem.readsTop {role : Role} {x : Handle} (h : c.ReadsItem role x c') :
    c.ReadsTop x c' := by
  obtain ⟨used, d, hgoes, hne, -, hstored, hyields⟩ := h
  exact ⟨used, d, hgoes, hne, hstored, hyields c.depth [] rfl⟩

theorem returns_readTopLevel (h : c.Sound) (hl : c.lexemes = l :: ls) :
    readTopLevel.Returns c c.ReadsTop := by
  rw [readTopLevel, Phrase.read]
  refine (returns_peek_cons h hl).bind ?_
  rintro tok c₁ ⟨rfl, hgoes₁, harena₁⟩
  have hl₁ : c₁.lexemes = l :: ls := hgoes₁.lexemes_eq.trans hl
  dsimp only
  by_cases htrivia : l.isTrivia = true
  · rw [if_pos htrivia]
    refine (returns_readTriviaItem (specs _) hgoes₁.sound hl₁ (Nat.le_refl _) htrivia).mono
      fun x c₂ hitem => ?_
    exact (hitem.of_goes hgoes₁ harena₁).readsTop
  rw [if_neg htrivia]
  by_cases hdatum : l.beginsDatum = true
  · rw [if_pos hdatum]
    refine (returns_readDatum (specs _) hgoes₁.sound hl₁ (Nat.le_refl _) hdatum).mono
      fun x c₂ hitem => ?_
    exact (hitem.of_goes hgoes₁ harena₁).readsTop
  · rw [if_neg hdatum]
    have hstops := stops_of_not_begins (valid_of_mem (mem_lexemes hl))
      (Bool.eq_false_iff.mpr htrivia) (Bool.eq_false_iff.mpr hdatum)
    refine (returns_next hgoes₁.sound hl₁).bind ?_
    rintro tok c₂ ⟨-, hgoes₂, harena₂⟩
    refine (returns_token hgoes₂.sound l c.pos).bind ?_
    rintro x c₃ ⟨hgoes₃, hstored₃⟩
    rw [harena₂, harena₁] at hstored₃
    refine (returns_branch hgoes₃.sound hstored₃ .error _).mono ?_
    rintro y c₄ ⟨hgoes₄, hstored₄⟩
    have hgo := ((hgoes₁.trans hgoes₂).trans hgoes₃).trans hgoes₄
    refine ⟨_, Read.stray l, hgo, List.cons_ne_nil _ _, hstored₄, ?_⟩
    have hread : Read.readItem c.config c.depth l ls = (Read.stray l, ls) := by
      simp only [stops, Bool.or_eq_true, beq_iff_eq] at hstops
      rcases hstops with hk | hk <;> simp only [Read.readItem, hk]
    rw [hl, hgo.lexemes_of_cons hl, Read.readItems_cons, hread]

theorem returns_readItems (h : c.Sound) :
    Phrase.items.read.Returns c fun hs c' => ∃ used, Goes c c' used ∧ c'.lexemes = [] ∧
      c.arena.storeAll (Read.readItems c.config c.depth c.lexemes) = (c'.arena, hs) := by
  induction hm : c.lexemes.length using Nat.strongRecOn generalizing c with
  | _ m ih =>
  rw [Phrase.read]
  refine returns_get_bind ?_
  by_cases hend : c.atEnd = true
  · rw [if_pos hend]
    have hl := (atEnd_iff h).mp hend
    refine returns_pure ⟨[], h.goes c.arena, hl, ?_⟩
    rw [hl, Read.readItems]
    rfl
  · rw [if_neg hend]
    obtain ⟨l, ls, hl⟩ := List.exists_cons_of_ne_nil fun hnil => hend ((atEnd_iff h).mpr hnil)
    refine (returns_readTopLevel h hl).bind fun x c₁ htop => ?_
    obtain ⟨used₁, d, hgoes₁, hne, hstored₁, hitems⟩ := htop
    refine (ih _ (hm ▸ hgoes₁.length_lt hne) hgoes₁.sound rfl).bind fun hs c₂ hrest => ?_
    obtain ⟨used₂, hgoes₂, hend₂, hstored₂⟩ := hrest
    refine returns_pure ⟨_, hgoes₁.trans hgoes₂, hend₂, ?_⟩
    rw [hitems]
    rw [hgoes₁.config, hgoes₁.depth] at hstored₂
    exact Arena.storeAll_append hstored₁ hstored₂

/-- The rest of the text is read into the node that `Read.readItems` stands for. -/
theorem returns_readSource (h : c.Sound) :
    readSource.Returns c fun x c' => ∃ used, Goes c c' used ∧ c'.lexemes = [] ∧
      c.arena.storeAll [.branch .source (Read.readItems c.config c.depth c.lexemes) none] =
        (c'.arena, [x]) := by
  refine (returns_readItems h).bind ?_
  rintro hs c₁ ⟨used, hgoes₁, hend, hstored⟩
  refine (returns_branch hgoes₁.sound hstored .source none).mono ?_
  rintro x c₂ ⟨hgoes₂, hstored₂⟩
  exact ⟨_, hgoes₁.trans hgoes₂, hgoes₂.lexemes_eq.trans hend, hstored₂⟩

end Cursor

end RacketTree

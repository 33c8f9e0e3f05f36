import RacketTree.Proofs.Token.Spelling
import RacketTree.Proofs.Tree.Accepts
import RacketTree.Proofs.Tree.Calls

/-!
# Reading by descent

The calls that descend into constructs read what the reader over a stack of open constructs reads.
An item that a call reads is the draft that the stack reader makes of the same lexemes, whatever the
stack is on which it hands the item on (`Yields`). Inside a construct the calls know only their own
children; the constructs around them are the stack, and `Passes` says what the same lexemes do to
the open construct on its top.

That all calls return is proved by induction on the number of lexemes that are left. A construct
takes at least one of them before it reads trivia or datums inside, so it may rely on these calls
for fewer lexemes (`Cursor.Specs`). Here this is used for wrappers.
-/

namespace RacketTree

open Grammar (resume resumeAfter)

/-! ## The stack reader at the end of a construct -/

namespace Read

variable {config : Config} {outer : Nat} {stack : List Frame} {l : Lexeme} {ls : List Lexeme}

theorem resumeAfter_nil (item : Draft) (role : Role) (stack : List Frame) :
    resumeAfter config outer (deliver item role stack) [] = [finishWith item role stack] := by
  rw [finishWith_eq]
  cases deliver item role stack with
  | item d => simp [resumeAfter, readItems]
  | inside top rest => simp [resumeAfter, resume, advance, readItems]

/-- A wrapper fails at the end of the input, at a closer and at a dot. -/
theorem resume_fail (w : Wrapper) (h : ∀ l ∈ ls.head?, stops l = true) :
    resume config outer (.wrapper w :: stack) ls =
      resumeAfter config outer (deliver w.fail w.role stack) ls := by
  cases ls with
  | nil =>
    rw [resumeAfter_nil]
    simp [resume, advance, readItems, finish]
  | cons l ls =>
    have hl : stops l = true := h l rfl
    have hsettle : settle (.wrapper w) stack = settleWith w.fail w.role stack := rfl
    rw [settleWith_eq] at hsettle
    cases hdeliver : deliver w.fail w.role stack with
    | item d =>
      rw [hdeliver] at hsettle
      rw [resume, advance_cons, outcome_of_stops hl hsettle]
      rfl
    | inside top rest =>
      rw [hdeliver] at hsettle
      have hout : outcome config outer (.wrapper w) stack l = outcome config outer top rest l := by
        simp only [stops, Bool.or_eq_true, beq_iff_eq] at hl
        rcases hl with hk | hk <;> simp only [outcome, hk, hsettle]
      rw [resumeAfter, resume, resume, advance_cons, advance_cons, hout]
      cases hres : outcome config outer top rest l with
      | ended d | taken r => rfl
      | overflow =>
        rw [(outcome_eq_overflow.mp hres).1] at hl
        cases hl

theorem resume_unclosed (s : Sequence) :
    resume config outer (.sequence s :: stack) [] =
      resumeAfter config outer (deliver s.unclosed .datum stack) [] := by
  rw [resumeAfter_nil]
  simp [resume, advance, readItems, finish]

theorem resume_tooDeep {frame : Frame} (hf : Frame.ofLexeme? l = some frame)
    (h : config.maxDepth ≤ outer + stack.length) :
    resume config outer stack (l :: ls) =
      resumeAfter config outer (deliver (tooDeep (l :: ls)) l.role stack) [] := by
  rw [resumeAfter_nil]
  cases stack with
  | nil =>
    have hread : readItem config outer l ls = (tooDeep (l :: ls), []) := by
      rw [readItem_eq, hf]
      exact if_pos h
    rw [resume, readItems_cons, hread, readItems]
    rfl
  | cons top rest =>
    have hdeep : config.maxDepth ≤ outer + rest.length + 1 := h
    have hout : outcome config outer top rest l = .overflow :=
      outcome_eq_overflow.mpr ⟨stops_of_ofLexeme? hf, by rw [hf]; rfl, hdeep⟩
    rw [resume, advance_cons, hout, readItems, overflow_eq]

/-- Whatever the stack is, the lexemes are read as one item, which is handed on. -/
def Yields (config : Config) (depth : Nat) (ls : List Lexeme) (d : Draft) (role : Role)
    (rest : List Lexeme) : Prop :=
  ∀ outer stack, outer + stack.length = depth →
    resume config outer stack ls = resumeAfter config outer (deliver d role stack) rest

end Read

/-! ## Trivia in a construct -/

namespace Frame

/-- One more piece of trivia. -/
def add : Frame → Draft → Frame
  | wrapper w, d => .wrapper (w.add d)
  | sequence s, d => .sequence (s.add d .trivia)

/-- Several pieces of trivia. -/
def addAll (f : Frame) (ds : List Draft) : Frame :=
  ds.foldl add f

theorem addAll_wrapper (w : Wrapper) (ds : List Draft) :
    (wrapper w).addAll ds = wrapper { w with children := ds.reverse ++ w.children } := by
  induction ds generalizing w with
  | nil => rfl
  | cons d ds ih =>
    rw [addAll, List.foldl_cons]
    exact (ih (w.add d)).trans (by simp [Wrapper.add])

theorem addAll_sequence {s : Sequence} (h : s.tail = none) (ds : List Draft) :
    (sequence s).addAll ds = sequence { s with children := ds.reverse ++ s.children } := by
  induction ds generalizing s with
  | nil => rfl
  | cons d ds ih =>
    obtain ⟨opener, children, seen, tail⟩ := s
    cases h
    rw [addAll, List.foldl_cons]
    refine (ih rfl).trans ?_
    simp [Sequence.add]

theorem addAll_tail {s : Sequence} {t : Tail} (h : s.tail = some t) (ds : List Draft) :
    (sequence s).addAll ds =
      sequence { s with tail := some { t with pieces := ds.reverse ++ t.pieces } } := by
  induction ds generalizing s t with
  | nil =>
    obtain ⟨opener, children, seen, tail⟩ := s
    cases h
    rfl
  | cons d ds ih =>
    obtain ⟨opener, children, seen, tail⟩ := s
    cases h
    rw [addAll, List.foldl_cons]
    refine (ih rfl).trans ?_
    simp [Sequence.add, Tail.add]

end Frame

namespace Cursor

open Call
open Read (Yields stops)

variable {c c' c₁ : Cursor} {l : Lexeme} {ls used used' : List Lexeme} {n : Nat} {a : Arena}
  {hs : List Handle} {f f' f'' : Frame} {role : Role} {x : Handle}

/-! ## What the calls read -/

/-- Some lexemes lead from one open construct to another. -/
structure Passes (c c' : Cursor) (used : List Lexeme) (f f' : Frame) : Prop where
  goes : Goes c c' used
  resume : ∀ outer stack, outer + stack.length + 1 = c.depth →
    resume c.config outer (f :: stack) c.lexemes = resume c.config outer (f' :: stack) c'.lexemes

/-- One item has been read. -/
def ReadsItem (c : Cursor) (role : Role) (h : Handle) (c' : Cursor) : Prop :=
  ∃ used d, Goes c c' used ∧ used ≠ [] ∧ d.isSingle = true ∧
    c.arena.storeAll [d] = (c'.arena, [h]) ∧ Yields c.config c.depth c.lexemes d role c'.lexemes

/-- The trivia at the cursor has been read, all of it. -/
def ReadsTrivia (c : Cursor) (hs : List Handle) (c' : Cursor) : Prop :=
  ∃ used ds, Goes c c' used ∧ (∀ d ∈ ds, d.isSingle = true) ∧
    c.arena.storeAll ds = (c'.arena, hs) ∧ (∀ l ∈ c'.lexemes.head?, l.isTrivia = false) ∧
    ∀ f, Passes c c' used f (f.addAll ds)

/-- A construct has been read from its open frame on, where `a` is the arena before it. -/
def ReadsRest (c : Cursor) (a : Arena) (frame : Frame) (role : Role) (h : Handle) (c' : Cursor) :
    Prop :=
  ∃ used d, Goes c c' used ∧ d.isSingle = true ∧ a.storeAll [d] = (c'.arena, [h]) ∧
    ∀ outer stack, outer + stack.length + 1 = c.depth →
      resume c.config outer (frame :: stack) c.lexemes =
        resumeAfter c.config outer (Read.deliver d role stack) c'.lexemes

/-- A construct has been read from the lexeme that opens it on; `ls` are the lexemes after that. -/
def ReadsOpened (c : Cursor) (ls : List Lexeme) (frame : Frame) (role : Role) (h : Handle)
    (c' : Cursor) : Prop :=
  ∃ used d, Goes c c' used ∧ used ≠ [] ∧ d.isSingle = true ∧
    c.arena.storeAll [d] = (c'.arena, [h]) ∧
    ∀ outer stack, outer + stack.length + 1 = c.depth →
      resume c.config outer (frame :: stack) ls =
        resumeAfter c.config outer (Read.deliver d role stack) c'.lexemes

/-- The calls for trivia and datums return as long as no more than `n` lexemes are left. -/
structure Specs (n : Nat) : Prop where
  trivia : ∀ c : Cursor, c.Sound → c.lexemes.length ≤ n → readTrivia.Returns c c.ReadsTrivia
  datum : ∀ (c : Cursor) l ls, c.Sound → c.lexemes = l :: ls → c.lexemes.length ≤ n →
    l.beginsDatum = true → readDatum.Returns c (c.ReadsItem .datum)

theorem Passes.trans (h : Passes c c₁ used f f') (h' : Passes c₁ c' used' f' f'') :
    Passes c c' (used ++ used') f f'' where
  goes := h.goes.trans h'.goes
  resume := by
    intro outer stack hdepth
    rw [h.resume outer stack hdepth, ← h.goes.config]
    exact h'.resume outer stack (hdepth.trans h.goes.depth.symm)

theorem Goes.passes (h : Goes c c' []) (f : Frame) : Passes c c' [] f f where
  goes := h
  resume := by
    intro outer stack _
    rw [h.lexemes_eq]

theorem ReadsItem.of_goes (hgoes : Goes c c₁ []) (harena : c₁.arena = c.arena)
    (hitem : c₁.ReadsItem role x c') : c.ReadsItem role x c' := by
  obtain ⟨used, d, hgoes', hne, hsingle, hstored, hyields⟩ := hitem
  refine ⟨used, d, hgoes.trans hgoes', hne, hsingle, harena ▸ hstored, ?_⟩
  rw [hgoes.config, hgoes.depth, hgoes.lexemes_eq] at hyields
  exact hyields

theorem ReadsItem.passes_sequence (hitem : c.ReadsItem .datum x c') :
    ∃ used d, used ≠ [] ∧ d.isSingle = true ∧ c.arena.storeAll [d] = (c'.arena, [x]) ∧
      ∀ s, Passes c c' used (.sequence s) (.sequence (s.add d .datum)) := by
  obtain ⟨used, d, hgoes, hne, hsingle, hstored, hyields⟩ := hitem
  refine ⟨used, d, hne, hsingle, hstored, fun s => ⟨hgoes, fun outer stack hdepth => ?_⟩⟩
  exact hyields outer (.sequence s :: stack) hdepth

theorem Passes.readsRest (hpasses : Passes c c₁ used f f') (hrest : c₁.ReadsRest a f' role x c') :
    c.ReadsRest a f role x c' := by
  obtain ⟨used', d, hgoes, hsingle, hstored, hresume⟩ := hrest
  refine ⟨used ++ used', d, hpasses.goes.trans hgoes, hsingle, hstored, ?_⟩
  intro outer stack hdepth
  rw [hpasses.resume outer stack hdepth, ← hpasses.goes.config]
  exact hresume outer stack (hdepth.trans hpasses.goes.depth.symm)

theorem Goes.readsOpened (hgoes : Goes c c₁ [l]) (hl : c.lexemes = l :: ls)
    (hrest : c₁.ReadsRest c.arena f role x c') : c.ReadsOpened ls f role x c' := by
  obtain ⟨used, d, hgoes', hsingle, hstored, hresume⟩ := hrest
  refine ⟨[l] ++ used, d, hgoes.trans hgoes', by simp, hsingle, hstored, ?_⟩
  rw [hgoes.config, hgoes.depth, hgoes.lexemes_of_cons hl] at hresume
  exact hresume

theorem spelled_of_mem (hl : l ∈ c.lexemes) : l.Spelled :=
  Token.lexemes_spelled _ l hl

theorem mem_lexemes (hl : c.lexemes = l :: ls) : l ∈ c.lexemes := by
  rw [hl]
  exact List.mem_cons_self

/-- A lexeme between constructs is trivia, the beginning of a datum, a closer or a dot. -/
theorem stops_of_not_begins (hl : l.Valid) (htrivia : l.isTrivia = false)
    (hdatum : l.beginsDatum = false) : stops l = true := by
  rcases hl.lexical with hlex | ⟨hk, -⟩
  · unfold Lexeme.isTrivia at htrivia
    unfold Lexeme.beginsDatum at hdatum
    cases hk : l.kind <;> simp [hk, Kind.isLexical, Kind.isAtom] at hlex htrivia hdatum <;>
      simp [stops, hk]
  · simp [Lexeme.beginsDatum, hk] at hdatum

theorem begins_of_not_stops (hl : l.Valid) (htrivia : l.isTrivia = false)
    (hstops : stops l = false) : l.beginsDatum = true := by
  by_contra hno
  have := stops_of_not_begins hl htrivia (Bool.eq_false_iff.mpr hno)
  rw [hstops] at this
  cases this

theorem beginsDatum_iff (ls : List Lexeme) (pos : Nat) :
    beginsDatum (ls.head?.map fun l => ⟨l, pos⟩) = true ↔
      ∃ l rest, ls = l :: rest ∧ l.beginsDatum = true := by
  cases ls with
  | nil => simp [beginsDatum]
  | cons l ls => simp [beginsDatum]

/-- Where neither trivia nor a datum follows, every wrapper that waits fails. -/
theorem stops_head (hhead : ∀ l ∈ c.lexemes.head?, l.isTrivia = false) {pos : Nat}
    (hbegins : beginsDatum (c.lexemes.head?.map fun l => ⟨l, pos⟩) ≠ true) :
    ∀ l ∈ c.lexemes.head?, stops l = true := by
  intro l hl
  have hmem : l ∈ c.lexemes := List.mem_of_mem_head? hl
  refine stops_of_not_begins (valid_of_mem hmem) (hhead l hl) (Bool.eq_false_iff.mpr fun hdatum => ?_)
  obtain ⟨rest, hrest⟩ := List.head?_eq_some_iff.mp hl
  exact hbegins ((beginsDatum_iff _ _).mpr ⟨l, rest, hrest, hdatum⟩)

theorem readTrivia_of_not_trivia (h : c.Sound) (hhead : ∀ l ∈ c.lexemes.head?, l.isTrivia = false) :
    readTrivia.Returns c fun hs c' => hs = [] ∧ Goes c c' [] ∧ c'.arena = c.arena := by
  rw [readTrivia, Phrase.read]
  refine (returns_peek h).bind ?_
  rintro t c₁ ⟨rfl, hgoes, harena⟩
  cases hl : c.lexemes with
  | nil => exact returns_pure ⟨rfl, hgoes, harena⟩
  | cons l ls =>
    have hno : l.isTrivia = false := hhead l (by rw [hl]; rfl)
    simp only [List.head?_cons, Option.map_some, hno, Bool.false_eq_true, if_false]
    exact returns_pure ⟨rfl, hgoes, harena⟩

/-! ## Wrappers -/

theorem ofMark?_eq {w : Wrapper} (hs : l.Spelled) (pos : Nat)
    (hf : Frame.ofLexeme? l = some (.wrapper w)) : Kind.ofMark? ⟨l, pos⟩ = some w.kind := by
  unfold Frame.ofLexeme? at hf
  unfold Kind.ofMark?
  split at hf <;> cases hf
  · rename_i hk
    obtain ⟨k, hform⟩ := hs.prefixMark hk
    simp only [hk]
    rw [Kind.ofPrefix_of_mem hform]
    simp only [Kind.prefixForms, List.mem_cons, Prod.mk.injEq, List.not_mem_nil, or_false] at hform
    rcases hform with ⟨ht, rfl⟩ | ⟨ht, rfl⟩ | ⟨ht, rfl⟩ | ⟨ht, rfl⟩ | ⟨ht, rfl⟩ | ⟨ht, rfl⟩ |
      ⟨ht, rfl⟩ | ⟨ht, rfl⟩ | ⟨ht, rfl⟩ <;> rw [ht] <;> rfl
  · rename_i hk
    simp only [hk]
  · rename_i hk
    simp only [hk]

theorem children_ofLexeme? {w : Wrapper} (hf : Frame.ofLexeme? l = some (.wrapper w)) :
    w.children = [l.leaf] ∧ w.role = l.role := by
  unfold Frame.ofLexeme? at hf
  split at hf <;> cases hf
  · rename_i hk
    exact ⟨rfl, by rw [Grammar.role_ofPrefix]; simp [Lexeme.role, Lexeme.isTrivia, hk]⟩
  · rename_i hk
    exact ⟨rfl, by simp [Wrapper.role, Lexeme.role, Lexeme.isTrivia, hk]⟩
  · rename_i hk
    exact ⟨rfl, by simp [Wrapper.role, Lexeme.role, Lexeme.isTrivia, hk]⟩

theorem returns_complete {w : Wrapper} (hS : Specs n) (h : c.Sound) (hl : c.lexemes = l :: ls)
    (hn : c.lexemes.length ≤ n) (hdatum : l.beginsDatum = true)
    (hstored : a.storeAll w.children.reverse = (c.arena, hs)) :
    Call.Returns (do
      let datum ← readDatum
      branch w.kind (hs ++ [datum]) none) c (c.ReadsRest a (.wrapper w) w.role) := by
  refine (hS.datum c l ls h hl hn hdatum).bind fun datum c₁ hitem => ?_
  obtain ⟨used₁, d, hgoes₁, -, -, hstored₁, hyields⟩ := hitem
  refine (returns_branch hgoes₁.sound (Arena.storeAll_append hstored hstored₁) w.kind none).mono ?_
  rintro x c₂ ⟨hgoes₂, hstored₂⟩
  refine ⟨_, w.complete d, hgoes₁.trans hgoes₂, rfl, ?_, ?_⟩
  · rw [Wrapper.complete, List.reverse_cons]
    exact hstored₂
  · intro outer stack hdepth
    rw [hgoes₂.lexemes_eq]
    exact hyields outer (.wrapper w :: stack) hdepth

theorem returns_fail {w : Wrapper} (h : c.Sound) (hstops : ∀ l ∈ c.lexemes.head?, stops l = true)
    (hstored : a.storeAll w.children.reverse = (c.arena, hs)) :
    Call.Returns (do
      let gap ← missing
      branch .error (hs ++ [gap]) (some .unexpectedToken)) c
      (c.ReadsRest a (.wrapper w) w.role) := by
  refine (returns_missing h).bind ?_
  rintro gap c₁ ⟨hgoes₁, hgap⟩
  refine (returns_branch hgoes₁.sound (Arena.storeAll_append hstored hgap) .error
    (some .unexpectedToken)).mono ?_
  rintro x c₂ ⟨hgoes₂, hstored₂⟩
  have hgo := hgoes₁.trans hgoes₂
  refine ⟨_, w.fail, hgo, rfl, ?_, ?_⟩
  · rw [Wrapper.fail, List.reverse_cons]
    exact hstored₂
  · intro outer stack _
    rw [hgo.lexemes_eq]
    exact Read.resume_fail w hstops

theorem returns_readWrapped (hS : Specs n) (h : c.Sound) (hl : c.lexemes = l :: ls)
    (hn : ls.length ≤ n) {w : Wrapper} (hf : Frame.ofLexeme? l = some (.wrapper w)) :
    Phrase.wrapped.read.Returns c (c.ReadsOpened ls (.wrapper w) w.role) := by
  rw [Phrase.read]
  refine (returns_next h hl).bind ?_
  rintro mark c₁ ⟨rfl, hgoes₁, harena₁⟩
  simp only [ofMark?_eq (spelled_of_mem (mem_lexemes hl)) c.pos hf]
  refine (returns_token hgoes₁.sound l _).bind ?_
  rintro first c₂ ⟨hgoes₂, hfirst⟩
  rw [harena₁] at hfirst
  have hgo := hgoes₁.trans hgoes₂
  have hn₂ : c₂.lexemes.length ≤ n := by
    rw [hgo.lexemes_of_cons hl]
    exact hn
  refine (hS.trivia c₂ hgoes₂.sound hn₂).bind fun trivia c₃ htrivia => ?_
  obtain ⟨used₃, ds, hgoes₃, -, hstored₃, hhead₃, hpasses₃⟩ := htrivia
  refine (returns_peek hgoes₃.sound).bind ?_
  rintro t c₄ ⟨rfl, hgoes₄, harena₄⟩
  have hpasses := (hpasses₃ (.wrapper w)).trans (hgoes₄.passes _)
  rw [Frame.addAll_wrapper] at hpasses
  -- the mark and the trivia are the children of the open wrapper
  obtain ⟨w', hw'⟩ : ∃ w' : Wrapper, { w with children := ds.reverse ++ w.children } = w' := ⟨_, rfl⟩
  have hstored : c.arena.storeAll w'.children.reverse = (c₄.arena, first :: trivia) := by
    rw [← hw', (children_ofLexeme? hf).1, harena₄, List.reverse_append, List.reverse_reverse]
    exact Arena.storeAll_append hfirst hstored₃
  have hkind : w.kind = w'.kind := by rw [← hw']
  have hrole : w.role = w'.role := by rw [← hw']; rfl
  rw [hw'] at hpasses
  rw [hkind, hrole]
  by_cases hbegins : beginsDatum (c₃.lexemes.head?.map fun l => ⟨l, c₃.pos⟩) = true
  · rw [if_pos hbegins]
    obtain ⟨l', ls', hl₃, hdatum⟩ := (beginsDatum_iff _ _).mp hbegins
    have hlen := Nat.le_trans (hgoes₃.trans hgoes₄).length_le hn₂
    exact (returns_complete hS hgoes₄.sound (hgoes₄.lexemes_eq.trans hl₃) hlen hdatum hstored).mono
      fun x c₅ hrest => hgo.readsOpened hl (hpasses.readsRest hrest)
  · rw [if_neg hbegins]
    have hstops := stops_head hhead₃ hbegins
    rw [← hgoes₄.lexemes_eq] at hstops
    exact (returns_fail hgoes₄.sound hstops hstored).mono
      fun x c₅ hrest => hgo.readsOpened hl (hpasses.readsRest hrest)

end Cursor

end RacketTree

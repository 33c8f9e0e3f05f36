import RacketTree.Proofs.Tree.Descent

/-!
# Sequences by descent

The call for the elements of a sequence reads what the stack reader puts into an open sequence
(`Cursor.returns_readElements`). Up to the first dot that may stand in a list the two have the same
children. From there on the call for the tail has collected the same pieces, in one run up to the
closer, and it knows whether the pieces are well-formed in the sense of `Tail.finish`
(`Cursor.returns_readTail`).
-/

namespace RacketTree

open Grammar (resume resumeAfter)

namespace Arena

variable {a b : Arena} {ds ds' : List Draft} {hs : List Handle}

theorem storeAll_of_append (h : a.storeAll (ds ++ ds') = (b, hs)) :
    ∃ b' hs₁ hs₂, hs = hs₁ ++ hs₂ ∧ a.storeAll ds = (b', hs₁) ∧ b'.storeAll ds' = (b, hs₂) := by
  have hsplit := storeAll_append (Prod.eta (a.storeAll ds)).symm
    (Prod.eta ((a.storeAll ds).1.storeAll ds')).symm
  rw [h] at hsplit
  cases hsplit
  exact ⟨_, _, _, rfl, rfl, rfl⟩

theorem storeAll_tail {b' : Arena} {hs' : List Handle} (h : a.storeAll ds = (b', hs))
    (h' : b'.storeAll ds' = (b, hs')) :
    a.storeAll [.tail ds ds'] =
      (b.branch .error hs (some .malformedDottedPair), b.size :: hs') := by
  simp [storeAll, store, h, h']

theorem Holds.isTrivia_eq {h : Handle} {d : Draft} (hd : d.isSingle = true)
    (hold : a.Holds h d.shape) : a.isTrivia h = d.isTrivia := by
  cases d with
  | leaf kind text fault =>
    obtain ⟨r, hr, rfl, -⟩ := hold
    simp [isTrivia, hr, Draft.isTrivia]
  | branch kind children fault =>
    obtain ⟨r, hr, rfl, -⟩ := hold
    simp [isTrivia, hr, Draft.isTrivia]
  | tail pieces trailing => cases hd

theorem HoldsAll.map_isTrivia {n : Nat} (hds : ∀ d ∈ ds, d.isSingle = true)
    (h : a.HoldsAll n hs (Draft.allShapes ds)) : hs.map a.isTrivia = ds.map Draft.isTrivia := by
  rw [Draft.allShapes_eq hds] at h
  induction ds generalizing hs with
  | nil =>
    cases h
    rfl
  | cons d ds ih =>
    obtain ⟨x, rest, rfl, -, hold, hrest⟩ := h
    rw [List.map_cons, List.map_cons, hold.isTrivia_eq (hds d List.mem_cons_self),
      ih (fun d hd => hds d (List.mem_cons_of_mem _ hd)) hrest]

theorem length_storeAll (hds : ∀ d ∈ ds, d.isSingle = true) (h : a.storeAll ds = (b, hs)) :
    hs.length = ds.length := by
  have hall := (holdsAll_storeAll a ds).2.2.length_eq
  rw [h, Draft.allShapes_eq hds, List.length_map] at hall
  exact hall

theorem map_isTrivia_storeAll (hds : ∀ d ∈ ds, d.isSingle = true) (h : a.storeAll ds = (b, hs)) :
    hs.map b.isTrivia = ds.map Draft.isTrivia := by
  have hall := (holdsAll_storeAll a ds).2.2
  rw [h] at hall
  exact hall.map_isTrivia hds

end Arena

/-- The tail with trivia after its pieces. -/
def Tail.addAll (t : Tail) (ds : List Draft) : Tail :=
  { t with pieces := ds.reverse ++ t.pieces }

/-- The sequence with another tail. -/
def Sequence.withTail (s : Sequence) (t : Tail) : Sequence :=
  { s with tail := some t }

theorem Frame.addAll_withTail (s : Sequence) (t : Tail) (ds : List Draft) :
    (sequence (s.withTail t)).addAll ds = sequence (s.withTail (t.addAll ds)) :=
  addAll_tail rfl ds

namespace Sequence

variable {s : Sequence} (config : Config) (dot : Lexeme)

theorem body_of_none (h : s.tail = none) : s.body = s.children.reverse := by
  rw [body, h]
  exact List.append_nil _

theorem addDot_of_list (h : s.tail = none) (hlist : (s.kind = .list && s.seenDatum) = true) :
    s.addDot config dot = (s.withTail Tail.empty).addDot config dot := by
  rw [addDot, h]
  exact if_pos hlist

theorem addDot_of_not_list (h : s.tail = none) (hlist : ¬(s.kind = .list && s.seenDatum) = true) :
    s.addDot config dot =
      { s with children := .branch .error [dot.leaf] (some .malformedDottedPair) :: s.children } := by
  rw [addDot, h]
  exact if_neg hlist

theorem add_of_none (h : s.tail = none) (item : Draft) :
    s.add item .datum = { s with children := item :: s.children, seenDatum := true } := by
  rw [add, h]
  simp

end Sequence

namespace Cursor

open Call
open Read (stops)

variable {c c' c₁ : Cursor} {l : Lexeme} {ls used used' : List Lexeme} {n : Nat} {a : Arena}
  {hs : List Handle} {s : Sequence} {t : Tail} {f f' f'' : Frame}

theorem Goes.passes_dot (h : Goes c c' [l]) (hl : c.lexemes = l :: ls) (hk : l.kind = .dot)
    (s : Sequence) : Passes c c' [l] (.sequence s) (.sequence (s.addDot c.config l)) where
  goes := h
  resume := by
    intro outer stack _
    rw [hl, h.lexemes_of_cons hl]
    exact Grammar.resume_dot hk

/-! ## The end of a sequence -/

theorem counterpart?_eq (hl : l.Valid) (hk : l.kind = .opener) :
    l.text.getLast?.bind Token.counterpart? = some (Sequence.ofOpener l).counterpart := by
  obtain ⟨x, hlast, hx⟩ := hl.opener hk
  have hbracket : x = '(' ∨ x = '[' ∨ x = '\x7b' := by
    simpa [Token.isOpenBracket, or_assoc] using hx
  have hlast' : (Sequence.ofOpener l).opener.getLast? = some x := hlast
  rw [hlast, Sequence.counterpart, hlast']
  rcases hbracket with rfl | rfl | rfl <;> rfl

theorem returns_close (h : c.Sound) {expected : List Char}
    (hb : c.boundaries = s.counterpart :: expected) (l : Lexeme) (pos : Nat) :
    (close ⟨l, pos⟩).Returns c (c.Adds (s.closing c.config l)) := by
  refine (returns_token h l pos).bind ?_
  rintro x c₁ ⟨hgoes, hstored⟩
  refine returns_get_bind ?_
  have hleaf : s.closing c.config l = l.leaf →
      (pure x : Call Handle).Returns c₁ (c.Adds (s.closing c.config l)) := fun heq =>
    returns_pure ⟨hgoes, by rw [heq]; exact hstored⟩
  rw [hgoes.config]
  by_cases hstrict : c.config.strictDelimiters = true
  · rw [if_pos hstrict, hgoes.boundaries, hb]
    by_cases htext : l.text = [s.counterpart]
    · simp only [if_pos htext]
      exact hleaf (by simp [Sequence.closing, htext])
    · simp only [if_neg htext]
      refine (returns_branch hgoes.sound hstored .error (some .delimiterMismatch)).mono ?_
      rintro y c₂ ⟨hgoes₂, hstored₂⟩
      refine ⟨hgoes.trans hgoes₂, ?_⟩
      simp only [Sequence.closing, hstrict, Bool.true_and, bne_iff_ne, ne_eq, htext,
        not_false_eq_true, if_true]
      exact hstored₂
  · rw [if_neg hstrict]
    exact hleaf (by simp [Sequence.closing, hstrict])

theorem returns_unclosed (h : c.Sound) (hl : c.lexemes = [])
    (hstored : a.storeAll s.body = (c.arena, hs)) :
    Call.Returns (do
      let gap ← missing
      branch .error (hs ++ [gap]) (some .unclosedDelimiter)) c
      (c.ReadsRest a (.sequence s) .datum) := by
  refine (returns_missing h).bind ?_
  rintro gap c₁ ⟨hgoes₁, hgap⟩
  refine (returns_branch hgoes₁.sound (Arena.storeAll_append hstored hgap) .error
    (some .unclosedDelimiter)).mono ?_
  rintro x c₂ ⟨hgoes₂, hstored₂⟩
  have hgo := hgoes₁.trans hgoes₂
  refine ⟨_, s.unclosed, hgo, rfl, hstored₂, ?_⟩
  intro outer stack _
  rw [hgo.lexemes_eq, hl]
  exact Read.resume_unclosed s

theorem returns_closed (h : c.Sound) (hl : c.lexemes = l :: ls) (hk : l.kind = .closer)
    (hstored : a.storeAll s.body = (c.arena, hs)) {expected : List Char}
    (hb : c.boundaries = s.counterpart :: expected) (pos : Nat) :
    Call.Returns (do
      let _ ← next
      let x ← close ⟨l, pos⟩
      branch s.kind (hs ++ [x]) none) c (c.ReadsRest a (.sequence s) .datum) := by
  refine (returns_next h hl).bind ?_
  rintro _ c₁ ⟨-, hgoes₁, harena₁⟩
  have hclose := returns_close (s := s) hgoes₁.sound (hgoes₁.boundaries.trans hb) l pos
  refine hclose.bind ?_
  rintro x c₂ ⟨hgoes₂, hclosing⟩
  rw [harena₁, hgoes₁.config] at hclosing
  refine (returns_branch hgoes₂.sound (Arena.storeAll_append hstored hclosing) s.kind none).mono ?_
  rintro y c₃ ⟨hgoes₃, hstored₃⟩
  refine ⟨_, s.close c.config l, (hgoes₁.trans hgoes₂).trans hgoes₃, rfl, hstored₃, ?_⟩
  intro outer stack _
  rw [hl, (hgoes₂.trans hgoes₃).lexemes_eq, hgoes₁.lexemes_of_cons hl]
  exact Grammar.resume_close hk

/-! ## Dotted tails -/

theorem length_takeWhile_eq {α β : Type} {p : α → Bool} {q : β → Bool} {xs : List α} {ys : List β}
    (h : xs.map p = ys.map q) : (xs.takeWhile p).length = (ys.takeWhile q).length := by
  have hmap := congrArg (fun bs => (bs.takeWhile id).length) h
  simpa only [List.takeWhile_map, List.length_map, Function.id_comp] using hmap

/-- The pieces of a tail as the children that `Tail.finish` makes of them. -/
theorem returns_finishTail (h : c.Sound) (hsingle : ∀ d ∈ t.pieces, d.isSingle = true)
    (hstored : a.storeAll t.pieces.reverse = (c.arena, hs)) :
    (finishTail hs (t.wellFormed && !t.awaiting)).Returns c fun xs c' =>
      Goes c c' [] ∧ a.storeAll t.finish = (c'.arena, xs) := by
  have htrivia : hs.map c.arena.isTrivia = t.pieces.reverse.map Draft.isTrivia :=
    Arena.map_isTrivia_storeAll (fun d hd => hsingle d (List.mem_reverse.mp hd)) hstored
  have hcut : (hs.reverse.takeWhile c.arena.isTrivia).length =
      (t.pieces.takeWhile Draft.isTrivia).length := by
    refine length_takeWhile_eq ?_
    rw [List.map_reverse, htrivia, List.map_reverse, List.reverse_reverse]
  have hparts : (hs.reverse.dropWhile c.arena.isTrivia).reverse ++
      (hs.reverse.takeWhile c.arena.isTrivia).reverse = hs := by
    rw [← List.reverse_append, List.takeWhile_append_dropWhile, List.reverse_reverse]
  refine returns_get_bind ?_
  dsimp only
  by_cases hwell : (t.wellFormed && !t.awaiting) = true
  · rw [if_pos hwell, hparts]
    exact returns_pure ⟨h.goes c.arena, by rw [Tail.finish, if_pos hwell]; exact hstored⟩
  · rw [if_neg hwell]
    have hreverse : t.pieces.reverse = (t.pieces.dropWhile Draft.isTrivia).reverse ++
        (t.pieces.takeWhile Draft.isTrivia).reverse := by
      rw [← List.reverse_append, List.takeWhile_append_dropWhile]
    rw [hreverse] at hstored
    obtain ⟨b, inner, trailing, hhs, hinner, htrailing⟩ := Arena.storeAll_of_append hstored
    have hlength : trailing.length = (t.pieces.takeWhile Draft.isTrivia).reverse.length := by
      refine Arena.length_storeAll (fun d hd => hsingle d ?_) htrailing
      exact List.takeWhile_subset _ (List.mem_reverse.mp hd)
    obtain ⟨hleft, hright⟩ := List.append_inj' (hparts.trans hhs)
      (by rw [hlength, List.length_reverse, List.length_reverse, hcut])
    rw [hleft, hright]
    refine ⟨_, _, rfl, h.goes _, ?_⟩
    rw [Tail.finish, if_neg hwell]
    exact Arena.storeAll_tail hinner htrailing

/-- The pieces of a tail have been added to an arena. -/
structure Collects (a b : Arena) (t : Tail) (pieces : List Handle) : Prop where
  single : ∀ d ∈ t.pieces, d.isSingle = true
  stored : a.storeAll t.pieces.reverse = (b, pieces)

theorem Collects.append {b b' : Arena} {t' : Tail} {pieces more : List Handle} {ds : List Draft}
    (h : Collects a b t pieces) (hds : ∀ d ∈ ds, d.isSingle = true)
    (hstored : b.storeAll ds = (b', more)) (ht : t'.pieces = ds.reverse ++ t.pieces) :
    Collects a b' t' (pieces ++ more) where
  single := by
    intro d hd
    rw [ht, List.mem_append, List.mem_reverse] at hd
    exact hd.elim (hds d) (h.single d)
  stored := by
    rw [ht, List.reverse_append, List.reverse_reverse]
    exact Arena.storeAll_append h.stored hstored

/-- A tail has been read up to the closer of its list. -/
def ReadsTail (c : Cursor) (a : Arena) (s : Sequence) (t : Tail) (hs : List Handle) (c' : Cursor) :
    Prop :=
  ∃ used t', Passes c c' used (.sequence (s.withTail t)) (.sequence (s.withTail t')) ∧
    a.storeAll t'.finish = (c'.arena, hs) ∧ ∀ l ∈ c'.lexemes.head?, l.kind = .closer

theorem Passes.readsTail {t' : Tail}
    (hpasses : Passes c c₁ used (.sequence (s.withTail t)) (.sequence (s.withTail t')))
    (h : c₁.ReadsTail a s t' hs c') : c.ReadsTail a s t hs c' := by
  obtain ⟨used', t'', hpasses', hstored, hhead⟩ := h
  exact ⟨_, t'', hpasses.trans hpasses', hstored, hhead⟩

/-- More pieces of a tail have been read, with the trivia behind them. -/
structure Grows (c c' : Cursor) (a : Arena) (s : Sequence) (t t' : Tail) (pieces : List Handle) :
    Prop where
  passes : ∃ used, used ≠ [] ∧
    Passes c c' used (.sequence (s.withTail t)) (.sequence (s.withTail t'))
  collects : Collects a c'.arena t' pieces
  head : ∀ l ∈ c'.lexemes.head?, l.isTrivia = false

theorem Grows.goes {t' : Tail} (h : Grows c c' a s t t' hs) :
    ∃ used, used ≠ [] ∧ Goes c c' used := by
  obtain ⟨used, hne, hpasses⟩ := h.passes
  exact ⟨used, hne, hpasses.goes⟩

theorem Grows.trans {t₁ t' : Tail} {hs' : List Handle} (h : Grows c c₁ a s t t₁ hs)
    (h' : Grows c₁ c' a s t₁ t' hs') : Grows c c' a s t t' hs' := by
  obtain ⟨used, hne, hpasses⟩ := h.passes
  obtain ⟨used', -, hpasses'⟩ := h'.passes
  exact ⟨⟨used ++ used', by simp [hne], hpasses.trans hpasses'⟩, h'.collects, h'.head⟩

/-- Nothing is lost by looking at the next token. -/
theorem Grows.peek {t' : Tail} (h : Grows c c₁ a s t t' hs) (hgoes : Goes c₁ c' [])
    (harena : c'.arena = c₁.arena) : Grows c c' a s t t' hs := by
  obtain ⟨used, hne, hpasses⟩ := h.passes
  exact ⟨⟨used ++ [], by simp [hne], hpasses.trans (hgoes.passes _)⟩, harena ▸ h.collects,
    hgoes.lexemes_eq ▸ h.head⟩

section Pieces

variable {α : Type} {k : Handle → List Handle → Call α} {q : α → Cursor → Prop}

/-- What follows a datum and the trivia behind it. -/
theorem returns_datum_trivia (hS : Specs n) (s : Sequence) (h : c.Sound)
    (hl : c.lexemes = l :: ls) (hn : c.lexemes.length ≤ n) (hdatum : l.beginsDatum = true)
    (hcollects : Collects a c.arena t hs)
    (hk : ∀ datum after c' d ds,
      Grows c c' a s t ((t.add d .datum).addAll ds) (hs ++ datum :: after) →
        (k datum after).Returns c' q) :
    Call.Returns (do
      let datum ← readDatum
      let after ← readTrivia
      k datum after) c q := by
  refine (hS.datum c l ls h hl hn hdatum).bind fun datum c₁ hitem => ?_
  obtain ⟨used₁, d, hne, hd, hstored₁, hpasses₁⟩ := hitem.passes_sequence
  have hgoes₁ := (hpasses₁ s).goes
  refine (hS.trivia c₁ hgoes₁.sound (Nat.le_trans hgoes₁.length_le hn)).bind
    fun after c₂ htrivia => ?_
  obtain ⟨used₂, ds, -, hds, hstored₂, hhead, hpasses₂⟩ := htrivia
  refine hk datum after c₂ d ds ⟨⟨used₁ ++ used₂, by simp [hne], ?_⟩, ?_, hhead⟩
  · rw [← Frame.addAll_withTail]
    exact (hpasses₁ (s.withTail t)).trans (hpasses₂ _)
  · exact hcollects.append (by simpa [hd] using hds) (Arena.storeAll_append hstored₁ hstored₂)
      (by simp [Tail.addAll, Tail.add])

/-- What follows a dot and the trivia behind it. -/
theorem returns_dot_trivia (hS : Specs n) (s : Sequence) (h : c.Sound)
    (hl : c.lexemes = l :: ls) (hn : c.lexemes.length ≤ n) (hdot : l.kind = .dot)
    (hcollects : Collects a c.arena t hs) (pos : Nat)
    (hk : ∀ dot gap c' ds,
      Grows c c' a s t ((t.addDot c.config.maxDots l.leaf).addAll ds) (hs ++ dot :: gap) →
        (k dot gap).Returns c' q) :
    Call.Returns (do
      let _ ← next
      let dot ← token ⟨l, pos⟩
      let gap ← readTrivia
      k dot gap) c q := by
  refine (returns_next h hl).bind ?_
  rintro tok c₁ ⟨-, hgoes₁, harena₁⟩
  refine (returns_token hgoes₁.sound l pos).bind ?_
  rintro dot c₂ ⟨hgoes₂, hstored₂⟩
  rw [harena₁] at hstored₂
  have hgo := hgoes₁.trans hgoes₂
  refine (hS.trivia c₂ hgoes₂.sound (Nat.le_trans hgo.length_le hn)).bind fun gap c₃ htrivia => ?_
  obtain ⟨used₃, ds, -, hds, hstored₃, hhead, hpasses₃⟩ := htrivia
  refine hk dot gap c₃ ds ⟨⟨[l] ++ used₃, by simp, ?_⟩, ?_, hhead⟩
  · rw [← Frame.addAll_withTail]
    exact (hgo.passes_dot hl hdot (s.withTail t)).trans (hpasses₃ _)
  · exact hcollects.append (by simpa using ⟨rfl, hds⟩) (Arena.storeAll_append hstored₂ hstored₃)
      (by simp [Tail.addAll, Tail.addDot])

end Pieces

/-- A tail is read up to the closer of its list. Where the last dot still waits for its datum, no
datum follows. -/
theorem returns_readTail (hS : Specs n) (s : Sequence) (h : c.Sound) (hn : c.lexemes.length ≤ n)
    (hcollects : Collects a c.arena t hs) (hhead : ∀ l ∈ c.lexemes.head?, l.isTrivia = false)
    (hwaits : t.awaiting = true → ∀ l ∈ c.lexemes.head?, stops l = true) :
    (Phrase.tail hs t.dots (t.wellFormed && !t.awaiting)).read.Returns c (c.ReadsTail a s t) := by
  induction hm : c.lexemes.length using Nat.strongRecOn generalizing c t hs with
  | _ m ih =>
  rw [Phrase.read]
  refine (returns_peek h).bind ?_
  rintro tok c₁ ⟨rfl, hgoes₁, harena₁⟩
  rw [← harena₁] at hcollects
  have hfinish : (∀ l ∈ c.lexemes.head?, l.kind = .closer) →
      (finishTail hs (t.wellFormed && !t.awaiting)).Returns c₁ (c.ReadsTail a s t) := by
    intro hcloser
    refine (returns_finishTail hgoes₁.sound hcollects.single hcollects.stored).mono ?_
    rintro xs c₂ ⟨hgoes₂, hstored⟩
    have hgo := hgoes₁.trans hgoes₂
    exact ⟨_, t, hgo.passes _, hstored, hgo.lexemes_eq ▸ hcloser⟩
  -- the call for the rest of the tail, with fewer lexemes
  have hrest : ∀ (c₂ : Cursor) (t₂ : Tail) pieces dots flag, Grows c₁ c₂ a s t t₂ pieces →
      (t₂.awaiting = true → ∀ l ∈ c₂.lexemes.head?, stops l = true) → dots = t₂.dots →
      flag = (t₂.wellFormed && !t₂.awaiting) →
      (Phrase.tail pieces dots flag).read.Returns c₂ (c.ReadsTail a s t) := by
    intro c₂ t₂ pieces dots flag hgrows hwaits₂ hdots hflag
    obtain ⟨used, hne, hpasses⟩ := hgrows.passes
    have hlt := hpasses.goes.length_lt hne
    rw [hgoes₁.lexemes_eq, hm] at hlt
    rw [hdots, hflag]
    exact (ih _ hlt hpasses.goes.sound (by omega) hgrows.collects hgrows.head hwaits₂ rfl).mono
      fun xs c₃ htail => ((hgoes₁.passes _).trans hpasses).readsTail htail
  cases hl : c.lexemes with
  | nil => exact hfinish (by simp [hl])
  | cons l ls =>
    simp only [List.head?_cons, Option.map_some]
    have hl₁ : c₁.lexemes = l :: ls := hgoes₁.lexemes_eq.trans hl
    have hn₁ : c₁.lexemes.length ≤ n := hgoes₁.lexemes_eq ▸ hn
    by_cases hcloser : l.kind = .closer
    · rw [if_pos hcloser]
      exact hfinish (by simp [hl, hcloser])
    rw [if_neg hcloser]
    by_cases hdot : l.kind = .dot
    · rw [if_pos hdot]
      refine returns_dot_trivia hS s hgoes₁.sound hl₁ hn₁ hdot hcollects c.pos
        fun dot gap c₂ ds hgrows => ?_
      obtain ⟨used, hne, hgoes₂⟩ := hgrows.goes
      refine returns_get_bind ?_
      refine (returns_peek hgoes₂.sound).bind ?_
      rintro tok c₃ ⟨rfl, hgoes₃, harena₃⟩
      have hgrows₃ := hgrows.peek hgoes₃ harena₃
      by_cases hbegins : beginsDatum (c₂.lexemes.head?.map fun l => ⟨l, c₂.pos⟩) = true
      · rw [if_pos hbegins]
        obtain ⟨l', ls', hl₂, hdatum⟩ := (beginsDatum_iff _ _).mp hbegins
        have hn₃ := Nat.le_trans (hgoes₂.trans hgoes₃).length_le hn₁
        refine returns_datum_trivia hS s hgoes₃.sound (hgoes₃.lexemes_eq.trans hl₂) hn₃ hdatum
          hgrows₃.collects fun datum after c₄ d ds' hgrows₄ => ?_
        refine hrest c₄ _ _ _ _ (hgrows₃.trans hgrows₄) (fun hno => by cases hno) rfl ?_
        simp [Tail.addAll, Tail.add, Tail.addDot, hgoes₂.config]
      · rw [if_neg hbegins]
        refine hrest c₃ _ _ _ _ hgrows₃ (fun _ => ?_) rfl (by simp [Tail.addAll, Tail.addDot])
        rw [hgoes₃.lexemes_eq]
        exact stops_head hgrows.head hbegins
    · rw [if_neg hdot]
      have hstops : stops l = false := by simp [stops, hcloser, hdot]
      have hdatum : l.beginsDatum = true :=
        begins_of_not_stops (valid_of_mem (mem_lexemes hl)) (hhead l (by simp [hl])) hstops
      have hawaiting : t.awaiting = false := by
        refine Bool.eq_false_iff.mpr fun hawaiting => ?_
        have := hwaits hawaiting l (by simp [hl])
        rw [hstops] at this
        cases this
      refine returns_datum_trivia hS s hgoes₁.sound hl₁ hn₁ hdatum hcollects
        fun datum after c₂ d ds hgrows => ?_
      refine hrest c₂ _ _ _ _ hgrows (fun hno => by cases hno) rfl ?_
      simp [Tail.addAll, Tail.add, hawaiting]

/-! ## Elements -/

/-- Where the tail has been read, the sequence ends. -/
theorem returns_readElements_of_closer (h : c.Sound)
    (hhead : ∀ l ∈ c.lexemes.head?, l.kind = .closer)
    (hstored : a.storeAll s.body = (c.arena, hs)) {expected : List Char}
    (hb : c.boundaries = s.counterpart :: expected) (seen : Bool) :
    (Phrase.elements s.kind hs seen).read.Returns c (c.ReadsRest a (.sequence s) .datum) := by
  rw [Phrase.read]
  have hnot : ∀ l ∈ c.lexemes.head?, l.isTrivia = false := fun l hl => by
    simp [Lexeme.isTrivia, hhead l hl]
  refine (readTrivia_of_not_trivia h hnot).bind ?_
  rintro trivia c₁ ⟨rfl, hgoes₁, harena₁⟩
  refine (returns_peek hgoes₁.sound).bind ?_
  rintro tok c₂ ⟨rfl, hgoes₂, harena₂⟩
  have hgo := hgoes₁.trans hgoes₂
  rw [← harena₁, ← harena₂] at hstored
  rw [List.append_nil, hgoes₁.lexemes_eq]
  cases hl : c.lexemes with
  | nil =>
    refine (returns_unclosed hgo.sound (hgo.lexemes_eq.trans hl) hstored).mono
      fun x c₃ hrest => (hgo.passes _).readsRest hrest
  | cons l ls =>
    have hcloser : l.kind = .closer := hhead l (by simp [hl])
    simp only [List.head?_cons, Option.map_some, if_pos hcloser]
    refine (returns_closed hgo.sound (hgo.lexemes_eq.trans hl) hcloser hstored
      (hgo.boundaries.trans hb) c₁.pos).mono fun x c₃ hrest => (hgo.passes _).readsRest hrest

/-- The call for the elements of a sequence has read the children of `s`, where `a` is the arena
before the sequence. -/
structure InSequence (c : Cursor) (a : Arena) (s : Sequence) (hs : List Handle) : Prop where
  sound : c.Sound
  tail : s.tail = none
  stored : a.storeAll s.children.reverse = (c.arena, hs)
  boundaries : ∃ expected, c.boundaries = s.counterpart :: expected

namespace InSequence

theorem body (h : c.InSequence a s hs) : a.storeAll s.body = (c.arena, hs) := by
  rw [Sequence.body_of_none h.tail]
  exact h.stored

theorem add (h : c.InSequence a s hs) (hgoes : Goes c c' used) {ds : List Draft}
    {xs : List Handle} (hstored : c.arena.storeAll ds = (c'.arena, xs)) (seen : Bool) :
    c'.InSequence a { s with children := ds.reverse ++ s.children, seenDatum := seen }
      (hs ++ xs) where
  sound := hgoes.sound
  tail := h.tail
  stored := by
    rw [List.reverse_append, List.reverse_reverse]
    exact Arena.storeAll_append h.stored hstored
  boundaries := by
    obtain ⟨expected, hb⟩ := h.boundaries
    exact ⟨expected, hgoes.boundaries.trans hb⟩

/-- At a dot that may stand in the list, the tail is read and with it the rest of the list. -/
theorem returns_readTail (h : c.InSequence a s hs) (hS : Specs n) (hn : c.lexemes.length ≤ n)
    (hl : c.lexemes = l :: ls) (hdot : l.kind = .dot)
    (hlist : (s.kind = .list && s.seenDatum) = true) :
    Call.Returns (do
      let tail ← (Phrase.tail [] 0 true).read
      (Phrase.elements s.kind (hs ++ tail) s.seenDatum).read) c (c.ReadsRest a (.sequence s) .datum) := by
  have hopen : Passes c c [] (.sequence s) (.sequence (s.withTail Tail.empty)) := by
    refine ⟨h.sound.goes c.arena, fun outer stack _ => ?_⟩
    rw [hl, Grammar.resume_dot hdot, Grammar.resume_dot hdot,
      Sequence.addDot_of_list _ l h.tail hlist]
  have hhead : ∀ m ∈ c.lexemes.head?, m.isTrivia = false := by
    simp [hl, Lexeme.isTrivia, hdot]
  have hread := Cursor.returns_readTail (a := c.arena) (t := Tail.empty) hS s h.sound hn
    ⟨by simp [Tail.empty], rfl⟩ hhead (fun hno => by cases hno)
  refine Returns.bind hread ?_
  rintro xs c₁ ⟨used, t, hpasses, hstored₁, hcloser⟩
  obtain ⟨expected, hb⟩ := h.boundaries
  refine (returns_readElements_of_closer (s := s.withTail t) hpasses.goes.sound hcloser
    (Arena.storeAll_append h.stored hstored₁) (hpasses.goes.boundaries.trans hb) s.seenDatum).mono
    fun y c₂ hrest => (hopen.trans hpasses).readsRest hrest

end InSequence

/-- A sequence is read from its children on, up to its closer. -/
theorem returns_readElements (hS : Specs n) (h : c.InSequence a s hs)
    (hn : c.lexemes.length ≤ n) :
    (Phrase.elements s.kind hs s.seenDatum).read.Returns c (c.ReadsRest a (.sequence s) .datum) := by
  induction hm : c.lexemes.length using Nat.strongRecOn generalizing c s hs with
  | _ m ih =>
  rw [Phrase.read]
  refine (hS.trivia c h.sound hn).bind fun trivia c₁ htrivia => ?_
  obtain ⟨used₁, ds, -, -, hstored₁, hhead₁, hpasses₁⟩ := htrivia
  have hpasses := hpasses₁ (.sequence s)
  rw [Frame.addAll_sequence h.tail] at hpasses
  refine (returns_peek hpasses.goes.sound).bind ?_
  rintro tok c₂ ⟨rfl, hgoes₂, harena₂⟩
  have hpasses₂ := hpasses.trans (hgoes₂.passes _)
  have hn₂ := Nat.le_trans hpasses₂.goes.length_le hn
  have h₂ := h.add hpasses₂.goes (harena₂ ▸ hstored₁) s.seenDatum
  -- from here on the trivia is among the children
  obtain ⟨s₂, hs₂⟩ : ∃ s₂, { s with children := ds.reverse ++ s.children } = s₂ := ⟨_, rfl⟩
  have hseen : s.seenDatum = s₂.seenDatum := by rw [← hs₂]
  have hkind : s.kind = s₂.kind := by rw [← hs₂]; rfl
  rw [hs₂] at hpasses₂ h₂
  rw [hseen, hkind]
  obtain ⟨expected, hb₂⟩ := h₂.boundaries
  cases hl : c₁.lexemes with
  | nil =>
    exact (returns_unclosed h₂.sound (hgoes₂.lexemes_eq.trans hl) h₂.body).mono
      fun x c₃ hrest => hpasses₂.readsRest hrest
  | cons l ls =>
    have hl₂ : c₂.lexemes = l :: ls := hgoes₂.lexemes_eq.trans hl
    simp only [List.head?_cons, Option.map_some]
    by_cases hcloser : l.kind = .closer
    · rw [if_pos hcloser]
      exact (returns_closed h₂.sound hl₂ hcloser h₂.body hb₂ c₁.pos).mono
        fun x c₃ hrest => hpasses₂.readsRest hrest
    rw [if_neg hcloser]
    -- the call for the rest of the sequence, with one more child
    have hmore : ∀ (c₃ : Cursor) (d : Draft) x seen used, used ≠ [] →
        Passes c₂ c₃ used (.sequence s₂)
          (.sequence { s₂ with children := d :: s₂.children, seenDatum := seen }) →
        c₂.arena.storeAll [d] = (c₃.arena, [x]) →
        (Phrase.elements s₂.kind (hs ++ trivia ++ [x]) seen).read.Returns c₃
          (c.ReadsRest a (.sequence s) .datum) := by
      intro c₃ d x seen used hne hpasses₃ hd
      have hpassed := hpasses₂.trans hpasses₃
      have hlt : c₃.lexemes.length < m := hm ▸ hpassed.goes.length_lt (by simp [hne])
      exact (ih _ hlt (h₂.add hpasses₃.goes hd seen) (by omega) rfl).mono
        fun y c₄ hrest => hpassed.readsRest hrest
    by_cases hdot : l.kind = .dot
    · rw [if_pos hdot]
      by_cases hlist : (s₂.kind = .list && s₂.seenDatum) = true
      · rw [if_pos hlist]
        exact (h₂.returns_readTail hS hn₂ hl₂ hdot hlist).mono
          fun y c₃ hrest => hpasses₂.readsRest hrest
      · rw [if_neg hlist]
        refine (returns_next h₂.sound hl₂).bind ?_
        rintro tok c₃ ⟨-, hgoes₃, harena₃⟩
        refine (returns_token hgoes₃.sound l c₁.pos).bind ?_
        rintro x c₄ ⟨hgoes₄, hx⟩
        rw [harena₃] at hx
        refine (returns_branch hgoes₄.sound hx .error (some .malformedDottedPair)).bind ?_
        rintro e c₅ ⟨hgoes₅, he⟩
        have hpasses₅ := ((hgoes₃.trans hgoes₄).trans hgoes₅).passes_dot hl₂ hdot s₂
        rw [Sequence.addDot_of_not_list _ l h₂.tail hlist] at hpasses₅
        exact hmore c₅ _ e _ _ (List.cons_ne_nil _ _) hpasses₅ he
    · rw [if_neg hdot]
      have hdatum : l.beginsDatum = true :=
        begins_of_not_stops (valid_of_mem (mem_lexemes hl)) (hhead₁ l (by simp [hl]))
          (by simp [stops, hcloser, hdot])
      refine (hS.datum c₂ l ls h₂.sound hl₂ hn₂ hdatum).bind fun x c₃ hitem => ?_
      obtain ⟨used₃, d, hne, -, hstored₃, hpasses₃⟩ := hitem.passes_sequence
      have hpassed := hpasses₃ s₂
      rw [Sequence.add_of_none h₂.tail] at hpassed
      exact hmore c₃ d x true used₃ hne hpassed hstored₃

end Cursor

end RacketTree

import RacketTree.Proofs.Tree.Holds
import RacketTree.Tree.Cursor

/-!
# Calls on tokens and records

`Call.Returns` is total correctness of a call: from a cursor it ends without failure, and what it
returns has a property. `Cursor.Goes` says what a call leaves as it was and how far it has gone: the
text, the options, the depth and the expected delimiters are the same, and some lexemes are behind
the cursor. The token that was scanned last is always the token at its offset (`Cursor.Sound`), so
that looking at it instead of scanning anew makes no difference (`returns_peek`).
-/

namespace RacketTree

namespace Call

variable {α β : Type} {c c' : Cursor}

/-- The call ends without failure, and the value and the cursor then have a property. -/
def Returns (x : Call α) (c : Cursor) (q : α → Cursor → Prop) : Prop :=
  ∃ a c', x c = some (.ok a, c') ∧ q a c'

theorem bind_of_ok {x : Call α} (k : α → Call β) {a : α} (h : x c = some (.ok a, c')) :
    (x >>= k) c = k a c' := by
  change (StateT.bind x _) c = _
  simp only [StateT.bind, h]
  rfl

theorem bind_of_error {x : Call α} (k : α → Call β) {e : Failure} (h : x c = some (.error e, c')) :
    (x >>= k) c = some (.error e, c') := by
  change (StateT.bind x _) c = _
  simp only [StateT.bind, h]
  rfl

theorem Returns.bind {x : Call α} {k : α → Call β} {q : α → Cursor → Prop}
    {r : β → Cursor → Prop} (h : x.Returns c q)
    (hk : ∀ a c', q a c' → (k a).Returns c' r) : (x >>= k).Returns c r := by
  obtain ⟨a, c', hx, hq⟩ := h
  obtain ⟨b, c'', hb, hr⟩ := hk a c' hq
  exact ⟨b, c'', by rw [bind_of_ok k hx, hb], hr⟩

theorem Returns.mono {x : Call α} {q r : α → Cursor → Prop} (h : x.Returns c q)
    (hqr : ∀ a c', q a c' → r a c') : x.Returns c r := by
  obtain ⟨a, c', hx, hq⟩ := h
  exact ⟨a, c', hx, hqr a c' hq⟩

theorem returns_pure {a : α} {q : α → Cursor → Prop} (h : q a c) :
    (pure a : Call α).Returns c q :=
  ⟨a, c, rfl, h⟩

theorem returns_get_bind {k : Cursor → Call β} {q : β → Cursor → Prop} (h : (k c).Returns c q) :
    (get >>= k).Returns c q :=
  h

end Call

/-! ## Places -/

namespace Token

/-- The token at an offset of a text, if the offset is not the end. A token that is never terminated
takes the rest of the text. -/
def at? (source : List Char) (pos : Nat) : Option Token :=
  match scan source pos with
  | .ok t => some t
  | .error (.unterminated cause ..) => some ⟨⟨.error, source.drop pos, some cause.fault⟩, pos⟩
  | .error .outside => none

/-- The token at an offset is the first lexeme of the text from there on. -/
theorem scan_cases {source : List Char} {pos : Nat} {l : Lexeme} {ls : List Lexeme}
    (h : lexemes (source.drop pos) = l :: ls) :
    scan source pos = .ok ⟨l, pos⟩ ∨
      ∃ cause, scan source pos = .error (.unterminated cause pos source.length) ∧
        l = ⟨.error, source.drop pos, some cause.fault⟩ := by
  cases hdrop : source.drop pos with
  | nil =>
    rw [hdrop, lexemes] at h
    cases h
  | cons c rest =>
    rw [hdrop] at h
    cases hextent : extent c rest with
    | ok e =>
      rw [lexemes_cons hextent] at h
      cases h
      exact .inl (by simp only [scan, hdrop, hextent])
    | error cause =>
      rw [lexemes_cons_error hextent] at h
      cases h
      exact .inr ⟨cause, by simp only [scan, hdrop, hextent], rfl⟩

theorem at?_eq (source : List Char) (pos : Nat) :
    at? source pos = (lexemes (source.drop pos)).head?.map fun l => ⟨l, pos⟩ := by
  cases hl : lexemes (source.drop pos) with
  | nil =>
    have hdrop : source.drop pos = [] := by
      have htexts := texts_lexemes (source.drop pos)
      rw [hl] at htexts
      exact htexts.symm
    simp only [at?, scan, hdrop]
    rfl
  | cons l ls =>
    rcases scan_cases hl with hscan | ⟨cause, hscan, rfl⟩
    · simp only [at?, hscan]
      rfl
    · simp only [at?, hscan]
      rfl

theorem start_of_at? {source : List Char} {pos : Nat} {t : Token} (h : at? source pos = some t) :
    t.start = pos := by
  rw [at?_eq, Option.map_eq_some_iff] at h
  obtain ⟨l, -, rfl⟩ := h
  rfl

end Token

namespace Cursor

variable {c c' c'' : Cursor} {l : Lexeme} {ls used used' : List Lexeme}

/-- The lexemes from the cursor on. -/
def lexemes (c : Cursor) : List Lexeme :=
  Token.lexemes (c.source.drop c.pos)

/-- The cursor is in its text, and the token that was scanned last is the one at its offset. -/
structure Sound (c : Cursor) : Prop where
  within : c.pos ≤ c.source.length
  peeked : ∀ t, c.peeked = some t → Token.at? c.source t.start = some t

/-- A call from `c` to `c'` has taken some lexemes. -/
structure Goes (c c' : Cursor) (used : List Lexeme) : Prop where
  source : c'.source = c.source
  config : c'.config = c.config
  depth : c'.depth = c.depth
  boundaries : c'.boundaries = c.boundaries
  sound : c'.Sound
  lexemes : c.lexemes = used ++ c'.lexemes
  pos : c'.pos = c.pos + (Lexeme.texts used).length

theorem Goes.trans (h : Goes c c' used) (h' : Goes c' c'' used') : Goes c c'' (used ++ used') where
  source := h'.source.trans h.source
  config := h'.config.trans h.config
  depth := h'.depth.trans h.depth
  boundaries := h'.boundaries.trans h.boundaries
  sound := h'.sound
  lexemes := by rw [h.lexemes, h'.lexemes, List.append_assoc]
  pos := by rw [h'.pos, h.pos, Lexeme.texts_append, List.length_append, Nat.add_assoc]

theorem Goes.lexemes_eq (h : Goes c c' []) : c'.lexemes = c.lexemes :=
  h.lexemes.symm

theorem Goes.lexemes_of_cons (h : Goes c c' [l]) (hl : c.lexemes = l :: ls) : c'.lexemes = ls :=
  (List.cons.inj (h.lexemes.symm.trans hl)).2

theorem Goes.length_le (h : Goes c c' used) : c'.lexemes.length ≤ c.lexemes.length := by
  rw [h.lexemes, List.length_append]
  exact Nat.le_add_left _ _

theorem Goes.length_lt (h : Goes c c' used) (hne : used ≠ []) :
    c'.lexemes.length < c.lexemes.length := by
  have := List.length_pos_of_ne_nil hne
  rw [h.lexemes, List.length_append]
  omega

theorem valid_of_mem (hl : l ∈ c.lexemes) : l.Valid :=
  Token.lexemes_valid _ l hl

theorem Goes.pos_lt (h : Goes c c' used) (hne : used ≠ []) : c.pos < c'.pos := by
  cases used with
  | nil => exact absurd rfl hne
  | cons l used =>
    have hmem : l ∈ c.lexemes := by
      rw [h.lexemes]
      exact List.mem_cons_self
    have hlen := List.length_pos_of_ne_nil (valid_of_mem hmem).nonempty
    rw [h.pos, Lexeme.texts_cons, List.length_append]
    omega

theorem lexemes_eq_nil_iff (h : c.Sound) : c.lexemes = [] ↔ c.pos = c.source.length := by
  have hwithin := h.within
  constructor
  · intro hnil
    have htexts := Token.texts_lexemes (c.source.drop c.pos)
    rw [← lexemes, hnil] at htexts
    have hlen := List.drop_eq_nil_iff.mp htexts.symm
    omega
  · intro hpos
    rw [lexemes, hpos, List.drop_length, Token.lexemes]

theorem atEnd_iff (h : c.Sound) : c.atEnd = true ↔ c.lexemes = [] := by
  have hwithin := h.within
  rw [lexemes_eq_nil_iff h, atEnd, decide_eq_true_eq]
  omega

/-- Changes that do not matter for where the cursor is. -/
theorem Sound.goes (h : c.Sound) (arena : Arena) : Goes c { c with arena } [] :=
  ⟨rfl, rfl, rfl, rfl, ⟨h.within, h.peeked⟩, rfl, rfl⟩

/-! ## Tokens -/

open Call

/-- Looking at the token at the cursor gives the token at its offset and moves nothing. -/
theorem returns_peek (h : c.Sound) :
    peek.Returns c fun t c' =>
      t = c.lexemes.head?.map (fun l => ⟨l, c.pos⟩) ∧ Goes c c' [] ∧ c'.arena = c.arena := by
  have hsame : Goes c c [] := h.goes c.arena
  have hcached : ∀ t, Token.at? c.source c.pos = some t → Goes c { c with peeked := some t } [] := by
    intro t ht
    refine ⟨rfl, rfl, rfl, rfl, ⟨h.within, fun u hu => ?_⟩, rfl, rfl⟩
    cases hu
    rw [Token.start_of_at? ht]
    exact ht
  have hat : Token.at? c.source c.pos = c.lexemes.head?.map (fun l => ⟨l, c.pos⟩) :=
    Token.at?_eq _ _
  refine returns_get_bind ?_
  by_cases hend : c.atEnd = true
  · rw [if_pos hend]
    refine returns_pure ⟨?_, hsame, rfl⟩
    rw [(atEnd_iff h).mp hend]
    rfl
  · rw [if_neg hend]
    -- a token that is kept from before is not scanned again; it is the one at the cursor by `Sound`
    by_cases hpeeked : c.peeked.map Token.start = some c.pos
    · rw [if_pos hpeeked]
      obtain ⟨t, ht, hstart⟩ := Option.map_eq_some_iff.mp hpeeked
      refine returns_pure ⟨?_, hsame, rfl⟩
      rw [ht, ← hat, ← hstart]
      exact (h.peeked t ht).symm
    · rw [if_neg hpeeked]
      cases hl : c.lexemes with
      | nil => exact absurd ((atEnd_iff h).mpr hl) hend
      | cons l ls =>
        rw [hl] at hat
        rcases Token.scan_cases hl with hscan | ⟨cause, hscan, rfl⟩
        · rw [hscan]
          exact ⟨_, _, rfl, rfl, hcached _ hat, rfl⟩
        · rw [hscan]
          exact ⟨_, _, rfl, rfl, hcached _ hat, rfl⟩

theorem returns_peek_nil (h : c.Sound) (hl : c.lexemes = []) :
    peek.Returns c fun t c' => t = none ∧ Goes c c' [] ∧ c'.arena = c.arena := by
  refine (returns_peek h).mono fun t c' hq => ⟨?_, hq.2⟩
  rw [hq.1, hl]
  rfl

theorem returns_peek_cons (h : c.Sound) (hl : c.lexemes = l :: ls) :
    peek.Returns c fun t c' => t = some ⟨l, c.pos⟩ ∧ Goes c c' [] ∧ c'.arena = c.arena := by
  refine (returns_peek h).mono fun t c' hq => ⟨?_, hq.2⟩
  rw [hq.1, hl]
  rfl

theorem goes_stop (h : c.Sound) (hl : c.lexemes = l :: ls) :
    Goes c { c with pos := (⟨l, c.pos⟩ : Token).stop } [l] := by
  obtain ⟨htext, hls⟩ := Token.lexemes_eq_cons hl
  have hdrop : c.source.drop (c.pos + l.text.length) = Lexeme.texts ls := by
    rw [← List.drop_drop, htext, List.drop_left]
  have hlen := congrArg List.length htext
  have hwithin := h.within
  rw [List.length_drop, List.length_append] at hlen
  refine ⟨rfl, rfl, rfl, rfl, ⟨?_, h.peeked⟩, ?_, ?_⟩
  · simp only [Token.stop]
    omega
  · simp only [lexemes, Token.stop, hdrop] at hl ⊢
    rw [hl, ← hls]
    rfl
  · simp [Token.stop]

/-- Taking the token at the cursor. -/
theorem returns_next (h : c.Sound) (hl : c.lexemes = l :: ls) :
    next.Returns c fun t c' => t = ⟨l, c.pos⟩ ∧ Goes c c' [l] ∧ c'.arena = c.arena := by
  refine (returns_peek_cons h hl).bind fun t c₁ ⟨ht, hgoes, harena⟩ => ?_
  subst ht
  have hl₁ : c₁.lexemes = l :: ls := hgoes.lexemes_eq.trans hl
  have hpos : c₁.pos = c.pos := hgoes.pos
  refine ⟨_, _, rfl, rfl, ?_, harena⟩
  have hstop := goes_stop hgoes.sound hl₁
  rw [hpos] at hstop
  exact hgoes.trans hstop

/-! ## Records -/

end Cursor

namespace Arena

variable {a b b' : Arena} {ds ds' : List Draft} {hs hs' : List Handle}

theorem storeAll_cons (a : Arena) (d : Draft) (ds : List Draft) :
    a.storeAll (d :: ds) =
      (((a.store d).1.storeAll ds).1, (a.store d).2 ++ ((a.store d).1.storeAll ds).2) := by
  rw [storeAll]

theorem storeAll_append (h : a.storeAll ds = (b, hs)) (h' : b.storeAll ds' = (b', hs')) :
    a.storeAll (ds ++ ds') = (b', hs ++ hs') := by
  induction ds generalizing a hs with
  | nil =>
    cases h
    exact h'
  | cons d ds ih =>
    rw [storeAll_cons] at h
    obtain ⟨⟨b₁, rest⟩, hrest⟩ : ∃ r, (a.store d).1.storeAll ds = r := ⟨_, rfl⟩
    rw [hrest] at h
    cases h
    rw [List.cons_append, storeAll_cons, ih hrest, List.append_assoc]

theorem storeAll_branch (kind : Kind) (fault : Option Fault) (h : a.storeAll ds = (b, hs)) :
    a.storeAll [.branch kind ds fault] = (b.branch kind hs fault, [b.size]) := by
  simp [storeAll, store, h]

theorem storeAll_leaf (a : Arena) (kind : Kind) (text : List Char) (fault : Option Fault) :
    a.storeAll [.leaf kind text fault] = (a.leaf kind text fault, [a.size]) := by
  simp [storeAll, store]

end Arena

namespace Cursor

open Call

variable {c c' : Cursor} {l : Lexeme} {a : Arena} {ds : List Draft} {hs : List Handle}

/-- A call has added the records of a draft and moved nothing. -/
def Adds (c : Cursor) (d : Draft) (h : Handle) (c' : Cursor) : Prop :=
  Goes c c' [] ∧ c.arena.storeAll [d] = (c'.arena, [h])

theorem returns_leaf (h : c.Sound) (kind : Kind) (text : List Char) (fault : Option Fault) :
    (leaf kind text fault).Returns c (c.Adds (.leaf kind text fault)) :=
  ⟨_, _, rfl, h.goes _, c.arena.storeAll_leaf kind text fault⟩

theorem returns_token (h : c.Sound) (l : Lexeme) (pos : Nat) :
    (token ⟨l, pos⟩).Returns c (c.Adds l.leaf) :=
  returns_leaf h _ _ _

theorem returns_missing (h : c.Sound) : missing.Returns c (c.Adds Draft.missing) :=
  returns_leaf h _ _ _

/-- A branch around the records that have been added to `a` so far. -/
theorem returns_branch (h : c.Sound) (hstored : a.storeAll ds = (c.arena, hs)) (kind : Kind)
    (fault : Option Fault) :
    (branch kind hs fault).Returns c fun h c' =>
      Goes c c' [] ∧ a.storeAll [.branch kind ds fault] = (c'.arena, [h]) :=
  ⟨_, _, rfl, h.goes _, Arena.storeAll_branch kind fault hstored⟩

theorem returns_blockComment (h : c.Sound) (hl : l.Valid) (hk : l.kind = .blockComment) :
    (blockComment l.text).Returns c (c.Adds l.draft) := by
  obtain ⟨body, hbody, hwidth, -⟩ := hl.comment hk
  obtain ⟨inner, hbuild, -⟩ :=
    BlockComment.build_of_blockWidth [] [BlockComment.opening] [] hwidth
  have hdraft : l.draft = .branch .blockComment (inner ++ [BlockComment.closing]) none := by
    rw [Lexeme.draft, if_pos hk, BlockComment.draft, hbody, List.drop_succ_cons,
      List.drop_succ_cons, List.drop_zero, hbuild]
    rfl
  obtain ⟨b, hs⟩ : ∃ b, b = c.arena.storeAll (inner ++ [BlockComment.closing]) := ⟨_, rfl⟩
  have hstored := Arena.storeAll_branch .blockComment none hs.symm
  refine ⟨b.1.size, { c with arena := b.1.branch .blockComment b.2 none }, ?_, h.goes _, ?_⟩
  · have hstore : c.arena.store (.branch .blockComment (inner ++ [BlockComment.closing]) none) =
        (b.1.branch .blockComment b.2 none, [b.1.size]) := by
      rw [Arena.store, ← hs]
    rw [blockComment, hbody, List.drop_succ_cons, List.drop_succ_cons, List.drop_zero, hbuild]
    simp only [Option.bind_eq_bind, Option.bind_some, hstore, Arena.branch, Arena.size_push]
    rfl
  · rw [hdraft]
    exact hstored

theorem returns_tooDeep (h : c.Sound) (hl : c.lexemes = l :: ls) :
    tooDeep.Returns c fun h c' => Goes c c' (l :: ls) ∧
      c.arena.storeAll [Read.tooDeep (l :: ls)] = (c'.arena, [h]) := by
  have htexts : Lexeme.texts (l :: ls) = c.source.drop c.pos := by
    rw [← hl]
    exact Token.texts_lexemes _
  refine ⟨_, _, rfl, ?_, ?_⟩
  · refine ⟨rfl, rfl, rfl, rfl, ⟨Nat.le_refl _, h.peeked⟩, ?_, ?_⟩
    · rw [hl]
      simp [lexemes, Token.lexemes]
    · have hwithin := h.within
      rw [htexts, List.length_drop]
      change c.source.length = _
      omega
  · rw [Read.tooDeep, ← Lexeme.texts, htexts]
    exact c.arena.storeAll_leaf _ _ _

end Cursor

end RacketTree

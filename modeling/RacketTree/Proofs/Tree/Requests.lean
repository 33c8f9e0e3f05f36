import RacketTree.Proofs.Tree.Reading
import RacketTree.Tree.Basic

/-!
# Requests

A cursor is used by one request after the other: it is moved, asked for the token in front of it, or
made to read something. `Ready` is the state between two requests, in which nothing is open.

`Ready.answers` says what one request does from there: it is answered, `Obeys` holds of the answer,
and the cursor is ready for the next request, also when the request has failed. It follows by
induction that this is so after every sequence of requests (`run_obeys`), however the requests move
about in the text, read parts of it again or fail.
-/

namespace RacketTree

theorem Read.exists_of_datumError? {pos : Nat} {ls : List Lexeme}
    (h : datumError? pos ls = none) : ∃ l rest, ls = l :: rest ∧ l.beginsDatum = true := by
  cases ls with
  | nil => cases h
  | cons l rest =>
    refine ⟨l, rest, rfl, ?_⟩
    rw [datumError?] at h
    split at h
    · cases h
    · split at h
      · assumption
      · cases h

namespace Cursor

open Call
open Read (stops)

/-- What can be asked of a cursor. -/
inductive Request where
  | seek (pos : Nat)
  | peek
  | next
  | trivia
  | triviaItem
  | datum
  | topLevel
  | source
  deriving DecidableEq, Repr

/-- What a cursor answers. -/
inductive Reply where
  | moved
  | token (t : Option Token)
  | records (hs : List Handle)
  deriving DecidableEq, Repr

namespace Request

/-- The call that a request stands for. -/
def call : Request → Call Reply
  | seek pos => do
    Cursor.seek pos
    return .moved
  | peek => do
    let t ← Cursor.peek
    return .token t
  | next => do
    let t ← Cursor.next
    return .token (some t)
  | trivia => do
    let hs ← readTrivia
    return .records hs
  | triviaItem => do
    let h ← readTriviaItem
    return .records [h]
  | datum => do
    let h ← readDatum
    return .records [h]
  | topLevel => do
    let h ← readTopLevel
    return .records [h]
  | source => do
    let h ← readSource
    return .records [h]

/-- The request does not leave the text. -/
def Within (source : List Char) : Request → Prop
  | seek pos => pos ≤ source.length
  | _ => True

/-- The request takes tokens. -/
def takes : Request → Bool
  | next | triviaItem | datum | topLevel => true
  | _ => false

/-- The request fails where this is the token at the cursor. -/
def Refused (t : Option Token) : Request → Prop
  | next | triviaItem | topLevel => t = none
  | datum =>
    t = none ∨ ∃ u, t = some u ∧ (u.kind = .dot ∨ u.kind = .closer ∨ u.isTrivia = true)
  | _ => False

end Request

/-- What holds when a request from `c` has been answered, with or without failure. -/
structure Obeys (c : Cursor) (r : Request) (reply : Except Failure Reply) (c' : Cursor) : Prop where
  depth : c'.depth = 0
  boundaries : c'.boundaries = []
  advances : r.takes = true → ∀ x, reply = .ok x → c.pos < c'.pos ∧ c'.pos ≤ c.source.length
  peek : r = .peek → reply = .ok (.token (Token.at? c.source c.pos))
  fails : (∃ e, reply = .error e) ↔ r.Refused (Token.at? c.source c.pos)
  unchanged : ∀ e, reply = .error e →
    c'.pos = c.pos ∧ c'.depth = c.depth ∧ c'.boundaries = c.boundaries ∧ c'.arena = c.arena

/-- The cursor after some requests; a request that fails does not keep the others from being
made. -/
def run (c : Cursor) : List Request → Option Cursor
  | [] => some c
  | r :: rs => do
    let (_, c) ← r.call c
    c.run rs

/-- A cursor in a text between two requests. -/
structure Ready (config : Config) (source : List Char) (c : Cursor) : Prop where
  config : c.config = config
  source : c.source = source
  depth : c.depth = 0
  boundaries : c.boundaries = []
  sound : c.Sound

variable {α : Type} {c c' : Cursor} {config : Config} {source : List Char} {r : Request}
  {used : List Lexeme}

/-! ## Failures -/

theorem at?_eq_none_iff : Token.at? c.source c.pos = none ↔ c.lexemes = [] := by
  rw [Token.at?_eq, Option.map_eq_none_iff, List.head?_eq_none_iff]
  rfl

theorem at?_eq_some {l : Lexeme} {ls : List Lexeme} (hl : c.lexemes = l :: ls) :
    Token.at? c.source c.pos = some ⟨l, c.pos⟩ := by
  rw [Token.at?_eq, ← lexemes, hl]
  rfl

/-- A call that needs a token fails at the end of the text. -/
theorem fails_of_nil {x : Call α} {k : Option Token → Call α} (hx : x = peek >>= k)
    (hk : k none = throw .noToken) (h : c.Sound) (hl : c.lexemes = []) :
    ∃ c', x c = some (.error .noToken, c') ∧ Goes c c' [] ∧ c'.arena = c.arena := by
  obtain ⟨t, c', hpeek, rfl, hgoes, harena⟩ := returns_peek_nil h hl
  refine ⟨c', ?_, hgoes, harena⟩
  rw [hx, bind_of_ok _ hpeek, hk]
  rfl

theorem refused_datum_iff :
    Request.datum.Refused (Token.at? c.source c.pos) ↔
      ∀ l ∈ c.lexemes.head?, l.beginsDatum = false := by
  cases hl : c.lexemes with
  | nil =>
    rw [at?_eq_none_iff.mpr hl]
    simp [Request.Refused]
  | cons l ls =>
    rw [at?_eq_some hl]
    have hvalid := valid_of_mem (mem_lexemes hl)
    simp only [Request.Refused, reduceCtorEq, false_or, Option.some.injEq, exists_eq_left',
      List.head?_cons, Option.mem_def, forall_eq']
    constructor
    · intro hrefused
      unfold Lexeme.beginsDatum
      rcases hrefused with hk | hk | hk
      · simp [hk, Kind.isAtom]
      · simp [hk, Kind.isAtom]
      · unfold Lexeme.isTrivia at hk
        cases hkind : l.kind <;> simp_all [Kind.isAtom]
    · intro hno
      by_contra hother
      simp only [not_or] at hother
      have hstops : stops l = false := by simp [stops, hother.1, hother.2.1]
      have := begins_of_not_stops hvalid (Bool.eq_false_iff.mpr hother.2.2) hstops
      rw [hno] at this
      cases this

/-- The call for a datum fails as the stack reader does, before it has changed anything. -/
theorem readDatum_of_error (h : c.Sound) {e : ReadError}
    (he : Read.datumError? c.pos c.lexemes = some e) :
    ∃ c', readDatum c = some (.error (.refused e), c') ∧ Goes c c' [] ∧ c'.arena = c.arena := by
  obtain ⟨t, c', hpeek, rfl, hgoes, harena⟩ := returns_peek h
  refine ⟨c', ?_, hgoes, harena⟩
  rw [readDatum, Phrase.read, bind_of_ok _ hpeek]
  cases hl : c.lexemes with
  | nil =>
    rw [hl] at he
    cases he
    have hpos : c'.pos = c.pos := hgoes.pos
    rw [← hpos]
    rfl
  | cons l ls =>
    rw [hl, Read.datumError?] at he
    split at he
    · rename_i hdot
      cases he
      simp only [List.head?_cons, Option.map_some, if_pos hdot]
      rfl
    · rename_i hdot
      split at he
      · cases he
      · rename_i hno
        cases he
        simp only [List.head?_cons, Option.map_some, if_neg hdot, if_neg hno]
        rfl

/-- Where no datum begins, the call for one fails. -/
theorem readDatum_of_not_begins (h : c.Sound)
    (hhead : ∀ l ∈ c.lexemes.head?, l.beginsDatum = false) :
    ∃ e c', readDatum c = some (.error (.refused e), c') ∧ Goes c c' [] ∧ c'.arena = c.arena := by
  cases he : Read.datumError? c.pos c.lexemes with
  | some e => exact ⟨e, readDatum_of_error h he⟩
  | none =>
    obtain ⟨l, ls, hl, hdatum⟩ := Read.exists_of_datumError? he
    rw [hhead l (by rw [hl]; rfl)] at hdatum
    cases hdatum

/-! ## One request -/

theorem Ready.of_goes (h : Ready config source c) (hgoes : Goes c c' used) :
    Ready config source c' where
  config := hgoes.config.trans h.config
  source := hgoes.source.trans h.source
  depth := hgoes.depth.trans h.depth
  boundaries := hgoes.boundaries.trans h.boundaries
  sound := hgoes.sound

/-- The request is answered and leaves the cursor ready. -/
def Answers (config : Config) (source : List Char) (c : Cursor) (r : Request) : Prop :=
  ∃ reply c', r.call c = some (reply, c') ∧ Ready config source c' ∧ c.Obeys r reply c'

theorem Ready.answers_of_returns (h : Ready config source c) {x : Call α} {f : α → Reply}
    (hcall : r.call = x >>= fun a => pure (f a)) (hpeek : r ≠ .peek)
    (hrefused : ¬r.Refused (Token.at? c.source c.pos))
    (hx : x.Returns c fun _ c' => ∃ used, Goes c c' used ∧ (r.takes = true → used ≠ [])) :
    Answers config source c r := by
  obtain ⟨a, c', hok, used, hgoes, hne⟩ := hx
  have hready := h.of_goes hgoes
  refine ⟨.ok (f a), c', by rw [hcall, bind_of_ok _ hok]; rfl, hready, ?_⟩
  refine ⟨hready.depth, hready.boundaries, ?_, fun hp => absurd hp hpeek, ?_, ?_⟩
  · intro htakes _ _
    rw [h.source, ← hready.source]
    exact ⟨hgoes.pos_lt (hne htakes), hready.sound.within⟩
  · exact iff_of_false (by simp) hrefused
  · intro e he
    cases he

theorem Ready.answers_of_fails (h : Ready config source c) {x : Call α} {f : α → Reply}
    (hcall : r.call = x >>= fun a => pure (f a)) (hpeek : r ≠ .peek)
    (hrefused : r.Refused (Token.at? c.source c.pos)) {e : Failure}
    (hx : ∃ c', x c = some (.error e, c') ∧ Goes c c' [] ∧ c'.arena = c.arena) :
    Answers config source c r := by
  obtain ⟨c', herror, hgoes, harena⟩ := hx
  have hready := h.of_goes hgoes
  refine ⟨.error e, c', by rw [hcall, bind_of_error _ herror], hready, ?_⟩
  refine ⟨hready.depth, hready.boundaries, ?_, fun hp => absurd hp hpeek, ?_, ?_⟩
  · intro _ x hx
    cases hx
  · exact iff_of_true ⟨e, rfl⟩ hrefused
  · intro _ _
    exact ⟨hgoes.pos, hgoes.depth, hgoes.boundaries, harena⟩

theorem Ready.answers_seek (h : Ready config source c) {pos : Nat} (hpos : pos ≤ source.length) :
    Answers config source c (.seek pos) := by
  have hready : Ready config source { c with pos } :=
    ⟨h.config, h.source, h.depth, h.boundaries, ⟨h.source ▸ hpos, h.sound.peeked⟩⟩
  refine ⟨.ok .moved, { c with pos }, rfl, hready, h.depth, h.boundaries, ?_, nofun, ?_, nofun⟩
  · intro htakes
    cases htakes
  · exact iff_of_false (by simp) (by simp [Request.Refused])

theorem Ready.answers_peek (h : Ready config source c) : Answers config source c .peek := by
  obtain ⟨t, c', hok, ht, hgoes, -⟩ := returns_peek h.sound
  have hready := h.of_goes hgoes
  have hat : t = Token.at? c.source c.pos := ht.trans (Token.at?_eq _ _).symm
  refine ⟨.ok (.token t), c', ?_, hready, hready.depth, hready.boundaries, ?_, ?_, ?_, nofun⟩
  · rw [Request.call, bind_of_ok _ hok]
    rfl
  · intro htakes
    cases htakes
  · rw [hat]
    exact fun _ => rfl
  · exact iff_of_false (by simp) (by simp [Request.Refused])

/-- A request that needs a token and no more. -/
theorem Ready.answers_of_token (h : Ready config source c) {x : Call α} {f : α → Reply}
    {k : Option Token → Call α} (hcall : r.call = x >>= fun a => pure (f a)) (hpeek : r ≠ .peek)
    (hrefused : ∀ t, r.Refused t ↔ t = none) (hx : x = peek >>= k) (hk : k none = throw .noToken)
    (hreturns : ∀ l ls, c.lexemes = l :: ls →
      x.Returns c fun _ c' => ∃ used, Goes c c' used ∧ used ≠ []) :
    Answers config source c r := by
  cases hl : c.lexemes with
  | nil =>
    exact h.answers_of_fails hcall hpeek ((hrefused _).mpr (at?_eq_none_iff.mpr hl))
      (fails_of_nil hx hk h.sound hl)
  | cons l ls =>
    refine h.answers_of_returns hcall hpeek ?_ ((hreturns l ls hl).mono
      fun _ _ ⟨used, hgoes, hne⟩ => ⟨used, hgoes, fun _ => hne⟩)
    rw [hrefused, at?_eq_some hl]
    nofun

/-- Every request that does not leave the text is answered. -/
theorem Ready.answers (h : Ready config source c) (hr : r.Within source) :
    Answers config source c r := by
  cases r with
  | seek pos => exact h.answers_seek hr
  | peek => exact h.answers_peek
  | next =>
    refine h.answers_of_token rfl (by simp) (fun t => Iff.rfl) rfl rfl fun l ls hl => ?_
    exact (returns_next h.sound hl).mono fun t c' hnext =>
      ⟨[l], hnext.2.1, List.cons_ne_nil _ _⟩
  | trivia =>
    refine h.answers_of_returns rfl (by simp) id ?_
    refine ((specs _).trivia c h.sound (Nat.le_refl _)).mono fun hs c' htrivia => ?_
    obtain ⟨used, -, hgoes, -⟩ := htrivia
    exact ⟨used, hgoes, by simp [Request.takes]⟩
  | triviaItem =>
    refine h.answers_of_token rfl (by simp) (fun t => Iff.rfl) (Phrase.read.eq_def _) rfl
      fun l ls hl => ?_
    -- every other token is taken by itself, also one that is not trivia
    by_cases hmark : l.kind = .datumCommentMark
    · have htrivia : l.isTrivia = true := by simp [Lexeme.isTrivia, hmark]
      refine (returns_readTriviaItem (specs _) h.sound hl (Nat.le_refl _) htrivia).mono
        fun x c' hitem => ?_
      obtain ⟨used, -, hgoes, hne, -⟩ := hitem
      exact ⟨used, hgoes, hne⟩
    · exact (returns_readTriviaItem_lone h.sound hl hmark).mono fun x c' hlone =>
        ⟨[l], hlone.1, List.cons_ne_nil _ _⟩
  | datum =>
    by_cases hhead : ∀ l ∈ c.lexemes.head?, l.beginsDatum = false
    · obtain ⟨e, c', hfails⟩ := readDatum_of_not_begins h.sound hhead
      exact h.answers_of_fails rfl (by simp) (refused_datum_iff.mpr hhead) ⟨c', hfails⟩
    · obtain ⟨l, ls, hl, hdatum⟩ : ∃ l ls, c.lexemes = l :: ls ∧ l.beginsDatum = true := by
        cases hl : c.lexemes with
        | nil => exact absurd (by simp [hl]) hhead
        | cons l ls => exact ⟨l, ls, rfl, by simpa [hl] using hhead⟩
      refine h.answers_of_returns rfl (by simp) (refused_datum_iff.not.mpr hhead) ?_
      refine (returns_readDatum (specs _) h.sound hl (Nat.le_refl _) hdatum).mono
        fun x c' hitem => ?_
      obtain ⟨used, -, hgoes, hne, -⟩ := hitem
      exact ⟨used, hgoes, fun _ => hne⟩
  | topLevel =>
    refine h.answers_of_token rfl (by simp) (fun t => Iff.rfl) (Phrase.read.eq_def _) rfl
      fun l ls hl => ?_
    refine (returns_readTopLevel h.sound hl).mono fun x c' htop => ?_
    obtain ⟨used, -, hgoes, hne, -⟩ := htop
    exact ⟨used, hgoes, hne⟩
  | source =>
    refine h.answers_of_returns rfl (by simp) id ?_
    refine (returns_readSource h.sound).mono fun x c' hsource => ?_
    obtain ⟨used, hgoes, -⟩ := hsource
    exact ⟨used, hgoes, by simp [Request.takes]⟩

/-! ## All requests -/

theorem Ready.run (h : Ready config source c) {rs : List Request}
    (hrs : ∀ r ∈ rs, r.Within source) : ∃ c', c.run rs = some c' ∧ Ready config source c' := by
  induction rs generalizing c with
  | nil => exact ⟨c, rfl, h⟩
  | cons r rs ih =>
    obtain ⟨reply, c₁, hcall, hready, -⟩ := h.answers (hrs r List.mem_cons_self)
    obtain ⟨c', hrun, hready'⟩ := ih hready fun r hr => hrs r (List.mem_cons_of_mem _ hr)
    refine ⟨c', ?_, hready'⟩
    rw [Cursor.run, hcall]
    exact hrun

theorem ready_start (a : Arena) (config : Config) (source : List Char) :
    Ready config source (start a config source) :=
  ⟨rfl, rfl, rfl, rfl, ⟨Nat.zero_le _, nofun⟩⟩

/-- From the front of a text the records are those that `parseInto` adds. -/
theorem readSource_start (a : Arena) (config : Config) (source : List Char) :
    ∃ c, readSource (start a config source) = some (.ok (parseInto a config source).2.root, c) ∧
      c.arena = (parseInto a config source).1 := by
  obtain ⟨x, c, hok, -, -, -, hstored⟩ := returns_readSource (ready_start a config source).sound
  rw [Arena.storeAll_branch .source none (Prod.eta _).symm] at hstored
  obtain ⟨harena, hx⟩ := Prod.mk.inj hstored
  have hroot : x = (parseInto a config source).2.root := (List.cons.inj hx).1.symm
  exact ⟨c, hroot ▸ hok, harena.symm⟩

/-- Reading a text from its front returns the tree of `parseInto`. Whatever has been asked of a
cursor in the text, nothing is open afterwards, and the next request is answered and obeys. -/
theorem run_obeys (a : Arena) (config : Config) (source : List Char) (rs : List Request)
    (hrs : ∀ r ∈ rs, r.Within source) :
    (∃ c, readSource (start a config source) = some (.ok (parseInto a config source).2.root, c) ∧
      c.arena = (parseInto a config source).1) ∧
    ∃ c, run (start a config source) rs = some c ∧ c.config = config ∧ c.source = source ∧
      c.pos ≤ source.length ∧ c.depth = 0 ∧ c.boundaries = [] ∧
      ∀ r, r.Within source → ∃ reply c', r.call c = some (reply, c') ∧ c.Obeys r reply c' := by
  refine ⟨readSource_start a config source, ?_⟩
  obtain ⟨c, hrun, hready⟩ := (ready_start a config source).run hrs
  refine ⟨c, hrun, hready.config, hready.source, hready.source ▸ hready.sound.within, hready.depth,
    hready.boundaries, fun r hr => ?_⟩
  obtain ⟨reply, c', hcall, -, hobeys⟩ := hready.answers hr
  exact ⟨reply, c', hcall, hobeys⟩

/-- A quote that a closer follows. The first request reads the quote as an error and stops at the
closer, where the second one fails. -/
theorem run_obeys_quote :
    let source := ['\x27', ')']
    let rs := [Request.datum, .datum, .peek, .seek 0, .topLevel]
    (∀ r ∈ rs, r.Within source) ∧
      ∃ c, run (start Arena.empty .default source) rs = some c ∧ c.depth = 0 ∧ c.boundaries = [] ∧
        ∃ reply c', Request.source.call c = some (reply, c') ∧ c.Obeys .source reply c' := by
  intro source rs
  have hrs : ∀ r ∈ rs, r.Within source := by simp [rs, Request.Within]
  obtain ⟨-, c, hrun, -, -, -, hdepth, hboundaries, hnext⟩ :=
    run_obeys Arena.empty .default source rs hrs
  exact ⟨hrs, c, hrun, hdepth, hboundaries, hnext .source trivial⟩

end Cursor

end RacketTree

import RacketTree.Proofs.Tree.Fault

/-!
# The grammar

`Derives` is the grammar of source texts over lexemes. An item is trivia or a datum, and what it may
be depends on the number `d` of compounds around it:

* trivia is whitespace, a comment, or the mark of a datum comment with its datum;
* a datum is an atom, a mark with its datum, or a sequence between delimiters;
* trivia may stand between a mark or a dot and the datum;
* a list with at least one datum may have a tail, which is one dot with its datum, or two of them if
  the options allow it.

An open construct is the front of a compound. `Opens` says which lexemes lead to a stage, and
`StackOpens` does so for the constructs on a stack.
-/

namespace RacketTree.Grammar

/-- What a lexeme is that waits for a datum. -/
def markRole? : Kind → Option Role
  | .datumCommentMark => some .trivia
  | .prefixMark | .graphLabel => some .datum
  | _ => none

/-- The opening delimiters of lists. -/
def IsListOpener (text : List Char) : Prop :=
  text = ['('] ∨ text = ['['] ∨ text = ['\x7b']

/-- The closing delimiter is the counterpart of the last character of the opening one. -/
def Pairs (opener closer : List Char) : Prop :=
  ∃ b c, opener.getLast? = some b ∧ closer = [c] ∧
    (b, c) ∈ [('(', ')'), ('[', ']'), ('\x7b', '\x7d')]

/-- What lexemes are derived from. -/
inductive Symbol where
  | item (role : Role) (d : Nat)
  /-- Items one after the other; `seen` if a datum is among them, so that `false` stands for trivia
  only. -/
  | items (d : Nat) (seen : Bool)
  /-- Dots, each with its datum and trivia around it. -/
  | tail (d dots : Nat)

/-- The derivations of the grammar. -/
inductive Derives (config : Config) : Symbol → List Lexeme → Prop
  | blank {d : Nat} {l : Lexeme}
      (h : l.kind = .whitespace ∨ l.kind = .lineComment ∨ l.kind = .blockComment) :
      Derives config (.item .trivia d) [l]
  | atom {d : Nat} {l : Lexeme} (h : l.kind.isAtom = true) : Derives config (.item .datum d) [l]
  | marked {role : Role} {d : Nat} {mark : Lexeme} {gap datum : List Lexeme}
      (hmark : markRole? mark.kind = some role) (hd : d < config.maxDepth)
      (hgap : Derives config (.items (d + 1) false) gap)
      (hdatum : Derives config (.item .datum (d + 1)) datum) :
      Derives config (.item role d) (mark :: (gap ++ datum))
  | sequence {d dots : Nat} {seen : Bool} {opener closer : Lexeme} {body tail : List Lexeme}
      (hopener : opener.kind = .opener) (hcloser : closer.kind = .closer)
      (hd : d < config.maxDepth) (hbody : Derives config (.items (d + 1) seen) body)
      (htail : Derives config (.tail (d + 1) dots) tail)
      (hdots : dots = 0 ∨ IsListOpener opener.text ∧ seen = true ∧
        (dots = 1 ∨ dots = 2 ∧ config.infixDots = true))
      (hpairs : config.strictDelimiters = true → Pairs opener.text closer.text) :
      Derives config (.item .datum d) (opener :: (body ++ tail ++ [closer]))
  | nil {d : Nat} : Derives config (.items d false) []
  | snoc {d : Nat} {seen : Bool} {role : Role} {body item : List Lexeme}
      (hbody : Derives config (.items d seen) body) (hitem : Derives config (.item role d) item) :
      Derives config (.items d (seen || role == .datum)) (body ++ item)
  | noTail {d : Nat} : Derives config (.tail d 0) []
  | dotted {d dots : Nat} {dot : Lexeme} {tail gap datum after : List Lexeme}
      (htail : Derives config (.tail d dots) tail) (hdot : dot.kind = .dot)
      (hgap : Derives config (.items d false) gap) (hdatum : Derives config (.item .datum d) datum)
      (hafter : Derives config (.items d false) after) :
      Derives config (.tail d (dots + 1)) (tail ++ dot :: (gap ++ datum ++ after))

/-- The lexemes of a whole source text. -/
def IsSource (config : Config) (ls : List Lexeme) : Prop :=
  ∃ seen, Derives config (.items 0 seen) ls

variable {config : Config} {outer d : Nat}

theorem Derives.add_trivia {seen : Bool} {body item : List Lexeme}
    (hbody : Derives config (.items d seen) body) (hitem : Derives config (.item .trivia d) item) :
    Derives config (.items d seen) (body ++ item) := by
  have h := Derives.snoc hbody hitem
  rwa [show (seen || Role.trivia == Role.datum) = seen from Bool.or_false seen] at h

theorem Derives.add_datum {seen : Bool} {body item : List Lexeme}
    (hbody : Derives config (.items d seen) body) (hitem : Derives config (.item .datum d) item) :
    Derives config (.items d true) (body ++ item) := by
  have h := Derives.snoc hbody hitem
  rwa [show (seen || Role.datum == Role.datum) = true from Bool.or_true seen] at h

theorem isListOpener_iff {text : List Char} : IsListOpener text ↔ Kind.ofOpener text = .list := by
  unfold IsListOpener Kind.ofOpener
  split
  · rename_i h
    simpa [or_assoc] using h
  · rename_i h
    refine iff_of_false (by simpa [or_assoc] using h) ?_
    repeat' split
    all_goals nofun

theorem pairs_iff {s : Sequence} {closer : List Char}
    (h : ∃ c, s.opener.getLast? = some c ∧ Token.isOpenBracket c = true) :
    Pairs s.opener closer ↔ closer = [s.counterpart] := by
  obtain ⟨c, hlast, hc⟩ := h
  have hbracket : c = '(' ∨ c = '[' ∨ c = '\x7b' := by
    simpa [Token.isOpenBracket, or_assoc] using hc
  unfold Pairs Sequence.counterpart
  rcases hbracket with rfl | rfl | rfl <;> simp [hlast]

theorem dots_iff {dots : Nat} :
    dots ≤ config.maxDots ↔ dots = 0 ∨ dots = 1 ∨ dots = 2 ∧ config.infixDots = true := by
  unfold Config.maxDots
  split <;> simp_all <;> omega

/-! ## Fronts of compounds -/

/-- Lexemes after which a construct with `d` compounds around it is at a stage. -/
inductive Opens (config : Config) (d : Nat) : Stage → List Lexeme → Prop
  | mark {role : Role} {mark : Lexeme} {gap : List Lexeme} (hmark : markRole? mark.kind = some role)
      (hgap : Derives config (.items (d + 1) false) gap) : Opens config d (.mark role) (mark :: gap)
  | items {seen : Bool} {opener : Lexeme} {body : List Lexeme} (hopener : opener.kind = .opener)
      (hbody : Derives config (.items (d + 1) seen) body) :
      Opens config d (.items opener.text seen) (opener :: body)
  | awaiting {dots : Nat} {opener dot : Lexeme} {body tail gap : List Lexeme}
      (hopener : opener.kind = .opener) (hlist : IsListOpener opener.text)
      (hdots : dots + 1 ≤ config.maxDots) (hbody : Derives config (.items (d + 1) true) body)
      (htail : Derives config (.tail (d + 1) dots) tail) (hdot : dot.kind = .dot)
      (hgap : Derives config (.items (d + 1) false) gap) :
      Opens config d (.tail opener.text (dots + 1) true) (opener :: (body ++ tail ++ dot :: gap))
  | tail {dots : Nat} {opener : Lexeme} {body tail : List Lexeme} (hopener : opener.kind = .opener)
      (hlist : IsListOpener opener.text) (hdots : dots + 1 ≤ config.maxDots)
      (hbody : Derives config (.items (d + 1) true) body)
      (htail : Derives config (.tail (d + 1) (dots + 1)) tail) :
      Opens config d (.tail opener.text (dots + 1) false) (opener :: (body ++ tail))

namespace Opens

variable {stage : Stage} {ls item : List Lexeme}

theorem add_trivia (h : Opens config d stage ls)
    (hitem : Derives config (.item .trivia (d + 1)) item) :
    Opens config d stage (ls ++ item) := by
  cases h with
  | mark hmark hgap => exact .mark hmark (hgap.add_trivia hitem)
  | items hopener hbody => exact .items hopener (hbody.add_trivia hitem)
  | awaiting hopener hlist hdots hbody htail hdot hgap =>
    have h := Opens.awaiting hopener hlist hdots hbody htail hdot (hgap.add_trivia hitem)
    simpa using h
  | @tail _ opener body _ hopener hlist hdots hbody htail =>
    -- the item is one more behind the datum of the last dot
    cases htail with
    | dotted htail hdot hgap hdatum hafter =>
      have h := Opens.tail hopener hlist hdots hbody
        (.dotted htail hdot hgap hdatum (hafter.add_trivia hitem))
      simpa using h

theorem add_datum (h : Opens config d stage ls)
    (hitem : Derives config (.item .datum (d + 1)) item) (htakes : stage.takes .datum = true)
    (hmark : stage.isMark = false) : Opens config d (stage.add .datum) (ls ++ item) := by
  cases h with
  | mark => cases hmark
  | items hopener hbody => exact .items hopener (hbody.add_datum hitem)
  | awaiting hopener hlist hdots hbody htail hdot hgap =>
    have h := Opens.tail hopener hlist hdots hbody (.dotted htail hdot hgap hitem .nil)
    simpa [Stage.add] using h
  | tail => cases htakes

theorem add_dot {dot : Lexeme} (h : Opens config d stage ls) (hdot : dot.kind = .dot)
    (htakes : stage.takesDot config = true) : Opens config d stage.addDot (ls ++ [dot]) := by
  cases h with
  | mark | awaiting => cases htakes
  | @items seen opener body hopener hbody =>
    simp only [Stage.takesDot, Bool.and_eq_true, decide_eq_true_eq] at htakes
    obtain ⟨hlist, rfl⟩ := htakes
    have hmax : 0 + 1 ≤ config.maxDots := dots_iff.mpr (by simp)
    have h := Opens.awaiting hopener (isListOpener_iff.mpr hlist) hmax hbody .noTail hdot .nil
    simpa [Stage.addDot] using h
  | tail hopener hlist hdots hbody htail =>
    have hmax := of_decide_eq_true htakes
    have h := Opens.awaiting hopener hlist hmax hbody htail hdot .nil
    simpa [Stage.addDot] using h

theorem complete {role : Role} (h : Opens config d (.mark role) ls) (hd : d < config.maxDepth)
    (hitem : Derives config (.item .datum (d + 1)) item) :
    Derives config (.item role d) (ls ++ item) := by
  cases h with
  | mark hmark hgap => exact .marked hmark hd hgap hitem

theorem close {closer : Lexeme} (h : Opens config d stage ls) (hd : d < config.maxDepth)
    (hmark : stage.isMark = false) (hawaiting : stage.isAwaiting = false)
    (hcloser : closer.kind = .closer)
    (hpairs : config.strictDelimiters = true → Pairs stage.opener closer.text) :
    Derives config (.item .datum d) (ls ++ [closer]) := by
  cases h with
  | mark => cases hmark
  | items hopener hbody =>
    have h := Derives.sequence hopener hcloser hd hbody .noTail (.inl rfl) hpairs
    simpa using h
  | awaiting => cases hawaiting
  | tail hopener hlist hdots hbody htail =>
    have hcount := (dots_iff.mp hdots).resolve_left (Nat.succ_ne_zero _)
    exact .sequence hopener hcloser hd hbody htail (.inr ⟨hlist, rfl, hcount⟩) hpairs

theorem opener_mem (h : Opens config d stage ls) (hmark : stage.isMark = false) :
    ∃ l ∈ ls, l.kind = .opener ∧ l.text = stage.opener := by
  cases h with
  | mark => cases hmark
  | items hopener | awaiting hopener | tail hopener =>
    exact ⟨_, List.mem_cons_self, hopener, rfl⟩

end Opens

/-- Lexemes after which the constructs on a stack are open. -/
inductive StackOpens (config : Config) (outer : Nat) : List Frame → List Lexeme → Prop
  | nil : StackOpens config outer [] []
  | cons {frame : Frame} {rest : List Frame} {before ls : List Lexeme}
      (hd : outer + rest.length < config.maxDepth) (hrest : StackOpens config outer rest before)
      (h : Opens config (outer + rest.length) frame.stage ls) :
      StackOpens config outer (frame :: rest) (before ++ ls)

/-- Lexemes after which an item has been handed on. -/
def Derived (config : Config) (outer : Nat) : Read.Delivered → List Lexeme → Prop
  | .item _, ls => ∃ role, Derives config (.item role outer) ls
  | .inside top rest, ls => StackOpens config outer (top :: rest) ls

/-! ## Constructs that are opened -/

theorem role_ofPrefix (text : List Char) (children : List Draft) :
    Wrapper.role ⟨Kind.ofPrefix text, children⟩ = .datum := by
  unfold Wrapper.role Kind.ofPrefix
  refine if_neg ?_
  dsimp only
  split <;> nofun

theorem stage_ofLexeme? {l : Lexeme} {frame : Frame} (h : Frame.ofLexeme? l = some frame) :
    l.kind = .opener ∧ frame.stage = .items l.text false ∨
      ∃ role, markRole? l.kind = some role ∧ frame.stage = .mark role := by
  unfold Frame.ofLexeme? at h
  split at h <;> cases h
  · rename_i hk
    exact .inl ⟨hk, rfl⟩
  · rename_i hk
    exact .inr ⟨.datum, by rw [hk]; rfl, congrArg Stage.mark (role_ofPrefix _ _)⟩
  · rename_i hk
    exact .inr ⟨.datum, by rw [hk]; rfl, rfl⟩
  · rename_i hk
    exact .inr ⟨.trivia, by rw [hk]; rfl, rfl⟩

theorem exists_mark {l : Lexeme} {role : Role} (h : markRole? l.kind = some role) :
    ∃ frame, Frame.ofLexeme? l = some frame ∧ frame.stage = .mark role := by
  have hkind : l.kind = .datumCommentMark ∨ l.kind = .prefixMark ∨ l.kind = .graphLabel := by
    unfold markRole? at h
    split at h <;> simp_all
  obtain ⟨frame, hframe⟩ : ∃ frame, Frame.ofLexeme? l = some frame := by
    rcases hkind with hk | hk | hk <;> exact ⟨_, by rw [Frame.ofLexeme?, hk]⟩
  rcases stage_ofLexeme? hframe with ⟨hk, -⟩ | ⟨role', hmark, hstage⟩
  · rw [hk] at h
    cases h
  · rw [h] at hmark
    cases hmark
    exact ⟨frame, hframe, hstage⟩

theorem opens_ofLexeme? {l : Lexeme} {frame : Frame} (h : Frame.ofLexeme? l = some frame) :
    Opens config d frame.stage [l] := by
  rcases stage_ofLexeme? h with ⟨hk, hstage⟩ | ⟨role, hmark, hstage⟩ <;> rw [hstage]
  · exact .items hk .nil
  · exact .mark hmark .nil

theorem lone_of_atom {l : Lexeme} (h : l.kind.isAtom = true) :
    Read.stops l = false ∧ Frame.ofLexeme? l = none ∧ l.role = .datum := by
  unfold Read.stops Frame.ofLexeme? Lexeme.role Lexeme.isTrivia
  cases hk : l.kind <;> simp_all [Kind.isAtom]

theorem lone_of_blank {l : Lexeme}
    (h : l.kind = .whitespace ∨ l.kind = .lineComment ∨ l.kind = .blockComment) :
    Read.stops l = false ∧ Frame.ofLexeme? l = none ∧ l.role = .trivia := by
  rcases h with hk | hk | hk <;>
    simp [Read.stops, Frame.ofLexeme?, Lexeme.role, Lexeme.isTrivia, hk]

theorem derives_lone {l : Lexeme} (hl : l.Valid) (hfault : l.fault = none)
    (hstops : Read.stops l = false) (hframe : Frame.ofLexeme? l = none) :
    Derives config (.item l.role d) [l] := by
  have hlexical : l.kind.isLexical = true := by
    rcases hl.lexical with h | ⟨-, h⟩
    · exact h
    · rw [hfault] at h
      cases h
  have hkind : l.kind.isAtom = true ∨
      l.kind = .whitespace ∨ l.kind = .lineComment ∨ l.kind = .blockComment := by
    unfold Read.stops at hstops
    unfold Frame.ofLexeme? at hframe
    cases hk : l.kind <;> simp_all [Kind.isLexical, Kind.isAtom]
  rcases hkind with hatom | hblank
  · rw [(lone_of_atom hatom).2.2]
    exact .atom hatom
  · rw [(lone_of_blank hblank).2.2]
    exact .blank hblank

end RacketTree.Grammar

import RacketTree.Proofs.Server.Notices

/-!
# A client and the server

A client holds the documents that it has open as UTF-16 code units (`Client`). What it tells of one
it does to its own copy (`Client.take?`): it may give positions that are there in its current text,
and what it saves is this text.

`Client.takes_agrees` says that the texts never drift apart: after every notice the server has open
what the client has open, with the same code units, and the tree of each text spells it.
-/

namespace RacketTree

/-- A text of characters only. -/
def Codes.IsText (text : Codes) : Prop :=
  ∃ cs, text = .ofChars cs

/-- The code units after a change, if the client may make it. -/
def Units.change? (units : List Nat) : TextChange → Option (List Nat)
  | .whole text => some (ofText text.chars)
  | .range startLine startCharacter stopLine stopCharacter text =>
    match place? units startLine startCharacter, place? units stopLine stopCharacter with
    | some start, some stop => some (replace units start stop (ofText text.chars))
    | _, _ => none

/-- The change has characters only. -/
def TextChange.IsText : TextChange → Prop
  | whole text => text.IsText
  | range _ _ _ _ text => text.IsText

/-- What the client tells has characters only. -/
def Notice.IsText : Notice → Prop
  | opened _ text => text.IsText
  | changed _ changes => ∀ c ∈ changes, c.IsText
  | saved _ text? => ∀ text ∈ text?, text.IsText
  | closed _ => True

/-- The code units of the documents that a client has open. -/
abbrev Client := Codes → Option (List Nat)

namespace Client

/-- A client that has no document open. -/
def start : Client :=
  fun _ => none

/-- The client with one document set. -/
def set (c : Client) (uri : Codes) (units? : Option (List Nat)) : Client :=
  fun other => if other = uri then units? else c other

/-- The client after it has told something, if it may. -/
def take? (c : Client) : Notice → Option Client
  | .opened uri text => some (c.set uri (some (Units.ofText text.chars)))
  | .changed uri changes =>
    ((c uri).bind fun units => changes.foldlM Units.change? units).map fun units =>
      c.set uri (some units)
  | .saved uri none => if (c uri).isSome then some c else none
  | .saved uri (some text) => if c uri = some (Units.ofText text.chars) then some c else none
  | .closed uri => some (c.set uri none)

end Client

/-! ## One text -/

namespace OpenText

variable {t t' : OpenText} {units units' : List Nat}

/-- The text is the one that the client has. -/
structure Agrees (units : List Nat) (t : OpenText) : Prop where
  isText : t.text.IsText
  units : Units.ofText t.text.chars = units

theorem agrees_read {text : Codes} (h : text.IsText) (config : Config) :
    (read config text).Agrees (Units.ofText text.chars) :=
  ⟨h, rfl⟩

theorem isText_splice {text inserted : Codes} (h : text.IsText) (hinserted : inserted.IsText)
    (start stop : Nat) : (text.splice start stop inserted).IsText := by
  obtain ⟨cs, rfl⟩ := h
  obtain ⟨inserted, rfl⟩ := hinserted
  refine ⟨cs.take start ++ inserted ++ cs.drop stop, ?_⟩
  simp [Codes.splice, Codes.ofChars]

/-- A change that the client may make is the same change of the characters. -/
theorem Agrees.change (h : t.Agrees units) (ht : t.Sound) {c : TextChange} (hc : c.IsText)
    (hunits : Units.change? units c = some units') (hchange : t.change? c = some t') :
    t'.Agrees units' := by
  cases c with
  | whole text =>
    cases hunits
    cases hchange
    exact agrees_read hc _
  | range startLine startCharacter stopLine stopCharacter text =>
    simp only [Units.change?] at hunits
    split at hunits
    · rename_i start stop hstart hstop
      cases hunits
      rw [← h.units] at hstart hstop ⊢
      obtain ⟨i, hi, hitake, hile, hiplace⟩ := Units.exists_place?_eq hstart
      obtain ⟨j, hj, hjtake, hjle, hjplace⟩ := Units.exists_place?_eq hstop
      obtain ⟨t₁, hreplace, -, htext⟩ := ht.replace hi hj text
      have hplaced : t.change? (.range startLine startCharacter stopLine stopCharacter text) =
          some t₁ := by
        simp only [change?, Json.nat, Tree.lines, ht.source, hiplace, hjplace, hreplace]
        rfl
      rw [hplaced] at hchange
      cases hchange
      constructor
      · rw [htext]
        exact isText_splice h.isText hc _ _
      · rw [htext, chars_splice, Edit.splice, Units.ofText_splice hitake hile hjtake hjle]
    · cases hunits

theorem Agrees.changes (h : t.Agrees units) (ht : t.Sound) {cs : List TextChange}
    (hcs : ∀ c ∈ cs, c.IsText) (hunits : cs.foldlM Units.change? units = some units')
    (hchanges : cs.foldlM change? t = some t') : t'.Agrees units' := by
  induction cs generalizing t units with
  | nil =>
    cases hunits
    cases hchanges
    exact h
  | cons c cs ih =>
    rw [List.foldlM_cons] at hunits hchanges
    obtain ⟨units₁, hunits₁, hunits⟩ := Option.bind_eq_some_iff.mp hunits
    obtain ⟨t₁, hchange, hchanges⟩ := Option.bind_eq_some_iff.mp hchanges
    obtain ⟨hc, hcs⟩ := List.forall_mem_cons.mp hcs
    exact ih (h.change ht hc hunits₁ hchange) (ht.change hchange) hcs hunits hchanges

end OpenText

/-! ## All documents -/

namespace Client

variable {c c' : Client} {s s' : Server} {n : Notice}

/-- The server has open what the client has open. -/
def Agrees (c : Client) (s : Server) : Prop :=
  ∀ uri, Option.Rel OpenText.Agrees (c uri) (s.text? uri)

theorem Agrees.exists_text (h : c.Agrees s) {uri : Codes} {units : List Nat}
    (hunits : c uri = some units) : ∃ t, s.text? uri = some t ∧ t.Agrees units := by
  have hrel := h uri
  rw [hunits] at hrel
  cases ht : s.text? uri with
  | none =>
    rw [ht] at hrel
    cases hrel
  | some t =>
    rw [ht] at hrel
    cases hrel with
    | some hagrees => exact ⟨t, rfl, hagrees⟩

theorem Agrees.text?_eq_none (h : c.Agrees s) {uri : Codes} (hnone : c uri = none) :
    s.text? uri = none := by
  have hrel := h uri
  rw [hnone] at hrel
  cases ht : s.text? uri with
  | none => rfl
  | some t =>
    rw [ht] at hrel
    cases hrel

/-- What the client does to one document, the server does to its text. -/
theorem agrees_result (hs : s.Sound) (hn : n.IsText) (h : c.Agrees s)
    (htake : c.take? n = some c') :
    Option.Rel OpenText.Agrees (c' n.uri) (n.result? s.config (s.text? n.uri)) ∧
      ∀ uri, uri ≠ n.uri → c' uri = c uri := by
  have hset (uri : Codes) (units? : Option (List Nat)) :
      c.set uri units? uri = units? ∧ ∀ other, other ≠ uri → c.set uri units? other = c other :=
    ⟨if_pos rfl, fun other hother => if_neg hother⟩
  cases n with
  | opened uri text =>
    cases htake
    obtain ⟨hself, hothers⟩ := hset uri (some (Units.ofText text.chars))
    refine ⟨?_, hothers⟩
    rw [Notice.uri, hself]
    exact .some (OpenText.agrees_read hn s.config)
  | changed uri changes =>
    obtain ⟨units', hbind, rfl⟩ := Option.map_eq_some_iff.mp htake
    obtain ⟨units, hunits, hchanges⟩ := Option.bind_eq_some_iff.mp hbind
    obtain ⟨hself, hothers⟩ := hset uri (some units')
    refine ⟨?_, hothers⟩
    obtain ⟨t, ht, hagrees⟩ := h.exists_text hunits
    obtain ⟨t', hfold, -⟩ := (hs.sound_text ht).exists_changes changes
    rw [Notice.uri, hself, Notice.result?, ht, Option.bind_some, hfold]
    exact .some (hagrees.changes (hs.sound_text ht) hn hchanges hfold)
  | saved uri text? =>
    cases text? with
    | none =>
      obtain ⟨-, hsame⟩ := Option.ite_none_right_eq_some.mp htake
      cases hsame
      exact ⟨h uri, fun _ _ => rfl⟩
    | some text =>
      obtain ⟨hunits, hsame⟩ := Option.ite_none_right_eq_some.mp htake
      cases hsame
      refine ⟨?_, fun _ _ => rfl⟩
      obtain ⟨t, ht, hagrees⟩ := h.exists_text hunits
      rw [Notice.uri, hunits, Notice.result?, ht, Option.map_some]
      apply Option.Rel.some
      split
      · exact hagrees
      · exact OpenText.agrees_read (hn text rfl) s.config
  | closed uri =>
    cases htake
    obtain ⟨hself, hothers⟩ := hset uri none
    refine ⟨?_, hothers⟩
    rw [Notice.uri, hself]
    exact .none

theorem agrees_step (hs : s.Sound) (hn : n.IsText) (h : c.Agrees s) (htake : c.take? n = some c')
    {sent : List Json}
    (hbecomes : Server.Becomes s s' n.uri (n.result? s.config (s.text? n.uri)) sent) :
    c'.Agrees s' := by
  obtain ⟨hresult, hothers⟩ := agrees_result hs hn h htake
  intro uri
  rw [hbecomes.text?]
  by_cases huri : uri = n.uri
  · rw [if_pos huri, huri]
    exact hresult
  · rw [if_neg huri, hothers uri huri]
    exact h uri

/-- After every notice of a client that has started without documents, the server has a document
open exactly if the client has. Its text has the code units of the client's, and its tree spells
it. -/
theorem takes_agrees {s : Server} (hs : s.documents = []) {ns : List Notice}
    {messages : List Json.Fields} (htold : List.Forall₂ Notice.Says ns messages)
    (htexts : ∀ n ∈ ns, n.IsText) {client : Client} (hrun : ns.foldlM take? start = some client) :
    ∃ s', Server.Takes s messages s' ∧ ∀ uri,
      (client uri = none → s'.document? (.str uri) = none) ∧
      ∀ units, client uri = some units → ∃ d t, s'.document? (.str uri) = some d ∧
        d.content = .text t ∧ t.text = .ofChars t.tree.source ∧
        Units.ofText t.tree.source = units ∧ t.tree.text t.arena = t.tree.source := by
  have hsound := Server.sound_of_nil hs
  have hstart : start.Agrees s := by
    intro uri
    have hnone : s.text? uri = none := by
      rw [Server.text?, Server.document?, hs]
      rfl
    rw [hnone]
    exact .none
  have hstep {c c' : Client} {n : Notice} {s s' : Server} := @agrees_step c c' s s' n
  obtain ⟨s', htakes, hsound', hagrees⟩ := @Server.exists_takes Client Notice.IsText take? Agrees
    (fun hs hn h htake hbecomes => hstep hs hn h htake hbecomes) ns messages htold htexts start
    client hrun s hsound hstart
  refine ⟨s', htakes, fun uri => ⟨?_, ?_⟩⟩
  · intro hnone
    exact hsound'.document?_eq_none (hagrees.text?_eq_none hnone)
  · intro units hunits
    obtain ⟨t, ht, h⟩ := hagrees.exists_text hunits
    obtain ⟨d, hfind, -, hcontent⟩ := hsound'.exists_document ht
    have htext := hsound'.sound_text ht
    obtain ⟨cs, hcs⟩ := h.isText
    refine ⟨d, t, hfind, hcontent, ?_, ?_, htext.text_eq⟩
    · rw [htext.source, hcs, Codes.chars_ofChars]
    · rw [htext.source, h.units]

/-! The line break behind a character of two code units is replaced. -/

def pairNotices : List Notice :=
  [.opened "u" "λ😀\n)", .changed "u" [.range 1 0 0 3 "("]]

theorem isText_pair : ∀ n ∈ pairNotices, n.IsText := by
  simp only [pairNotices, List.forall_mem_cons, Notice.IsText, TextChange.IsText]
  exact ⟨⟨_, rfl⟩, ⟨⟨_, rfl⟩, by simp⟩, by simp⟩

theorem takes_agrees_pair : ∃ client, pairNotices.foldlM take? start = some client ∧
    ∃ s', Server.Takes (Server.start ⟨['/'], []⟩) (pairNotices.map Notice.message) s' ∧
      ∃ d t, s'.document? (.str "u") = some d ∧ d.content = .text t ∧
        Units.ofText t.tree.source = [0x03BB, 0xD83D, 0xDE00, 0x28, 0x29] := by
  have hrun : pairNotices.foldlM take? start = some _ := rfl
  have hstart : (Server.start ⟨['/'], []⟩).documents = [] := rfl
  obtain ⟨s', htakes, hagrees⟩ := takes_agrees hstart (Notice.forall₂_says_message _) isText_pair hrun
  obtain ⟨d, t, hfind, hcontent, -, hunits, -⟩ := (hagrees "u").2 _ rfl
  exact ⟨_, hrun, s', htakes, d, t, hfind, hcontent, hunits⟩

end Client

end RacketTree

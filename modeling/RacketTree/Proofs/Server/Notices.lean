import RacketTree.Proofs.Json.Halves
import RacketTree.Proofs.Server.Documents
import RacketTree.Server.Handlers

/-!
# What a client tells of documents

A client opens, changes, saves and closes documents. `Notice` is what it tells, and `Notice.Says`
the messages that tell it, with any further fields; `Notice.message` is one of them.

`handle_notice` says once what the server does on one: it goes on without an answer, the text under
the URI of the notice becomes `Notice.result?`, every other text stays, and the diagnostics are sent
that `Notice.published?` says. `exists_takes` carries over to runs whatever each notice keeps.
-/

namespace RacketTree

/-! ## Notices -/

/-- What a client tells of a document. -/
inductive Notice where
  | opened (uri text : Codes)
  | changed (uri : Codes) (changes : List TextChange)
  | saved (uri : Codes) (text? : Option Codes)
  | closed (uri : Codes)

/-- The value is a position. -/
def IsPosition (line character : Nat) (j : Json) : Prop :=
  j.get? "line" = some (.nat line) ∧ j.get? "character" = some (.nat character)

/-- The value gives a change. -/
def TextChange.IsGiven : TextChange → Json → Prop
  | whole text, j => j.get? "text" = some (.str text) ∧ (j.get? "range").getD .null = .null
  | range startLine startCharacter stopLine stopCharacter text, j =>
    j.get? "text" = some (.str text) ∧
      ∃ range start stop, j.get? "range" = some range ∧ range.get? "start" = some start ∧
        range.get? "end" = some stop ∧ IsPosition startLine startCharacter start ∧
        IsPosition stopLine stopCharacter stop

/-- The value that gives a change. -/
def TextChange.toJson : TextChange → Json
  | whole text => .obj [("text", .str text)]
  | range startLine startCharacter stopLine stopCharacter text =>
    .obj [("range", Payload.ofPoints (startLine, startCharacter) (stopLine, stopCharacter)),
      ("text", .str text)]

theorem TextChange.isGiven_toJson (c : TextChange) : c.IsGiven c.toJson := by
  cases c with
  | whole text => exact ⟨rfl, rfl⟩
  | range => exact ⟨rfl, _, _, _, rfl, rfl, rfl, ⟨rfl, rfl⟩, rfl, rfl⟩

namespace Notice

/-- The document that is meant. -/
def uri : Notice → Codes
  | opened uri _ => uri
  | changed uri _ => uri
  | saved uri _ => uri
  | closed uri => uri

/-- The method of the message. -/
def method : Notice → String
  | opened .. => "textDocument/didOpen"
  | changed .. => "textDocument/didChange"
  | saved .. => "textDocument/didSave"
  | closed .. => "textDocument/didClose"

/-- The parameters beside the URI, which stands in the description of the document. -/
def IsGiven (params description : Json) : Notice → Prop
  | opened _ text => description.get? "text" = some (.str text)
  | changed _ changes =>
    ∃ items, params.get? "contentChanges" = some (.arr items) ∧
      List.Forall₂ TextChange.IsGiven changes items
  | saved _ none => (params.get? "text").getD .null = .null
  | saved _ (some text) => params.get? "text" = some (.str text)
  | closed _ => True

/-- The message tells the notice. -/
structure Says (n : Notice) (fields : Json.Fields) : Prop where
  method : Json.field? fields "method" = some (.str n.method)
  params : ∃ params description, Json.field? fields "params" = some params ∧
    params.get? "textDocument" = some description ∧
    description.get? "uri" = some (.str n.uri) ∧ n.IsGiven params description
  noId : Json.field? fields "id" = none
  noResult : Json.field? fields "result" = none
  noError : Json.field? fields "error" = none

/-- The parameters that give a notice. -/
def params : Notice → Json
  | opened uri text => .obj [("textDocument", .obj [("uri", .str uri), ("text", .str text)])]
  | changed uri changes =>
    .obj [("textDocument", .obj [("uri", .str uri)]),
      ("contentChanges", .arr (changes.map TextChange.toJson))]
  | saved uri none => .obj [("textDocument", .obj [("uri", .str uri)])]
  | saved uri (some text) =>
    .obj [("textDocument", .obj [("uri", .str uri)]), ("text", .str text)]
  | closed uri => .obj [("textDocument", .obj [("uri", .str uri)])]

/-- A message that tells the notice. -/
def message (n : Notice) : Json.Fields :=
  [("method", .str n.method), ("params", n.params)]

/-- Every notice can be told. -/
theorem says_message (n : Notice) : n.Says n.message := by
  refine ⟨rfl, ⟨n.params, ?_⟩, rfl, rfl, rfl⟩
  cases n with
  | opened uri text => exact ⟨_, rfl, rfl, rfl, rfl⟩
  | changed uri changes =>
    refine ⟨_, rfl, rfl, rfl, _, rfl, ?_⟩
    rw [List.forall₂_map_right_iff, List.forall₂_same]
    exact fun c _ => c.isGiven_toJson
  | saved uri text? => cases text? <;> exact ⟨_, rfl, rfl, rfl, rfl⟩
  | closed uri => exact ⟨_, rfl, rfl, rfl, trivial⟩

theorem forall₂_says_message (ns : List Notice) : List.Forall₂ Says ns (ns.map message) := by
  rw [List.forall₂_map_right_iff, List.forall₂_same]
  exact fun n _ => n.says_message

/-- The text under the URI of the notice after it, where `t?` was there before. -/
def result? (config : Config) (t? : Option OpenText) : Notice → Option OpenText
  | opened _ text => some (.read config text)
  | changed _ changes => t?.bind fun t => changes.foldlM OpenText.change? t
  | saved _ none => t?
  | saved _ (some text) => t?.map fun t => if text = t.text then t else .read config text
  | closed _ => none

/-- The diagnostics that are sent on the notice, where `t?` was the text before and `new?` is the
one after it. -/
def published? (t? new? : Option OpenText) : Notice → Option (List Json)
  | opened .. => new?.map OpenText.diagnostics
  | changed .. => new?.map OpenText.diagnostics
  | saved _ none => none
  | saved _ (some text) =>
    if t?.map OpenText.text = some text then none else new?.map OpenText.diagnostics
  | closed _ => some []

end Notice

namespace Server

/-! ## The text under one URI -/

/-- The server goes from one state to another: the text under one URI becomes `t?`, the others and
the options stay, and messages are sent. -/
structure Becomes (s s' : Server) (uri : Codes) (t? : Option OpenText) (sent : List Json) :
    Prop where
  sound : s'.Sound
  text? : ∀ u, s'.text? u = if u = uri then t? else s.text? u
  config : s'.config = s.config
  sent : s'.sent = s.sent ++ sent

section

variable {s s₁ s' : Server} {uri : Codes} {t₁? t? : Option OpenText} {sent₁ sent : List Json}

theorem Becomes.trans (h : Becomes s s₁ uri t₁? sent₁) (h' : Becomes s₁ s' uri t? sent) :
    Becomes s s' uri t? (sent₁ ++ sent) := by
  refine ⟨h'.sound, fun u => ?_, h'.config.trans h.config, ?_⟩
  · rw [h'.text?, h.text?]
    split <;> rfl
  · rw [h'.sent, h.sent, List.append_assoc]

/-- A state with the same documents and options. -/
theorem becomes_of_documents (hs : s.Sound) (hdocuments : s'.documents = s.documents)
    (hconfig : s'.config = s.config) (hsent : s'.sent = s.sent ++ sent) (uri : Codes) :
    Becomes s s' uri (s.text? uri) sent := by
  have hsame (u : Codes) : s'.text? u = s.text? u := by
    rw [Server.text?, Server.text?, document?, document?, hdocuments]
  refine ⟨⟨?_, ?_⟩, fun u => ?_, hconfig, hsent⟩
  · rw [hdocuments]
    exact hs.texts
  · rw [hdocuments]
    exact hs.distinct
  · rw [hsame]
    split
    · rename_i heq
      rw [heq]
    · rfl

theorem Sound.becomes_note (hs : s.Sound) (text uri : Codes) :
    Becomes s (s.note text) uri (s.text? uri) [] := by
  apply becomes_of_documents hs
  · rfl
  · rfl
  · exact (List.append_nil _).symm

theorem Sound.becomes_put (hs : s.Sound) {d : Document} {t : OpenText} (hd : d.uri = .str uri)
    (hcontent : d.content = .text t) (ht : t.Sound) : Becomes s (s.put d) uri (some t) [] := by
  refine ⟨hs.put hd hcontent ht, hs.text?_put hd hcontent ht, ?_, ?_⟩
  · unfold Server.put
    split <;> rfl
  · rw [List.append_nil]
    unfold Server.put
    split <;> rfl

theorem Sound.becomes_erase (hs : s.Sound) (uri : Codes) :
    Becomes s (s.erase (.str uri)) uri none [] :=
  ⟨hs.erase uri, hs.text?_erase uri, rfl, (List.append_nil _).symm⟩

theorem Becomes.text?_self (h : Becomes s s' uri t? sent) : s'.text? uri = t? := by
  rw [h.text?, if_pos rfl]

end

/-! ## Handlers that succeed -/

namespace Handler

variable {α β : Type} {s s₁ s' : Server}

/-- From a state the handler gives a value and leaves a state. -/
def Gives (m : Handler α) (s : Server) (a : α) (s' : Server) : Prop :=
  m.run.run s = (.ok a, s')

/-- From a state the handler leaves a state, and fails at most because it could not go on. -/
def Leaves (m : Handler Unit) (s s' : Server) : Prop :=
  m.Gives s () s' ∨ ∃ text, m.run.run s = (.error (.internal text), s')

theorem run_bind {m : Handler α} {a : α} (h : Gives m s a s₁) (f : α → Handler β) :
    (m >>= f).run.run s = (f a).run.run s₁ := by
  rw [ExceptT.run_bind, StateT.run_bind, h]
  rfl

theorem Gives.bind {m : Handler α} {a : α} (h : Gives m s a s₁) {f : α → Handler β} {b : β}
    (hf : Gives (f a) s₁ b s') : Gives (m >>= f) s b s' := by
  rw [Gives, run_bind h, hf]

theorem Gives.leaves {m : Handler α} {a : α} (h : Gives m s a s₁) {f : α → Handler Unit}
    (hf : Leaves (f a) s₁ s') : Leaves (m >>= f) s s' := by
  rw [Leaves, Gives, run_bind h]
  exact hf

theorem gives_pure (a : α) (s : Server) : Gives (pure a) s a s :=
  rfl

theorem gives_modify (f : Server → Server) (s : Server) : Gives (modify f) s () (f s) :=
  rfl

theorem gives_getThe (s : Server) : Gives (getThe Server) s s s :=
  rfl

theorem gives_logLine (text : Codes) (s : Server) : Gives (logLine text) s () (s.note text) :=
  rfl

/-! ## Parameters -/

theorem exists_fields {j : Json} {name : Codes} {value : Json} (h : j.get? name = some value) :
    ∃ fields, j = .obj fields ∧ Json.field? fields name = some value := by
  unfold Json.get? at h
  split at h
  · exact ⟨_, rfl, h⟩
  · cases h

theorem gives_get {j : Json} {name : Codes} {value : Json} (h : j.get? name = some value)
    (what : String) (absent : Json) (s : Server) : Gives (get what j name absent) s value s := by
  obtain ⟨fields, rfl, hfield⟩ := exists_fields h
  show Gives (pure ((Json.field? fields name).getD absent)) s value s
  rw [hfield]
  exact gives_pure value s

/-- A field that need not be there. -/
theorem gives_getD {j : Json} {name : Codes} {value : Json} (h : j.get? name = some value)
    (what : String) (other : Codes) (absent : Json) (s : Server) :
    Gives (get what j other absent) s ((j.get? other).getD absent) s := by
  obtain ⟨fields, rfl, -⟩ := exists_fields h
  exact gives_pure _ s

theorem gives_key (uri : Codes) (s : Server) : Gives (key (.str uri)) s () s :=
  rfl

theorem gives_content (config : Config) (text : Codes) (s : Server) :
    Gives (content config (.str text)) s (.text (.read config text)) s :=
  rfl

theorem gives_offsetAt {t : OpenText} {line character offset : Nat} {j : Json}
    (hj : IsPosition line character j)
    (h : t.tree.lines.place? (.nat line) (.nat character) = some (.exact offset)) (s : Server) :
    Gives (offsetAt t j) s offset s := by
  have hplace : Gives (placeAt t j) s (.exact offset) s := by
    refine (gives_get hj.1 _ _ s).bind ((gives_get hj.2 _ _ s).bind ?_)
    rw [h]
    exact gives_pure _ s
  exact hplace.bind (gives_pure _ s)

theorem gives_applyChange {d : Document} {t t' : OpenText} {c : TextChange} {j : Json}
    (hd : d.content = .text t) (hj : c.IsGiven j) (h : t.change? c = some t') (s : Server) :
    Gives (applyChange d j) s { d with content := .text t' } s := by
  cases c with
  | whole text =>
    obtain ⟨htext, hrange⟩ := hj
    cases h
    have hconfig : d.content.config = t.tree.config := by
      rw [hd]
      rfl
    refine (gives_get htext _ _ s).bind ((gives_getD htext _ _ _ s).bind ?_)
    rw [hrange, hconfig]
    exact (gives_content _ text s).bind (gives_pure _ s)
  | range startLine startCharacter stopLine stopCharacter text =>
    obtain ⟨htext, range, first, last, hrange, hfirst, hlast, hstart, hstop⟩ := hj
    obtain ⟨fields, rfl, hfirstField⟩ := exists_fields hfirst
    simp only [OpenText.change?] at h
    split at h
    · rename_i start stop hstartPlace hstopPlace
      have htextOf : Gives (textOf d) s t s := by
        rw [textOf, hd]
        exact gives_pure t s
      refine (gives_get htext _ _ s).bind ((gives_get hrange _ _ s).bind ?_)
      refine (gives_pure fields s).bind ?_
      have hlastField : Json.field? fields "end" = some last := hlast
      simp only [hfirstField, hlastField]
      refine htextOf.bind ((gives_offsetAt hstart hstartPlace s).bind
        ((gives_offsetAt hstop hstopPlace s).bind ((gives_pure text s).bind ?_)))
      cases hreplace : t.replace start stop text with
      | error e =>
        rw [hreplace] at h
        cases h
      | ok t₁ =>
        rw [hreplace] at h
        cases h
        exact gives_pure _ s
    · cases h

/-- The changes of a notice, one after the other. -/
theorem gives_applyChanges {uri : Codes} {cs : List TextChange} {items : List Json}
    (hitems : List.Forall₂ TextChange.IsGiven cs items) {d : Document} {t t' : OpenText}
    (hs : s.Sound) (ht : s.text? uri = some t) (hd : d.uri = .str uri)
    (hcontent : d.content = .text t)
    (h : cs.foldlM OpenText.change? t = some t') :
    ∃ s', Gives (applyChanges d items) s { d with content := .text t' } s' ∧
      Becomes s s' uri (some t') [] := by
  induction hitems generalizing s d t with
  | nil =>
    cases h
    refine ⟨s, ?_, ?_⟩
    · rw [← hcontent]
      exact gives_pure d s
    · rw [← ht]
      exact becomes_of_documents hs rfl rfl (List.append_nil _).symm uri
  | @cons c j cs items hj hitems ih =>
    rw [List.foldlM_cons] at h
    obtain ⟨t₁, hchange, hrest⟩ := Option.bind_eq_some_iff.mp h
    have hsound := (hs.sound_text ht).change hchange
    obtain ⟨d₁, hd₁⟩ : ∃ d₁ : Document, d₁ = { d with content := .text t₁ } := ⟨_, rfl⟩
    have huri : d₁.uri = .str uri := by
      rw [hd₁, ← hd]
    have hcontent₁ : d₁.content = .text t₁ := by
      rw [hd₁]
    have hput := hs.becomes_put huri hcontent₁ hsound
    obtain ⟨s', hgives, hbecomes⟩ := ih hput.sound hput.text?_self huri hcontent₁ hrest
    subst hd₁
    exact ⟨s', (gives_applyChange hcontent hj hchange s).bind ((gives_modify _ s).bind hgives),
      hput.trans hbecomes⟩

end Handler

/-! ## Diagnostics -/

/-- The message with the diagnostics of a URI. -/
def publication (uri : Codes) (diagnostics : List Json) : Json :=
  Rpc.notificationMessage "textDocument/publishDiagnostics"
    (some (.obj [("uri", .str uri), ("diagnostics", .arr diagnostics)]))

/-- The messages with the diagnostics of a URI, if there are any to be sent. A URI with half of a
surrogate pair cannot be written. -/
def publications (uri : Codes) : Option (List Json) → List Json
  | some diagnostics => if uri.hasHalves then [] else [publication uri diagnostics]
  | none => []

theorem hasHalves_publication {uri : Codes} {diagnostics : List Json}
    (h : Json.anyHalves diagnostics = false) :
    (publication uri diagnostics).hasHalves = uri.hasHalves := by
  simp [publication, Rpc.notificationMessage, Json.hasHalves, Json.fieldsHaveHalves, h]

theorem anyHalves_diagnostics (t : OpenText) : Json.anyHalves t.diagnostics = false := by
  rw [Json.anyHalves_eq, OpenText.diagnostics, List.any_map, List.any_eq_false]
  intro n _
  cases hfault : n.fault <;>
    simp [hfault, Payload.diagnostic, OpenText.rangeOf, Payload.ofPoints, Payload.range,
      Payload.position, Payload.severityError, Payload.diagnosticSource, Payload.unlessNull, Json.nat,
      Json.hasHalves, Json.fieldsHaveHalves]

namespace Handler

theorem leaves_publish {s : Server} (hs : s.Sound) (uri : Codes) {diagnostics : List Json}
    (h : Json.anyHalves diagnostics = false) :
    ∃ s', Leaves (publish (.str uri) diagnostics) s s' ∧
      Becomes s s' uri (s.text? uri) (publications uri (some diagnostics)) := by
  have hhalves : (publication uri diagnostics).render.hasHalves = uri.hasHalves := by
    rw [Json.hasHalves_render, hasHalves_publication h]
  have hpublish : publish (.str uri) diagnostics =
      Rpc.sendMessage send (publication uri diagnostics) := rfl
  rw [hpublish, Rpc.sendMessage, Rpc.Frame.halves?, hhalves, publications]
  by_cases huri : uri.hasHalves = true
  · rw [if_pos huri, if_pos huri]
    refine ⟨s, .inr ⟨_, rfl⟩, ?_⟩
    exact becomes_of_documents hs rfl rfl (List.append_nil _).symm uri
  · rw [if_neg huri, if_neg huri]
    refine ⟨s.send (publication uri diagnostics), .inl rfl, ?_⟩
    apply becomes_of_documents hs
    · rfl
    · rfl
    · rfl

/-- A document that is put under its URI is shown with its diagnostics. -/
theorem leaves_validate {s : Server} (hs : s.Sound) {d : Document} {uri : Codes} {t : OpenText}
    (hd : d.uri = .str uri) (hcontent : d.content = .text t) (ht : t.Sound) :
    ∃ s', Leaves (do modify (put d); validate d) s s' ∧
      Becomes s s' uri (some t) (publications uri (some t.diagnostics)) := by
  have hput := hs.becomes_put hd hcontent ht
  obtain ⟨s', hleaves, hbecomes⟩ := leaves_publish hput.sound uri (anyHalves_diagnostics t)
  have hvalidate : validate d = publish (.str uri) t.diagnostics := by
    rw [validate, hcontent, hd]
    rfl
  refine ⟨s', (gives_modify _ s).leaves ?_, ?_⟩
  · rw [hvalidate]
    exact hleaves
  · rw [hput.text?_self] at hbecomes
    exact hput.trans hbecomes

end Handler

/-! ## The handlers -/

open Handler

variable {s : Server} {params description : Json} {uri : Codes}

theorem leaves_onOpen (hs : s.Sound) {text : Codes}
    (hdescription : params.get? "textDocument" = some description)
    (huri : description.get? "uri" = some (.str uri))
    (htext : description.get? "text" = some (.str text)) :
    ∃ s', Leaves (onOpen params) s s' ∧
      Becomes s s' uri (some (.read s.config text))
        (publications uri (some (OpenText.read s.config text).diagnostics)) := by
  have hnote := hs.becomes_note ("Document opened: " ++ (Json.str uri).inText) uri
  obtain ⟨d, hd⟩ : ∃ d : Document, d =
    { uri := .str uri, languageId := (description.get? "languageId").getD (.str "racket")
      version := (description.get? "version").getD (.int 0)
      content := .text (.read s.config text) } := ⟨_, rfl⟩
  obtain ⟨s', hleaves, hbecomes⟩ := leaves_validate hnote.sound (show d.uri = .str uri by rw [hd])
    (show d.content = .text (.read s.config text) by rw [hd]) (OpenText.sound_read _ _)
  refine ⟨s', ?_, hnote.trans hbecomes⟩
  subst hd
  exact (gives_get hdescription _ _ s).leaves ((gives_get huri _ _ s).leaves
    ((gives_logLine _ s).leaves ((gives_getD huri _ _ _ _).leaves ((gives_getD huri _ _ _ _).leaves
      ((gives_get htext _ _ _).leaves ((gives_getThe _).leaves ((gives_content _ _ _).leaves
        ((gives_key uri _).leaves hleaves))))))))

theorem leaves_onChange (hs : s.Sound) {cs : List TextChange} {items : List Json}
    (hdescription : params.get? "textDocument" = some description)
    (huri : description.get? "uri" = some (.str uri))
    (hchanges : params.get? "contentChanges" = some (.arr items))
    (hitems : List.Forall₂ TextChange.IsGiven cs items) :
    ∃ s', Leaves (onChange params) s s' ∧
      Becomes s s' uri ((s.text? uri).bind fun t => cs.foldlM OpenText.change? t)
        (publications uri (((s.text? uri).bind fun t => cs.foldlM OpenText.change? t).map
          OpenText.diagnostics)) := by
  cases ht : s.text? uri with
  | none =>
    have hnote := hs.becomes_note ("Warning: didChange for unknown document: " ++
      (Json.str uri).inText) uri
    rw [ht] at hnote
    refine ⟨_, ?_, hnote⟩
    refine (gives_get hdescription _ _ s).leaves ((gives_get huri _ _ s).leaves
      ((gives_key uri s).leaves ((gives_getThe s).leaves ?_)))
    rw [hs.document?_eq_none ht]
    exact .inl (gives_logLine _ s)
  | some t =>
    obtain ⟨t', hfold, hsound⟩ := (hs.sound_text ht).exists_changes cs
    obtain ⟨d, hfind, hd, hcontent⟩ := hs.exists_document ht
    obtain ⟨s₁, hgives, hbecomes₁⟩ := gives_applyChanges hitems hs ht hd hcontent hfold
    obtain ⟨d', hd'⟩ : ∃ d' : Document, d' =
      { d with content := .text t', version := (description.get? "version").getD d.version } :=
      ⟨_, rfl⟩
    obtain ⟨s', hleaves, hbecomes⟩ := leaves_validate hbecomes₁.sound
      (show d'.uri = .str uri by rw [hd', ← hd]) (show d'.content = .text t' by rw [hd']) hsound
    refine ⟨s', ?_, ?_⟩
    · refine (gives_get hdescription _ _ s).leaves ((gives_get huri _ _ s).leaves
        ((gives_key uri s).leaves ((gives_getThe s).leaves ?_)))
      subst hd'
      rw [hfind]
      exact (gives_get hchanges _ _ s).leaves ((gives_pure items s).leaves (hgives.leaves
        ((gives_getD huri _ _ _ s₁).leaves hleaves)))
    · rw [Option.bind_some, hfold, Option.map_some]
      exact hbecomes₁.trans hbecomes

theorem leaves_onClose (hs : s.Sound) (hdescription : params.get? "textDocument" = some description)
    (huri : description.get? "uri" = some (.str uri)) :
    ∃ s', Leaves (onClose params) s s' ∧ Becomes s s' uri none (publications uri (some [])) := by
  have hnote := hs.becomes_note ("Document closed: " ++ (Json.str uri).inText) uri
  have herase := hnote.trans (hnote.sound.becomes_erase uri)
  obtain ⟨s', hleaves, hbecomes⟩ := @leaves_publish _ herase.sound uri [] rfl
  rw [herase.text?_self] at hbecomes
  refine ⟨s', ?_, herase.trans hbecomes⟩
  exact (gives_get hdescription _ _ s).leaves ((gives_get huri _ _ s).leaves
    ((gives_logLine _ s).leaves ((gives_key uri _).leaves ((gives_modify _ _).leaves hleaves))))

theorem leaves_onSave (hs : s.Sound) {text? : Option Codes}
    (hdescription : params.get? "textDocument" = some description)
    (huri : description.get? "uri" = some (.str uri))
    (hgiven : (Notice.saved uri text?).IsGiven params description) :
    ∃ s', Leaves (onSave params) s s' ∧
      Becomes s s' uri ((Notice.saved uri text?).result? s.config (s.text? uri))
        (publications uri ((Notice.saved uri text?).published? (s.text? uri)
          ((Notice.saved uri text?).result? s.config (s.text? uri)))) := by
  obtain ⟨s₁, hs₁⟩ : ∃ s₁, s₁ = s.note ("Document saved: " ++ (Json.str uri).inText) := ⟨_, rfl⟩
  have hnote : Becomes s s₁ uri (s.text? uri) [] := hs₁ ▸ hs.becomes_note _ uri
  have hlog : Gives (logLine ("Document saved: " ++ (Json.str uri).inText)) s () s₁ :=
    hs₁ ▸ gives_logLine _ s
  -- the part of the handler behind the log line
  have hrun : (onSave params).run.run s = _ :=
    (run_bind (gives_get hdescription _ _ s) _).trans ((run_bind (gives_get huri _ _ s) _).trans
      ((run_bind (gives_getD hdescription _ _ _ s) _).trans ((run_bind hlog _).trans
        ((run_bind (gives_key uri s₁) _).trans (run_bind (gives_getThe s₁) _)))))
  simp only [Leaves, Gives, hrun]
  cases text? with
  | none =>
    rw [show (params.get? "text").getD .null = .null from hgiven]
    refine ⟨s₁, .inl ?_, hnote⟩
    cases s₁.document? (.str uri) <;> exact gives_pure () s₁
  | some text =>
    rw [show params.get? "text" = some (.str text) from hgiven, Option.getD_some]
    cases ht : s.text? uri with
    | none =>
      rw [ht] at hnote
      rw [hnote.sound.document?_eq_none hnote.text?_self]
      exact ⟨s₁, .inl (gives_pure () s₁), hnote⟩
    | some t =>
      rw [ht] at hnote
      obtain ⟨d, hfind, hd, hcontent⟩ := hnote.sound.exists_document hnote.text?_self
      rw [hfind]
      have hequal : (Json.str text).equal d.content.toJson = (text == t.text) := by
        rw [hcontent]
        rfl
      simp only [hequal]
      by_cases hsame : text = t.text
      · rw [beq_iff_eq.mpr hsame]
        refine ⟨s₁, .inl (gives_pure () s₁), ?_⟩
        simp only [Notice.result?, Notice.published?, Option.map_some, hsame, if_true]
        exact hnote
      · rw [beq_eq_false_iff_ne.mpr hsame]
        obtain ⟨d', hd'⟩ : ∃ d' : Document, d' =
          { d with content := .text (.read s₁.config text) } := ⟨_, rfl⟩
        obtain ⟨s', hleaves, hbecomes⟩ := leaves_validate hnote.sound
          (show d'.uri = .str uri by rw [hd', ← hd])
          (show d'.content = .text (.read s₁.config text) by rw [hd']) (OpenText.sound_read _ _)
        refine ⟨s', ?_, ?_⟩
        · subst hd'
          exact (gives_getThe s₁).leaves ((gives_content _ text s₁).leaves hleaves)
        · have hother : ¬some t.text = some text := fun h => hsame (Option.some.inj h).symm
          simp only [Notice.result?, Notice.published?, Option.map_some, if_neg hsame, if_neg hother]
          rw [hnote.config] at hbecomes
          exact hnote.trans hbecomes

/-! ## The dispatch -/

/-- Failures are reported to the log, which does not fail. -/
theorem reportThen_handlers (method : Json) (cause : Codes) (reply : Option Json) (s : Server) :
    Rpc.reportThen handlers method cause reply s =
      (.ok reply, s.noteFailure method.inText cause) :=
  rfl

/-- A notification whose handler leaves a state is taken without an answer. -/
theorem take_of_leaves {s s' : Server} {name : String} {handler : Json → Handler Unit}
    (hfound : notification? name = some handler) {params : Json}
    (h : Leaves (handler params) s s') :
    ∃ s'', Rpc.take handlers (.str name) params s = (.ok none, s'') ∧
      s''.documents = s'.documents ∧ s''.config = s'.config ∧ s''.sent = s'.sent := by
  have hlookup : Rpc.lookup handlers.notification? (.str name) = some handler := by
    rw [Rpc.lookup, Codes.text?_ofString]
    exact hfound
  rw [Rpc.take, hlookup]
  rcases h with h | ⟨text, h⟩
  · have hrun : (handler params).run.run s = (.ok (), s') := h
    simp only [hrun]
    exact ⟨s', rfl, rfl, rfl, rfl⟩
  · simp only [h, reportThen_handlers]
    exact ⟨_, rfl, rfl, rfl, rfl⟩

theorem handle_of_message {n : Notice} {fields : Json.Fields} (h : n.Says fields)
    (hparams : Json.field? fields "params" = some params)
    (hdescription : params.get? "textDocument" = some description) (s : Server) :
    s.handle fields = Rpc.take handlers (.str n.method) params s := by
  have hmethod : Rpc.present? fields "method" = some (.str n.method) := by
    rw [Rpc.present?, h.method]
  have hid : Rpc.present? fields "id" = none := by
    rw [Rpc.present?, h.noId]
  have hgiven : Rpc.paramsOf fields = params := by
    obtain ⟨members, rfl, hmember⟩ := exists_fields hdescription
    have hne : (Json.obj members).isEmpty = false := by
      cases members with
      | nil => cases hmember
      | cons => rfl
    rw [Rpc.paramsOf, hparams]
    simp only [hne, Bool.false_eq_true, if_false]
  simp only [handle, Rpc.handle, h.noResult, h.noError, hmethod, hid, hgiven, Rpc.isUsable,
    Option.isSome_none, Bool.or_self, Bool.not_true, Bool.false_eq_true, if_false]

/-- What the server does on a notice. -/
theorem handle_notice (hs : s.Sound) {n : Notice} {fields : Json.Fields} (h : n.Says fields) :
    ∃ s', s.handle fields = (.ok none, s') ∧
      Becomes s s' n.uri (n.result? s.config (s.text? n.uri))
        (publications n.uri (n.published? (s.text? n.uri) (n.result? s.config (s.text? n.uri)))) := by
  obtain ⟨params, description, hparams, hdescription, huri, hgiven⟩ := h.params
  have hhandler : ∃ handler, notification? n.method = some handler ∧ ∃ s', Leaves (handler params) s s' ∧
      Becomes s s' n.uri (n.result? s.config (s.text? n.uri))
        (publications n.uri (n.published? (s.text? n.uri) (n.result? s.config (s.text? n.uri)))) := by
    cases n with
    | opened uri text => exact ⟨onOpen, rfl, leaves_onOpen hs hdescription huri hgiven⟩
    | changed uri changes =>
      obtain ⟨items, hchanges, hitems⟩ := hgiven
      exact ⟨onChange, rfl, leaves_onChange hs hdescription huri hchanges hitems⟩
    | saved uri text? => exact ⟨onSave, rfl, leaves_onSave hs hdescription huri hgiven⟩
    | closed uri => exact ⟨onClose, rfl, leaves_onClose hs hdescription huri⟩
  obtain ⟨handler, hfound, s₁, hleaves, hbecomes⟩ := hhandler
  obtain ⟨s', htake, hdocuments, hconfig, hsent⟩ := take_of_leaves hfound hleaves
  refine ⟨s', ?_, ?_⟩
  · rw [handle_of_message h hparams hdescription, htake]
  · have hsame := becomes_of_documents hbecomes.sound hdocuments hconfig
      (hsent.trans (List.append_nil _).symm) n.uri
    rw [hbecomes.text?_self] at hsame
    have htrans := hbecomes.trans hsame
    rwa [List.append_nil] at htrans

/-! ## Runs -/

/-- The server takes messages one after the other and answers none of them. -/
inductive Takes : Server → List Json.Fields → Server → Prop
  | nil (s : Server) : Takes s [] s
  | cons {s s₁ s' : Server} {fields : Json.Fields} {messages : List Json.Fields}
      (hhandle : s.handle fields = (.ok none, s₁)) (hrest : Takes s₁ messages s') :
      Takes s (fields :: messages) s'

/-- A machine that takes notices goes along with the server: a relation between the two that every
notice keeps holds after all of them. -/
theorem exists_takes {σ : Type} {p : Notice → Prop} {step? : σ → Notice → Option σ}
    {r : σ → Server → Prop}
    (hstep : ∀ {a a' n s s'}, s.Sound → p n → r a s → step? a n = some a' →
      Becomes s s' n.uri (n.result? s.config (s.text? n.uri))
        (publications n.uri (n.published? (s.text? n.uri) (n.result? s.config (s.text? n.uri)))) →
      r a' s')
    {ns : List Notice} {messages : List Json.Fields} (htold : List.Forall₂ Notice.Says ns messages)
    (hp : ∀ n ∈ ns, p n) {a a' : σ} (hrun : ns.foldlM step? a = some a') {s : Server}
    (hs : s.Sound) (h : r a s) :
    ∃ s', Takes s messages s' ∧ s'.Sound ∧ r a' s' := by
  induction htold generalizing a s with
  | nil =>
    cases hrun
    exact ⟨s, .nil s, hs, h⟩
  | @cons n fields ns messages hn _ ih =>
    rw [List.foldlM_cons] at hrun
    obtain ⟨a₁, hnext, hrest⟩ := Option.bind_eq_some_iff.mp hrun
    obtain ⟨hpn, hps⟩ := List.forall_mem_cons.mp hp
    obtain ⟨s₁, hhandle, hbecomes⟩ := handle_notice hs hn
    obtain ⟨s', htakes, hsound, hr⟩ := ih hps hrest hbecomes.sound (hstep hs hpn h hnext hbecomes)
    exact ⟨s', .cons hhandle htakes, hsound, hr⟩

end Server

end RacketTree

import RacketTree.Proofs.Server.Texts
import RacketTree.Server.Handlers

/-!
# What every message keeps

A text that is open always belongs to its tree, whatever messages came before: a handler that fails
halfway, on parameters of the wrong type for instance, has put such texts only.

`Handler.Keeps` says that a step of a handler keeps this and what is known of the value it gives.
It goes through the steps of every handler, so that it holds of every message
(`TextsSound.handle`) and of every run (`TextsSound.after`).
-/

namespace RacketTree

/-! ## Texts that belong to their trees -/

theorem OpenText.Sound.of_replace {t t' : OpenText} (h : t.Sound) {start stop : Nat}
    {inserted : Codes} (hreplace : t.replace start stop inserted = .ok t') : t'.Sound := by
  by_cases hin : start ≤ t.text.chars.length ∧ stop ≤ t.text.chars.length
  · obtain ⟨t₁, hreplace₁, hsound, -⟩ := h.replace hin.1 hin.2 inserted
    rw [hreplace] at hreplace₁
    cases hreplace₁
    exact hsound
  · -- a range that reaches out of the text is refused
    have hout : Edit.replacement t.tree.source (min start stop : Nat) (max start stop : Nat)
        inserted.chars = .error (.outOfBounds (min start stop : Nat) (max start stop : Nat)) := by
      rw [Edit.replacement, h.source, if_neg]
      simp only [Bool.and_eq_true, decide_eq_true_eq]
      omega
    simp only [OpenText.replace, Tree.replace, hout] at hreplace
    cases hreplace

/-- If the content is a text, it belongs to its tree. -/
def Content.Sound (c : Content) : Prop :=
  ∀ t, c = .text t → t.Sound

theorem Content.sound_text {t : OpenText} (h : t.Sound) : (Content.text t).Sound := by
  intro u hu
  cases hu
  exact h

theorem Content.sound_read? {config : Config} {j : Json} {c : Content}
    (h : Content.read? config j = some c) : c.Sound := by
  unfold read? at h
  split at h
  · cases h
    exact sound_text (OpenText.sound_read config _)
  · obtain ⟨hasErrors, -, rfl⟩ := Option.map_eq_some_iff.mp h
    exact nofun
  · cases h
    exact nofun
  · cases h

namespace Server

/-- Every text that is open belongs to its tree. -/
def TextsSound (s : Server) : Prop :=
  ∀ d ∈ s.documents, d.content.Sound

theorem TextsSound.document? {s : Server} (h : s.TextsSound) {uri : Json} {d : Document}
    (hd : s.document? uri = some d) : d.content.Sound :=
  h d (List.mem_of_find?_eq_some hd)

theorem TextsSound.put {s : Server} (h : s.TextsSound) {d : Document} (hd : d.content.Sound) :
    (s.put d).TextsSound := by
  intro e he
  unfold Server.put at he
  split at he
  · obtain ⟨e', he', rfl⟩ := List.mem_map.mp he
    split
    · exact hd
    · exact h e' he'
  · rcases List.mem_append.mp he with he | he
    · exact h e he
    · rw [List.mem_singleton.mp he]
      exact hd

theorem TextsSound.erase {s : Server} (h : s.TextsSound) (uri : Json) :
    (s.erase uri).TextsSound :=
  fun d hd => h d (List.mem_of_mem_filter hd)

/-! ## Steps of handlers -/

namespace Handler

variable {α β : Type} {q : α → Prop} {r : β → Prop}

/-- Whether the step succeeds or fails, the texts still belong to their trees, and the value that it
gives has a property. -/
def Keeps (m : Handler α) (q : α → Prop) : Prop :=
  ∀ s : Server, s.TextsSound →
    (m.run.run s).2.TextsSound ∧ ∀ a, (m.run.run s).1 = .ok a → q a

theorem keeps_pure {a : α} (h : q a) : Keeps (pure a) q := by
  intro s hs
  refine ⟨hs, fun b hb => ?_⟩
  cases hb
  exact h

theorem keeps_throw (f : Rpc.Failure) : Keeps (throw f : Handler α) q :=
  fun _ hs => ⟨hs, nofun⟩

theorem keeps_unexpected (what : String) : Keeps (unexpected what : Handler α) q :=
  keeps_throw _

theorem keeps_modify {f : Server → Server} (h : ∀ s, s.TextsSound → (f s).TextsSound) :
    Keeps (modify f) fun _ => True :=
  fun s hs => ⟨h s hs, fun _ _ => trivial⟩

theorem keeps_getThe : Keeps (getThe Server) TextsSound := by
  intro s hs
  refine ⟨hs, fun t ht => ?_⟩
  cases ht
  exact hs

theorem Keeps.bind {m : Handler α} {f : α → Handler β} (hm : Keeps m q)
    (hf : ∀ a, q a → Keeps (f a) r) : Keeps (m >>= f) r := by
  intro s hs
  obtain ⟨hs', hq⟩ := hm s hs
  rw [ExceptT.run_bind, StateT.run_bind]
  generalize m.run.run s = result at hs' hq
  obtain ⟨outcome, s'⟩ := result
  cases outcome with
  | ok a => exact hf a (hq a rfl) s' hs'
  | error e => exact ⟨hs', nofun⟩

/-! ## Parameters -/

theorem keeps_object (what : String) (j : Json) : Keeps (object what j) fun _ => True := by
  unfold object
  split
  · exact keeps_pure trivial
  · exact keeps_unexpected what

theorem keeps_get (what : String) (j : Json) (name : Codes) (absent : Json) :
    Keeps (get what j name absent) fun _ => True :=
  (keeps_object what j).bind fun _ _ => keeps_pure trivial

theorem keeps_text (what : String) (j : Json) : Keeps (text what j) fun _ => True := by
  unfold text
  split
  · exact keeps_pure trivial
  · exact keeps_unexpected what

theorem keeps_key (uri : Json) : Keeps (key uri) fun _ => True := by
  unfold key
  split
  · exact keeps_pure trivial
  · exact keeps_unexpected _

theorem keeps_logLine (text : Codes) : Keeps (logLine text) fun _ => True :=
  keeps_modify fun _ hs => hs

theorem keeps_content (config : Config) (value : Json) :
    Keeps (content config value) Content.Sound := by
  unfold content
  split
  · rename_i c hc
    exact keeps_pure (Content.sound_read? hc)
  · exact keeps_unexpected _

theorem keeps_placeAt (t : OpenText) (position : Json) :
    Keeps (placeAt t position) fun _ => True := by
  refine (keeps_get _ _ _ _).bind fun line _ => (keeps_get _ _ _ _).bind fun character _ => ?_
  split
  · exact keeps_pure trivial
  · exact keeps_unexpected _

theorem keeps_offsetAt (t : OpenText) (position : Json) :
    Keeps (offsetAt t position) fun _ => True := by
  refine (keeps_placeAt t position).bind fun place _ => ?_
  split
  · exact keeps_pure trivial
  · exact keeps_unexpected _

theorem keeps_textOf {d : Document} (hd : d.content.Sound) : Keeps (textOf d) OpenText.Sound := by
  unfold textOf
  split
  · rename_i t ht
    refine keeps_pure (hd t ?_)
    unfold Content.text? at ht
    split at ht
    · rename_i u hu
      cases ht
      exact hu
    · cases ht
  · exact keeps_unexpected _

theorem keeps_publish (uri : Json) (diagnostics : List Json) :
    Keeps (publish uri diagnostics) fun _ => True := by
  unfold publish Rpc.sendMessage
  split
  · exact keeps_throw _
  · exact keeps_modify fun _ hs => hs

theorem keeps_validate (d : Document) : Keeps (validate d) fun _ => True := by
  unfold validate
  split
  · exact keeps_publish _ _
  · exact keeps_unexpected _

theorem keeps_textDocument (params : Json) : Keeps (textDocument params) fun _ => True :=
  keeps_get _ _ _ _

theorem keeps_uriOf (description : Json) : Keeps (uriOf description) fun _ => True :=
  keeps_get _ _ _ _

theorem keeps_put {d : Document} (hd : d.content.Sound) :
    Keeps (modify (Server.put d)) fun _ => True :=
  keeps_modify fun _ hs => hs.put hd

theorem keeps_requested? (params : Json) :
    Keeps (requested? params) fun d? => ∀ d, d? = some d → d.content.Sound := by
  refine (keeps_textDocument params).bind fun description _ => ?_
  refine (keeps_uriOf description).bind fun uri _ => (keeps_key uri).bind fun _ _ => ?_
  refine keeps_getThe.bind fun s hs => keeps_pure fun d hd => ?_
  exact hs.document? hd

end Handler

open Handler

/-! ## Handlers -/

theorem keeps_setRoot (params : Json) : Keeps (setRoot params) fun _ => True := by
  refine (keeps_get _ _ _ _).bind fun rootUri _ => ?_
  refine Keeps.bind (keeps_modify fun _ hs => hs) fun _ _ => ?_
  split
  · refine (keeps_get _ _ _ _).bind fun rootPath _ => ?_
    refine Keeps.bind (keeps_modify fun _ hs => hs) fun _ _ => ?_
    split
    · refine (keeps_text _ _).bind fun path _ => ?_
      split
      · exact keeps_unexpected _
      · exact keeps_modify fun _ hs => hs
    · exact keeps_pure trivial
  · exact (keeps_text _ _).bind fun uri _ => keeps_modify fun _ hs => hs

theorem keeps_loadConfig : Keeps loadConfig fun _ => True := by
  refine keeps_getThe.bind fun s _ => ?_
  split
  · refine (keeps_text _ _).bind fun path _ => ?_
    split
    · refine Keeps.bind (keeps_modify fun _ hs => hs) fun _ _ => ?_
      split
      · split
        · exact keeps_logLine _
        · exact keeps_pure trivial
      · exact keeps_pure trivial
    · split
      · exact (keeps_logLine _).bind fun _ _ => keeps_modify fun _ hs => hs
      · exact keeps_throw _
  · exact keeps_pure trivial

theorem keeps_onInitialize (params : Json) : Keeps (onInitialize params) fun _ => True := by
  refine (keeps_logLine _).bind fun _ _ => (keeps_setRoot params).bind fun _ _ => ?_
  refine keeps_getThe.bind fun s _ => (keeps_logLine _).bind fun _ _ => ?_
  exact keeps_loadConfig.bind fun _ _ => keeps_pure trivial

theorem keeps_onInitialized (params : Json) : Keeps (onInitialized params) fun _ => True :=
  (keeps_logLine _).bind fun _ _ => keeps_modify fun _ hs => hs

theorem keeps_onShutdown (params : Json) : Keeps (onShutdown params) fun _ => True :=
  (keeps_logLine _).bind fun _ _ =>
    Keeps.bind (keeps_modify fun _ hs => hs) fun _ _ => keeps_pure trivial

theorem keeps_onExit (params : Json) : Keeps (onExit params) fun _ => True :=
  (keeps_logLine _).bind fun _ _ => keeps_getThe.bind fun _ _ => keeps_throw _

theorem keeps_onOpen (params : Json) : Keeps (onOpen params) fun _ => True := by
  refine (keeps_textDocument params).bind fun description _ => ?_
  refine (keeps_uriOf description).bind fun uri _ => (keeps_logLine _).bind fun _ _ => ?_
  refine (keeps_get _ _ _ _).bind fun languageId _ => (keeps_get _ _ _ _).bind fun version _ => ?_
  refine (keeps_get _ _ _ _).bind fun given _ => keeps_getThe.bind fun s _ => ?_
  refine (keeps_content _ given).bind fun c hc => (keeps_key uri).bind fun _ _ => ?_
  exact (keeps_put hc).bind fun _ _ => keeps_validate _

theorem keeps_applyChange {d : Document} (hd : d.content.Sound) (change : Json) :
    Keeps (applyChange d change) fun d' => d'.content.Sound := by
  refine (keeps_get _ _ _ _).bind fun inserted _ => (keeps_get _ _ _ _).bind fun range _ => ?_
  split
  · exact (keeps_content _ inserted).bind fun c hc => keeps_pure hc
  · refine (keeps_object _ _).bind fun fields _ => ?_
    split
    · refine (keeps_textOf hd).bind fun t ht => (keeps_offsetAt t _).bind fun start _ => ?_
      refine (keeps_offsetAt t _).bind fun stop _ => (keeps_text _ _).bind fun given _ => ?_
      split
      · rename_i t' hreplace
        exact keeps_pure (Content.sound_text (ht.of_replace hreplace))
      · exact keeps_throw _
    · exact keeps_unexpected _

theorem keeps_applyChanges (changes : List Json) : ∀ {d : Document}, d.content.Sound →
    Keeps (applyChanges d changes) fun d' => d'.content.Sound := by
  induction changes with
  | nil => exact fun hd => keeps_pure hd
  | cons change rest ih =>
    intro d hd
    refine (keeps_applyChange hd change).bind fun d' hd' => ?_
    exact (keeps_put hd').bind fun _ _ => ih hd'

theorem keeps_changesOf (j : Json) : Keeps (changesOf j) fun _ => True := by
  unfold changesOf
  split
  · exact keeps_pure trivial
  · split
    · exact keeps_pure trivial
    · exact keeps_unexpected _
  · split
    · exact keeps_pure trivial
    · exact keeps_unexpected _
  · exact keeps_unexpected _

theorem keeps_onChange (params : Json) : Keeps (onChange params) fun _ => True := by
  refine (keeps_textDocument params).bind fun description _ => ?_
  refine (keeps_uriOf description).bind fun uri _ => (keeps_key uri).bind fun _ _ => ?_
  refine keeps_getThe.bind fun s hs => ?_
  split
  · exact keeps_logLine _
  · rename_i d hd
    refine (keeps_get _ _ _ _).bind fun given _ => (keeps_changesOf given).bind fun changes _ => ?_
    refine (keeps_applyChanges changes (hs.document? hd)).bind fun d' hd' => ?_
    refine (keeps_get _ _ _ _).bind fun version _ => ?_
    exact Keeps.bind (keeps_put hd') fun _ _ => keeps_validate _

theorem keeps_onClose (params : Json) : Keeps (onClose params) fun _ => True := by
  refine (keeps_textDocument params).bind fun description _ => ?_
  refine (keeps_uriOf description).bind fun uri _ => (keeps_logLine _).bind fun _ _ => ?_
  refine (keeps_key uri).bind fun _ _ => ?_
  exact (keeps_modify fun _ hs => hs.erase uri).bind fun _ _ => keeps_publish _ _

theorem keeps_onSave (params : Json) : Keeps (onSave params) fun _ => True := by
  refine (keeps_textDocument params).bind fun description _ => ?_
  refine (keeps_uriOf description).bind fun uri _ => (keeps_get _ _ _ _).bind fun saved _ => ?_
  refine (keeps_logLine _).bind fun _ _ => (keeps_key uri).bind fun _ _ => ?_
  refine keeps_getThe.bind fun s _ => ?_
  split
  · exact keeps_pure trivial
  · exact keeps_pure trivial
  · split
    · refine keeps_getThe.bind fun _ _ => (keeps_content _ _).bind fun c hc => ?_
      exact (keeps_put hc).bind fun _ _ => keeps_validate _
    · exact keeps_pure trivial

theorem keeps_onHover (params : Json) : Keeps (onHover params) fun _ => True := by
  refine (keeps_requested? params).bind fun d? hd? => ?_
  split
  · exact keeps_pure trivial
  · split
    · exact keeps_throw _
    · refine (keeps_textOf (hd? _ rfl)).bind fun t _ => ?_
      exact (keeps_placeAt t _).bind fun place _ => keeps_pure trivial

theorem keeps_onDocumentSymbol (params : Json) :
    Keeps (onDocumentSymbol params) fun _ => True := by
  refine (keeps_requested? params).bind fun d? _ => ?_
  split
  · exact keeps_pure trivial
  · exact keeps_pure trivial

theorem keeps_onFoldingRange (params : Json) : Keeps (onFoldingRange params) fun _ => True := by
  refine (keeps_requested? params).bind fun d? hd? => ?_
  split
  · exact keeps_pure trivial
  · exact (keeps_textOf (hd? _ rfl)).bind fun t _ => keeps_pure trivial

/-! ## Messages and runs -/

theorem keeps_request? {name : String} {handler : Json → Handler Json}
    (h : request? name = some handler) (params : Json) : Keeps (handler params) fun _ => True := by
  unfold request? at h
  split at h <;> cases h
  · exact keeps_onInitialize params
  · exact keeps_onShutdown params
  · exact keeps_onHover params
  · exact keeps_onDocumentSymbol params
  · exact keeps_onFoldingRange params

theorem keeps_notification? {name : String} {handler : Json → Handler Unit}
    (h : notification? name = some handler) (params : Json) :
    Keeps (handler params) fun _ => True := by
  unfold notification? at h
  split at h <;> cases h
  · exact keeps_onInitialized params
  · exact keeps_onExit params
  · exact keeps_onOpen params
  · exact keeps_onChange params
  · exact keeps_onClose params
  · exact keeps_onSave params

theorem exists_lookup {α : Type} {table : String → Option α} {method : Json} {a : α}
    (h : Rpc.lookup table method = some a) : ∃ name, table name = some a := by
  unfold Rpc.lookup at h
  split at h
  · obtain ⟨name, -, hname⟩ := Option.bind_eq_some_iff.mp h
    exact ⟨name, hname⟩
  · cases h

theorem TextsSound.answer {s : Server} (h : s.TextsSound) (id method params : Json) :
    (Rpc.answer handlers id method params s).2.TextsSound := by
  unfold Rpc.answer
  split
  · exact h
  · rename_i handler hfound
    obtain ⟨name, hname⟩ := exists_lookup hfound
    obtain ⟨hs, -⟩ := keeps_request? hname params s h
    split
    all_goals
      rename_i hrun
      rw [hrun] at hs
      exact hs

theorem TextsSound.take {s : Server} (h : s.TextsSound) (method params : Json) :
    (Rpc.take handlers method params s).2.TextsSound := by
  unfold Rpc.take
  split
  · exact h
  · rename_i handler hfound
    obtain ⟨name, hname⟩ := exists_lookup hfound
    obtain ⟨hs, -⟩ := keeps_notification? hname params s h
    split
    all_goals
      rename_i hrun
      rw [hrun] at hs
      exact hs

/-- No message makes a text that does not belong to its tree. -/
theorem TextsSound.handle {s : Server} (h : s.TextsSound) (fields : Json.Fields) :
    (s.handle fields).2.TextsSound := by
  unfold Server.handle Rpc.handle
  dsimp only
  split
  · exact h
  · split
    · exact h
    · split
      · exact h
      · split
        · exact h.answer _ _ _
        · exact h.take _ _

/-- The server after messages, whatever they are and however it takes them. -/
def after (s : Server) (messages : List Json.Fields) : Server :=
  messages.foldl (fun s fields => (s.handle fields).2) s

theorem TextsSound.after {s : Server} (h : s.TextsSound) (messages : List Json.Fields) :
    (s.after messages).TextsSound := by
  induction messages generalizing s with
  | nil => exact h
  | cons fields messages ih => exact ih (h.handle fields)

theorem textsSound_of_nil {s : Server} (h : s.documents = []) : s.TextsSound := by
  simp [TextsSound, h]

end Server

end RacketTree

import RacketTree.Proofs.Tree.Datum
import RacketTree.Proofs.Tree.Requests

/-!
# Single datums step by step

Reading a single datum from an offset on is three calls on a new cursor: it goes to the offset,
reads the trivia there and then the datum. `Cursor.seek_firstDatum` says that these calls end as
`parseDatum` says, with the same records, the same offsets and the same failure.

`Takes` says of a call what has been read: the drafts whose records are new, the lexemes that are
left and the offset behind.
-/

namespace RacketTree

namespace Cursor

open Call

/-- Reads the first datum at or after the cursor. The value is the datum and its offset. -/
def firstDatum : Call (Handle × Nat) := do
  let _ ← readTrivia
  let c ← get
  let datum ← readDatum
  return (datum, c.pos)

variable {c c₁ c' : Cursor} {l : Lexeme} {ls rest : List Lexeme} {ds ds' : List Draft}
  {hs hs' : List Handle} {x : Handle}

/-- A call from `c` to `c'` has read some drafts, up to the lexemes that are left. -/
structure Takes (c : Cursor) (ds : List Draft) (rest : List Lexeme) (hs : List Handle)
    (c' : Cursor) : Prop where
  goes : ∃ used, Goes c c' used
  stored : c.arena.storeAll ds = (c'.arena, hs)
  lexemes : c'.lexemes = rest
  pos : c'.pos = c.pos + Draft.widths ds

theorem Takes.trans (h : c.Takes ds ls hs c₁) (h' : c₁.Takes ds' rest hs' c') :
    c.Takes (ds ++ ds') rest (hs ++ hs') c' where
  goes := by
    obtain ⟨used, hgoes⟩ := h.goes
    obtain ⟨used', hgoes'⟩ := h'.goes
    exact ⟨used ++ used', hgoes.trans hgoes'⟩
  stored := Arena.storeAll_append h.stored h'.stored
  lexemes := h'.lexemes
  pos := by rw [h'.pos, h.pos, Nat.add_assoc, Draft.widths_eq, Draft.widths_eq, Draft.widths_eq,
    Draft.texts_append, List.length_append]

theorem Goes.takes_nil (h : Goes c c' []) (harena : c'.arena = c.arena) :
    c.Takes [] c.lexemes [] c' where
  goes := ⟨[], h⟩
  stored := by rw [harena]; rfl
  lexemes := h.lexemes_eq
  pos := h.pos

/-- An item that is read in front of the others is the next item of the text. -/
theorem ReadsTop.takes (h : c.ReadsTop x c') (hl : c.lexemes = l :: ls) :
    c.Takes [(Read.readItem c.config c.depth l ls).1] (Read.readItem c.config c.depth l ls).2
      [x] c' := by
  obtain ⟨used, d, hgoes, hne, hstored, hitems⟩ := h
  have htexts := congrArg Draft.texts hitems
  rw [Draft.texts_cons, lexemes, lexemes, Read.texts_readItems, Read.texts_readItems,
    hgoes.source] at htexts
  rw [hl, Read.readItems_cons] at hitems
  obtain ⟨rfl, hrest⟩ := List.cons.inj hitems
  obtain ⟨used', -, -, hsplit, -⟩ := Read.exists_item c.config c.depth l ls
  have hleft : (Read.readItem c.config c.depth l ls).2 =
      Token.lexemes (Lexeme.texts (Read.readItem c.config c.depth l ls).2) :=
    (Token.lexemes_suffix (hl.trans hsplit)).2
  refine ⟨⟨used, hgoes⟩, hstored, ?_, ?_⟩
  -- the same items have the same text, and the lexemes of a text are the same
  · rw [hleft, lexemes] at hrest
    have hsame := congrArg Draft.texts hrest
    rw [Read.texts_readItems, Read.texts_readItems] at hsame
    rw [hleft, hsame, lexemes]
  · have hlength := congrArg List.length htexts
    have hlt := hgoes.pos_lt hne
    have hwithin := hgoes.sound.within
    rw [hgoes.source] at hwithin
    rw [List.length_append, List.length_drop, List.length_drop, ← Draft.width_eq] at hlength
    rw [Draft.widths_eq, Draft.texts_cons, Draft.texts_nil, List.append_nil, ← Draft.width_eq]
    omega

/-! ## The three calls -/

/-- The call for trivia takes what the stack reader takes as trivia. -/
theorem returns_trivia_takes (h : c.Sound) :
    readTrivia.Returns c fun hs c' => c.Takes (Read.readTrivia c.config c.depth c.lexemes).1
      (Read.readTrivia c.config c.depth c.lexemes).2 hs c' := by
  induction hm : c.lexemes.length using Nat.strongRecOn generalizing c with
  | _ m ih =>
  cases hl : c.lexemes with
  | nil =>
    refine (readTrivia_of_not_trivia h (by simp [hl])).mono ?_
    rintro hs c₁ ⟨rfl, hgoes, harena⟩
    rw [Read.readTrivia, ← hl]
    exact hgoes.takes_nil harena
  | cons l ls =>
    by_cases htrivia : l.isTrivia = true
    · rw [readTrivia, Phrase.read]
      refine (returns_peek_cons h hl).bind ?_
      rintro t c₁ ⟨rfl, hgoes₁, harena₁⟩
      simp only [htrivia, if_true]
      refine (returns_readTriviaItem (specs _) hgoes₁.sound (hgoes₁.lexemes_eq.trans hl)
        (Nat.le_refl _) htrivia).bind fun x c₂ hitem => ?_
      have htop := (hitem.of_goes hgoes₁ harena₁).readsTop
      have htakes := htop.takes hl
      obtain ⟨used, -, hgoes₂, hne, -⟩ := htop
      -- the item has taken a lexeme, so `ih` covers what is left
      refine (ih _ (hm ▸ hgoes₂.length_lt hne) hgoes₂.sound rfl).bind fun hs c₃ hrest => ?_
      rw [hgoes₂.config, hgoes₂.depth, htakes.lexemes] at hrest
      rw [Read.readTrivia_cons_of_trivia htrivia]
      exact returns_pure (htakes.trans hrest)
    · refine (readTrivia_of_not_trivia h (by simpa [hl] using htrivia)).mono ?_
      rintro hs c₁ ⟨rfl, hgoes, harena⟩
      rw [Read.readTrivia, if_neg htrivia, ← hl]
      exact hgoes.takes_nil harena

/-- The call for a datum fails where the stack reader does, or takes the item that this gives. -/
theorem readDatum_eq (h : c.Sound) :
    match Read.readDatum c.config c.depth c.pos c.lexemes with
    | .error e => ∃ c', readDatum c = some (.error (.refused e), c')
    | .ok (d, rest) =>
      d.isSingle = true ∧ ∃ x c', readDatum c = some (.ok x, c') ∧ c.Takes [d] rest [x] c' := by
  cases herror : Read.datumError? c.pos c.lexemes with
  | some e =>
    rw [Read.readDatum_of_error herror]
    obtain ⟨c', hfails, -⟩ := readDatum_of_error h herror
    exact ⟨c', hfails⟩
  | none =>
    obtain ⟨l, ls, hl, hdatum⟩ := Read.exists_of_datumError? herror
    have hv : ∀ y ∈ l :: ls, y.Valid ∧ y.Spelled := fun y hy =>
      have hmem : y ∈ c.lexemes := hl ▸ hy
      ⟨valid_of_mem hmem, spelled_of_mem hmem⟩
    obtain ⟨x, c', hok, hitem⟩ := returns_readDatum (specs _) h hl (Nat.le_refl _) hdatum
    rw [hl, Read.readDatum_of_begins hdatum]
    exact ⟨Read.isSingle_readItem hv, x, c', hok, hitem.readsTop.takes hl⟩

theorem eq_pred_size_of_storeAll {a b : Arena} {d : Draft} (hd : d.isSingle = true)
    (h : a.storeAll [d] = (b, [x])) : x = b.size - 1 := by
  cases d with
  | leaf kind text fault =>
    rw [Arena.storeAll_leaf] at h
    cases h
    rw [Arena.leaf, Arena.size_push, Nat.add_sub_cancel]
  | branch kind children fault =>
    rw [Arena.storeAll_branch kind fault (Prod.eta (a.storeAll children)).symm] at h
    cases h
    rw [Arena.branch, Arena.size_push, Nat.add_sub_cancel]
  | tail => cases hd

/-- What the calls for the trivia and the datum give, where no construct is open. -/
theorem firstDatum_eq (h : c.Sound) (hdepth : c.depth = 0) (harena : c.arena = Arena.empty) :
    ∃ r c', firstDatum c = some (r, c') ∧
      match parseDatum c.config c.source c.pos with
      | .error e => r = .error (.refused e)
      | .ok (a, t, stop) => r = .ok (t.root, t.rootStart) ∧ c'.arena = a ∧ c'.pos = stop := by
  obtain ⟨hs, c₁, htrivia, htakes⟩ := returns_trivia_takes h
  obtain ⟨⟨trivia, rest⟩, hread⟩ :
      ∃ r, Read.readTrivia c.config 0 (Token.lexemes (c.source.drop c.pos)) = r := ⟨_, rfl⟩
  rw [hdepth, lexemes, hread] at htakes
  obtain ⟨used, hgoes⟩ := htakes.goes
  have hdatum := readDatum_eq hgoes.sound
  rw [hgoes.config, hgoes.depth, hdepth, htakes.lexemes, htakes.pos] at hdatum
  have hcall : firstDatum c =
      (readDatum >>= fun datum => pure (datum, c₁.pos) : Call (Handle × Nat)) c₁ :=
    bind_of_ok _ htrivia
  cases hresult : Read.readDatum c.config 0 (c.pos + Draft.widths trivia) rest with
  | error e =>
    rw [hresult] at hdatum
    obtain ⟨c', hfails⟩ := hdatum
    refine ⟨_, c', hcall.trans (bind_of_error _ hfails), ?_⟩
    rw [parseDatum_of_error hread hresult]
  | ok p =>
    obtain ⟨d, behind⟩ := p
    rw [hresult] at hdatum
    obtain ⟨hsingle, x, c', hok, hdatum⟩ := hdatum
    have hstored := (htakes.trans hdatum).stored
    rw [harena] at hstored
    have hparse : parseDatum c.config c.source c.pos =
        .ok (c'.arena, ⟨c.source, c'.arena.size - 1, c.config, c.pos + Draft.widths trivia⟩,
          c.pos + Draft.widths trivia + d.width) := by
      simp only [parseDatum, hread, hresult]
      change Except.ok _ = _
      rw [hstored]
    refine ⟨_, c', hcall.trans (bind_of_ok _ hok), ?_⟩
    rw [hparse]
    refine ⟨?_, rfl, ?_⟩
    · rw [eq_pred_size_of_storeAll hsingle hdatum.stored, htakes.pos]
    · rw [hdatum.pos, htakes.pos]
      rfl

/-- From a new cursor the three calls end as `parseDatum` says: with the records, the root and the
offsets of the tree, or with the same failure. -/
theorem seek_firstDatum (config : Config) (source : List Char) {o : Nat} (ho : o ≤ source.length) :
    ∃ r c, (do seek o; firstDatum : Call (Handle × Nat)) (start Arena.empty config source) =
        some (r, c) ∧
      match parseDatum config source o with
      | .error e => r = .error (.refused e)
      | .ok (a, t, stop) => r = .ok (t.root, t.rootStart) ∧ c.arena = a ∧ c.pos = stop :=
  @firstDatum_eq { start Arena.empty config source with pos := o } ⟨ho, nofun⟩ rfl rfl

end Cursor

end RacketTree

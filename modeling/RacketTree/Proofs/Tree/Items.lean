import Mathlib.Data.List.Forall2
import Mathlib.Data.List.Induction
import RacketTree.Proofs.Tree.Run

/-!
# Items of a text

An `Item` is a run of the reader from one lexeme at top level on, and `Items` are several of them
one after the other. Every front of the items that are read has such runs (`exists_items`), and the
runs give the same items in front of every text that may follow (`Items.readItems`).
-/

namespace RacketTree.Read

open Lexeme (texts)

variable {config : Config} {outer : Nat}

/-! ## Single items -/

/-- The item of a lexeme that opens nothing. -/
def lone (l : Lexeme) : Draft :=
  if stops l then stray l else l.draft

/-- The lexemes of one item at top level, how it ends, and the item. -/
inductive Item (config : Config) (outer : Nat) : List Lexeme → Ending → Draft → Prop
  | lone {l : Lexeme} (h : Frame.ofLexeme? l = none) : Item config outer [l] .complete (lone l)
  | deep {l : Lexeme} {frame : Frame} (ls : List Lexeme) (hf : Frame.ofLexeme? l = some frame)
      (h : config.maxDepth ≤ outer) : Item config outer (l :: ls) .cut (tooDeep (l :: ls))
  | framed {l : Lexeme} {frame : Frame} {used : List Lexeme} {e : Ending} {d : Draft}
      (hf : Frame.ofLexeme? l = some frame) (h : outer < config.maxDepth)
      (run : Run config outer frame [] used e d) : Item config outer (l :: used) e d

theorem stops_of_ofLexeme? {l : Lexeme} {frame : Frame} (h : Frame.ofLexeme? l = some frame) :
    stops l = false := by
  unfold Frame.ofLexeme? at h
  unfold stops
  split at h <;> simp_all

theorem readItem_eq (l : Lexeme) (ls : List Lexeme) :
    readItem config outer l ls =
      match Frame.ofLexeme? l with
      | none => (lone l, ls)
      | some frame =>
        if config.maxDepth ≤ outer then (tooDeep (l :: ls), [])
        else advance config outer frame [] ls := by
  rw [readItem]
  split
  · rename_i hk
    simp [Frame.ofLexeme?, lone, stops, hk]
  · rename_i hk
    simp [Frame.ofLexeme?, lone, stops, hk]
  · rename_i hcloser hdot
    have hstops : stops l = false := by simpa [stops] using ⟨hcloser, hdot⟩
    simp only [lone, hstops]
    cases Frame.ofLexeme? l <;> rfl

/-- The next item is the run of the lexemes that it takes. -/
theorem exists_item (config : Config) (outer : Nat) (l : Lexeme) (ls : List Lexeme) :
    ∃ used e, Item config outer used e (readItem config outer l ls).1 ∧
      l :: ls = used ++ (readItem config outer l ls).2 ∧
      e.Allows (readItem config outer l ls).2 := by
  rw [readItem_eq]
  cases hf : Frame.ofLexeme? l with
  | none => exact ⟨[l], .complete, .lone hf, rfl, trivial⟩
  | some frame =>
    by_cases h : config.maxDepth ≤ outer
    · simp only [if_pos h]
      exact ⟨l :: ls, .cut, .deep ls hf h, by simp, rfl⟩
    · simp only [if_neg h]
      obtain ⟨used, e, run, hls, hallows⟩ := exists_run config outer frame [] ls
      exact ⟨l :: used, e, .framed hf (by omega) run, congrArg (l :: ·) hls, hallows⟩

namespace Item

variable {used : List Lexeme} {e : Ending} {d : Draft}

theorem ne_nil (item : Item config outer used e d) : used ≠ [] := by
  cases item <;> simp

theorem readItem (item : Item config outer used e d) {ls : List Lexeme} (h : e.Allows ls) :
    ∃ l tail, used = l :: tail ∧ readItem config outer l (tail ++ ls) = (d, ls) := by
  cases item with
  | @lone l hf => exact ⟨l, [], rfl, by rw [readItem_eq, hf]; rfl⟩
  | @deep l frame ls' hf hdeep =>
    cases h
    refine ⟨l, ls', rfl, ?_⟩
    rw [readItem_eq, hf, List.append_nil]
    simp only [if_pos hdeep]
  | @framed l frame used _ _ hf hdeep run =>
    refine ⟨l, used, rfl, ?_⟩
    rw [readItem_eq, hf]
    simp only [if_neg (Nat.not_le.mpr hdeep)]
    exact run.advance h

theorem endsIn_lone {l : Lexeme} (hl : l.Valid) : (Read.lone l).EndsIn l.endKind l.endText := by
  unfold Read.lone
  split
  · rename_i hstops
    refine .branch _ [] _ (Lexeme.endsIn_leaf ?_)
    intro hk
    simp [stops, hk] at hstops
  · exact (Lexeme.draft_of_valid hl).2.2

theorem text_lone {l : Lexeme} (hl : l.Valid) : (Read.lone l).text = l.text := by
  unfold Read.lone
  split
  · simp [stray]
  · exact (Lexeme.draft_of_valid hl).1

theorem text (item : Item config outer used e d) (hv : ∀ l ∈ used, l.Valid) :
    d.text = texts used := by
  cases item with
  | lone hf => simpa using text_lone (hv _ List.mem_cons_self)
  | deep ls hf h => exact text_tooDeep _
  | framed hf h run =>
    rw [run.text fun l hl => hv l (List.mem_cons_of_mem _ hl)]
    simp [Frame.text_ofLexeme? hf]

theorem isSingle (item : Item config outer used e d) (hv : ∀ l ∈ used, l.Valid) :
    d.isSingle = true := by
  cases item with
  | lone hf => exact (endsIn_lone (hv _ List.mem_cons_self)).isSingle
  | deep ls hf h => rfl
  | framed hf h run => exact run.isSingle fun l hl => hv l (List.mem_cons_of_mem _ hl)

theorem endsIn_of_complete (item : Item config outer used .complete d)
    (hv : ∀ l ∈ used, l.Valid) :
    ∃ before l, used = before ++ [l] ∧ d.EndsIn l.endKind l.endText := by
  cases item with
  | @lone l hf => exact ⟨[], l, rfl, endsIn_lone (hv _ List.mem_cons_self)⟩
  | @framed l frame used _ _ hf h run =>
    obtain ⟨before, m, rfl, hends⟩ :=
      run.endsIn_of_complete fun l hl => hv l (List.mem_cons_of_mem _ hl)
    exact ⟨l :: before, m, rfl, hends⟩

theorem endsIn_of_dangling (item : Item config outer used .dangling d) : d.EndsIn .missing [] := by
  cases item with
  | framed hf h run => exact run.endsIn_of_dangling

theorem exchange {l m : Lexeme} (item : Item config outer (used ++ [l]) .complete d)
    (hl : isPlain l = true) (hm : isPlain m = true) :
    ∃ d', Item config outer (used ++ [m]) .complete d' := by
  cases used with
  | nil =>
    refine ⟨Read.lone m, .lone ?_⟩
    simp only [isPlain, Bool.and_eq_true, Option.isNone_iff_eq_none] at hm
    exact hm.1.2
  | cons u used =>
    generalize hls : u :: used ++ [l] = ls at item
    cases item with
    | lone hf => simp at hls
    | framed hf h run =>
      obtain ⟨rfl, rfl⟩ := List.cons.inj hls
      obtain ⟨d', run'⟩ := run.exchange hl hm
      exact ⟨d', .framed hf h run'⟩

end Item

/-! ## Items one after the other -/

/-- The lexemes of several items at top level, how the last one ends, and the items. -/
inductive Items (config : Config) (outer : Nat) : List Lexeme → Ending → List Draft → Prop
  | nil : Items config outer [] .complete []
  | snoc {before used : List Lexeme} {e e' : Ending} {ds : List Draft} {d : Draft}
      (items : Items config outer before e ds) (h : e.Allows used)
      (item : Item config outer used e' d) : Items config outer (before ++ used) e' (ds ++ [d])

theorem Ending.Allows.append {e : Ending} {ls : List Lexeme} (h : e.Allows ls) (hne : ls ≠ [])
    (ms : List Lexeme) : e.Allows (ls ++ ms) := by
  cases e with
  | complete => trivial
  | dangling =>
    obtain ⟨l, rest, rfl, hl⟩ := h
    exact ⟨l, rest ++ ms, rfl, hl⟩
  | cut => exact absurd h hne

theorem Ending.Allows.of_append {e : Ending} {ls ms : List Lexeme} (h : e.Allows (ls ++ ms))
    (hne : ls ≠ []) : e.Allows ls := by
  cases e with
  | complete => trivial
  | dangling =>
    obtain ⟨l, rest, hls, hl⟩ := h
    cases ls with
    | nil => exact absurd rfl hne
    | cons m ls =>
      obtain ⟨rfl, -⟩ := List.cons.inj hls
      exact ⟨m, ls, rfl, hl⟩
  | cut => exact absurd (List.append_eq_nil_iff.mp h).1 hne

theorem readItems_cons (l : Lexeme) (ls : List Lexeme) :
    readItems config outer (l :: ls) =
      (readItem config outer l ls).1 :: readItems config outer (readItem config outer l ls).2 := by
  rw [readItems]

/-- Every front of the items of a text is the run of a front of its lexemes. -/
theorem exists_items {ls : List Lexeme} {ds ds' : List Draft}
    (h : readItems config outer ls = ds ++ ds') :
    ∃ used rest e, ls = used ++ rest ∧ Items config outer used e ds ∧
      readItems config outer rest = ds' ∧ e.Allows rest := by
  -- the run of the next item goes behind the runs of those before it
  induction ds using List.reverseRecOn generalizing ds' with
  | nil => exact ⟨[], ls, .complete, rfl, .nil, h, trivial⟩
  | append_singleton ds d ih =>
    rw [List.append_assoc] at h
    obtain ⟨used, rest, e, rfl, items, hrest, hallows⟩ := ih h
    cases rest with
    | nil =>
      rw [readItems] at hrest
      cases hrest
    | cons l rest =>
      rw [readItems_cons] at hrest
      obtain ⟨hd, hds'⟩ := List.cons.inj hrest
      obtain ⟨used', e', item, hls, hallows'⟩ := exists_item config outer l rest
      rw [hd] at item
      rw [hls] at hallows ⊢
      exact ⟨used ++ used', _, e', (List.append_assoc ..).symm,
        .snoc items (hallows.of_append item.ne_nil) item, hds', hallows'⟩

namespace Items

variable {used : List Lexeme} {e : Ending} {ds : List Draft} {d : Draft}

theorem readItems (items : Items config outer used e ds) {ls : List Lexeme} (h : e.Allows ls) :
    readItems config outer (used ++ ls) = ds ++ readItems config outer ls := by
  induction items generalizing ls with
  | nil => rfl
  | snoc items hallows item ih =>
    rw [List.append_assoc, ih (hallows.append item.ne_nil ls), List.append_assoc]
    obtain ⟨l, tail, rfl, hread⟩ := item.readItem h
    rw [List.cons_append, readItems_cons, hread]
    rfl

theorem text (items : Items config outer used e ds) (hv : ∀ l ∈ used, l.Valid) :
    Draft.texts ds = texts used := by
  induction items with
  | nil => rfl
  | snoc items hallows item ih =>
    rw [Draft.texts_append, ih fun l hl => hv l (List.mem_append_left _ hl), Lexeme.texts_append,
      Draft.texts_cons, item.text fun l hl => hv l (List.mem_append_right _ hl), Draft.texts_nil,
      List.append_nil]

theorem isSingle (items : Items config outer used e ds) (hv : ∀ l ∈ used, l.Valid) :
    ∀ d ∈ ds, d.isSingle = true := by
  induction items with
  | nil => simp
  | snoc items hallows item ih =>
    intro d hd
    rcases List.mem_append.mp hd with hd | hd
    · exact ih (fun l hl => hv l (List.mem_append_left _ hl)) d hd
    · rw [List.mem_singleton.mp hd]
      exact item.isSingle fun l hl => hv l (List.mem_append_right _ hl)

/-- The last of several items. -/
theorem last (items : Items config outer used e (ds ++ [d])) :
    ∃ before used' e', used = before ++ used' ∧ Items config outer before e' ds ∧
      e'.Allows used' ∧ Item config outer used' e d := by
  generalize hds : ds ++ [d] = all at items
  cases items with
  | nil => simp at hds
  | snoc items hallows item =>
    obtain ⟨rfl, hd⟩ := List.append_inj' hds rfl
    cases hd
    exact ⟨_, _, _, rfl, items, hallows, item⟩

end Items

/-- If other options read each item of a text as a related one, they read the text as related
items. -/
theorem forall₂_readItems {config' : Config} {p : Draft → Prop} {r : Draft → Draft → Prop}
    {ls : List Lexeme}
    (hitem : ∀ used e d, (∀ l ∈ used, l ∈ ls) → Item config outer used e d → p d →
      ∃ d', Item config' outer used e d' ∧ r d d')
    (h : ∀ d ∈ readItems config outer ls, p d) :
    List.Forall₂ r (readItems config outer ls) (readItems config' outer ls) := by
  induction hn : ls.length using Nat.strongRecOn generalizing ls with
  | ind n ih =>
    cases ls with
    | nil =>
      rw [readItems, readItems]
      exact .nil
    | cons l ls =>
      obtain ⟨used, e, item, hls, hallows⟩ := exists_item config outer l ls
      rw [readItems_cons] at h ⊢
      obtain ⟨hd, hrest⟩ := List.forall_mem_cons.mp h
      have hmem : ∀ m ∈ used, m ∈ l :: ls := by
        intro m hm
        rw [hls]
        exact List.mem_append_left _ hm
      obtain ⟨d', item', hr⟩ := hitem used e _ hmem item hd
      have hlt := length_readItem_lt config outer l ls
      generalize (readItem config outer l ls).2 = rest at hls hallows hrest hlt ⊢
      obtain ⟨m, tail, rfl, hread⟩ := item'.readItem hallows
      rw [List.cons_append] at hls
      obtain ⟨rfl, rfl⟩ := List.cons.inj hls
      rw [readItems_cons, hread]
      refine .cons hr (ih _ (hn ▸ hlt) ?_ hrest rfl)
      intro used e d hused
      apply hitem
      intro x hx
      exact List.mem_cons_of_mem _ (List.mem_append_right _ (hused x hx))

end RacketTree.Read

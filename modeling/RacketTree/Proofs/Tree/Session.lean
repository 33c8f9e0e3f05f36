import RacketTree.Proofs.Tree.History
import RacketTree.Proofs.Tree.Records
import RacketTree.Tree.Render

/-!
# Sessions

A session is an arena and the versions whose records it holds. An operation reads a text into the
arena, or changes any version that there is; a change need not describe the new text truthfully, and
one that is refused leaves the session as it was.

`perform_cases` says once what an operation can do. From it follow, for every sequence of
operations:

* the arena is well-formed, only grows, and shows every version as it was when it was made
  (`run_persists`);
* the items of every version are items that have been read with its options (`run_items`).
-/

namespace RacketTree

open Token (lexemes)

/-- An arena and the versions that share it. -/
structure Session where
  arena : Arena
  versions : List Tree

/-- What can be done in a session. -/
inductive Operation where
  | parse (config : Config) (source : List Char)
  | revise (r : Revision)

namespace Session

/-- A session before any operation. -/
def empty : Session :=
  { arena := Arena.empty, versions := [] }

/-- The arena after an operation and the new version, unless the operation is refused. -/
def result? (s : Session) : Operation → Option (Arena × Tree)
  | .parse config source => some (parseInto s.arena config source)
  | .revise r =>
    match s.versions[r.base]? with
    | none => none
    | some t => (r.change.apply t s.arena).toOption

/-- The session after an operation. -/
def perform (s : Session) (op : Operation) : Session :=
  match s.result? op with
  | some (arena, t) => { arena, versions := s.versions ++ [t] }
  | none => s

/-- The session after several operations. -/
def run (s : Session) (ops : List Operation) : Session :=
  ops.foldl perform s

end Session

/-! ## One operation -/

theorem Change.exists_reparse {c : Change} {t : Tree} {a : Arena} {r : Arena × Tree}
    (h : c.apply t a = .ok r) : ∃ e new, t.reparse a new e = .ok r := by
  cases c with
  | edit e new => exact ⟨e, new, h⟩
  | replace start stop inserted =>
    rw [apply, Tree.replace] at h
    cases hr : Edit.replacement t.source start stop inserted with
    | error refusal =>
      rw [hr] at h
      cases h
    | ok p =>
      rw [hr] at h
      exact ⟨p.1, p.2, h⟩

theorem Tree.handle_lt_of_mem_items {t : Tree} {a : Arena} {n : Node} (h : n ∈ t.items a) :
    n.handle < a.size := by
  rw [items, node, Arena.view] at h
  cases hr : a.get? t.root with
  | none => simp [hr] at h
  | some r =>
    simp only [hr, List.mem_filterMap] at h
    obtain ⟨spot, -, hspot⟩ := h
    split at hspot
    · rename_i hbelow
      cases hspot
      rw [Arena.handle_view]
      exact Nat.lt_trans hbelow (Arena.lt_size_of_get? hr)
    · cases hspot

theorem Tree.mem_of_resumed? {items : List Node} {e : Edit} {pos : Nat} {tail : List Handle}
    (h : resumed? items e pos = some tail) : tail ⊆ items.map Node.handle := by
  unfold resumed? at h
  split at h
  · cases h
  · cases h
    exact List.map_subset _ (List.dropWhile_subset _)

/-- The root of a version is made of the items of a text and of items of another version. -/
structure Made (a : Arena) (versions : List Tree) (a' : Arena) (t : Tree) : Prop where
  rootStart : t.rootStart = 0
  parts : ∃ fresh hs, a' = (a.storeAll fresh).1.branch .source hs none ∧
    t.root = (a.storeAll fresh).1.size ∧
    (∀ d ∈ fresh, ∃ cs, d ∈ Read.readItems t.config 0 (lexemes cs)) ∧
    ∀ h ∈ hs, h ∈ (a.storeAll fresh).2 ∨
      ∃ u ∈ versions, u.config = t.config ∧ u.rootStart = 0 ∧ h ∈ (u.items a).map Node.handle

theorem made_parseInto (a : Arena) (versions : List Tree) (config : Config) (source : List Char) :
    Made a versions (parseInto a config source).1 (parseInto a config source).2 :=
  ⟨rfl, _, _, rfl, rfl, fun _ hd => ⟨source, hd⟩, fun _ hh => .inl hh⟩

theorem made_reparse {a a' : Arena} {versions : List Tree} {t t' : Tree} {new : List Char}
    {e : Edit} (ht : t ∈ versions) (h : t.reparse a new e = .ok (a', t')) :
    Made a versions a' t' := by
  have hrefusal : t.refusal? a new e = none := by
    rw [Tree.reparse] at h
    split at h
    · cases h
    · assumption
  have hroot : t.rootStart = 0 := by
    by_contra hne
    simp only [Tree.refusal?] at hrefusal
    repeat' split at hrefusal
    all_goals first
      | cases hrefusal; done
      | rename_i hno
        simp [hne] at hno
  obtain ⟨k, hk⟩ : ∃ k, Tree.kept a (t.items a) e = k := ⟨_, rfl⟩
  obtain ⟨pos, hpos⟩ : ∃ pos, ((t.items a)[k]?.map Node.start).getD 0 = pos := ⟨_, rfl⟩
  obtain ⟨⟨fresh, tail⟩, hread⟩ : ∃ p, Read.readUntil t.config 0
      (Tree.resumed? ((t.items a).drop (k + 1)) e) pos (lexemes (new.drop pos)) = p := ⟨_, rfl⟩
  rw [Tree.reparse_eq hrefusal rfl hk hpos hread] at h
  obtain ⟨hitems, hend⟩ := Read.readUntil_split _ _ _ _ hread
  have hreused : ∀ x ∈ (t.items a).map Node.handle, ∃ u ∈ versions, u.config = t.config ∧
      u.rootStart = 0 ∧ x ∈ (u.items a).map Node.handle :=
    fun x hx => ⟨t, ht, rfl, hroot, hx⟩
  have htail : tail.getD [] ⊆ (t.items a).map Node.handle := by
    rcases hend with ⟨rfl, -⟩ | ⟨hs, rfl, hresume⟩
    · exact List.nil_subset _
    · exact List.Subset.trans (Tree.mem_of_resumed? hresume)
        (List.map_subset _ (List.drop_subset _ _))
  cases h
  refine ⟨rfl, fresh, _, rfl, rfl, ?_, ?_⟩
  · intro d hd
    exact ⟨new.drop pos, by rw [hitems]; exact List.mem_append_left _ hd⟩
  · intro x hx
    rcases List.mem_append.mp hx with hx | hx
    · rcases List.mem_append.mp hx with hx | hx
      · exact .inr (hreused x (List.map_subset _ (List.take_subset _ _) hx))
      · exact .inl hx
    · exact .inr (hreused x (htail hx))

namespace Session

/-- An operation leaves the session as it is, or adds a version. -/
theorem perform_cases (s : Session) (op : Operation) :
    s.perform op = s ∨ ∃ a t, s.perform op = ⟨a, s.versions ++ [t]⟩ ∧
      Made s.arena s.versions a t := by
  unfold perform
  cases hres : s.result? op with
  | none => exact .inl rfl
  | some r =>
    refine .inr ⟨r.1, r.2, rfl, ?_⟩
    cases op with
    | parse config source =>
      cases hres
      exact made_parseInto _ _ config source
    | revise rev =>
      rw [result?] at hres
      cases hbase : s.versions[rev.base]? with
      | none =>
        rw [hbase] at hres
        cases hres
      | some t =>
        simp only [hbase] at hres
        cases happly : rev.change.apply t s.arena with
        | error refusal =>
          rw [happly] at hres
          cases hres
        | ok p =>
          rw [happly] at hres
          cases hres
          obtain ⟨e, new, hreparse⟩ := Change.exists_reparse happly
          exact made_reparse (List.mem_of_getElem? hbase) hreparse

/-! ## Growing arenas -/

/-- The arena is well-formed and has the roots of all versions. -/
structure Sound (s : Session) : Prop where
  wellFormed : s.arena.WellFormed
  root_lt : ∀ t ∈ s.versions, t.root < s.arena.size

theorem sound_empty : empty.Sound :=
  ⟨Arena.wellFormed_empty, nofun⟩

end Session

theorem Made.extends {a a' : Arena} {versions : List Tree} {t : Tree}
    (h : Made a versions a' t) : a.Extends a' := by
  obtain ⟨fresh, hs, rfl, -⟩ := h.parts
  exact (a.extends_storeAll fresh).trans (Arena.extends_push _ _)

theorem Made.wellFormed {a a' : Arena} {versions : List Tree} {t : Tree}
    (h : Made a versions a' t) (hwf : a.WellFormed) : a'.WellFormed ∧ t.root < a'.size := by
  obtain ⟨fresh, hs, rfl, hroot, -, hparts⟩ := h.parts
  refine ⟨(hwf.storeAll fresh).branch .source none fun x hx => ?_, ?_⟩
  · rcases hparts x hx with hfresh | ⟨u, -, -, -, hitem⟩
    · exact a.lt_size_storeAll fresh x hfresh
    · obtain ⟨n, hn, rfl⟩ := List.mem_map.mp hitem
      exact Nat.lt_of_lt_of_le (Tree.handle_lt_of_mem_items hn) (a.size_le_storeAll fresh)
  · rw [hroot, Arena.branch, Arena.size_push]
    exact Nat.lt_succ_self _

namespace Session

variable {s : Session}

theorem Sound.perform (h : s.Sound) (op : Operation) :
    (s.perform op).Sound ∧ s.arena.Extends (s.perform op).arena ∧
      s.versions <+: (s.perform op).versions := by
  rcases s.perform_cases op with hsame | ⟨a, t, hnew, hmade⟩
  · rw [hsame]
    exact ⟨h, .refl _, List.prefix_refl _⟩
  · obtain ⟨hwf, hroot⟩ := hmade.wellFormed h.wellFormed
    have hext := hmade.extends
    rw [hnew]
    refine ⟨⟨hwf, fun u hu => ?_⟩, hext, List.prefix_append _ _⟩
    rcases List.mem_append.mp hu with hu | hu
    · exact Nat.lt_of_lt_of_le (h.root_lt u hu) hext.size_le
    · rw [List.mem_singleton.mp hu]
      exact hroot

theorem Sound.run (h : s.Sound) (ops : List Operation) :
    (s.run ops).Sound ∧ s.arena.Extends (s.run ops).arena ∧ s.versions <+: (s.run ops).versions := by
  induction ops generalizing s with
  | nil => exact ⟨h, .refl _, List.prefix_refl _⟩
  | cons op ops ih =>
    obtain ⟨hsound, hext, hversions⟩ := h.perform op
    obtain ⟨hsound', hext', hversions'⟩ := ih hsound
    exact ⟨hsound', hext.trans hext', hversions.trans hversions'⟩

/-- After any operations the arena is well-formed. Further operations change no record and remove no
version, and every version has the same nodes as before, so the same text, structure, errors and
spans. -/
theorem run_persists (before after : List Operation) :
    let s := empty.run before
    let s' := s.run after
    s.arena.WellFormed ∧ (∀ h r, s.arena.get? h = some r → s'.arena.get? h = some r) ∧
      s.versions <+: s'.versions ∧
      ∀ t ∈ s.versions, t.node s'.arena = t.node s.arena ∧
        t.text s'.arena = t.text s.arena ∧
        (t.node s'.arena).sexp = (t.node s.arena).sexp ∧
        t.errors s'.arena = t.errors s.arena ∧
        (t.node s'.arena).walk.map (fun n => (n.start, n.stop)) =
          (t.node s.arena).walk.map (fun n => (n.start, n.stop)) := by
  intro s s'
  have hsound : s.Sound := (sound_empty.run before).1
  obtain ⟨hsound', hext, hversions⟩ := hsound.run after
  refine ⟨hsound.wellFormed, hext, hversions, fun t ht => ?_⟩
  have hnode : t.node s'.arena = t.node s.arena :=
    Arena.view_extends hsound.wellFormed hsound'.wellFormed hext (hsound.root_lt t ht) t.rootStart
  refine ⟨hnode, ?_, by rw [hnode], ?_, by rw [hnode]⟩
  · rw [Tree.text, Tree.text, hnode]
  · rw [Tree.errors, Tree.errors, hnode]

/-- An unclosed list, of which two edits make two new versions. -/
theorem run_persists_list :
    let before := [.parse .default ['(', 'a']]
    let after := [.revise ⟨0, .replace 2 2 [')']⟩, .revise ⟨0, .replace 1 2 []⟩]
    let t := (parseInto Arena.empty .default ['(', 'a']).2
    t ∈ (empty.run before).versions ∧
      t.text ((empty.run before).run after).arena = t.text (empty.run before).arena := by
  intro before after t
  have hmem : t ∈ (empty.run before).versions := List.mem_cons_self
  exact ⟨hmem, ((run_persists before after).2.2.2 t hmem).2.1⟩

end Session

/-! ## Items of versions -/

namespace Arena

variable {a : Arena} {n : Nat} {hs : List Handle} {ss : List Shape}

theorem HoldsAll.exists_holds (h : a.HoldsAll n hs ss) {x : Handle} (hx : x ∈ hs) :
    ∃ s ∈ ss, a.Holds x s := by
  induction ss generalizing hs with
  | nil =>
    cases h
    cases hx
  | cons s ss ih =>
    obtain ⟨y, rest, rfl, -, hy, hrest⟩ := h
    rcases List.mem_cons.mp hx with rfl | hx
    · exact ⟨s, List.mem_cons_self, hy⟩
    · obtain ⟨s', hs', hold⟩ := ih hrest hx
      exact ⟨s', List.mem_cons_of_mem _ hs', hold⟩

theorem exists_holdsAll {p : Shape → Prop} (h : ∀ x ∈ hs, x < n ∧ ∃ s, a.Holds x s ∧ p s) :
    ∃ ss, a.HoldsAll n hs ss ∧ ∀ s ∈ ss, p s := by
  induction hs with
  | nil => exact ⟨[], rfl, nofun⟩
  | cons x rest ih =>
    obtain ⟨⟨hlt, s, hold, hp⟩, hrest⟩ := List.forall_mem_cons.mp h
    obtain ⟨ss, hall, hps⟩ := ih hrest
    exact ⟨s :: ss, ⟨x, rest, rfl, hlt, hold, hall⟩, List.forall_mem_cons.mpr ⟨hp, hps⟩⟩

end Arena

/-- The root of a version is a source node around items with a property. -/
def Tree.ItemsHave (p : Config → Shape → Prop) (t : Tree) (a : Arena) : Prop :=
  t.rootStart = 0 ∧ ∃ ss, a.Holds t.root (.branch .source ss none) ∧ ∀ s ∈ ss, p t.config s

theorem Tree.ItemsHave.mono {p : Config → Shape → Prop} {t : Tree} {a b : Arena}
    (h : t.ItemsHave p a) (hab : a.Extends b) : t.ItemsHave p b := by
  obtain ⟨hstart, ss, hold, hp⟩ := h
  exact ⟨hstart, ss, hold.mono hab, hp⟩

theorem Tree.ItemsHave.exists_holds {p : Config → Shape → Prop} {t : Tree} {a : Arena}
    (h : t.ItemsHave p a) {x : Handle} (hx : x ∈ (t.items a).map Node.handle) :
    ∃ s, a.Holds x s ∧ p t.config s := by
  obtain ⟨hstart, ss, hold, hp⟩ := h
  obtain ⟨hs, hall, -, -, -, hchildren⟩ := Arena.view_branch hold t.rootStart
  rw [items, node, hchildren, Arena.map_handle_viewAll] at hx
  obtain ⟨s, hs, hold⟩ := hall.exists_holds hx
  exact ⟨s, hold, hp s hs⟩

theorem Made.itemsHave {p : Config → Shape → Prop} {a a' : Arena} {versions : List Tree} {t : Tree}
    (hp : ∀ config cs, ∀ d ∈ Read.readItems config 0 (lexemes cs), ∀ s ∈ d.shapes, p config s)
    (h : Made a versions a' t) (hversions : ∀ u ∈ versions, u.ItemsHave p a) :
    t.ItemsHave p a' := by
  obtain ⟨fresh, hs, rfl, hroot, hfresh, hparts⟩ := h.parts
  obtain ⟨hext, hsize, hstored⟩ := Arena.holdsAll_storeAll a fresh
  have hitems : ∀ x ∈ hs, x < (a.storeAll fresh).1.size ∧
      ∃ s, (a.storeAll fresh).1.Holds x s ∧ p t.config s := by
    intro x hx
    rcases hparts x hx with hx | ⟨u, hu, hconfig, -, hx⟩
    · obtain ⟨s, hs, hold⟩ := hstored.exists_holds hx
      refine ⟨hold.lt_size, s, hold, ?_⟩
      obtain ⟨d, hd, hs⟩ := Draft.mem_allShapes.mp hs
      obtain ⟨cs, hcs⟩ := hfresh d hd
      exact hp t.config cs d hcs s hs
    · obtain ⟨s, hold, hs⟩ := (hversions u hu).exists_holds hx
      have hold' := hold.mono hext
      exact ⟨hold'.lt_size, s, hold', hconfig ▸ hs⟩
  obtain ⟨ss, hall, hss⟩ := Arena.exists_holdsAll hitems
  refine ⟨h.rootStart, ss, ?_, hss⟩
  rw [hroot]
  exact Arena.holds_branch .source none hall

namespace Session

/-- Every version is a source node around items that have been read with its options. -/
theorem run_items {p : Config → Shape → Prop}
    (hp : ∀ config cs, ∀ d ∈ Read.readItems config 0 (lexemes cs), ∀ s ∈ d.shapes, p config s)
    (ops : List Operation) :
    ∀ t ∈ (empty.run ops).versions, t.ItemsHave p (empty.run ops).arena := by
  suffices h : ∀ s : Session, (∀ t ∈ s.versions, t.ItemsHave p s.arena) →
      ∀ t ∈ (s.run ops).versions, t.ItemsHave p (s.run ops).arena from h empty nofun
  induction ops with
  | nil => exact fun s h => h
  | cons op ops ih =>
    intro s h
    refine ih (s.perform op) ?_
    rcases s.perform_cases op with hsame | ⟨a, t, hnew, hmade⟩
    · rw [hsame]
      exact h
    · rw [hnew]
      intro u hu
      rcases List.mem_append.mp hu with hu | hu
      · exact (h u hu).mono hmade.extends
      · rw [List.mem_singleton.mp hu]
        exact hmade.itemsHave hp h

end Session

end RacketTree

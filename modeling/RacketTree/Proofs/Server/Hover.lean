import RacketTree.Proofs.Server.Invariant
import RacketTree.Proofs.Server.Notices
import RacketTree.Proofs.Tree.Lookup

/-!
# Hovering

A hover describes the node at a position of the client: the leaf at the offset, or the nearest node
around it that is no punctuation. There always is one below the root, so that a hover at an offset
in the text is never without an answer.

`Server.hover_finds` says this of every text that is open after any messages, next to what it rests
on: looking up an offset finds the right leaf in every version of a text.
-/

namespace RacketTree

namespace OpenText

variable {t : OpenText} {offset : Nat}

theorem Sound.looksUp (h : t.Sound) : t.tree.LooksUp t.arena := by
  obtain ⟨ss, hcov, -⟩ := h.covers
  exact hcov.looksUp

/-- Around every leaf of a text there is a node for a hover. -/
theorem Sound.exists_nearest (h : t.Sound) {leaf : Node} {around : List Node} {offset : Int}
    (hfinds : (t.tree.node t.arena).Finds offset leaf around) :
    ∃ n, Node.IsNearest (leaf :: around) n := by
  obtain ⟨ss, hcov, hss⟩ := h.covers
  have hroot : (Shape.branch .source ss none).Formed t.tree.config :=
    Shape.formed_branch.mpr ⟨.source fun s hs => (hss s hs).1, fun s hs => (hss s hs).2⟩
  obtain ⟨-, -, -, htiles⟩ := History.tiles_of_covers hcov
  obtain ⟨hs, hall, -, htext, -, hchildren⟩ := Arena.view_branch hcov.holds t.tree.rootStart
  have hform : ∀ m ∈ (t.tree.node t.arena).walk, Shape.Form t.tree.config m.shape := by
    intro m hm
    apply hroot
    rw [← Arena.map_shape_walk_view t.tree.rootStart hcov.holds]
    exact List.mem_map_of_mem hm
  refine hfinds.exists_nearest ?_ ?_ htiles hform
  · rw [Tree.node, Node.isLeaf, htext]
    rfl
  · intro c hc
    rw [Tree.node, hchildren] at hc
    have hmem := List.mem_map_of_mem (f := Node.shape) hc
    rw [Arena.map_shape_viewAll t.tree.rootStart hall] at hmem
    exact (hss c.shape hmem).1

/-- A hover describes the nearest node that is no punctuation. -/
theorem hoveredNode?_eq {path : List Node} {n : Node} (hpath : t.tree.pathTo t.arena offset = path)
    (hin : offset < t.tree.source.length) (h : Node.IsNearest path n) :
    t.hoveredNode? offset = some n := by
  obtain ⟨⟨inner, outer, hsplit, hne, hinner⟩, hpunctuation, hsource⟩ := h
  have hdrop : path.dropLast.dropWhile (·.kind.isPunctuation) = n :: outer.dropLast := by
    rw [hsplit, List.dropLast_append_cons, List.dropLast_cons_of_ne_nil hne,
      List.dropWhile_append_of_pos hinner, List.dropWhile_cons_of_neg (by simp [hpunctuation])]
  rw [hoveredNode?, if_neg (Nat.not_le_of_lt hin)]
  simp only [hpath, hdrop]
  simp [hsource]

/-- The node is what a hover at an offset is about: the nearest to the leaf at the offset that is no
punctuation. It is not the root, and the offset lies in it. -/
structure IsHovered (t : OpenText) (offset : Nat) (n : Node) : Prop where
  nearest : ∃ leaf around, (t.tree.node t.arena).Finds offset leaf around ∧
    Node.IsNearest (leaf :: around) n
  ne_root : n ≠ t.tree.node t.arena
  contains : n.contains offset = true

/-- The answer to a hover about a node. -/
def hoverOf (t : OpenText) (n : Node) : Json :=
  Payload.hover (.str (n.describe t.tree.source)) (rangeOf t.tree.lines (n.start, n.stop))

/-- A hover at an offset in a text has an answer. -/
theorem Sound.exists_hover (h : t.Sound) (hin : offset < t.tree.source.length) :
    ∃ n, t.IsHovered offset n ∧ t.hover offset = t.hoverOf n := by
  obtain ⟨leaf, around, hfinds⟩ := h.looksUp.inside offset (by omega) (by omega)
  obtain ⟨n, hn⟩ := h.exists_nearest hfinds
  have hmem : n ∈ leaf :: around := by
    obtain ⟨inner, outer, hsplit, -⟩ := hn.split
    rw [hsplit]
    exact List.mem_append_right _ List.mem_cons_self
  refine ⟨n, ⟨⟨leaf, around, hfinds, hn⟩, ?_, hfinds.contains n hmem⟩, ?_⟩
  · intro hroot
    obtain ⟨ss, hcov, -⟩ := h.covers
    obtain ⟨-, -, hkind, -⟩ := Arena.view_branch hcov.holds t.tree.rootStart
    exact hn.kind_ne_source (hroot ▸ hkind)
  · rw [hover, hoveredNode?_eq hfinds.path hin hn]
    rfl

end OpenText

namespace Server

open Handler

variable {s : Server} {params : Json} {t : OpenText} {offset : Nat}

theorem Handler.Keeps.of_gives {α : Type} {m : Handler α} {q : α → Prop} {a : α} {s' : Server}
    (hm : Keeps m q) (hs : s.TextsSound) (h : Gives m s a s') : q a := by
  refine (hm s hs).2 a ?_
  rw [show m.run.run s = (.ok a, s') from h]

/-- The parameters ask for what stands at an offset of a text that is open. -/
structure Asks (s : Server) (params : Json) (t : OpenText) (offset : Nat) : Prop where
  document : ∃ d, Gives (requested? params) s (some d) s ∧ d.content = .text t
  position : ∃ position place, params.get? "position" = some position ∧
    Gives (placeAt t position) s place s ∧ place.offset = offset

/-- The parameters that name the URI of an open document are about it. -/
theorem gives_requested? {uri : Codes} {d : Document} {description : Json}
    (hd : s.document? (.str uri) = some d)
    (hdescription : params.get? "textDocument" = some description)
    (huri : description.get? "uri" = some (.str uri)) : Gives (requested? params) s (some d) s := by
  refine (gives_get hdescription _ _ s).bind ((gives_get huri _ _ s).bind ?_)
  refine (gives_key uri s).bind ((gives_getThe s).bind ?_)
  rw [hd]
  exact gives_pure _ s

/-- The parameters that name an open document and a position in it ask for the offset there. -/
theorem asks_of_position {uri : Codes} {d : Document} {description position : Json}
    {line character : Nat} (hd : s.document? (.str uri) = some d) (hcontent : d.content = .text t)
    (hdescription : params.get? "textDocument" = some description)
    (huri : description.get? "uri" = some (.str uri))
    (hparams : params.get? "position" = some position)
    (hposition : IsPosition line character position)
    (hplace : t.tree.lines.place? (.nat line) (.nat character) = some (.exact offset)) :
    s.Asks params t offset := by
  have hrequested := gives_requested? hd hdescription huri
  refine ⟨⟨d, hrequested, hcontent⟩, position, .exact offset, hparams, ?_, rfl⟩
  refine (gives_get hposition.1 _ _ s).bind ((gives_get hposition.2 _ _ s).bind ?_)
  rw [hplace]
  exact gives_pure _ s

theorem Asks.sound (h : s.Asks params t offset) (hs : s.TextsSound) : t.Sound := by
  obtain ⟨d, hd, hcontent⟩ := h.document
  exact (keeps_requested? params).of_gives hs hd d rfl t hcontent

/-- The answer to a hover is that of the text. -/
theorem Asks.gives_onHover (h : s.Asks params t offset) :
    Gives (onHover params) s (t.hover offset) s := by
  obtain ⟨d, hd, hcontent⟩ := h.document
  obtain ⟨position, place, hposition, hplace, hoffset⟩ := h.position
  have htext : Gives (textOf d) s t s := by
    rw [textOf, hcontent]
    exact gives_pure t s
  refine hd.bind ?_
  simp only [hposition]
  refine htext.bind (hplace.bind ?_)
  rw [hoffset]
  exact gives_pure _ s

/-- In every version of a text, looking up an offset in it finds the only leaf there, and the nodes
around it all contain the offset. So after any messages, a hover at an offset in an open text is
answered with the nearest node around this leaf that is no punctuation and not the root. -/
theorem hover_finds (config : Config) {source : List Char} {rs : List Revision}
    (h : History.Truthful [source] rs) {s : Server} (hs : s.documents = [])
    (messages : List Json.Fields) :
    (∃ a ts, History.versions config source rs = some (a, ts) ∧
      ts.map Tree.source = History.texts [source] rs ∧ ∀ t ∈ ts, t.LooksUp a) ∧
    ∀ params t offset, (s.after messages).Asks params t offset →
      offset < t.tree.source.length →
      ∃ n, t.IsHovered offset n ∧ t.hoverOf n ≠ .null ∧
        Gives (onHover params) (s.after messages) (t.hoverOf n) (s.after messages) := by
  constructor
  · obtain ⟨a, ts, hrun, -, -, htexts, hcov⟩ :=
      History.exists_revise (History.covered_parse config source) h
    refine ⟨a, ts, hrun, htexts, fun t ht => ?_⟩
    obtain ⟨-, ss, hss⟩ := hcov t ht
    exact hss.looksUp
  · intro params t offset hasks hin
    have hsound := hasks.sound ((textsSound_of_nil hs).after messages)
    obtain ⟨n, hn, hhover⟩ := hsound.exists_hover hin
    refine ⟨n, hn, nofun, ?_⟩
    rw [← hhover]
    exact hasks.gives_onHover

/-- The closing parenthesis of a list in a comment that an edit takes away, and a hover at the
parenthesis of an unclosed list that a client has opened. -/
theorem hover_finds_unclosed :
    let source := ['#', ';', '(', 'a', ')']
    let rs : List Revision := [⟨0, .replace 4 5 []⟩]
    let s := (start ⟨['/'], []⟩).after [(Notice.opened "u" "(a").message]
    let params : Json := .obj [("textDocument", .obj [("uri", .str "u")]),
      ("position", .obj [("line", .nat 0), ("character", .nat 0)])]
    (∃ a ts, History.versions .default source rs = some (a, ts) ∧
      ts.map Tree.source = History.texts [source] rs ∧ ∀ t ∈ ts, t.LooksUp a) ∧
    ∃ t n, s.Asks params t 0 ∧ 0 < t.tree.source.length ∧ t.IsHovered 0 n ∧
      t.hoverOf n ≠ .null ∧ Gives (onHover params) s (t.hoverOf n) s := by
  intro source rs s params
  have htrue : History.Truthful [source] rs := ⟨_, rfl, ⟨by decide, by decide, by decide⟩, trivial⟩
  obtain ⟨hlooks, hhover⟩ := hover_finds .default htrue (s := start ⟨['/'], []⟩) rfl
    [(Notice.opened "u" "(a").message]
  obtain ⟨s', hhandle, hbecomes⟩ :=
    handle_notice (sound_of_nil (s := start ⟨['/'], []⟩) rfl) (Notice.opened "u" "(a").says_message
  have hafter : s = s' := congrArg Prod.snd hhandle
  obtain ⟨d, hd, -, hcontent⟩ := hbecomes.sound.exists_document hbecomes.text?_self
  have hasks : s.Asks params (.read .default "(a") 0 := by
    rw [hafter]
    exact asks_of_position hd hcontent rfl rfl rfl ⟨rfl, rfl⟩ (by decide)
  have hlength : 0 < (OpenText.read .default "(a").tree.source.length := by decide
  obtain ⟨n, hn, hnull, hgives⟩ := hhover params _ 0 hasks hlength
  exact ⟨hlooks, _, n, hasks, hlength, hn, hnull, hgives⟩

end Server

end RacketTree

import Mathlib.Data.List.Nodup
import RacketTree.Proofs.Server.Texts
import RacketTree.Server.State

/-!
# The documents of a server

A server that has been told of documents by well-formed messages keeps texts under URIs, one for
each URI (`Server.Sound`). `Server.text?` is the text that is open under a URI. Opening and
replacing sets it for one URI (`text?_put`), closing removes it (`text?_erase`), and both keep the
rest.
-/

namespace RacketTree.Server

variable {s : Server} {d : Document} {uri other : Codes} {t : OpenText}

/-- Every document is a text, and no two have one URI. -/
structure Sound (s : Server) : Prop where
  texts : ∀ d ∈ s.documents, ∃ uri t, d.uri = .str uri ∧ d.content = .text t ∧ t.Sound
  distinct : (s.documents.map Document.uri).Nodup

/-- The text that is open under a URI. -/
def text? (s : Server) (uri : Codes) : Option OpenText :=
  (s.document? (.str uri)).bind fun d => d.content.text?

theorem sameUri_str {a b : Codes} : sameUri (.str a) (.str b) = true ↔ a = b := by
  rw [sameUri, Json.toValue, Json.toValue, Value.eqKey, beq_iff_eq]
  exact ⟨fun h => congrArg Codes.mk h, fun h => congrArg Codes.points h⟩

theorem sound_of_nil (h : s.documents = []) : s.Sound := by
  constructor <;> simp [h]

namespace Sound

theorem sameUri_iff (h : s.Sound) (hd : d ∈ s.documents) :
    sameUri d.uri (.str uri) = true ↔ d.uri = .str uri := by
  obtain ⟨u, t, hu, -⟩ := h.texts d hd
  rw [hu, sameUri_str, Json.str.injEq]

theorem of_document? (h : s.Sound) (hfind : s.document? (.str uri) = some d) :
    d ∈ s.documents ∧ d.uri = .str uri := by
  have hmem := List.mem_of_find?_eq_some hfind
  have hsame := @List.find?_some _ (fun e : Document => sameUri e.uri (.str uri)) _ _ hfind
  exact ⟨hmem, (h.sameUri_iff hmem).mp hsame⟩

/-- The document under a URI is the one that has it. -/
theorem document?_eq_some (h : s.Sound) :
    s.document? (.str uri) = some d ↔ d ∈ s.documents ∧ d.uri = .str uri := by
  refine ⟨h.of_document?, ?_⟩
  rintro ⟨hmem, huri⟩
  have hsome : (s.document? (.str uri)).isSome = true :=
    List.find?_isSome.mpr ⟨d, hmem, (h.sameUri_iff hmem).mpr huri⟩
  obtain ⟨e, hfind⟩ := Option.isSome_iff_exists.mp hsome
  obtain ⟨hother, hsame⟩ := h.of_document? hfind
  rw [hfind, List.inj_on_of_nodup_map h.distinct hother hmem (hsame.trans huri.symm)]

theorem text?_eq_some (h : s.Sound) :
    s.text? uri = some t ↔ ∃ d ∈ s.documents, d.uri = .str uri ∧ d.content = .text t := by
  rw [text?, Option.bind_eq_some_iff]
  constructor
  · rintro ⟨d, hfind, htext⟩
    obtain ⟨hmem, huri⟩ := h.document?_eq_some.mp hfind
    obtain ⟨-, t', -, hcontent, -⟩ := h.texts d hmem
    rw [hcontent] at htext
    cases htext
    exact ⟨d, hmem, huri, hcontent⟩
  · rintro ⟨d, hmem, huri, hcontent⟩
    refine ⟨d, h.document?_eq_some.mpr ⟨hmem, huri⟩, ?_⟩
    rw [hcontent]
    rfl

theorem exists_document (h : s.Sound) (ht : s.text? uri = some t) :
    ∃ d, s.document? (.str uri) = some d ∧ d.uri = .str uri ∧ d.content = .text t := by
  obtain ⟨d, hmem, huri, hcontent⟩ := h.text?_eq_some.mp ht
  exact ⟨d, h.document?_eq_some.mpr ⟨hmem, huri⟩, huri, hcontent⟩

theorem document?_eq_none (h : s.Sound) (ht : s.text? uri = none) :
    s.document? (.str uri) = none := by
  cases hfind : s.document? (.str uri) with
  | none => rfl
  | some d =>
    obtain ⟨hmem, huri⟩ := h.of_document? hfind
    obtain ⟨-, t, -, hcontent, -⟩ := h.texts d hmem
    rw [h.text?_eq_some.mpr ⟨d, hmem, huri, hcontent⟩] at ht
    cases ht

/-- A text that is open belongs to its tree. -/
theorem sound_text (h : s.Sound) (ht : s.text? uri = some t) : t.Sound := by
  obtain ⟨d, hmem, -, hcontent⟩ := h.text?_eq_some.mp ht
  obtain ⟨-, t', -, hcontent', hsound⟩ := h.texts d hmem
  rw [hcontent] at hcontent'
  cases hcontent'
  exact hsound

/-- The URIs of the documents are those with an open text. -/
theorem mem_uris (h : s.Sound) (uri : Json) :
    uri ∈ s.documents.map Document.uri ↔ ∃ u, uri = .str u ∧ (s.text? u).isSome = true := by
  rw [List.mem_map]
  constructor
  · rintro ⟨d, hmem, rfl⟩
    obtain ⟨u, t, hu, hcontent, -⟩ := h.texts d hmem
    refine ⟨u, hu, ?_⟩
    rw [h.text?_eq_some.mpr ⟨d, hmem, hu, hcontent⟩]
    rfl
  · rintro ⟨u, rfl, hsome⟩
    obtain ⟨t, ht⟩ := Option.isSome_iff_exists.mp hsome
    obtain ⟨d, hmem, hu, -⟩ := h.text?_eq_some.mp ht
    exact ⟨d, hmem, hu⟩

/-! ## Opening and replacing -/

theorem mem_put (h : s.Sound) (hd : d.uri = .str uri) {e : Document} :
    e ∈ (s.put d).documents ↔ e = d ∨ e ∈ s.documents ∧ e.uri ≠ .str uri := by
  unfold put
  rw [hd]
  split
  · rename_i hany
    obtain ⟨old, hold, hsame⟩ := List.any_eq_true.mp hany
    show e ∈ s.documents.map _ ↔ _
    rw [List.mem_map]
    constructor
    · rintro ⟨x, hx, rfl⟩
      by_cases hxuri : sameUri x.uri (.str uri) = true
      · exact .inl (if_pos hxuri)
      · rw [if_neg hxuri]
        exact .inr ⟨hx, (h.sameUri_iff hx).not.mp hxuri⟩
    · rintro (rfl | ⟨he, hne⟩)
      · exact ⟨old, hold, if_pos hsame⟩
      · exact ⟨e, he, if_neg ((h.sameUri_iff he).not.mpr hne)⟩
  · rename_i hnone
    show e ∈ s.documents ++ [d] ↔ _
    rw [List.mem_append, List.mem_singleton, or_comm]
    refine or_congr_right ⟨fun he => ⟨he, fun huri => hnone ?_⟩, And.left⟩
    exact List.any_eq_true.mpr ⟨e, he, (h.sameUri_iff he).mpr huri⟩

theorem put (h : s.Sound) (hd : d.uri = .str uri) (hcontent : d.content = .text t) (ht : t.Sound) :
    (s.put d).Sound := by
  constructor
  · intro e he
    rcases (h.mem_put hd).mp he with rfl | ⟨he, -⟩
    · exact ⟨uri, t, hd, hcontent, ht⟩
    · exact h.texts e he
  · unfold Server.put
    rw [hd]
    split
    · have hsame : s.documents.map (fun e => (if sameUri e.uri (.str uri) then d else e).uri) =
          s.documents.map Document.uri := by
        refine List.map_congr_left fun e he => ?_
        split
        · rename_i heq
          rw [hd, (h.sameUri_iff he).mp heq]
        · rfl
      show ((s.documents.map _).map Document.uri).Nodup
      rw [List.map_map]
      exact hsame ▸ h.distinct
    · rename_i hnone
      show ((s.documents ++ [d]).map Document.uri).Nodup
      rw [List.map_append, List.nodup_append]
      refine ⟨h.distinct, List.nodup_singleton _, ?_⟩
      intro a ha b hb hab
      obtain ⟨e, he, rfl⟩ := List.mem_map.mp ha
      rw [List.map_singleton, List.mem_singleton, hd] at hb
      exact hnone (List.any_eq_true.mpr ⟨e, he, (h.sameUri_iff he).mpr (hab.trans hb)⟩)

/-- A document that is put under a URI is the one with this URI, and the others stay. -/
theorem text?_put (h : s.Sound) (hd : d.uri = .str uri) (hcontent : d.content = .text t)
    (ht : t.Sound) (other : Codes) :
    (s.put d).text? other = if other = uri then some t else s.text? other := by
  have hput := h.put hd hcontent ht
  apply Option.ext
  intro t'
  rw [hput.text?_eq_some]
  split
  · rename_i heq
    rw [heq, Option.some.injEq]
    constructor
    · rintro ⟨e, he, huri, htext⟩
      rcases (h.mem_put hd).mp he with rfl | ⟨-, hne⟩
      · rw [hcontent] at htext
        cases htext
        rfl
      · exact absurd huri hne
    · rintro rfl
      exact ⟨d, (h.mem_put hd).mpr (.inl rfl), hd, hcontent⟩
  · rename_i hne
    have hstr : (.str other : Json) ≠ .str uri := fun heq => hne (Json.str.inj heq)
    rw [h.text?_eq_some]
    constructor
    · rintro ⟨e, he, huri, htext⟩
      rcases (h.mem_put hd).mp he with rfl | ⟨he, -⟩
      · exact absurd (huri.symm.trans hd) hstr
      · exact ⟨e, he, huri, htext⟩
    · rintro ⟨e, he, huri, htext⟩
      refine ⟨e, (h.mem_put hd).mpr (.inr ⟨he, ?_⟩), huri, htext⟩
      rw [huri]
      exact hstr

/-! ## Closing -/

theorem mem_erase (h : s.Sound) {e : Document} :
    e ∈ (s.erase (.str uri)).documents ↔ e ∈ s.documents ∧ e.uri ≠ .str uri := by
  rw [erase, List.mem_filter]
  refine and_congr_right fun he => ?_
  rw [Bool.not_eq_true', Bool.eq_false_iff, Ne, h.sameUri_iff he]

theorem erase (h : s.Sound) (uri : Codes) : (s.erase (.str uri)).Sound := by
  constructor
  · intro e he
    exact h.texts e (h.mem_erase.mp he).1
  · exact h.distinct.sublist (List.filter_sublist.map _)

theorem text?_erase (h : s.Sound) (uri other : Codes) :
    (s.erase (.str uri)).text? other = if other = uri then none else s.text? other := by
  apply Option.ext
  intro t
  rw [(h.erase uri).text?_eq_some]
  split
  · rename_i heq
    rw [heq]
    refine iff_of_false ?_ nofun
    rintro ⟨e, he, huri, -⟩
    exact (h.mem_erase.mp he).2 huri
  · rename_i hne
    rw [h.text?_eq_some]
    constructor
    · rintro ⟨e, he, hfields⟩
      exact ⟨e, (h.mem_erase.mp he).1, hfields⟩
    · rintro ⟨e, he, huri, htext⟩
      refine ⟨e, h.mem_erase.mpr ⟨he, ?_⟩, huri, htext⟩
      rw [huri]
      exact fun heq => hne (Json.str.inj heq)

end Sound

end RacketTree.Server

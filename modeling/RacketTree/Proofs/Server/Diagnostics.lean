import RacketTree.Proofs.Server.Notices
import RacketTree.Proofs.Tree.Outermost

/-!
# Published diagnostics

The diagnostics of a text report its outermost errors in source order (`OpenText.Reports`): each has
a range that is not empty, and none reaches into the next. The server sends them whenever the text
under a URI changes, and sends an empty list when the document is closed.

So what has been sent last for a URI is never out of date. `Server.takes_published` says this of
every run: the open documents are those that have been opened and not closed since, and what has
been sent last for one reports the errors of its tree.
-/

namespace RacketTree

/-! ## The diagnostics of a text -/

/-- The value is a range between two points. -/
def IsRange (start stop : Point) (j : Json) : Prop :=
  ∃ first last, j.get? "start" = some first ∧ j.get? "end" = some last ∧
    IsPosition start.row start.column first ∧ IsPosition stop.row stop.column last

theorem Point.not_before_self (p : Point) : ¬p.Before p := by
  rintro (h | ⟨-, h⟩)
  · exact Nat.lt_irrefl _ h
  · exact Nat.lt_irrefl _ h

theorem Point.Before.asymm {p q : Point} (h : p.Before q) : ¬q.Before p := by
  unfold Point.Before at h ⊢
  omega

theorem Lines.position16_not_before {text : List Char} {i j : Nat} (hij : i ≤ j)
    (hj : j ≤ text.length) :
    ¬((ofText text).position16 j).Before ((ofText text).position16 i) := by
  rcases Nat.eq_or_lt_of_le hij with rfl | hlt
  · exact Point.not_before_self _
  · exact (position16_lt hlt hj).asymm

namespace OpenText

/-- The diagnostics, with their ranges, report the errors of the text. -/
structure Reports (t : OpenText) (diagnostics : List Json) (ranges : List (Point × Point)) :
    Prop where
  shown : List.Forall₂ (fun d r => ∃ j, d.get? "range" = some j ∧ IsRange r.1 r.2 j)
    diagnostics ranges
  /-- There is one for each outermost error, in source order. It starts where the error starts, and
  ends in it. -/
  errors : List.Forall₂ (fun n r => r.1 = t.tree.lines.position16 n.start ∧
      ∃ stop : Nat, n.start < stop ∧ stop ≤ n.stop ∧ r.2 = t.tree.lines.position16 stop)
    (t.tree.node t.arena).outermost ranges
  nonempty : ∀ r ∈ ranges, r.1.Before r.2
  disjoint : ranges.Pairwise fun r q => ¬q.1.Before r.2

variable {t : OpenText}

/-- The points between which a node is shown. -/
def shownRange (t : OpenText) (n : Node) : Point × Point :=
  (t.tree.lines.position16 n.diagnosticSpan.1, t.tree.lines.position16 n.diagnosticSpan.2)

theorem Sound.exists_formed (h : t.Sound) :
    ∃ ss, t.tree.Covers t.arena ss ∧ (Shape.branch .source ss none).Formed t.tree.config := by
  obtain ⟨ss, hcov, hss⟩ := h.covers
  refine ⟨ss, hcov, Shape.formed_branch.mpr ⟨.source ?_, ?_⟩⟩
  · exact fun s hs => (hss s hs).1
  · exact fun s hs => (hss s hs).2

theorem Sound.errors_eq (h : t.Sound) :
    t.tree.errors t.arena = (t.tree.node t.arena).outermost := by
  obtain ⟨ss, hcov, hroot⟩ := h.exists_formed
  exact Arena.errors_view h.wellFormed t.tree.rootStart hcov.holds hroot nofun

/-- The outermost errors lie one behind the other, and something is shown of each. -/
theorem Sound.outermost (h : t.Sound) :
    Node.Ordered 0 t.tree.source.length (t.tree.node t.arena).outermost ∧
      ∀ n ∈ (t.tree.node t.arena).outermost,
        ∃ stop, n.diagnosticSpan = (n.start, stop) ∧ n.start < stop ∧ stop ≤ n.stop := by
  obtain ⟨ss, hcov, hroot⟩ := h.exists_formed
  obtain ⟨hstart, hstop, -, htiles⟩ := History.tiles_of_covers hcov
  constructor
  · have hordered := Node.ordered_outermost _ htiles
    rwa [hstart, hstop] at hordered
  · intro n hn
    obtain ⟨herror, hsubset⟩ := Node.mem_outermost _ n hn
    have hform : ∀ m ∈ n.walk, Shape.Form t.tree.config m.shape := by
      intro m hm
      apply hroot
      rw [← Arena.map_shape_walk_view t.tree.rootStart hcov.holds]
      exact List.mem_map_of_mem (hsubset hm)
    exact Node.exists_diagnosticSpan (fun m hm => htiles m (hsubset hm)) hform herror

/-- The diagnostics of a text report its errors. -/
theorem Sound.exists_reports (h : t.Sound) : ∃ ranges, t.Reports t.diagnostics ranges := by
  obtain ⟨hordered, hspans⟩ := h.outermost
  refine ⟨(t.tree.node t.arena).outermost.map t.shownRange, ?_, ?_, ?_, ?_⟩
  · rw [diagnostics, h.errors_eq, List.forall₂_map_left_iff, List.forall₂_map_right_iff,
      List.forall₂_same]
    intro n _
    exact ⟨_, rfl, _, _, rfl, rfl, ⟨rfl, rfl⟩, rfl, rfl⟩
  · rw [List.forall₂_map_right_iff, List.forall₂_same]
    intro n hn
    obtain ⟨stop, hspan, hlt, hle⟩ := hspans n hn
    rw [shownRange, hspan]
    exact ⟨rfl, stop, hlt, hle, rfl⟩
  · intro r hr
    obtain ⟨n, hn, rfl⟩ := List.mem_map.mp hr
    obtain ⟨stop, hspan, hlt, hle⟩ := hspans n hn
    rw [shownRange, hspan]
    exact Lines.position16_lt hlt (Nat.le_trans hle (hordered.mem n hn).2)
  · rw [List.pairwise_map]
    refine hordered.pairwise.imp_of_mem fun {m n} hm hn hmn => ?_
    obtain ⟨stop, hspan, -, hle⟩ := hspans m hm
    obtain ⟨stop', hspan', hlt', hle'⟩ := hspans n hn
    rw [shownRange, shownRange, hspan, hspan']
    have hend := (hordered.mem n hn).2
    exact Lines.position16_not_before (by omega) (by omega)

end OpenText

/-! ## What has been told and sent last -/

/-- The last value that a list gives. -/
def last? {α β : Type} (f : α → Option β) (xs : List α) : Option β :=
  xs.reverse.findSome? f

theorem last?_append {α β : Type} (f : α → Option β) (xs ys : List α) :
    last? f (xs ++ ys) = (last? f ys).or (last? f xs) := by
  simp [last?, List.findSome?_append]

namespace Notice

/-- Whether the notice opens or closes the document under a URI. -/
def opens? (uri : Codes) (n : Notice) : Option Bool :=
  if n.uri = uri then
    match n with
    | opened .. => some true
    | closed _ => some false
    | _ => none
  else none

/-- Whether the document under a URI has been opened and not closed since, if it has been opened or
closed at all. -/
def isOpen? (uri : Codes) (ns : List Notice) : Option Bool :=
  last? (opens? uri) ns

theorem isOpen?_append (uri : Codes) (ns : List Notice) (n : Notice) :
    isOpen? uri (ns ++ [n]) = (n.opens? uri).or (isOpen? uri ns) := by
  rw [isOpen?, last?_append]
  simp [last?, isOpen?]

end Notice

namespace Server

/-- The diagnostics that a message publishes for a URI. -/
def publishes? (uri : Codes) (message : Json) : Option (List Json) :=
  match message.get? "method", message.get? "params" with
  | some (.str method), some params =>
    match params.get? "uri", params.get? "diagnostics" with
    | some (.str u), some (.arr diagnostics) =>
      if method = "textDocument/publishDiagnostics" ∧ u = uri then some diagnostics else none
    | _, _ => none
  | _, _ => none

/-- The diagnostics that have been published last for a URI. -/
def lastPublished? (s : Server) (uri : Codes) : Option (List Json) :=
  last? (publishes? uri) s.sent

theorem publishes?_publication (uri other : Codes) (diagnostics : List Json) :
    publishes? uri (publication other diagnostics) =
      if other = uri then some diagnostics else none := by
  have hpublishes : publishes? uri (publication other diagnostics) =
      if Codes.ofString "textDocument/publishDiagnostics" = "textDocument/publishDiagnostics" ∧
          other = uri then some diagnostics else none := rfl
  rw [hpublishes]
  simp

/-- What is sent on a notice publishes diagnostics for one URI only. -/
theorem last?_publications (uri other : Codes) (diagnostics? : Option (List Json)) :
    last? (publishes? uri) (publications other diagnostics?) =
      if other = uri ∧ uri.hasHalves = false then diagnostics? else none := by
  cases diagnostics? with
  | none => simp [publications, last?]
  | some diagnostics =>
    rw [publications]
    by_cases hother : other = uri
    · subst hother
      cases hhalves : other.hasHalves with
      | true => simp [last?]
      | false => simp [last?, publishes?_publication]
    · cases hhalves : other.hasHalves <;> simp [last?, publishes?_publication, hother]

/-! ## Runs -/

/-- The diagnostics to be shown under a URI. -/
def due (t? : Option OpenText) : List Json :=
  (t?.map OpenText.diagnostics).getD []

/-- On a notice nothing is sent and nothing changes, or what is due afterwards is sent. -/
theorem published?_cases (n : Notice) (config : Config) {t? : Option OpenText}
    (ht : ∀ t ∈ t?, t.Sound) :
    n.published? t? (n.result? config t?) = none ∧ n.result? config t? = t? ∧
        n.opens? n.uri = none ∨
      n.published? t? (n.result? config t?) = some (due (n.result? config t?)) ∧
        (n.opens? n.uri).getD t?.isSome = (n.result? config t?).isSome := by
  cases n with
  | opened uri text => exact .inr ⟨rfl, by simp [Notice.opens?, Notice.result?]⟩
  | closed uri => exact .inr ⟨rfl, by simp [Notice.opens?, Notice.result?]⟩
  | changed uri changes =>
    cases t? with
    | none => exact .inl ⟨rfl, rfl, by simp [Notice.opens?]⟩
    | some t =>
      obtain ⟨t', hfold, -⟩ := (ht t rfl).exists_changes changes
      right
      rw [Notice.result?, Option.bind_some, hfold]
      exact ⟨rfl, by simp [Notice.opens?]⟩
  | saved uri text? =>
    cases text? with
    | none => exact .inl ⟨rfl, rfl, by simp [Notice.opens?]⟩
    | some text =>
      cases t? with
      | none => exact .inl ⟨rfl, rfl, by simp [Notice.opens?]⟩
      | some t =>
        rw [Notice.result?, Notice.published?, Option.map_some, Option.map_some]
        by_cases hsame : text = t.text
        · rw [if_pos hsame, if_pos (congrArg some hsame.symm)]
          exact .inl ⟨rfl, rfl, by simp [Notice.opens?]⟩
        · rw [if_neg hsame, if_neg fun h => hsame (Option.some.inj h).symm]
          exact .inr ⟨rfl, by simp [Notice.opens?]⟩

/-- The server is up to date after notices. -/
structure UpToDate (ns : List Notice) (s : Server) : Prop where
  isOpen (uri : Codes) : (Notice.isOpen? uri ns).getD false = (s.text? uri).isSome
  published {uri : Codes} (hhalves : uri.hasHalves = false)
    (hknown : (Notice.isOpen? uri ns).isSome = true) :
    s.lastPublished? uri = some (due (s.text? uri))

/-- Every notice keeps the server up to date. -/
theorem UpToDate.step {ns : List Notice} {n : Notice} {s s' : Server} (hs : s.Sound)
    (h : UpToDate ns s)
    (hbecomes : Becomes s s' n.uri (n.result? s.config (s.text? n.uri))
      (publications n.uri (n.published? (s.text? n.uri) (n.result? s.config (s.text? n.uri))))) :
    UpToDate (ns ++ [n]) s' := by
  have hlast (uri : Codes) : s'.lastPublished? uri = Option.or
      (if n.uri = uri ∧ uri.hasHalves = false then
        n.published? (s.text? n.uri) (n.result? s.config (s.text? n.uri)) else none)
      (s.lastPublished? uri) := by
    rw [lastPublished?, hbecomes.sent, last?_append, last?_publications, lastPublished?]
  have htexts : ∀ t ∈ s.text? n.uri, t.Sound := fun t ht => hs.sound_text ht
  have hcases := published?_cases n s.config htexts
  -- at the URI of the notice by its cases, at every other one as before
  constructor
  · intro uri
    rw [Notice.isOpen?_append, hbecomes.text?]
    by_cases huri : uri = n.uri
    · rw [if_pos huri, huri]
      have hbefore := h.isOpen n.uri
      rcases hcases with ⟨-, hsame, hnone⟩ | ⟨-, hopen⟩
      · rw [hsame, hnone, Option.none_or, hbefore]
      · rw [← hopen, ← hbefore]
        cases n.opens? n.uri <;> rfl
    · have hnone : n.opens? uri = none := if_neg fun heq => huri heq.symm
      rw [if_neg huri, hnone, Option.none_or]
      exact h.isOpen uri
  · intro uri hhalves hknown
    rw [hlast, hbecomes.text?]
    rw [Notice.isOpen?_append] at hknown
    by_cases huri : uri = n.uri
    · rw [if_pos huri, if_pos ⟨huri.symm, hhalves⟩]
      rcases hcases with ⟨hsilent, hsame, hnone⟩ | ⟨hsent, -⟩
      · rw [hsilent, hsame, Option.none_or, ← huri]
        rw [huri, hnone, Option.none_or, ← huri] at hknown
        exact h.published hhalves hknown
      · rw [hsent, Option.some_or]
    · have hother : n.uri ≠ uri := fun heq => huri heq.symm
      have hnone : n.opens? uri = none := if_neg hother
      rw [hnone, Option.none_or] at hknown
      rw [if_neg huri, if_neg fun hand => hother hand.1, Option.none_or]
      exact h.published hhalves hknown

theorem UpToDate.isOpen?_eq_true {ns : List Notice} {s : Server} (h : UpToDate ns s) (uri : Codes) :
    Notice.isOpen? uri ns = some true ↔ (s.text? uri).isSome = true := by
  rw [← h.isOpen]
  cases Notice.isOpen? uri ns with
  | none => simp
  | some b => simp

/-- All notices keep the server up to date. -/
theorem exists_upToDate {s : Server} (hs : s.Sound) {past : List Notice} (h : UpToDate past s)
    {ns : List Notice} {messages : List Json.Fields}
    (htold : List.Forall₂ Notice.Says ns messages) :
    ∃ s', Takes s messages s' ∧ s'.Sound ∧ UpToDate (past ++ ns) s' := by
  let told (past : List Notice) (n : Notice) : Option (List Notice) := some (past ++ [n])
  have hrun : ns.foldlM told past = some (past ++ ns) := by
    clear htold h
    induction ns generalizing past with
    | nil => simp
    | cons n ns ih =>
      rw [List.append_cons, ← ih]
      rfl
  refine @exists_takes _ (fun _ => True) told UpToDate ?_ ns messages htold (fun _ _ => trivial)
    past _ hrun s hs h
  intro past past' n s s' hs _ h hnext hbecomes
  cases hnext
  exact h.step hs hbecomes

/-- After every notice the open documents are those that have been opened and not closed since. What
has been published last for one reports the errors of its tree, and for one that has been closed it
is empty. A URI with half of a surrogate pair is none that could be sent. -/
theorem takes_published {s : Server} (hs : s.documents = []) {ns : List Notice}
    {messages : List Json.Fields} (htold : List.Forall₂ Notice.Says ns messages) :
    ∃ s', Takes s messages s' ∧ (s'.documents.map Document.uri).Nodup ∧
      (∀ uri, uri ∈ s'.documents.map Document.uri ↔
        ∃ u, uri = .str u ∧ Notice.isOpen? u ns = some true) ∧
      ∀ uri, uri.hasHalves = false →
        (Notice.isOpen? uri ns = some true → ∃ d t diagnostics ranges,
          s'.document? (.str uri) = some d ∧ d.content = .text t ∧
            s'.lastPublished? uri = some diagnostics ∧ t.Reports diagnostics ranges) ∧
        (Notice.isOpen? uri ns = some false → s'.lastPublished? uri = some []) := by
  have hstart : UpToDate [] s := by
    constructor
    · intro uri
      rw [text?, document?, hs]
      rfl
    · intro uri _ hknown
      cases hknown
  obtain ⟨s', htakes, hsound, hupToDate⟩ := exists_upToDate (sound_of_nil hs) hstart htold
  rw [List.nil_append] at hupToDate
  refine ⟨s', htakes, hsound.distinct, ?_, ?_⟩
  · intro uri
    simp only [hsound.mem_uris, hupToDate.isOpen?_eq_true]
  · intro uri hhalves
    constructor
    · intro hopen
      obtain ⟨t, ht⟩ := Option.isSome_iff_exists.mp ((hupToDate.isOpen?_eq_true uri).mp hopen)
      obtain ⟨d, hfind, -, hcontent⟩ := hsound.exists_document ht
      obtain ⟨ranges, hreports⟩ := (hsound.sound_text ht).exists_reports
      refine ⟨d, t, t.diagnostics, ranges, hfind, hcontent, ?_, hreports⟩
      rw [hupToDate.published hhalves (by rw [hopen]; rfl), ht]
      rfl
    · intro hclosed
      have hnone : s'.text? uri = none := by
        have hopen := hupToDate.isOpen uri
        rw [hclosed] at hopen
        exact Option.not_isSome_iff_eq_none.mp (Bool.eq_false_iff.mp hopen.symm)
      rw [hupToDate.published hhalves (by rw [hclosed]; rfl), hnone]
      rfl

/-! One document is opened and changed, another one is opened and closed. -/

def twoNotices : List Notice :=
  [.opened "u" "(", .opened "v" ")", .changed "u" [.range 0 1 0 1 "]"], .closed "v"]

theorem takes_published_two : ∃ s', Takes (start ⟨['/'], []⟩) (twoNotices.map Notice.message) s' ∧
    s'.lastPublished? "v" = some [] ∧ ∃ d t diagnostics ranges,
      s'.document? (.str "u") = some d ∧ d.content = .text t ∧
        s'.lastPublished? "u" = some diagnostics ∧ t.Reports diagnostics ranges := by
  have hstart : (start ⟨['/'], []⟩).documents = [] := rfl
  obtain ⟨s', htakes, -, -, hlast⟩ := takes_published hstart (Notice.forall₂_says_message _)
  refine ⟨s', htakes, ?_, ?_⟩
  · exact (hlast "v" (by decide)).2 (by decide)
  · exact (hlast "u" (by decide)).1 (by decide)

end Server

end RacketTree

import RacketTree.Proofs.Tree.Fits

/-!
# Sequences as forms

A sequence that is not closed yet is the front of a form. It is `Open` if its children are its
opener and items, and its tail begins with a dot; this is enough for the error that it becomes at
the end of the input. On the stack it is `Tight`: a tail stands only in a list and after a datum,
and as long as the tail is well-formed every dot but the last has exactly one datum behind it
(`Tail.Dotted`). This makes a closed sequence what the schema asks for (`Tight.close`).
-/

namespace RacketTree

open Shape (IsBody IsClosing)

variable {config : Config}

/-! ## Tails -/

/-- A child of an error around a sequence or its tail. -/
def Shape.Loose (config : Config) (s : Shape) : Prop :=
  (s.isItem = true ∨ s = Shape.dot) ∧ s.Formed config

namespace Tail

variable {t : Tail} {gap : Shape → Bool} {role : Role} {d : Draft} {l : Lexeme}

/-- The pieces of a tail begin with a dot. -/
def Begun (config : Config) (t : Tail) : Prop :=
  ∃ rest, Draft.allShapes t.pieces.reverse = Shape.dot :: rest ∧ ∀ s ∈ rest, s.Loose config

/-- Every dot of the tail has its datum, but for the last one while the tail waits for it. -/
structure Dotted (config : Config) (t : Tail) (segments : List (List Shape)) (last : List Shape) :
    Prop where
  pieces : Draft.allShapes t.pieces.reverse = Shape.dotted (segments ++ [last])
  dots : t.dots = segments.length + 1
  dots_le : t.dots ≤ config.maxDots
  items : ∀ segment ∈ segments ++ [last], ∀ s ∈ segment, s.isItem = true
  datum : ∀ segment ∈ segments, segment.countP (!·.isFiller) = 1
  awaiting : last.countP (!·.isFiller) = (!t.awaiting).toNat

theorem pieces_add (t : Tail) (item : Draft) (role : Role) :
    (t.add item role).pieces = item :: t.pieces := by
  cases role <;> rfl

theorem Begun.add (h : t.Begun config) (hd : d.Fits config Shape.isGap role) :
    (t.add d role).Begun config := by
  obtain ⟨rest, hshapes, hrest⟩ := h
  refine ⟨rest ++ [d.shape], ?_, fun s hs => ?_⟩
  · rw [pieces_add, hd.allShapes_snoc, hshapes]
    rfl
  · rcases List.mem_append.mp hs with hs | hs
    · exact hrest s hs
    · rw [List.mem_singleton.mp hs]
      exact ⟨.inl hd.isItem, hd.formed⟩

theorem allShapes_addDot (hs : l.Spelled) (hk : l.kind = .dot) (n : Nat) :
    Draft.allShapes (t.addDot n l.leaf).pieces.reverse =
      Draft.allShapes t.pieces.reverse ++ [Shape.dot] := by
  rw [addDot, List.reverse_cons, Draft.allShapes_append, Draft.allShapes, Lexeme.leaf_dot hs hk,
    Draft.allShapes]
  rfl

theorem Begun.addDot (h : t.Begun config) (hs : l.Spelled) (hk : l.kind = .dot) (n : Nat) :
    (t.addDot n l.leaf).Begun config := by
  obtain ⟨rest, hshapes, hrest⟩ := h
  refine ⟨rest ++ [Shape.dot], ?_, fun s hmem => ?_⟩
  · rw [allShapes_addDot hs hk, hshapes]
    rfl
  · rcases List.mem_append.mp hmem with hmem | hmem
    · exact hrest s hmem
    · rw [List.mem_singleton.mp hmem]
      exact ⟨.inr rfl, Shape.dot_formed config⟩

theorem begun_empty (hs : l.Spelled) (hk : l.kind = .dot) (n : Nat) :
    (empty.addDot n l.leaf).Begun config :=
  ⟨[], by rw [allShapes_addDot hs hk]; rfl, nofun⟩

theorem dotted_empty (hs : l.Spelled) (hk : l.kind = .dot)
    (hwf : (empty.addDot config.maxDots l.leaf).wellFormed = true) :
    (empty.addDot config.maxDots l.leaf).Dotted config [] [] where
  pieces := by
    rw [allShapes_addDot hs hk]
    rfl
  dots := rfl
  dots_le := by simpa [empty, Tail.addDot] using hwf
  items := by simp
  datum := nofun
  awaiting := rfl

variable {segments : List (List Shape)} {last : List Shape}

theorem dotted_snoc (segments : List (List Shape)) (last : List Shape) (s : Shape) :
    Shape.dotted (segments ++ [last ++ [s]]) = Shape.dotted (segments ++ [last]) ++ [s] := by
  simp [Shape.dotted]

theorem Dotted.addDot (h : t.Dotted config segments last) (hs : l.Spelled) (hk : l.kind = .dot)
    (hwf : (t.addDot config.maxDots l.leaf).wellFormed = true) :
    (t.addDot config.maxDots l.leaf).Dotted config (segments ++ [last]) [] := by
  simp only [Tail.addDot, Bool.and_eq_true, Bool.not_eq_true', decide_eq_true_eq] at hwf
  obtain ⟨⟨-, hawaiting⟩, hdots⟩ := hwf
  refine ⟨?_, ?_, hdots, ?_, ?_, rfl⟩
  · rw [allShapes_addDot hs hk, h.pieces]
    simp [Shape.dotted]
  · simp [Tail.addDot, h.dots]
  · intro segment hsegment
    rcases List.mem_append.mp hsegment with hsegment | hsegment
    · exact h.items segment hsegment
    · rw [List.mem_singleton.mp hsegment]
      exact List.forall_mem_nil _
  · intro segment hsegment
    rcases List.mem_append.mp hsegment with hsegment | hsegment
    · exact h.datum segment hsegment
    · rw [List.mem_singleton.mp hsegment, h.awaiting, hawaiting]
      rfl

theorem Dotted.add (h : t.Dotted config segments last) (hd : d.Fits config Shape.isFiller role)
    (hwf : (t.add d role).wellFormed = true) :
    (t.add d role).Dotted config segments (last ++ [d.shape]) := by
  have hitems : ∀ segment ∈ segments ++ [last ++ [d.shape]], ∀ s ∈ segment, s.isItem = true := by
    intro segment hsegment s hs
    rcases List.mem_append.mp hsegment with hsegment | hsegment
    · exact h.items segment (List.mem_append_left _ hsegment) s hs
    · rw [List.mem_singleton.mp hsegment] at hs
      rcases List.mem_append.mp hs with hs | hs
      · exact h.items last (List.mem_append_right _ List.mem_cons_self) s hs
      · rw [List.mem_singleton.mp hs]
        exact hd.loosen.isItem
  have hpieces : Draft.allShapes (t.add d role).pieces.reverse =
      Shape.dotted (segments ++ [last ++ [d.shape]]) := by
    rw [pieces_add, hd.allShapes_snoc, h.pieces, dotted_snoc]
  cases role with
  | trivia =>
    have hfiller : d.shape.isFiller = true := hd.suits
    refine ⟨hpieces, h.dots, h.dots_le, hitems, h.datum, ?_⟩
    rw [List.countP_append, h.awaiting]
    simp [Tail.add, hfiller]
  | datum =>
    have hfiller := Shape.isFiller_of_isDatum hd.suits
    -- a datum keeps the tail well-formed only where the last dot waits for it
    have hawaiting : t.awaiting = true := by
      simp only [Tail.add, Bool.and_eq_true] at hwf
      exact hwf.2
    refine ⟨hpieces, h.dots, h.dots_le, hitems, h.datum, ?_⟩
    simp [Tail.add, List.countP_append, hfiller, h.awaiting, hawaiting]

theorem isBlank_of_isTrivia {d : Draft} (h : d.isTrivia = true) :
    d.isSingle = true ∧ d.shape.kind.isTrivia = true := by
  cases d with
  | leaf | branch => exact ⟨rfl, h⟩
  | tail => cases h

/-- A tail that is an error becomes one, with the trivia at its end behind it. -/
theorem Begun.finish_of_malformed (h : t.Begun config)
    (hwf : (t.wellFormed && !t.awaiting) = false) :
    ∀ s ∈ Draft.allShapes t.finish, s.isItem = true ∧ s.Formed config := by
  obtain ⟨rest, hshapes, hrest⟩ := h
  have hpieces : t.pieces.reverse = (t.pieces.dropWhile Draft.isTrivia).reverse ++
      (t.pieces.takeWhile Draft.isTrivia).reverse := by
    rw [← List.reverse_append, List.takeWhile_append_dropWhile]
  have hblank : ∀ s ∈ Draft.allShapes (t.pieces.takeWhile Draft.isTrivia).reverse,
      s.kind.isTrivia = true := by
    have hall : ∀ d ∈ (t.pieces.takeWhile Draft.isTrivia).reverse, d.isTrivia = true := by
      intro d hd
      exact List.all_eq_true.mp List.all_takeWhile d (List.mem_reverse.mp hd)
    rw [Draft.allShapes_eq fun d hd => (isBlank_of_isTrivia (hall d hd)).1]
    intro s hs
    obtain ⟨d, hd, rfl⟩ := List.mem_map.mp hs
    exact (isBlank_of_isTrivia (hall d hd)).2
  rw [hpieces, Draft.allShapes_append] at hshapes
  have hfinish : t.finish = [.tail (t.pieces.dropWhile Draft.isTrivia).reverse
      (t.pieces.takeWhile Draft.isTrivia).reverse] := by
    rw [finish, hwf]
    rfl
  rw [hfinish, Draft.allShapes, Draft.allShapes, List.append_nil, Draft.shapes]
  -- the first dot is not trivia, so the error begins with it
  cases hinner : Draft.allShapes (t.pieces.dropWhile Draft.isTrivia).reverse with
  | nil =>
    rw [hinner, List.nil_append] at hshapes
    have hdot := hblank Shape.dot (by rw [hshapes]; exact List.mem_cons_self)
    cases hdot
  | cons first inner =>
    rw [hinner, List.cons_append] at hshapes
    obtain ⟨rfl, rfl⟩ := List.cons.inj hshapes
    intro s hs
    rcases List.mem_cons.mp hs with rfl | hs
    · refine ⟨rfl, Shape.formed_branch.mpr ⟨.illegalDot fun s hs => ?_, fun s hs => ?_⟩⟩
      · exact (hrest s (List.mem_append_left _ hs)).1
      · rcases List.mem_cons.mp hs with rfl | hs
        · exact Shape.dot_formed config
        · exact (hrest s (List.mem_append_left _ hs)).2
    · exact ⟨Shape.isItem_of_isGap (Shape.isGap_of_isFiller
        (Shape.isFiller_of_isTrivia (hblank s hs))), (hrest s (List.mem_append_right _ hs)).2⟩

theorem Begun.finish (h : t.Begun config) : ∀ s ∈ Draft.allShapes t.finish, s.Loose config := by
  cases hwf : t.wellFormed && !t.awaiting with
  | false =>
    intro s hs
    obtain ⟨hitem, hformed⟩ := h.finish_of_malformed hwf s hs
    exact ⟨.inl hitem, hformed⟩
  | true =>
    obtain ⟨rest, hshapes, hrest⟩ := h
    rw [Tail.finish, if_pos hwf, hshapes]
    intro s hs
    rcases List.mem_cons.mp hs with rfl | hs
    · exact ⟨.inr rfl, Shape.dot_formed config⟩
    · exact hrest s hs

end Tail

/-! ## Sequences -/

namespace Sequence

variable {s : Sequence} {role : Role} {d : Draft} {l : Lexeme}

/-- A sequence that may never be closed. -/
structure Open (config : Config) (s : Sequence) (front : List Shape) : Prop where
  opener : s.opener ≠ []
  children : Draft.allShapes s.children.reverse = .leaf .opener s.opener none :: front
  items : ∀ x ∈ front, x.isItem = true ∧ x.Formed config
  begun : ∀ t, s.tail = some t → t.Begun config

/-- A sequence on the stack. -/
structure Tight (config : Config) (s : Sequence) (front : List Shape) : Prop extends
    s.Open config front where
  seen : s.seenDatum = true → ∃ x ∈ front, x.isDatum = true
  list : ∀ t, s.tail = some t → s.kind = .list ∧ s.seenDatum = true
  dotted : ∀ t, s.tail = some t → t.wellFormed = true →
    ∃ segments last, t.Dotted config segments last

theorem opener_formed (h : s.opener ≠ []) :
    (Shape.leaf .opener s.opener none).Formed config :=
  Shape.formed_leaf.mpr (.token rfl nofun h)

theorem tight_ofOpener (hl : l.Valid) (hs : l.Spelled) (hk : l.kind = .opener) :
    (ofOpener l).Tight config [] where
  opener := hl.nonempty
  children := by
    rw [ofOpener, Lexeme.leaf_eq hs (by simp [hk]) (by simp [hk]), hk]
    rfl
  items := nofun
  begun := nofun
  seen := nofun
  list := nofun
  dotted := nofun

/-- One more child before the first dot. -/
theorem Open.push {gap : Shape → Bool} {front : List Shape} (h : s.Open config front)
    (hd : d.Fits config gap role) (hitem : d.shape.isItem = true) (seen : Bool) :
    ({ s with children := d :: s.children, seenDatum := seen } : Sequence).Open config
      (front ++ [d.shape]) := by
  refine ⟨h.opener, ?_, fun x hx => ?_, h.begun⟩
  · rw [hd.allShapes_snoc, h.children]
    rfl
  · rcases List.mem_append.mp hx with hx | hx
    · exact h.items x hx
    · rw [List.mem_singleton.mp hx]
      exact ⟨hitem, hd.formed⟩

/-- Another tail. -/
theorem Open.retail {front : List Shape} {t : Tail} (h : s.Open config front)
    (ht : t.Begun config) : ({ s with tail := some t } : Sequence).Open config front := by
  refine ⟨h.opener, h.children, h.items, fun t' ht' => ?_⟩
  cases ht'
  exact ht

theorem add_of_tail {t : Tail} (ht : s.tail = some t) :
    s.add d role = { s with tail := some (t.add d role) } := by
  rw [add, ht]

theorem add_of_no_tail (ht : s.tail = none) :
    s.add d role =
      { s with children := d :: s.children, seenDatum := s.seenDatum || role == .datum } := by
  rw [add, ht]

theorem Open.add {front : List Shape} (h : s.Open config front)
    (hd : d.Fits config Shape.isGap role) : ∃ front', (s.add d role).Open config front' := by
  cases ht : s.tail with
  | some t =>
    rw [add_of_tail ht]
    exact ⟨front, h.retail ((h.begun t ht).add hd)⟩
  | none =>
    rw [add_of_no_tail ht]
    exact ⟨_, h.push hd hd.isItem _⟩

theorem Tight.retail {front : List Shape} {t : Tail} (h : s.Tight config front)
    (ht : t.Begun config) (hlist : s.kind = .list ∧ s.seenDatum = true)
    (hdotted : t.wellFormed = true → ∃ segments last, t.Dotted config segments last) :
    ({ s with tail := some t } : Sequence).Tight config front where
  toOpen := h.toOpen.retail ht
  seen := h.seen
  list := fun _ _ => hlist
  dotted := by
    intro t' ht'
    cases ht'
    exact hdotted

theorem Tight.push {gap : Shape → Bool} {front : List Shape} (h : s.Tight config front)
    (ht : s.tail = none) (hd : d.Fits config gap role) (hitem : d.shape.isItem = true) {seen : Bool}
    (hseen : seen = true → s.seenDatum = true ∨ d.shape.isDatum = true) :
    ({ s with children := d :: s.children, seenDatum := seen } : Sequence).Tight config
      (front ++ [d.shape]) where
  toOpen := h.toOpen.push hd hitem seen
  seen := by
    intro hs
    rcases hseen hs with hs | hdatum
    · obtain ⟨x, hx, hdatum⟩ := h.seen hs
      exact ⟨x, List.mem_append_left _ hx, hdatum⟩
    · exact ⟨d.shape, List.mem_append_right _ List.mem_cons_self, hdatum⟩
  list := by simp [ht]
  dotted := by simp [ht]

theorem Tight.add {front : List Shape} (h : s.Tight config front)
    (hd : d.Fits config Shape.isFiller role) : ∃ front', (s.add d role).Tight config front' := by
  cases ht : s.tail with
  | some t =>
    rw [add_of_tail ht]
    refine ⟨front, h.retail ((h.begun t ht).add hd.loosen) (h.list t ht) fun hwf => ?_⟩
    have hwf' : t.wellFormed = true := by
      cases role with
      | trivia => exact hwf
      | datum => exact (Bool.and_eq_true_iff.mp hwf).1
    obtain ⟨segments, last, hdotted⟩ := h.dotted t ht hwf'
    exact ⟨segments, _, hdotted.add hd hwf⟩
  | none =>
    rw [add_of_no_tail ht]
    refine ⟨_, h.push ht hd hd.loosen.isItem fun hseen => ?_⟩
    rcases Bool.or_eq_true_iff.mp hseen with hseen | hrole
    · exact .inl hseen
    · cases beq_iff_eq.mp hrole
      exact .inr hd.suits

theorem lone_dot_formed (config : Config) (hs : l.Spelled) (hk : l.kind = .dot) :
    (Draft.branch .error [l.leaf] (some .malformedDottedPair)).Fits config (fun s => s.isItem)
      .trivia := by
  have hshape : (Draft.branch .error [l.leaf] (some .malformedDottedPair)).shape =
      .branch .error [Shape.dot] (some .malformedDottedPair) := by
    rw [Draft.shape, Draft.allShapes, Lexeme.leaf_dot hs hk, Draft.allShapes]
    rfl
  refine ⟨rfl, ?_, rfl⟩
  rw [hshape]
  refine Shape.formed_branch.mpr ⟨.illegalDot (List.forall_mem_nil _), fun s hs => ?_⟩
  rw [List.mem_singleton.mp hs]
  exact Shape.dot_formed config

theorem Tight.addDot {front : List Shape} (h : s.Tight config front) (hs : l.Spelled)
    (hk : l.kind = .dot) : ∃ front', (s.addDot config l).Tight config front' := by
  unfold Sequence.addDot
  split
  · rename_i t ht
    refine ⟨front, h.retail ((h.begun t ht).addDot hs hk _) (h.list t ht) fun hwf => ?_⟩
    have hwf' : t.wellFormed = true := by
      simp only [Tail.addDot, Bool.and_eq_true] at hwf
      exact hwf.1.1
    obtain ⟨segments, last, hdotted⟩ := h.dotted t ht hwf'
    exact ⟨_, _, hdotted.addDot hs hk hwf⟩
  · rename_i ht
    split
    · rename_i hstart
      refine ⟨front, h.retail (Tail.begun_empty hs hk _) (by simpa using hstart) fun hwf => ?_⟩
      exact ⟨_, _, Tail.dotted_empty hs hk hwf⟩
    · have hdot := lone_dot_formed config hs hk
      exact ⟨_, h.push ht hdot hdot.suits .inl⟩

theorem Open.body {front : List Shape} (h : s.Open config front) :
    ∃ body, Draft.allShapes s.body = .leaf .opener s.opener none :: (front ++ body) ∧
      ∀ x ∈ front ++ body, x.Loose config := by
  have hfront : ∀ x ∈ front, x.Loose config :=
    fun x hx => ⟨.inl (h.items x hx).1, (h.items x hx).2⟩
  rw [Sequence.body, Draft.allShapes_append, h.children]
  refine ⟨_, rfl, fun x hx => ?_⟩
  rcases List.mem_append.mp hx with hx | hx
  · exact hfront x hx
  · cases ht : s.tail with
    | none =>
      rw [ht] at hx
      cases hx
    | some t =>
      rw [ht] at hx
      exact (h.begun t ht).finish x hx

theorem Open.unclosed {front : List Shape} (h : s.Open config front) (gap : Shape → Bool) :
    s.unclosed.Fits config gap .datum := by
  obtain ⟨body, hbody, hloose⟩ := h.body
  have hshape : s.unclosed.shape = .branch .error
      (.leaf .opener s.opener none :: ((front ++ body) ++ [Shape.missing]))
        (some .unclosedDelimiter) := by
    rw [Sequence.unclosed, Draft.shape, Draft.allShapes_append, hbody]
    rfl
  refine ⟨rfl, ?_, ?_⟩
  · rw [hshape]
    refine Shape.formed_branch.mpr ⟨.unclosed fun x hx => (hloose x hx).1, fun x hx => ?_⟩
    rcases List.mem_cons.mp hx with rfl | hx
    · exact opener_formed h.opener
    rcases List.mem_append.mp hx with hx | hx
    · exact (hloose x hx).2
    · rw [List.mem_singleton.mp hx]
      exact Shape.missing_formed config
  · rw [hshape]
    rfl

theorem isBody_of_items {kind : Kind} {front : List Shape} (h : ∀ x ∈ front, x.isItem = true) :
    IsBody config kind front [] :=
  ⟨h, List.forall_mem_nil _, List.forall_mem_nil _, absurd rfl, Nat.zero_le _⟩

/-- The children of a sequence on the stack are the body of a sequence. -/
theorem Tight.isBody {front : List Shape} (h : s.Tight config front) :
    ∃ front' segments, Draft.allShapes s.body =
        .leaf .opener s.opener none :: (front' ++ Shape.dotted segments) ∧
      IsBody config s.kind front' segments := by
  rw [Sequence.body, Draft.allShapes_append, h.children]
  cases ht : s.tail with
  | none =>
    exact ⟨front, [], rfl, isBody_of_items fun x hx => (h.items x hx).1⟩
  | some t =>
    cases hwf : t.wellFormed && !t.awaiting with
    | true =>
      obtain ⟨hwf', hawaiting⟩ := Bool.and_eq_true_iff.mp hwf
      obtain ⟨segments, last, hdotted⟩ := h.dotted t ht hwf'
      obtain ⟨hlist, hseen⟩ := h.list t ht
      refine ⟨front, segments ++ [last], ?_, fun x hx => (h.items x hx).1, hdotted.items, ?_,
        fun _ => ⟨hlist, h.seen hseen⟩, ?_⟩
      · simp only [Option.map_some, Option.getD_some, Tail.finish, hwf, if_pos, hdotted.pieces]
        rfl
      · intro segment hsegment
        rcases List.mem_append.mp hsegment with hsegment | hsegment
        · exact hdotted.datum segment hsegment
        · rw [List.mem_singleton.mp hsegment, hdotted.awaiting]
          simpa using hawaiting
      · have hdots := hdotted.dots
        have hle := hdotted.dots_le
        rw [List.length_append, List.length_singleton]
        omega
    | false =>
      have hfinish := (h.begun t ht).finish_of_malformed hwf
      refine ⟨front ++ Draft.allShapes t.finish, [], ?_, isBody_of_items fun x hx => ?_⟩
      · simp [Shape.dotted]
      · rcases List.mem_append.mp hx with hx | hx
        · exact (h.items x hx).1
        · exact (hfinish x hx).1

theorem closing_formed (config : Config) (s : Sequence) (hs : l.Spelled) (hk : l.kind = .closer) :
    (s.closing config l).isSingle = true ∧ IsClosing config (s.closing config l).shape ∧
      (s.closing config l).shape.Formed config := by
  obtain ⟨hsingle, hcloser⟩ := Lexeme.leaf_closer hs hk
  unfold closing
  split
  · rename_i hmismatch
    have hstrict : config.strictDelimiters = true := (Bool.and_eq_true_iff.mp hmismatch).1
    have hshape : (Draft.branch .error [l.leaf] (some .delimiterMismatch)).shape =
        .branch .error [l.leaf.shape] (some .delimiterMismatch) := by
      rw [Draft.shape, Draft.allShapes, Draft.shapes_eq hsingle, Draft.allShapes]
      rfl
    rw [hshape]
    refine ⟨rfl, .inr ⟨hstrict, _, hcloser, rfl⟩, ?_⟩
    refine Shape.formed_branch.mpr ⟨.mismatch hstrict hcloser, fun x hx => ?_⟩
    rw [List.mem_singleton.mp hx]
    exact hcloser.formed
  · exact ⟨hsingle, .inl hcloser, hcloser.formed⟩

theorem Tight.close {front : List Shape} (h : s.Tight config front) (hs : l.Spelled)
    (hk : l.kind = .closer) (gap : Shape → Bool) :
    (s.close config l).Fits config gap .datum := by
  obtain ⟨front', segments, hbody, hisBody⟩ := h.isBody
  obtain ⟨body, hbody', hloose⟩ := h.toOpen.body
  obtain ⟨hsingle, hclosing, hformed⟩ := closing_formed config s hs hk
  have hshape : (s.close config l).shape = .branch s.kind
      (.leaf .opener s.opener none :: (front' ++ Shape.dotted segments ++
        [(s.closing config l).shape])) none := by
    rw [Sequence.close, Draft.shape, Draft.allShapes_append, hbody, Draft.allShapes,
      Draft.shapes_eq hsingle, Draft.allShapes]
    rfl
  refine ⟨rfl, ?_, ?_⟩
  · rw [hshape]
    refine Shape.formed_branch.mpr ⟨.sequence hisBody hclosing, fun x hx => ?_⟩
    rw [hbody] at hbody'
    rw [(List.cons.inj hbody').2] at hx
    rcases List.mem_cons.mp hx with rfl | hx
    · exact opener_formed h.opener
    rcases List.mem_append.mp hx with hx | hx
    · exact (hloose x hx).2
    · rw [List.mem_singleton.mp hx]
      exact hformed
  · rw [hshape]
    simp [Shape.suits, Shape.isDatum, Shape.kind, Kind.isCompound, Sequence.kind,
      Kind.isSequence_ofOpener]

end Sequence

end RacketTree

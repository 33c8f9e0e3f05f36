import RacketTree.Proofs.Datum.Conversion
import RacketTree.Proofs.Token.Layout
import RacketTree.Proofs.Tree.Accepts
import RacketTree.Proofs.Tree.Parsed

/-!
# Reading values

The value of a datum does not depend on where it stands or on the gaps in it. `Means` says what the
value of a tree is wherever it is stored without fault, and `ReadsDatum` that lexemes are read as a
datum with a value inside every construct. Lists, pairs and quotes of lexemes that are read so are
read so again, with any gaps between the words (`GappedDatum`).
-/

namespace RacketTree

open Node (isDatumKind)

/-! ## Values of trees -/

theorem Node.walkAll_append (xs ys : List Node) :
    walkAll (xs ++ ys) = walkAll xs ++ walkAll ys := by
  induction xs with
  | nil => rfl
  | cons x xs ih => rw [List.cons_append, walkAll, walkAll, ih, List.append_assoc]

theorem Value.ofDatums_append (source : List Char) (xs ys : List Node) :
    ofDatums source (xs ++ ys) =
      (ofDatums source xs).bind fun vs => (ofDatums source ys).map (vs ++ ·) := by
  induction xs with
  | nil =>
    rw [List.nil_append]
    cases hys : ofDatums source ys <;> rfl
  | cons x xs ih =>
    rw [List.cons_append, ofDatums_cons, ofDatums_cons, ih]
    split
    · cases ofNode source x with
      | error e => rfl
      | ok v =>
        cases ofDatums source xs with
        | error e => rfl
        | ok vs => cases ofDatums source ys <;> rfl
    · rfl

namespace Shape

/-- Where the tree stands without fault, it has the value. -/
def Means (s : Shape) (v : Value) : Prop :=
  ∀ (source : List Char) (n : Node), n.shape = s → (∀ m ∈ n.walk, m.hasFault = false) →
    Value.ofNode source n = .ok v

/-- Where the trees stand side by side without fault, the datums among them have the values. -/
def MeansAll (ss : List Shape) (vs : List Value) : Prop :=
  ∀ (source : List Char) (ns : List Node), ns.map Node.shape = ss →
    (∀ m ∈ Node.walkAll ns, m.hasFault = false) → Value.ofDatums source ns = .ok vs

theorem meansAll_nil : MeansAll [] [] := by
  intro source ns hns _
  rw [List.map_eq_nil_iff.mp hns]
  rfl

theorem MeansAll.append {ss ts : List Shape} {vs ws : List Value} (hss : MeansAll ss vs)
    (hts : MeansAll ts ws) : MeansAll (ss ++ ts) (vs ++ ws) := by
  intro source ns hns hclean
  obtain ⟨xs, ys, rfl, hxs, hys⟩ := List.map_eq_append_iff.mp hns
  rw [Node.walkAll_append] at hclean
  rw [Value.ofDatums_append, hss source xs hxs fun m hm => hclean m (List.mem_append_left _ hm),
    hts source ys hys fun m hm => hclean m (List.mem_append_right _ hm)]
  rfl

theorem meansAll_skip {s : Shape} (hk : isDatumKind s.kind = false) : MeansAll [s] [] := by
  intro source ns hns _
  obtain ⟨n, rfl, rfl⟩ := List.map_eq_singleton_iff.mp hns
  rw [Node.kind_shape] at hk
  rw [Value.ofDatums_cons, if_neg (by simp [hk])]
  rfl

theorem Means.all {s : Shape} {v : Value} (h : s.Means v) (hk : isDatumKind s.kind = true) :
    MeansAll [s] [v] := by
  intro source ns hns hclean
  obtain ⟨n, rfl, rfl⟩ := List.map_eq_singleton_iff.mp hns
  rw [Node.kind_shape] at hk
  have hvalue := h source n rfl fun m hm => hclean m (by simp [Node.walkAll, hm])
  rw [Value.ofDatums_cons, if_pos hk, hvalue]
  rfl

theorem means_leaf {k : Kind} {text : List Char} {v : Value} (hk : k.isGathered = false)
    (h : ∀ start, Value.ofAtom k start text = .ok v) : (leaf k text none).Means v := by
  intro source n hshape hclean
  have hfault : n.hasFault = false := hclean n (by rw [Node.walk_eq]; exact List.mem_cons_self)
  have hkind : n.kind = k := by rw [← Node.kind_shape, hshape]; rfl
  have htext : n.text source = text := by
    cases ht : n.text? with
    | none =>
      rw [Node.shape_of_branch ht] at hshape
      cases hshape
    | some t =>
      rw [Node.shape_of_leaf ht, leaf.injEq] at hshape
      rw [Node.text, ht, Option.getD_some, hshape.2.1]
  rw [Value.ofNode_eq, if_neg (by simp [hfault]), hkind, if_neg (by simp [hk]), htext, h]

/-- The value of a compound is gathered from the values in it. -/
theorem MeansAll.branch {k : Kind} {ss : List Shape} {vs : List Value} {v : Value}
    (hss : MeansAll ss vs) (hk : k.isGathered = true)
    (h : ∀ n : Node, n.kind = k → n.children.map Node.shape = ss →
      Value.gather n vs = .ok v) : (branch k ss none).Means v := by
  intro source n hshape hclean
  have hkind : n.kind = k := by rw [← Node.kind_shape, hshape]; rfl
  have hchildren : n.children.map Node.shape = ss := by
    cases ht : n.text? with
    | none =>
      rw [Node.shape_of_branch ht, branch.injEq] at hshape
      exact hshape.2.1
    | some t =>
      rw [Node.shape_of_leaf ht] at hshape
      cases hshape
  rw [Node.walk_eq, List.forall_mem_cons] at hclean
  rw [Value.ofNode_eq, if_neg (by simp [hclean.1]), hkind, if_pos hk,
    hss source n.children hchildren hclean.2]
  exact h n hkind hchildren

/-- The number of dots among the children of a node is that among their trees. -/
theorem countP_dot {n : Node} {ss : List Shape} (h : n.children.map Node.shape = ss) :
    n.children.countP (·.kind == .dot) = ss.countP (·.kind == .dot) := by
  rw [← h, List.countP_map]
  exact List.countP_congr fun c _ => by simp [Node.kind_shape]

theorem MeansAll.list {ss : List Shape} {vs : List Value} (hss : MeansAll ss vs)
    (hdot : ss.countP (·.kind == .dot) = 0) : (Shape.branch .list ss none).Means (.list vs) := by
  refine hss.branch rfl fun n hkind hchildren => ?_
  have htail : n.dottedTail? = none := by
    simp [Node.dottedTail?, countP_dot hchildren, hdot]
  simp [Value.gather, hkind, htail]

theorem MeansAll.pair {front back : List Shape} {vs : List Value}
    (hss : MeansAll (front ++ dot :: back) vs) (hdot : front.countP (·.kind == .dot) = 0)
    (hdot' : back.countP (·.kind == .dot) = 0)
    (hdatum : ∃ s ∈ back, s.kind.isAtom = true ∨ s.kind.isCompound = true) :
    (Shape.branch .list (front ++ dot :: back) none).Means (.tuple vs) := by
  refine hss.branch rfl fun n hkind hchildren => ?_
  have hcount : n.children.countP (·.kind == .dot) = 1 := by
    rw [countP_dot hchildren, List.countP_append, List.countP_cons, hdot, hdot']
    rfl
  obtain ⟨xs, ds, hsplit, hxs, hds⟩ := List.map_eq_append_iff.mp hchildren
  obtain ⟨d, ys, rfl, hd, hys⟩ := List.map_eq_cons_iff.mp hds
  have hskip : ∀ x ∈ xs, (x.kind != .dot) = true := by
    intro x hx
    rw [← hxs, List.countP_eq_zero] at hdot
    have hne := hdot x.shape (List.mem_map_of_mem hx)
    rw [Node.kind_shape] at hne
    simpa using hne
  have hkindDot : d.kind = .dot := by
    rw [← Node.kind_shape, hd]
    rfl
  have htail : n.dottedTail?.isSome = true := by
    rw [Node.dottedTail?, if_pos (by simp [hkind, hcount]), hsplit,
      List.dropWhile_append_of_pos hskip, List.dropWhile_cons_of_neg (by simp [hkindDot]),
      List.find?_isSome]
    obtain ⟨s, hs, hdatum⟩ := hdatum
    rw [← hys] at hs
    obtain ⟨y, hy, rfl⟩ := List.mem_map.mp hs
    rw [Node.kind_shape] at hdatum
    exact ⟨y, List.mem_cons_of_mem _ hy, by simpa using hdatum⟩
  simp [Value.gather, hkind, htail]

theorem MeansAll.quote {ss : List Shape} {v : Value} {vs : List Value}
    (hss : MeansAll ss (v :: vs)) : (Shape.branch .quote ss none).Means v := by
  refine hss.branch rfl fun n hkind _ => ?_
  simp [Value.gather, hkind]

end Shape

/-! ## Values of drafts -/

namespace Draft

/-- The draft is an intact datum with the value. -/
structure IsDatum (d : Draft) (v : Value) : Prop where
  single : d.isSingle = true
  clean : d.hasFault = false
  kind : d.shape.kind.isAtom = true ∨ d.shape.kind.isCompound = true
  means : d.shape.Means v

/-- The drafts are intact, there is no dot among them, and their datums have the values. -/
structure AreItems (ds : List Draft) (vs : List Value) : Prop where
  single : ∀ d ∈ ds, d.isSingle = true
  clean : anyFault ds = false
  dots : (ds.map shape).countP (·.kind == .dot) = 0
  means : Shape.MeansAll (ds.map shape) vs

theorem areItems_nil : AreItems [] [] :=
  ⟨nofun, rfl, rfl, Shape.meansAll_nil⟩

theorem AreItems.append {xs ys : List Draft} {vs ws : List Value} (hxs : AreItems xs vs)
    (hys : AreItems ys ws) : AreItems (xs ++ ys) (vs ++ ws) := by
  refine ⟨?_, ?_, ?_, ?_⟩
  · exact List.forall_mem_append.mpr ⟨hxs.single, hys.single⟩
  · rw [anyFault_append, hxs.clean, hys.clean]
    rfl
  · rw [List.map_append, List.countP_append, hxs.dots, hys.dots]
  · rw [List.map_append]
    exact hxs.means.append hys.means

theorem IsDatum.areItems {d : Draft} {v : Value} (h : d.IsDatum v) : AreItems [d] [v] := by
  have hdatum : isDatumKind d.shape.kind = true := by
    rcases h.kind with hk | hk <;> revert hk <;> cases d.shape.kind <;> decide
  have hdot : (d.shape.kind == .dot) = false := by
    rcases h.kind with hk | hk <;> revert hk <;> cases d.shape.kind <;> decide
  refine ⟨List.forall_mem_singleton.mpr h.single, ?_, ?_, h.means.all hdatum⟩
  · rw [anyFault_cons, h.clean]
    rfl
  · simp [hdot]

/-- A leaf that is no datum and no dot. -/
theorem areItems_leaf {k : Kind} {text : List Char} (hdatum : isDatumKind k = false)
    (hdot : k ≠ .dot) : AreItems [leaf k text none] [] :=
  ⟨List.forall_mem_singleton.mpr rfl, by simp, by simp [shape, Shape.kind, hdot],
    Shape.meansAll_skip hdatum⟩

/-- A branch around intact drafts. -/
theorem isDatum_branch {k : Kind} {ds : List Draft} {v : Value}
    (hsingle : ∀ d ∈ ds, d.isSingle = true) (hclean : anyFault ds = false)
    (hk : k.isCompound = true) (h : (Shape.branch k (ds.map shape) none).Means v) :
    (branch k ds none).IsDatum v := by
  refine ⟨rfl, ?_, .inr hk, ?_⟩
  · rw [hasFault_branch, hclean]
    rfl
  · rw [shape, allShapes_eq hsingle]
    exact h

end Draft

/-! ## Values of lexemes -/

namespace Read

open Draft Lexeme
open Grammar (resume resumeAfter resume_open resume_lone resume_close resume_dot)

variable {config : Config} {outer height : Nat} {rest : List Frame} {ls ts xs ys : List Lexeme}
  {v : Value} {vs : List Value}

theorem lone_of_isGap {l : Lexeme} (h : l.isGap = true) :
    stops l = false ∧ Frame.ofLexeme? l = none ∧ l.role = .trivia := by
  refine Grammar.lone_of_blank ?_
  simp only [isGap, Bool.or_eq_true, beq_iff_eq] at h
  exact h.imp_right .inl

theorem areItems_of_areGaps (h : AreGaps ts) : AreItems (ts.map Lexeme.draft) [] := by
  induction ts with
  | nil => exact areItems_nil
  | cons l ts ih =>
    obtain ⟨⟨hgap, hfault⟩, hts⟩ := List.forall_mem_cons.mp h
    simp only [isGap, Bool.or_eq_true, beq_iff_eq] at hgap
    have hleaf : AreItems [l.draft] [] := by
      rcases hgap with hk | hk <;>
        · simp only [Lexeme.draft, Lexeme.leaf, hk, hfault]
          exact areItems_leaf rfl (by decide)
    exact hleaf.append (ih hts)

/-- Lexemes of gaps go to the construct around them. -/
theorem resume_gaps (h : AreGaps ts) (s : Sequence) :
    resume config outer (.sequence s :: rest) (ts ++ ls) =
      resume config outer
        (.sequence (ts.foldl (fun s l => s.add l.draft .trivia) s) :: rest) ls := by
  induction ts generalizing s with
  | nil => rfl
  | cons l ts ih =>
    obtain ⟨⟨hgap, -⟩, hts⟩ := List.forall_mem_cons.mp h
    obtain ⟨hstops, hframe, hrole⟩ := lone_of_isGap hgap
    rw [List.cons_append, resume_lone hstops hframe, hrole]
    exact ih hts _

/-- A sequence with more items before its first dot. -/
def extend (s : Sequence) (ds : List Draft) (seen : Bool) : Sequence :=
  { s with children := ds.reverse ++ s.children, seenDatum := s.seenDatum || seen }

theorem foldl_add_of_none {s : Sequence} (hs : s.tail = none) :
    ts.foldl (fun s l => s.add l.draft .trivia) s = extend s (ts.map Lexeme.draft) false := by
  induction ts generalizing s with
  | nil => simp [extend]
  | cons l ts ih =>
    rw [List.foldl_cons, ih (by simp [Sequence.add, hs])]
    simp [Sequence.add, hs, extend]

theorem foldl_add_of_some {s : Sequence} {t : Tail} (hs : s.tail = some t) :
    ts.foldl (fun s l => s.add l.draft .trivia) s =
      { s with tail := some { t with pieces := (ts.map Lexeme.draft).reverse ++ t.pieces } } := by
  induction ts generalizing s t with
  | nil => simp [← hs]
  | cons l ts ih =>
    rw [List.foldl_cons, ih (t := t.add l.draft .trivia) (by simp [Sequence.add, hs])]
    simp [Sequence.add, hs, Tail.add]

/-- The lexemes are read as a datum with the value, inside any construct that leaves room for its
height. -/
def ReadsDatum (config : Config) (height : Nat) (xs : List Lexeme) (v : Value) : Prop :=
  ∃ item : Draft, item.IsDatum v ∧ ∀ outer stack ls,
    outer + stack.length + height ≤ config.maxDepth →
      resume config outer stack (xs ++ ls) =
        resumeAfter config outer (deliver item .datum stack) ls

/-- The lexemes are read as items of a list before its first dot, and the datums among them have the
values. -/
def ReadsItems (config : Config) (height : Nat) (xs : List Lexeme) (vs : List Value) : Prop :=
  ∃ ds, AreItems ds vs ∧ ∀ outer s rest ls, s.tail = none →
    outer + rest.length + 1 + height ≤ config.maxDepth →
      resume config outer (.sequence s :: rest) (xs ++ ls) =
        resume config outer (.sequence (extend s ds (!vs.isEmpty)) :: rest) ls

theorem ReadsDatum.mono {height' : Nat} (h : ReadsDatum config height xs v)
    (hle : height ≤ height') : ReadsDatum config height' xs v := by
  obtain ⟨item, hitem, hread⟩ := h
  exact ⟨item, hitem, fun outer stack ls hd => hread outer stack ls (by omega)⟩

theorem readsItems_gaps (h : AreGaps ts) : ReadsItems config height ts [] := by
  refine ⟨_, areItems_of_areGaps h, fun outer s rest ls hs _ => ?_⟩
  rw [resume_gaps h, foldl_add_of_none hs]
  rfl

theorem ReadsItems.append {ws : List Value} (hxs : ReadsItems config height xs vs)
    (hys : ReadsItems config height ys ws) : ReadsItems config height (xs ++ ys) (vs ++ ws) := by
  obtain ⟨ds, hds, hread⟩ := hxs
  obtain ⟨es, hes, hread'⟩ := hys
  refine ⟨ds ++ es, hds.append hes, fun outer s rest ls hs hd => ?_⟩
  have hextend : extend (extend s ds (!vs.isEmpty)) es (!ws.isEmpty) =
      extend s (ds ++ es) (!(vs ++ ws).isEmpty) := by
    cases vs <;> simp [extend]
  rw [List.append_assoc, hread outer s rest _ hs hd,
    hread' outer (extend s ds (!vs.isEmpty)) rest ls hs hd, hextend]

theorem ReadsDatum.items (h : ReadsDatum config height xs v) : ReadsItems config height xs [v] := by
  obtain ⟨item, hitem, hread⟩ := h
  refine ⟨[item], hitem.areItems, fun outer s rest ls hs hd => ?_⟩
  have hadd : s.add item .datum = extend s [item] true := by
    simp [Sequence.add, hs, extend]
  rw [hread outer _ ls (by simp only [List.length_cons]; omega), deliver, hadd]
  rfl

theorem readsDatum_atom {l : Lexeme} (hk : l.kind.isAtom = true) (hfault : l.fault = none)
    (h : ∀ start, Value.ofAtom l.kind start l.text = .ok v) : ReadsDatum config 0 [l] v := by
  obtain ⟨hstops, hframe, hrole⟩ := Grammar.lone_of_atom hk
  refine ⟨l.draft, ?_, fun outer stack ls _ => ?_⟩
  · have hgathered : l.kind.isGathered = false := by
      revert hk
      cases l.kind <;> decide
    have hblock : l.kind ≠ .blockComment := by
      intro hblock
      rw [hblock] at hk
      cases hk
    have hdraft : l.draft = .leaf l.kind l.text none := by
      simp [Lexeme.draft, Lexeme.leaf, hblock, hfault]
    rw [hdraft]
    exact ⟨rfl, by simp, .inl hk, Shape.means_leaf hgathered h⟩
  · rw [List.singleton_append, resume_lone hstops hframe, hrole]

theorem areItems_leftParen : AreItems [leftParen.leaf] [] :=
  areItems_leaf (k := .opener) rfl nofun

theorem areItems_rightParen : AreItems [rightParen.leaf] [] :=
  areItems_leaf (k := .closer) rfl nofun

theorem readsDatum_list (hstrict : config.strictDelimiters = false)
    (h : ReadsItems config height xs vs) :
    ReadsDatum config (height + 1) (leftParen :: (xs ++ [rightParen])) (.list vs) := by
  obtain ⟨ds, hds, hread⟩ := h
  have hitems : AreItems ([leftParen.leaf] ++ ds ++ [rightParen.leaf]) ([] ++ vs ++ []) :=
    (areItems_leftParen.append hds).append areItems_rightParen
  rw [List.nil_append, List.append_nil] at hitems
  have hclose : (extend (.ofOpener leftParen) ds (!vs.isEmpty)).close config rightParen =
      .branch .list ([leftParen.leaf] ++ ds ++ [rightParen.leaf]) none := by
    simp [Sequence.close, Sequence.body, Sequence.closing, Sequence.kind, Sequence.ofOpener, extend,
      hstrict, leftParen, Kind.ofOpener]
  refine ⟨_, isDatum_branch hitems.single hitems.clean rfl (hitems.means.list hitems.dots),
    fun outer stack ls hd => ?_⟩
  rw [List.cons_append, List.append_assoc, resume_open rfl (by omega),
    hread outer _ stack _ rfl (by omega), List.singleton_append, resume_close rfl, hclose]

/-- A tail of one dot and its datum, with gaps around it. -/
def dottedTail (before : List Draft) (item : Draft) (after : List Draft) : Tail :=
  ⟨after.reverse ++ item :: (before.reverse ++ [point.leaf]), 1, true, false⟩

theorem finish_dottedTail (before : List Draft) (item : Draft) (after : List Draft) :
    (dottedTail before item after).finish = point.leaf :: (before ++ [item] ++ after) := by
  simp [dottedTail, Tail.finish]

/-- A dot in a list that has a datum, followed by a datum. -/
theorem resume_dotted {s : Sequence} {item : Draft} {us : List Lexeme} (hs : s.tail = none)
    (hkind : s.kind = .list) (hseen : s.seenDatum = true) (hts : AreGaps ts) (hus : AreGaps us)
    (hread : ∀ stack ls, outer + stack.length + height ≤ config.maxDepth →
      resume config outer stack (ys ++ ls) =
        resumeAfter config outer (deliver item .datum stack) ls)
    (hd : outer + rest.length + 1 + height ≤ config.maxDepth) :
    resume config outer (.sequence s :: rest) (point :: (ts ++ ys ++ us) ++ ls) =
      resume config outer (.sequence
        { s with
          tail := some (dottedTail (ts.map Lexeme.draft) item (us.map Lexeme.draft)) } :: rest)
        ls := by
  have hdots : 1 ≤ config.maxDots := by
    unfold Config.maxDots
    split <;> decide
  have hdot : s.addDot config point =
      { s with tail := some ⟨[point.leaf], 1, true, true⟩ } := by
    simp [Sequence.addDot, hs, hkind, hseen, Tail.addDot, Tail.empty, hdots]
  rw [List.cons_append, resume_dot rfl, hdot, List.append_assoc, List.append_assoc,
    resume_gaps hts, foldl_add_of_some rfl, hread _ _ (by simp only [List.length_cons]; omega),
    deliver, resumeAfter, resume_gaps hus, foldl_add_of_some rfl]
  simp [Sequence.add, Tail.add, dottedTail]

theorem readsDatum_pair (hstrict : config.strictDelimiters = false)
    (h : ReadsItems config height xs vs) (hne : vs ≠ []) (hts : AreGaps ts)
    (hdatum : ReadsDatum config height ys v) {us : List Lexeme} (hus : AreGaps us) :
    ReadsDatum config (height + 1)
      (leftParen :: (xs ++ (point :: (ts ++ ys ++ us) ++ [rightParen]))) (.tuple (vs ++ [v])) := by
  obtain ⟨ds, hds, hread⟩ := h
  obtain ⟨item, hitem, hread'⟩ := hdatum
  have hfront : AreItems ([leftParen.leaf] ++ ds) ([] ++ vs) := areItems_leftParen.append hds
  have hback := (((areItems_of_areGaps hts).append hitem.areItems).append
    (areItems_of_areGaps hus)).append areItems_rightParen
  simp only [List.nil_append, List.append_nil] at hfront hback
  generalize hback' : ts.map Lexeme.draft ++ [item] ++ us.map Lexeme.draft ++ [rightParen.leaf] =
    back at hback
  have hsingle : ∀ d ∈ [leftParen.leaf] ++ ds ++ point.leaf :: back, d.isSingle = true := by
    refine List.forall_mem_append.mpr ⟨hfront.single, List.forall_mem_cons.mpr ⟨rfl, hback.single⟩⟩
  have hclean : anyFault ([leftParen.leaf] ++ ds ++ point.leaf :: back) = false := by
    rw [anyFault_append, anyFault_cons, hfront.clean, hback.clean]
    rfl
  have hmeans : Shape.MeansAll (([leftParen.leaf] ++ ds ++ point.leaf :: back).map shape)
      (vs ++ [v]) := by
    rw [List.map_append, List.map_cons]
    exact hfront.means.append ((Shape.meansAll_skip rfl).append hback.means)
  rw [List.map_append, List.map_cons] at hmeans
  have hafter : ∃ s ∈ back.map shape, s.kind.isAtom = true ∨ s.kind.isCompound = true :=
    ⟨item.shape, List.mem_map_of_mem (by simp [← hback']), hitem.kind⟩
  have hclose : Sequence.close
      { extend (.ofOpener leftParen) ds (!vs.isEmpty) with
        tail := some (dottedTail (ts.map Lexeme.draft) item (us.map Lexeme.draft)) }
      config rightParen = .branch .list ([leftParen.leaf] ++ ds ++ point.leaf :: back) none := by
    simp [Sequence.close, Sequence.body, Sequence.closing, Sequence.kind, Sequence.ofOpener, extend,
      hstrict, leftParen, Kind.ofOpener, finish_dottedTail, ← hback']
  refine ⟨_, isDatum_branch (k := .list) hsingle hclean rfl ?_, fun outer stack ls hd => ?_⟩
  · rw [List.map_append, List.map_cons]
    exact hmeans.pair hfront.dots hback.dots hafter
  · have hseen : (!vs.isEmpty) = true := by
      simp [hne]
    rw [List.cons_append, List.append_assoc, List.append_assoc, resume_open rfl (by omega),
      hread outer _ stack _ rfl (by omega),
      resume_dotted rfl rfl (by simp [extend, hseen]) hts hus
        (fun stack ls => hread' outer stack ls) (by omega), List.singleton_append, resume_close rfl, hclose]

theorem resume_gaps_wrapper (h : AreGaps ts) (w : Wrapper) :
    resume config outer (.wrapper w :: rest) (ts ++ ls) =
      resume config outer
        (.wrapper ⟨w.kind, (ts.map Lexeme.draft).reverse ++ w.children⟩ :: rest) ls := by
  induction ts generalizing w with
  | nil => rfl
  | cons l ts ih =>
    obtain ⟨⟨hgap, -⟩, hts⟩ := List.forall_mem_cons.mp h
    obtain ⟨hstops, hframe, hrole⟩ := lone_of_isGap hgap
    rw [List.cons_append, resume_lone hstops hframe, hrole, deliver, resumeAfter, ih hts]
    simp [Wrapper.add]

theorem readsDatum_quote (hts : AreGaps ts) (h : ReadsDatum config height xs v) :
    ReadsDatum config (height + 1) (quoteMark :: (ts ++ xs)) v := by
  obtain ⟨item, hitem, hread⟩ := h
  have hmark : AreItems [quoteMark.leaf] [] := areItems_leaf (k := .prefixMark) rfl nofun
  have hitems := (hmark.append (areItems_of_areGaps hts)).append hitem.areItems
  simp only [List.nil_append] at hitems
  have hcomplete : Wrapper.complete
      ⟨.quote, (ts.map Lexeme.draft).reverse ++ [quoteMark.leaf]⟩ item =
      .branch .quote ([quoteMark.leaf] ++ ts.map Lexeme.draft ++ [item]) none := by
    simp [Wrapper.complete]
  refine ⟨_, isDatum_branch hitems.single hitems.clean rfl hitems.means.quote,
    fun outer stack ls hd => ?_⟩
  have hframe : Frame.ofLexeme? quoteMark = some (.wrapper ⟨.quote, [quoteMark.leaf]⟩) := rfl
  rw [List.cons_append, resume_open hframe (by omega), List.append_assoc, resume_gaps_wrapper hts,
    hread outer _ ls (by simp only [List.length_cons]; omega), deliver, hcomplete]
  rfl

/-- Lexemes that are read as a datum, with gaps around, are all the items of a text. -/
theorem areItems_readItems (hts : AreGaps ts) (h : ReadsDatum config height xs v)
    (hheight : height ≤ config.maxDepth) {us : List Lexeme} (hus : AreGaps us) :
    AreItems (readItems config 0 (ts ++ (xs ++ us))) [v] := by
  obtain ⟨item, hitem, hread⟩ := h
  have hgaps : ∀ {ts ls : List Lexeme}, AreGaps ts →
      readItems config 0 (ts ++ ls) = ts.map Lexeme.draft ++ readItems config 0 ls := by
    intro ts ls hts
    induction ts with
    | nil => rfl
    | cons l ts ih =>
      obtain ⟨⟨hgap, -⟩, hts⟩ := List.forall_mem_cons.mp hts
      obtain ⟨hstops, hframe, -⟩ := lone_of_isGap hgap
      have hlone : resume config 0 [] (l :: (ts ++ ls)) =
          resumeAfter config 0 (deliver l.draft l.role []) (ts ++ ls) := resume_lone hstops hframe
      exact hlone.trans (congrArg (l.draft :: ·) (ih hts))
  have hafter : readItems config 0 us = us.map Lexeme.draft := by
    have hall : readItems config 0 (us ++ []) = us.map Lexeme.draft ++ readItems config 0 [] :=
      hgaps hus
    rwa [List.append_nil, readItems, List.append_nil] at hall
  have hitems := ((areItems_of_areGaps hts).append hitem.areItems).append (areItems_of_areGaps hus)
  rw [List.nil_append, List.append_nil] at hitems
  have hform : readItems config 0 (xs ++ us) = item :: readItems config 0 us :=
    hread 0 [] us (by simpa using hheight)
  rw [hgaps hts, hform, hafter, List.append_cons]
  exact hitems

/-! ### Words with gaps -/

/-- The words are read as items of a list before its first dot, whatever gaps are between them. -/
def GappedItems (config : Config) (height : Nat) (ls : List Lexeme) (vs : List Value) : Prop :=
  ∀ ms, Gapped ms ls → ReadsItems config height ms vs

/-- The words are read as a datum with the value, whatever gaps are between them. -/
def GappedDatum (config : Config) (height : Nat) (ls : List Lexeme) (v : Value) : Prop :=
  ∀ ms, Gapped ms ls →
    ∃ ts xs us, ms = ts ++ (xs ++ us) ∧ AreGaps ts ∧ ReadsDatum config height xs v ∧ AreGaps us

theorem gappedItems_nil : GappedItems config height [] [] :=
  fun _ h => readsItems_gaps h.areGaps

theorem GappedItems.append {ws : List Value} (hxs : GappedItems config height xs vs)
    (hys : GappedItems config height ys ws) :
    GappedItems config height (xs ++ ys) (vs ++ ws) := by
  intro ms hms
  obtain ⟨ms₁, ms₂, rfl, h₁, h₂⟩ := hms.exists_append
  exact (hxs ms₁ h₁).append (hys ms₂ h₂)

theorem GappedDatum.items (h : GappedDatum config height xs v) :
    GappedItems config height xs [v] := by
  intro ms hms
  obtain ⟨ts, xs, us, rfl, hts, hdatum, hus⟩ := h ms hms
  exact (readsItems_gaps hts).append (hdatum.items.append (readsItems_gaps hus))

theorem gappedDatum_atom {l : Lexeme} (hk : l.kind.isAtom = true) (hfault : l.fault = none)
    (h : ∀ start, Value.ofAtom l.kind start l.text = .ok v) : GappedDatum config height [l] v := by
  intro ms hms
  obtain ⟨ts, us, rfl, hts, hus⟩ := hms.exists_cons
  exact ⟨ts, [l], us, rfl, hts, (readsDatum_atom hk hfault h).mono (Nat.zero_le _), hus.areGaps⟩

theorem gappedDatum_list (hstrict : config.strictDelimiters = false)
    (h : GappedItems config height xs vs) :
    GappedDatum config (height + 1) (leftParen :: (xs ++ [rightParen])) (.list vs) := by
  intro ms hms
  obtain ⟨ts, ms, rfl, hts, hms⟩ := hms.exists_cons
  obtain ⟨inner, ms, rfl, hinner, hms⟩ := hms.exists_append
  obtain ⟨us, ms, rfl, hus, hms⟩ := hms.exists_cons
  have hitems := (h inner hinner).append (readsItems_gaps hus)
  rw [List.append_nil] at hitems
  exact ⟨ts, _, ms, by simp, hts, readsDatum_list hstrict hitems, hms.areGaps⟩

theorem gappedDatum_pair (hstrict : config.strictDelimiters = false)
    (h : GappedItems config height xs vs) (hne : vs ≠ [])
    (hdatum : GappedDatum config height ys v) :
    GappedDatum config (height + 1) (leftParen :: (xs ++ point :: (ys ++ [rightParen])))
      (.tuple (vs ++ [v])) := by
  intro ms hms
  obtain ⟨ts, ms, rfl, hts, hms⟩ := hms.exists_cons
  obtain ⟨front, ms, rfl, hfront, hms⟩ := hms.exists_append
  obtain ⟨us, ms, rfl, hus, hms⟩ := hms.exists_cons
  obtain ⟨back, ms, rfl, hback, hms⟩ := hms.exists_append
  obtain ⟨us', ms, rfl, hus', hrest⟩ := hms.exists_cons
  obtain ⟨before, datum, after, rfl, hbefore, hread, hafter⟩ := hdatum back hback
  have hitems := (h front hfront).append (readsItems_gaps hus)
  rw [List.append_nil] at hitems
  have hbehind : AreGaps (after ++ us') := List.forall_mem_append.mpr ⟨hafter, hus'⟩
  exact ⟨ts, _, ms, by simp, hts, readsDatum_pair hstrict hitems hne hbefore hread hbehind,
    hrest.areGaps⟩

theorem GappedDatum.quote (h : GappedDatum config height xs v) :
    GappedDatum config (height + 1) (quoteMark :: xs) v := by
  intro ms hms
  obtain ⟨ts, ms, rfl, hts, hms⟩ := hms.exists_cons
  obtain ⟨before, datum, after, rfl, hbefore, hread, hafter⟩ := h ms hms
  exact ⟨ts, _, after, by simp, hts, readsDatum_quote hbefore hread, hafter⟩

end Read

/-! ## Values of texts -/

theorem Value.datums_of_ofDatums {source : List Char} {n : Node} {v : Value}
    (h : ofDatums source n.children = .ok [v]) :
    ∃ form, n.datums = [form] ∧ ofNode source form = .ok v := by
  have hall := forall₂_of_ofDatums h
  rw [← Node.datums_eq_filter] at hall
  generalize n.datums = forms at hall
  cases hall with
  | cons hform hrest =>
    cases hrest
    exact ⟨_, rfl, hform⟩

/-- A text of words that are read as a datum is intact and has one form with that value. -/
theorem exists_form_parse {config : Config} {height : Nat} {text : List Char} {ls : List Lexeme}
    {v : Value} (hgapped : Lexeme.Gapped (Token.lexemes text) ls)
    (hdatum : Read.GappedDatum config height ls v) (hheight : height ≤ config.maxDepth) :
    (parse config text).2.hasErrors (parse config text).1 = false ∧
      ∃ form, ((parse config text).2.node (parse config text).1).datums = [form] ∧
        Value.ofNode text form = .ok v := by
  obtain ⟨ts, xs, us, hsplit, hts, hread, hus⟩ := hdatum _ hgapped
  have h := Read.areItems_readItems hts hread hheight hus
  rw [← hsplit] at h
  have hclean : (parse config text).2.hasErrors (parse config text).1 = false := by
    rw [hasErrors_parse, h.clean]
  have hwalk := hasFault_of_mem_walk_parse hclean
  rw [Node.walk_eq, List.forall_mem_cons] at hwalk
  exact ⟨hclean, Value.datums_of_ofDatums
    (h.means text _ (map_shape_children_parse config text) hwalk.2)⟩

end RacketTree

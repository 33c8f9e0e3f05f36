import RacketTree.Proofs.Tree.Free
import RacketTree.Proofs.Tree.Strict

/-!
# The options of the reader

What an option changes in a tree (`options_parse`).

* A greater depth or more dots change nothing in a text where no fault says that there was too
  little of them: every step of the reader is the same under the wider options (`outcome_relax`),
  as the faults that it has left are in the tree (`Run.free`).
* Strict delimiters put the closing delimiters that are not counterparts of their opening ones in
  errors, and change nothing else.
-/

namespace RacketTree

/-- The second options allow at least the depth and the dots of the first. -/
structure Config.Relaxed (c c' : Config) : Prop where
  strict : c'.strictDelimiters = c.strictDelimiters
  depth : c.maxDepth ≤ c'.maxDepth
  dots : c.maxDots ≤ c'.maxDots

/-- The draft has no fault of an option in which the two differ. -/
structure Draft.Spared (c c' : Config) (d : Draft) : Prop where
  depth : c.maxDepth ≠ c'.maxDepth → d.Free .nestingTooDeep
  dots : c.maxDots ≠ c'.maxDots → d.Free .malformedDottedPair

variable {c c' : Config} {s : Sequence} {l : Lexeme}

theorem Tail.addDot_relax {t : Tail} {m n : Nat} {dot : Draft} (hmn : m ≤ n)
    (h : (t.addDot m dot).wellFormed = true) : t.addDot n dot = t.addDot m dot := by
  have hdots : t.dots + 1 ≤ m := by
    simp only [addDot, Bool.and_eq_true, decide_eq_true_eq] at h
    exact h.2
  have hdots' : t.dots + 1 ≤ n := by omega
  simp only [addDot, hdots, hdots']

namespace Sequence

theorem close_relax (hc : c.Relaxed c') (s : Sequence) (l : Lexeme) :
    s.close c' l = s.close c l := by
  rw [close, close, closing, closing, hc.strict]

theorem addDot_relax (hc : c.Relaxed c')
    (h : c.maxDots ≠ c'.maxDots →
      (Frame.sequence (s.addDot c l)).Free .malformedDottedPair) :
    s.addDot c' l = s.addDot c l := by
  by_cases heq : c.maxDots = c'.maxDots
  · rw [addDot, addDot, heq]
  · have hfree := (h heq).2
    unfold addDot at hfree ⊢
    split
    · rename_i t ht
      rw [ht] at hfree
      rw [Tail.addDot_relax hc.dots ((hfree _ rfl).2 rfl)]
    · rename_i ht
      rw [ht] at hfree
      dsimp only at hfree
      split
      · rename_i hlist
        rw [if_pos hlist] at hfree
        rw [Tail.addDot_relax hc.dots ((hfree _ rfl).2 rfl)]
      · rfl

end Sequence

/-! ## The reader under wider options -/

namespace Read

variable {outer : Nat} {d : Draft} {top : Frame} {rest : List Frame}

/-- A lexeme that leaves no fault of the options is taken in the same way under wider ones. -/
theorem outcome_relax {r : Delivered} (hc : c.Relaxed c')
    (hout : outcome c outer top rest l = .taken r)
    (h : c.maxDots ≠ c'.maxDots → r.Free .malformedDottedPair) :
    outcome c' outer top rest l = .taken r := by
  rcases outcome_cases c outer top rest l with
    ⟨_, -, -, hout'⟩ | ⟨s, below, hk, hset, hout'⟩ | ⟨s, below, hk, hset, hout'⟩ |
      ⟨_, -, -, -, hout'⟩ | ⟨frame, hstops, hf, hdepth, hout'⟩ | ⟨hstops, hf, hout'⟩ <;>
    rw [hout'] at hout <;> cases hout
  · simp only [outcome, hk, hset, Sequence.close_relax hc]
  · have hdot : s.addDot c' l = s.addDot c l := by
      apply Sequence.addDot_relax hc
      intro hne
      exact (Frame.stackFree_cons.mp (h hne)).1
    simp only [outcome, hk, hset, hdot]
  · have hle := hc.depth
    rw [outcome_of_not_stops _ _ _ _ hstops, hf]
    exact if_neg (by omega)
  · rw [outcome_of_not_stops _ _ _ _ hstops, hf]

/-- The run of an item that has no fault of the options is a run under wider ones. -/
theorem Run.relax {used : List Lexeme} {e : Ending} (hc : c.Relaxed c')
    (run : Run c outer top rest used e d) (h : d.Spared c c') :
    Run c' outer top rest used e d := by
  induction run with
  | complete hout => exact .complete (outcome_relax hc hout h.dots)
  | dangling hset => exact .dangling hset
  | cut top rest => exact .cut top rest
  | overflow ls hout =>
    by_cases heq : c.maxDepth = c'.maxDepth
    · refine .overflow ls ?_
      rw [outcome_eq_overflow] at hout ⊢
      rw [← heq]
      exact hout
    · exact absurd rfl (free_overflow (h.depth heq)).2
  | step hout run ih =>
    refine .step (outcome_relax hc hout ?_) (ih h)
    intro hne
    exact run.free (h.dots hne)

theorem Item.relax {used : List Lexeme} {e : Ending} (hc : c.Relaxed c')
    (item : Item c outer used e d) (h : d.Spared c c') : Item c' outer used e d := by
  have hle := hc.depth
  cases item with
  | lone hf => exact .lone hf
  | deep ls hf hdeep =>
    by_cases heq : c.maxDepth = c'.maxDepth
    · exact .deep ls hf (heq ▸ hdeep)
    · exact absurd rfl (free_tooDeep (h.depth heq))
  | framed hf hdepth run => exact .framed hf (by omega) (run.relax hc h)

/-- A text in which no item has a fault of the options has the same items under wider ones. -/
theorem shapes_relax (hc : c.Relaxed c') {source : List Char}
    (hdepth : c.maxDepth ≠ c'.maxDepth → ∀ s ∈ shapes c source, s.Free .nestingTooDeep)
    (hdots : c.maxDots ≠ c'.maxDots → ∀ s ∈ shapes c source, s.Free .malformedDottedPair) :
    shapes c' source = shapes c source := by
  have hspared : ∀ d ∈ readItems c 0 (Token.lexemes source), d.Spared c c' := by
    intro d hd
    have hmem : d.shape ∈ shapes c source := List.mem_map_of_mem hd
    have hfree : ∀ f, d.shape.Free f → d.Free f := by
      intro f hf
      rw [Draft.Free, Draft.Forall, Draft.shapes_eq (isSingle_readItems source d hd),
        List.forall_mem_singleton]
      exact hf
    exact ⟨fun hne => hfree _ (hdepth hne _ hmem), fun hne => hfree _ (hdots hne _ hmem)⟩
  have hread : List.Forall₂ (· = ·) (readItems c 0 (Token.lexemes source))
      (readItems c' 0 (Token.lexemes source)) := by
    refine forall₂_readItems ?_ hspared
    intro used e d _ item h
    exact ⟨d, item.relax hc h, rfl⟩
  rw [List.forall₂_eq_eq_eq] at hread
  rw [shapes, shapes, hread]

end Read

/-! ## Trees -/

theorem Read.free_of_walk {config : Config} {source : List Char} {f : Fault}
    (h : ∀ n ∈ ((parse config source).2.node (parse config source).1).walk, n.fault ≠ some f) :
    ∀ s ∈ Read.shapes config source, s.Free f := by
  have hwalk := Arena.map_shape_walk_view 0 (covers_parse config source).holds
  have hroot : (Shape.branch .source (Read.shapes config source) none).Free f := by
    intro t ht
    rw [← hwalk] at ht
    obtain ⟨n, hn, rfl⟩ := List.mem_map.mp ht
    rw [Node.fault_shape]
    exact h n hn
  exact (Shape.forall_branch.mp hroot).2

theorem equivalent_parse_of_shapes {source : List Char}
    (h : Read.shapes c' source = Read.shapes c source) :
    (parse c' source).2.equivalent (parse c' source).1 (parse c source).2 (parse c source).1 =
      true := by
  rw [equivalent_parse_iff, ← h]
  exact (covers_parse c' source).holds

/-- The effect of each option on the tree of a text. -/
theorem options_parse (config : Config) (source : List Char) :
    (∀ (m : Nat) (hm : config.maxDepth ≤ m),
      let deeper := { config with
        maxDepth := m, maxDepth_pos := Nat.lt_of_lt_of_le config.maxDepth_pos hm }
      (∀ n ∈ ((parse config source).2.node (parse config source).1).walk,
        n.fault ≠ some .nestingTooDeep) →
      (parse deeper source).2.equivalent (parse deeper source).1 (parse config source).2
        (parse config source).1 = true) ∧
    (let lenient := { config with strictDelimiters := false }
      let strict := { config with strictDelimiters := true }
      ((parse strict source).2.node (parse strict source).1).shape =
        ((parse lenient source).2.node (parse lenient source).1).shape.strict) ∧
    (let plain := { config with infixDots := false }
      let infixed := { config with infixDots := true }
      (∀ n ∈ ((parse plain source).2.node (parse plain source).1).walk,
        n.fault ≠ some .malformedDottedPair) →
      (parse infixed source).2.equivalent (parse infixed source).1 (parse plain source).2
        (parse plain source).1 = true) := by
  refine ⟨?_, ?_, ?_⟩
  · intro m hm deeper hfree
    have hc : config.Relaxed deeper := ⟨rfl, hm, Nat.le_refl _⟩
    apply equivalent_parse_of_shapes
    apply Read.shapes_relax hc
    · intro _
      exact Read.free_of_walk hfree
    · intro hne
      exact absurd rfl hne
  · intro lenient strict
    have hc : lenient.Stricter strict := ⟨rfl, rfl, rfl, rfl⟩
    have hshape := Arena.shape_view 0 (covers_parse strict source).holds
    have hshape' := Arena.shape_view 0 (covers_parse lenient source).holds
    rw [Tree.node, Tree.node, (covers_parse strict source).rootStart,
      (covers_parse lenient source).rootStart, hshape, hshape', Shape.strict_branch rfl,
      Read.shapes_strict hc]
  · intro plain infixed hfree
    have hc : plain.Relaxed infixed := ⟨rfl, Nat.le_refl _, Nat.le_succ 1⟩
    apply equivalent_parse_of_shapes
    apply Read.shapes_relax hc
    · intro hne
      exact absurd rfl hne
    · intro _
      exact Read.free_of_walk hfree

/-- A pair in a list that another bracket closes, where two levels are allowed. -/
theorem options_parse_pair :
    let source := ['[', '(', '1', ' ', '.', ' ', '2', ')', ')']
    let config : Config := { maxDepth := 2, infixDots := false }
    let deeper : Config := { maxDepth := 3, infixDots := false }
    let strict : Config := { maxDepth := 2, infixDots := false, strictDelimiters := true }
    let infixed : Config := { maxDepth := 2 }
    let root := fun c => (parse c source).2.node (parse c source).1
    (∀ n ∈ (root config).walk,
        n.fault ≠ some .nestingTooDeep ∧ n.fault ≠ some .malformedDottedPair) ∧
      (parse deeper source).2.equivalent (parse deeper source).1 (parse config source).2
        (parse config source).1 = true ∧
      (root strict).shape = (root config).shape.strict ∧ (root strict).hasFault = true ∧
      (parse infixed source).2.equivalent (parse infixed source).1 (parse config source).2
        (parse config source).1 = true := by
  intro source config deeper strict infixed root
  have hfree : ∀ n ∈ (root config).walk,
      n.fault ≠ some .nestingTooDeep ∧ n.fault ≠ some .malformedDottedPair := by decide +kernel
  have hfault : (root strict).hasFault = true := by decide +kernel
  obtain ⟨hdeeper, hstrict, hinfixed⟩ := options_parse config source
  exact ⟨hfree, hdeeper 3 (by decide) fun n hn => (hfree n hn).1, hstrict, hfault,
    hinfixed fun n hn => (hfree n hn).2⟩

end RacketTree

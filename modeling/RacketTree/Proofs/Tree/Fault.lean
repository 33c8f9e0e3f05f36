import RacketTree.Proofs.Tree.Items
import RacketTree.Proofs.Tree.Reparse

/-!
# Where faults come from

A fault never goes away: once a part of an open construct has one, so has the item at top level
(`Run.clean`). An item without fault is therefore complete, and all constructs on the way were
without fault. What may come next in a construct without fault depends on its `Stage` alone.

A stored tree says that it has an error if and only if one of its items has a fault
(`hasErrors_parse`).
-/

namespace RacketTree

open Token (lexemes)

/-- The tail cannot become well-formed any more, or a piece has a fault. -/
def Tail.hasFault (t : Tail) : Bool :=
  !t.wellFormed || Draft.anyFault t.pieces

/-- The open construct has a fault already. -/
def Frame.hasFault : Frame → Bool
  | wrapper w => Draft.anyFault w.children
  | sequence s => Draft.anyFault s.children || (s.tail.map Tail.hasFault).getD false

theorem Wrapper.hasFault_add (w : Wrapper) (item : Draft) :
    (Frame.wrapper (w.add item)).hasFault = (item.hasFault || (Frame.wrapper w).hasFault) := by
  simp [Frame.hasFault, add]

theorem Wrapper.hasFault_complete (w : Wrapper) (item : Draft) :
    (w.complete item).hasFault = (item.hasFault || (Frame.wrapper w).hasFault) := by
  simp [Frame.hasFault, complete, Bool.or_comm]

theorem Wrapper.hasFault_fail (w : Wrapper) : w.fail.hasFault = true := by
  simp [fail]

namespace Tail

/-- A tail is an error unless it is well-formed and its last dot has a datum. -/
theorem anyFault_finish (t : Tail) :
    Draft.anyFault t.finish = (t.hasFault || t.awaiting) := by
  unfold finish hasFault
  cases t.wellFormed <;> cases t.awaiting <;> simp

theorem hasFault_add (t : Tail) (item : Draft) (role : Role) :
    (t.add item role).hasFault =
      (t.hasFault || item.hasFault || (role == .datum && !t.awaiting)) := by
  cases role <;> cases hw : t.wellFormed <;> cases ha : t.awaiting <;>
    simp [add, hasFault, hw, ha, Bool.or_comm]

theorem hasFault_addDot (t : Tail) (n : Nat) (dot : Draft) :
    (t.addDot n dot).hasFault =
      (t.hasFault || dot.hasFault || t.awaiting || decide (n < t.dots + 1)) := by
  by_cases hn : t.dots + 1 ≤ n
  · have hn' : ¬n < t.dots + 1 := by omega
    cases hw : t.wellFormed <;> cases ha : t.awaiting <;>
      simp [addDot, hasFault, hw, ha, hn, hn', Bool.or_comm]
  · have hn' : n < t.dots + 1 := by omega
    simp [addDot, hasFault, hn, hn']

end Tail

/-! ## Stages -/

/-- What an open construct waits for. -/
inductive Stage where
  /-- A mark waits for its datum. -/
  | mark (role : Role)
  /-- A sequence before any dot waits for items, a dot or its closing delimiter. -/
  | items (opener : List Char) (seen : Bool)
  /-- A list after a dot waits for the datum of the dot, another dot or its closing delimiter. -/
  | tail (opener : List Char) (dots : Nat) (awaiting : Bool)

namespace Stage

/-- The text of the opening delimiter. -/
def opener : Stage → List Char
  | mark _ => []
  | items opener _ => opener
  | tail opener _ _ => opener

/-- A mark, not a sequence. -/
def isMark : Stage → Bool
  | mark _ => true
  | _ => false

/-- The stage after an item. -/
def add : Stage → Role → Stage
  | items opener _, .datum => items opener true
  | tail opener dots _, .datum => tail opener dots false
  | stage, _ => stage

@[simp] theorem add_trivia (stage : Stage) : stage.add .trivia = stage := by
  cases stage <;> rfl

/-- An item may come next. Behind the datum of a dot only trivia may. -/
def takes : Stage → Role → Bool
  | tail _ _ awaiting, .datum => awaiting
  | _, _ => true

/-- The stage after a dot. -/
def addDot : Stage → Stage
  | mark role => mark role
  | items opener _ => tail opener 1 true
  | tail opener dots _ => tail opener (dots + 1) true

/-- A dot may come next: after a datum of a list, if the dot before it has its datum and there are
not too many. -/
def takesDot (config : Config) : Stage → Bool
  | mark _ => false
  | items opener seen => Kind.ofOpener opener = .list && seen
  | tail _ dots awaiting => !awaiting && dots + 1 ≤ config.maxDots

/-- The last dot has no datum yet. -/
def isAwaiting : Stage → Bool
  | tail _ _ awaiting => awaiting
  | _ => false

end Stage

/-- The stage of an open construct. -/
def Frame.stage : Frame → Stage
  | wrapper w => .mark w.role
  | sequence s =>
    match s.tail with
    | none => .items s.opener s.seenDatum
    | some t => .tail s.opener t.dots t.awaiting

namespace Sequence

@[simp] theorem opener_stage (s : Sequence) : (Frame.sequence s).stage.opener = s.opener := by
  obtain ⟨opener, children, seen, tail⟩ := s
  cases tail <;> rfl

theorem isMark_stage (s : Sequence) : (Frame.sequence s).stage.isMark = false := by
  obtain ⟨opener, children, seen, tail⟩ := s
  cases tail <;> rfl

theorem stage_add (s : Sequence) (item : Draft) (role : Role) :
    (Frame.sequence (s.add item role)).stage = (Frame.sequence s).stage.add role := by
  obtain ⟨opener, children, seen, tail⟩ := s
  cases role with
  | datum => cases tail <;> simp [add, Tail.add, Frame.stage, Stage.add]
  | trivia =>
    have htrivia : (Role.trivia == Role.datum) = false := rfl
    cases tail <;> simp [add, Tail.add, Frame.stage, htrivia]

theorem hasFault_add (s : Sequence) (item : Draft) (role : Role) :
    (Frame.sequence (s.add item role)).hasFault =
      ((Frame.sequence s).hasFault || item.hasFault || !(Frame.sequence s).stage.takes role) := by
  obtain ⟨opener, children, seen, tail⟩ := s
  cases tail with
  | none => cases role <;> simp [add, Frame.hasFault, Frame.stage, Stage.takes, Bool.or_comm]
  | some t =>
    have htrivia : (Role.trivia == Role.datum) = false := rfl
    cases role <;>
      simp [add, Frame.hasFault, Tail.hasFault_add, Frame.stage, Stage.takes, Bool.or_assoc,
        htrivia]

theorem stage_addDot {s : Sequence} {config : Config} {dot : Lexeme}
    (h : (Frame.sequence s).stage.takesDot config = true) :
    (Frame.sequence (s.addDot config dot)).stage = (Frame.sequence s).stage.addDot := by
  obtain ⟨opener, children, seen, tail⟩ := s
  cases tail with
  | none =>
    simp only [addDot]
    split
    · rfl
    · rename_i hlist
      exact absurd h hlist
  | some t => rfl

theorem hasFault_addDot (s : Sequence) (config : Config) (dot : Lexeme) :
    (Frame.sequence (s.addDot config dot)).hasFault =
      ((Frame.sequence s).hasFault || dot.fault.isSome ||
        !(Frame.sequence s).stage.takesDot config) := by
  have hmax : 1 ≤ config.maxDots := by
    unfold Config.maxDots
    split <;> decide
  obtain ⟨opener, children, seen, tail⟩ := s
  cases tail with
  | some t =>
    have hle : decide (config.maxDots < t.dots + 1) = !decide (t.dots + 1 ≤ config.maxDots) := by
      rw [← decide_not, decide_eq_decide]
      omega
    simp only [addDot, Frame.hasFault, Option.map_some, Option.getD_some, Tail.hasFault_addDot,
      Lexeme.hasFault_leaf, Frame.stage, Stage.takesDot, hle, Bool.not_and, Bool.not_not,
      Bool.or_assoc]
  | none =>
    simp only [addDot]
    split
    · rename_i hlist
      have hdot : (Frame.sequence ⟨opener, children, seen, none⟩).stage.takesDot config = true :=
        hlist
      rw [hdot]
      simp [Frame.hasFault, Tail.hasFault, Tail.addDot, Tail.empty, hmax]
    · rename_i hlist
      have hdot : (Frame.sequence ⟨opener, children, seen, none⟩).stage.takesDot config = false :=
        Bool.eq_false_iff.mpr hlist
      rw [hdot]
      simp [Frame.hasFault]

theorem hasFault_body (s : Sequence) :
    Draft.anyFault s.body =
      ((Frame.sequence s).hasFault || (Frame.sequence s).stage.isAwaiting) := by
  obtain ⟨opener, children, seen, tail⟩ := s
  cases tail with
  | none => simp [body, Frame.hasFault, Frame.stage, Stage.isAwaiting]
  | some t =>
    simp [body, Frame.hasFault, Tail.anyFault_finish, Frame.stage, Stage.isAwaiting, Bool.or_assoc]

theorem hasFault_unclosed (s : Sequence) : s.unclosed.hasFault = true := by
  simp [unclosed]

/-- A closing delimiter is no error if no dot waits for its datum and, in strict mode, it is the
counterpart of the opener. -/
theorem hasFault_close (s : Sequence) (config : Config) (closer : Lexeme) :
    (s.close config closer).hasFault = false ↔
      (Frame.sequence s).hasFault = false ∧ (Frame.sequence s).stage.isAwaiting = false ∧
        closer.fault = none ∧ (config.strictDelimiters = true → closer.text = [s.counterpart]) := by
  have hclosing : (s.closing config closer).hasFault = false ↔ closer.fault = none ∧
      (config.strictDelimiters = true → closer.text = [s.counterpart]) := by
    unfold closing
    split
    · rename_i h
      simp only [Bool.and_eq_true, bne_iff_ne] at h
      simp [h.1, h.2]
    · rename_i h
      simp only [Bool.and_eq_true, bne_iff_ne, not_and, not_not] at h
      simpa using fun _ => h
  simp [close, hasFault_body, hclosing, and_assoc]

end Sequence

namespace Read

variable {config : Config} {outer : Nat} {top : Frame} {rest stack : List Frame} {l : Lexeme}

/-- The item or one of the constructs has a fault. -/
def Delivered.hasFault : Delivered → Bool
  | item d => d.hasFault
  | inside top rest => (top :: rest).any Frame.hasFault

/-- The item or one of the constructs has a fault. -/
def Settled.hasFault : Settled → Bool
  | item d => d.hasFault
  | sequence s rest => (Frame.sequence s :: rest).any Frame.hasFault

theorem hasFault_deliver {item : Draft} {role : Role}
    (h : (deliver item role stack).hasFault = false) :
    stack.any Frame.hasFault = false ∧ item.hasFault = false := by
  fun_induction deliver item role stack with
  | case1 item => exact ⟨rfl, h⟩
  | case2 item role s rest =>
    simp only [Delivered.hasFault, List.any_cons, Sequence.hasFault_add, Bool.or_eq_false_iff] at h
    exact ⟨by simp [h], h.1.1.2⟩
  | case3 item w rest =>
    simp only [Delivered.hasFault, List.any_cons, Wrapper.hasFault_add, Bool.or_eq_false_iff] at h
    exact ⟨by simp [h], h.1.1⟩
  | case4 item w rest ih =>
    obtain ⟨hrest, hitem⟩ := ih h
    simp only [Wrapper.hasFault_complete, Bool.or_eq_false_iff] at hitem
    exact ⟨by simp [hrest, hitem], hitem.1⟩

theorem hasFault_settleWith {item : Draft} {role : Role} (h : item.hasFault = true) :
    (settleWith item role stack).hasFault = true := by
  fun_induction settleWith item role stack with
  | case1 item => exact h
  | case2 item role s rest => simp [Settled.hasFault, Sequence.hasFault_add, h]
  | case3 item w rest ih => exact ih (Wrapper.hasFault_fail _)
  | case4 item w rest ih => exact ih (by simp [Wrapper.hasFault_complete, h])

/-- A wrapper that is ended without its datum leaves a fault. -/
theorem hasFault_settle_wrapper (w : Wrapper) (rest : List Frame) :
    (settle (.wrapper w) rest).hasFault = true :=
  hasFault_settleWith (Wrapper.hasFault_fail w)

theorem hasFault_finishWith {item : Draft} {role : Role} (h : item.hasFault = true) :
    (finishWith item role stack).hasFault = true := by
  fun_induction finishWith item role stack with
  | case1 item => exact h
  | case2 item role s rest ih => exact ih (Sequence.hasFault_unclosed _)
  | case3 item w rest ih => exact ih (Wrapper.hasFault_fail _)
  | case4 item w rest ih => exact ih (by simp [Wrapper.hasFault_complete, h])

/-- What the end of the input ends has a fault. -/
theorem hasFault_finish (top : Frame) (rest : List Frame) : (finish top rest).hasFault = true := by
  cases top with
  | sequence s => exact hasFault_finishWith (Sequence.hasFault_unclosed s)
  | wrapper w => exact hasFault_finishWith (Wrapper.hasFault_fail w)

theorem hasFault_tooDeep (ls : List Lexeme) : (tooDeep ls).hasFault = true := by
  simp [tooDeep]

theorem hasFault_overflow (top : Frame) (rest : List Frame) (l : Lexeme) (ls : List Lexeme) :
    (overflow top rest l ls).hasFault = true := by
  rw [overflow_eq]
  exact hasFault_finishWith (hasFault_tooDeep _)

theorem hasFault_ofLexeme? {frame : Frame} (h : Frame.ofLexeme? l = some frame) :
    frame.hasFault = l.fault.isSome := by
  unfold Frame.ofLexeme? at h
  split at h <;> cases h <;> simp [Frame.hasFault, Sequence.ofOpener]

theorem settle_sequence {s : Sequence} {below : List Frame}
    (h : settle top rest = .sequence s below)
    (hs : (Frame.sequence s :: below).any Frame.hasFault = false) :
    top = .sequence s ∧ rest = below := by
  cases top with
  | sequence s' =>
    cases h
    exact ⟨rfl, rfl⟩
  | wrapper w =>
    have hfault := hasFault_settle_wrapper w rest
    rw [h] at hfault
    exact absurd (hfault.symm.trans hs) (by simp)

/-- A lexeme that leaves no fault met none and has none, and a closing delimiter or a dot stands
directly inside a sequence. -/
theorem hasFault_outcome {r : Delivered} (hl : l.Valid)
    (h : outcome config outer top rest l = .taken r) (hr : r.hasFault = false) :
    (top :: rest).any Frame.hasFault = false ∧ l.fault = none ∧
      (stops l = true → ∃ s, top = .sequence s) := by
  rcases outcome_cases config outer top rest l with
    ⟨_, -, -, hout⟩ | ⟨s, below, hk, hs, hout⟩ | ⟨s, below, hk, hs, hout⟩ | ⟨_, -, -, -, hout⟩ |
      ⟨frame, hstops, hf, -, hout⟩ | ⟨hstops, -, hout⟩ <;> rw [hout] at h <;> cases h
  · obtain ⟨hbelow, hclose⟩ := hasFault_deliver hr
    obtain ⟨hseq, -, hfault, -⟩ := (s.hasFault_close config l).mp hclose
    have hclean : (Frame.sequence s :: below).any Frame.hasFault = false := by simp [hseq, hbelow]
    obtain ⟨rfl, rfl⟩ := settle_sequence hs hclean
    exact ⟨hclean, hfault, fun _ => ⟨s, rfl⟩⟩
  · simp only [Delivered.hasFault, List.any_cons, Sequence.hasFault_addDot,
      Bool.or_eq_false_iff] at hr
    obtain ⟨⟨⟨hseq, hfault⟩, -⟩, hbelow⟩ := hr
    have hclean : (Frame.sequence s :: below).any Frame.hasFault = false := by simp [hseq, hbelow]
    obtain ⟨rfl, rfl⟩ := settle_sequence hs hclean
    exact ⟨hclean, by simpa using hfault, fun _ => ⟨s, rfl⟩⟩
  · simp only [Delivered.hasFault, List.any_cons, Bool.or_eq_false_iff] at hr
    rw [hasFault_ofLexeme? hf] at hr
    exact ⟨by simp [hr], by simpa using hr.1, by simp [hstops]⟩
  · obtain ⟨hclean, hdraft⟩ := hasFault_deliver hr
    rw [(Lexeme.draft_of_valid hl).2.1] at hdraft
    exact ⟨hclean, by simpa using hdraft, by simp [hstops]⟩

/-- An item without fault is complete, and neither the constructs that it goes on from nor its
lexemes have a fault. -/
theorem Run.clean {used : List Lexeme} {e : Ending} {d : Draft}
    (run : Run config outer top rest used e d) (hv : ∀ l ∈ used, l.Valid)
    (hd : d.hasFault = false) :
    e = .complete ∧ (top :: rest).any Frame.hasFault = false ∧ ∀ l ∈ used, l.fault = none := by
  induction run with
  | complete hout =>
    obtain ⟨hclean, hl, -⟩ := hasFault_outcome (hv _ List.mem_cons_self) hout hd
    exact ⟨rfl, hclean, by simpa using hl⟩
  | @dangling top rest d hs =>
    cases top with
    | sequence s => cases hs
    | wrapper w =>
      have hfault := hasFault_settle_wrapper w rest
      rw [hs] at hfault
      exact absurd (hfault.symm.trans hd) (by simp)
  | cut top rest => exact absurd ((hasFault_finish top rest).symm.trans hd) (by simp)
  | @overflow top rest l ls hout =>
    exact absurd ((hasFault_overflow top rest l ls).symm.trans hd) (by simp)
  | step hout run ih =>
    obtain ⟨he, hclean', hused⟩ := ih (fun l hl => hv l (List.mem_cons_of_mem _ hl)) hd
    obtain ⟨hclean, hl, -⟩ := hasFault_outcome (hv _ List.mem_cons_self) hout hclean'
    refine ⟨he, hclean, fun m hm => ?_⟩
    rcases List.mem_cons.mp hm with rfl | hm
    · exact hl
    · exact hused m hm

end Read

/-! ## Errors of stored trees -/

namespace Arena

theorem hasFault_extends {a b : Arena} {n : Nat} {hs : List Handle} {ss : List Shape}
    (hall : a.HoldsAll n hs ss) (hab : a.Extends b) : hs.any b.hasFault = hs.any a.hasFault := by
  induction ss generalizing hs with
  | nil =>
    cases hall
    rfl
  | cons s ss ih =>
    obtain ⟨x, rest, rfl, -, hx, hrest⟩ := hall
    obtain ⟨r, hr⟩ : ∃ r, a.get? x = some r := by
      cases s <;> obtain ⟨r, hr, -⟩ := hx <;> exact ⟨r, hr⟩
    rw [List.any_cons, List.any_cons, ih hrest, Arena.hasFault, Arena.hasFault, hr, hab x r hr]

mutual

theorem hasFault_store (a : Arena) :
    (d : Draft) → (a.store d).2.any (a.store d).1.hasFault = Shape.anyFault d.shapes
  | .leaf kind text fault => by
    simp [store, Draft.shapes, Shape.anyFault, Shape.hasFault, Arena.hasFault, Arena.leaf,
      get?_push_size]
  | .branch kind children fault => by
    have h := hasFault_storeAll a children
    simp only [store, Draft.shapes, Shape.anyFault, Shape.hasFault, Bool.or_false, List.any_cons,
      List.any_nil, Arena.branch]
    rw [← h, Arena.hasFault, get?_push_size]
    rfl
  | .tail pieces trailing => by
    simp [store, Draft.shapes, Shape.anyFault, Shape.hasFault, Arena.hasFault, Arena.branch,
      get?_push_size]

theorem hasFault_storeAll (a : Arena) :
    (ds : List Draft) →
      (a.storeAll ds).2.any (a.storeAll ds).1.hasFault = Shape.anyFault (Draft.allShapes ds)
  | [] => rfl
  | d :: ds => by
    obtain ⟨-, -, hall⟩ := holdsAll_store a d
    obtain ⟨hext, -⟩ := holdsAll_storeAll (a.store d).1 ds
    simp only [storeAll, Draft.allShapes, List.any_append, Shape.anyFault_append]
    rw [hasFault_extends hall hext, hasFault_store a d, hasFault_storeAll (a.store d).1 ds]

end

end Arena

/-- A tree has an error if and only if one of its items has a fault. -/
theorem hasErrors_parse (config : Config) (source : List Char) :
    (parse config source).2.hasErrors (parse config source).1 =
      Draft.anyFault (Read.readItems config 0 (lexemes source)) := by
  have h := Arena.hasFault_storeAll Arena.empty (Read.readItems config 0 (lexemes source))
  rw [Draft.anyFault, ← h, Tree.hasErrors, Arena.hasFault]
  simp only [parse, parseInto, Arena.source, Arena.branch, Arena.get?_push_size]
  rfl

end RacketTree

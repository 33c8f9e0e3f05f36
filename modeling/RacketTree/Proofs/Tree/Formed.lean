import RacketTree.Proofs.Tree.Bodies
import RacketTree.Proofs.Tree.Items

/-!
# Items have the forms of the schema

Every item that the reader makes is a tree all of whose nodes have a form (`Item.formed`): a lexeme
keeps the constructs on the stack `Tight` (`tight_outcome`), and whatever ends them gives an item
that fits its role.
-/

namespace RacketTree

variable {config : Config}

/-! ## Stacks -/

/-- An open construct on the stack. -/
def Frame.Tight (config : Config) : Frame → Prop
  | wrapper w => w.Waits config Shape.isBlank
  | sequence s => ∃ front, s.Tight config front

/-- All constructs on the stack are open as they have to be. -/
def Frame.StackTight (config : Config) (stack : List Frame) : Prop :=
  ∀ f ∈ stack, f.Tight config

theorem Frame.stackTight_cons {f : Frame} {stack : List Frame} :
    StackTight config (f :: stack) ↔ f.Tight config ∧ StackTight config stack :=
  List.forall_mem_cons

theorem Frame.tight_ofLexeme? {l : Lexeme} {frame : Frame} (hl : l.Valid) (hs : l.Spelled)
    (h : ofLexeme? l = some frame) : frame.Tight config := by
  have hleaf : l.kind ≠ .character → l.kind ≠ .error →
      Draft.allShapes [l.leaf].reverse = [.leaf l.kind l.text none] := by
    intro hc he
    rw [Lexeme.leaf_eq hs hc he]
    rfl
  unfold ofLexeme? at h
  split at h <;> cases h
  · rename_i hk
    exact ⟨[], Sequence.tight_ofOpener hl hs hk⟩
  · rename_i hk
    obtain ⟨k, hform⟩ := hs.prefixMark hk
    refine ⟨_, [], hleaf (by simp [hk]) (by simp [hk]), ?_, nofun⟩
    rw [hk]
    exact .prefixMark (Kind.ofPrefix_of_mem hform ▸ hform)
  · rename_i hk
    refine ⟨_, [], hleaf (by simp [hk]) (by simp [hk]), ?_, nofun⟩
    rw [hk]
    exact .graphLabel (hs.graphLabel hk)
  · rename_i hk
    refine ⟨_, [], hleaf (by simp [hk]) (by simp [hk]), ?_, nofun⟩
    rw [hk, hs.datumCommentMark hk]
    exact .datumComment

namespace Read

open RacketTree.Frame (StackTight stackTight_cons)

variable {outer : Nat} {item d : Draft} {role : Role} {top : Frame} {rest stack : List Frame}
  {l : Lexeme} {ls : List Lexeme}

/-- A finished item at top level, or open constructs on the stack. -/
def Delivered.Tight (config : Config) : Delivered → Prop
  | .item d => ∃ role, d.Fits config Shape.isGap role
  | .inside top rest => StackTight config (top :: rest)

/-- A finished item at top level, or a sequence on the stack. -/
def Settled.Tight (config : Config) : Settled → Prop
  | .item d => ∃ role, d.Fits config Shape.isGap role
  | .sequence s rest => StackTight config (.sequence s :: rest)

theorem tight_deliver (h : StackTight config stack)
    (hitem : item.Fits config Shape.isBlank role) : (deliver item role stack).Tight config := by
  fun_induction deliver item role stack with
  | case1 item role => exact ⟨role, hitem.filler.loosen⟩
  | case2 item role s rest =>
    obtain ⟨⟨front, hs⟩, hrest⟩ := stackTight_cons.mp h
    exact stackTight_cons.mpr ⟨hs.add hitem.filler, hrest⟩
  | case3 item w rest =>
    obtain ⟨hw, hrest⟩ := stackTight_cons.mp h
    exact stackTight_cons.mpr ⟨Wrapper.Waits.add hw hitem, hrest⟩
  | case4 item w rest ih =>
    obtain ⟨hw, hrest⟩ := stackTight_cons.mp h
    exact ih hrest (Wrapper.Waits.complete hw hitem)

theorem Wrapper.Waits.fail_add {w : Wrapper} (hw : w.Waits config Shape.isBlank)
    (hitem : item.Fits config Shape.isGap .trivia) :
    (w.add item).fail.Fits config Shape.isFiller w.role := by
  have hgap : w.Waits config Shape.isGap :=
    hw.mono fun _ hs => Shape.isGap_of_isFiller (Shape.isFiller_of_isTrivia hs)
  exact (hgap.add hitem).fail

theorem tight_settleWith (h : StackTight config stack)
    (hitem : item.Fits config Shape.isFiller role) :
    (settleWith item role stack).Tight config := by
  fun_induction settleWith item role stack with
  | case1 item role => exact ⟨role, hitem.loosen⟩
  | case2 item role s rest =>
    obtain ⟨⟨front, hs⟩, hrest⟩ := stackTight_cons.mp h
    exact stackTight_cons.mpr ⟨hs.add hitem, hrest⟩
  | case3 item w rest ih =>
    obtain ⟨hw, hrest⟩ := stackTight_cons.mp h
    exact ih hrest (Wrapper.Waits.fail_add hw hitem.loosen)
  | case4 item w rest ih =>
    obtain ⟨hw, hrest⟩ := stackTight_cons.mp h
    exact ih hrest (Wrapper.Waits.complete hw hitem).filler

theorem Wrapper.Waits.fail_blank {w : Wrapper} (hw : w.Waits config Shape.isBlank) :
    w.fail.Fits config Shape.isFiller w.role :=
  (hw.mono fun _ hs => Shape.isGap_of_isFiller (Shape.isFiller_of_isTrivia hs)).fail

theorem tight_settle (h : StackTight config (top :: rest)) :
    (settle top rest).Tight config := by
  cases top with
  | sequence s => exact h
  | wrapper w =>
    obtain ⟨hw, hrest⟩ := stackTight_cons.mp h
    exact tight_settleWith hrest (Wrapper.Waits.fail_blank hw)

theorem fits_finishWith (h : StackTight config stack)
    (hitem : item.Fits config Shape.isGap role) :
    ∃ role', (finishWith item role stack).Fits config Shape.isGap role' := by
  fun_induction finishWith item role stack with
  | case1 item role => exact ⟨role, hitem⟩
  | case2 item role s rest ih =>
    obtain ⟨⟨front, hs⟩, hrest⟩ := stackTight_cons.mp h
    obtain ⟨front', hopen⟩ := hs.toOpen.add hitem
    exact ih hrest (hopen.unclosed _)
  | case3 item w rest ih =>
    obtain ⟨hw, hrest⟩ := stackTight_cons.mp h
    exact ih hrest (Wrapper.Waits.fail_add hw hitem).loosen
  | case4 item w rest ih =>
    obtain ⟨hw, hrest⟩ := stackTight_cons.mp h
    exact ih hrest (Wrapper.Waits.complete hw hitem).filler.loosen

theorem fits_finish (h : StackTight config (top :: rest)) :
    ∃ role, (finish top rest).Fits config Shape.isGap role := by
  cases top with
  | sequence s =>
    obtain ⟨⟨front, hs⟩, hrest⟩ := stackTight_cons.mp h
    exact fits_finishWith hrest (hs.toOpen.unclosed _)
  | wrapper w =>
    obtain ⟨hw, hrest⟩ := stackTight_cons.mp h
    exact fits_finishWith hrest (Wrapper.Waits.fail_blank hw).loosen

theorem fits_tooDeep (config : Config) (hl : l.Valid) (ls : List Lexeme) (role : Role) :
    (tooDeep (l :: ls)).Fits config Shape.isGap role := by
  refine ⟨rfl, Shape.tooDeep_formed ?_, ?_⟩
  · intro hnil
    exact hl.nonempty (List.append_eq_nil_iff.mp hnil).1
  · cases role <;> rfl

theorem fits_overflow (h : StackTight config (top :: rest)) (hl : l.Valid) :
    ∃ role, (overflow top rest l ls).Fits config Shape.isGap role := by
  rw [overflow_eq]
  exact fits_finishWith h (fits_tooDeep config hl ls l.role)

/-! ## Runs and items -/

theorem tight_outcome {r : Delivered} (h : StackTight config (top :: rest)) (hl : l.Valid)
    (hs : l.Spelled) (hout : outcome config outer top rest l = .taken r) : r.Tight config := by
  have hsettle := tight_settle h
  rcases outcome_cases config outer top rest l with
    ⟨_, -, -, hout'⟩ | ⟨s, below, hk, hset, hout'⟩ | ⟨s, below, hk, hset, hout'⟩ |
      ⟨_, -, -, -, hout'⟩ | ⟨frame, -, hf, -, hout'⟩ | ⟨hstops, hf, hout'⟩ <;>
    rw [hout'] at hout <;> cases hout
  · rw [hset] at hsettle
    obtain ⟨⟨front, hs'⟩, hbelow⟩ := stackTight_cons.mp hsettle
    exact tight_deliver hbelow (hs'.close hs hk _)
  · rw [hset] at hsettle
    obtain ⟨⟨front, hs'⟩, hbelow⟩ := stackTight_cons.mp hsettle
    exact stackTight_cons.mpr ⟨hs'.addDot hs hk, hbelow⟩
  · exact stackTight_cons.mpr ⟨Frame.tight_ofLexeme? hl hs hf, h⟩
  · exact tight_deliver h (Lexeme.draft_fits config hl hs hstops hf)

/-- The item of a run from constructs on a stack fits its role. -/
theorem Run.fits {used : List Lexeme} {e : Ending} (run : Run config outer top rest used e d)
    (h : StackTight config (top :: rest)) (hv : ∀ l ∈ used, l.Valid ∧ l.Spelled) :
    ∃ role, d.Fits config Shape.isGap role := by
  induction run with
  | complete hout =>
    obtain ⟨hl, hs⟩ := hv _ List.mem_cons_self
    exact tight_outcome h hl hs hout
  | dangling hset =>
    have hsettle := tight_settle h
    rw [hset] at hsettle
    exact hsettle
  | cut top rest => exact fits_finish h
  | overflow ls hout => exact fits_overflow h (hv _ List.mem_cons_self).1
  | step hout run ih =>
    obtain ⟨hl, hs⟩ := hv _ List.mem_cons_self
    exact ih (tight_outcome h hl hs hout) fun l hl => hv l (List.mem_cons_of_mem _ hl)

theorem lone_formed (hl : l.Valid) (hs : l.Spelled) (hf : Frame.ofLexeme? l = none) :
    (lone l).shape.isItem = true ∧ (lone l).shape.Formed config := by
  unfold lone
  split
  · rename_i hstops
    simp only [stops, Bool.or_eq_true, beq_iff_eq] at hstops
    rcases hstops with hk | hk
    · obtain ⟨hsingle, hcloser⟩ := Lexeme.leaf_closer hs hk
      have hshape : (stray l).shape = .branch .error [l.leaf.shape] (some .unexpectedToken) := by
        rw [stray, Draft.shape, Draft.allShapes, Draft.shapes_eq hsingle, Draft.allShapes, hk]
        rfl
      rw [hshape]
      refine ⟨rfl, Shape.formed_branch.mpr ⟨.stray hcloser, fun x hx => ?_⟩⟩
      rw [List.mem_singleton.mp hx]
      exact hcloser.formed
    · have hdot := Sequence.lone_dot_formed config hs hk
      rw [stray, if_pos hk]
      exact ⟨hdot.suits, hdot.formed⟩
  · rename_i hstops
    have hfits := Lexeme.draft_fits config hl hs (Bool.eq_false_iff.mpr hstops) hf
    exact ⟨hfits.filler.loosen.isItem, hfits.formed⟩

/-- Every node of an item has a form. -/
theorem Item.formed {used : List Lexeme} {e : Ending} (h : Item config outer used e d)
    (hv : ∀ l ∈ used, l.Valid ∧ l.Spelled) :
    d.shape.isItem = true ∧ d.shape.Formed config := by
  cases h with
  | lone hf =>
    obtain ⟨hl, hs⟩ := hv _ List.mem_cons_self
    exact lone_formed hl hs hf
  | deep ls hf hdeep =>
    have hfits := fits_tooDeep config (hv _ List.mem_cons_self).1 ls .datum
    exact ⟨hfits.isItem, hfits.formed⟩
  | framed hf hdeep run =>
    obtain ⟨hl, hs⟩ := hv _ List.mem_cons_self
    have hframe : StackTight config [_] :=
      List.forall_mem_singleton.mpr (Frame.tight_ofLexeme? hl hs hf)
    obtain ⟨role, hfits⟩ := run.fits hframe fun l hl => hv l (List.mem_cons_of_mem _ hl)
    exact ⟨hfits.isItem, hfits.formed⟩

theorem Items.formed {used : List Lexeme} {e : Ending} {ds : List Draft}
    (h : Items config outer used e ds) (hv : ∀ l ∈ used, l.Valid ∧ l.Spelled) :
    ∀ d ∈ ds, d.shape.isItem = true ∧ d.shape.Formed config := by
  induction h with
  | nil => simp
  | snoc items hallows item ih =>
    intro d hd
    rcases List.mem_append.mp hd with hd | hd
    · exact ih (fun l hl => hv l (List.mem_append_left _ hl)) d hd
    · rw [List.mem_singleton.mp hd]
      exact item.formed fun l hl => hv l (List.mem_append_right _ hl)

end Read

end RacketTree

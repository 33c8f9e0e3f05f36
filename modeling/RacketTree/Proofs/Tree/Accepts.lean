import RacketTree.Proofs.Tree.Grammar

/-!
# What the reader accepts

The reader finds no error in exactly the texts of the grammar (`hasErrors_parse_iff`).

* An item without fault is derived by the grammar: at every step of its run the lexemes so far lead
  to the constructs on the stack (`Derived`).
* The lexemes of a derivation are read without fault in front of every text and inside every
  construct that waits for what has been derived (`Completes`).
-/

namespace RacketTree.Grammar

open Read

variable {config : Config} {outer d : Nat} {top : Frame} {rest stack : List Frame} {l : Lexeme}
  {ls : List Lexeme}

/-! ## Items without fault are derived -/

theorem StackOpens.deliver {item : Draft} {role : Role} {xs : List Lexeme}
    (h : StackOpens config outer stack ls)
    (hitem : Derives config (.item role (outer + stack.length)) xs)
    (hclean : (deliver item role stack).hasFault = false) :
    Derived config outer (deliver item role stack) (ls ++ xs) := by
  fun_induction Read.deliver item role stack generalizing ls xs with
  | case1 item role =>
    cases h
    exact ⟨role, hitem⟩
  | case2 item role s rest =>
    cases h with
    | cons hd hrest hframe =>
      simp only [Delivered.hasFault, List.any_cons, Sequence.hasFault_add, Bool.or_eq_false_iff,
        Bool.not_eq_false'] at hclean
      rw [List.append_assoc]
      refine .cons hd hrest ?_
      rw [Sequence.stage_add]
      cases role with
      | datum => exact hframe.add_datum hitem hclean.1.2 s.isMark_stage
      | trivia =>
        rw [Stage.add_trivia]
        exact hframe.add_trivia hitem
  | case3 item w rest =>
    cases h with
    | cons hd hrest hframe =>
      rw [List.append_assoc]
      exact .cons hd hrest (hframe.add_trivia hitem)
  | case4 item w rest ih =>
    cases h with
    | cons hd hrest hframe =>
      rw [List.append_assoc]
      exact ih hrest (hframe.complete hd hitem) hclean

/-- A lexeme that leaves no fault continues the derivation. -/
theorem StackOpens.outcome {r : Delivered} (h : StackOpens config outer (top :: rest) ls)
    (hv : ∀ m ∈ ls, m.Valid) (hl : l.Valid)
    (hout : outcome config outer top rest l = .taken r) (hr : r.hasFault = false) :
    Derived config outer r (ls ++ [l]) := by
  obtain ⟨-, hfault, hsequence⟩ := hasFault_outcome hl hout hr
  rcases outcome_cases config outer top rest l with
    ⟨_, -, -, hout'⟩ | ⟨s, below, hk, hs, hout'⟩ | ⟨s, below, hk, hs, hout'⟩ | ⟨_, -, -, -, hout'⟩ |
      ⟨frame, -, hf, hd, hout'⟩ | ⟨hstops, hf, hout'⟩ <;> rw [hout'] at hout <;> cases hout
  · obtain ⟨s', rfl⟩ := hsequence (by simp [stops, hk])
    cases hs
    obtain ⟨-, hawaiting, -, hstrict⟩ := (s.hasFault_close config l).mp (hasFault_deliver hr).2
    cases h with
    | @cons _ _ before ls hd hrest hframe =>
      rw [List.append_assoc]
      refine hrest.deliver ?_ hr
      refine hframe.close hd s.isMark_stage hawaiting hk fun h => ?_
      obtain ⟨o, ho, hkind, htext⟩ := hframe.opener_mem s.isMark_stage
      have hlast := (hv o (List.mem_append_right _ ho)).opener hkind
      rw [htext, Sequence.opener_stage] at hlast
      rw [Sequence.opener_stage]
      exact (pairs_iff hlast).mpr (hstrict h)
  · obtain ⟨s', rfl⟩ := hsequence (by simp [stops, hk])
    cases hs
    simp only [Delivered.hasFault, List.any_cons, Sequence.hasFault_addDot, Bool.or_eq_false_iff,
      Bool.not_eq_false'] at hr
    cases h with
    | cons hd hrest hframe =>
      rw [List.append_assoc]
      refine .cons hd hrest ?_
      rw [Sequence.stage_addDot hr.1.2]
      exact hframe.add_dot hk hr.1.2
  · refine .cons ?_ h (opens_ofLexeme? hf)
    rw [List.length_cons]
    omega
  · exact h.deliver (derives_lone hl hfault hstops hf) hr

/-- The lexemes of a run that leaves no fault complete the derivation of the item. -/
theorem derives_run {used : List Lexeme} {e : Ending} {item : Draft}
    (run : Run config outer top rest used e item) (h : StackOpens config outer (top :: rest) ls)
    (hv : ∀ m ∈ ls ++ used, m.Valid) (hclean : item.hasFault = false) :
    ∃ role, Derives config (.item role outer) (ls ++ used) := by
  have hdone := (run.clean (fun m hm => hv m (List.mem_append_right _ hm)) hclean).1
  induction run generalizing ls with
  | complete hout =>
    exact h.outcome (fun m hm => hv m (List.mem_append_left _ hm)) (hv _ (by simp)) hout hclean
  | dangling | cut | overflow => cases hdone
  | @step top top' rest rest' l used e item hout run ih =>
    rw [List.append_cons] at hv ⊢
    obtain ⟨-, hclean', -⟩ := run.clean (fun m hm => hv m (List.mem_append_right _ hm)) hclean
    refine ih ?_ hv hclean hdone
    exact h.outcome (fun m hm => hv m (by simp [hm])) (hv l (by simp)) hout hclean'

theorem derives_item {used : List Lexeme} {e : Ending} {item : Draft}
    (h : Item config outer used e item) (hv : ∀ m ∈ used, m.Valid)
    (hclean : item.hasFault = false) :
    (∃ role, Derives config (.item role outer) used) ∧ ∀ m ∈ used, m.fault = none := by
  cases h with
  | @lone l hf =>
    unfold Read.lone at hclean
    split at hclean
    · simp [stray] at hclean
    · rename_i hstops
      have hl := hv l (by simp)
      rw [(Lexeme.draft_of_valid hl).2.1] at hclean
      have hfault : l.fault = none := by simpa using hclean
      exact ⟨⟨l.role, derives_lone hl hfault (by simpa using hstops) hf⟩, by simpa using hfault⟩
  | deep => cases (hasFault_tooDeep _).symm.trans hclean
  | @framed l frame used e item hf hd run =>
    have hopens : StackOpens config outer [frame] ([] ++ [l]) := .cons hd .nil (opens_ofLexeme? hf)
    have hused : ∀ m ∈ used, m.Valid := fun m hm => hv m (List.mem_cons_of_mem _ hm)
    obtain ⟨-, hframe, hfaults⟩ := run.clean hused hclean
    have hl : l.fault = none := by
      simpa [hasFault_ofLexeme? hf] using hframe
    refine ⟨derives_run run hopens (by simpa using hv) hclean, ?_⟩
    simpa using ⟨hl, hfaults⟩

theorem derives_items {used : List Lexeme} {e : Ending} {ds : List Draft}
    (h : Items config outer used e ds) (hv : ∀ m ∈ used, m.Valid)
    (hclean : Draft.anyFault ds = false) :
    (∃ seen, Derives config (.items outer seen) used) ∧ ∀ m ∈ used, m.fault = none := by
  induction h with
  | nil => exact ⟨⟨false, .nil⟩, by simp⟩
  | @snoc before used e e' ds d items hallows item ih =>
    simp only [Draft.anyFault_append, Draft.anyFault_cons, Draft.anyFault_nil, Bool.or_false,
      Bool.or_eq_false_iff] at hclean
    obtain ⟨⟨seen, hbefore⟩, hfaults⟩ := ih (fun m hm => hv m (List.mem_append_left _ hm)) hclean.1
    obtain ⟨⟨role, hitem⟩, hfaults'⟩ :=
      derives_item item (fun m hm => hv m (List.mem_append_right _ hm)) hclean.2
    refine ⟨⟨_, .snoc hbefore hitem⟩, fun m hm => ?_⟩
    rcases List.mem_append.mp hm with hm | hm
    · exact hfaults m hm
    · exact hfaults' m hm

theorem isSource_of_readItems (hv : ∀ m ∈ ls, m.Valid)
    (hclean : Draft.anyFault (readItems config 0 ls) = false) :
    IsSource config ls ∧ ∀ m ∈ ls, m.fault = none := by
  obtain ⟨used, rest, e, rfl, items, hrest, -⟩ :=
    exists_items (List.append_nil (readItems config 0 ls)).symm
  have hnil : rest = [] := by
    by_contra hne
    exact readItems_ne_nil hne hrest
  subst hnil
  rw [List.append_nil] at hv ⊢
  rw [List.append_nil] at items hclean
  exact derives_items items hv hclean

/-! ## What is derived is read without fault -/

/-- The items that are read from inside the constructs on a stack. -/
def resume (config : Config) (outer : Nat) : List Frame → List Lexeme → List Draft
  | [], ls => readItems config outer ls
  | top :: rest, ls =>
    (advance config outer top rest ls).1 ::
      readItems config outer (advance config outer top rest ls).2

/-- The items that are read after an item has been handed on. -/
def resumeAfter (config : Config) (outer : Nat) : Delivered → List Lexeme → List Draft
  | .item d, ls => d :: readItems config outer ls
  | .inside top rest, ls => resume config outer (top :: rest) ls

theorem resume_of_taken {r : Delivered} (h : outcome config outer top rest l = .taken r) :
    resume config outer (top :: rest) (l :: ls) = resumeAfter config outer r ls := by
  rw [resume, advance_cons, h]
  cases r <;> rfl

theorem resume_open {frame : Frame} (h : Frame.ofLexeme? l = some frame)
    (hd : outer + stack.length < config.maxDepth) :
    resume config outer stack (l :: ls) = resume config outer (frame :: stack) ls := by
  have hstops := stops_of_ofLexeme? h
  cases stack with
  | nil =>
    have hle : ¬config.maxDepth ≤ outer := Nat.not_le.mpr hd
    rw [resume, readItems_cons, readItem_eq, h]
    simp only [if_neg hle]
    rfl
  | cons top rest =>
    have hle : ¬config.maxDepth ≤ outer + rest.length + 1 := by
      rw [List.length_cons] at hd
      omega
    have hout : outcome config outer top rest l = .taken (.inside frame (top :: rest)) := by
      rw [outcome_of_not_stops _ _ _ _ hstops, h]
      exact if_neg hle
    exact resume_of_taken hout

theorem resume_lone (hstops : stops l = false) (h : Frame.ofLexeme? l = none) :
    resume config outer stack (l :: ls) =
      resumeAfter config outer (deliver l.draft l.role stack) ls := by
  cases stack with
  | nil =>
    rw [resume, readItems_cons, readItem_eq, h]
    simp [Read.lone, hstops, deliver, resumeAfter]
  | cons top rest =>
    refine resume_of_taken ?_
    rw [outcome_of_not_stops _ _ _ _ hstops, h]

theorem resume_close {s : Sequence} (h : l.kind = .closer) :
    resume config outer (.sequence s :: rest) (l :: ls) =
      resumeAfter config outer (deliver (s.close config l) .datum rest) ls :=
  resume_of_taken (by simp [outcome, h, settle])

theorem resume_dot {s : Sequence} (h : l.kind = .dot) :
    resume config outer (.sequence s :: rest) (l :: ls) =
      resume config outer (.sequence (s.addDot config l) :: rest) ls := by
  have hout : outcome config outer (.sequence s) rest l =
      .taken (.inside (.sequence (s.addDot config l)) rest) := by simp [outcome, h, settle]
  exact resume_of_taken hout

/-- The lexemes lead a construct without fault from one stage to another. -/
def Reads (config : Config) (outer : Nat) (rest : List Frame) (xs : List Lexeme)
    (stage stage' : Stage) : Prop :=
  ∀ top : Frame, top.hasFault = false → top.stage = stage →
    ∃ top' : Frame, top'.hasFault = false ∧ top'.stage = stage' ∧
      ∀ ls, resume config outer (top :: rest) (xs ++ ls) = resume config outer (top' :: rest) ls

theorem Reads.nil (stage : Stage) : Reads config outer rest [] stage stage :=
  fun top hclean hstage => ⟨top, hclean, hstage, fun _ => rfl⟩

theorem Reads.append {xs ys : List Lexeme} {stage stage' stage'' : Stage}
    (h : Reads config outer rest xs stage stage') (h' : Reads config outer rest ys stage' stage'') :
    Reads config outer rest (xs ++ ys) stage stage'' := by
  intro top hclean hstage
  obtain ⟨top', hclean', hstage', hxs⟩ := h top hclean hstage
  obtain ⟨top'', hclean'', hstage'', hys⟩ := h' top' hclean' hstage'
  refine ⟨top'', hclean'', hstage'', fun ls => ?_⟩
  rw [List.append_assoc, hxs, hys]

theorem reads_dot {stage : Stage} (hk : l.kind = .dot) (hfault : l.fault = none)
    (htakes : stage.takesDot config = true) : Reads config outer rest [l] stage stage.addDot := by
  intro top hclean hstage
  subst hstage
  cases top with
  | wrapper w => cases htakes
  | sequence s =>
    refine ⟨.sequence (s.addDot config l), ?_, s.stage_addDot htakes, fun ls => resume_dot hk⟩
    rw [Sequence.hasFault_addDot, hclean, hfault, htakes]
    rfl

/-- The stage of a list after some dots, each with its datum. -/
def tailStage (opener : List Char) : Nat → Stage
  | 0 => .items opener true
  | dots + 1 => .tail opener (dots + 1) false

/-- The lexemes are read without fault wherever what they are derived from may stand. -/
def Completes (config : Config) : Symbol → List Lexeme → Prop
  | .item role d, xs => ∀ outer stack, outer + stack.length = d →
    ∃ item : Draft, item.hasFault = false ∧ ∀ ls,
      resume config outer stack (xs ++ ls) = resumeAfter config outer (deliver item role stack) ls
  | .items d false, xs => ∀ outer rest stage, outer + rest.length + 1 = d →
    Reads config outer rest xs stage stage
  | .items d true, xs => ∀ outer rest opener seen, outer + rest.length + 1 = d →
    Reads config outer rest xs (.items opener seen) (.items opener true)
  | .tail d dots, xs => ∀ outer rest opener, outer + rest.length + 1 = d → IsListOpener opener →
    dots ≤ config.maxDots →
    Reads config outer rest xs (.items opener true) (tailStage opener dots)

theorem Completes.reads_trivia {xs : List Lexeme} {stage : Stage}
    (h : Completes config (.item .trivia d) xs) (hd : outer + rest.length + 1 = d) :
    Reads config outer rest xs stage stage := by
  intro top hclean hstage
  obtain ⟨item, hitem, hread⟩ := h outer (top :: rest) (by simpa [Nat.add_assoc] using hd)
  cases top with
  | wrapper w =>
    refine ⟨.wrapper (w.add item), ?_, hstage, hread⟩
    rw [Wrapper.hasFault_add, hitem, hclean]
    rfl
  | sequence s =>
    refine ⟨.sequence (s.add item .trivia), ?_, ?_, hread⟩
    · rw [Sequence.hasFault_add, hclean, hitem]
      cases (Frame.sequence s).stage <;> rfl
    · rw [Sequence.stage_add, Stage.add_trivia, hstage]

theorem Completes.reads_datum {xs : List Lexeme} {stage : Stage}
    (h : Completes config (.item .datum d) xs) (hd : outer + rest.length + 1 = d)
    (htakes : stage.takes .datum = true) (hmark : stage.isMark = false) :
    Reads config outer rest xs stage (stage.add .datum) := by
  intro top hclean hstage
  subst hstage
  obtain ⟨item, hitem, hread⟩ := h outer (top :: rest) (by simpa [Nat.add_assoc] using hd)
  cases top with
  | wrapper w => cases hmark
  | sequence s =>
    refine ⟨.sequence (s.add item .datum), ?_, s.stage_add item .datum, hread⟩
    rw [Sequence.hasFault_add, hclean, hitem, htakes]
    rfl

theorem completes_lone (hl : l.Valid) (hfault : l.fault = none) (hstops : stops l = false)
    (hframe : Frame.ofLexeme? l = none) : Completes config (.item l.role d) [l] := by
  intro outer stack hd
  refine ⟨l.draft, ?_, fun ls => resume_lone hstops hframe⟩
  rw [(Lexeme.draft_of_valid hl).2.1, hfault]
  rfl

theorem completes_marked {role : Role} {gap datum : List Lexeme}
    (hmark : markRole? l.kind = some role) (hfault : l.fault = none) (hd : d < config.maxDepth)
    (hgap : Completes config (.items (d + 1) false) gap)
    (hdatum : Completes config (.item .datum (d + 1)) datum) :
    Completes config (.item role d) (l :: (gap ++ datum)) := by
  intro outer stack hdepth
  subst hdepth
  obtain ⟨frame, hframe, hstage⟩ := exists_mark hmark
  have hclean : frame.hasFault = false := by rw [hasFault_ofLexeme? hframe, hfault]; rfl
  obtain ⟨frame', hclean', hstage', hgap'⟩ := hgap outer stack _ rfl frame hclean hstage
  obtain ⟨item, hitem, hdatum'⟩ := hdatum outer (frame' :: stack) rfl
  cases frame' with
  | sequence s =>
    have hno := s.isMark_stage
    rw [hstage'] at hno
    cases hno
  | wrapper w =>
    cases hstage'
    refine ⟨w.complete item, ?_, fun ls => ?_⟩
    · rw [Wrapper.hasFault_complete, hitem, hclean']
      rfl
    · rw [List.cons_append, resume_open hframe hd, List.append_assoc, hgap', hdatum']
      rfl

theorem completes_sequence {seen : Bool} {dots : Nat} {closer : Lexeme} {body tail : List Lexeme}
    (hl : l.Valid) (hopener : l.kind = .opener) (hcloser : closer.kind = .closer)
    (hfault : l.fault = none) (hfault' : closer.fault = none) (hd : d < config.maxDepth)
    (hbody : Completes config (.items (d + 1) seen) body)
    (htail : dots = 0 ∧ tail = [] ∨ IsListOpener l.text ∧ seen = true ∧ dots ≤ config.maxDots ∧
      Completes config (.tail (d + 1) dots) tail)
    (hpairs : config.strictDelimiters = true → Pairs l.text closer.text) :
    Completes config (.item .datum d) (l :: (body ++ tail ++ [closer])) := by
  intro outer stack hdepth
  subst hdepth
  have hframe : Frame.ofLexeme? l = some (.sequence (.ofOpener l)) := by
    simp [Frame.ofLexeme?, hopener]
  have hclean : (Frame.sequence (.ofOpener l)).hasFault = false := by
    rw [hasFault_ofLexeme? hframe, hfault]
    rfl
  have hreads : Reads config outer stack body (.items l.text false) (.items l.text seen) := by
    cases seen with
    | false => exact hbody outer stack _ rfl
    | true => exact hbody outer stack _ _ rfl
  have hreads' : ∃ stage, Reads config outer stack tail (.items l.text seen) stage ∧
      stage.isAwaiting = false ∧ stage.opener = l.text ∧ stage.isMark = false := by
    rcases htail with ⟨rfl, rfl⟩ | ⟨hlist, rfl, hdots, htail⟩
    · exact ⟨_, .nil _, rfl, rfl, rfl⟩
    · refine ⟨_, htail outer stack l.text rfl hlist hdots, ?_⟩
      cases dots <;> exact ⟨rfl, rfl, rfl⟩
  obtain ⟨stage, hreads', hawaiting, hstageOpener, hmark⟩ := hreads'
  obtain ⟨frame, hcleanFrame, hstage, hread⟩ := hreads.append hreads' _ hclean rfl
  subst hstage
  cases frame with
  | wrapper w => cases hmark
  | sequence s =>
    rw [Sequence.opener_stage] at hstageOpener
    have hlast := hl.opener hopener
    rw [← hstageOpener] at hlast hpairs
    refine ⟨s.close config closer, ?_, fun ls => ?_⟩
    · rw [Sequence.hasFault_close]
      exact ⟨hcleanFrame, hawaiting, hfault', fun h => (pairs_iff hlast).mp (hpairs h)⟩
    · rw [List.cons_append, resume_open hframe hd, List.append_assoc, hread]
      exact resume_close hcloser

theorem completes_snoc {seen : Bool} {role : Role} {body item : List Lexeme}
    (hbody : Completes config (.items d seen) body)
    (hitem : Completes config (.item role d) item) :
    Completes config (.items d (seen || role == .datum)) (body ++ item) := by
  cases role with
  | trivia =>
    cases seen with
    | false =>
      exact fun outer rest stage hd => (hbody outer rest stage hd).append (hitem.reads_trivia hd)
    | true =>
      exact fun outer rest opener seen hd =>
        (hbody outer rest opener seen hd).append (hitem.reads_trivia hd)
  | datum =>
    cases seen with
    | false =>
      exact fun outer rest opener seen hd =>
        (hbody outer rest _ hd).append (hitem.reads_datum hd rfl rfl)
    | true =>
      exact fun outer rest opener seen hd =>
        (hbody outer rest opener seen hd).append (hitem.reads_datum hd rfl rfl)

theorem completes_dotted {dots : Nat} {tail gap datum after : List Lexeme}
    (htail : Completes config (.tail d dots) tail) (hdot : l.kind = .dot) (hfault : l.fault = none)
    (hgap : Completes config (.items d false) gap)
    (hdatum : Completes config (.item .datum d) datum)
    (hafter : Completes config (.items d false) after) :
    Completes config (.tail d (dots + 1)) (tail ++ l :: (gap ++ datum ++ after)) := by
  intro outer rest opener hd hlist hmax
  have htakes : (tailStage opener dots).takesDot config = true := by
    cases dots with
    | zero => simpa [tailStage, Stage.takesDot] using isListOpener_iff.mp hlist
    | succ dots => simpa [tailStage, Stage.takesDot] using hmax
  have hstage : (tailStage opener dots).addDot = .tail opener (dots + 1) true := by
    cases dots <;> rfl
  have hstart : Reads config outer rest [l] (tailStage opener dots)
      (.tail opener (dots + 1) true) := hstage ▸ reads_dot hdot hfault htakes
  have hwait : Reads config outer rest gap (.tail opener (dots + 1) true)
      (.tail opener (dots + 1) true) := hgap outer rest _ hd
  have hgiven : Reads config outer rest datum (.tail opener (dots + 1) true)
      (.tail opener (dots + 1) false) := hdatum.reads_datum hd rfl rfl
  have hdone : Reads config outer rest after (.tail opener (dots + 1) false)
      (.tail opener (dots + 1) false) := hafter outer rest _ hd
  exact (htail outer rest opener hd hlist (by omega)).append
    (hstart.append ((hwait.append hgiven).append hdone))

/-- Whatever is derived from lexemes without fault is read without fault. -/
theorem Derives.completes {symbol : Symbol} {xs : List Lexeme} (h : Derives config symbol xs)
    (hv : ∀ l ∈ xs, l.Valid ∧ l.fault = none) : Completes config symbol xs := by
  induction h with
  | @blank d l hblank =>
    obtain ⟨hl, hfault⟩ := hv l (by simp)
    obtain ⟨hstops, hframe, hrole⟩ := lone_of_blank hblank
    exact hrole ▸ completes_lone hl hfault hstops hframe
  | @atom d l hatom =>
    obtain ⟨hl, hfault⟩ := hv l (by simp)
    obtain ⟨hstops, hframe, hrole⟩ := lone_of_atom hatom
    exact hrole ▸ completes_lone hl hfault hstops hframe
  | @marked role d mark gap datum hmark hd hgap hdatum ihgap ihdatum =>
    refine completes_marked hmark (hv mark (by simp)).2 hd ?_ ?_
    · exact ihgap fun l hl => hv l (by simp [hl])
    · exact ihdatum fun l hl => hv l (by simp [hl])
  | @sequence d dots seen opener closer body tail hopener hcloser hd hbody htail hdots hpairs ihbody
      ihtail =>
    obtain ⟨hl, hfault⟩ := hv opener (by simp)
    have hdotted : dots = 0 ∧ tail = [] ∨ IsListOpener opener.text ∧ seen = true ∧
        dots ≤ config.maxDots ∧ Completes config (.tail (d + 1) dots) tail := by
      rcases hdots with rfl | ⟨hlist, hseen, hcount⟩
      · cases htail
        exact .inl ⟨rfl, rfl⟩
      · exact .inr ⟨hlist, hseen, dots_iff.mpr (.inr hcount),
          ihtail fun l hl => hv l (by simp [hl])⟩
    exact completes_sequence hl hopener hcloser hfault (hv closer (by simp)).2 hd
      (ihbody fun l hl => hv l (by simp [hl])) hdotted hpairs
  | nil => exact fun outer rest stage hd => .nil stage
  | snoc hbody hitem ihbody ihitem =>
    exact completes_snoc (ihbody fun l hl => hv l (by simp [hl]))
      (ihitem fun l hl => hv l (by simp [hl]))
  | noTail => exact fun outer rest opener hd hlist hmax => .nil _
  | @dotted d dots dot tail gap datum after htail hdot hgap hdatum hafter ihtail ihgap ihdatum
      ihafter =>
    exact completes_dotted (ihtail fun l hl => hv l (by simp [hl])) hdot (hv dot (by simp)).2
      (ihgap fun l hl => hv l (by simp [hl])) (ihdatum fun l hl => hv l (by simp [hl]))
      (ihafter fun l hl => hv l (by simp [hl]))

theorem readItems_of_derives {seen : Bool} {xs : List Lexeme}
    (h : Derives config (.items outer seen) xs) (hv : ∀ l ∈ xs, l.Valid ∧ l.fault = none) :
    ∃ ds, Draft.anyFault ds = false ∧
      ∀ ls, readItems config outer (xs ++ ls) = ds ++ readItems config outer ls := by
  generalize hsymbol : Symbol.items outer seen = symbol at h
  induction h generalizing seen with
  | blank | atom | marked | sequence | noTail | dotted => cases hsymbol
  | nil => exact ⟨[], rfl, fun _ => rfl⟩
  | @snoc d seen' role body item hbody hitem ihbody =>
    cases hsymbol
    obtain ⟨ds, hclean, hread⟩ := ihbody (fun l hl => hv l (by simp [hl])) rfl
    have hcompletes := hitem.completes fun l hl => hv l (by simp [hl])
    obtain ⟨draft, hdraft, hread'⟩ := hcompletes outer [] rfl
    refine ⟨ds ++ [draft], by simp [hclean, hdraft], fun ls => ?_⟩
    rw [List.append_assoc, hread, List.append_assoc]
    exact congrArg (ds ++ ·) (hread' ls)

theorem toLexeme_place (start : Nat) (ls : List Lexeme) :
    (Token.place start ls).map Token.toLexeme = ls := by
  induction ls generalizing start with
  | nil => rfl
  | cons l ls ih => rw [Token.place, List.map_cons, ih]

/-- The reader finds no error in exactly the texts whose tokens have no fault and are derived by the
grammar. -/
theorem hasErrors_parse_iff (config : Config) (source : List Char) :
    (parse config source).2.hasErrors (parse config source).1 = false ↔
      (∀ t ∈ Token.tokenize source, t.fault = none) ∧
        IsSource config ((Token.tokenize source).map Token.toLexeme) := by
  have htokens : (Token.tokenize source).map Token.toLexeme = Token.lexemes source :=
    toLexeme_place 0 (Token.lexemes source)
  have hfaults : (∀ t ∈ Token.tokenize source, t.fault = none) ↔
      ∀ l ∈ Token.lexemes source, l.fault = none := by
    rw [← htokens]
    simp
  have hvalid := Token.lexemes_valid source
  rw [htokens, hfaults, hasErrors_parse]
  constructor
  · intro hclean
    obtain ⟨hsource, hlexemes⟩ := isSource_of_readItems hvalid hclean
    exact ⟨hlexemes, hsource⟩
  · rintro ⟨hlexemes, seen, hderives⟩
    obtain ⟨ds, hclean, hread⟩ :=
      readItems_of_derives hderives fun l hl => ⟨hvalid l hl, hlexemes l hl⟩
    have hitems := hread []
    rw [List.append_nil, readItems, List.append_nil] at hitems
    rw [hitems, hclean]

end RacketTree.Grammar

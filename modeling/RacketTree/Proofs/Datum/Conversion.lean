import RacketTree.Datum.Convert
import RacketTree.Proofs.Literal.Failures
import RacketTree.Proofs.Tree.Conforms

/-!
# Datums without a value

The value of a compound is gathered from the values of the datums in it, so a datum has no value if
a datum in it has none. `conversions` lists the datums in the order in which their values are
needed, each behind those in it. The first of them without a value is the cause: the values of the
datums in it are there, and it fails by itself (`ofNode_eq_error_iff`).

Two causes are looked at in full: keys that are no keys (`failsItself_badKey_iff`) and codes that
are too large (`failsItself_codeTooLarge_iff`). A wrapper without content never is the cause in a
tree of the schema (`not_failsItself_wrapper`).
-/

namespace RacketTree

open Node (isDatumKind)

/-- The value of a datum of this kind is made of the values of the datums in it. -/
def Kind.isGathered : Kind → Bool
  | .quote | .quasiquote | .box | .hash | .list | .vector => true
  | _ => false

/-! ## The order of conversion -/

namespace Node

theorem datums_eq_filter (n : Node) :
    n.datums = n.children.filter fun c => isDatumKind c.kind := by
  rw [datums, named, List.filter_filter]
  refine List.filter_congr fun c _ => ?_
  simp [isDatumKind, Bool.and_comm]

mutual

/-- The datums whose values are needed for the value of a datum, in the order in which they are
converted. -/
def conversions : Node → List Node
  | n@⟨_, kind, _, _, _, _, hasFault, children⟩ =>
    (if !hasFault && kind.isGathered then conversionsAll children else []) ++ [n]

/-- The same for those nodes that are in datum position. -/
def conversionsAll : List Node → List Node
  | [] => []
  | n :: rest => (if isDatumKind n.kind then n.conversions else []) ++ conversionsAll rest

end

theorem conversions_eq (n : Node) :
    n.conversions =
      (if !n.hasFault && n.kind.isGathered then conversionsAll n.children else []) ++ [n] := by
  obtain ⟨_, _, _, _, _, _, _, _⟩ := n
  rw [conversions]

mutual

theorem conversions_subset_walk : (n : Node) → n.conversions ⊆ n.walk
  | ⟨handle, kind, start, width, text?, fault, hasFault, children⟩ => by
    intro m hm
    rw [conversions_eq] at hm
    rw [walk_eq, List.mem_cons]
    rcases List.mem_append.mp hm with hm | hm
    · split at hm
      · exact .inr (conversionsAll_subset_walkAll children hm)
      · cases hm
    · exact .inl (List.mem_singleton.mp hm)

theorem conversionsAll_subset_walkAll : (ns : List Node) → conversionsAll ns ⊆ walkAll ns
  | [] => List.Subset.refl _
  | n :: rest => by
    intro m hm
    rw [conversionsAll] at hm
    rw [walkAll, List.mem_append]
    rcases List.mem_append.mp hm with hm | hm
    · split at hm
      · exact .inl (conversions_subset_walk n hm)
      · cases hm
    · exact .inr (conversionsAll_subset_walkAll rest hm)

end

end Node

namespace Value

variable {source : List Char} {n m : Node} {e : DatumError}

/-- The value of a compound from the values of the datums in it. -/
def gather (n : Node) (values : List Value) : Except DatumError Value :=
  match n.kind with
  | .hash => ofPairs n.start values
  | .list => .ok (if n.dottedTail?.isSome then .tuple values else .list values)
  | .vector => .ok (.list values)
  | kind =>
    match values with
    | value :: _ => .ok value
    | [] => .error (.unsupported kind n.start)

theorem ofNode_eq (source : List Char) (n : Node) :
    ofNode source n =
      if n.hasFault then .error (.malformed n.start (n.text source))
      else if n.kind.isGathered then (ofDatums source n.children).bind (gather n)
      else ofAtom n.kind n.start (n.text source) := by
  obtain ⟨handle, kind, start, width, text?, fault, hasFault, children⟩ := n
  unfold ofNode
  refine ite_congr rfl (fun _ => rfl) fun _ => ?_
  cases kind <;> rfl

theorem ofDatums_cons (source : List Char) (n : Node) (rest : List Node) :
    ofDatums source (n :: rest) =
      if isDatumKind n.kind then
        (ofNode source n).bind fun value => (ofDatums source rest).map (value :: ·)
      else ofDatums source rest := by
  have hkind : (n.kind == .whitespace || n.kind.isPunctuation || n.kind.isComment) =
      !isDatumKind n.kind := by
    simp [isDatumKind, bne]
  rw [ofDatums, hkind]
  cases isDatumKind n.kind with
  | false => rfl
  | true =>
    cases ofNode source n with
    | error e => rfl
    | ok value => cases ofDatums source rest <;> rfl

/-- The values are those of the nodes in datum position. -/
theorem forall₂_of_ofDatums {ns : List Node} {vs : List Value}
    (h : ofDatums source ns = .ok vs) :
    List.Forall₂ (fun n v => ofNode source n = .ok v) (ns.filter fun n => isDatumKind n.kind)
      vs := by
  induction ns generalizing vs with
  | nil =>
    cases h
    exact .nil
  | cons n ns ih =>
    rw [ofDatums_cons] at h
    by_cases hdatum : isDatumKind n.kind = true
    · rw [if_pos hdatum] at h
      rw [List.filter_cons, if_pos hdatum]
      cases hn : ofNode source n with
      | error e =>
        rw [hn] at h
        cases h
      | ok value =>
        rw [hn] at h
        obtain ⟨rest, hrest, rfl⟩ := Token.map_eq_ok h
        exact .cons hn (ih hrest)
    · rw [if_neg hdatum] at h
      rw [List.filter_cons, if_neg hdatum]
      exact ih h

/-- The first datum without a value among those that are converted. -/
def firstFailure? (source : List Char) (n : Node) : Option Node :=
  n.conversions.find? fun m => !(ofNode source m).isOk

/-- A datum has no value for a cause of its own. -/
inductive FailsItself (source : List Char) (n : Node) : DatumError → Prop
  | malformed (h : n.hasFault = true) : FailsItself source n (.malformed n.start (n.text source))
  | gathered {values : List Value} {e : DatumError} (hfault : n.hasFault = false)
      (hk : n.kind.isGathered = true) (hvalues : ofDatums source n.children = .ok values)
      (h : gather n values = .error e) : FailsItself source n e
  | atom {e : DatumError} (hfault : n.hasFault = false) (hk : n.kind.isGathered = false)
      (h : ofAtom n.kind n.start (n.text source) = .error e) : FailsItself source n e

theorem FailsItself.ofNode_eq_error (h : FailsItself source n e) : ofNode source n = .error e := by
  rw [ofNode_eq]
  cases h with
  | malformed h => exact if_pos h
  | gathered hfault hk hvalues h => simp [hfault, hk, hvalues, Except.bind, h]
  | atom hfault hk h => simp [hfault, hk, h]

theorem FailsItself.unique {e' : DatumError} (h : FailsItself source n e)
    (h' : FailsItself source n e') : e = e' :=
  Except.error.inj (h.ofNode_eq_error.symm.trans h'.ofNode_eq_error)

mutual

/-- A datum with a value is made of datums with values. -/
theorem isOk_of_mem_conversions (source : List Char) : (n : Node) →
    (ofNode source n).isOk = true → ∀ m ∈ n.conversions, (ofNode source m).isOk = true
  | ⟨handle, kind, start, width, text?, fault, hasFault, children⟩, hok, m, hm => by
    rw [Node.conversions_eq] at hm
    rcases List.mem_append.mp hm with hm | hm
    · split at hm
      · rename_i hkind
        simp only [Bool.and_eq_true, Bool.not_eq_true'] at hkind
        refine isOk_of_mem_conversionsAll source children ?_ m hm
        rw [ofNode_eq, if_neg (by simp [hkind.1]), if_pos hkind.2] at hok
        cases hvalues : ofDatums source children with
        | ok values => rfl
        | error e =>
          simp only [hvalues] at hok
          cases hok
      · cases hm
    · rw [List.mem_singleton.mp hm]
      exact hok

theorem isOk_of_mem_conversionsAll (source : List Char) : (ns : List Node) →
    (ofDatums source ns).isOk = true →
      ∀ m ∈ Node.conversionsAll ns, (ofNode source m).isOk = true
  | [], _, m, hm => by cases hm
  | n :: rest, hok, m, hm => by
    rw [ofDatums_cons] at hok
    rw [Node.conversionsAll] at hm
    by_cases hdatum : isDatumKind n.kind = true
    · rw [if_pos hdatum] at hok hm
      cases hn : ofNode source n with
      | error e =>
        rw [hn] at hok
        cases hok
      | ok value =>
        cases hrest : ofDatums source rest with
        | error e =>
          rw [hn, hrest] at hok
          cases hok
        | ok values =>
          rcases List.mem_append.mp hm with hm | hm
          · exact isOk_of_mem_conversions source n (by rw [hn]; rfl) m hm
          · exact isOk_of_mem_conversionsAll source rest (by rw [hrest]; rfl) m hm
    · rw [if_neg hdatum] at hok hm
      exact isOk_of_mem_conversionsAll source rest hok m hm

end

/-- A datum without a value fails by itself if no datum in it has failed. -/
theorem exists_firstFailure_of_children
    (hchildren : ∀ e, ofDatums source n.children = .error e →
      ∃ m, (Node.conversionsAll n.children).find? (fun m => !(ofNode source m).isOk) = some m ∧
        FailsItself source m e)
    (h : ofNode source n = .error e) :
    ∃ m, firstFailure? source n = some m ∧ FailsItself source m e := by
  have hself : [n].find? (fun m => !(ofNode source m).isOk) = some n := by
    simp [h, Except.isOk, Except.toBool]
  rw [ofNode_eq] at h
  rw [firstFailure?, Node.conversions_eq, List.find?_append, hself]
  by_cases hfault : n.hasFault = true
  · rw [if_pos hfault] at h
    cases h
    exact ⟨n, by simp [hfault], .malformed hfault⟩
  rw [if_neg hfault] at h
  rw [Bool.not_eq_true] at hfault
  by_cases hk : n.kind.isGathered = true
  · rw [if_pos hk] at h
    rw [if_pos (by simp [hfault, hk])]
    cases hvalues : ofDatums source n.children with
    | error e' =>
      rw [hvalues] at h
      cases h
      obtain ⟨m, hm, hfails⟩ := hchildren e hvalues
      exact ⟨m, by simp [hm], hfails⟩
    | ok values =>
      rw [hvalues] at h
      have hnone : (Node.conversionsAll n.children).find? (fun m => !(ofNode source m).isOk) =
          Option.none := by
        rw [List.find?_eq_none]
        intro m hm
        simp [isOk_of_mem_conversionsAll source n.children (by rw [hvalues]; rfl) m hm]
      exact ⟨n, by simp [hnone], .gathered hfault hk hvalues h⟩
  · rw [if_neg hk] at h
    rw [Bool.not_eq_true] at hk
    exact ⟨n, by simp [hk], .atom hfault hk h⟩

mutual

/-- Where a datum has no value, the first failure is the cause. -/
theorem exists_firstFailure : (n : Node) → (e : DatumError) → ofNode source n = .error e →
    ∃ m, firstFailure? source n = some m ∧ FailsItself source m e
  | ⟨_, _, _, _, _, _, _, children⟩, _, h =>
    exists_firstFailure_of_children (exists_firstFailureAll children) h

theorem exists_firstFailureAll : (ns : List Node) → (e : DatumError) →
    ofDatums source ns = .error e →
    ∃ m, (Node.conversionsAll ns).find? (fun m => !(ofNode source m).isOk) = some m ∧
      FailsItself source m e
  | [], _, h => by cases h
  | n :: rest, e, h => by
    rw [ofDatums_cons] at h
    rw [Node.conversionsAll]
    by_cases hdatum : isDatumKind n.kind = true
    · rw [if_pos hdatum] at h ⊢
      rw [List.find?_append]
      cases hn : ofNode source n with
      | error e' =>
        rw [hn] at h
        cases h
        obtain ⟨m, hm, hfails⟩ := exists_firstFailure n _ hn
        rw [firstFailure?] at hm
        exact ⟨m, by rw [hm]; rfl, hfails⟩
      | ok value =>
        have hnone : n.conversions.find? (fun m => !(ofNode source m).isOk) = Option.none := by
          rw [List.find?_eq_none]
          intro m hm
          simp [isOk_of_mem_conversions source n (by rw [hn]; rfl) m hm]
        rw [hn] at h
        cases hrest : ofDatums source rest with
        | ok values =>
          rw [hrest] at h
          cases h
        | error e' =>
          rw [hrest] at h
          cases h
          obtain ⟨m, hm, hfails⟩ := exists_firstFailureAll rest _ hrest
          exact ⟨m, by rw [hnone, hm]; rfl, hfails⟩
    · rw [if_neg hdatum] at h ⊢
      exact exists_firstFailureAll rest e h

end

/-- A datum has no value exactly because of the first failure. -/
theorem ofNode_eq_error_iff :
    ofNode source n = .error e ↔ ∃ m, firstFailure? source n = some m ∧ FailsItself source m e := by
  refine ⟨exists_firstFailure n e, ?_⟩
  rintro ⟨m, hm, hfails⟩
  cases hn : ofNode source n with
  | ok value =>
    have hok := isOk_of_mem_conversions source n (by rw [hn]; rfl) m (List.mem_of_find?_eq_some hm)
    rw [hfails.ofNode_eq_error] at hok
    cases hok
  | error e' =>
    obtain ⟨m', hm', hfails'⟩ := exists_firstFailure n _ hn
    rw [hm, Option.some.injEq] at hm'
    subst hm'
    rw [hfails.unique hfails']

/-! ## Causes -/

/-- The value as an entry of a table. -/
def asPair (start : Nat) : Value → Except DatumError (Value × Value)
  | .tuple [key, value] => .ok (key, value)
  | _ => .error (.hashEntries start)

/-- The entries with one more. -/
def addPair (entries : List (Value × Value)) (pair : Value × Value) :
    Except DatumError (List (Value × Value)) :=
  if pair.1.isKey then .ok (setEntry entries pair.1 pair.2) else .error .badKey

theorem ofPairs_eq (start : Nat) (values : List Value) :
    ofPairs start values =
      (values.mapM (asPair start)).bind fun pairs =>
        (pairs.foldlM addPair []).bind fun entries => .ok (.dict entries) :=
  rfl

/-- Values that are all pairs. -/
def fromPairs (pairs : List (Value × Value)) : List Value :=
  pairs.map fun pair => .tuple [pair.1, pair.2]

theorem mapM_asPair (start : Nat) (values : List Value) :
    (∃ pairs, values = fromPairs pairs ∧ values.mapM (asPair start) = .ok pairs) ∨
      (¬∃ pairs, values = fromPairs pairs) ∧
        values.mapM (asPair start) = .error (.hashEntries start) := by
  induction values with
  | nil => exact .inl ⟨[], rfl, rfl⟩
  | cons v values ih =>
    rw [List.mapM_cons]
    by_cases hv : ∃ key value, v = .tuple [key, value]
    · obtain ⟨key, value, rfl⟩ := hv
      rcases ih with ⟨pairs, rfl, hpairs⟩ | ⟨hnone, herror⟩
      · exact .inl ⟨(key, value) :: pairs, rfl, by rw [hpairs]; rfl⟩
      · refine .inr ⟨?_, by rw [herror]; rfl⟩
        rintro ⟨pairs, hpairs⟩
        cases pairs with
        | nil => cases hpairs
        | cons pair pairs => exact hnone ⟨pairs, (List.cons.inj hpairs).2⟩
    · have hpair : asPair start v = .error (.hashEntries start) := by
        unfold asPair
        split
        · exact absurd ⟨_, _, rfl⟩ hv
        · rfl
      refine .inr ⟨?_, by rw [hpair]; rfl⟩
      rintro ⟨pairs, hpairs⟩
      cases pairs with
      | nil => cases hpairs
      | cons pair pairs => exact hv ⟨_, _, (List.cons.inj hpairs).1⟩

theorem foldlM_addPair_eq_error_iff (pairs entries : List (Value × Value)) :
    pairs.foldlM addPair entries = .error e ↔
      e = .badKey ∧ ∃ pair ∈ pairs, pair.1.isKey = false := by
  induction pairs generalizing entries with
  | nil => exact iff_of_false nofun (by simp)
  | cons pair pairs ih =>
    rw [List.foldlM_cons, addPair]
    cases hkey : pair.1.isKey with
    | true =>
      simp only [if_true, List.mem_cons, exists_eq_or_imp, hkey, Bool.true_eq_false, false_or]
      exact ih (setEntry entries pair.1 pair.2)
    | false =>
      simp only [Bool.false_eq_true, if_false, List.mem_cons, exists_eq_or_imp, hkey, true_or,
        and_true]
      exact ⟨fun h => by cases h; rfl, fun h => by rw [h]; rfl⟩

/-- The ways in which the values in a compound give no value. -/
theorem gather_eq_error {values : List Value} (h : gather n values = .error e) :
    n.kind = .hash ∧ (e = .hashEntries n.start ∨
        e = .badKey ∧ ∃ pairs, values = fromPairs pairs ∧ ∃ pair ∈ pairs, pair.1.isKey = false) ∨
      values = [] ∧ e = .unsupported n.kind n.start := by
  unfold gather at h
  split at h
  · rename_i hkind
    refine .inl ⟨hkind, ?_⟩
    rw [ofPairs_eq] at h
    rcases mapM_asPair n.start values with ⟨pairs, rfl, hpairs⟩ | ⟨-, herror⟩
    · cases hfold : pairs.foldlM addPair [] with
      | ok entries =>
        simp only [hpairs, Except.bind, hfold] at h
        cases h
      | error e' =>
        simp only [hpairs, Except.bind, hfold] at h
        cases h
        obtain ⟨rfl, hkey⟩ := (foldlM_addPair_eq_error_iff _ _).mp hfold
        exact .inr ⟨rfl, pairs, rfl, hkey⟩
    · rw [herror] at h
      cases h
      exact .inl rfl
  · cases h
  · cases h
  · split at h
    · cases h
    · cases h
      exact .inr ⟨rfl, rfl⟩

/-- The ways in which an atom has no value. -/
theorem ofAtom_eq_error {kind : Kind} {start : Nat} {text : List Char}
    (h : ofAtom kind start text = .error e) :
    kind = .number ∧ e = .unsupportedNumber text ∨
      kind = .string ∧ (∃ cause, Literal.string text = .error cause ∧ e = .literal cause) ∨
      kind = .character ∧ (∃ cause, Literal.character text = .error cause ∧ e = .literal cause) ∨
      kind = .boolean ∧ e = .literal (.notBoolean text) ∨
      e = .unsupported kind start := by
  unfold ofAtom at h
  split at h
  · unfold ofNumber at h
    split at h
    · cases h
    · split at h
      · cases h
      · cases h
        exact .inl ⟨rfl, rfl⟩
  · cases hs : Literal.string text with
    | ok codes =>
      rw [hs] at h
      cases h
    | error cause =>
      rw [hs] at h
      cases h
      exact .inr (.inl ⟨rfl, cause, rfl, rfl⟩)
  · cases hs : Literal.character text with
    | ok code =>
      rw [hs] at h
      cases h
    | error cause =>
      rw [hs] at h
      cases h
      exact .inr (.inr (.inl ⟨rfl, cause, rfl, rfl⟩))
  · simp only [Literal.boolean] at h
    split at h
    · cases h
    · split at h
      · cases h
      · cases h
        exact .inr (.inr (.inr (.inl ⟨rfl, rfl⟩)))
  · cases h
  · cases h
  · cases h
    exact .inr (.inr (.inr (.inr rfl)))

/-- An intact hash is made of pairs, and one of their keys is no key. -/
def HasBadKey (source : List Char) (n : Node) : Prop :=
  n.kind = .hash ∧ n.hasFault = false ∧
    ∃ pairs, ofDatums source n.children = .ok (fromPairs pairs) ∧
      ∃ pair ∈ pairs, pair.1.isKey = false

theorem failsItself_badKey_iff : FailsItself source n .badKey ↔ HasBadKey source n := by
  constructor
  · intro h
    generalize he : DatumError.badKey = e at h
    cases h with
    | malformed => cases he
    | gathered hfault _ hvalues h =>
      rcases gather_eq_error h with ⟨hkind, rfl | ⟨-, pairs, rfl, hkey⟩⟩ | ⟨-, rfl⟩
      · cases he
      · exact ⟨hkind, hfault, pairs, hvalues, hkey⟩
      · cases he
    | atom _ _ h =>
      rcases ofAtom_eq_error h with ⟨-, rfl⟩ | ⟨-, _, -, rfl⟩ | ⟨-, _, -, rfl⟩ | ⟨-, rfl⟩ | rfl <;>
        cases he
  · rintro ⟨hkind, hfault, pairs, hvalues, hkey⟩
    refine .gathered hfault (by rw [hkind]; rfl) hvalues ?_
    rcases mapM_asPair n.start (fromPairs pairs) with ⟨pairs', heq, hpairs⟩ | ⟨hnone, -⟩
    · have hinj : pairs = pairs' := by
        refine List.map_injective_iff.mpr ?_ heq
        rintro ⟨key, value⟩ ⟨key', value'⟩ h
        cases h
        rfl
      subst hinj
      have hfold := (foldlM_addPair_eq_error_iff (e := .badKey) pairs []).mpr ⟨rfl, hkey⟩
      simp only [gather, hkind, ofPairs_eq, hpairs, Except.bind, hfold]
    · exact absurd ⟨pairs, rfl⟩ hnone

/-- An intact string or character has a code of more than 31 bits. -/
def HasLargeCode (source : List Char) (n : Node) : Prop :=
  n.hasFault = false ∧
    (n.kind = .string ∧
        (∃ body, n.text source = Literal.enclose body ∧ Literal.HasLargeCode body) ∨
      n.kind = .character ∧ Literal.IsLargeCharacter (n.text source))

theorem failsItself_codeTooLarge_iff :
    FailsItself source n (.literal .codeTooLarge) ↔ HasLargeCode source n := by
  constructor
  · intro h
    generalize he : DatumError.literal .codeTooLarge = e at h
    cases h with
    | malformed => cases he
    | gathered _ _ _ h =>
      rcases gather_eq_error h with ⟨-, rfl | ⟨rfl, -⟩⟩ | ⟨-, rfl⟩ <;> cases he
    | atom hfault _ h =>
      rcases ofAtom_eq_error h with ⟨-, rfl⟩ | ⟨hkind, cause, hstring, rfl⟩ |
        ⟨hkind, cause, hcharacter, rfl⟩ | ⟨-, rfl⟩ | rfl
      · cases he
      · cases he
        exact ⟨hfault, .inl ⟨hkind, Literal.string_eq_codeTooLarge_iff.mp hstring⟩⟩
      · cases he
        exact ⟨hfault, .inr ⟨hkind, Literal.character_eq_codeTooLarge_iff.mp hcharacter⟩⟩
      · cases he
      · cases he
  · rintro ⟨hfault, ⟨hkind, hlarge⟩ | ⟨hkind, hlarge⟩⟩
    · refine .atom hfault (by rw [hkind]; rfl) ?_
      rw [hkind, ofAtom, Literal.string_eq_codeTooLarge_iff.mpr hlarge]
      rfl
    · refine .atom hfault (by rw [hkind]; rfl) ?_
      rw [hkind, ofAtom, Literal.character_eq_codeTooLarge_iff.mpr hlarge]
      rfl

/-- The content of a wrapper is there in a tree of the schema. -/
theorem not_failsItself_wrapper {config : Config} {kind : Kind} {start : Nat}
    (hn : n.shape.Conforms config) (hkind : kind = .quote ∨ kind = .quasiquote ∨ kind = .box) :
    ¬FailsItself source n (.unsupported kind start) := by
  intro h
  generalize he : DatumError.unsupported kind start = e at h
  cases h with
  | malformed => cases he
  | gathered _ _ hvalues h =>
    rcases gather_eq_error h with ⟨-, rfl | ⟨rfl, -⟩⟩ | ⟨rfl, rfl⟩
    · cases he
    · cases he
    · cases he
      have hwrapper : n.kind.isWrapper = true := by
        rcases hkind with hk | hk | hk <;> rw [hk] <;> rfl
      have hone := Node.length_datums_of_conforms hn (.inl hwrapper)
      rw [Node.datums_eq_filter, (forall₂_of_ofDatums hvalues).length_eq] at hone
      cases hone
  | atom _ hk h =>
    rcases ofAtom_eq_error h with ⟨-, rfl⟩ | ⟨-, _, -, rfl⟩ | ⟨-, _, -, rfl⟩ | ⟨-, rfl⟩ | rfl
    · cases he
    · cases he
    · cases he
    · cases he
    · cases he
      rcases hkind with hkind | hkind | hkind <;> rw [hkind] at hk <;> cases hk

end Value

end RacketTree

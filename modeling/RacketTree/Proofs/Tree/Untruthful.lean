import RacketTree.Proofs.Tree.History

/-!
# Edits that do not describe the change

`Tree.reparse` looks at the lengths of the two texts only. So an edit of a version is refused
exactly if the lengths do not fit it (`reparse_eq_error_iff`), and one that fits is taken whatever
the new text is. The tree after it spells the new text between two offsets, one not behind the start
of the edit and one not before its end, and the old text around them (`reparse_text`). That is the
new text if the edit describes the change; otherwise it need not be (`reparse_keeps_letter`).
-/

namespace RacketTree

namespace Tree

variable {t : Tree} {a : Arena} {e : Edit} {old new : List Char} {ss : List Shape}

/-- A tree over its whole source refuses an edit exactly if the lengths do not fit it. -/
theorem reparse_eq_error_iff (hcov : t.Covers a ss) :
    (∃ refusal, t.reparse a new e = .error refusal) ↔ ¬e.Fits t.source new := by
  rw [← refusal?_eq_none_iff hcov]
  constructor
  · rintro ⟨refusal, h⟩ hnone
    simp only [reparse, hnone] at h
    cases h
  · intro hsome
    obtain ⟨refusal, h⟩ := Option.ne_none_iff_exists'.mp hsome
    refine ⟨refusal, ?_⟩
    simp only [reparse, h]

/-- The text after an edit that fits: the new text from `p` to `q`, and the old one before it and
from `k` on. The items that end two characters before the edit lie before `p`. -/
theorem reparse_text (hcov : t.Covers a ss) (hvalid : e.Valid) (hfits : e.Fits t.source new) :
    ∃ a' t' p q k, t.reparse a new e = .ok (a', t') ∧ t'.source = new ∧
      p ≤ e.start ∧ p ≤ q ∧ e.oldEnd ≤ k ∧ k ≤ t.source.length ∧ (k : Int) + e.delta = q ∧
      t'.text a' = t.source.take p ++ (new.take q).drop p ++ t.source.drop k ∧
      ∀ front, front <+: ss → (Shape.texts front).length + 2 ≤ e.start →
        (Shape.texts front).length ≤ p := by
  obtain ⟨a', t', kept, fresh, resumed, hreparse, -, hsource, -, hroot, hreused, hold⟩ :=
    reparse_holds hcov hvalid hfits
  have hlength {xs ys : List Shape} (h : xs <+: ys) :
      (Shape.texts xs).length ≤ (Shape.texts ys).length := by
    obtain ⟨rest, rfl⟩ := h
    rw [Shape.texts_append, List.length_append]
    exact Nat.le_add_right _ _
  refine ⟨a', t', (Shape.texts (ss.take kept)).length,
    (Shape.texts (ss.take kept)).length + (Draft.texts fresh).length,
    (Shape.texts (ss.take resumed)).length, hreparse, hsource, hreused.length_kept_le,
    Nat.le_add_right _ _, hreused.behind, ?_, hreused.shifted, ?_, ?_⟩
  · rw [← hcov.text]
    exact hlength (List.take_prefix _ _)
  · rw [text_of_holds hroot hold, hreused.texts_splice hcov.text, List.drop_take,
      Nat.add_sub_cancel_left]
  · intro front hfront hle
    rw [List.prefix_iff_eq_take] at hfront
    have hmost := hreused.most front.length (hfront ▸ List.length_take_le' _ _) (hfront ▸ hle)
    apply hlength
    rw [hfront]
    exact List.take_prefix_take_left hmost

/-- The new text from `p` to `q` with the old one around it is the new text exactly if the two agree
before `p` and behind `q`. -/
theorem splice_eq_iff {p q k : Nat} (hp : p ≤ old.length) (hpq : p ≤ q) (hq : q ≤ new.length) :
    old.take p ++ (new.take q).drop p ++ old.drop k = new ↔
      new.take p = old.take p ∧ new.drop q = old.drop k := by
  have hlength : (old.take p ++ (new.take q).drop p).length = q := by
    simp only [List.length_append, List.length_take, List.length_drop]
    omega
  constructor
  · intro h
    constructor
    · calc new.take p = (old.take p ++ (new.take q).drop p ++ old.drop k).take p := by rw [h]
        _ = old.take p := by
          rw [List.append_assoc, List.take_left' (by rw [List.length_take]; omega)]
    · calc new.drop q = (old.take p ++ (new.take q).drop p ++ old.drop k).drop q := by rw [h]
        _ = old.drop k := List.drop_left' hlength
  · rintro ⟨hfront, hback⟩
    have hmiddle : new.take p = (new.take q).take p := by
      rw [List.take_take, Nat.min_eq_left hpq]
    rw [← hfront, ← hback, hmiddle, List.take_append_drop, List.take_append_drop]

end Tree

namespace History

/-- In every version of a truthful history, an edit is refused exactly if the lengths of the texts
do not fit it. After one that fits, the text of the tree is the new text from `p` to `q` and the old
one around that, which is the new text exactly if the two texts agree there. They do if the edit
describes the change. -/
theorem versions_reparse (config : Config) {source : List Char} {rs : List Revision}
    (h : Truthful [source] rs) :
    ∃ a ts, versions config source rs = some (a, ts) ∧ ts.map Tree.source = texts [source] rs ∧
      ∀ t ∈ ts, ∀ (e : Edit) (new : List Char), e.Valid →
        ((∃ refusal, t.reparse a new e = .error refusal) ↔ ¬e.Fits t.source new) ∧
        (e.Fits t.source new → ∃ (a' : Arena) (t' : Tree) (p q k : Nat),
          t.reparse a new e = .ok (a', t') ∧ t'.source = new ∧ p ≤ e.start ∧ e.oldEnd ≤ k ∧
          (k : Int) + e.delta = q ∧
          t'.text a' = t.source.take p ++ (new.take q).drop p ++ t.source.drop k ∧
          (t'.text a' = new ↔ new.take p = t.source.take p ∧ new.drop q = t.source.drop k) ∧
          (e.Describes t.source new → t'.text a' = new)) := by
  obtain ⟨a, ts, hrun, -, -, htexts, hcov⟩ := exists_revise (covered_parse config source) h
  refine ⟨a, ts, hrun, htexts, fun t ht e new hvalid => ?_⟩
  obtain ⟨-, ss, hss⟩ := hcov t ht
  refine ⟨Tree.reparse_eq_error_iff hss, fun hfits => ?_⟩
  obtain ⟨a', t', p, q, k, hreparse, hsource, hp, hpq, hk, hle, hq, htext, -⟩ :=
    Tree.reparse_text hss hvalid hfits
  have hiff : t'.text a' = new ↔ new.take p = t.source.take p ∧ new.drop q = t.source.drop k := by
    obtain ⟨hold, hnew⟩ := hfits
    obtain ⟨hstart, hend⟩ := hvalid
    unfold Edit.delta at hq
    rw [htext]
    apply Tree.splice_eq_iff _ hpq <;> omega
  refine ⟨a', t', p, q, k, hreparse, hsource, hp, hk, hq, htext, hiff, fun he => ?_⟩
  rw [hiff]
  exact ⟨he.take_eq hp, he.drop_eq hk hq⟩

/-- In `(a)`, an edit of the letter is refused for a text that is too short, and taken for `(b)`. -/
theorem versions_reparse_letter :
    let t := parse .default ['(', 'a', ')']
    let e : Edit := { start := 1, oldEnd := 2, newEnd := 2 }
    (∃ refusal, t.2.reparse t.1 ['(', ')'] e = .error refusal) ∧
      ∃ a' t', t.2.reparse t.1 ['(', 'b', ')'] e = .ok (a', t') ∧ t'.text a' = ['(', 'b', ')'] := by
  intro t e
  have hvalid : e.Valid := by
    constructor <;> decide
  have hdescribes : e.Describes t.2.source ['(', 'b', ')'] :=
    ⟨['b'], by decide, by decide, rfl, rfl⟩
  have htrue : Truthful [['(', 'a', ')']] [] := trivial
  obtain ⟨a, ts, hrun, -, hall⟩ := versions_reparse .default htrue
  cases hrun
  constructor
  · apply (hall t.2 (List.mem_singleton_self _) e _ hvalid).1.mpr
    rintro ⟨-, hlength⟩
    cases hlength
  · obtain ⟨a', t', p, q, k, hreparse, -, -, -, -, -, -, htext⟩ :=
      (hall t.2 (List.mem_singleton_self _) e _ hvalid).2 hdescribes.fits
    exact ⟨a', t', hreparse, htext hdescribes⟩

end History

/-! ## A stale item -/

theorem covers_letters :
    ∃ rest, Read.shapes .default ['a', ' ', 'b', ' ', 'c'] = .leaf .symbol ['a'] none :: rest := by
  have hletter : Token.extent 'a' [' ', 'b', ' ', 'c'] = .ok (.plain .symbol 1) := rfl
  rw [Read.shapes, Token.lexemes_cons hletter, Read.readItems_cons]
  exact ⟨_, rfl⟩

/-- The last letter of `a b c` is edited, but the new text has another first letter too. The edit is
taken, and the tree keeps the old first letter. -/
theorem reparse_keeps_letter :
    let t := parse .default ['a', ' ', 'b', ' ', 'c']
    let e : Edit := { start := 4, oldEnd := 5, newEnd := 5 }
    let new := ['x', ' ', 'b', ' ', 'd']
    e.Valid ∧ ¬e.Describes t.2.source new ∧
      ∃ a' t', t.2.reparse t.1 new e = .ok (a', t') ∧ t'.text a' ≠ new := by
  intro t e new
  have hvalid : e.Valid := by
    constructor <;> decide
  have hcov := covers_parse .default ['a', ' ', 'b', ' ', 'c']
  have hfits : e.Fits t.2.source new := ⟨by decide, rfl⟩
  obtain ⟨a', t', p, q, k, hreparse, -, -, -, -, -, -, htext, hkept⟩ :=
    Tree.reparse_text hcov hvalid hfits
  refine ⟨hvalid, ?_, a', t', hreparse, ?_⟩
  · intro he
    have hfirst := he.take_eq (n := 1) (by decide)
    cases hfirst
  · obtain ⟨rest, hshapes⟩ := covers_letters
    have hp : 1 ≤ p := hkept [.leaf .symbol ['a'] none] ⟨rest, hshapes.symm⟩ (by decide)
    obtain ⟨m, rfl⟩ : ∃ m, p = m + 1 := ⟨p - 1, by omega⟩
    intro heq
    have hfirst := congrArg List.head? (htext.symm.trans heq)
    cases hfirst

end RacketTree

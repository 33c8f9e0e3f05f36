import Mathlib.Data.List.Basic
import RacketTree.Token.Delimited

/-!
# Widths are decided by the characters they count

Each width function of `Token/Delimited` has two lemmas here. The first bounds the width by the
length of the text. The second says how many characters decide it: a width that ends with a closing
character is decided by the characters that it counts (`stringWidth?_take`, `blockWidth?_take`), and
a width that ends before a character is decided with that character (`runWidth_take`,
`hereBody?_take`). What follows after those characters is arbitrary. The lemmas ending in `append`
say the same of a front `p` of the text that holds those characters.
-/

namespace RacketTree.Token

/-! ## Stretches of characters -/

theorem length_takeWhile_le (f : Char → Bool) (cs : List Char) :
    (cs.takeWhile f).length ≤ cs.length :=
  (List.takeWhile_prefix f).length_le

theorem length_takeWhile_lt_of_mem {f : Char → Bool} {p : List Char}
    (h : ∃ c ∈ p, f c = false) : (p.takeWhile f).length < p.length := by
  obtain ⟨c, hc, hf⟩ := h
  refine Nat.lt_of_le_of_ne (length_takeWhile_le f p) ?_
  intro hlen
  have hp : p.takeWhile f = p := (List.takeWhile_prefix f).eq_of_length hlen
  have hall := List.all_takeWhile (p := f) (l := p)
  rw [hp, List.all_eq_true] at hall
  exact absurd (hall c hc) (by simp [hf])

/-- A stretch that ends inside `p` is the same whatever follows `p`. -/
theorem takeWhile_append_of_mem {f : Char → Bool} {p : List Char} (h : ∃ c ∈ p, f c = false)
    (v : List Char) : (p ++ v).takeWhile f = p.takeWhile f := by
  rw [List.takeWhile_append, if_neg (Nat.ne_of_lt (length_takeWhile_lt_of_mem h))]

theorem takeWhile_append_of_lt {f : Char → Bool} {p q : List Char}
    (h : ((p ++ q).takeWhile f).length < p.length) (v : List Char) :
    (p ++ v).takeWhile f = (p ++ q).takeWhile f := by
  rw [List.takeWhile_append] at h
  rw [List.takeWhile_append, List.takeWhile_append]
  split at h
  · rw [List.length_append] at h
    omega
  · rename_i hne
    rw [if_neg hne, if_neg hne]

/-- The front `p` of a text with other text behind it begins with the same `n` characters. -/
theorem append_eq_take_append {p : List Char} {n : Nat} (hn : n ≤ p.length) (q v : List Char) :
    p ++ v = (p ++ q).take n ++ (p.drop n ++ v) := by
  rw [List.take_append_of_le_length hn, ← List.append_assoc, List.take_append_drop]

/-! ## Strings -/

theorem stringWidth?_le {cs : List Char} {n : Nat} (h : stringWidth? cs = some n) :
    0 < n ∧ n ≤ cs.length := by
  fun_induction stringWidth? cs generalizing n with
  | case1 => cases h
  | case2 => cases h
  | case3 _ rest ih =>
    obtain ⟨m, hm, rfl⟩ := Option.map_eq_some_iff.mp h
    have := ih hm
    simp only [List.length_cons]
    omega
  | case4 => simp only [Option.some.injEq] at h; subst h; simp
  | case5 _ rest _ _ ih =>
    obtain ⟨m, hm, rfl⟩ := Option.map_eq_some_iff.mp h
    have := ih hm
    simp only [List.length_cons]
    omega

theorem stringWidth?_take {cs : List Char} {n : Nat} (h : stringWidth? cs = some n)
    (v : List Char) : stringWidth? (cs.take n ++ v) = some n := by
  fun_induction stringWidth? cs generalizing n with
  | case1 => cases h
  | case2 => cases h
  | case3 x rest ih =>
    obtain ⟨m, hm, rfl⟩ := Option.map_eq_some_iff.mp h
    simp [stringWidth?, ih hm]
  | case4 => simp only [Option.some.injEq] at h; subst h; simp [stringWidth?]
  | case5 c rest hc hq ih =>
    obtain ⟨m, hm, rfl⟩ := Option.map_eq_some_iff.mp h
    simp [stringWidth?, ih hm, hq]

theorem stringWidth?_append {p q : List Char} {n : Nat} (h : stringWidth? (p ++ q) = some n)
    (hn : n ≤ p.length) (v : List Char) : stringWidth? (p ++ v) = some n := by
  rw [append_eq_take_append hn q v]
  exact stringWidth?_take h _

/-! ## Runs -/

theorem map_eq_ok {ε α β : Type} {f : α → β} {x : Except ε α} {b : β} (h : x.map f = .ok b) :
    ∃ a, x = .ok a ∧ f a = b := by
  cases x with
  | error e => cases h
  | ok a => exact ⟨a, rfl, by cases h; rfl⟩

theorem runWidth_le {inBars : Bool} {cs : List Char} {n : Nat}
    (h : runWidth inBars cs = .ok n) : n ≤ cs.length := by
  fun_induction runWidth inBars cs generalizing n with
  | case1 | case6 => cases h
  | case2 | case9 => cases h; simp
  | case3 _ ih | case7 _ _ _ _ ih =>
    obtain ⟨m, hm, rfl⟩ := map_eq_ok h
    have := ih hm
    simp only [List.length_cons]
    omega
  | case4 _ ih | case5 _ _ _ _ ih | case8 _ _ _ ih | case10 _ _ _ _ _ _ _ _ ih =>
    obtain ⟨m, hm, rfl⟩ := map_eq_ok h
    have := ih hm
    simp only [List.length_cons]
    omega

/-- A run that does not take the whole text ends before a blank or a delimiter. -/
theorem runWidth_stop {inBars : Bool} {cs : List Char} {n : Nat}
    (h : runWidth inBars cs = .ok n) (hn : n < cs.length) :
    ∃ c rest, cs.drop n = c :: rest ∧ endsRun c = true := by
  fun_induction runWidth inBars cs generalizing n with
  | case1 | case6 => cases h
  | case2 => simp at hn
  | case9 _ _ c rest _ _ _ hc => cases h; exact ⟨c, rest, rfl, hc⟩
  | case3 _ ih | case7 _ _ _ _ ih =>
    obtain ⟨m, hm, rfl⟩ := map_eq_ok h
    simp only [List.length_cons] at hn
    simpa using ih hm (by omega)
  | case4 _ ih | case5 _ _ _ _ ih | case8 _ _ _ ih | case10 _ _ _ _ _ _ _ _ ih =>
    obtain ⟨m, hm, rfl⟩ := map_eq_ok h
    simp only [List.length_cons] at hn
    simpa using ih hm (by omega)

/-- The first characters of a text that reach past its first one begin as the text does. -/
theorem take_append_eq_cons {cs : List Char} {n : Nat} {v : List Char} {c : Char}
    {rest : List Char} (hn : 0 < n) (hlen : 0 < cs.length) (h : cs.take n ++ v = c :: rest) :
    ∃ rest', cs = c :: rest' := by
  cases cs with
  | nil => simp at hlen
  | cons d ds =>
    obtain ⟨m, rfl⟩ : ∃ m, n = m + 1 := ⟨n - 1, by omega⟩
    simp only [List.take_succ_cons, List.cons_append, List.cons.injEq] at h
    exact ⟨ds, by rw [h.1]⟩

theorem runWidth_bars_cons {c : Char} {rest : List Char}
    (h₁ : ∀ rest', c = '\\' → rest = '|' :: rest' → False) (h₂ : c = '|' → False) :
    runWidth true (c :: rest) = (runWidth true rest).map (· + 1) := by
  rw [runWidth.eq_def]
  grind

theorem runWidth_cons {c : Char} {rest : List Char} (h₁ : c ≠ '\\') (h₂ : c ≠ '|') :
    runWidth false (c :: rest) =
      if endsRun c then .ok 0 else (runWidth false rest).map (· + 1) := by
  rw [runWidth.eq_def]
  simp [h₁]

/-- A character in front of nothing and of no other character is no backslash there. -/
theorem ne_backslash {c : Char} {rest : List Char} (hend : c = '\\' → rest = [] → False)
    (hmore : ∀ d tail, c = '\\' → rest = d :: tail → False) : c ≠ '\\' := by
  intro hc
  cases rest with
  | nil => exact hend hc rfl
  | cons d tail => exact hmore d tail hc rfl

theorem runWidth_escape (c : Char) (rest : List Char) :
    runWidth false ('\\' :: c :: rest) = (runWidth false rest).map (· + 2) := by
  rw [runWidth.eq_def]
  simp

theorem runWidth_take {inBars : Bool} {cs : List Char} {n : Nat}
    (h : runWidth inBars cs = .ok n) (hn : n < cs.length) (v : List Char) :
    runWidth inBars (cs.take (n + 1) ++ v) = .ok n := by
  fun_induction runWidth inBars cs generalizing n with
  | case1 | case6 => cases h
  | case2 => simp at hn
  | case3 rest ih =>
    obtain ⟨m, hm, rfl⟩ := map_eq_ok h
    simp only [List.length_cons] at hn
    change (runWidth true (rest.take (m + 1) ++ v)).map (· + 2) = _
    rw [ih hm (by omega)]
    rfl
  | case4 rest ih =>
    obtain ⟨m, hm, rfl⟩ := map_eq_ok h
    simp only [List.length_cons] at hn
    change (runWidth false (rest.take (m + 1) ++ v)).map (· + 1) = _
    rw [ih hm (by omega)]
    rfl
  | case5 c rest h₁ h₂ ih =>
    obtain ⟨m, hm, rfl⟩ := map_eq_ok h
    simp only [List.length_cons] at hn
    have hfirst : ∀ rest', c = '\\' → rest.take (m + 1) ++ v = '|' :: rest' → False := by
      intro rest' hc he
      obtain ⟨rest'', hr⟩ := take_append_eq_cons (by omega) (by omega) he
      exact h₁ rest'' hc hr
    rw [List.take_succ_cons, List.cons_append, runWidth_bars_cons hfirst h₂, ih hm (by omega)]
    rfl
  | case7 _ hb c rest ih =>
    obtain ⟨m, hm, rfl⟩ := map_eq_ok h
    simp only [List.length_cons, Bool.not_eq_true] at hn hb
    subst hb
    rw [List.take_succ_cons, List.take_succ_cons, List.cons_append, List.cons_append,
      runWidth_escape, ih hm (by omega)]
    rfl
  | case8 _ hb rest ih =>
    obtain ⟨m, hm, rfl⟩ := map_eq_ok h
    simp only [List.length_cons, Bool.not_eq_true] at hn hb
    subst hb
    change (runWidth true (rest.take (m + 1) ++ v)).map (· + 1) = _
    rw [ih hm (by omega)]
    rfl
  | case9 _ hb c rest h₁ h₂ h₃ hc =>
    cases h
    simp only [Bool.not_eq_true] at hb
    subst hb
    simp [runWidth_cons (ne_backslash h₁ h₂) h₃, hc]
  | case10 _ hb c rest h₁ h₂ h₃ hc ih =>
    obtain ⟨m, hm, rfl⟩ := map_eq_ok h
    simp only [List.length_cons, Bool.not_eq_true] at hn hb
    subst hb
    rw [List.take_succ_cons, List.cons_append, runWidth_cons (ne_backslash h₁ h₂) h₃, if_neg hc, ih hm (by omega)]
    rfl

theorem runWidth_append {inBars : Bool} {p q : List Char} {n : Nat}
    (h : runWidth inBars (p ++ q) = .ok n) (hn : n < p.length) (v : List Char) :
    runWidth inBars (p ++ v) = .ok n := by
  rw [append_eq_take_append hn q v]
  refine runWidth_take h ?_ _
  rw [List.length_append]
  omega

/-! ## Block comments -/

theorem blockWidth?_le {depth : Nat} {cs : List Char} {n : Nat}
    (h : blockWidth? depth cs = some n) : 2 ≤ n ∧ n ≤ cs.length := by
  fun_induction blockWidth? depth cs generalizing n with
  | case1 => cases h
  | case2 => cases h; simp
  | case3 _ _ ih | case4 _ _ ih | case5 _ _ _ _ _ ih =>
    obtain ⟨m, hm, rfl⟩ := Option.map_eq_some_iff.mp h
    have := ih hm
    simp only [List.length_cons]
    omega

theorem blockWidth?_take {depth : Nat} {cs : List Char} {n : Nat}
    (h : blockWidth? depth cs = some n) (v : List Char) :
    blockWidth? depth (cs.take n ++ v) = some n := by
  fun_induction blockWidth? depth cs generalizing n with
  | case1 => cases h
  | case2 => cases h; simp [blockWidth?]
  | case3 _ _ ih | case4 _ _ ih =>
    obtain ⟨m, hm, rfl⟩ := Option.map_eq_some_iff.mp h
    simp [blockWidth?, ih hm]
  | case5 depth c rest h₁ h₂ ih =>
    obtain ⟨m, hm, rfl⟩ := Option.map_eq_some_iff.mp h
    have hle := blockWidth?_le hm
    rw [List.take_succ_cons, List.cons_append, blockWidth?, ih hm]
    · rfl
    · intro rest' hc he
      obtain ⟨rest'', hr⟩ := take_append_eq_cons (by omega) (by omega) he
      exact h₁ rest'' hc hr
    · intro rest' hc he
      obtain ⟨rest'', hr⟩ := take_append_eq_cons (by omega) (by omega) he
      exact h₂ rest'' hc hr

theorem blockWidth?_append {depth : Nat} {p q : List Char} {n : Nat}
    (h : blockWidth? depth (p ++ q) = some n) (hn : n ≤ p.length) (v : List Char) :
    blockWidth? depth (p ++ v) = some n := by
  rw [append_eq_take_append hn q v]
  exact blockWidth?_take h _

/-! ## Here strings -/

theorem hereBody?_le {line terminator cs : List Char} {n : Nat}
    (h : hereBody? line terminator cs = some n) : n ≤ cs.length := by
  fun_induction hereBody? line terminator cs generalizing n with
  | case1 | case3 => cases h; simp
  | case2 => cases h
  | case4 _ _ _ ih | case5 _ _ _ _ ih =>
    obtain ⟨m, hm, rfl⟩ := Option.map_eq_some_iff.mp h
    have := ih hm
    simp only [List.length_cons]
    omega

theorem hereBody?_take {line terminator cs : List Char} {n : Nat}
    (h : hereBody? line terminator cs = some n) (hn : n < cs.length) (v : List Char) :
    hereBody? line terminator (cs.take (n + 1) ++ v) = some n := by
  fun_induction hereBody? line terminator cs generalizing n with
  | case1 => simp at hn
  | case2 => cases h
  | case3 => cases h; simp_all [hereBody?]
  | case4 line rest hl ih =>
    obtain ⟨m, hm, rfl⟩ := Option.map_eq_some_iff.mp h
    simp only [List.length_cons] at hn
    simp [hereBody?, hl, ih hm (by omega)]
  | case5 line c rest hc ih =>
    obtain ⟨m, hm, rfl⟩ := Option.map_eq_some_iff.mp h
    simp only [List.length_cons] at hn
    simp [hereBody?, hc, ih hm (by omega)]

theorem hereBody?_append {line terminator p q : List Char} {n : Nat}
    (h : hereBody? line terminator (p ++ q) = some n) (hn : n < p.length) (v : List Char) :
    hereBody? line terminator (p ++ v) = some n := by
  rw [append_eq_take_append hn q v]
  refine hereBody?_take h ?_ _
  rw [List.length_append]
  omega

theorem hereWidth?_append {p q : List Char} {n : Nat} (h : hereWidth? (p ++ q) = some n)
    (hn : n < p.length) (v : List Char) : hereWidth? (p ++ v) = some n := by
  have hsplit : ∀ cs : List Char,
      (cs.takeWhile (· != '\n')).length + (cs.dropWhile (· != '\n')).length = cs.length := by
    intro cs
    rw [← List.length_append, List.takeWhile_append_dropWhile]
  unfold hereWidth? at h ⊢
  simp only at h ⊢
  split at h
  · cases h
  · rename_i c body hd
    obtain ⟨m, hm, rfl⟩ := Option.map_eq_some_iff.mp h
    have hlt : ((p ++ q).takeWhile (· != '\n')).length < p.length := by omega
    have htake := takeWhile_append_of_lt hlt []
    rw [List.append_nil] at htake
    -- the first line ends inside `p`, so the body starts there
    have hne : (p.dropWhile (· != '\n')).isEmpty = false := by
      rw [List.isEmpty_eq_false_iff]
      intro hnil
      have := hsplit p
      rw [hnil, htake, List.length_nil] at this
      omega
    rw [List.dropWhile_append, hne] at hd ⊢
    rw [takeWhile_append_of_lt hlt v]
    cases hp : p.dropWhile (· != '\n') with
    | nil => rw [hp] at hne; cases hne
    | cons d p' =>
      rw [hp] at hd
      simp only [Bool.false_eq_true, if_false, List.cons_append, List.cons.injEq] at hd ⊢
      obtain ⟨rfl, rfl⟩ := hd
      have hlen := hsplit p
      rw [hp, htake, List.length_cons] at hlen
      rw [hereBody?_append hm (by omega) v]
      rfl

end RacketTree.Token

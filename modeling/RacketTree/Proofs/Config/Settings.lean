import RacketTree.Proofs.Config.Outcome
import RacketTree.Proofs.Datum.Reading
import RacketTree.Proofs.Literal.Characters

/-!
# Reading written settings

A list of settings can be written in many ways: each entry as a pair or as a list of two datums, the
whole with a quote or without, numbers with a sign and with leading zeros, and gaps of any kind
between the words (`Writes`). Every such text is read, and gives each option the value of its last
setting (`ofText_of_writes`).
-/

namespace RacketTree

theorem Codes.ofString_inj {a b : String} : ofString a = ofString b ↔ a = b := by
  refine ⟨fun h => ?_, congrArg _⟩
  have htext := congrArg text? h
  rwa [text?_ofString, text?_ofString, Option.some.injEq] at htext

namespace Config

open Lexeme Read Token

/-! ## Settings -/

/-- An option with a value for it. -/
inductive Setting where
  | maxDepth (limit : {n : Nat // 0 < n})
  | strictDelimiters (on : Bool)
  | infixDots (on : Bool)

namespace Setting

/-- The name of the option. -/
def name : Setting → String
  | maxDepth _ => "max-depth"
  | strictDelimiters _ => "strict-delimiters"
  | infixDots _ => "infix-dots"

theorem name_mem (s : Setting) : s.name ∈ optionNames := by
  cases s <;> simp [name, optionNames]

/-- The value as a datum. -/
def value : Setting → Value
  | maxDepth limit => .int limit.1
  | strictDelimiters on => .bool on
  | infixDots on => .bool on

/-- The depth limit that is set. -/
def limit? : Setting → Option {n : Nat // 0 < n}
  | maxDepth limit => some limit
  | _ => none

/-- Whether strict delimiters are set on or off. -/
def strict? : Setting → Option Bool
  | strictDelimiters on => some on
  | _ => none

/-- Whether infix dots are set on or off. -/
def dots? : Setting → Option Bool
  | infixDots on => some on
  | _ => none

end Setting

/-- The options in which each has the value of its last setting, or its default without one. -/
def ofSettings (settings : List Setting) (path : Option String) : Config :=
  let limit := (settings.filterMap Setting.limit?).getLast?.getD
    ⟨default.maxDepth, default.maxDepth_pos⟩
  { maxDepth := limit.1
    strictDelimiters :=
      (settings.filterMap Setting.strict?).getLast?.getD default.strictDelimiters
    infixDots := (settings.filterMap Setting.dots?).getLast?.getD default.infixDots
    path
    maxDepth_pos := limit.2 }

/-! ## Texts of settings -/

/-- The words for booleans. -/
def flagWords : List (List Char × Bool) :=
  [(['#', 't'], true), (['#', 't', 'r', 'u', 'e'], true), (['#', 'f'], false),
    (['#', 'f', 'a', 'l', 's', 'e'], false)]

namespace Setting

/-- The word stands for the value: decimal digits, not too many of them and perhaps with a plus, or
the word for a boolean. -/
inductive Spells : Setting → List Char → Prop
  | maxDepth {limit : {n : Nat // 0 < n}} {sign ds : List Char} (hsign : sign = [] ∨ sign = ['+'])
      (hne : ds ≠ []) (hlength : ds.length ≤ Number.maxDigits)
      (hds : Text.Denotes .decimal ds limit.1) : Spells (.maxDepth limit) (sign ++ ds)
  | strictDelimiters {on : Bool} {w : List Char} (hw : (w, on) ∈ flagWords) :
      Spells (.strictDelimiters on) w
  | infixDots {on : Bool} {w : List Char} (hw : (w, on) ∈ flagWords) : Spells (.infixDots on) w

/-- The words of an entry for the setting, as a pair or as a list. -/
inductive Entry (s : Setting) : List (List Char) → Prop
  | pair {w : List Char} (hw : s.Spells w) : Entry s [['('], s.name.toList, ['.'], w, [')']]
  | list {w : List Char} (hw : s.Spells w) : Entry s [['('], s.name.toList, w, [')']]

end Setting

/-- The text is a list of entries for the settings, perhaps quoted, with any gaps. -/
inductive Writes (settings : List Setting) : List Char → Prop
  | mk {mark : List (List Char)} {entries : List (List (List Char))} {lead body : List Char}
      (hmark : mark = [] ∨ mark = [['\x27']])
      (hentries : List.Forall₂ Setting.Entry settings entries) (hlead : Gap lead)
      (hbody : Spaced (mark ++ ['('] :: (entries.flatten ++ [[')']])) body) :
      Writes settings (lead ++ body)

/-! ## Words -/

/-- Some word with the text is an atom with the value. -/
def IsAtomWord (w : List Char) (v : Value) : Prop :=
  ∃ l : Lexeme, l.text = w ∧ IsWord l ∧ ∀ config height, GappedDatum config height [l] v

theorem isAtomWord_name (s : Setting) :
    IsAtomWord s.name.toList (.str (Codes.ofString s.name).points) := by
  have hall : ∀ name ∈ optionNames, name.toList ≠ [] ∧ name.toList.all isPlain = true ∧
      atomKind name.toList = .symbol := by decide +kernel
  obtain ⟨hne, hplain, hkind⟩ := hall s.name s.name_mem
  refine ⟨⟨atomKind s.name.toList, s.name.toList, none⟩, rfl,
    isWord_atom hne (List.all_eq_true.mp hplain), fun _ _ => ?_⟩
  rw [hkind]
  exact gappedDatum_atom rfl rfl fun _ => rfl

theorem isAtomWord_flag {w : List Char} {on : Bool} (h : (w, on) ∈ flagWords) :
    IsAtomWord w (.bool on) := by
  have hall : ∀ f ∈ flagWords, f.1.head? = some '#' ∧ f.1.tail ∈ booleanWords ∧
      Literal.boolean f.1 = .ok f.2 := by decide +kernel
  obtain ⟨hhead, htail, hvalue⟩ := hall _ h
  have hw : w = '#' :: w.tail := (List.cons_head?_tail hhead).symm
  refine ⟨⟨.boolean, '#' :: w.tail, none⟩, hw.symm, isWord_boolean htail, fun _ _ => ?_⟩
  refine gappedDatum_atom rfl rfl fun _ => ?_
  rw [← hw]
  simp only [Value.ofAtom, hvalue]
  rfl

theorem isPlain_of_isDigit {c : Char} (h : Number.Derives.IsDigit .decimal c) :
    isPlain c = true := by
  refine Number.forall_ascii (p := fun c => c.toLower ∈ Number.Derives.digits.take 10 →
    isPlain c = true) ?_ h.isAscii h
  decide +kernel

section Number

open Number

variable {sign ds : List Char} {n : Nat}

theorem isMarked_none (body : List Char) : IsMarked Marks.none body body :=
  ⟨nofun, [], .none, rfl⟩

theorem sign_of_plus (h : sign = [] ∨ sign = ['+']) : Derives.Sign sign :=
  h.imp_right fun h => ⟨'+', .inl rfl, h⟩

theorem atomKind_of_digits (hsign : sign = [] ∨ sign = ['+'])
    (hdigits : Derives.Digits .decimal ds) : atomKind (sign ++ ds) = .number := by
  have hnumber : isNumber (sign ++ ds) = true := by
    rw [isNumber, classify?_of_digits (isMarked_none _) (sign_of_plus hsign) hdigits]
    rfl
  have hdot : sign ++ ds ≠ ['.'] := by
    intro hdot
    rw [hdot] at hnumber
    exact absurd hnumber (by decide +kernel)
  rw [atomKind, if_neg hdot, if_pos hnumber]

theorem integer_of_denotes (hsign : sign = [] ∨ sign = ['+']) (hne : ds ≠ [])
    (hlength : ds.length ≤ maxDigits) (hds : Text.Denotes .decimal ds n) :
    Literal.integer (sign ++ ds) = .ok (n : Int) := by
  have hany : AnyDigits .decimal ds :=
    ⟨hne, fun c hc => (isAnyDigit_iff (hds.1 c hc).isAscii).mpr (hds.1 c hc)⟩
  refine integer_eq_ok.mpr ⟨Marks.none, sign, [], ds, isMarked_none _,
    ⟨sign_of_plus hsign, .inl rfl, hany, fun _ => hlength⟩, ?_⟩
  have hminus : sign ≠ ['-'] := by
    rcases hsign with rfl | rfl <;> decide
  rw [signed, if_neg hminus, List.map_congr_left fun c hc => (hds.1 c hc).valueOf_eq]
  exact congrArg Nat.cast hds.2.symm

theorem isAtomWord_number (hsign : sign = [] ∨ sign = ['+']) (hne : ds ≠ [])
    (hlength : ds.length ≤ maxDigits) (hds : Text.Denotes .decimal ds n) :
    IsAtomWord (sign ++ ds) (.int n) := by
  have hplus : sign.all isPlain = true := by
    rcases hsign with rfl | rfl <;> decide +kernel
  have hplain : ∀ c ∈ sign ++ ds, isPlain c = true :=
    List.forall_mem_append.mpr
      ⟨List.all_eq_true.mp hplus, fun c hc => isPlain_of_isDigit (hds.1 c hc)⟩
  refine ⟨⟨atomKind (sign ++ ds), sign ++ ds, none⟩, rfl,
    isWord_atom (List.append_ne_nil_of_right_ne_nil _ hne) hplain, fun _ _ => ?_⟩
  rw [atomKind_of_digits hsign ⟨hne, hds.1⟩]
  refine gappedDatum_atom rfl rfl fun _ => ?_
  simp only [Value.ofAtom, Value.ofNumber, integer_of_denotes hsign hne hlength hds]

end Number

theorem Setting.Spells.isAtomWord {s : Setting} {w : List Char} (h : s.Spells w) :
    IsAtomWord w s.value := by
  cases h with
  | maxDepth hsign hne hlength hds => exact isAtomWord_number hsign hne hlength hds
  | strictDelimiters hw => exact isAtomWord_flag hw
  | infixDots hw => exact isAtomWord_flag hw

/-! ## Entries -/

/-- The value of an entry, as a pair or as a list. -/
def Setting.IsEntry (s : Setting) (v : Value) : Prop :=
  v = .tuple [.str (Codes.ofString s.name).points, s.value] ∨
    v = .list [.str (Codes.ofString s.name).points, s.value]

theorem Setting.Entry.exists_datum {s : Setting} {ws : List (List Char)} (h : s.Entry ws)
    {config : Config} (hstrict : config.strictDelimiters = false) :
    ∃ ls v, ls.map Lexeme.text = ws ∧ (∀ l ∈ ls, IsWord l) ∧ s.IsEntry v ∧
      GappedDatum config 1 ls v := by
  obtain ⟨k, hk, hkword, hkdatum⟩ := isAtomWord_name s
  cases h with
  | pair hw =>
    obtain ⟨l, hl, hlword, hldatum⟩ := hw.isAtomWord
    refine ⟨[leftParen, k, point, l, rightParen], _, ?_, ?_, .inl rfl,
      gappedDatum_pair hstrict (hkdatum config 0).items (List.cons_ne_nil _ _) (hldatum config 0)⟩
    · simp [leftParen, rightParen, point, hk, hl]
    · simp [hkword, hlword, isWord_leftParen, isWord_rightParen, isWord_point]
  | list hw =>
    obtain ⟨l, hl, hlword, hldatum⟩ := hw.isAtomWord
    refine ⟨[leftParen, k, l, rightParen], _, ?_, ?_, .inr rfl,
      gappedDatum_list hstrict ((hkdatum config 0).items.append (hldatum config 0).items)⟩
    · simp [leftParen, rightParen, hk, hl]
    · simp [hkword, hlword, isWord_leftParen, isWord_rightParen]

theorem exists_items {settings : List Setting} {entries : List (List (List Char))}
    (h : List.Forall₂ Setting.Entry settings entries) {config : Config}
    (hstrict : config.strictDelimiters = false) :
    ∃ ls vs, ls.map Lexeme.text = entries.flatten ∧ (∀ l ∈ ls, IsWord l) ∧
      List.Forall₂ Setting.IsEntry settings vs ∧ GappedItems config 1 ls vs := by
  induction h with
  | nil => exact ⟨[], [], rfl, nofun, .nil, gappedItems_nil⟩
  | cons hentry _ ih =>
    obtain ⟨ls, v, htext, hword, hv, hdatum⟩ := hentry.exists_datum hstrict
    obtain ⟨ls', vs, htext', hword', hvs, hitems⟩ := ih
    refine ⟨ls ++ ls', v :: vs, ?_, ?_, .cons hv hvs, hdatum.items.append hitems⟩
    · rw [List.map_append, htext, htext', List.flatten_cons]
    · exact List.forall_mem_append.mpr ⟨hword, hword'⟩

/-- A written text is intact and has one form, the list of its entries. -/
theorem Writes.exists_form {settings : List Setting} {text : List Char} (h : Writes settings text) :
    ∃ vs, List.Forall₂ Setting.IsEntry settings vs ∧
      (parse default text).2.hasErrors (parse default text).1 = false ∧
      ∃ form, ((parse default text).2.node (parse default text).1).datums = [form] ∧
        Value.ofNode text form = .ok (.list vs) := by
  obtain @⟨mark, entries, lead, body, hmark, hentries, hlead, hbody⟩ := h
  have hstrict : default.strictDelimiters = false := rfl
  obtain ⟨ls, vs, htext, hword, hvs, hitems⟩ := exists_items hentries hstrict
  refine ⟨vs, hvs, ?_⟩
  have hlist := gappedDatum_list hstrict hitems
  have hwords : ∀ l ∈ leftParen :: (ls ++ [rightParen]), IsWord l := by
    rw [List.forall_mem_cons, List.forall_mem_append, List.forall_mem_singleton]
    exact ⟨isWord_leftParen, hword, isWord_rightParen⟩
  have htexts : (leftParen :: (ls ++ [rightParen])).map Lexeme.text =
      ['('] :: (entries.flatten ++ [[')']]) := by
    rw [List.map_cons, List.map_append, htext]
    rfl
  -- entries have height 1, the list of them 2, and a quote around it 3
  rcases hmark with rfl | rfl
  · have hgapped := gapped_of_spaced hlead (by rwa [htexts]) hwords
    exact exists_form_parse hgapped hlist (by decide)
  · have hquoted : ∀ l ∈ quoteMark :: leftParen :: (ls ++ [rightParen]), IsWord l :=
      List.forall_mem_cons.mpr ⟨isWord_quoteMark, hwords⟩
    have hgapped := gapped_of_spaced hlead (by rwa [List.map_cons, htexts]) hquoted
    exact exists_form_parse hgapped hlist.quote (by decide)

/-! ## Options of entries -/

/-- Setting an option changes that option only. -/
theorem option?_setOption (entries : Entries) (name name' : Codes) (v : Value) :
    option? (setOption entries name v) name' =
      if name' = name then some v else option? entries name' := by
  unfold setOption
  rw [← List.isSome_find?]
  split
  · rename_i hsome
    have hsame : ((·.1 == name') ∘ fun e : Codes × Value => if e.1 == name then (name, v) else e) =
        (·.1 == name') := by
      funext e
      by_cases he : e.1 = name <;> simp [he]
    rw [option?, option?, List.find?_map, hsame]
    cases hfind : entries.find? (·.1 == name') with
    | none =>
      have hname : name' ≠ name := by
        rintro rfl
        rw [hfind] at hsome
        cases hsome
      simp [hname]
    | some e =>
      have he := List.find?_some hfind
      have hname : e.1 = name' := eq_of_beq he
      by_cases hname' : name' = name <;> simp [hname, hname']
  · rename_i hnone
    rw [option?, option?, List.find?_append]
    by_cases hname : name' = name
    · subst hname
      rw [Option.not_isSome_iff_eq_none] at hnone
      simp [hnone]
    · cases entries.find? (·.1 == name') <;> simp [hname, Ne.symm hname]

theorem fst_of_mem_setOption {entries : Entries} {name : Codes} {v : Value} {e : Codes × Value}
    (h : e ∈ setOption entries name v) : e.1 = name ∨ e ∈ entries := by
  unfold setOption at h
  split at h
  · obtain ⟨e', he', rfl⟩ := List.mem_map.mp h
    split
    · exact .inl rfl
    · exact .inr he'
  · rcases List.mem_append.mp h with h | h
    · exact .inr h
    · rw [List.mem_singleton.mp h]
      exact .inl rfl

/-- The entries with one more setting. -/
def addSetting (entries : Entries) (s : Setting) : Entries :=
  setOption entries s.name s.value

theorem foldlM_addEntry {settings : List Setting} {vs : List Value}
    (h : List.Forall₂ Setting.IsEntry settings vs) (place : String) (entries : Entries) :
    vs.foldlM (addEntry place) entries = .ok (settings.foldl addSetting entries) := by
  induction h generalizing entries with
  | nil => rfl
  | cons hv _ ih =>
    rw [List.foldlM_cons, List.foldl_cons, ← ih]
    rcases hv with rfl | rfl <;> rfl

/-- An option has the value of its last setting. -/
theorem option?_foldl_addSetting {α : Type} {name : String} {f : Setting → Option α} {g : α → Value}
    (h : ∀ s : Setting, (if name = s.name then some s.value else none) = (f s).map g)
    (settings : List Setting) :
    option? (settings.foldl addSetting []) name = (settings.filterMap f).getLast?.map g := by
  -- from the back, because the last setting is the one that counts
  induction settings using List.reverseRecOn with
  | nil => rfl
  | append_singleton settings s ih =>
    have hs := h s
    rw [List.foldl_append, List.foldl_cons, List.foldl_nil, addSetting, option?_setOption, ih,
      List.filterMap_append]
    by_cases hname : name = s.name
    · rw [if_pos hname] at hs
      obtain ⟨a, ha, hvalue⟩ := Option.map_eq_some_iff.mp hs.symm
      simp [hname, ha, hvalue]
    · rw [if_neg hname, eq_comm, Option.map_eq_none_iff] at hs
      simp [hname, hs, Codes.ofString_inj]

theorem option?_maxDepth (settings : List Setting) :
    option? (settings.foldl addSetting []) "max-depth" =
      (settings.filterMap Setting.limit?).getLast?.map fun limit => .int limit.1 :=
  option?_foldl_addSetting (fun s => by cases s <;> rfl) settings

theorem option?_strictDelimiters (settings : List Setting) :
    option? (settings.foldl addSetting []) "strict-delimiters" =
      (settings.filterMap Setting.strict?).getLast?.map .bool :=
  option?_foldl_addSetting (fun s => by cases s <;> rfl) settings

theorem option?_infixDots (settings : List Setting) :
    option? (settings.foldl addSetting []) "infix-dots" =
      (settings.filterMap Setting.dots?).getLast?.map .bool :=
  option?_foldl_addSetting (fun s => by cases s <;> rfl) settings

theorem unknownOption?_foldl_addSetting (settings : List Setting) :
    unknownOption? (settings.foldl addSetting []) = none := by
  have hknown : ∀ e ∈ settings.foldl addSetting [],
      ∃ known ∈ optionNames, Codes.ofString known = e.1 := by
    induction settings using List.reverseRecOn with
    | nil => nofun
    | append_singleton settings s ih =>
      intro e he
      rw [List.foldl_append, List.foldl_cons, List.foldl_nil] at he
      rcases fst_of_mem_setOption he with hname | he
      · exact ⟨s.name, s.name_mem, hname.symm⟩
      · exact ih e he
  have hfilter : ((settings.foldl addSetting []).map (·.1)).filter (fun name =>
      !optionNames.any fun known => Codes.ofString known == name) = [] := by
    simpa using fun _ v he => hknown _ he
  rw [unknownOption?, hfilter]
  rfl

theorem depth_eq {entries : Entries} {limit? : Option {n : Nat // 0 < n}}
    (h : option? entries "max-depth" = limit?.map fun limit => .int limit.1) (place : String) :
    depth place entries = .ok ((limit?.getD ⟨default.maxDepth, default.maxDepth_pos⟩).1 : Int) := by
  rw [depth, h]
  cases limit? <;> rfl

theorem flag_eq {entries : Entries} {name : String} {on? : Option Bool}
    (h : option? entries name = on?.map .bool) (place : String) (absent : Bool) :
    flag place entries name absent = .ok (on?.getD absent) := by
  rw [flag, h]
  cases on? <;> rfl

theorem ofEntries_addSetting (place : String) (path : Option String) (settings : List Setting) :
    ofEntries place path (settings.foldl addSetting []) = .ok (ofSettings settings path) := by
  rw [ofEntries_eq, unknownOption?_foldl_addSetting, depth_eq (option?_maxDepth settings),
    flag_eq (option?_strictDelimiters settings), flag_eq (option?_infixDots settings)]
  simp only [Except.bind, make, Int.toNat_natCast]
  exact dif_pos (ofSettings settings path).maxDepth_pos

/-- A written text is read, and gives each option the value of its last setting. -/
theorem ofText_of_writes {settings : List Setting} {text : List Char} (h : Writes settings text)
    (path : Option String) : ofText text path = .ok (ofSettings settings path) := by
  obtain ⟨vs, hvs, hclean, form, hform, hvalue⟩ := h.exists_form
  have herrors : (parse default text).2.errors (parse default text).1 = [] := by
    by_contra hne
    rw [(errors_parse_ne_nil_iff default text).mp hne] at hclean
    cases hclean
  rw [ofText_eq, herrors, hform]
  simp only [hvalue, Except.mapError, Except.bind, ofForm, foldlM_addEntry hvs]
  exact ofEntries_addSetting _ path settings

/-- A comment, a quote, entries of both kinds, and two settings of one option. -/
theorem ofText_of_writes_twice :
    Writes [.maxDepth ⟨7, by decide⟩, .strictDelimiters true, .maxDepth ⟨12, by decide⟩]
        ";\n'((max-depth . 007) (strict-delimiters #true)(max-depth;\n+12))".toList ∧
      ofText ";\n'((max-depth . 007) (strict-delimiters #true)(max-depth;\n+12))".toList none =
        .ok { maxDepth := 12, strictDelimiters := true, infixDots := true, path := none } := by
  have hspace : Gap [' '] := .blank (by decide +kernel) .nil
  have hline : Gap [';', '\n'] := @Gap.comment [] [] nofun .nil
  have hseven : (Setting.maxDepth ⟨7, by decide⟩).Spells ([] ++ ['0', '0', '7']) :=
    .maxDepth (.inl rfl) nofun (by decide) ⟨List.all_iff_forall_prop.mp (by decide), by decide⟩
  have hon : (Setting.strictDelimiters true).Spells ['#', 't', 'r', 'u', 'e'] :=
    .strictDelimiters (by decide)
  have htwelve : (Setting.maxDepth ⟨12, by decide⟩).Spells (['+'] ++ ['1', '2']) :=
    .maxDepth (.inr rfl) nofun (by decide) ⟨List.all_iff_forall_prop.mp (by decide), by decide⟩
  have hbody : Spaced ([['\x27'], ['(']] ++
      [['('], "max-depth".toList, ['.'], ['0', '0', '7'], [')']] ++
      [['('], "strict-delimiters".toList, ['#', 't', 'r', 'u', 'e'], [')']] ++
      [['('], "max-depth".toList, ['+', '1', '2'], [')']] ++ [[')']]) _ :=
    .cons .nil (.inr (.inl (by decide))) <| .cons .nil (.inr (.inl (by decide))) <|
      .cons .nil (.inr (.inl (by decide))) <| .cons hspace (.inl nofun) <|
      .cons hspace (.inl nofun) <| .cons .nil (.inr (.inr (by decide))) <|
      .cons hspace (.inl nofun) <| .cons .nil (.inr (.inl (by decide))) <|
      .cons hspace (.inl nofun) <| .cons .nil (.inr (.inr (by decide))) <|
      .cons .nil (.inr (.inl (by decide))) <| .cons .nil (.inr (.inl (by decide))) <|
      .cons hline (.inl nofun) <| .cons .nil (.inr (.inr (by decide))) <|
      .cons .nil (.inr (.inl (by decide))) <| .cons .nil (.inr (.inl (by decide))) .nil
  obtain ⟨text, rfl, hwrites⟩ : ∃ text,
      text = ";\n'((max-depth . 007) (strict-delimiters #true)(max-depth;\n+12))".toList ∧
      Writes [.maxDepth ⟨7, by decide⟩, .strictDelimiters true, .maxDepth ⟨12, by decide⟩] text :=
    ⟨_, by decide +kernel, .mk (.inr rfl)
      (.cons (.pair hseven) (.cons (.list hon) (.cons (.list htwelve) .nil))) hline hbody⟩
  exact ⟨hwrites, ofText_of_writes hwrites none⟩

end Config

end RacketTree

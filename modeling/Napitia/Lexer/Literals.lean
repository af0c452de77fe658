import Napitia.Lexer.Munch

/-!
# What literals denote

Between the quotes of a string or a character literal every character stands for itself but
for the backslash, which stands for a character together with the one behind it. A raw string
is its own text. A literal that nothing is reported of is scanned to what it denotes.
-/
namespace Napitia.Lexer

/-- What a character behind a backslash stands for. -/
inductive Escapes : Char → Char → Prop
  | newline : Escapes 'n' '\n'
  | tab : Escapes 't' '\t'
  | carriageReturn : Escapes 'r' '\r'
  | backslash : Escapes '\\' '\\'
  | doubleQuote : Escapes '"' '"'
  | singleQuote : Escapes '\'' '\''
  | nul : Escapes '0' '\x00'

/-- What a text between double quotes stands for. -/
inductive Denotes : List Char → List Char → Prop
  | nil : Denotes [] []
  | plain {c : Char} {text value : List Char} : c ≠ '\n' → c ≠ '"' → c ≠ '\\' →
      Denotes text value → Denotes (c :: text) (c :: value)
  | escape {e c : Char} {text value : List Char} : Escapes e c →
      Denotes text value → Denotes ('\\' :: e :: text) (c :: value)

/-- What a text between single quotes stands for. -/
inductive DenotesChar : List Char → Char → Prop
  | plain {c : Char} : c ≠ '\'' → c ≠ '\\' → DenotesChar [c] c
  | escape {e c : Char} : Escapes e c → DenotesChar ['\\', e] c

/-- A literal with its quotes, and the kind of token it is. -/
inductive IsLiteralOf : List Char → TokenKind → Prop
  | string {text value : List Char} : Denotes text value →
      IsLiteralOf ('"' :: text ++ ['"']) (.str value)
  | raw {value : List Char} : '"' ∉ value → IsLiteralOf ('r' :: '"' :: value ++ ['"']) (.str value)
  | char {text : List Char} {value : Char} : DenotesChar text value →
      IsLiteralOf ('\'' :: text ++ ['\'']) (.char value)

namespace Scanner
variable {s : Scanner} {start : ℕ} {behind : List Char}

/-! ### Escapes -/

theorem escapeOf_eq_some {e c : Char} : escapeOf e = some c ↔ Escapes e c := by
  constructor
  · intro h
    unfold escapeOf at h
    split at h <;> cases h <;> constructor
  · intro h
    cases h <;> rfl

theorem length_pushError (s : Scanner) (start : ℕ) (code message label : String) :
    s.diagnostics.length < (s.pushError start code message label).diagnostics.length := by
  simp [pushError]

theorem scanEscape_of {c e v : Char} {rest : List Char} (start : ℕ) (hs : s.text = c :: e :: rest)
    (he : escapeOf e = some v) : scanEscape start s = (some v, s.bump.bump) := by
  have hpeek : s.bump.peek = some e := by
    rw [peek, text_bump hs]
    rfl
  simp [scanEscape, hpeek, he]

theorem scanEscape_eq_some {v : Char} (h : (scanEscape start s).1 = some v) :
    ∃ e rest, s.bump.text = e :: rest ∧ escapeOf e = some v ∧
      (scanEscape start s).2 = s.bump.bump := by
  unfold scanEscape at h ⊢
  dsimp only at h ⊢
  cases hpeek : s.bump.peek with
  | none =>
    rw [hpeek] at h
    cases h
  | some e =>
    rw [hpeek] at h
    dsimp only at h ⊢
    obtain ⟨rest, hrest⟩ : ∃ rest, s.bump.text = e :: rest := List.head?_eq_some_iff.mp hpeek
    cases he : escapeOf e with
    | none =>
      rw [he] at h
      cases h
    | some w =>
      rw [he] at h
      exact ⟨e, rest, hrest, he.trans h, rfl⟩

theorem length_scanEscape (h : (scanEscape start s).1 = none) :
    s.diagnostics.length < (scanEscape start s).2.diagnostics.length := by
  unfold scanEscape at h ⊢
  dsimp only at h ⊢
  cases hpeek : s.bump.peek with
  | none => simp [pushError, diagnostics_bump]
  | some e =>
    rw [hpeek] at h
    dsimp only at h ⊢
    cases he : escapeOf e with
    | none => simp [pushError, diagnostics_bump]
    | some w =>
      rw [he] at h
      cases h

/-! ### Strings -/

theorem length_scanStringRest (start : ℕ) (value : List Char) (s : Scanner) :
    s.diagnostics.length ≤ (scanStringRest start value s).2.diagnostics.length := by
  fun_induction scanStringRest start value s with
  | case1 => exact (length_pushError _ _ _ _ _).le
  | case2 => exact (length_pushError _ _ _ _ _).le
  | case3 => exact (congrArg List.length (diagnostics_bump _)).ge
  | case4 value s rest escape d hd h _ _ ih =>
    obtain ⟨e, rest, -, -, heq⟩ := scanEscape_eq_some hd
    have hquiet : escape.2.diagnostics = s.diagnostics := by
      rw [heq, diagnostics_bump, diagnostics_bump]
    rwa [hquiet] at ih
  | case5 value s rest escape hnone hend h => exact (length_scanEscape hnone).le
  | case6 value s rest escape hnone hmore h _ _ ih => exact (length_scanEscape hnone).le.trans ih
  | case7 value s c rest h _ _ _ ih => rwa [diagnostics_bump] at ih

/-- A string read without a report is what its text denotes. -/
theorem denotes_of_scanStringRest (start : ℕ) (value : List Char) (s : Scanner)
    (hquiet : (scanStringRest start value s).2.diagnostics = s.diagnostics) :
    ∃ text decoded, (scanStringRest start value s).1 = .str (value ++ decoded) ∧
      Denotes text decoded ∧ s.Takes (scanStringRest start value s).2 (text ++ ['"']) := by
  fun_induction scanStringRest start value s with
  | case1 => exact absurd (congrArg List.length hquiet) (length_pushError _ _ _ _ _).ne'
  | case2 => exact absurd (congrArg List.length hquiet) (length_pushError _ _ _ _ _).ne'
  | case3 value s rest h _ => exact ⟨[], [], by simp, .nil, takes_bump h⟩
  | case4 value s rest escape d hd h _ _ ih =>
    obtain ⟨e, rest', hrest, he, heq⟩ := scanEscape_eq_some hd
    have hescape : escape.2.diagnostics = s.diagnostics := by
      rw [heq, diagnostics_bump, diagnostics_bump]
    obtain ⟨text, decoded, hkind, hdenotes, htakes⟩ := ih (hquiet.trans hescape.symm)
    refine ⟨'\\' :: e :: text, d :: decoded, by simpa using hkind,
      .escape (escapeOf_eq_some.mp he) hdenotes, ?_⟩
    have hread : s.Takes escape.2 ['\\', e] := by
      rw [heq]
      exact (takes_bump h).trans (takes_bump hrest)
    exact hread.trans htakes
  | case5 value s rest escape hnone hend h =>
    exact absurd (congrArg List.length hquiet) (length_scanEscape hnone).ne'
  | case6 value s rest escape hnone hmore h _ _ ih =>
    have hless : s.diagnostics.length < escape.2.diagnostics.length := length_scanEscape hnone
    have hmono := length_scanStringRest start value escape.2
    rw [hquiet] at hmono
    omega
  | case7 value s c rest h hnewline hquote hbackslash ih =>
    obtain ⟨text, decoded, hkind, hdenotes, htakes⟩ := ih (hquiet.trans (diagnostics_bump s).symm)
    exact ⟨c :: text, c :: decoded, by simpa using hkind, .plain hnewline hquote hbackslash hdenotes,
      (takes_bump h).trans htakes⟩

/-- A text that denotes is read whole, up to the closing quote. -/
theorem scanStringRest_of_denotes {text decoded : List Char} (h : Denotes text decoded) (start : ℕ)
    (value : List Char) (hs : s.text = text ++ '"' :: behind) :
    (scanStringRest start value s).1 = .str (value ++ decoded) ∧
      s.Takes (scanStringRest start value s).2 (text ++ ['"']) := by
  induction h generalizing s value with
  | nil =>
    have hstep : scanStringRest start value s = (.str value, s.bump) := by
      rw [scanStringRest]
      split
      · simp_all
      · simp_all
    rw [hstep, List.append_nil]
    exact ⟨rfl, takes_bump hs⟩
  | @plain c text decoded hnewline hquote hbackslash _ ih =>
    have hstep : scanStringRest start value s = scanStringRest start (value ++ [c]) s.bump := by
      rw [scanStringRest]
      split
      · simp_all
      · simp_all
    obtain ⟨hkind, htakes⟩ := ih (value ++ [c]) (text_bump hs)
    rw [hstep]
    exact ⟨by simpa using hkind, (takes_bump hs).trans htakes⟩
  | @escape e c text decoded he _ ih =>
    have hescape := scanEscape_of start hs (escapeOf_eq_some.mpr he)
    have hstep : scanStringRest start value s = scanStringRest start (value ++ [c]) s.bump.bump := by
      rw [scanStringRest]
      split
      · simp_all
      · simp_all
    have hs' := text_bump (text_bump hs)
    obtain ⟨hkind, htakes⟩ := ih (value ++ [c]) hs'
    rw [hstep]
    exact ⟨by simpa using hkind, (takes_bump hs).trans ((takes_bump (text_bump hs)).trans htakes)⟩

theorem takes_bumpWhile (test : Char → Bool) (s : Scanner) :
    s.Takes (s.bumpWhile test) (s.text.takeWhile test) := ⟨advances_bumpWhile test s, rfl⟩

theorem denotes_of_scanRawString {rest : List Char} (hs : s.text = '"' :: rest)
    (hquiet : (scanRawString start s).2.diagnostics = s.diagnostics) :
    ∃ value, (scanRawString start s).1 = .str value ∧ '"' ∉ value ∧
      s.Takes (scanRawString start s).2 ('"' :: value ++ ['"']) := by
  have hcontent := (takes_bump hs).trans (takes_bumpWhile (fun c => decide (c ≠ '"')) s.bump)
  unfold scanRawString at hquiet ⊢
  dsimp only at hquiet ⊢
  split at hquiet
  · have hless := length_pushError (s.bump.bumpWhile fun c => decide (c ≠ '"')) start
      Codes.unterminatedString "unterminated raw string literal" "raw string starts here"
    rw [hquiet, hcontent.quiet] at hless
    exact absurd hless (lt_irrefl _)
  · rename_i c hpeek
    obtain ⟨behind, hbehind⟩ :
        ∃ behind, (s.bump.bumpWhile fun c => decide (c ≠ '"')).text = c :: behind :=
      List.head?_eq_some_iff.mp hpeek
    have hc : c = '"' := by simpa using head?_dropWhile hpeek
    refine ⟨_, rfl, fun hmem => ?_, ?_⟩
    · simpa using List.all_eq_true.mp List.all_takeWhile _ hmem
    · have hread := hcontent.trans (takes_bump hbehind)
      rwa [hc] at hread

theorem scanRawString_of {value : List Char} (hvalue : '"' ∉ value) (start : ℕ)
    (hs : s.text = '"' :: (value ++ '"' :: behind)) :
    (scanRawString start s).1 = .str value ∧
      s.Takes (scanRawString start s).2 ('"' :: value ++ ['"']) := by
  have hall : ∀ c ∈ value, decide (c ≠ '"') = true := by
    intro c hc
    have hne : c ≠ '"' := fun h => hvalue (h ▸ hc)
    simp [hne]
  have hsplit : (value ++ '"' :: behind).takeWhile (fun c => decide (c ≠ '"')) = value ∧
      (value ++ '"' :: behind).dropWhile (fun c => decide (c ≠ '"')) = '"' :: behind :=
    takeWhile_append hall (by simp)
  obtain ⟨htake, hdrop⟩ := hsplit
  have htext := text_bump hs
  have hcontent := takes_bumpWhile (fun c => decide (c ≠ '"')) s.bump
  rw [htext, htake] at hcontent
  have hbehind : (s.bump.bumpWhile fun c => decide (c ≠ '"')).text = '"' :: behind := by
    change s.bump.text.dropWhile _ = _
    rw [htext, hdrop]
  have hpeek : (s.bump.bumpWhile fun c => decide (c ≠ '"')).peek = some '"' := by
    rw [peek, hbehind]
    rfl
  unfold scanRawString
  dsimp only
  rw [hpeek]
  dsimp only
  rw [htext, htake]
  exact ⟨rfl, ((takes_bump hs).trans hcontent).trans (takes_bump hbehind)⟩

/-! ### Characters -/

theorem closeChar_eq {value : Char} (hs : s.peek = some '\'') :
    closeChar start value s = (.char value, s.bump) := by
  rw [closeChar, if_pos hs]

theorem peek_of_closeChar {value : Char}
    (hquiet : (closeChar start value s).2.diagnostics = s.diagnostics) : s.peek = some '\'' := by
  by_contra hpeek
  rw [closeChar, if_neg hpeek] at hquiet
  dsimp only at hquiet
  have hsame : ∀ t : Scanner, (if t.peek = some '\'' then t.bump else t).diagnostics =
      t.diagnostics := by
    intro t
    split
    · exact diagnostics_bump t
    · rfl
  have hlength := congrArg List.length hquiet
  simp [pushError, hsame, bumpWhile] at hlength

theorem denotes_of_closeChar {t : Scanner} {text : List Char} {value : Char}
    (hread : s.Takes t text) (hquiet : (closeChar start value t).2.diagnostics = s.diagnostics) :
    (closeChar start value t).1 = .char value ∧
      s.Takes (closeChar start value t).2 (text ++ ['\'']) := by
  have hpeek := peek_of_closeChar (hquiet.trans hread.quiet.symm)
  obtain ⟨rest, hrest⟩ : ∃ rest, t.text = '\'' :: rest := List.head?_eq_some_iff.mp hpeek
  rw [closeChar_eq hpeek]
  exact ⟨rfl, hread.trans (takes_bump hrest)⟩

/-- A character read without a report is what its text denotes. -/
theorem denotes_of_scanChar {rest : List Char} (hs : s.text = '\'' :: rest)
    (hquiet : (scanChar start s).2.diagnostics = s.diagnostics) :
    ∃ text value, (scanChar start s).1 = .char value ∧ DenotesChar text value ∧
      s.Takes (scanChar start s).2 ('\'' :: text ++ ['\'']) := by
  have hbump := takes_bump hs
  have hreported (t : Scanner) (ht : t.diagnostics = s.diagnostics)
      {code message label : String} :
      (t.pushError start code message label).diagnostics ≠ s.diagnostics := by
    intro h
    have hless := length_pushError t start code message label
    rw [h, ht] at hless
    exact lt_irrefl _ hless
  unfold scanChar at hquiet ⊢
  cases hpeek : s.bump.text with
  | nil =>
    simp only [peek, hpeek, List.head?_nil] at hquiet
    exact absurd hquiet (hreported _ hbump.quiet)
  | cons d rest' =>
    simp only [peek, hpeek, List.head?_cons] at hquiet ⊢
    by_cases hempty : d = '\''
    · rw [if_pos hempty] at hquiet
      exact absurd hquiet (hreported _ ((diagnostics_bump _).trans hbump.quiet))
    · rw [if_neg hempty] at hquiet ⊢
      by_cases hbackslash : d = '\\'
      · rw [if_pos hbackslash] at hquiet ⊢
        cases hescape : (scanEscape start s.bump).1 with
        | none =>
          simp only [hescape] at hquiet
          have hless := length_scanEscape hescape
          rw [hquiet, hbump.quiet] at hless
          exact absurd hless (lt_irrefl _)
        | some value =>
          simp only [hescape] at hquiet ⊢
          obtain ⟨e, rest'', hrest, he, heq⟩ := scanEscape_eq_some hescape
          have hread : s.Takes (scanEscape start s.bump).2 ['\'', '\\', e] := by
            rw [heq]
            exact hbump.trans ((takes_bump (hbackslash ▸ hpeek)).trans (takes_bump hrest))
          obtain ⟨hkind, htakes⟩ := denotes_of_closeChar hread hquiet
          exact ⟨_, value, hkind, .escape (escapeOf_eq_some.mp he), htakes⟩
      · rw [if_neg hbackslash] at hquiet ⊢
        obtain ⟨hkind, htakes⟩ := denotes_of_closeChar (hbump.trans (takes_bump hpeek)) hquiet
        exact ⟨_, d, hkind, .plain hempty hbackslash, htakes⟩

theorem scanChar_of {text : List Char} {value : Char} (h : DenotesChar text value) (start : ℕ)
    (hs : s.text = '\'' :: (text ++ '\'' :: behind)) :
    (scanChar start s).1 = .char value ∧
      s.Takes (scanChar start s).2 ('\'' :: text ++ ['\'']) := by
  have htext := text_bump hs
  have hclose {t : Scanner} {read : List Char} (hread : s.Takes t read)
      (hrest : t.text = '\'' :: behind) :
      (closeChar start value t).1 = .char value ∧
        s.Takes (closeChar start value t).2 (read ++ ['\'']) := by
    have hpeek : t.peek = some '\'' := by
      rw [peek, hrest]
      rfl
    rw [closeChar_eq hpeek]
    exact ⟨rfl, hread.trans (takes_bump hrest)⟩
  unfold scanChar
  cases h with
  | @plain c hquote hbackslash =>
    have htext' : s.bump.text = value :: '\'' :: behind := htext
    simp only [peek, htext', List.head?_cons, if_neg hquote, if_neg hbackslash]
    exact hclose ((takes_bump hs).trans (takes_bump htext')) (text_bump htext')
  | @escape e c he =>
    have htext' : s.bump.text = '\\' :: e :: '\'' :: behind := htext
    have hescape := scanEscape_of start htext' (escapeOf_eq_some.mpr he)
    simp only [peek, htext', List.head?_cons, hescape]
    have hnext := text_bump htext'
    exact hclose ((takes_bump hs).trans ((takes_bump htext').trans (takes_bump hnext)))
      (text_bump hnext)

end Scanner

end Napitia.Lexer

import Napitia.Lexer.Literals
import Napitia.Lexer.Tiling

/-!
# Writing a text with other gaps

The tokens of a text do not depend on the whitespace and the comments between them. Only a
division sign and a comment right behind it would be read as one comment, so what separates a
division sign from the next token has to start with whitespace.
-/
namespace Napitia.Lexer
namespace Scanner
variable {s u : Scanner} {start : ℕ} {taken behind : List Char}

/-! ### One token -/

theorem settled_scanNumberToken {c : Char} {rest : List Char} (hs : s.text = c :: rest)
    (hread : s.Takes (scanNumberToken start s).2 taken) (hne : taken ≠ []) (start' : ℕ)
    (hu : u.text = taken ++ behind) (hclear : Clear behind) :
    (scanNumberToken start' u).1 = (scanNumberToken start s).1 ∧
      u.Takes (scanNumberToken start' u).2 taken := by
  have hrest : s.text = taken ++ (scanNumber s.text).2 := by
    have htext := hread.text
    unfold scanNumberToken at htext
    dsimp only at htext
    split at htext
    · exact htext
    · exact htext
    · exact htext
  have hagain : scanNumber u.text = ((scanNumber s.text).1, behind) := by
    rw [hu]
    rw [hs] at hrest ⊢
    exact scanNumber_append hrest hne rfl hclear
  have hto : u.Takes (u.bumpTo behind) taken := by
    refine ⟨⟨hu, ?_⟩, rfl⟩
    change u.pos + (byteLength u.text - byteLength behind) = u.pos + byteLength taken
    rw [hu, byteLength_append, Nat.add_sub_cancel]
  unfold scanNumberToken at hread ⊢
  rw [hagain]
  dsimp only at hread ⊢
  cases hnumber : (scanNumber s.text).1 with
  | int value base => exact ⟨rfl, hto⟩
  | float clean => exact ⟨rfl, hto⟩
  | error message label =>
    rw [hnumber] at hread
    dsimp only at hread
    exact absurd hread (Takes.not_pushError rfl)

theorem settled_scanIdent (hread : s.Takes (scanIdent s).2 taken)
    (hu : u.text = taken ++ behind) (hclear : Clear behind) :
    (scanIdent u).1 = (scanIdent s).1 ∧ u.Takes (scanIdent u).2 taken := by
  have htaken : taken = s.text.takeWhile isIdentRest := by
    have hall : taken ++ s.text.dropWhile isIdentRest =
        s.text.takeWhile isIdentRest ++ s.text.dropWhile isIdentRest := by
      rw [List.takeWhile_append_dropWhile]
      exact hread.text.symm
    exact List.append_cancel_right hall
  have hident : ∀ c ∈ taken, isIdentRest c = true := by
    rw [htaken]
    exact fun c hc => List.all_eq_true.mp List.all_takeWhile _ hc
  obtain ⟨htake, -⟩ := takeWhile_append hident fun c hc => (hclear c hc).isIdentRest
  have hread' := takes_bumpWhile isIdentRest u
  rw [hu, htake] at hread'
  refine ⟨?_, hread'⟩
  unfold scanIdent
  dsimp only
  rw [hu, htake, htaken]

theorem Takes.unique {t : Scanner} {taken' : List Char} (h : s.Takes t taken)
    (h' : s.Takes t taken') : taken = taken' :=
  List.append_cancel_right (h.text.symm.trans h'.text)

theorem Takes.of_bump {c : Char} {rest : List Char} {t : Scanner} (hs : s.text = c :: rest)
    (h : s.bump.Takes t taken) : s.Takes t (c :: taken) := (takes_bump hs).trans h

theorem text_bump_of_peekAt {c d : Char} {rest : List Char} (hs : s.text = c :: rest)
    (h : s.peekAt 1 = some d) : ∃ rest', s.bump.text = d :: rest' := by
  rw [peekAt, hs] at h
  rw [text_bump hs]
  cases rest with
  | nil => cases h
  | cons e rest' => exact ⟨rest', by rw [Option.some.inj h]⟩

/-- A token is read alike wherever its text stands before a gap. -/
theorem settled_scanToken {c : Char} {rest : List Char} (hs : s.text = c :: rest)
    (hread : s.Takes (scanToken c s).2 taken) (hu : u.text = taken ++ behind)
    (hclear : Clear behind) :
    (scanToken c u).1 = (scanToken c s).1 ∧ u.Takes (scanToken c u).2 taken ∧
      u.text.head? = some c := by
  obtain ⟨found, hne, hfound⟩ := progresses_scanToken hs
  obtain rfl : taken = found := List.append_cancel_right (hread.text.symm.trans hfound.text)
  obtain ⟨more, hmore⟩ : ∃ more, taken = c :: more := by
    have htext := hread.text
    rw [hs] at htext
    cases taken with
    | nil => exact absurd rfl hne
    | cons d more => exact ⟨more, by rw [(List.cons.inj htext).1]⟩
  have hu' : u.text = c :: (more ++ behind) := by rw [hu, hmore]; rfl
  have hquiet : (scanToken c s).2.diagnostics = s.bump.diagnostics :=
    hread.quiet.trans (diagnostics_bump s).symm
  refine and_assoc.mp ⟨?_, by rw [hu']; rfl⟩
  unfold scanToken at hread hquiet ⊢
  by_cases hdigit : isDigit 10 c = true
  · rw [if_pos hdigit] at hread ⊢
    rw [if_pos hdigit]
    exact settled_scanNumberToken hs hread hne u.pos hu hclear
  rw [if_neg hdigit] at hread hquiet ⊢
  rw [if_neg hdigit]
  by_cases hraw : c = 'r' ∧ s.peekAt 1 = some '"'
  · rw [if_pos hraw] at hread hquiet ⊢
    obtain ⟨rest', hrest⟩ := text_bump_of_peekAt hs hraw.2
    obtain ⟨value, hkind, hvalue, htakes⟩ := denotes_of_scanRawString hrest hquiet
    have htaken := hread.unique (htakes.of_bump hs)
    have hbump : u.bump.text = '"' :: (value ++ '"' :: behind) := by
      rw [text_bump hu']
      rw [hmore] at htaken
      rw [(List.cons.inj htaken).2]
      simp
    have hraw' : c = 'r' ∧ u.peekAt 1 = some '"' := by
      refine ⟨hraw.1, ?_⟩
      have hpeek : u.bump.text.head? = some '"' := by
        rw [hbump]
        rfl
      rw [text_bump hu'] at hpeek
      rw [peekAt, hu']
      simpa [List.head?_eq_getElem?] using hpeek
    rw [if_pos hraw', hkind]
    obtain ⟨hkind', htakes'⟩ := scanRawString_of hvalue u.pos hbump
    exact ⟨hkind', htaken ▸ htakes'.of_bump hu'⟩
  have hraw' : ¬(c = 'r' ∧ u.peekAt 1 = some '"') := by
    rintro ⟨hc, hpeek⟩
    have hsecond : (more ++ behind).head? = some '"' := by
      rw [peekAt, hu'] at hpeek
      simpa [List.head?_eq_getElem?] using hpeek
    cases more with
    | nil => exact (hclear '"' hsecond).ne (by decide) rfl
    | cons d more =>
      refine hraw ⟨hc, ?_⟩
      rw [peekAt, hread.text, hmore]
      exact hsecond
  rw [if_neg hraw] at hread hquiet ⊢
  rw [if_neg hraw']
  by_cases hident : isAsciiAlphabetic c = true ∨ c = '_'
  · rw [if_pos hident] at hread ⊢
    rw [if_pos hident]
    exact settled_scanIdent hread hu hclear
  rw [if_neg hident] at hread hquiet ⊢
  rw [if_neg hident]
  by_cases hquote : c = '"'
  · rw [if_pos hquote] at hread hquiet ⊢
    rw [if_pos hquote]
    obtain ⟨text, decoded, hkind, hdenotes, htakes⟩ := denotes_of_scanStringRest _ [] s.bump hquiet
    have htaken := hread.unique (htakes.of_bump hs)
    have hbump : u.bump.text = text ++ '"' :: behind := by
      rw [text_bump hu']
      rw [hmore] at htaken
      rw [(List.cons.inj htaken).2]
      simp
    obtain ⟨hkind', htakes'⟩ := scanStringRest_of_denotes hdenotes u.pos [] hbump
    exact ⟨hkind'.trans hkind.symm, htaken ▸ htakes'.of_bump hu'⟩
  rw [if_neg hquote] at hread hquiet ⊢
  rw [if_neg hquote]
  by_cases hchar : c = '\''
  · rw [if_pos hchar] at hread ⊢
    rw [if_pos hchar]
    obtain ⟨text, value, hkind, hdenotes, htakes⟩ :=
      denotes_of_scanChar (hchar ▸ hs) hread.quiet
    have htaken := hread.unique htakes
    have hu'' : u.text = '\'' :: (text ++ '\'' :: behind) := by
      rw [hu, htaken]
      simp
    obtain ⟨hkind', htakes'⟩ := scanChar_of hdenotes u.pos hu''
    exact ⟨hkind'.trans hkind.symm, htaken ▸ htakes'⟩
  rw [if_neg hchar] at hread hquiet ⊢
  rw [if_neg hchar]
  have hafter : s.bump.Takes (scanOperator s.pos c s).2 more := by
    refine ⟨⟨?_, ?_⟩, hquiet⟩
    · have htext := hread.text
      rw [hmore, hs] at htext
      rw [text_bump hs]
      exact (List.cons.inj htext).2
    · have hpos := hread.pos
      have hpos' := (takes_bump hs).pos
      rw [hmore, ← List.singleton_append, byteLength_append] at hpos
      omega
  obtain ⟨hkind, htakes⟩ := settled_scanOperatorRest c s.bump u.bump more behind s.pos u.pos
    hafter (text_bump hu') hclear
  exact ⟨hkind, hmore ▸ htakes.of_bump hu'⟩

/-! ### What is reported stays reported -/

theorem length_skipBlock (start depth : ℕ) (s : Scanner) :
    s.diagnostics.length ≤ (skipBlock start depth s).diagnostics.length := by
  fun_induction skipBlock start depth s with
  | case1 => exact (length_pushError _ _ _ _ _).le
  | case2 depth s rest h ih => rwa [diagnostics_bump, diagnostics_bump] at ih
  | case3 depth s rest h hlast => rw [diagnostics_bump, diagnostics_bump]
  | case4 depth s rest h hmore ih => rwa [diagnostics_bump, diagnostics_bump] at ih
  | case5 depth s c rest hopen hclose h ih => rwa [diagnostics_bump] at ih

theorem length_skipTrivia (s : Scanner) :
    s.diagnostics.length ≤ s.skipTrivia.diagnostics.length := by
  fun_induction skipTrivia s with
  | case1 s h => exact le_rfl
  | case2 s c h hc ih => rwa [diagnostics_bump] at ih
  | case3 s c h hc => exact le_rfl
  | case4 s c next rest h hc ih => rwa [diagnostics_bump] at ih
  | case5 s c next rest h hc hline ih => exact ih
  | case6 s c next rest h hc hline hblock ih =>
    have hskip := length_skipBlock s.pos 1 s.bump.bump
    rw [diagnostics_bump, diagnostics_bump] at hskip
    exact hskip.trans ih
  | case7 s c next rest h => exact le_rfl

theorem length_closeChar (value : Char) (s : Scanner) :
    s.diagnostics.length ≤ (closeChar start value s).2.diagnostics.length := by
  by_cases hpeek : s.peek = some '\''
  · rw [closeChar_eq hpeek, diagnostics_bump]
  · rw [closeChar, if_neg hpeek]
    dsimp only
    refine le_trans ?_ (length_pushError _ _ _ _ _).le
    split
    · rw [diagnostics_bump]
      exact le_rfl
    · exact le_rfl

theorem length_scanChar (start : ℕ) (s : Scanner) :
    s.diagnostics.length ≤ (scanChar start s).2.diagnostics.length := by
  have hbump := congrArg List.length (diagnostics_bump s)
  unfold scanChar
  dsimp only
  split
  · exact hbump.ge.trans (length_pushError _ _ _ _ _).le
  · rename_i c hpeek
    split
    · refine le_trans ?_ (length_pushError _ _ _ _ _).le
      rw [diagnostics_bump, diagnostics_bump]
    · split
      · split
        · rename_i value hvalue
          obtain ⟨e, rest, -, -, heq⟩ := scanEscape_eq_some hvalue
          refine le_trans ?_ (length_closeChar value _)
          rw [heq, diagnostics_bump, diagnostics_bump, diagnostics_bump]
        · rename_i hnone
          exact hbump.ge.trans (length_scanEscape hnone).le
      · refine le_trans ?_ (length_closeChar c _)
        rw [diagnostics_bump, diagnostics_bump]

theorem diagnostics_oneOr (plain : TokenKind) (followed : List (Char × TokenKind)) (s : Scanner) :
    (oneOr plain followed s).2.diagnostics = s.diagnostics := by
  unfold oneOr
  split
  · exact diagnostics_bump s
  · rfl

theorem length_scanOperatorRest (start : ℕ) (c : Char) (s : Scanner) :
    s.diagnostics.length ≤ (scanOperatorRest start c s).2.diagnostics.length := by
  have hone plain followed := congrArg List.length (diagnostics_oneOr plain followed s)
  have htwo plain followed := congrArg List.length (diagnostics_oneOr plain followed s.bump)
  have hbump := congrArg List.length (diagnostics_bump s)
  unfold scanOperatorRest oneOrEq
  split
  case h_10 | h_11 | h_14 =>
    split_ifs <;> first | exact hbump.ge | exact ((htwo _ _).trans hbump).ge | exact le_rfl
  case h_25 => exact (length_pushError _ _ _ _ _).le
  all_goals first | exact (hone _ _).ge | exact le_rfl

theorem length_scanToken (c : Char) (s : Scanner) :
    s.diagnostics.length ≤ (scanToken c s).2.diagnostics.length := by
  have hbump := congrArg List.length (diagnostics_bump s)
  unfold scanToken
  split_ifs
  · unfold scanNumberToken
    dsimp only
    split
    · exact le_rfl
    · exact le_rfl
    · exact (length_pushError (s.bumpTo (scanNumber s.text).2) _ _ _ _).le
  · unfold scanRawString
    dsimp only
    split
    · refine le_trans ?_ (length_pushError _ _ _ _ _).le
      exact ((congrArg List.length (diagnostics_bump s.bump)).trans hbump).ge
    · rw [diagnostics_bump]
      exact ((congrArg List.length (diagnostics_bump s.bump)).trans hbump).ge
  · exact le_rfl
  · exact hbump.ge.trans (length_scanStringRest _ _ _)
  · exact length_scanChar _ _
  · exact hbump.ge.trans (length_scanOperatorRest _ _ _)

theorem length_tokenizeRest (s : Scanner) :
    s.diagnostics.length ≤ (tokenizeRest s).2.length := by
  fun_induction tokenizeRest s with
  | case1 s h => exact length_skipTrivia s
  | case2 s c behind h scanned rest ih =>
    exact (length_skipTrivia s).trans ((length_scanToken c s.skipTrivia).trans ih)

/-! ### Gaps -/

/-- Neither whitespace nor a comment starts the text. -/
def Stops (text : List Char) : Prop :=
  ∀ c rest, text = c :: rest → isWhitespace c = false ∧
    ∀ d, c = '/' → rest.head? = some d → d ≠ '/' ∧ d ≠ '*'

theorem stops_skipTrivia (s : Scanner) : Stops s.skipTrivia.text := by
  fun_induction skipTrivia s with
  | case1 s h =>
    intro c rest htext
    rw [h] at htext
    cases htext
  | case2 s c h hc ih => exact ih
  | case3 s c h hc =>
    intro c' rest htext
    rw [h] at htext
    obtain ⟨rfl, rfl⟩ := List.cons.inj htext
    exact ⟨by simpa using hc, fun d _ hd => by cases hd⟩
  | case4 s c next rest h hc ih => exact ih
  | case5 s c next rest h hc hline ih => exact ih
  | case6 s c next rest h hc hline hblock ih => exact ih
  | case7 s c next rest h hc hline hblock =>
    intro c' rest' htext
    rw [h] at htext
    obtain ⟨rfl, rfl⟩ := List.cons.inj htext
    refine ⟨by simpa using hc, fun d hslash hd => ?_⟩
    obtain rfl : next = d := Option.some.inj hd
    exact ⟨fun heq => hline ⟨hslash, heq⟩, fun heq => hblock ⟨hslash, heq⟩⟩

theorem skipTrivia_of_stops (h : Stops s.text) : s.skipTrivia = s := by
  rw [skipTrivia]
  split
  · rfl
  · rename_i c htext
    rw [if_neg]
    simp [(h c [] htext).1]
  · rename_i c next rest htext
    obtain ⟨hc, hslash⟩ := h c _ htext
    have hnext := fun heq => hslash next heq rfl
    rw [if_neg (by simp [hc]), dif_neg fun hline => (hnext hline.1).1 hline.2,
      dif_neg fun hblock => (hnext hblock.1).2 hblock.2]

theorem skipTrivia_whitespace {c : Char} {rest : List Char} (h : s.text = c :: rest)
    (hc : isWhitespace c = true) : s.skipTrivia = s.bump.skipTrivia := by
  rw [skipTrivia]
  split
  · simp_all
  · simp_all
  · simp_all

theorem skipTrivia_lineComment {rest : List Char} (h : s.text = '/' :: '/' :: rest) :
    s.skipTrivia = (s.bumpWhile (· ≠ '\n')).skipTrivia := by
  have hslash : isWhitespace '/' = false := by decide
  rw [skipTrivia]
  split
  · simp_all
  · simp_all
  · simp_all

theorem skipTrivia_blockComment {rest : List Char} (h : s.text = '/' :: '*' :: rest) :
    s.skipTrivia = s.skipBlockComment.skipTrivia := by
  have hslash : isWhitespace '/' = false := by decide
  rw [skipTrivia]
  split
  · simp_all
  · simp_all
  · simp_all

theorem skipBlock_opens {depth : ℕ} {rest : List Char} (h : s.text = '/' :: '*' :: rest) :
    skipBlock start depth s = skipBlock start (depth + 1) s.bump.bump := by
  rw [skipBlock]
  split <;> simp_all

theorem skipBlock_closes {depth : ℕ} {rest : List Char} (h : s.text = '*' :: '/' :: rest) :
    skipBlock start depth s =
      if depth - 1 = 0 then s.bump.bump else skipBlock start (depth - 1) s.bump.bump := by
  rw [skipBlock]
  split <;> simp_all

theorem skipBlock_plain {depth : ℕ} {c : Char} {rest : List Char} (h : s.text = c :: rest)
    (hmarks : ¬Marks s.text) : skipBlock start depth s = skipBlock start depth s.bump := by
  rw [skipBlock]
  split
  · simp_all
  · rename_i rest' heq
    rw [heq, marks_cons] at hmarks
    simp at hmarks
  · rename_i rest' heq
    rw [heq, marks_cons] at hmarks
    simp at hmarks
  · rfl

/-- A block comment is skipped whole, however deep it nests. -/
theorem skipBlock_of_levels {d e : ℕ} {body : List Char} (h : Levels d body e) (he : e = 0)
    (hd : 0 < d) (start : ℕ) (hs : s.text = body ++ behind) :
    s.Takes (skipBlock start d s) body := by
  induction h generalizing s with
  | done d => omega
  | @opens d e text _ ih =>
    have hs' := text_bump (text_bump hs)
    rw [skipBlock_opens hs]
    exact (takes_bump hs).trans ((takes_bump (text_bump hs)).trans (ih he (by omega) hs'))
  | @closes d e text hlevels ih =>
    have hs' := text_bump (text_bump hs)
    have hread := (takes_bump hs).trans (takes_bump (text_bump hs))
    rw [skipBlock_closes hs, Nat.add_sub_cancel]
    by_cases hzero : d = 0
    · subst hzero
      cases hlevels
      exact hread
    · rw [if_neg hzero]
      exact hread.trans (ih he (by omega) hs')
  | @plain d e c text hmarks hlevels ih =>
    have hmarks' : ¬Marks s.text := by
      cases text with
      | nil =>
        subst he
        cases hlevels
      | cons c' text =>
        rw [hs]
        exact hmarks
    rw [skipBlock_plain hs hmarks']
    exact (takes_bump hs).trans (ih he (by omega) (text_bump hs))

end Scanner

/-- Whitespace and comments, one after the other; a comment to the end of the line has the end
of the line with it. -/
inductive IsSeparator : List Char → Prop
  | whitespace {c : Char} : isWhitespace c = true → IsSeparator [c]
  | lineComment {body : List Char} : '\n' ∉ body → IsSeparator ('/' :: '/' :: (body ++ ['\n']))
  | blockComment {body : List Char} : Levels 1 body 0 → IsSeparator ('/' :: '*' :: body)
  | append {first second : List Char} : IsSeparator first → IsSeparator second →
      IsSeparator (first ++ second)

theorem IsSeparator.starts {sep : List Char} (h : IsSeparator sep) :
    ∃ c rest, sep = c :: rest ∧ StartsGap c := by
  induction h with
  | whitespace hc => exact ⟨_, [], rfl, Or.inl hc⟩
  | lineComment _ => exact ⟨'/', _, rfl, Or.inr rfl⟩
  | blockComment _ => exact ⟨'/', _, rfl, Or.inr rfl⟩
  | append _ _ ih _ =>
    obtain ⟨c, rest, rfl, hc⟩ := ih
    exact ⟨c, _, rfl, hc⟩

theorem IsSeparator.clear {sep : List Char} (h : IsSeparator sep) (behind : List Char) :
    Clear (sep ++ behind) := by
  obtain ⟨c, rest, rfl, hc⟩ := h.starts
  intro d hd
  obtain rfl : c = d := Option.some.inj hd
  exact hc

/-- A separator is skipped, and what comes next is read as before. -/
theorem IsSeparator.skipTrivia {sep : List Char} (h : IsSeparator sep) {s : Scanner}
    {behind : List Char} (hs : s.text = sep ++ behind) :
    ∃ t, s.Takes t sep ∧ t.text = behind ∧ s.skipTrivia = t.skipTrivia := by
  induction h generalizing s behind with
  | whitespace hc =>
    exact ⟨s.bump, Scanner.takes_bump hs, Scanner.text_bump hs,
      Scanner.skipTrivia_whitespace hs hc⟩
  | @lineComment body hbody =>
    have hall : ∀ c ∈ '/' :: '/' :: body, decide (c ≠ '\n') = true := by
      intro c hc
      have hne : c ≠ '\n' := by
        rintro rfl
        simp [hbody] at hc
      simp [hne]
    have htext : s.text = ('/' :: '/' :: body) ++ '\n' :: behind := by
      rw [hs]
      simp
    have hsplit : s.text.takeWhile (fun c => decide (c ≠ '\n')) = '/' :: '/' :: body ∧
        s.text.dropWhile (fun c => decide (c ≠ '\n')) = '\n' :: behind := by
      rw [htext]
      exact takeWhile_append hall (by simp)
    have hread := Scanner.takes_bumpWhile (fun c => decide (c ≠ '\n')) s
    rw [hsplit.1] at hread
    have hnext : (s.bumpWhile fun c => decide (c ≠ '\n')).text = '\n' :: behind := hsplit.2
    refine ⟨_, hread.trans (Scanner.takes_bump hnext), Scanner.text_bump hnext, ?_⟩
    rw [Scanner.skipTrivia_lineComment hs]
    exact Scanner.skipTrivia_whitespace hnext (by decide)
  | @blockComment body hlevels =>
    have hs' := Scanner.text_bump (Scanner.text_bump hs)
    have hbody := Scanner.skipBlock_of_levels hlevels rfl (by decide) s.pos hs'
    have hread := (Scanner.takes_bump hs).trans
      ((Scanner.takes_bump (Scanner.text_bump hs)).trans hbody)
    exact ⟨_, hread, hread.text_eq hs, Scanner.skipTrivia_blockComment hs⟩
  | @append first second _ _ ih ih' =>
    rw [List.append_assoc] at hs
    obtain ⟨t, hread, ht, hskip⟩ := ih hs
    obtain ⟨t', hread', ht', hskip'⟩ := ih' ht
    exact ⟨t', hread.trans hread', ht', hskip.trans hskip'⟩

/-! ### Slices -/

/-- The characters of a text, which starts at an offset, that a span covers. -/
def sliceFrom (pos : ℕ) : List Char → Span → List Char
  | [], _ => []
  | c :: text, span =>
    if span.start ≤ pos ∧ pos < span.stop then c :: sliceFrom (pos + c.utf8Size) text span
    else sliceFrom (pos + c.utf8Size) text span

def slice (text : List Char) (span : Span) : List Char := sliceFrom 0 text span

section
variable {pos : ℕ} {text : List Char} {span : Span}

theorem byteLength_cons (c : Char) (text : List Char) :
    byteLength (c :: text) = c.utf8Size + byteLength text := by
  simp [byteLength]

theorem sliceFrom_append (pos : ℕ) (before after : List Char) (span : Span) :
    sliceFrom pos (before ++ after) span =
      sliceFrom pos before span ++ sliceFrom (pos + byteLength before) after span := by
  induction before generalizing pos with
  | nil => rfl
  | cons c before ih =>
    rw [List.cons_append, sliceFrom, sliceFrom, ih, byteLength_cons, Nat.add_assoc]
    split <;> rfl

theorem sliceFrom_before (h : pos + byteLength text ≤ span.start) : sliceFrom pos text span = [] := by
  induction text generalizing pos with
  | nil => rfl
  | cons c text ih =>
    have hc := c.utf8Size_pos
    rw [byteLength_cons] at h
    rw [sliceFrom, if_neg (by omega), ih (by omega)]

theorem sliceFrom_behind (h : span.stop ≤ pos) : sliceFrom pos text span = [] := by
  induction text generalizing pos with
  | nil => rfl
  | cons c text ih => rw [sliceFrom, if_neg (by omega), ih (by omega)]

theorem sliceFrom_within (hstart : span.start ≤ pos) (hstop : pos + byteLength text ≤ span.stop) :
    sliceFrom pos text span = text := by
  induction text generalizing pos with
  | nil => rfl
  | cons c text ih =>
    have hc := c.utf8Size_pos
    rw [byteLength_cons] at hstop
    rw [sliceFrom, if_pos (by omega), ih (by omega) (by omega)]

theorem slice_eq (before lexeme after : List Char) :
    slice (before ++ lexeme ++ after)
      ⟨byteLength before, byteLength before + byteLength lexeme⟩ = lexeme := by
  rw [slice, sliceFrom_append, sliceFrom_append, sliceFrom_before (by simp),
    sliceFrom_within (by simp) (by simp), sliceFrom_behind (by simp [byteLength_append]),
    List.nil_append, List.append_nil]

end

/-! ### Other gaps -/

/-- The slices of the tokens of a text. -/
def lexemes (text : List Char) : List (List Char) :=
  ((tokenize text).1.filter fun token => token.kind ≠ .eof).map fun token => slice text token.span

/-- A separator that may stand behind a token. -/
def Separates (lexeme sep : List Char) : Prop :=
  IsSeparator sep ∧ (lexeme = ['/'] → ∀ c, sep.head? = some c → isWhitespace c = true)

/-- Tokens written out with separators between them, and perhaps one behind the last. -/
inductive Respaced : List (List Char) → List Char → Prop
  | nil : Respaced [] []
  | cons {lexeme sep rest : List Char} {lexemes : List (List Char)} :
      Separates lexeme sep ∨ sep = [] ∧ lexemes = [] → Respaced lexemes rest →
      Respaced (lexeme :: lexemes) (lexeme ++ sep ++ rest)

/-- A text with the tokens of another and with gaps of its own, also in front. -/
def IsRespacing (text text' : List Char) : Prop :=
  ∃ lead body, text' = lead ++ body ∧ (lead = [] ∨ IsSeparator lead) ∧
    Respaced (lexemes text) body

namespace Scanner
variable {s : Scanner} {text before behind : List Char} {c : Char}

theorem tokenizeRest_nil (h : s.skipTrivia.text = []) :
    tokenizeRest s = ([⟨.eof, .empty s.skipTrivia.pos⟩], s.skipTrivia.diagnostics) := by
  rw [tokenizeRest]
  split
  · rfl
  · simp_all

theorem tokenizeRest_cons (h : s.skipTrivia.text = c :: behind) :
    tokenizeRest s =
      (⟨(scanToken c s.skipTrivia).1, ⟨s.skipTrivia.pos, (scanToken c s.skipTrivia).2.pos⟩⟩ ::
        (tokenizeRest (scanToken c s.skipTrivia).2).1,
        (tokenizeRest (scanToken c s.skipTrivia).2).2) := by
  rw [tokenizeRest]
  split
  · simp_all
  · rename_i d rest heq
    rw [h] at heq
    obtain ⟨rfl, rfl⟩ := List.cons.inj heq
    rfl

theorem tokenizeRest_congr {t : Scanner} (h : s.skipTrivia = t.skipTrivia) :
    tokenizeRest s = tokenizeRest t := by
  cases htext : t.skipTrivia.text with
  | nil => rw [tokenizeRest_nil htext, tokenizeRest_nil (h ▸ htext), h]
  | cons c behind => rw [tokenizeRest_cons htext, tokenizeRest_cons (h ▸ htext), h]

theorem takes_slice (h : s.skipTrivia.text = c :: behind) (htext : text = before ++ s.text)
    (hpos : s.pos = byteLength before)
    (hquiet : (tokenizeRest (scanToken c s.skipTrivia).2).2 = []) :
    ∃ gap lexeme, s.skipTrivia.Takes (scanToken c s.skipTrivia).2 lexeme ∧
      slice text ⟨s.skipTrivia.pos, (scanToken c s.skipTrivia).2.pos⟩ = lexeme ∧
      (scanToken c s.skipTrivia).2.diagnostics = [] ∧
      text = (before ++ gap ++ lexeme) ++ (scanToken c s.skipTrivia).2.text ∧
      (scanToken c s.skipTrivia).2.pos = byteLength (before ++ gap ++ lexeme) := by
  obtain ⟨gap, hgap, -⟩ := s.skips_skipTrivia
  obtain ⟨lexeme, -, hlexeme⟩ := progresses_scanToken h
  have hscanned : (scanToken c s.skipTrivia).2.diagnostics = [] := by
    have hle := length_tokenizeRest (scanToken c s.skipTrivia).2
    rw [hquiet] at hle
    exact List.length_eq_zero_iff.mp (Nat.le_zero.mp hle)
  have hskipped : s.skipTrivia.diagnostics = [] := by
    have hle := length_scanToken c s.skipTrivia
    rw [hscanned] at hle
    exact List.length_eq_zero_iff.mp (Nat.le_zero.mp hle)
  have hwhole : text = (before ++ gap ++ lexeme) ++ (scanToken c s.skipTrivia).2.text := by
    rw [htext, hgap.text, hlexeme.text]
    simp
  have hstart : s.skipTrivia.pos = byteLength (before ++ gap) := by
    rw [hgap.pos, hpos, byteLength_append]
  refine ⟨gap, lexeme, ⟨hlexeme, hscanned.trans hskipped.symm⟩, ?_, hscanned, hwhole, ?_⟩
  · rw [hlexeme.pos, hstart, hwhole]
    exact slice_eq _ _ _
  · rw [hlexeme.pos, hstart, byteLength_append (before ++ gap)]

theorem stops_append {lexeme rest : List Char} (h : Stops (lexeme ++ rest)) (hne : lexeme ≠ [])
    (hslash : lexeme = ['/'] → ∀ c, behind.head? = some c → isWhitespace c = true) :
    Stops (lexeme ++ behind) := by
  cases lexeme with
  | nil => exact absurd rfl hne
  | cons c more =>
    intro c' rest' heq
    obtain ⟨rfl, rfl⟩ := List.cons.inj heq
    obtain ⟨hc, hnext⟩ := h c (more ++ rest) rfl
    refine ⟨hc, fun d hd hhead => ?_⟩
    cases more with
    | nil =>
      have hwhite := hslash (by rw [hd]) d hhead
      refine ⟨?_, ?_⟩ <;> rintro rfl <;> revert hwhite <;> decide
    | cons d' more => exact hnext d hd hhead

/-- The run over a respaced text, token by token. -/
theorem tokenizeRest_respaced (s : Scanner) (htext : text = before ++ s.text)
    (hpos : s.pos = byteLength before) (hquiet : (tokenizeRest s).2 = []) {body : List Char}
    (hbody : Respaced ((((tokenizeRest s).1.filter fun token => token.kind ≠ .eof).map
      fun token => slice text token.span)) body) {t : Scanner} (ht : t.text = body)
    (hreported : t.diagnostics = []) :
    (tokenizeRest t).2 = [] ∧
      (tokenizeRest t).1.map (·.kind) = (tokenizeRest s).1.map (·.kind) := by
  fun_induction tokenizeRest s generalizing before body t with
  | case1 s h =>
    have hnil : t.text = [] := by
      rw [ht]
      cases hbody
      rfl
    have hstops : t.skipTrivia = t := skipTrivia_of_stops (by
      intro c rest heq
      rw [hnil] at heq
      cases heq)
    rw [tokenizeRest_nil (by rw [hstops]; exact hnil), hstops]
    exact ⟨hreported, rfl⟩
  | case2 s c behind h scanned =>
    rename_i ih
    obtain ⟨gap, lexeme, hread, hslice, hscanned, hwhole, hstart⟩ :=
      takes_slice h htext hpos hquiet
    have hne : lexeme ≠ [] := by
      obtain ⟨found, hfound, hadvances⟩ := progresses_scanToken h
      rwa [List.append_cancel_right (hread.text.symm.trans hadvances.text)]
    have hkept : scanned.1 ≠ .eof := scanToken_ne_eof c
    rw [List.filter_cons_of_pos (by simpa using hkept), List.map_cons] at hbody
    change Respaced (slice text ⟨s.skipTrivia.pos, scanned.2.pos⟩ :: _) body at hbody
    rw [hslice] at hbody
    cases hbody with
    | @cons _ sep rest' _ hsep hrest =>
      have hclear : Clear (sep ++ rest') := by
        rcases hsep with hsep | ⟨rfl, hlast⟩
        · exact hsep.1.clear rest'
        · rw [hlast] at hrest
          cases hrest
          intro d hd
          cases hd
      have hslash : lexeme = ['/'] → ∀ d, (sep ++ rest').head? = some d →
          isWhitespace d = true := by
        intro hlexeme d hd
        rcases hsep with hsep | ⟨rfl, hlast⟩
        · obtain ⟨e, more, rfl, -⟩ := hsep.1.starts
          exact hsep.2 hlexeme d hd
        · rw [hlast] at hrest
          cases hrest
          cases hd
      have ht' : t.text = lexeme ++ (sep ++ rest') := by rw [ht, List.append_assoc]
      have hstops : t.skipTrivia = t := by
        refine skipTrivia_of_stops ?_
        rw [ht']
        exact stops_append (hread.text ▸ stops_skipTrivia s) hne hslash
      obtain ⟨hkind, htakes, hhead⟩ := settled_scanToken h hread ht' hclear
      obtain ⟨after, hafter⟩ : ∃ after, t.text = c :: after := List.head?_eq_some_iff.mp hhead
      have hquiet' : (scanToken c t).2.diagnostics = [] := htakes.quiet.trans hreported
      -- the gap behind the token is skipped before the next one is scanned
      obtain ⟨t', ht'', hreported', hcongr⟩ : ∃ t' : Scanner, t'.text = rest' ∧
          t'.diagnostics = [] ∧ tokenizeRest (scanToken c t).2 = tokenizeRest t' := by
        have hleft := htakes.text_eq ht'
        rcases hsep with hsep | ⟨rfl, -⟩
        · obtain ⟨t', hread', htext', hskip⟩ := hsep.1.skipTrivia hleft
          exact ⟨t', htext', hread'.quiet.trans hquiet', tokenizeRest_congr hskip⟩
        · exact ⟨_, hleft, hquiet', rfl⟩
      obtain ⟨hnone, hkinds⟩ := ih hwhole hstart hquiet hrest ht'' hreported'
      rw [tokenizeRest_cons (by rw [hstops]; exact hafter), hstops, hcongr]
      refine ⟨hnone, ?_⟩
      rw [List.map_cons, List.map_cons, hkinds]
      exact congrArg (· :: _) hkind

end Scanner

/-! ### Literals -/

/-- A string or a character. -/
def TokenKind.isQuoted : TokenKind → Bool
  | .str _ | .char _ => true
  | _ => false

theorem keywordKind_isQuoted {text : String} {kind : TokenKind}
    (h : keywordKind text = some kind) : kind.isQuoted = false := by
  unfold keywordKind at h
  split at h <;> cases h <;> rfl

namespace Scanner
variable {s : Scanner} {start : ℕ} {text before taken : List Char} {c : Char}

theorem oneOr_isQuoted {plain : TokenKind} {followed : List (Char × TokenKind)}
    (hplain : plain.isQuoted = false) (hfollowed : ∀ next ∈ followed, next.2.isQuoted = false) :
    (oneOr plain followed s).1.isQuoted = false := by
  unfold oneOr
  split
  · rename_i next hfind
    exact hfollowed next (List.mem_of_find?_eq_some hfind)
  · exact hplain

theorem scanOperatorRest_isQuoted (c : Char) : (scanOperatorRest start c s).1.isQuoted = false := by
  unfold scanOperatorRest oneOrEq
  split
  case h_10 | h_11 | h_14 =>
    split_ifs <;> first | exact oneOr_isQuoted rfl (by simp [TokenKind.isQuoted]) | rfl
  all_goals first | exact oneOr_isQuoted rfl (by simp [TokenKind.isQuoted]) | rfl

/-- A quoted token has the value its text denotes. -/
theorem isLiteralOf_scanToken {rest : List Char} (hs : s.text = c :: rest)
    (hread : s.Takes (scanToken c s).2 taken) (hquoted : (scanToken c s).1.isQuoted = true) :
    IsLiteralOf taken (scanToken c s).1 := by
  have hquiet : (scanToken c s).2.diagnostics = s.bump.diagnostics :=
    hread.quiet.trans (diagnostics_bump s).symm
  unfold scanToken at hread hquiet hquoted ⊢
  by_cases hdigit : isDigit 10 c = true
  · rw [if_pos hdigit] at hquoted
    unfold scanNumberToken at hquoted
    dsimp only at hquoted
    split at hquoted <;> cases hquoted
  rw [if_neg hdigit] at hread hquiet hquoted ⊢
  by_cases hraw : c = 'r' ∧ s.peekAt 1 = some '"'
  · rw [if_pos hraw] at hread hquiet hquoted ⊢
    obtain ⟨rest', hrest⟩ := text_bump_of_peekAt hs hraw.2
    obtain ⟨value, hkind, hvalue, htakes⟩ := denotes_of_scanRawString hrest hquiet
    rw [hread.unique (htakes.of_bump hs), hkind, hraw.1]
    exact .raw hvalue
  rw [if_neg hraw] at hread hquiet hquoted ⊢
  by_cases hident : isAsciiAlphabetic c = true ∨ c = '_'
  · rw [if_pos hident] at hquoted
    unfold scanIdent at hquoted
    dsimp only at hquoted
    cases hkeyword : keywordKind (String.ofList (s.text.takeWhile isIdentRest)) with
    | none =>
      rw [hkeyword] at hquoted
      cases hquoted
    | some kind =>
      rw [hkeyword, Option.getD_some, keywordKind_isQuoted hkeyword] at hquoted
      cases hquoted
  rw [if_neg hident] at hread hquiet hquoted ⊢
  by_cases hquote : c = '"'
  · rw [if_pos hquote] at hread hquiet hquoted ⊢
    obtain ⟨text, decoded, hkind, hdenotes, htakes⟩ := denotes_of_scanStringRest _ [] s.bump hquiet
    have hkind' : (scanString s.pos s).1 = .str decoded := hkind
    rw [hread.unique (htakes.of_bump hs), hkind', hquote]
    exact .string hdenotes
  rw [if_neg hquote] at hread hquiet hquoted ⊢
  by_cases hchar : c = '\''
  · rw [if_pos hchar] at hread hquoted ⊢
    obtain ⟨text, value, hkind, hdenotes, htakes⟩ :=
      denotes_of_scanChar (hchar ▸ hs) hread.quiet
    rw [hread.unique htakes, hkind]
    exact .char hdenotes
  rw [if_neg hchar] at hquoted
  rw [scanOperator, scanOperatorRest_isQuoted c] at hquoted
  cases hquoted

theorem isLiteralOf_tokenizeRest (s : Scanner) (htext : text = before ++ s.text)
    (hpos : s.pos = byteLength before) (hquiet : (tokenizeRest s).2 = []) :
    ∀ token ∈ (tokenizeRest s).1, token.kind.isQuoted = true →
      IsLiteralOf (slice text token.span) token.kind := by
  fun_induction tokenizeRest s generalizing before with
  | case1 s h =>
    intro token htoken hquoted
    rw [List.mem_singleton.mp htoken] at hquoted
    cases hquoted
  | case2 s c behind h scanned =>
    rename_i ih
    obtain ⟨gap, lexeme, hread, hslice, hscanned, hwhole, hstart⟩ :=
      takes_slice h htext hpos hquiet
    intro token htoken hquoted
    rcases List.mem_cons.mp htoken with rfl | htoken
    · change IsLiteralOf (slice text ⟨s.skipTrivia.pos, scanned.2.pos⟩) scanned.1
      rw [hslice]
      exact isLiteralOf_scanToken h hread hquoted
    · exact ih hwhole hstart hquiet token htoken hquoted

end Scanner

/-! ### The whole text -/

/-- Where nothing is reported of a text its tokens are those of every text with other gaps
between them, and its literals denote what they are scanned to. -/
theorem tokenize_respaced (text : List Char) (h : (tokenize text).2 = []) :
    (∀ text', IsRespacing text text' → (tokenize text').2 = [] ∧
        (tokenize text').1.map (·.kind) = (tokenize text).1.map (·.kind)) ∧
      ∀ token ∈ (tokenize text).1, token.kind.isQuoted = true →
        IsLiteralOf (slice text token.span) token.kind := by
  have hstart : text = [] ++ ({ text } : Scanner).text := rfl
  refine ⟨?_, Scanner.isLiteralOf_tokenizeRest { text } hstart rfl h⟩
  rintro text' ⟨lead, body, rfl, hlead, hbody⟩
  obtain ⟨t, ht, hreported, hcongr⟩ : ∃ t : Scanner, t.text = body ∧ t.diagnostics = [] ∧
      tokenize (lead ++ body) = Scanner.tokenizeRest t := by
    rcases hlead with rfl | hlead
    · exact ⟨{ text := body }, rfl, rfl, rfl⟩
    · have hs : ({ text := lead ++ body } : Scanner).text = lead ++ body := rfl
      obtain ⟨t, hread, ht, hskip⟩ := hlead.skipTrivia hs
      exact ⟨t, ht, hread.quiet, Scanner.tokenizeRest_congr hskip⟩
  rw [hcongr]
  exact Scanner.tokenizeRest_respaced { text } hstart rfl h hbody ht hreported

theorem tokenize_respaced_division :
    (tokenize ['/', ' ', '/', '*', '*', '/', 'a']).2 = [] ∧
      (tokenize ['/', ' ', '/', '*', '*', '/', 'a']).1.map (·.kind) =
        (tokenize ['/', ' ', 'a']).1.map (·.kind) := by
  have hlexemes : lexemes ['/', ' ', 'a'] = [['/'], ['a']] := by decide +kernel
  have hseparator : IsSeparator ([' '] ++ ['/', '*', '*', '/']) :=
    .append (.whitespace (by decide)) (.blockComment (.closes (.done 0)))
  have hrespaced : Respaced [['/'], ['a']]
      (['/'] ++ ([' '] ++ ['/', '*', '*', '/']) ++ (['a'] ++ [] ++ [])) := by
    refine .cons (Or.inl ⟨hseparator, fun _ c hc => ?_⟩) (.cons (Or.inr ⟨rfl, rfl⟩) .nil)
    rw [← Option.some.inj hc]
    decide
  exact (tokenize_respaced ['/', ' ', 'a'] (by decide +kernel)).1 _
    ⟨[], _, rfl, Or.inl rfl, hlexemes ▸ hrespaced⟩

/-- A comment right behind a division sign makes one comment of both. -/
theorem tokenize_respaced_fails :
    (tokenize ['/', ' ', 'a']).2 = [] ∧ lexemes ['/', ' ', 'a'] = [['/'], ['a']] ∧
      ¬∀ sep, IsSeparator sep → (tokenize (['/'] ++ sep ++ ['a'])).1.map (·.kind) =
        (tokenize ['/', ' ', 'a']).1.map (·.kind) := by
  refine ⟨by decide +kernel, by decide +kernel, fun h => ?_⟩
  have hcomment := h ['/', '*', '*', '/'] (.blockComment (.closes (.done 0)))
  revert hcomment
  decide +kernel

end Napitia.Lexer

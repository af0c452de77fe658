import Napitia.Lexer.Progress

/-!
# Tokens tile the source

The scanner takes the text apart from front to back: between two tokens it skips
whitespace and comments and nothing else, and each token takes a text of its own. So the
spans cut the text between characters, they follow one another without overlap, and what
none of them covers is whitespace or a comment.
-/
namespace Napitia.Lexer

/-! ### Comments -/

/-- A mark of a block comment at the start of a text. -/
def Marks (text : List Char) : Prop := text.take 2 = ['/', '*'] ∨ text.take 2 = ['*', '/']

theorem marks_cons {a b : Char} {text : List Char} :
    Marks (a :: b :: text) ↔ a = '/' ∧ b = '*' ∨ a = '*' ∧ b = '/' := by
  simp [Marks]

/-- Reading a text inside a block comment leads from one number of open levels to
another, and past no point where none was open. -/
inductive Levels : ℕ → List Char → ℕ → Prop
  | done (d : ℕ) : Levels d [] d
  | opens {d e : ℕ} {text : List Char} :
      Levels (d + 2) text e → Levels (d + 1) ('/' :: '*' :: text) e
  | closes {d e : ℕ} {text : List Char} :
      Levels d text e → Levels (d + 1) ('*' :: '/' :: text) e
  | plain {d e : ℕ} {c : Char} {text : List Char} :
      ¬ Marks (c :: text) → Levels (d + 1) text e → Levels (d + 1) (c :: text) e

/-- A piece of a text that no token is made of, and what stands behind it. A comment that
is never closed runs to the end of the text. -/
inductive IsTrivia : List Char → List Char → Prop
  | whitespace {c : Char} {behind : List Char} : isWhitespace c = true → IsTrivia [c] behind
  | lineComment {body behind : List Char} : '\n' ∉ body →
      (∀ c, behind.head? = some c → c = '\n') → IsTrivia ('/' :: '/' :: body) behind
  | blockComment {body behind : List Char} : Levels 1 body 0 →
      IsTrivia ('/' :: '*' :: body) behind
  | unterminated {body : List Char} {e : ℕ} : Levels 1 body (e + 1) →
      IsTrivia ('/' :: '*' :: body) []

/-- Every byte of a gap is one of a piece that no token is made of. -/
def Covers (gap behind : List Char) : Prop :=
  ∀ b < byteLength gap, ∃ before piece after, gap = before ++ piece ++ after ∧
    IsTrivia piece (after ++ behind) ∧ byteLength before ≤ b ∧
      b < byteLength before + byteLength piece

theorem covers_nil (behind : List Char) : Covers [] behind := by
  intro b hb
  simp [byteLength] at hb

theorem Covers.cons {piece gap behind : List Char} (hpiece : IsTrivia piece (gap ++ behind))
    (h : Covers gap behind) : Covers (piece ++ gap) behind := by
  intro b hb
  rw [byteLength_append] at hb
  by_cases hin : b < byteLength piece
  · exact ⟨[], piece, gap, rfl, hpiece, Nat.zero_le _, by simpa [byteLength] using hin⟩
  · obtain ⟨before, found, after, rfl, hfound, hle, hlt⟩ := h (b - byteLength piece) (by omega)
    refine ⟨piece ++ before, found, after, by simp, hfound, ?_, ?_⟩
    · rw [byteLength_append]
      omega
    · rw [byteLength_append]
      omega

namespace Scanner

variable {s : Scanner} {start depth : ℕ}

/-- Skipping a block comment ends where it closes, or with the text. -/
theorem skipBlock_levels (start d : ℕ) (s : Scanner) :
    ∃ body e, s.Advances (skipBlock start (d + 1) s) body ∧ Levels (d + 1) body e ∧
      (e = 0 ∨ (skipBlock start (d + 1) s).text = []) := by
  generalize hdepth : d + 1 = depth
  fun_induction skipBlock start depth s generalizing d with
  | case1 depth s h =>
    exact ⟨[], depth, ⟨rfl, rfl⟩, .done depth, .inr h⟩
  | case2 depth s rest h ih =>
    obtain ⟨body, e, hadvances, hlevels, hend⟩ := ih (d + 1) (by omega)
    have hread := (advances_bump h).trans ((advances_bump (text_bump h)).trans hadvances)
    subst hdepth
    exact ⟨_, e, hread, .opens hlevels, hend⟩
  | case3 depth s rest h hlast =>
    have hread := (advances_bump h).trans (advances_bump (text_bump h))
    obtain rfl : d = 0 := by omega
    subst hdepth
    exact ⟨_, 0, hread, .closes (.done 0), .inl rfl⟩
  | case4 depth s rest h hmore ih =>
    obtain ⟨body, e, hadvances, hlevels, hend⟩ := ih (d - 1) (by omega)
    have hread := (advances_bump h).trans ((advances_bump (text_bump h)).trans hadvances)
    subst hdepth
    exact ⟨_, e, hread, .closes hlevels, hend⟩
  | case5 depth s c rest hopen hclose h ih =>
    obtain ⟨body, e, hadvances, hlevels, hend⟩ := ih d hdepth
    have hread := (advances_bump h).trans hadvances
    subst hdepth
    refine ⟨_, e, hread, .plain ?_ hlevels, hend⟩
    have hrest : rest = body ++ (skipBlock start (d + 1) s.bump).text :=
      (text_bump h).symm.trans hadvances.text
    cases body with
    | nil => simp [Marks]
    | cons c' body =>
      rw [hrest] at hopen hclose
      change ¬ Marks (c :: c' :: body)
      rw [marks_cons]
      rintro (⟨rfl, rfl⟩ | ⟨rfl, rfl⟩)
      · exact hopen _ rfl rfl
      · exact hclose _ rfl rfl

theorem progresses_skipBlockComment {rest : List Char} (h : s.text = '/' :: '*' :: rest) :
    s.Progresses s.skipBlockComment := by
  obtain ⟨body, e, hadvances, -⟩ := skipBlock_levels s.pos 0 s.bump.bump
  exact ((progresses_bump h).bump (text_bump h)).advances hadvances

theorem progresses_bumpWhile {test : Char → Bool} {c : Char} {rest : List Char}
    (h : s.text = c :: rest) (hc : test c = true) : s.Progresses (s.bumpWhile test) :=
  ⟨_, by simp [h, hc], advances_bumpWhile test s⟩

/-- Skips whitespace and comments. -/
def skipTrivia (s : Scanner) : Scanner :=
  match _h : s.text with
  | [] => s
  | [c] => if isWhitespace c then skipTrivia s.bump else s
  | c :: next :: _ =>
    if isWhitespace c then skipTrivia s.bump
    else if _hline : c = '/' ∧ next = '/' then skipTrivia (s.bumpWhile (· ≠ '\n'))
    else if _hblock : c = '/' ∧ next = '*' then skipTrivia s.skipBlockComment
    else s
termination_by s.text.length
decreasing_by
  · exact (progresses_bump _h).lt
  · exact (progresses_bump _h).lt
  · exact (progresses_bumpWhile _h (by simp [_hline.1])).lt
  · exact (progresses_skipBlockComment (by rw [_h, _hblock.1, _hblock.2])).lt

theorem skipBlockComment_trivia {rest : List Char} (h : s.text = '/' :: '*' :: rest) :
    ∃ piece, s.Advances s.skipBlockComment piece ∧ IsTrivia piece s.skipBlockComment.text := by
  obtain ⟨body, e, hadvances, hlevels, hend⟩ := skipBlock_levels s.pos 0 s.bump.bump
  refine ⟨_, (advances_bump h).trans ((advances_bump (text_bump h)).trans hadvances), ?_⟩
  cases e with
  | zero => exact .blockComment hlevels
  | succ e =>
    have htext : s.skipBlockComment.text = [] := hend.resolve_left (Nat.succ_ne_zero e)
    rw [htext]
    exact .unterminated hlevels

theorem lineComment_trivia {rest : List Char} (h : s.text = '/' :: '/' :: rest) :
    IsTrivia (s.text.takeWhile (· ≠ '\n')) (s.bumpWhile (· ≠ '\n')).text := by
  have hnone : '\n' ∉ rest.takeWhile (· ≠ '\n') := by
    intro hmem
    simpa using List.all_eq_true.mp List.all_takeWhile _ hmem
  have hbehind : ∀ c, (rest.dropWhile (· ≠ '\n')).head? = some c → c = '\n' := by
    intro c hc
    have hhead := List.head?_dropWhile_not (fun c => decide (c ≠ '\n')) rest
    rw [hc] at hhead
    simpa using hhead
  change IsTrivia (s.text.takeWhile (· ≠ '\n')) (s.text.dropWhile (· ≠ '\n'))
  rw [h]
  exact .lineComment hnone hbehind

/-- What lies between two scanners is whitespace and comments, one after the other. -/
def Skips (s s' : Scanner) : Prop := ∃ gap, s.Advances s' gap ∧ Covers gap s'.text

theorem Skips.refl (s : Scanner) : s.Skips s := ⟨[], .nil s, covers_nil _⟩

theorem Skips.head {u s' : Scanner} {piece : List Char} (hread : s.Advances u piece)
    (hpiece : IsTrivia piece u.text) (h : u.Skips s') : s.Skips s' := by
  obtain ⟨gap, hadvances, hcovers⟩ := h
  exact ⟨piece ++ gap, hread.trans hadvances, .cons (hadvances.text ▸ hpiece) hcovers⟩

/-- What is skipped is trivia, piece by piece. -/
theorem skips_skipTrivia (s : Scanner) : s.Skips s.skipTrivia := by
  fun_induction skipTrivia s with
  | case1 s h => exact .refl s
  | case2 s c h hc ih => exact .head (advances_bump h) (.whitespace hc) ih
  | case3 s c h hc => exact .refl s
  | case4 s c next rest h hc ih => exact .head (advances_bump h) (.whitespace hc) ih
  | case5 s c next rest h hc hline ih =>
    obtain ⟨rfl, rfl⟩ := hline
    exact .head (advances_bumpWhile _ s) (lineComment_trivia h) ih
  | case6 s c next rest h hc hline hblock ih =>
    obtain ⟨rfl, rfl⟩ := hblock
    obtain ⟨piece, hread, hpiece⟩ := skipBlockComment_trivia h
    exact .head hread hpiece ih
  | case7 s c next rest h => exact .refl s

/-! ### The whole text -/

/-- The tokens of the text that is left, ending in an `eof`. -/
def tokenizeRest (s : Scanner) : List Token × List Diagnostic :=
  match _h : s.skipTrivia.text with
  | [] => ([⟨.eof, .empty s.skipTrivia.pos⟩], s.skipTrivia.diagnostics)
  | c :: _ =>
    let scanned := scanToken c s.skipTrivia
    let rest := tokenizeRest scanned.2
    (⟨scanned.1, ⟨s.skipTrivia.pos, scanned.2.pos⟩⟩ :: rest.1, rest.2)
termination_by s.text.length
decreasing_by
  obtain ⟨gap, hadvances, -⟩ := skips_skipTrivia s
  have hlt := (progresses_scanToken _h).lt
  rw [hadvances.text, List.length_append]
  omega

end Scanner

/-- The tokens of a text and what there is to report. -/
def tokenize (text : List Char) : List Token × List Diagnostic :=
  Scanner.tokenizeRest { text }

/-! ### The kinds that are scanned -/

theorem keywordKind_ne_eof {text : String} {kind : TokenKind} (h : keywordKind text = some kind) :
    kind ≠ .eof := by
  rintro rfl
  unfold keywordKind at h
  split at h <;> cases h

namespace Scanner

variable {s : Scanner} {start : ℕ}

theorem scanStringRest_ne_eof (value : List Char) : (scanStringRest start value s).1 ≠ .eof := by
  fun_induction scanStringRest start value s with
  | case1 | case2 | case3 | case5 =>
    intro h
    cases h
  | case4 _ _ _ _ _ _ _ _ _ ih | case6 _ _ _ _ _ _ _ _ _ ih | case7 _ _ _ _ _ _ _ _ ih => exact ih

theorem closeChar_ne_eof (value : Char) : (closeChar start value s).1 ≠ .eof := by
  unfold closeChar
  split <;> exact nofun

theorem scanChar_ne_eof : (scanChar start s).1 ≠ .eof := by
  unfold scanChar
  dsimp only
  split
  · intro h
    cases h
  · split
    · intro h
      cases h
    · split
      · split
        · exact closeChar_ne_eof _
        · intro h
          cases h
      · exact closeChar_ne_eof _

theorem oneOr_ne_eof {plain : TokenKind} {followed : List (Char × TokenKind)} (hplain : plain ≠ .eof)
    (hfollowed : ∀ next ∈ followed, next.2 ≠ .eof) : (oneOr plain followed s).1 ≠ .eof := by
  unfold oneOr
  split
  · rename_i next hfind
    exact hfollowed next (List.mem_of_find?_eq_some hfind)
  · exact hplain

theorem scanOperatorRest_ne_eof (c : Char) : (scanOperatorRest start c s).1 ≠ .eof := by
  unfold scanOperatorRest oneOrEq
  split
  case h_10 | h_11 | h_14 => split_ifs <;> first | exact oneOr_ne_eof (by simp) (by simp) | simp
  all_goals first | exact oneOr_ne_eof (by simp) (by simp) | simp

theorem scanToken_ne_eof (c : Char) : (scanToken c s).1 ≠ .eof := by
  unfold scanToken
  split_ifs
  · unfold scanNumberToken
    dsimp only
    split <;> exact nofun
  · unfold scanRawString
    dsimp only
    split <;> exact nofun
  · unfold scanIdent
    dsimp only
    cases hkeyword : keywordKind (String.ofList (s.text.takeWhile isIdentRest)) with
    | none => exact nofun
    | some kind => exact keywordKind_ne_eof hkeyword
  · exact scanStringRest_ne_eof _
  · exact scanChar_ne_eof
  · exact scanOperatorRest_ne_eof c

end Scanner

/-! ### The tiling -/

/-- An offset between two characters of a text that starts at `pos`. -/
def IsBoundary (pos : ℕ) (text : List Char) (p : ℕ) : Prop :=
  ∃ before after, text = before ++ after ∧ p = pos + byteLength before

/-- The byte at an offset is one of whitespace or of a comment that no span reaches
into. -/
def InTrivia (pos : ℕ) (text : List Char) (tokens : List Token) (b : ℕ) : Prop :=
  ∃ before piece after, text = before ++ piece ++ after ∧ IsTrivia piece after ∧
    pos + byteLength before ≤ b ∧ b < pos + byteLength before + byteLength piece ∧
    ∀ t ∈ tokens, t.span.stop ≤ pos + byteLength before ∨
      pos + byteLength before + byteLength piece ≤ t.span.start

/-- Tokens that tile a text which starts at the offset `pos`. -/
structure Tiles (pos : ℕ) (text : List Char) (tokens : List Token) : Prop where
  eof : ∃ init, tokens = init ++ [⟨.eof, .empty (pos + byteLength text)⟩] ∧
    ∀ t ∈ init, t.kind ≠ .eof ∧ t.span.start < t.span.stop
  boundaries : ∀ t ∈ tokens, IsBoundary pos text t.span.start ∧ IsBoundary pos text t.span.stop
  ordered : tokens.Pairwise fun a b => a.span.start < b.span.start ∧ a.span.stop ≤ b.span.start
  covered : ∀ b, pos ≤ b → b < pos + byteLength text →
    (∃ t ∈ tokens, t.span.start ≤ b ∧ b < t.span.stop) ∨ InTrivia pos text tokens b

section
variable {pos p : ℕ} {text gap lexeme rest : List Char} {tokens : List Token} {kind : TokenKind}

theorem IsBoundary.append (a : List Char) (h : IsBoundary (pos + byteLength a) text p) :
    IsBoundary pos (a ++ text) p := by
  obtain ⟨before, after, rfl, rfl⟩ := h
  refine ⟨a ++ before, after, by simp, ?_⟩
  rw [byteLength_append, Nat.add_assoc]

theorem IsBoundary.within (h : IsBoundary pos text p) : pos ≤ p ∧ p ≤ pos + byteLength text := by
  obtain ⟨before, after, rfl, rfl⟩ := h
  rw [byteLength_append]
  omega

theorem Covers.inTrivia (h : Covers gap rest)
    (hbehind : ∀ t ∈ tokens, pos + byteLength gap ≤ t.span.start) {b : ℕ} (hle : pos ≤ b)
    (hlt : b < pos + byteLength gap) : InTrivia pos (gap ++ rest) tokens b := by
  obtain ⟨before, piece, after, rfl, hpiece, hfirst, hlast⟩ := h (b - pos) (by omega)
  refine ⟨before, piece, after ++ rest, by simp, hpiece, by omega, by omega, fun t ht => .inr ?_⟩
  have hstart := hbehind t ht
  simp only [byteLength_append] at hstart
  omega

theorem tiles_eof (h : Covers text []) :
    Tiles pos text [⟨.eof, .empty (pos + byteLength text)⟩] where
  eof := ⟨[], rfl, by simp⟩
  boundaries := by
    intro t ht
    obtain rfl := List.mem_singleton.mp ht
    exact ⟨⟨text, [], by simp, rfl⟩, ⟨text, [], by simp, rfl⟩⟩
  ordered := List.pairwise_singleton _ _
  covered := by
    intro b hle hlt
    have hbyte : InTrivia pos (text ++ []) [⟨.eof, .empty (pos + byteLength text)⟩] b :=
      h.inTrivia (by simp [Span.empty]) hle hlt
    rw [List.append_nil] at hbyte
    exact .inr hbyte

theorem Tiles.token (h : Tiles (pos + byteLength gap + byteLength lexeme) rest tokens)
    (hgap : Covers gap (lexeme ++ rest)) (hlexeme : lexeme ≠ []) (hkind : kind ≠ .eof) :
    Tiles pos (gap ++ (lexeme ++ rest)) (⟨kind, ⟨pos + byteLength gap,
      pos + byteLength gap + byteLength lexeme⟩⟩ :: tokens) := by
  have hpos : 0 < byteLength lexeme := by
    cases lexeme with
    | nil => exact absurd rfl hlexeme
    | cons c lexeme =>
      have := c.utf8Size_pos
      simp only [byteLength, List.map_cons, List.sum_cons]
      omega
  have hbehind : ∀ t ∈ tokens, pos + byteLength gap + byteLength lexeme ≤ t.span.start :=
    fun t ht => (h.boundaries t ht).1.within.1
  have hshift : ∀ {p}, IsBoundary (pos + byteLength gap + byteLength lexeme) rest p →
      IsBoundary pos (gap ++ (lexeme ++ rest)) p := fun h => (h.append lexeme).append gap
  refine ⟨?_, ?_, ?_, ?_⟩
  · obtain ⟨init, hinit, hall⟩ := h.eof
    refine ⟨⟨kind, ⟨pos + byteLength gap, pos + byteLength gap + byteLength lexeme⟩⟩ :: init, ?_, ?_⟩
    · rw [hinit, List.cons_append, byteLength_append, byteLength_append]
      simp only [Nat.add_assoc]
    rintro t (_ | ⟨_, ht⟩)
    · exact ⟨hkind, by simpa using hpos⟩
    · exact hall t ht
  · rintro t (_ | ⟨_, ht⟩)
    · refine ⟨⟨gap, lexeme ++ rest, rfl, rfl⟩, ⟨gap ++ lexeme, rest, by simp, ?_⟩⟩
      rw [byteLength_append, Nat.add_assoc]
    · exact ⟨hshift (h.boundaries t ht).1, hshift (h.boundaries t ht).2⟩
  · refine List.pairwise_cons.mpr ⟨fun t ht => ?_, h.ordered⟩
    have := hbehind t ht
    dsimp only
    omega
  · intro b hle hlt
    by_cases hin : b < pos + byteLength gap
    · refine .inr (hgap.inTrivia ?_ hle hin)
      rintro t (_ | ⟨_, ht⟩)
      · exact Nat.le_refl _
      · exact (Nat.le_add_right _ _).trans (hbehind t ht)
    · by_cases hlex : b < pos + byteLength gap + byteLength lexeme
      · exact .inl ⟨_, List.mem_cons_self, Nat.le_of_not_lt hin, hlex⟩
      · simp only [byteLength_append] at hlt
        rcases h.covered b (by omega) (by omega) with
          ⟨t, ht, hspan⟩ | ⟨before, piece, after, rfl, hpiece, hfirst, hlast, hapart⟩
        · exact .inl ⟨t, List.mem_cons_of_mem _ ht, hspan⟩
        · refine .inr ⟨gap ++ (lexeme ++ before), piece, after, by simp, hpiece, ?_, ?_, ?_⟩
          · simp only [byteLength_append]
            omega
          · simp only [byteLength_append]
            omega
          · rintro t (_ | ⟨_, ht⟩)
            · simp only [byteLength_append]
              omega
            · have := hapart t ht
              simp only [byteLength_append]
              omega

end

/-- The tokens tile the text they are read from, by induction on the run. -/
theorem tiles_tokenizeRest (s : Scanner) : Tiles s.pos s.text (Scanner.tokenizeRest s).1 := by
  fun_induction Scanner.tokenizeRest s with
  | case1 s h =>
    obtain ⟨gap, hadvances, hcovers⟩ := s.skips_skipTrivia
    rw [h] at hcovers
    rw [hadvances.text, hadvances.pos, h, List.append_nil]
    exact tiles_eof hcovers
  | case2 s c behind h scanned rest ih =>
    obtain ⟨gap, hadvances, hcovers⟩ := s.skips_skipTrivia
    obtain ⟨lexeme, hne, hscanned⟩ := Scanner.progresses_scanToken h
    rw [hscanned.pos, hadvances.pos] at ih
    rw [hscanned.text] at hcovers
    rw [hadvances.text, hscanned.text, hscanned.pos, hadvances.pos]
    exact ih.token hcovers hne (Scanner.scanToken_ne_eof c)

/-- On a text below `2^32` bytes the tokens tile the text, and no offset overflows. -/
theorem tokenize_tiles (text : List Char) (h : byteLength text < 2 ^ 32) :
    Tiles 0 text (tokenize text).1 ∧
      ∀ t ∈ (tokenize text).1, t.span.start < 2 ^ 32 ∧ t.span.stop < 2 ^ 32 := by
  have htiles : Tiles 0 text (tokenize text).1 := tiles_tokenizeRest { text }
  refine ⟨htiles, fun t ht => ?_⟩
  have hstart := (htiles.boundaries t ht).1.within.2
  have hstop := (htiles.boundaries t ht).2.within.2
  omega

theorem tokenize_tiles_sample :
    Tiles 0 "a /* é /* */ */ 1".toList (tokenize "a /* é /* */ */ 1".toList).1 ∧
      ∀ t ∈ (tokenize "a /* é /* */ */ 1".toList).1,
        t.span.start < 2 ^ 32 ∧ t.span.stop < 2 ^ 32 :=
  tokenize_tiles _ (by decide)

end Napitia.Lexer

import Napitia.Lexer.Token

/-!
# The scanner

Source text turned into tokens. The scanner holds the text it has yet to read and the
offset of the byte that text starts at; a malformed token is reported and scanning goes
on behind it. Offsets are `u32` in the source; no offset here is past the end of the
text, so on a text below `2^32` bytes the two agree.
-/
namespace Napitia.Lexer

namespace Codes

def unexpectedCharacter : String := "N0001"
def malformedNumber : String := "N0002"
def invalidEscape : String := "N0003"
def unterminatedString : String := "N0004"
def unterminatedChar : String := "N0005"
def invalidCharLiteral : String := "N0006"
def unterminatedComment : String := "N0007"

end Codes

/-- The length of a text in UTF-8. -/
def byteLength (text : List Char) : ℕ := (text.map Char.utf8Size).sum

/-- The Unicode property `White_Space`. -/
def isWhitespace (c : Char) : Bool :=
  (0x09 ≤ c.toNat && c.toNat ≤ 0x0D) || c.toNat = 0x20 || c.toNat = 0x85 || c.toNat = 0xA0 ||
    c.toNat = 0x1680 || (0x2000 ≤ c.toNat && c.toNat ≤ 0x200A) || c.toNat = 0x2028 ||
    c.toNat = 0x2029 || c.toNat = 0x202F || c.toNat = 0x205F || c.toNat = 0x3000

def isAsciiAlphabetic (c : Char) : Bool :=
  ('a' ≤ c && c ≤ 'z') || ('A' ≤ c && c ≤ 'Z')

def isIdentRest (c : Char) : Bool := isAsciiAlphabetic c || isDigit 10 c || c = '_'

structure Scanner where
  text : List Char
  pos : ℕ := 0
  diagnostics : List Diagnostic := []

namespace Scanner

def peek (s : Scanner) : Option Char := s.text.head?

def peekAt (s : Scanner) (n : ℕ) : Option Char := s.text[n]?

def bump (s : Scanner) : Scanner :=
  match s.text with
  | [] => s
  | c :: rest => { s with text := rest, pos := s.pos + c.utf8Size }

/-- Bumps over every character up to the first that fails the test. -/
def bumpWhile (test : Char → Bool) (s : Scanner) : Scanner :=
  { s with
    text := s.text.dropWhile test
    pos := s.pos + byteLength (s.text.takeWhile test) }

/-- Bumps up to a text that is left. -/
def bumpTo (rest : List Char) (s : Scanner) : Scanner :=
  { s with text := rest, pos := s.pos + (byteLength s.text - byteLength rest) }

/-- Reports what was read from `start` on. -/
def pushError (start : ℕ) (code message label : String) (s : Scanner) : Scanner :=
  { s with diagnostics := s.diagnostics ++ [⟨code, ⟨start, s.pos⟩, message, label⟩] }

/-- A scanner that has read a text. -/
structure Advances (s s' : Scanner) (taken : List Char) : Prop where
  text : s.text = taken ++ s'.text
  pos : s'.pos = s.pos + byteLength taken

/-- A scanner that has read something. -/
def Progresses (s s' : Scanner) : Prop := ∃ taken, taken ≠ [] ∧ s.Advances s' taken

theorem text_bump {s : Scanner} {c : Char} {rest : List Char} (h : s.text = c :: rest) :
    s.bump.text = rest := by
  unfold bump
  rw [h]

theorem advances_bump {s : Scanner} {c : Char} {rest : List Char} (h : s.text = c :: rest) :
    s.Advances s.bump [c] := by
  refine ⟨by rw [text_bump h, h]; rfl, ?_⟩
  unfold bump
  rw [h]
  simp [byteLength]

theorem Advances.trans {s s' s'' : Scanner} {taken taken' : List Char} (h : s.Advances s' taken)
    (h' : s'.Advances s'' taken') : s.Advances s'' (taken ++ taken') := by
  refine ⟨by rw [h.text, h'.text, List.append_assoc], ?_⟩
  rw [h'.pos, h.pos, byteLength, byteLength, byteLength, List.map_append, List.sum_append,
    Nat.add_assoc]

theorem Progresses.lt {s s' : Scanner} (h : s.Progresses s') :
    s'.text.length < s.text.length := by
  obtain ⟨taken, hne, hadvances⟩ := h
  rw [hadvances.text, List.length_append]
  have := List.length_pos_iff.mpr hne
  omega

theorem progresses_bump {s : Scanner} {c : Char} {rest : List Char} (h : s.text = c :: rest) :
    s.Progresses s.bump :=
  ⟨[c], List.cons_ne_nil _ _, advances_bump h⟩

theorem Progresses.bump {s s' : Scanner} {c : Char} {rest : List Char} (h : s.Progresses s')
    (hs : s'.text = c :: rest) : s.Progresses s'.bump := by
  obtain ⟨taken, hne, hadvances⟩ := h
  exact ⟨taken ++ [c], by simp, hadvances.trans (advances_bump hs)⟩

theorem Progresses.pushError {s s' : Scanner} (h : s.Progresses s') (start : ℕ)
    (code message label : String) : s.Progresses (s'.pushError start code message label) := by
  obtain ⟨taken, hne, hadvances⟩ := h
  exact ⟨taken, hne, hadvances.text, hadvances.pos⟩

/-- The inside of a block comment, up to the close of its outermost level. -/
def skipBlock (start : ℕ) (depth : ℕ) (s : Scanner) : Scanner :=
  match h : s.text with
  | [] => s.pushError start Codes.unterminatedComment "unterminated block comment"
      "comment starts here"
  | '/' :: '*' :: _ => skipBlock start (depth + 1) s.bump.bump
  | '*' :: '/' :: _ =>
    if depth - 1 = 0 then s.bump.bump else skipBlock start (depth - 1) s.bump.bump
  | _ :: _ => skipBlock start depth s.bump
termination_by s.text.length
decreasing_by
  · exact ((progresses_bump h).bump (text_bump h)).lt
  · exact ((progresses_bump h).bump (text_bump h)).lt
  · exact (progresses_bump h).lt

def skipBlockComment (s : Scanner) : Scanner := skipBlock s.pos 1 s.bump.bump

/-! ### Literals -/

def scanIdent (s : Scanner) : TokenKind × Scanner :=
  let s' := s.bumpWhile isIdentRest
  let text := String.ofList (s.text.takeWhile isIdentRest)
  ((keywordKind text).getD (.ident text), s')

/-- A number, with what the scan of its text reports. -/
def scanNumberToken (start : ℕ) (s : Scanner) : TokenKind × Scanner :=
  let (number, rest) := scanNumber s.text
  let s' := s.bumpTo rest
  match number with
  | .int value base => (.int value base, s')
  | .float clean => (.float clean, s')
  | .error message label => (.error, s'.pushError start Codes.malformedNumber message label)

/-- The character an escape stands for, by the one behind the backslash. -/
def escapeOf : Char → Option Char
  | 'n' => some '\n'
  | 't' => some '\t'
  | 'r' => some '\r'
  | '\\' => some '\\'
  | '"' => some '"'
  | '\'' => some '\''
  | '0' => some '\x00'
  | _ => none

def scanEscape (stringStart : ℕ) (s : Scanner) : Option Char × Scanner :=
  let s' := s.bump
  match s'.peek with
  | some c =>
    match escapeOf c with
    | some value => (some value, s'.bump)
    | none => (none, s'.bump.pushError s.pos Codes.invalidEscape "unknown escape sequence"
        "not a recognized escape")
  | none => (none, s'.pushError stringStart Codes.unterminatedString
      "unterminated string literal" "string starts here")

theorem progresses_scanEscape (start : ℕ) {s : Scanner} {c : Char} {rest : List Char}
    (h : s.text = c :: rest) : s.Progresses (scanEscape start s).2 := by
  have hbump := progresses_bump h
  unfold scanEscape
  cases hpeek : s.bump.text with
  | nil =>
    simp only [peek, hpeek, List.head?_nil]
    exact hbump.pushError _ _ _ _
  | cons d rest' =>
    simp only [peek, hpeek, List.head?_cons]
    cases escapeOf d with
    | some value => exact hbump.bump hpeek
    | none => exact (hbump.bump hpeek).pushError _ _ _ _

/-- A string behind its opening quote; an unknown escape is reported and scanning goes
on behind it. -/
def scanStringRest (start : ℕ) (value : List Char) (s : Scanner) : TokenKind × Scanner :=
  let unterminated := (TokenKind.error, s.pushError start Codes.unterminatedString
    "unterminated string literal" "string starts here")
  match _h : s.text with
  | [] => unterminated
  | c :: _ =>
    if c = '\n' then unterminated
    else if c = '"' then (.str value, s.bump)
    else if c = '\\' then
      let escape := scanEscape start s
      match escape.1 with
      | some c => scanStringRest start (value ++ [c]) escape.2
      | none => if escape.2.peek.isNone then (.error, escape.2)
        else scanStringRest start value escape.2
    else scanStringRest start (value ++ [c]) s.bump
termination_by s.text.length
decreasing_by
  · exact (progresses_scanEscape start _h).lt
  · exact (progresses_scanEscape start _h).lt
  · exact (progresses_bump _h).lt

def scanString (start : ℕ) (s : Scanner) : TokenKind × Scanner :=
  scanStringRest start [] s.bump

def scanRawString (start : ℕ) (s : Scanner) : TokenKind × Scanner :=
  let content := s.bump
  let s' := content.bumpWhile (· ≠ '"')
  match s'.peek with
  | none => (.error, s'.pushError start Codes.unterminatedString "unterminated raw string literal"
      "raw string starts here")
  | some _ => (.str (content.text.takeWhile (· ≠ '"')), s'.bump)

/-- A character literal behind its one character. -/
def closeChar (start : ℕ) (value : Char) (s : Scanner) : TokenKind × Scanner :=
  if s.peek = some '\'' then (.char value, s.bump)
  else
    let s' := s.bumpWhile fun c => c ≠ '\'' ∧ c ≠ '\n'
    let s'' := if s'.peek = some '\'' then s'.bump else s'
    (.error, s''.pushError start Codes.invalidCharLiteral
      "character literal must contain exactly one character" "too many characters in this literal")

def scanChar (start : ℕ) (s : Scanner) : TokenKind × Scanner :=
  let s' := s.bump
  match s'.peek with
  | none => (.error, s'.pushError start Codes.unterminatedChar "unterminated character literal"
      "character starts here")
  | some c =>
    if c = '\'' then
      (.error, s'.bump.pushError start Codes.invalidCharLiteral "empty character literal"
        "character literals must contain exactly one character")
    else if c = '\\' then
      let escape := scanEscape start s'
      match escape.1 with
      | some value => closeChar start value escape.2
      | none => (.error, escape.2)
    else closeChar start c s'.bump

/-! ### Operators -/

/-- The token of a character alone, or of one that the next character makes of it. -/
def oneOr (plain : TokenKind) (followed : List (Char × TokenKind)) (s : Scanner) :
    TokenKind × Scanner :=
  match followed.find? fun next => s.peek = some next.1 with
  | some next => (next.2, s.bump)
  | none => (plain, s)

def oneOrEq (plain withEq : TokenKind) (s : Scanner) : TokenKind × Scanner :=
  oneOr plain [('=', withEq)] s

/-- An operator; `c` has been read. -/
def scanOperatorRest (start : ℕ) (c : Char) (s : Scanner) : TokenKind × Scanner :=
  match c with
  | '+' => oneOrEq .plus .plusEq s
  | '*' => oneOrEq .star .starEq s
  | '/' => oneOrEq .slash .slashEq s
  | '%' => oneOrEq .percent .percentEq s
  | '^' => oneOrEq .caret .caretEq s
  | '~' => (.tilde, s)
  | '-' => oneOr .minus [('=', .minusEq), ('>', .arrow)] s
  | '=' => oneOr .eq [('=', .eqEq), ('>', .fatArrow)] s
  | '!' => oneOrEq .bang .notEq s
  | '<' =>
    if s.peek = some '=' then (.ltEq, s.bump)
    else if s.peek = some '<' then oneOrEq .shl .shlEq s.bump
    else (.lt, s)
  | '>' =>
    if s.peek = some '=' then (.gtEq, s.bump)
    else if s.peek = some '>' then oneOrEq .shr .shrEq s.bump
    else (.gt, s)
  | '&' => oneOr .amp [('&', .andAnd), ('=', .ampEq)] s
  | '|' => oneOr .pipe [('|', .orOr), ('=', .pipeEq)] s
  | '.' =>
    if s.peek = some '.' then oneOrEq .dotDot .dotDotEq s.bump
    else (.dot, s)
  | '(' => (.lParen, s)
  | ')' => (.rParen, s)
  | '[' => (.lBracket, s)
  | ']' => (.rBracket, s)
  | '\x7b' => (.lBrace, s)
  | '\x7d' => (.rBrace, s)
  | ',' => (.comma, s)
  | ';' => (.semi, s)
  | ':' => (.colon, s)
  | '?' => (.question, s)
  | other => (.error, s.pushError start Codes.unexpectedCharacter
      ("unexpected character '" ++ String.singleton other ++ "'") "not valid here")

def scanOperator (start : ℕ) (c : Char) (s : Scanner) : TokenKind × Scanner :=
  scanOperatorRest start c s.bump

/-- The token that starts with `ch`, the character the scanner stands at. -/
def scanToken (ch : Char) (s : Scanner) : TokenKind × Scanner :=
  if isDigit 10 ch then scanNumberToken s.pos s
  else if ch = 'r' ∧ s.peekAt 1 = some '"' then scanRawString s.pos s.bump
  else if isAsciiAlphabetic ch ∨ ch = '_' then scanIdent s
  else if ch = '"' then scanString s.pos s
  else if ch = '\'' then scanChar s.pos s
  else scanOperator s.pos ch s

end Scanner

end Napitia.Lexer

import Napitia.Lexer.Numbers

/-!
# Tokens

What the scanner produces: a kind and the bytes it was read from. An identifier carries
its own text in place of the symbol it is interned as. One file is scanned at a time, so
a diagnostic does not name the file.
-/
namespace Napitia.Lexer

/-- A half-open range of byte offsets. -/
structure Span where
  start : ℕ
  stop : ℕ
  deriving DecidableEq, Repr

def Span.empty (offset : ℕ) : Span := ⟨offset, offset⟩

inductive TokenKind where
  | int (value : ℕ) (base : IntBase)
  | float (clean : List Char)
  | str (value : List Char)
  | char (value : Char)
  | ident (name : String)
  | kwFunc | kwValue | kwMutable | kwConst | kwReturn | kwIf | kwElse | kwWhile | kwFor | kwIn
  | kwLoop | kwBreak | kwContinue | kwTrue | kwFalse | kwRecord | kwVariant | kwMatch | kwProtocol
  | kwExtend | kwWith | kwImport | kwModule | kwPublic | kwPrivate | kwUses | kwRaises | kwRaise
  | kwHandle | kwSuccess | kwFailure | kwAs | kwIs | kwUnsafe | kwAsync | kwAwait | kwRegion
  | kwDefer | kwResource | kwTake | kwDrop | kwObserve
  | plus | minus | star | slash | percent | eqEq | notEq | lt | ltEq | gt | gtEq | andAnd | orOr
  | bang | amp | pipe | caret | tilde | shl | shr | eq | plusEq | minusEq | starEq | slashEq
  | percentEq | ampEq | pipeEq | caretEq | shlEq | shrEq | dot | dotDot | dotDotEq | arrow
  | fatArrow | lParen | rParen | lBracket | rBracket | lBrace | rBrace | comma | semi | colon
  | question
  | eof
  /-- What failed to scan: a diagnostic has been recorded for it. -/
  | error
  deriving DecidableEq, Repr

structure Token where
  kind : TokenKind
  span : Span
  deriving DecidableEq, Repr

/-- The keyword that a text spells. -/
def keywordKind : String → Option TokenKind
  | "func" => some .kwFunc
  | "value" => some .kwValue
  | "mutable" => some .kwMutable
  | "const" => some .kwConst
  | "return" => some .kwReturn
  | "if" => some .kwIf
  | "else" => some .kwElse
  | "while" => some .kwWhile
  | "for" => some .kwFor
  | "in" => some .kwIn
  | "loop" => some .kwLoop
  | "break" => some .kwBreak
  | "continue" => some .kwContinue
  | "true" => some .kwTrue
  | "false" => some .kwFalse
  | "record" => some .kwRecord
  | "variant" => some .kwVariant
  | "match" => some .kwMatch
  | "protocol" => some .kwProtocol
  | "extend" => some .kwExtend
  | "with" => some .kwWith
  | "import" => some .kwImport
  | "module" => some .kwModule
  | "public" => some .kwPublic
  | "private" => some .kwPrivate
  | "uses" => some .kwUses
  | "raises" => some .kwRaises
  | "raise" => some .kwRaise
  | "handle" => some .kwHandle
  | "success" => some .kwSuccess
  | "failure" => some .kwFailure
  | "as" => some .kwAs
  | "is" => some .kwIs
  | "unsafe" => some .kwUnsafe
  | "async" => some .kwAsync
  | "await" => some .kwAwait
  | "region" => some .kwRegion
  | "defer" => some .kwDefer
  | "resource" => some .kwResource
  | "take" => some .kwTake
  | "drop" => some .kwDrop
  | "observe" => some .kwObserve
  | _ => none

structure Diagnostic where
  code : String
  span : Span
  message : String
  label : String
  deriving DecidableEq, Repr

end Napitia.Lexer

import Napitia.Parser.Syntax

/-!
# The parser's state

The tokens from the current one on, the restriction on record literals, the nesting the
parser is in and what it has reported. A parser is an action on that state; it has no result
only where it runs out of the fuel it is given, which no parser of the source can. The text of
a diagnostic is determined by what is recorded of it here.
-/
namespace Napitia.Parser
open Lexer

/-- The most nested an expression may be. -/
def maxExpressionDepth : ℕ := 64

def maxPatternDepth : ℕ := 200

def maxGenericDepth : ℕ := 64

inductive ParseError where
  | expected (what : String) (found : TokenKind)
  | expressionTooDeep
  | patternTooDeep
  | typeTooDeep
  deriving DecidableEq, Repr

structure ParseDiagnostic where
  span : Span
  error : ParseError
  deriving DecidableEq, Repr

structure ParserState where
  /-- What has not been consumed, the current token first and the end of the file last. -/
  tokens : List Token
  noStructLiteral : Bool := false
  exprDepth : ℕ := 0
  reportedExpressionTooDeep : Bool := false
  diagnostics : List ParseDiagnostic := []
  deriving DecidableEq, Repr

namespace ParserState

def kind (s : ParserState) : TokenKind :=
  match s.tokens with
  | token :: _ => token.kind
  | [] => .eof

def span (s : ParserState) : Span :=
  match s.tokens with
  | token :: _ => token.span
  | [] => .empty 0

/-- The next token becomes the current one; the last token stays. -/
def next (s : ParserState) : ParserState :=
  match s.tokens with
  | _ :: token :: rest => { s with tokens := token :: rest }
  | _ => s

def report (s : ParserState) (span : Span) (error : ParseError) : ParserState :=
  { s with diagnostics := s.diagnostics ++ [⟨span, error⟩] }

end ParserState

set_option linter.dupNamespace false in
abbrev Parser (α : Type) := StateT ParserState Option α

def outOfFuel {α : Type} : Parser α := fun _ => none

def advance : Parser Unit := modify ParserState.next

def check (kind : TokenKind) : Parser Bool := do pure ((← get).kind == kind)

def atEof : Parser Bool := check .eof

def eat (kind : TokenKind) : Parser Bool := do
  if ← check kind then
    advance
    pure true
  else pure false

/-- What a caller expected in place of the current token. Nothing is said of a token that
the lexer has reported, nor of anything once an expression was refused for its depth. -/
def errorExpected (what : String) : Parser Unit := modify fun s =>
  if s.kind = .error ∨ s.reportedExpressionTooDeep = true then s
  else s.report s.span (.expected what s.kind)

def expect (kind : TokenKind) (what : String) : Parser Bool := do
  if ← check kind then
    advance
    pure true
  else
    errorExpected what
    pure false

def expectIdent (what : String) : Parser (Option String) := do
  match (← get).kind with
  | .ident name =>
    advance
    pure (some name)
  | _ =>
    errorExpected what
    pure none

/-- Claims one more level of nesting, or refuses and reports it once for the file. -/
def enterExpression (span : Span) : Parser Bool := do
  let s ← get
  if s.exprDepth ≥ maxExpressionDepth then
    set (if s.reportedExpressionTooDeep then s
      else { s.report span .expressionTooDeep with reportedExpressionTooDeep := true })
    pure false
  else
    set { s with exprDepth := s.exprDepth + 1 }
    pure true

/-- Gives back as many levels as were claimed. -/
def leaveExpressions (claimed : ℕ) : Parser Unit :=
  modify fun s => { s with exprDepth := s.exprDepth - claimed }

def leaveExpression : Parser Unit := leaveExpressions 1

def setNoStructLiteral (restricted : Bool) : Parser Unit :=
  modify fun s => { s with noStructLiteral := restricted }

/-- A brace here opens a record literal rather than a block. -/
def atRecordLiteral : Parser Bool := do
  let s ← get
  pure (!s.noStructLiteral && s.kind == .lBrace)

/-- An iteration that has consumed nothing takes the token in its way. -/
def ensureProgress (before : ℕ) : Parser Unit := modify fun s =>
  if s.tokens.length = before then s.next else s

/-! ### Recovery -/

/-- Whether a token of this kind can begin an item. -/
def isItemStart : TokenKind → Bool
  | .kwFunc | .kwRecord | .kwVariant | .kwProtocol | .kwExtend | .kwImport | .kwPublic
  | .kwResource => true
  | _ => false

def isStmtStart (kind : TokenKind) : Bool :=
  isItemStart kind || match kind with
    | .kwValue | .kwMutable | .kwDefer | .kwDrop | .kwIf | .kwWhile | .kwLoop | .kwObserve
    | .kwMatch | .kwReturn | .kwBreak | .kwContinue => true
    | _ => false

/-- The tokens from the first one that `stop` holds of, or after the first one that `past`
holds of. -/
def skipTo (stop past : TokenKind → Bool) : List Token → List Token
  | [] => []
  | [token] => [token]
  | token :: next :: rest =>
    if token.kind = .eof ∨ stop token.kind = true then token :: next :: rest
    else if past token.kind then next :: rest
    else skipTo stop past (next :: rest)

def synchronize (stop past : TokenKind → Bool) : Parser Unit :=
  modify fun s => { s with tokens := skipTo stop past s.tokens }

def synchronizeToStmt : Parser Unit :=
  synchronize (fun kind => kind == .rBrace || (kind != .semi && isStmtStart kind)) (· == .semi)

def synchronizeToBracketListItem : Parser Unit := synchronize (· == .rBracket) (· == .comma)

end Napitia.Parser

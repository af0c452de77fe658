import Napitia.Parser.State

/-!
# Parsing expressions and statements

Each parser of the source that another one may come back to is a field of `Rec`, and every
parser takes the ones it comes back to from there; `parser` closes the recursion with fuel.
Loops take their fuel as an argument.
-/
namespace Napitia.Parser
open Lexer

/-! ### Types and patterns -/

mutual

def parseTypeAtDepth : ℕ → ℕ → Parser (Option TypeRef)
  | 0, _ => outOfFuel
  | n + 1, depth => do
    match ← expectIdent "a type name" with
    | none => pure none
    | some name =>
      if ← check .lBracket then
        match ← parseTypeArgListAtDepth n (depth + 1) with
        | none => pure none
        | some args => pure (some (.mk name args))
      else pure (some (.mk name []))

def parseTypeArgListAtDepth : ℕ → ℕ → Parser (Option (List TypeRef))
  | 0, _ => outOfFuel
  | n + 1, depth => do
    let bracket := (← get).span
    if !(← expect .lBracket "`[`") then pure none
    else if depth > maxGenericDepth then
      modify fun s => s.report bracket .typeTooDeep
      synchronizeToBracketListItem
      let _ ← expect .rBracket "`]`"
      pure (some [])
    else if ← check .rBracket then
      errorExpected "a type argument"
      let _ ← expect .rBracket "`]`"
      pure (some [])
    else
      let args ← parseTypeArgs n depth []
      let _ ← expect .rBracket "`]`"
      pure (some args)

def parseTypeArgs : ℕ → ℕ → List TypeRef → Parser (List TypeRef)
  | 0, _, _ => outOfFuel
  | n + 1, depth, args => do
    match ← parseTypeAtDepth n depth with
    | some ty =>
      if ← eat .comma then
        if ← check .rBracket then pure (args ++ [ty])
        else parseTypeArgs n depth (args ++ [ty])
      else pure (args ++ [ty])
    | none =>
      synchronizeToBracketListItem
      if (← check .rBracket) || (← atEof) then pure args else parseTypeArgs n depth args

end

def parseType (n : ℕ) : Parser (Option TypeRef) := parseTypeAtDepth n 0

def parseTypeArgList (n : ℕ) : Parser (Option (List TypeRef)) := parseTypeArgListAtDepth n 0

mutual

def parsePatternAtDepth : ℕ → ℕ → Parser (Option Pattern)
  | 0, _ => outOfFuel
  | n + 1, depth => do
    let s ← get
    if depth > maxPatternDepth then
      set (s.report s.span .patternTooDeep)
      pure none
    else
      match s.kind with
      | .ident name =>
        advance
        if name = "_" then pure (some .wildcard)
        else if ← eat .lParen then
          match ← parsePatternArgs n (depth + 1) with
          | none => pure none
          | some args =>
            if ← expect .rParen "`)`" then pure (some (.variant name args)) else pure none
        else pure (some (.ident name))
      | .int value _ =>
        advance
        pure (some (.int value))
      | .str value =>
        advance
        pure (some (.str value))
      | .char value =>
        advance
        pure (some (.char value))
      | .kwTrue =>
        advance
        pure (some (.bool true))
      | .kwFalse =>
        advance
        pure (some (.bool false))
      | _ =>
        errorExpected "a pattern"
        pure none

/-- What stands between the parentheses of a pattern. -/
def parsePatternArgs : ℕ → ℕ → Parser (Option (List Pattern))
  | 0, _ => outOfFuel
  | n + 1, depth => do
    if ← check .rParen then pure (some []) else parsePatternList n depth []

def parsePatternList : ℕ → ℕ → List Pattern → Parser (Option (List Pattern))
  | 0, _, _ => outOfFuel
  | n + 1, depth, args => do
    match ← parsePatternAtDepth n depth with
    | none => pure none
    | some arg =>
      if ← eat .comma then
        if ← check .rParen then pure (some (args ++ [arg]))
        else parsePatternList n depth (args ++ [arg])
      else pure (some (args ++ [arg]))

end

def parsePattern (n : ℕ) : Parser (Option Pattern) := parsePatternAtDepth n 0

def parseFailurePattern (n : ℕ) : Parser (Option FailurePattern) := do
  if (← get).kind = .ident "_" then
    advance
    pure (some .wildcard)
  else
    match ← expectIdent "an error type name" with
    | none => pure none
    | some errorType =>
      if !(← expect .dot "`.`") then pure none
      else
        match ← expectIdent "a case name" with
        | none => pure none
        | some case =>
          if ← eat .lParen then
            match ← parsePatternArgs n 0 with
            | none => pure none
            | some args =>
              if ← expect .rParen "`)`" then pure (some (.case errorType case args))
              else pure none
          else pure (some (.case errorType case []))

/-! ### Operators -/

def infixBindingPower : TokenKind → Option (ℕ × BinaryOp)
  | .orOr => some (1, .or)
  | .andAnd => some (2, .and)
  | .pipe => some (3, .bitOr)
  | .caret => some (4, .bitXor)
  | .amp => some (5, .bitAnd)
  | .eqEq => some (6, .eq)
  | .notEq => some (6, .ne)
  | .lt => some (7, .lt)
  | .ltEq => some (7, .le)
  | .gt => some (7, .gt)
  | .gtEq => some (7, .ge)
  | .shl => some (8, .shl)
  | .shr => some (8, .shr)
  | .plus => some (9, .add)
  | .minus => some (9, .sub)
  | .star => some (10, .mul)
  | .slash => some (10, .div)
  | .percent => some (10, .rem)
  | _ => none

def assignOp : TokenKind → Option AssignOp
  | .eq => some .assign
  | .plusEq => some .add
  | .minusEq => some .sub
  | .starEq => some .mul
  | .slashEq => some .div
  | .percentEq => some .rem
  | .ampEq => some .bitAnd
  | .pipeEq => some .bitOr
  | .caretEq => some .bitXor
  | .shlEq => some .shl
  | .shrEq => some .shr
  | _ => none

def rangeOp : TokenKind → Option BinaryOp
  | .dotDot => some .range
  | .dotDotEq => some .rangeInclusive
  | _ => none

def unaryOp : TokenKind → Option UnaryOp
  | .minus => some .neg
  | .bang => some .not
  | .tilde => some .bitNot
  | _ => none

/-- The parsers that others come back to. -/
structure Rec where
  assignment : Parser Expr
  binary : ℕ → Parser Expr
  unary : Parser Expr
  ifExpr : Parser IfExpr
  block : Parser Block

section
variable (r : Rec)

def parseExpression : Parser Expr := r.assignment

def parseExpressionNoStructLiteral : Parser Expr := do
  let previous := (← get).noStructLiteral
  setNoStructLiteral true
  let expr ← parseExpression r
  setNoStructLiteral previous
  pure expr

def parseRange : Parser Expr := do
  let left ← r.binary 1
  match rangeOp (← get).kind with
  | none => pure left
  | some op =>
    advance
    let right ← r.binary 1
    pure (.binary op left right)

def parseAssignment : Parser Expr := do
  let left ← parseRange r
  match assignOp (← get).kind with
  | none => pure left
  | some op =>
    if !(← enterExpression (← get).span) then pure left
    else
      advance
      let value ← r.assignment
      leaveExpression
      pure (.assign left op value)

/-- The operators of one level and above, folded to the left, and how many levels of nesting
they have claimed. -/
def binaryLoop (minPower : ℕ) : ℕ → Expr → ℕ → Parser (Expr × ℕ)
  | 0, _, _ => outOfFuel
  | n + 1, left, claimed => do
    match infixBindingPower (← get).kind with
    | none => pure (left, claimed)
    | some (power, op) =>
      if power < minPower then pure (left, claimed)
      else if !(← enterExpression (← get).span) then pure (left, claimed)
      else
        advance
        let right ← r.binary (power + 1)
        binaryLoop minPower n (.binary op left right) (claimed + 1)

def parseBinary (n minPower : ℕ) : Parser Expr := do
  let left ← r.unary
  let (expr, claimed) ← binaryLoop r minPower n left 0
  leaveExpressions claimed
  pure expr

/-! ### Operands -/

def parseArgList : ℕ → List Expr → Parser (List Expr)
  | 0, _ => outOfFuel
  | n + 1, args => do
    let arg ← parseExpression r
    if ← eat .comma then
      if ← check .rParen then pure (args ++ [arg]) else parseArgList n (args ++ [arg])
    else pure (args ++ [arg])

/-- Call arguments are delimited, so that no restriction reaches into them. -/
def parseCallArgs (n : ℕ) : Parser (List Expr) := do
  let previous := (← get).noStructLiteral
  setNoStructLiteral false
  let args ← if ← check .rParen then pure [] else parseArgList r n []
  setNoStructLiteral previous
  pure args

def postfixLoop : ℕ → Expr → ℕ → Parser (Expr × ℕ)
  | 0, _, _ => outOfFuel
  | n + 1, expr, claimed => do
    match (← get).kind with
    | .lParen =>
      if !(← enterExpression (← get).span) then pure (expr, claimed)
      else
        advance
        let args ← parseCallArgs r n
        let _ ← expect .rParen "`)`"
        postfixLoop n (.call expr args) (claimed + 1)
    | .dot =>
      if !(← enterExpression (← get).span) then pure (expr, claimed)
      else
        advance
        match ← expectIdent "a field name" with
        | none => pure (expr, claimed + 1)
        | some name => postfixLoop n (.field expr name) (claimed + 1)
    | .kwAs =>
      if !(← enterExpression (← get).span) then pure (expr, claimed)
      else
        advance
        match ← parseType n with
        | none => pure (expr, claimed + 1)
        | some ty => postfixLoop n (.cast expr ty) (claimed + 1)
    | .question =>
      if !(← enterExpression (← get).span) then pure (expr, claimed)
      else
        advance
        postfixLoop n (.try expr) (claimed + 1)
    | _ => pure (expr, claimed)

def parseFields : ℕ → List (String × Expr) → Parser (List (String × Expr))
  | 0, _ => outOfFuel
  | n + 1, fields => do
    if (← check .rBrace) || (← atEof) then pure fields
    else
      match ← expectIdent "a field name" with
      | none =>
        synchronizeToStmt
        pure fields
      | some name =>
        let _ ← expect .colon "`:`"
        let value ← parseExpression r
        if ← eat .comma then parseFields n (fields ++ [(name, value)])
        else pure (fields ++ [(name, value)])

def parseRecordLiteral (n : ℕ) (typeName : String) (typeArgs : List TypeRef) : Parser Expr := do
  advance
  let fields ← parseFields r n []
  let _ ← expect .rBrace "`\x7d`"
  pure (.recordLiteral typeName typeArgs fields)

/-- An identifier, with what follows it: type arguments, the braces of a record literal. -/
def parseIdentExpr (n : ℕ) (name : String) : Parser Expr := do
  advance
  if ← check .lBracket then
    match ← parseTypeArgList n with
    | none => pure .error
    | some args =>
      if ← atRecordLiteral then parseRecordLiteral r n name args else pure (.typeApply name args)
  else if ← atRecordLiteral then parseRecordLiteral r n name []
  else pure (.ident name)

/-- Parentheses are delimited, so that no restriction reaches into them. -/
def parseParenExpr : Parser Expr := do
  advance
  let previous := (← get).noStructLiteral
  setNoStructLiteral false
  let inner ← parseExpression r
  setNoStructLiteral previous
  let _ ← expect .rParen "`)`"
  pure (.paren inner)

def parseArmBody : Parser MatchArmBody := do
  if ← check .lBrace then
    let block ← r.block
    pure (.block block)
  else
    let expr ← parseExpression r
    pure (.expr expr)

def parseMatchArm (n : ℕ) : Parser (Option MatchArm) := do
  match ← parsePattern n with
  | none => pure none
  | some pattern =>
    if !(← expect .fatArrow "`=>`") then pure none
    else
      let body ← parseArmBody r
      pure (some (.mk pattern body))

def parseHandleArm (n : ℕ) : Parser (Option HandleArm) := do
  match (← get).kind with
  | .kwSuccess =>
    advance
    match ← parsePattern n with
    | none => pure none
    | some pattern =>
      if !(← expect .fatArrow "`=>`") then pure none
      else
        let body ← parseArmBody r
        pure (some (.success pattern body))
  | .kwFailure =>
    advance
    match ← parseFailurePattern n with
    | none => pure none
    | some pattern =>
      if !(← expect .fatArrow "`=>`") then pure none
      else
        let body ← parseArmBody r
        pure (some (.failure pattern body))
  | _ =>
    errorExpected "`success` or `failure`"
    pure none

/-- The arms between two braces, each attempt followed by an optional comma. -/
def parseArms {α : Type} (parseArm : Parser (Option α)) : ℕ → List α → Parser (List α)
  | 0, _ => outOfFuel
  | n + 1, arms => do
    if (← check .rBrace) || (← atEof) then pure arms
    else
      let before := (← get).tokens.length
      let arm ← parseArm
      let _ ← eat .comma
      ensureProgress before
      parseArms parseArm n (arms ++ arm.toList)

def parseMatchExpr (n : ℕ) : Parser Expr := do
  advance
  let scrutinee ← parseExpressionNoStructLiteral r
  let _ ← expect .lBrace "`\x7b`"
  let arms ← parseArms (parseMatchArm r n) n []
  let _ ← expect .rBrace "`\x7d`"
  pure (.matchExpr scrutinee arms)

def parseHandleExpr (n : ℕ) : Parser Expr := do
  advance
  let operand ← parseExpressionNoStructLiteral r
  let _ ← expect .lBrace "`\x7b`"
  let arms ← parseArms (parseHandleArm r n) n []
  let _ ← expect .rBrace "`\x7d`"
  pure (.handle operand arms)

def parseOptionalTrailingValue : Parser (Option Expr) := do
  match (← get).kind with
  | .semi | .rBrace | .comma | .eof => pure none
  | _ =>
    let expr ← parseExpression r
    pure (some expr)

def parseReturnExpr : Parser Expr := do
  advance
  let value ← parseOptionalTrailingValue r
  pure (.ret value)

def parseBreakExpr : Parser Expr := do
  advance
  let value ← parseOptionalTrailingValue r
  pure (.brk value)

def parseRaiseExpr : Parser Expr := do
  advance
  let operand ← parseExpression r
  pure (.raise operand)

/-- A token that is an expression by itself. -/
def parseLiteral (expr : Expr) : Parser Expr := do
  advance
  pure expr

def parsePrimary (n : ℕ) : Parser Expr := do
  match (← get).kind with
  | .int value base => parseLiteral (.int value base)
  | .float clean => parseLiteral (.float clean)
  | .str value => parseLiteral (.str value)
  | .char value => parseLiteral (.char value)
  | .kwTrue => parseLiteral (.bool true)
  | .kwFalse => parseLiteral (.bool false)
  | .ident name => parseIdentExpr r n name
  | .lParen => parseParenExpr r
  | .kwIf =>
    let expr ← r.ifExpr
    pure (.ifExpr expr)
  | .kwMatch => parseMatchExpr r n
  | .lBrace =>
    let block ← r.block
    pure (.block block)
  | .kwReturn => parseReturnExpr r
  | .kwBreak => parseBreakExpr r
  | .kwContinue => parseLiteral .cont
  | .kwRaise => parseRaiseExpr r
  | .kwHandle => parseHandleExpr r n
  | _ =>
    errorExpected "an expression"
    pure .error

def parsePostfix (n : ℕ) : Parser Expr := do
  let expr ← parsePrimary r n
  let (expr, claimed) ← postfixLoop r n expr 0
  leaveExpressions claimed
  pure expr

def parseUnaryInner (n : ℕ) : Parser Expr := do
  match unaryOp (← get).kind with
  | none => parsePostfix r n
  | some op =>
    advance
    let operand ← r.unary
    pure (.unary op operand)

def parseUnary (n : ℕ) : Parser Expr := do
  if !(← enterExpression (← get).span) then pure .error
  else
    let expr ← parseUnaryInner r n
    leaveExpression
    pure expr

def parseIfExpr : Parser IfExpr := do
  advance
  let condition ← parseExpressionNoStructLiteral r
  let thenBranch ← r.block
  if ← eat .kwElse then
    if ← check .kwIf then
      if ← enterExpression (← get).span then
        let nested ← r.ifExpr
        leaveExpression
        pure (.mk condition thenBranch (some (.ifExpr nested)))
      else pure (.mk condition thenBranch none)
    else
      let elseBlock ← r.block
      pure (.mk condition thenBranch (some (.block elseBlock)))
  else pure (.mk condition thenBranch none)

/-! ### Statements -/

/-- Whether the expression ends in a brace, so that no semicolon need follow it. -/
def endsWithBrace : Expr → Bool
  | .ifExpr _ | .matchExpr .. | .block _ => true
  | _ => false

inductive StmtOrTail where
  | stmt (stmt : Stmt)
  | tail (expr : Expr)
  /-- The statement failed in a way that the block has to recover from. -/
  | recover

def parsePlaceSteps : ℕ → Expr → ℕ → Parser (Expr × ℕ)
  | 0, _, _ => outOfFuel
  | n + 1, expr, claimed => do
    if !(← check .dot) then pure (expr, claimed)
    else if !(← enterExpression (← get).span) then pure (expr, claimed)
    else
      advance
      match ← expectIdent "a field name" with
      | none => pure (expr, claimed + 1)
      | some name => parsePlaceSteps n (.field expr name) (claimed + 1)

def parsePlaceExpr (n : ℕ) : Parser (Option Expr) := do
  match ← expectIdent "a place to observe" with
  | none => pure none
  | some name =>
    let (expr, claimed) ← parsePlaceSteps n (.ident name) 0
    leaveExpressions claimed
    pure (some expr)

/-- The name that stands where none was written. -/
def placeholderSymbol : String := "<error>"

def parseObserveStmt (n : ℕ) : Parser StmtOrTail := do
  let start := (← get).span
  advance
  match ← parsePlaceExpr n with
  | none => pure .recover
  | some source =>
    let _ ← expect .kwAs "`as`"
    let aliasName ← expectIdent "an observation alias name"
    if !(← enterExpression start) then pure .recover
    else
      let body ← r.block
      leaveExpression
      pure (.stmt (.observe source (aliasName.getD placeholderSymbol) body))

def parseBindingStmt (n : ℕ) : Parser Stmt := do
  let isMutable := (← get).kind == .kwMutable
  advance
  let name ← expectIdent "a binding name"
  let ty ← if ← eat .colon then parseType n else pure none
  let _ ← expect .eq "`=`"
  let value ← parseExpression r
  let _ ← expect .semi "`;`"
  pure (.binding isMutable (name.getD placeholderSymbol) ty value)

def parseDeferStmt : Parser Stmt := do
  advance
  let expr ← parseExpression r
  let _ ← expect .semi "`;`"
  pure (.defer expr)

def parseDropStmt : Parser Stmt := do
  advance
  let expr ← parseExpression r
  let _ ← expect .semi "`;`"
  pure (.drop expr)

def parseWhileStmt : Parser Stmt := do
  advance
  let condition ← parseExpressionNoStructLiteral r
  let body ← r.block
  pure (.while condition body)

def parseLoopStmt : Parser Stmt := do
  advance
  let body ← r.block
  pure (.loop body)

def parseExprStmt : Parser StmtOrTail := do
  let expr ← parseExpression r
  if ← eat .semi then pure (.stmt (.expr expr))
  else if (← check .rBrace) || (← atEof) then pure (.tail expr)
  else if endsWithBrace expr then pure (.stmt (.expr expr))
  else
    errorExpected "`;`"
    pure .recover

def parseStatementOrTail (n : ℕ) : Parser StmtOrTail := do
  match (← get).kind with
  | .kwValue | .kwMutable =>
    let stmt ← parseBindingStmt r n
    pure (.stmt stmt)
  | .kwDefer =>
    let stmt ← parseDeferStmt r
    pure (.stmt stmt)
  | .kwDrop =>
    let stmt ← parseDropStmt r
    pure (.stmt stmt)
  | .kwWhile =>
    let stmt ← parseWhileStmt r
    pure (.stmt stmt)
  | .kwLoop =>
    let stmt ← parseLoopStmt r
    pure (.stmt stmt)
  | .kwObserve => parseObserveStmt r n
  | _ => parseExprStmt r

def parseStatements : ℕ → List Stmt → Parser (List Stmt × Option Expr)
  | 0, _ => outOfFuel
  | n + 1, statements => do
    if (← check .rBrace) || (← atEof) then pure (statements, none)
    else
      let before := (← get).tokens.length
      match ← parseStatementOrTail r n with
      | .stmt stmt =>
        ensureProgress before
        parseStatements n (statements ++ [stmt])
      | .tail expr => pure (statements, some expr)
      | .recover =>
        synchronizeToStmt
        ensureProgress before
        parseStatements n statements

def parseBlock (n : ℕ) : Parser Block := do
  if !(← eat .lBrace) then
    errorExpected "`\x7b`"
    pure (.mk [] none)
  else
    let (statements, tail) ← parseStatements r n []
    let _ ← expect .rBrace "`\x7d`"
    pure (.mk statements tail)

end

/-- The parsers with so much fuel. -/
def parser : ℕ → Rec
  | 0 => ⟨outOfFuel, fun _ => outOfFuel, outOfFuel, outOfFuel, outOfFuel⟩
  | n + 1 =>
    let r := parser n
    ⟨parseAssignment r, parseBinary r n, parseUnary r n, parseIfExpr r, parseBlock r n⟩

end Napitia.Parser

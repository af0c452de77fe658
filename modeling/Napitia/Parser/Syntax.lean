import Napitia.Lexer.Token

/-!
# The syntax tree

What the parser builds of an expression, a statement and a block. A node keeps the words
it was read from and not the range of the file they stand in.
-/
namespace Napitia.Parser
open Lexer

inductive UnaryOp where
  | neg | not | bitNot
  deriving DecidableEq, Repr

inductive BinaryOp where
  | add | sub | mul | div | rem | eq | ne | lt | le | gt | ge | and | or | bitAnd | bitOr | bitXor
  | shl | shr | range | rangeInclusive
  deriving DecidableEq, Repr

inductive AssignOp where
  | assign | add | sub | mul | div | rem | bitAnd | bitOr | bitXor | shl | shr
  deriving DecidableEq, Repr

/-- A named type and what it is applied to. -/
inductive TypeRef where
  | mk (name : String) (args : List TypeRef)

inductive Pattern where
  | wildcard
  | ident (name : String)
  | «variant» (name : String) (args : List Pattern)
  | int (value : ℕ)
  | str (value : List Char)
  | char (value : Char)
  | bool (value : Bool)

/-- What a failure arm names: a case of an error type, or every other one. -/
inductive FailurePattern where
  | wildcard
  | case (errorType case : String) (args : List Pattern)

mutual

inductive Expr where
  | int (value : ℕ) (base : IntBase)
  | float (clean : List Char)
  | str (value : List Char)
  | char (value : Char)
  | bool (value : Bool)
  | ident (name : String)
  | paren (inner : Expr)
  | unary (op : UnaryOp) (operand : Expr)
  | binary (op : BinaryOp) (left right : Expr)
  | assign (target : Expr) (op : AssignOp) (value : Expr)
  | call (callee : Expr) (args : List Expr)
  | field (base : Expr) (name : String)
  | cast (expr : Expr) (ty : TypeRef)
  | try (expr : Expr)
  | ifExpr (expr : IfExpr)
  | matchExpr (scrutinee : Expr) (arms : List MatchArm)
  | block (block : Block)
  | ret (value : Option Expr)
  | brk (value : Option Expr)
  | cont
  | recordLiteral (typeName : String) (typeArgs : List TypeRef) (fields : List (String × Expr))
  | typeApply (base : String) (args : List TypeRef)
  | raise (operand : Expr)
  | handle (operand : Expr) (arms : List HandleArm)
  /-- A malformed expression that the parser recovered from. -/
  | error

inductive IfExpr where
  | mk (condition : Expr) (thenBranch : Block) (elseBranch : Option ElseBranch)

inductive ElseBranch where
  | block (block : Block)
  | ifExpr (expr : IfExpr)

inductive MatchArm where
  | mk (pattern : Pattern) (body : MatchArmBody)

inductive MatchArmBody where
  | expr (expr : Expr)
  | block (block : Block)

inductive HandleArm where
  | success (pattern : Pattern) (body : MatchArmBody)
  | failure (pattern : FailurePattern) (body : MatchArmBody)

inductive Block where
  | mk (statements : List Stmt) (tail : Option Expr)

inductive Stmt where
  | binding («mutable» : Bool) (name : String) (ty : Option TypeRef) (value : Expr)
  | expr (expr : Expr)
  | defer (expr : Expr)
  | drop (expr : Expr)
  | while (condition : Expr) (body : Block)
  | loop (body : Block)
  | observe (source : Expr) (aliasName : String) (body : Block)

end

end Napitia.Parser

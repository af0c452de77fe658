import Napitia.Hir

/-!
# Function bodies

The HIR of a function body as name resolution hands it to the later stages. What each
expression's type is stands apart from it, by its id. Written types, spans and the
display names of locals and fields are left out.
-/
namespace Napitia.Hir.Body
open Nir Lower
open Hir (ExprId HirHandleArmKind)

inductive UnaryOp where
  | neg | not | bitNot
  deriving DecidableEq, Repr

inductive BinaryOp where
  | add | sub | mul | div | rem
  | eq | ne | lt | le | gt | ge
  | and | or
  | bitAnd | bitOr | bitXor | shl | shr
  | range | rangeInclusive
  deriving DecidableEq, Repr

inductive AssignOp where
  | assign | add | sub | mul | div | rem
  | bitAnd | bitOr | bitXor | shl | shr
  deriving DecidableEq, Repr

mutual

inductive HirExpr where
  | int (id : ExprId) (value : ℕ)
  | float (id : ExprId) (value : F64)
  | str (id : ExprId) (value : String)
  | char (id : ExprId) (value : Char)
  | bool (id : ExprId) (value : Bool)
  | localVar (id : ExprId) (binding : LocalId)
  | function (id : ExprId) (item : ItemId)
  | caseRef (id : ExprId) (variant : ItemId) (case : ℕ)
  | protocolMethodRef (id : ExprId) (protocol : ItemId) (method : ℕ)
  | unary (id : ExprId) (op : UnaryOp) (operand : HirExpr)
  | binary (id : ExprId) (op : BinaryOp) (left right : HirExpr)
  | assign (id : ExprId) (target : HirExpr) (op : AssignOp) (value : HirExpr)
  | call (id : ExprId) (callee : HirExpr) (args : List HirExpr)
  | field (id : ExprId) (base : HirExpr)
  | cast (id : ExprId) (expr : HirExpr)
  | tryExpr (id : ExprId) (expr : HirExpr)
  | ifExpr (id : ExprId) (condition : HirExpr) (thenBranch : HirBlock)
      (elseBranch : Option HirElse)
  | matchExpr (id : ExprId) (scrutinee : HirExpr) (arms : List HirMatchArm)
  | block (block : HirBlock)
  | returnExpr (id : ExprId) (value : Option HirExpr)
  | breakExpr (id : ExprId) (value : Option HirExpr)
  | continueExpr (id : ExprId)
  | recordLiteral (id : ExprId) (record : ItemId) (fields : List HirFieldInit)
  | raise (id : ExprId) (operand : HirExpr)
  | handle (id : ExprId) (operand : HirExpr) (arms : List HirHandleArm)
  | error (id : ExprId)

inductive HirBlock where
  | mk (id : ExprId) (statements : List HirStmt) (tail : Option HirExpr)

inductive HirStmt where
  | binding (binding : LocalId) (value : HirExpr)
  | expr (expr : HirExpr)
  | defer (expr : HirExpr)
  | drop (expr : HirExpr)
  | whileLoop (condition : HirExpr) (body : HirBlock)
  | loop (body : HirBlock)
  | observe (id : ObservationId) (source : HirExpr) (aliased : LocalId) (body : HirBlock)

inductive HirElse where
  | block (block : HirBlock)
  | ifExpr (expr : HirExpr)

inductive HirMatchArmBody where
  | expr (expr : HirExpr)
  | block (block : HirBlock)

inductive HirMatchArm where
  | mk (pattern : HirPattern) (body : HirMatchArmBody)

inductive HirHandleArm where
  | mk (kind : HirHandleArmKind) (body : HirMatchArmBody)

inductive HirFieldInit where
  | mk (fieldIndex : ℕ) (value : HirExpr)

end

def HirBlock.id : HirBlock → ExprId
  | .mk id _ _ => id

def HirBlock.tail : HirBlock → Option HirExpr
  | .mk _ _ tail => tail

def HirBlock.statements : HirBlock → List HirStmt
  | .mk _ statements _ => statements

def HirExpr.id : HirExpr → ExprId
  | .int id _ | .float id _ | .str id _ | .char id _ | .bool id _ | .localVar id _
  | .function id _ | .caseRef id _ _ | .protocolMethodRef id _ _ | .unary id _ _
  | .binary id _ _ _ | .assign id _ _ _ | .call id _ _ | .field id _ | .cast id _
  | .tryExpr id _ | .ifExpr id _ _ _ | .matchExpr id _ _ | .returnExpr id _
  | .breakExpr id _ | .continueExpr id | .recordLiteral id _ _ | .raise id _
  | .handle id _ _ | .error id => id
  | .block b => b.id

def HirMatchArmBody.id : HirMatchArmBody → ExprId
  | .expr e => e.id
  | .block b => b.id

structure HirParam where
  binding : LocalId
  take : Bool
  deriving DecidableEq, Repr

structure HirFunction where
  id : ItemId
  params : List HirParam
  body : HirBlock

end Napitia.Hir.Body

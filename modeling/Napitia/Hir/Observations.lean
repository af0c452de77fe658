import Napitia.Hir.Body

/-!
# The observations of a body

The ids of the `observe` statements of a piece of a function body, in source order.
-/
namespace Napitia.Hir.Body
open Nir

mutual

def HirExpr.observations : HirExpr → List ObservationId
  | .int .. | .float .. | .str .. | .char .. | .bool .. | .localVar .. | .function ..
  | .caseRef .. | .protocolMethodRef .. | .continueExpr _ | .error _ => []
  | .unary _ _ operand | .cast _ operand | .tryExpr _ operand | .raise _ operand
  | .field _ operand => operand.observations
  | .binary _ _ left right => left.observations ++ right.observations
  | .assign _ target _ value => target.observations ++ value.observations
  | .call _ callee args => callee.observations ++ argsObservations args
  | .ifExpr _ condition thenBranch elseBranch =>
    condition.observations ++ (thenBranch.observations ++ elseObservations elseBranch)
  | .matchExpr _ scrutinee arms => scrutinee.observations ++ armsObservations arms
  | .block body => body.observations
  | .returnExpr _ value | .breakExpr _ value => valueObservations value
  | .recordLiteral _ _ fields => fieldsObservations fields
  | .handle _ operand arms => operand.observations ++ handlersObservations arms

def argsObservations : List HirExpr → List ObservationId
  | [] => []
  | arg :: rest => arg.observations ++ argsObservations rest

def valueObservations : Option HirExpr → List ObservationId
  | none => []
  | some value => value.observations

def fieldsObservations : List HirFieldInit → List ObservationId
  | [] => []
  | .mk _ value :: rest => value.observations ++ fieldsObservations rest

def elseObservations : Option HirElse → List ObservationId
  | none => []
  | some (.block body) => body.observations
  | some (.ifExpr inner) => inner.observations

def HirBlock.observations : HirBlock → List ObservationId
  | .mk _ statements tail => stmtsObservations statements ++ valueObservations tail

def stmtsObservations : List HirStmt → List ObservationId
  | [] => []
  | stmt :: rest => stmt.observations ++ stmtsObservations rest

def HirStmt.observations : HirStmt → List ObservationId
  | .binding _ value => value.observations
  | .expr expr | .defer expr | .drop expr => expr.observations
  | .whileLoop condition body => condition.observations ++ body.observations
  | .loop body => body.observations
  | .observe id source _ body => id :: (source.observations ++ body.observations)

def HirMatchArmBody.observations : HirMatchArmBody → List ObservationId
  | .expr expr => expr.observations
  | .block body => body.observations

def armsObservations : List HirMatchArm → List ObservationId
  | [] => []
  | .mk _ body :: rest => body.observations ++ armsObservations rest

def handlersObservations : List HirHandleArm → List ObservationId
  | [] => []
  | .mk _ body :: rest => body.observations ++ handlersObservations rest

end

end Napitia.Hir.Body
